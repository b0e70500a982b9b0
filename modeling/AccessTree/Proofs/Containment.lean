import AccessTree.Proofs.Limits
import AccessTree.Proofs.SweepParts

/-!
Staying inside. Whatever the greatest depth, a search of a forest finds different objects below
its collection, the anchor not among them, and from an anchor outside it finds nothing. What is
too deep may be left out at every stage of a walk, but document order keeps the stages apart.
-/

namespace AccessTree

open Search WalkM AccessTree.Tree

variable {ν : Type} {t : Tree ν}

namespace Tree

/-- Different objects below a collection, and none of them is the anchor. -/
structure Inside (t : Tree ν) (collection anchor : ν) (l : List ν) : Prop where
  nodup : l.Nodup
  below : ∀ y ∈ l, t.Below collection y
  ne_anchor : ∀ y ∈ l, y ≠ anchor

variable {a collection anchor : ν} {l l' : List ν}

lemma inside_nil : t.Inside collection anchor [] := ⟨List.nodup_nil, by simp, by simp⟩

lemma Inside.sublist (h : t.Inside collection anchor l) (hl : l'.Sublist l) :
    t.Inside collection anchor l' where
  nodup := h.nodup.sublist hl
  below y hy := h.below y (hl.subset hy)
  ne_anchor y hy := h.ne_anchor y (hl.subset hy)

lemma Inside.of_reaches (h : t.Inside a anchor l) (ha : t.Reaches collection a) :
    t.Inside collection anchor l :=
  ⟨h.nodup, fun y hy => ha.trans_below (h.below y hy), h.ne_anchor⟩

lemma Inside.arrange (h : t.Inside collection anchor l) (sort : SortOrder) (d : Direction) :
    t.Inside collection anchor (sort.arrange d l) := by
  unfold SortOrder.arrange
  split
  · split
    · exact ⟨List.nodup_reverse.2 h.nodup, fun y hy => h.below y (List.mem_reverse.1 hy),
        fun y hy => h.ne_anchor y (List.mem_reverse.1 hy)⟩
    · exact h
  · exact inside_nil

end Tree

namespace Walker

/-! ### Walking back -/

/-- What a walk back from an object goes through before it comes to another one, last first. -/
structure WayBack (w : Walker Unit ν) (t : Tree ν) (b x : ν) (l : List ν) : Prop where
  chain : (b :: l).IsChain w.After
  last : (b :: l).getLast? = some x
  ordered : (b :: l).Pairwise t.Precedes
  reaches : ∀ y ∈ b :: l, t.Reaches b y

variable {w : Walker Unit ν} {b x : ν}

lemma WayBack.precedes_or_eq {l : List ν} {z : ν} (h : w.WayBack t b x l) (hz : z ∈ b :: l) :
    t.Precedes z x ∨ z = x := by
  obtain ⟨zs, hzs⟩ := List.getLast?_eq_some_iff.1 h.last
  have hpairs := h.ordered
  rw [hzs] at hz hpairs
  rcases List.mem_append.1 hz with hz | hz
  · exact Or.inl ((List.pairwise_append.1 hpairs).2.2 z hz x (by simp))
  · exact Or.inr (List.mem_singleton.1 hz)

/-- Only earlier objects are on the way to one that a step back leads to. -/
lemma WayBack.snoc (ht : t.IsForest) {l : List ν} {y : ν} (h : w.WayBack t b y l)
    (hafter : w.After y x) (hyx : t.Precedes y x) (hx : t.Reaches b x) :
    w.WayBack t b x (l ++ [x]) where
  chain := by
    rw [← List.cons_append]
    refine List.isChain_append.2 ⟨h.chain, .singleton x, fun y' hy' x' hx' => ?_⟩
    rw [h.last] at hy'
    cases hy'
    cases hx'
    exact hafter
  last := by rw [← List.cons_append, List.getLast?_concat]
  ordered := by
    rw [← List.cons_append]
    refine List.pairwise_append.2 ⟨h.ordered, List.pairwise_singleton _ _, fun z hz x' hx' => ?_⟩
    rw [List.mem_singleton.1 hx']
    rcases h.precedes_or_eq hz with hzy | rfl
    · exact ht.precedes_trans hzy hyx
    · exact hyx
  reaches z hz := by
    rw [← List.cons_append, List.mem_append, List.mem_singleton] at hz
    rcases hz with hz | rfl
    · exact h.reaches z hz
    · exact hx

variable (hw : w.tree = t.atRest) (ht : t.IsForest)
include hw ht

/-- A step back from below an object leads there or stays below it, and to an earlier object. -/
lemma exists_after (h : t.Below b x) :
    ∃ y, w.After y x ∧ t.Reaches b y ∧ t.Precedes y x := by
  obtain ⟨p, i, hp, hx⟩ := h.exists_childAt
  cases i with
  | zero => exact ⟨p, after_parent hw ht hx, hp, (below_of_childAt hx).precedes⟩
  | succ i =>
    have hi : i < t.childCount p := by
      have := ht.lt_of_childAt hx
      omega
    obtain ⟨c, hc, -⟩ := ht.child p i hi
    obtain ⟨m, -, hm⟩ := says_lastBelow hw ht w.maxDepth c
    have hcm : t.Reaches c m := ht.reaches_of_mem_branch (List.mem_of_getLast? hm)
    refine ⟨m, after_sibling hw ht hc hx hm, ?_, ?_⟩
    · exact hp.trans ((below_of_childAt hc).reaches.trans hcm)
    · obtain ⟨ps, hps⟩ := hcm
      exact precedes_of_siblings hc hx (Nat.lt_succ_self i) hps follow_nil

omit hw in
/-- Ways back are built step by step, together with what holds of each of them. -/
lemma exists_wayBack_of_step {P : ν → List ν → Prop} (self : P b [])
    (step : ∀ x, t.Below b x → ∃ y, w.After y x ∧ t.Reaches b y ∧ t.Precedes y x ∧
      ∀ l, w.WayBack t b y l → P y l → P x (l ++ [x]))
    (h : t.Reaches b x) : ∃ l, w.WayBack t b x l ∧ P x l := by
  have here : ∃ l, w.WayBack t b b l ∧ P b l :=
    ⟨[], ⟨.singleton b, rfl, List.pairwise_singleton _ _, by simp [Reaches.refl]⟩, self⟩
  rcases h.eq_or_below with rfl | h
  · exact here
  -- Neither the depth nor the place gets smaller with every step back, but the object comes
  -- earlier.
  refine ht.wellFoundedOn_precedes.induction
    (P := fun x => t.Below b x → ∃ l, w.WayBack t b x l ∧ P x l)
    (ht.valid_of_below h).2 (fun x _ ih h => ?_) h
  obtain ⟨y, hafter, hy, hyx, hnext⟩ := step x h
  obtain ⟨l, hl, hP⟩ : ∃ l, w.WayBack t b y l ∧ P y l := by
    rcases hy.eq_or_below with rfl | hy
    · exact here
    · exact ih y (ht.valid_of_below hy).2 hyx hy
  exact ⟨l ++ [x], hl.snoc ht hafter hyx h.reaches, hnext l hl hP⟩

/-- There is a way back from an object to every object that it lies below. -/
lemma exists_wayBack (h : t.Reaches b x) : ∃ l, w.WayBack t b x l := by
  obtain ⟨l, hl, -⟩ := exists_wayBack_of_step (P := fun _ _ => True) ht trivial (fun x hx => by
    obtain ⟨y, hafter, hy, hyx⟩ := exists_after hw ht hx
    exact ⟨y, hafter, hy, hyx, fun _ _ _ => trivial⟩) h
  exact ⟨l, hl⟩

variable [DecidableEq ν]

omit hw ht in
lemma inside_filter_keeps {collection : ν} {l : List ν} (hl : l.Nodup)
    (hb : ∀ y ∈ l, t.Below collection y) :
    t.Inside collection w.anchor (l.filter (w.keeps t)) where
  nodup := hl.filter _
  below y hy := hb y (List.mem_filter.1 hy).1
  ne_anchor y hy := by
    have hkeep := (List.mem_filter.1 hy).2
    rw [keeps, Bool.and_eq_true, decide_eq_true_eq] at hkeep
    exact hkeep.1

variable (hlimit : w.limit = 0)
include hlimit

/-- Where nothing limits it, a walk back finds what is on its way and is kept. -/
lemma gives_wayBack {l : List ν} (hl : w.WayBack t b w.anchor l) :
    ∃ enough, ∀ steps ≥ enough, Gives (collect (some b) (w.backward steps w.anchor))
      (l.reverse.filter (w.keeps t)) := by
  have hb : b ∉ l := (List.nodup_cons.1 (ht.nodup_of_pairwise hl.ordered)).1
  refine ⟨l.length + 1, fun steps hs => gives_collect fun asked => ⟨.ok (), some b, by simp, ?_⟩⟩
  rw [outcome_backward hw hlimit hl.chain hl.last hb (by omega), Array.empty_append]

/-- Where nothing limits it, a walk back ends at the object that its anchor lies below. -/
lemma exists_backward (h : t.Reaches b w.anchor) : ∃ found,
    (∃ enough, ∀ steps ≥ enough, Gives (collect (some b) (w.backward steps w.anchor)) found) ∧
      t.Inside b w.anchor found := by
  obtain ⟨l, hl⟩ := exists_wayBack hw ht h
  obtain ⟨hb, hnodup⟩ := List.nodup_cons.1 (ht.nodup_of_pairwise hl.ordered)
  refine ⟨_, gives_wayBack hw ht hlimit hl,
    inside_filter_keeps (List.nodup_reverse.2 hnodup) fun y hy => ?_⟩
  rw [List.mem_reverse] at hy
  exact (hl.reaches y (List.mem_cons_of_mem b hy)).eq_or_below.resolve_left fun he => hb (he ▸ hy)

/-! ### Sweeping -/

/-- A sweep that may enter everything stays inside. -/
lemma exists_sweep_inside (he : ∀ a, t.mayEnter w.traverse a = true) (collection : ν) :
    ∃ found, (∃ enough, ∀ steps ≥ enough,
        Gives (collect none (w.sweep steps collection w.anchor)) found) ∧
      t.Inside collection w.anchor found := by
  obtain ⟨onward, again, hparts⟩ := exists_parts hw ht hlimit collection w.anchor
  obtain ⟨enough, hsweep⟩ := hparts.gives
  have hopen : ¬ t.Hidden (t.mayEnter w.traverse) collection w.anchor := by
    rintro ⟨a, -, -, hclosed⟩
    exact Bool.false_ne_true (hclosed.symm.trans (he a))
  exact ⟨_, ⟨enough, fun steps hs => hsweep steps hs none⟩,
    inside_filter_keeps (hparts.nodup hopen) hparts.below⟩

end Walker

namespace Finder

variable [DecidableEq ν] {s : Settings} {q : Query ν}

lemma exists_findOnward_inside (ht : t.IsForest) (hl : s.limit q.limit = 0)
    (hx : t.Reaches q.collection q.anchor) : ∃ found, (∃ enough, ∀ steps ≥ enough,
        Gives ((⟨t.atRest, s, steps⟩ : Finder Unit ν).findOnward q) found) ∧
      t.Inside q.collection q.anchor found := by
  have forward : ∀ traverse container start, t.Reaches q.collection container →
      ∃ found, (∃ enough, ∀ steps ≥ enough, Gives (collect none
          (((⟨t.atRest, s, steps⟩ : Finder Unit ν).walker q.rule q.anchor q.limit traverse).forward
            steps container start)) found) ∧ t.Inside q.collection q.anchor found := by
    intro traverse container start hc
    obtain ⟨found, hgives, hlist⟩ :=
      exists_forward ht hl q.rule q.anchor traverse container start
    exact ⟨found, hgives, ht.nodup_of_lists hlist,
      fun y hy => hc.trans_below ((hlist.mem_iff y).1 hy).2.2.below,
      fun y hy => ((hlist.mem_iff y).1 hy).1⟩
  unfold findOnward
  cases q.scope with
  | children => exact forward _ _ _ hx
  | inorder =>
    let w := (⟨t.atRest, s, 0⟩ : Finder Unit ν).walker q.rule q.anchor q.limit
      (q.traverse || Scope.inorder == .inorder)
    exact w.exists_sweep_inside rfl ht hl (fun a => by simp [w, walker, mayEnter]) q.collection
  | siblings =>
    dsimp only
    by_cases hne : q.anchor = q.collection
    · exact ⟨[], ⟨0, fun steps _ => by rw [if_pos hne]; exact gives_pure []⟩, inside_nil⟩
    · obtain ⟨p, i, hp, hi⟩ := (hx.eq_or_below.resolve_left (Ne.symm hne)).exists_childAt
      obtain ⟨-, hparent, hindex⟩ := ht.of_childAt hi
      obtain ⟨found, ⟨enough, he⟩, hinside⟩ := forward
        (q.traverse || Scope.siblings == .inorder) p i hp
      refine ⟨found, ⟨enough, fun steps hs => ?_⟩, hinside⟩
      rw [if_neg hne]
      exact (gives_ask hparent).bind ((gives_ask hindex).bind (he steps hs))

lemma exists_findBack_inside (ht : t.IsForest) (hl : s.limit q.limit = 0)
    (hx : t.Reaches q.collection q.anchor) : ∃ found, (∃ enough, ∀ steps ≥ enough,
        Gives ((⟨t.atRest, s, steps⟩ : Finder Unit ν).findBack q) found) ∧
      t.Inside q.collection q.anchor found := by
  let w := (⟨t.atRest, s, 0⟩ : Finder Unit ν).walker q.rule q.anchor q.limit
    (q.traverse || q.scope == .inorder)
  by_cases he : q.anchor = q.collection
  · obtain ⟨found, hback, hinside⟩ := w.exists_backward rfl ht hl hx
    obtain ⟨enough, hback⟩ := hback
    refine ⟨found, ⟨enough, fun steps hs => ?_⟩, hinside⟩
    rw [findBack, if_neg fun h => h.2.2 he]
    exact hback steps hs
  · have hb := hx.eq_or_below.resolve_left (Ne.symm he)
    obtain ⟨hboundary, hbelow⟩ := ht.below_boundary hb
    obtain ⟨found, ⟨enough, hback⟩, hinside⟩ := w.exists_backward rfl ht hl hbelow.reaches
    exact ⟨found, ⟨enough, fun steps hs => gives_findBack rfl ht hb (hback steps hs)⟩,
      hinside.of_reaches hboundary⟩

/-- Where nothing limits it, a search from an anchor comes to different objects inside. -/
lemma exists_find_inside (ht : t.IsForest) (hs : q.sort = .canonical) (hl : s.limit q.limit = 0) :
    ∃ found, t.Ends s (·.find q) (SortOrder.canonical.arrange q.direction found) ∧
      t.Inside q.collection q.anchor found ∧
        (¬ t.Anchors s q.collection q.anchor → found = []) := by
  by_cases ha : t.Anchors s q.collection q.anchor
  · obtain ⟨ps, hps, -⟩ := ha.2
    cases hd : q.direction with
    | onward =>
      obtain ⟨found, ⟨enough, he⟩, hinside⟩ := exists_findOnward_inside ht hl ⟨ps, hps⟩
      refine ⟨found, Answers.ends ⟨enough, fun steps hsteps => ?_⟩, hinside, absurd ha⟩
      refine gives_find ht rfl hs (fun _ => ?_) (absurd ha)
      rw [hd]
      exact (he steps hsteps).bind (gives_finish false found)
    | back =>
      obtain ⟨found, ⟨enough, he⟩, hinside⟩ := exists_findBack_inside ht hl ⟨ps, hps⟩
      refine ⟨found, Answers.ends ⟨enough, fun steps hsteps => ?_⟩, hinside, absurd ha⟩
      refine gives_find ht rfl hs (fun _ => ?_) (absurd ha)
      rw [hd]
      exact (he steps hsteps).bind (gives_finish true found)
  · refine ⟨[], Answers.ends ⟨0, fun steps _ => ?_⟩, inside_nil, fun _ => rfl⟩
    rw [SortOrder.arrange_nil]
    exact gives_find ht rfl hs (fun h => absurd h ha) fun _ => rfl

/-- Searches find different objects below their collection, and the anchor is not among them. An
anchor that is not there or lies outside the collection has nothing to be found from. -/
theorem answers_inside (ht : t.IsForest) (s : Settings) :
    (∀ collection rule sort limit traverse, ∃ l,
      t.Answers s (·.findAll collection rule sort limit traverse) l ∧
        l.Nodup ∧ ∀ y ∈ l, t.Below collection y ∧ y ≠ collection) ∧
    ∀ q : Query ν, ∃ l, t.Answers s (·.find q) l ∧
      l.Nodup ∧ (∀ y ∈ l, t.Below q.collection y ∧ y ≠ q.anchor) ∧
        (¬ (t.isValid q.anchor = true ∧ t.Reaches q.collection q.anchor) → l = []) := by
  -- Limits and rules only leave out what a search for any object finds without them.
  have hcut : ∀ limit rule (l : List ν), (kept t s rule limit l).Sublist l := fun limit rule l =>
    (cut_sublist _ _).trans List.filter_sublist
  have hcanonical : SortOrder.canonical.reversed? ≠ none := by decide
  have hl : ({ s with maxResults := 0 } : Settings).limit 0 = 0 :=
    Settings.limit_eq_zero_iff.2 ⟨rfl, rfl⟩
  refine ⟨fun collection rule sort limit traverse => ?_, fun q => ?_⟩
  · obtain ⟨found, hends, hlist⟩ := exists_findAll ht hl collection .anyObject traverse
    have hinside : t.Inside collection collection found := ⟨ht.nodup_of_lists hlist,
      fun y hy => ((hlist.mem_iff y).1 hy).2.2.below, fun y hy => ((hlist.mem_iff y).1 hy).1⟩
    obtain ⟨hnodup, hbelow, hne⟩ :=
      (hinside.sublist (hcut limit rule found)).arrange sort .onward
    exact ⟨_, answers_findAll_of_ends collection rule limit traverse hcanonical hends.ends sort,
      hnodup, fun y hy => ⟨hbelow y hy, hne y hy⟩⟩
  · obtain ⟨found, hends, hinside, hnil⟩ := exists_find_inside (s := { s with maxResults := 0 })
      (q := { q with rule := .anyObject, sort := .canonical, limit := 0 }) ht rfl hl
    obtain ⟨hnodup, hbelow, hne⟩ :=
      (hinside.sublist (hcut q.limit q.rule found)).arrange q.sort q.direction
    refine ⟨_, answers_find_of_ends q hcanonical hends, hnodup,
      fun y hy => ⟨hbelow y hy, hne y hy⟩, fun hout => ?_⟩
    rw [hnil fun ha => hout ⟨ha.1, ha.2.imp fun ps hps => hps.1⟩]
    exact (congrArg _ kept_nil).trans (SortOrder.arrange_nil _ _)

theorem answers_inside_sample : sample.IsForest ∧
    (∃ l, sample.Answers { maxDepth := 0 } (·.findAll 0 .anyObject .reverseCanonical 1 true) l ∧
      l.Nodup ∧ ∀ y ∈ l, sample.Below 0 y ∧ y ≠ 0) ∧
    ∃ l, sample.Answers { maxDepth := 0 }
        (·.find { collection := 0, anchor := 1, scope := .inorder }) l ∧
      l.Nodup ∧ (∀ y ∈ l, sample.Below 0 y ∧ y ≠ 1) ∧
        (¬ (sample.isValid 1 = true ∧ sample.Reaches 0 1) → l = []) := by
  have h := answers_inside sample_isForest { maxDepth := 0 }
  exact ⟨sample_isForest, h.1 0 .anyObject .reverseCanonical 1 true,
    h.2 { collection := 0, anchor := 1, scope := .inorder }⟩

end Finder

end AccessTree
