import AccessTree.Proofs.DocumentOrder

/-!
Branches: an object with what is below it, written down in document order. A branch may leave
out what is below some of the objects, and what lies too deep. A branch that is deep enough
falls apart at any object in it into what comes before, the branch of the object, and what
follows.
-/

namespace AccessTree

/-- An object and what is below it, for given children of each object, down to a depth. -/
def branch {ν : Type} (kids : ν → List ν) : Nat → ν → List ν
  | 0, n => [n]
  | levels + 1, n => n :: (kids n).flatMap (branch kids levels)

namespace Tree

variable {ν : Type}

/-- The children of an object from a place on, up to the first that is missing. -/
def childrenFrom (t : Tree ν) (n : ν) (start : Nat) : List ν :=
  (((List.range' start (t.childCount n - start)).map (t.childAt n)).takeWhile
    Option.isSome).filterMap id

/-- The children of an object that is entered. -/
def kids (t : Tree ν) (opens : ν → Bool) (n : ν) : List ν :=
  if opens n then t.childrenFrom n 0 else []

/-- What comes before the end of a path, from its beginning on. -/
def leading (t : Tree ν) (list : ν → List ν) : ν → List Nat → List ν
  | _, [] => []
  | n, i :: ps => n :: ((t.childrenFrom n 0).take i).flatMap list ++
      ((t.childAt n i).map (leading t list · ps)).getD []

/-- What follows the end of a path and what is below it, among all that is below its beginning. -/
def trailing (t : Tree ν) (list : ν → List ν) : ν → List Nat → List ν
  | _, [] => []
  | n, i :: ps => ((t.childAt n i).map (trailing t list · ps)).getD [] ++
      (t.childrenFrom n (i + 1)).flatMap list

/-- What lies ahead of a place in an object: it is reached through the child there or through a
younger one, it is not too deep, and what it lies below may be entered. -/
def Ahead (t : Tree ν) (opens : ν → Bool) (levels : Nat) (n : ν) (start : Nat) (y : ν) : Prop :=
  ∃ i ps, start ≤ i ∧ t.follow n (i :: ps) = some y ∧ ps.length ≤ levels ∧
    ∀ a, t.Below n a → t.Below a y → opens a = true

variable {t : Tree ν} {b c n p x y : ν} {i j levels start : Nat} {ps qs : List Nat}
  {opens : ν → Bool} {list : ν → List ν}

/-- Where everything may be entered and nothing is too deep, all that is below lies ahead. -/
lemma ahead_iff_below (ho : ∀ a, opens a = true) (hw : t.Within n (levels + 1)) :
    t.Ahead opens levels n 0 y ↔ t.Below n y := by
  refine ⟨fun ⟨i, ps, _, h, _⟩ => ⟨i, ps, h⟩, fun ⟨i, ps, h⟩ => ⟨i, ps, Nat.zero_le i, h, ?_, ?_⟩⟩
  · have := hw _ _ h
    rw [List.length_cons] at this
    omega
  · exact fun a _ _ => ho a

lemma Ahead.below (h : t.Ahead opens levels n start y) : t.Below n y := by
  obtain ⟨i, ps, -, h, -⟩ := h
  exact ⟨i, ps, h⟩

/-! ### Children -/

lemma childrenFrom_of_le (h : t.childCount n ≤ start) : t.childrenFrom n start = [] := by
  rw [childrenFrom, Nat.sub_eq_zero_of_le h]; rfl

lemma childrenFrom_of_lt (h : start < t.childCount n) : t.childrenFrom n start =
    ((t.childAt n start).map (· :: t.childrenFrom n (start + 1))).getD [] := by
  obtain ⟨k, hk⟩ : ∃ k, t.childCount n - start = k + 1 := ⟨_, (Nat.succ_pred (by omega)).symm⟩
  rw [childrenFrom, childrenFrom, hk, show t.childCount n - (start + 1) = k by omega,
    List.range'_succ, List.map_cons, List.takeWhile_cons]
  cases t.childAt n start <;> rfl

lemma leading_snoc (h : t.follow n ps = some p) (hx : t.childAt p i = some x) :
    t.leading list n (ps ++ [i]) =
      t.leading list n ps ++ p :: ((t.childrenFrom p 0).take i).flatMap list := by
  induction ps generalizing n with
  | nil => cases h; simp [leading, hx]
  | cons j ps ih =>
    obtain ⟨c, hc, h⟩ := follow_cons.1 h
    simp only [List.cons_append, leading, hc, Option.map_some, Option.getD_some, ih h,
      List.append_assoc]

lemma trailing_snoc (h : t.follow n ps = some p) (hx : t.childAt p i = some x) :
    t.trailing list n (ps ++ [i]) =
      (t.childrenFrom p (i + 1)).flatMap list ++ t.trailing list n ps := by
  induction ps generalizing n with
  | nil => cases h; simp [trailing, hx]
  | cons j ps ih =>
    obtain ⟨c, hc, h⟩ := follow_cons.1 h
    simp only [List.cons_append, trailing, hc, Option.map_some, Option.getD_some, ih h,
      List.append_assoc]

lemma branch_succ_of_within {kids : ν → List ν}
    (hk : ∀ n, ∀ c ∈ kids n, ∃ i, t.childAt n i = some c) (h : t.Within n levels) :
    branch kids (levels + 1) n = branch kids levels n := by
  induction levels generalizing n with
  | zero =>
    rw [branch, branch, List.flatMap_eq_nil_iff.2]
    intro c hc
    obtain ⟨i, hi⟩ := hk n c hc
    obtain ⟨k, hk, -⟩ := within_childAt h hi
    cases hk
  | succ levels ih =>
    rw [branch, branch]
    refine congrArg _ (List.flatMap_congr fun c hc => ih ?_)
    obtain ⟨i, hi⟩ := hk n c hc
    obtain ⟨k, hk, hw⟩ := within_childAt h hi
    cases hk
    exact hw

/-- Going deeper only adds to a branch. -/
lemma branch_sublist_of_le {kids : ν → List ν} {levels' : Nat} (h : levels ≤ levels') :
    (branch kids levels n).Sublist (branch kids levels' n) := by
  induction levels generalizing levels' n with
  | zero =>
    cases levels' with
    | zero => exact .refl _
    | succ levels' => exact (List.nil_sublist _).cons_cons n
  | succ levels ih =>
    obtain ⟨next, rfl⟩ := Nat.exists_eq_succ_of_ne_zero (by omega : levels' ≠ 0)
    have deeper : levels ≤ next := by omega
    exact (List.Sublist.flatMap_right _ fun c _ => ih deeper).cons_cons n

lemma branch_perm {kids kids' : ν → List ν} (h : ∀ n, (kids n).Perm (kids' n)) :
    (branch kids levels n).Perm (branch kids' levels n) := by
  induction levels generalizing n with
  | zero => exact List.Perm.refl _
  | succ levels ih =>
    rw [branch, branch, List.perm_cons]
    exact ((h n).flatMap_right _).trans (List.Perm.flatMap_left _ fun c _ => ih)

/-- Branches of objects in the order of their places, one after the other, are in order. -/
lemma pairwise_flatMap {cs : List ν}
    (hcs : cs.Pairwise fun c d => ∃ i j, i < j ∧ t.childAt n i = some c ∧ t.childAt n j = some d)
    (hl : ∀ c ∈ cs, (list c).Pairwise t.Precedes) (hr : ∀ c, ∀ y ∈ list c, t.Reaches c y) :
    (cs.flatMap list).Pairwise t.Precedes := by
  rw [List.pairwise_flatMap]
  refine ⟨hl, hcs.imp ?_⟩
  rintro c d ⟨i, j, hij, hi, hj⟩ x hx y hy
  obtain ⟨ps, hps⟩ := hr c x hx
  obtain ⟨qs, hqs⟩ := hr d y hy
  exact precedes_of_siblings hi hj hij hps hqs

namespace IsForest

variable (ht : t.IsForest)
include ht

lemma getElem?_childrenFrom : (t.childrenFrom n start)[j]? = t.childAt n (start + j) := by
  induction j generalizing start with
  | zero =>
    by_cases h : start < t.childCount n
    · obtain ⟨c, hc, -⟩ := ht.child n start h
      rw [childrenFrom_of_lt h, hc]
      exact hc.symm
    · rw [childrenFrom_of_le (by omega), ht.noChild n _ (by omega)]; rfl
  | succ j ih =>
    by_cases h : start < t.childCount n
    · obtain ⟨c, hc, -⟩ := ht.child n start h
      rw [childrenFrom_of_lt h, hc, Option.map_some, Option.getD_some, List.getElem?_cons_succ, ih,
        Nat.add_assoc, Nat.add_comm 1]
    · rw [childrenFrom_of_le (by omega), ht.noChild n _ (by omega)]; rfl

lemma mem_childrenFrom : c ∈ t.childrenFrom n start ↔ ∃ i, start ≤ i ∧ t.childAt n i = some c := by
  rw [List.mem_iff_getElem?]
  constructor
  · rintro ⟨j, hj⟩
    rw [ht.getElem?_childrenFrom] at hj
    exact ⟨start + j, by omega, hj⟩
  · rintro ⟨i, hi, hc⟩
    refine ⟨i - start, ?_⟩
    rw [ht.getElem?_childrenFrom, show start + (i - start) = i by omega, hc]

lemma mem_take_childrenFrom :
    c ∈ (t.childrenFrom n 0).take i ↔ ∃ j < i, t.childAt n j = some c := by
  rw [List.mem_iff_getElem?]
  constructor
  · rintro ⟨j, hj⟩
    rw [List.getElem?_take, ht.getElem?_childrenFrom, Nat.zero_add,
      Option.ite_none_right_eq_some] at hj
    exact ⟨j, hj⟩
  · rintro ⟨j, hj, hc⟩
    refine ⟨j, ?_⟩
    rw [List.getElem?_take_of_lt hj, ht.getElem?_childrenFrom, Nat.zero_add, hc]

/-- The children from one on that come before another one. -/
lemma drop_take_childrenFrom (hc : t.childAt n start = some c) (hi : start < i) :
    ((t.childrenFrom n 0).take i).drop start =
      c :: ((t.childrenFrom n 0).take i).drop (start + 1) := by
  have hget : ((t.childrenFrom n 0).take i)[start]? = some c := by
    rw [List.getElem?_take_of_lt hi, ht.getElem?_childrenFrom, Nat.zero_add, hc]
  obtain ⟨hlength, hget⟩ := List.getElem?_eq_some_iff.1 hget
  rw [List.drop_eq_getElem_cons hlength, hget]

lemma childrenFrom_eq_drop (start : Nat) :
    t.childrenFrom n start = (t.childrenFrom n 0).drop start := by
  refine List.ext_getElem? fun j => ?_
  rw [List.getElem?_drop, ht.getElem?_childrenFrom, ht.getElem?_childrenFrom, Nat.zero_add]

/-- The children around one of them. -/
lemma childrenFrom_split (hc : t.childAt n i = some c) :
    t.childrenFrom n 0 = (t.childrenFrom n 0).take i ++ c :: t.childrenFrom n (i + 1) := by
  have h := childrenFrom_of_lt (ht.lt_of_childAt hc)
  rw [hc, Option.map_some, Option.getD_some] at h
  rw [← h, ht.childrenFrom_eq_drop i, List.take_append_drop]

lemma pairwise_childrenFrom : (t.childrenFrom n start).Pairwise fun c d =>
    ∃ i j, i < j ∧ t.childAt n i = some c ∧ t.childAt n j = some d := by
  rw [List.pairwise_iff_getElem]
  intro i j hi hj hij
  refine ⟨start + i, start + j, by omega, ?_, ?_⟩
  · rw [← ht.getElem?_childrenFrom, List.getElem?_eq_getElem]
  · rw [← ht.getElem?_childrenFrom, List.getElem?_eq_getElem]

/-! ### Branches -/

lemma mem_kids : c ∈ t.kids opens n ↔ opens n = true ∧ ∃ i, t.childAt n i = some c := by
  rw [kids]
  split
  · rename_i h
    simp [h, ht.mem_childrenFrom]
  · rename_i h
    simp [h]

/-- The branch of the last child ends the branch. -/
lemma getLast?_branch {m : ν} (ho : opens n = true) (hi : t.childCount n = i + 1)
    (hc : t.childAt n i = some c) (h : (branch (t.kids opens) levels c).getLast? = some m) :
    (branch (t.kids opens) (levels + 1) n).getLast? = some m := by
  rw [branch, kids, if_pos ho, ht.childrenFrom_split hc, childrenFrom_of_le (Nat.le_of_eq hi),
    List.flatMap_append, List.flatMap_singleton, List.getLast?_cons, List.getLast?_append, h]
  rfl

/-- In a branch are the objects that are near enough, and that lie below entered objects only. -/
theorem mem_branch_iff : y ∈ branch (t.kids opens) levels n ↔
    ∃ ps, ps.length ≤ levels ∧ t.follow n ps = some y ∧
      ∀ a, t.Reaches n a → t.Below a y → opens a = true := by
  induction levels generalizing n with
  | zero =>
    rw [branch, List.mem_singleton]
    constructor
    · rintro rfl
      exact ⟨[], Nat.le_refl 0, rfl, fun a ha h => absurd h (ht.not_below_of_reaches ha)⟩
    · rintro ⟨ps, hl, h, -⟩
      rw [List.length_eq_zero_iff.1 (Nat.le_zero.1 hl)] at h
      cases h; rfl
  | succ levels ih =>
    rw [branch, List.mem_cons, List.mem_flatMap]
    -- The path to an object is empty, or it begins with the child whose branch has the object.
    constructor
    · rintro (rfl | ⟨c, hc, hy⟩)
      · exact ⟨[], Nat.zero_le _, rfl, fun a ha h => absurd h (ht.not_below_of_reaches ha)⟩
      obtain ⟨ho, i, hi⟩ := ht.mem_kids.1 hc
      obtain ⟨ps, hl, h, hopen⟩ := ih.1 hy
      refine ⟨i :: ps, by simpa using hl, follow_cons.2 ⟨c, hi, h⟩, fun a ha hay => ?_⟩
      rcases ha.eq_or_below with rfl | ha
      · exact ho
      · exact hopen a (ht.reaches_between hi ⟨ps, h⟩ ha hay) hay
    · rintro ⟨_ | ⟨i, ps⟩, hl, h, hopen⟩
      · cases h; exact Or.inl rfl
      · obtain ⟨c, hc, h'⟩ := follow_cons.1 h
        have hn := below_of_childAt hc
        have hkid := ht.mem_kids.2 ⟨hopen n Reaches.refl ⟨i, ps, h⟩, i, hc⟩
        refine Or.inr ⟨c, hkid, ih.2 ⟨ps, ?_, h', ?_⟩⟩
        · simpa using hl
        · exact fun a ha hay => hopen a (hn.reaches.trans ha) hay

/-- A branch that is deep enough and leaves nothing out holds everything below. -/
lemma mem_branch_of_within (ho : ∀ a, opens a = true) (hw : t.Within n levels) :
    y ∈ branch (t.kids opens) levels n ↔ t.Reaches n y := by
  rw [ht.mem_branch_iff]
  constructor
  · rintro ⟨ps, -, h, -⟩
    exact ⟨ps, h⟩
  · rintro ⟨ps, h⟩
    exact ⟨ps, hw ps y h, h, fun a _ _ => ho a⟩

lemma reaches_of_mem_branch (h : y ∈ branch (t.kids opens) levels n) : t.Reaches n y := by
  obtain ⟨ps, -, h, -⟩ := ht.mem_branch_iff.1 h
  exact ⟨ps, h⟩

theorem pairwise_branch : (branch (t.kids opens) levels n).Pairwise t.Precedes := by
  induction levels generalizing n with
  | zero => exact List.pairwise_singleton _ _
  | succ levels ih =>
    rw [branch, List.pairwise_cons]
    constructor
    · intro y hy
      obtain ⟨c, hc, hy⟩ := List.mem_flatMap.1 hy
      obtain ⟨-, i, hi⟩ := ht.mem_kids.1 hc
      exact ((below_of_childAt hi).trans_reaches (ht.reaches_of_mem_branch hy)).precedes
    · refine pairwise_flatMap (n := n) ?_ (fun c _ => ih) fun c y hy =>
        ht.reaches_of_mem_branch hy
      rw [kids]
      split
      · exact ht.pairwise_childrenFrom
      · exact List.Pairwise.nil

/-- The branches of an object's children, from one child on. -/
theorem lists_flatMap_branch : t.Lists
    ((t.childrenFrom n start).flatMap (branch (t.kids opens) levels))
    (t.Ahead opens levels n start) where
  mem_iff y := by
    rw [List.mem_flatMap]
    constructor
    · rintro ⟨c, hc, hy⟩
      obtain ⟨i, hi, hc⟩ := ht.mem_childrenFrom.1 hc
      obtain ⟨ps, hl, h, hopen⟩ := ht.mem_branch_iff.1 hy
      exact ⟨i, ps, hi, follow_cons.2 ⟨c, hc, h⟩, hl, fun a ha hay =>
        hopen a (ht.reaches_between hc ⟨ps, h⟩ ha hay) hay⟩
    · rintro ⟨i, ps, hi, h, hl, hopen⟩
      obtain ⟨c, hc, h⟩ := follow_cons.1 h
      exact ⟨c, ht.mem_childrenFrom.2 ⟨i, hi, hc⟩, ht.mem_branch_iff.2 ⟨ps, hl, h, fun a ha =>
        hopen a ((below_of_childAt hc).trans_reaches ha)⟩⟩
  ordered := pairwise_flatMap ht.pairwise_childrenFrom (fun _ _ => ht.pairwise_branch)
    fun _ _ => ht.reaches_of_mem_branch

lemma lists_below (ho : ∀ a, opens a = true) (hw : t.Within n (levels + 1)) :
    t.Lists ((t.childrenFrom n 0).flatMap (branch (t.kids opens) levels)) (t.Below n) :=
  ht.lists_flatMap_branch.congr fun _ => ahead_iff_below ho hw

/-! ### Branches that are deep enough -/

/-- A branch that is deep enough consists of branches as deep. -/
lemma branch_of_within (h : t.Within n levels) : branch (t.kids opens) levels n =
    n :: (t.kids opens n).flatMap (branch (t.kids opens) levels) :=
  (branch_succ_of_within (fun _ _ hc => (ht.mem_kids.1 hc).2) h).symm

lemma nodup_branch : (branch (t.kids opens) levels n).Nodup :=
  ht.nodup_of_pairwise ht.pairwise_branch

/-! ### Before and after -/

/-- Where everything is entered, each object has its branch in the branch of what it is below. -/
theorem branch_split (ho : ∀ a, opens a = true) (hw : t.Within n levels)
    (h : t.follow n ps = some x) : branch (t.kids opens) levels n =
      t.leading (branch (t.kids opens) levels) n ps ++ branch (t.kids opens) levels x ++
        t.trailing (branch (t.kids opens) levels) n ps := by
  induction ps generalizing n with
  | nil => cases h; simp [leading, trailing]
  | cons i ps ih =>
    obtain ⟨c, hc, h⟩ := follow_cons.1 h
    obtain ⟨k, rfl, hk⟩ := within_childAt hw hc
    have hk : t.Within c (k + 1) := hk.mono (Nat.le_succ k)
    have hkids : t.kids opens n = t.childrenFrom n 0 := if_pos (ho n)
    rw [ht.branch_of_within hw, hkids, ht.childrenFrom_split hc, List.flatMap_append,
      List.flatMap_cons, ih hk h, leading, trailing, hc]
    simp

/-- What is below an object, around another object there. -/
lemma flatMap_branch_split {l : List ν} (ho : ∀ a, opens a = true) (hw : t.Within n levels)
    (h : t.follow n ps = some x) (hl : t.leading (branch (t.kids opens) levels) n ps = n :: l) :
    (t.childrenFrom n 0).flatMap (branch (t.kids opens) levels) =
      l ++ x :: ((t.childrenFrom x 0).flatMap (branch (t.kids opens) levels) ++
        t.trailing (branch (t.kids opens) levels) n ps) := by
  have hkids : ∀ m, t.kids opens m = t.childrenFrom m 0 := fun m => if_pos (ho m)
  have hwx : t.Within x levels := (hw.follow h).mono (Nat.sub_le _ _)
  have hs := ht.branch_split ho hw h
  rw [hl, ht.branch_of_within hw, ht.branch_of_within hwx, hkids, hkids] at hs
  simpa using hs

/-- Before an object, going back no further than to what it is below, are the objects that come
before it and lie below entered objects, those above it apart. -/
theorem mem_leading_iff (hw : t.Within b (levels + 1)) (h : t.follow b ps = some x) :
    y ∈ t.leading (branch (t.kids opens) levels) b ps ↔ t.Reaches b y ∧ t.Precedes y x ∧
      ∀ a, t.Below b a → t.Below a y → ¬ t.Below a x → opens a = true := by
  induction ps using List.reverseRecOn generalizing x with
  | nil =>
    cases h
    simp only [leading, List.not_mem_nil, false_iff, not_and]
    intro hy hp
    rcases hy.eq_or_below with rfl | hy
    · exact absurd hp ht.precedes_irrefl
    · exact absurd hp (ht.not_precedes_of_below hy)
  | append_singleton ps i ih =>
    obtain ⟨p, hp, hx⟩ := follow_snoc.1 h
    have hbp : t.Reaches b p := ⟨ps, hp⟩
    rw [leading_snoc hp hx, List.mem_append, List.mem_cons, List.mem_flatMap, ih hp,
      ht.precedes_childAt_iff hx]
    -- Before a child come what leads to its parent, the parent, and the branches of its elder
    -- siblings.
    constructor
    · rintro (⟨hy, hyp, hopen⟩ | rfl | ⟨c, hc, hy⟩)
      · exact ⟨hy, Or.inl hyp, fun a ha hay hax => hopen a ha hay fun hap =>
          hax ((ht.below_childAt_iff hx).2 hap.reaches)⟩
      · exact ⟨hbp, Or.inr (Or.inl rfl), fun a _ hay hax =>
          absurd ((ht.below_childAt_iff hx).2 hay.reaches) hax⟩
      · obtain ⟨j, hj, hc⟩ := ht.mem_take_childrenFrom.1 hc
        obtain ⟨qs, -, hq, hopen⟩ := ht.mem_branch_iff.1 hy
        refine ⟨hbp.trans ((below_of_childAt hc).reaches.trans ⟨qs, hq⟩),
          Or.inr (Or.inr ⟨j, hj, c, qs, hc, hq⟩), fun a _ hay hax => hopen a ?_ hay⟩
        rcases ht.reaches_meet hay.reaches ⟨qs, hq⟩ with hac | hca
        · -- Above the sibling is only what is above the object itself.
          rcases hac.eq_or_below with rfl | hac
          · exact Reaches.refl
          · exact absurd ((ht.below_childAt_iff hx).2 ((ht.below_childAt_iff hc).1 hac)) hax
        · exact hca
    · rintro ⟨hy, hyp | rfl | ⟨j, hj, c, qs, hc, hq⟩, hopen⟩
      · refine Or.inl ⟨hy, hyp, fun a ha hay hap => hopen a ha hay fun hax => ?_⟩
        rcases ((ht.below_childAt_iff hx).1 hax).eq_or_below with rfl | hax
        · exact ht.not_precedes_of_below hay hyp
        · exact hap hax
      · exact Or.inr (Or.inl rfl)
      · refine Or.inr (Or.inr ⟨c, ht.mem_take_childrenFrom.2 ⟨j, hj, hc⟩,
          ht.mem_branch_iff.2 ⟨qs, ?_, hq, fun a hca hay => hopen a ?_ hay fun hax => ?_⟩⟩)
        · have := hw (ps ++ j :: qs) y (follow_trans hp (follow_cons.2 ⟨c, hc, hq⟩))
          simp at this
          omega
        · exact hbp.trans_below ((below_of_childAt hc).trans_reaches hca)
        · have := ht.index_eq hc hx (hca.trans hax.reaches) Reaches.refl
          omega

theorem pairwise_leading (hw : t.Within b (levels + 1)) (h : t.follow b ps = some x) :
    (t.leading (branch (t.kids opens) levels) b ps).Pairwise t.Precedes := by
  induction ps using List.reverseRecOn generalizing x with
  | nil => exact List.Pairwise.nil
  | append_singleton ps i ih =>
    obtain ⟨p, hp, hx⟩ := follow_snoc.1 h
    have hbelow : ∀ z ∈ ((t.childrenFrom p 0).take i).flatMap (branch (t.kids opens) levels),
        t.Below p z := by
      intro z hz
      obtain ⟨c, hc, hz⟩ := List.mem_flatMap.1 hz
      obtain ⟨j, -, hc⟩ := ht.mem_take_childrenFrom.1 hc
      exact (below_of_childAt hc).trans_reaches (ht.reaches_of_mem_branch hz)
    rw [leading_snoc hp hx, List.pairwise_append, List.pairwise_cons]
    refine ⟨ih hp, ⟨fun z hz => (hbelow z hz).precedes, ?_⟩, fun y hy z hz => ?_⟩
    · exact pairwise_flatMap (ht.pairwise_childrenFrom.sublist (List.take_sublist _ _))
        (fun _ _ => ht.pairwise_branch) fun _ _ => ht.reaches_of_mem_branch
    · have hyp := ((ht.mem_leading_iff hw hp).1 hy).2.1
      rcases List.mem_cons.1 hz with rfl | hz
      · exact hyp
      · exact ht.precedes_trans hyp (hbelow z hz).precedes

/-- What follows an object comes after all that the object reaches. -/
theorem pairwise_trailing (h : t.follow n ps = some x) :
    (t.trailing (branch (t.kids opens) levels) n ps).Pairwise t.Precedes ∧
      ∀ z ∈ t.trailing (branch (t.kids opens) levels) n ps,
        t.Below n z ∧ ∀ y, t.Reaches x y → t.Precedes y z := by
  induction ps using List.reverseRecOn generalizing x with
  | nil => exact ⟨List.Pairwise.nil, fun z hz => absurd hz List.not_mem_nil⟩
  | append_singleton ps i ih =>
    obtain ⟨p, hp, hx⟩ := follow_snoc.1 h
    obtain ⟨hpairs, hafter⟩ := ih hp
    have hyounger : ∀ z ∈ (t.childrenFrom p (i + 1)).flatMap (branch (t.kids opens) levels),
        t.Below p z ∧ ∀ y, t.Reaches x y → t.Precedes y z := by
      intro z hz
      obtain ⟨c, hc, hz⟩ := List.mem_flatMap.1 hz
      obtain ⟨j, hj, hc⟩ := ht.mem_childrenFrom.1 hc
      obtain ⟨qs, hqs⟩ := ht.reaches_of_mem_branch hz
      refine ⟨(below_of_childAt hc).trans_reaches ⟨qs, hqs⟩, fun y ⟨rs, hrs⟩ => ?_⟩
      exact precedes_of_siblings hx hc hj hrs hqs
    -- What follows the parent comes after all that the parent reaches, the younger siblings
    -- included.
    rw [trailing_snoc hp hx]
    refine ⟨List.pairwise_append.2 ⟨?_, hpairs, fun y hy z hz => ?_⟩, fun z hz => ?_⟩
    · exact pairwise_flatMap ht.pairwise_childrenFrom (fun _ _ => ht.pairwise_branch)
        fun _ _ => ht.reaches_of_mem_branch
    · exact (hafter z hz).2 y (hyounger y hy).1.reaches
    · rcases List.mem_append.1 hz with hz | hz
      · exact ⟨Reaches.trans_below ⟨ps, hp⟩ (hyounger z hz).1, (hyounger z hz).2⟩
      · exact ⟨(hafter z hz).1, fun y hy =>
          (hafter z hz).2 y ((below_of_childAt hx).reaches.trans hy)⟩

/-- What is below an object and what follows it are in order after the object. -/
lemma pairwise_onward (h : t.follow n ps = some x) :
    let l := (t.childrenFrom x 0).flatMap (branch (t.kids opens) levels) ++
      t.trailing (branch (t.kids opens) levels) n ps
    l.Pairwise t.Precedes ∧ ∀ y ∈ l, t.Below n y ∧ t.Precedes x y := by
  have hlists : t.Lists _ (t.Ahead opens levels x 0) := ht.lists_flatMap_branch
  have hbelow : ∀ y ∈ (t.childrenFrom x 0).flatMap (branch (t.kids opens) levels),
      t.Below x y := fun y hy => ((hlists.mem_iff y).1 hy).below
  obtain ⟨hpairs, hafter⟩ :
    (t.trailing (branch (t.kids opens) levels) n ps).Pairwise t.Precedes ∧ _ :=
      ht.pairwise_trailing h
  refine ⟨List.pairwise_append.2 ⟨hlists.ordered, hpairs, fun y hy z hz => ?_⟩, fun y hy => ?_⟩
  · exact (hafter z hz).2 y (hbelow y hy).reaches
  · rcases List.mem_append.1 hy with hy | hy
    · exact ⟨Reaches.trans_below ⟨ps, h⟩ (hbelow y hy), (hbelow y hy).precedes⟩
    · exact ⟨(hafter y hy).1, (hafter y hy).2 x Reaches.refl⟩

/-- What follows the end of a path lies ahead of a place where the path has gone on. -/
theorem mem_trailing_iff (h : t.follow n ps = some x) :
    y ∈ t.trailing (branch (t.kids opens) levels) n ps ↔ ∃ rs i us p, ps = rs ++ i :: us ∧
      t.follow n rs = some p ∧ t.Ahead opens levels p (i + 1) y := by
  induction ps generalizing n with
  | nil => simp [trailing]
  | cons k ps ih =>
    obtain ⟨c, hc, h⟩ := follow_cons.1 h
    rw [trailing, hc, Option.map_some, Option.getD_some, List.mem_append, ih h,
      ht.lists_flatMap_branch.mem_iff]
    constructor
    · rintro (⟨rs, i, us, p, rfl, hp, hy⟩ | hy)
      · exact ⟨k :: rs, i, us, p, rfl, follow_cons.2 ⟨c, hc, hp⟩, hy⟩
      · exact ⟨[], k, ps, n, rfl, rfl, hy⟩
    · rintro ⟨_ | ⟨l, rs⟩, i, us, p, he, hp, hy⟩
      · obtain ⟨rfl, rfl⟩ := List.cons.inj he
        cases hp
        exact Or.inr hy
      · obtain ⟨rfl, rfl⟩ := List.cons.inj he
        obtain ⟨d, hd, hp⟩ := follow_cons.1 hp
        rw [hc] at hd
        cases hd
        exact Or.inl ⟨rs, i, us, p, rfl, hp, hy⟩

/-- Of what is not too deep below the beginning of a path, what lies below its end and what
follows that is what comes after the end. -/
lemma mem_onward_iff (ho : ∀ a, opens a = true) (h : t.follow n ps = some x)
    (hy : t.follow n qs = some y) (hq : qs.length ≤ levels + 1) :
    y ∈ (t.childrenFrom x 0).flatMap (branch (t.kids opens) levels) ++
      t.trailing (branch (t.kids opens) levels) n ps ↔ t.Precedes x y := by
  rw [ht.precedes_iff h hy, lt_iff_goes_on_or_parts, List.mem_append, ht.mem_trailing_iff h,
    ht.lists_flatMap_branch.mem_iff]
  -- A path that comes later goes on from the end of this one, or parts from it to a later child.
  refine or_congr ⟨?_, ?_⟩ ⟨?_, ?_⟩
  · rintro ⟨i, us, -, hu, -⟩
    exact ⟨i, us, ht.follow_inj hy (follow_trans h hu)⟩
  · rintro ⟨i, us, rfl⟩
    rw [follow_append, h, Option.bind_some] at hy
    simp only [List.length_append, List.length_cons] at hq
    exact ⟨i, us, Nat.zero_le i, hy, by omega, fun a _ _ => ho a⟩
  · rintro ⟨rs, i, us, p, hps, hp, j, vs, hij, hv, -⟩
    exact ⟨rs, i, us, j, vs, hij, hps, ht.follow_inj hy (follow_trans hp hv)⟩
  · rintro ⟨rs, i, us, j, vs, hij, rfl, rfl⟩
    rw [follow_append, Option.bind_eq_some_iff] at h
    obtain ⟨p, hp, -⟩ := h
    rw [follow_append, hp, Option.bind_some] at hy
    simp only [List.length_append, List.length_cons] at hq
    exact ⟨rs, i, us, p, rfl, hp, j, vs, hij, hy, by omega, fun a _ _ => ho a⟩

/-- What lies ahead of the beginning of a path and comes after its end follows the end, where the
end itself lies below something that may not be entered. -/
lemma mem_trailing_of_ahead (h : t.follow n ps = some x) (ha : t.Below n a) (hax : t.Below a x)
    (hclosed : opens a = false) (hy : t.Ahead opens levels n 0 y) (hxy : t.Precedes x y) :
    y ∈ t.trailing (branch (t.kids opens) levels) n ps := by
  obtain ⟨k, qs, -, hq, hlength, hopen⟩ := hy
  rw [ht.mem_trailing_iff h]
  -- A path that goes on from the end leads through the closed object, so it has to part before.
  rcases lt_iff_goes_on_or_parts.1 ((ht.precedes_iff h hq).1 hxy) with
    ⟨j, us, he⟩ | ⟨rs, i, us, j, vs, hij, rfl, he⟩
  · rw [he, follow_append, h, Option.bind_some] at hq
    have hay := hax.trans_reaches ⟨_, hq⟩
    exact absurd (hopen a ha hay) (by simp [hclosed])
  · rw [follow_append, Option.bind_eq_some_iff] at h
    obtain ⟨p, hp, -⟩ := h
    have hlength' := congrArg List.length he
    simp only [List.length_cons, List.length_append] at hlength'
    rw [he, follow_append, hp, Option.bind_some] at hq
    refine ⟨rs, i, us, p, rfl, hp, j, vs, hij, hq, by omega, fun b hb hby => ?_⟩
    exact hopen b (Reaches.trans_below ⟨rs, hp⟩ hb) hby

/-- What comes before an object and lies below another one that leads to it. -/
lemma lists_leading {l : List ν} (hw : t.Within b (levels + 1)) (h : t.follow b ps = some x)
    (hl : t.leading (branch (t.kids opens) levels) b ps = b :: l) :
    t.Lists l fun y => t.Below b y ∧ t.Precedes y x ∧
      ∀ a, t.Below b a → t.Below a y → ¬ t.Below a x → opens a = true := by
  have hp : (t.leading (branch (t.kids opens) levels) b ps).Pairwise t.Precedes :=
    ht.pairwise_leading hw h
  have hm : ∀ y, y ∈ b :: l ↔ _ := fun y => hl ▸ ht.mem_leading_iff hw h
  rw [hl, List.pairwise_cons] at hp
  refine ⟨fun y => ⟨fun hy => ?_, fun ⟨hby, hyx, hopen⟩ => ?_⟩, hp.2⟩
  · obtain ⟨hby, hyx, hopen⟩ := (hm y).1 (List.mem_cons_of_mem _ hy)
    refine ⟨hby.eq_or_below.resolve_left fun he => ?_, hyx, hopen⟩
    exact ht.precedes_irrefl (he ▸ hp.1 y hy)
  · rcases List.mem_cons.1 ((hm y).2 ⟨hby.reaches, hyx, hopen⟩) with rfl | hy
    · exact absurd hby ht.below_irrefl
    · exact hy

end IsForest

end Tree

end AccessTree
