import Mathlib.Data.List.Chain
import AccessTree.Proofs.ForwardSearch

/-!
Searching back. In document order the object before another one is the one that a step back
leads to, so a walk back goes through what leads up to its first object, the last one first.
-/

namespace AccessTree

open Search WalkM AccessTree.Tree

variable {ν : Type} {t : Tree ν}

namespace Walker

variable {w : Walker Unit ν} {b c m n p x y : ν} {i levels : Nat} {ps : List Nat}

/-- A step back leads from the one object to the other. -/
def After (w : Walker Unit ν) (y x : ν) : Prop := Inquiry.Says (w.previous x) (some y)

section
variable (hw : w.tree = t.atRest) (ht : t.IsForest)
include hw ht

/-- The last object of a branch is found by going down along last children. -/
lemma says_lastBelow (levels : Nat) (n : ν) : ∃ m, Inquiry.Says (w.lastBelow levels n) m ∧
    (w.branch t levels n).getLast? = some m := by
  -- The walk and the branch take one child each per level, so the induction is on the levels.
  induction levels generalizing n with
  | zero =>
    refine ⟨n, ?_, rfl⟩
    unfold lastBelow
    refine (says_enters hw n).bind ?_
    split
    · refine (says_ask hw (rfl : _ = t.childCount n)).bind ?_
      split
      · exact Inquiry.says_pure n
      · exact (Inquiry.says_note _).bind (Inquiry.says_pure n)
    · exact Inquiry.says_pure n
  | succ levels ih =>
    unfold lastBelow
    by_cases ho : t.mayEnter w.traverse n = true
    · rcases hi : t.childCount n with _ | i
      · refine ⟨n, (says_enters hw n).bind ?_, ?_⟩
        · rw [if_pos ho]
          exact (says_ask hw hi).bind (Inquiry.says_pure n)
        · rw [branch, AccessTree.branch, kids, if_pos ho, childrenFrom_of_le (Nat.le_of_eq hi)]
          rfl
      · obtain ⟨c, hc, -⟩ := ht.child n i (by omega)
        obtain ⟨m, hm, hlast⟩ := ih c
        refine ⟨m, (says_enters hw n).bind ?_, ht.getLast?_branch ho hi hc hlast⟩
        rw [if_pos ho]
        exact (says_ask hw hi).bind ((says_ask hw hc).bind hm)
    · refine ⟨n, (says_enters hw n).bind ?_, ?_⟩
      · rw [if_neg ho]
        exact Inquiry.says_pure n
      · rw [branch, AccessTree.branch, kids, if_neg ho]
        rfl

/-- A first child comes right after its parent. -/
lemma after_parent (hx : t.childAt p 0 = some x) : w.After p x := by
  obtain ⟨-, hp, hi⟩ := ht.of_childAt hx
  exact (says_ask hw hp).bind ((says_ask hw hi).bind (Inquiry.says_pure _))

/-- Any other child comes right after the end of its elder sibling's branch. -/
lemma after_sibling (hc : t.childAt p i = some c) (hx : t.childAt p (i + 1) = some x)
    (hm : (w.branch t w.maxDepth c).getLast? = some m) : w.After m x := by
  obtain ⟨-, hp, hi⟩ := ht.of_childAt hx
  obtain ⟨m', hlast, hm'⟩ := says_lastBelow hw ht w.maxDepth c
  rw [hm'] at hm
  cases hm
  exact (says_ask hw hp).bind ((says_ask hw hi).bind ((says_ask hw hc).bind (hlast.map _)))

/-- From a parent up to one of its children each object comes right after the one before. -/
lemma isChain_elder (hb : ∀ j < i, ∀ c, t.childAt p j = some c →
      (w.branch t w.maxDepth c).IsChain w.After) :
    let l := p :: ((t.childrenFrom p 0).take i).flatMap (w.branch t w.maxDepth)
    l.IsChain w.After ∧ ∀ x, t.childAt p i = some x → ∃ y, l.getLast? = some y ∧ w.After y x := by
  induction i with
  | zero => exact ⟨.singleton p, fun x hx => ⟨p, rfl, after_parent hw ht hx⟩⟩
  | succ i ih =>
    obtain ⟨hl, hlast⟩ := ih fun j hj => hb j (by omega)
    have htake : (t.childrenFrom p 0).take (i + 1) =
        (t.childrenFrom p 0).take i ++ (t.childAt p i).toList := by
      rw [List.take_add_one, ht.getElem?_childrenFrom, Nat.zero_add]
    -- One child more: its branch is appended, and what ends the branch leads on to the next child.
    cases hc : t.childAt p i with
    | none =>
      rw [hc, Option.toList_none, List.append_nil] at htake
      rw [htake]
      refine ⟨hl, fun x hx => ?_⟩
      have := ht.lt_of_childAt hx
      obtain ⟨d, hd, -⟩ := ht.child p i (by omega)
      rw [hc] at hd
      cases hd
    | some c =>
      obtain ⟨y, hy, hyc⟩ := hlast c hc
      obtain ⟨m, -, hm⟩ := says_lastBelow hw ht w.maxDepth c
      have hhead : (w.branch t w.maxDepth c).head? = some c := by
        unfold branch
        cases w.maxDepth <;> rfl
      rw [hc, Option.toList_some] at htake
      rw [htake, List.flatMap_append, List.flatMap_singleton, ← List.cons_append]
      refine ⟨List.isChain_append.2 ⟨hl, hb i (by omega) c hc, ?_⟩, fun x hx => ⟨m, ?_, ?_⟩⟩
      · intro y' hy' c' hc'
        rw [hy] at hy'
        rw [hhead] at hc'
        cases hy'
        cases hc'
        exact hyc
      · rw [List.getLast?_append, hm]
        rfl
      · exact after_sibling hw ht hc hx hm

lemma isChain_branch (h : t.Within n levels) (hl : levels ≤ w.maxDepth) :
    (w.branch t w.maxDepth n).IsChain w.After := by
  -- The branches of children are cut at the same depth as the branch, so the induction is on the
  -- levels that are really there.
  induction levels using Nat.strong_induction_on generalizing n with
  | _ levels ih =>
    rw [branch, ht.branch_of_within (h.mono hl), kids]
    split
    · have helder := isChain_elder (p := n) (i := (t.childrenFrom n 0).length) hw ht
        fun j _ c hc => by
          obtain ⟨k, hk, hck⟩ := within_childAt h hc
          exact ih k (by omega) hck (by omega)
      rw [List.take_length] at helder
      exact helder.1
    · exact .singleton n

/-- What leads up to an object, each one right after the one before. -/
lemma isChain_leading (hd : t.Within b (w.maxDepth + 1)) (h : t.follow b ps = some x) :
    (t.leading (w.branch t w.maxDepth) b ps ++ [x]).IsChain w.After := by
  -- A path grows at its end: after the parent come the branches of the elder siblings.
  induction ps using List.reverseRecOn generalizing x with
  | nil => exact .singleton x
  | append_singleton ps i ih =>
    obtain ⟨p, hp, hx⟩ := follow_snoc.1 h
    have hbelow : ∀ j < i, ∀ c, t.childAt p j = some c →
        (w.branch t w.maxDepth c).IsChain w.After := by
      refine fun j _ c hc => isChain_branch hw ht ?_ (Nat.le_refl _)
      obtain ⟨k, hk, hck⟩ := within_childAt (hd.follow hp) hc
      exact hck.mono (by omega)
    obtain ⟨hl, hlast⟩ := isChain_elder hw ht hbelow
    obtain ⟨y, hy, hyx⟩ := hlast x hx
    rw [leading_snoc hp hx, List.append_assoc, List.cons_append, List.isChain_split]
    refine ⟨ih hp, List.isChain_append.2 ⟨hl, .singleton x, fun y' hy' x' hx' => ?_⟩⟩
    rw [hy] at hy'
    cases hy'
    cases hx'
    exact hyx

end

/-- A walk back along such a list ends at the stop that the list begins with. -/
lemma outcome_backward [DecidableEq ν] (hw : w.tree = t.atRest) (hl : w.limit = 0) {l : List ν}
    {steps : Nat} {asked : Logged Unit (Event ν)} {found : Array ν}
    (hc : (b :: l).IsChain w.After) (hx : (b :: l).getLast? = some x) (hb : b ∉ l)
    (hs : l.length < steps) : outcome (w.backward steps x) ⟨asked, some b, found⟩ =
      (.ok (), some b, found ++ (l.reverse.filter (w.keeps t)).toArray) := by
  obtain ⟨steps, rfl⟩ := Nat.exists_eq_succ_of_ne_zero (by omega : steps ≠ 0)
  -- The walk takes the last object of the list and steps back to the one before.
  induction l using List.reverseRecOn generalizing x steps asked found with
  | nil =>
    obtain rfl : b = x := by simpa using hx
    rw [backward, outcome_isStop_bind, beq_self_eq_true]
    simp
    rfl
  | append_singleton l n ih =>
    rw [← List.cons_append] at hc hx
    rw [List.getLast?_concat] at hx
    cases hx
    have hbl : b ∉ l := fun h => hb (List.mem_append_left _ h)
    have hbn : (some b == some n) = false := by
      have : b ≠ n := fun h => hb (by simp [h])
      simpa using this
    obtain ⟨hl', -, hlast⟩ := List.isChain_append.1 hc
    obtain ⟨y, hy⟩ : ∃ y, (b :: l).getLast? = some y := ⟨_, List.getLast?_cons⟩
    have hyn : Inquiry.Says (w.previous n) (some y) := hlast y hy n rfl
    rw [List.length_append, List.length_singleton] at hs
    rw [backward, outcome_isStop_bind, hbn]
    refine outcome_bind (outcome_visit hw hl) fun asked' => outcome_ask hyn fun asked' => ?_
    obtain ⟨steps, rfl⟩ := Nat.exists_eq_succ_of_ne_zero (by omega : steps ≠ 0)
    refine (ih hl' hy hbl steps (by omega)).trans ?_
    rw [List.reverse_append]
    cases hk : w.keeps t n <;> simp [hk]

/-- Where nothing limits it, a walk back finds what leads up to the anchor and is kept. -/
lemma gives_backward [DecidableEq ν] (hw : w.tree = t.atRest) (ht : t.IsForest) (hl : w.limit = 0)
    {l : List ν} (hd : t.Within b (w.maxDepth + 1)) (h : t.follow b (i :: ps) = some w.anchor)
    (hlead : t.leading (w.branch t w.maxDepth) b (i :: ps) = b :: l) :
    ∃ enough, ∀ steps ≥ enough, Gives (collect (some b) (w.backward steps w.anchor))
      (l.filter (w.keeps t)).reverse := by
  refine ⟨l.length + 2, fun steps hs => gives_collect fun asked => ⟨.ok (), some b, by simp, ?_⟩⟩
  have hc := isChain_leading hw ht hd h
  rw [hlead, List.cons_append] at hc
  have hb : b ∉ l ++ [w.anchor] := by
    intro hb
    rcases List.mem_append.1 hb with hb | hb
    · exact ht.below_irrefl (((ht.lists_leading hd h hlead).mem_iff b).1 hb).1
    · exact ht.below_irrefl (List.mem_singleton.1 hb ▸ (⟨i, ps, h⟩ : t.Below b w.anchor))
  rw [outcome_backward hw hl hc (by rw [← List.cons_append, List.getLast?_concat]) hb
    (by simp; omega), List.reverse_append, Array.empty_append]
  simp [keeps]

end Walker

namespace Tree

/-- Where a search back ends. -/
def boundary (t : Tree ν) (q : Query ν) : ν :=
  if q.scope ≠ .inorder ∧ q.recurse = true then (t.parent q.anchor).getD q.collection
  else q.collection

lemma IsForest.below_boundary (ht : t.IsForest) {q : Query ν}
    (h : t.Below q.collection q.anchor) :
    t.Reaches q.collection (t.boundary q) ∧ t.Below (t.boundary q) q.anchor := by
  rw [boundary]
  split
  · obtain ⟨p, i, hp, hi⟩ := h.exists_childAt
    rw [(ht.of_childAt hi).2.1]
    exact ⟨hp, below_of_childAt hi⟩
  · exact ⟨Reaches.refl, h⟩

end Tree

namespace Finder

variable [DecidableEq ν] {f : Finder Unit ν} {s : Settings} {q : Query ν} {l : List ν}

lemma gives_findBack (hf : f.tree = t.atRest) (ht : t.IsForest)
    (h : t.Below q.collection q.anchor) (hl : Gives (collect (some (t.boundary q))
      ((f.walker q.rule q.anchor q.limit (q.traverse || q.scope == .inorder)).backward f.steps
        q.anchor)) l) : (f.findBack q).Gives l := by
  have hne : q.anchor ≠ q.collection := fun he => ht.below_irrefl (he ▸ h)
  obtain ⟨p, i, -, hi⟩ := h.exists_childAt
  have hp := (ht.of_childAt hi).2.1
  rw [findBack]
  by_cases hc : q.scope ≠ .inorder ∧ q.recurse = true
  · rw [if_pos ⟨hc.1, hc.2, hne⟩, hf]
    rw [boundary, if_pos hc, hp] at hl
    exact (gives_ask hp).bind hl
  · rw [if_neg fun h => hc ⟨h.1, h.2.1⟩]
    rw [boundary, if_neg hc] at hl
    exact hl

lemma exists_findBack (ht : t.IsForest) (hd : q.direction = .back) (hs : q.sort = .canonical)
    (hl : s.limit q.limit = 0) (hw : t.Within q.collection (s.maxDepth + 1))
    (ha : t.Below q.collection q.anchor) : ∃ l, t.Answers s (·.find q) l ∧
      t.Lists l fun y => t.meets q.rule s y = true ∧ t.Below (t.boundary q) y ∧
        t.Precedes y q.anchor ∧ ∀ a, t.Below (t.boundary q) a → t.Below a y →
          ¬ t.Below a q.anchor →
            t.mayEnter (q.traverse || q.scope == .inorder) a = true := by
  obtain ⟨⟨rs, hrs⟩, i, ps, hb⟩ := ht.below_boundary ha
  let w := (⟨t.atRest, s, 0⟩ : Finder Unit ν).walker q.rule q.anchor q.limit
    (q.traverse || q.scope == .inorder)
  have hwb : t.Within (t.boundary q) (s.maxDepth + 1) := (hw.follow hrs).mono (Nat.sub_le _ _)
  obtain ⟨l, hlead⟩ : ∃ l, t.leading (w.branch t w.maxDepth) (t.boundary q) (i :: ps) =
    t.boundary q :: l := ⟨_, rfl⟩
  obtain ⟨enough, he⟩ := w.gives_backward rfl ht hl hwb hb hlead
  refine ⟨l.filter (w.keeps t), ⟨enough, fun steps hs' => ?_⟩, ?_⟩
  · refine gives_find ht rfl hs (fun _ => ?_) fun hout => absurd ?_ hout
    · rw [hd, ← List.reverse_reverse (l.filter _)]
      exact (gives_findBack rfl ht ha (he steps hs')).bind (gives_finish true _)
    · exact anchors_of_reaches hw (ht.valid_of_below ha).2 ha.reaches
  · refine ((ht.lists_leading hwb hb hlead).filter _).congr fun y => ?_
    have hkeep : w.keeps t y = true ↔ y ≠ q.anchor ∧ t.meets q.rule s y = true := by
      simp [Walker.keeps, w, walker]
    rw [hkeep]
    constructor
    · rintro ⟨⟨hby, hyx, ho⟩, -, hm⟩
      exact ⟨hm, hby, hyx, ho⟩
    · rintro ⟨hm, hby, hyx, ho⟩
      exact ⟨⟨hby, hyx, ho⟩, fun he => ht.precedes_irrefl (he ▸ hyx), hm⟩

/-- Nothing comes before the collection. -/
lemma answers_back_self (ht : t.IsForest) (hd : q.direction = .back) (hs : q.sort = .canonical)
    (hl : s.limit q.limit = 0) (he : q.anchor = q.collection) : t.Answers s (·.find q) [] := by
  refine ⟨1, fun steps hsteps => gives_find ht rfl hs (fun _ => ?_) fun _ => rfl⟩
  rw [hd]
  refine Gives.bind (a := []) ?_ (gives_finish true [])
  rw [findBack, if_neg fun h => h.2.2 he, ← he]
  refine gives_collect fun asked => ⟨.ok (), some q.anchor, by simp, ?_⟩
  exact Walker.outcome_backward rfl hl (.singleton _) rfl List.not_mem_nil hsteps

/-- Searches back find exactly what comes before the anchor, lies below the boundary and is not
hidden in an object that may not be entered and that the anchor is not in. -/
theorem answers_back (ht : t.IsForest) (hd : q.direction = .back) (hs : q.sort = .canonical)
    (hl : s.limit q.limit = 0) (hw : t.Within q.collection (s.maxDepth + 1)) :
    (t.Below q.collection q.anchor → ∃ l, t.Answers s (·.find q) l ∧
      (t.Lists l fun y => t.meets q.rule s y = true ∧ t.Below (t.boundary q) y ∧
        t.Precedes y q.anchor ∧ ∀ a, t.Below (t.boundary q) a → t.Below a y →
          ¬ t.Below a q.anchor →
            t.mayEnter (q.traverse || q.scope == .inorder) a = true) ∧
      (q.scope = .inorder ∨ q.traverse = true → t.boundary q = q.collection →
        ∃ after, t.Answers s (·.findAll q.collection q.rule .canonical q.limit true) (l ++ after) ∧
          ∀ y ∈ after, ¬ t.Precedes y q.anchor)) ∧
    (q.anchor = q.collection → t.Answers s (·.find q) []) := by
  refine ⟨fun ha => ?_, answers_back_self ht hd hs hl⟩
  · obtain ⟨l, hanswer, hlist⟩ := exists_findBack ht hd hs hl hw ha
    refine ⟨l, hanswer, hlist, fun ho hb => ?_⟩
    have hopen : ∀ a, t.mayEnter (q.traverse || q.scope == .inorder) a = true := by
      intro a
      rcases ho with ho | ho <;> simp [mayEnter, ho]
    replace hlist := hlist.congr (Q := fun y => (t.meets q.rule s y = true ∧
      t.Below q.collection y) ∧ t.Precedes y q.anchor) fun y => by
        simp only [hb, hopen, implies_true, and_true, and_assoc]
    obtain ⟨all, hall, hlall⟩ := exists_findAll_within ht hl hw q.rule
    obtain ⟨after, rfl, hafter⟩ := ht.exists_append_of_lists hlall hlist
      (fun y hy => hy.2.reaches) ha.reaches
    exact ⟨after, hall, hafter⟩

theorem answers_back_sample :
    let q : Query (Fin 4) := { collection := 0, anchor := 3, direction := .back }
    sample.IsForest ∧ q.direction = .back ∧ q.sort = .canonical ∧
      ({} : Settings).limit q.limit = 0 ∧ sample.Within q.collection 4097 ∧
        sample.Below q.collection q.anchor ∧ ∃ l after, sample.Answers {} (·.find q) l ∧
          sample.Answers {} (·.findAll 0 .anyObject .canonical 0 true) (l ++ after) ∧
            ∀ y ∈ after, ¬ sample.Precedes y 3 := by
  intro q
  have hw : sample.Within 0 4097 := sample_isForest.within_card.mono (by decide)
  have hb : sample.Below 0 3 := ⟨1, [], rfl⟩
  obtain ⟨l, hl, -, h⟩ := (answers_back (s := {}) (q := q) sample_isForest rfl rfl rfl hw).1 hb
  obtain ⟨after, hall, hafter⟩ := h (Or.inr rfl) rfl
  exact ⟨sample_isForest, rfl, rfl, rfl, hw, hb, l, after, hl, hall, hafter⟩

end Finder

end AccessTree
