import Mathlib.Data.Fintype.Card
import Mathlib.Data.Set.Finite.Basic
import AccessTree.Tree

/-!
Trees whose answers agree with each other: the objects form a finite forest. A place in such a
tree is a path, the list of the places of children on the way down to it. Two paths from one
object to another are the same path, and two objects above a third one lie above each other.
-/

namespace AccessTree

/-- The object so many levels above another one, for a given parent of each object. -/
def climb {ν : Type} (up : ν → Option ν) : Nat → ν → Option ν
  | 0, n => some n
  | k + 1, n => (up n).bind (climb up k)

lemma climb_add {ν : Type} {up : ν → Option ν} (j k : Nat) (n : ν) :
    climb up (j + k) n = (climb up j n).bind (climb up k) := by
  induction j generalizing n with
  | zero => rw [Nat.zero_add]; rfl
  | succ j ih =>
    rw [Nat.succ_add, climb, climb, Option.bind_assoc]
    exact congrArg _ (funext ih)

/-- What is found on the way up is where it begins or on the way up from the parent. -/
lemma exists_climb_succ_iff {ν : Type} {up : ν → Option ν} {levels : Nat} {n m : ν} :
    (∃ k ≤ levels + 1, climb up k n = some m) ↔
      n = m ∨ ∃ p, up n = some p ∧ ∃ k ≤ levels, climb up k p = some m := by
  constructor
  · rintro ⟨_ | k, hk, h⟩
    · exact Or.inl (Option.some.inj h)
    · obtain ⟨p, hp, h⟩ := Option.bind_eq_some_iff.1 h
      exact Or.inr ⟨p, hp, k, by omega, h⟩
  · rintro (rfl | ⟨p, hp, k, hk, h⟩)
    · exact ⟨0, Nat.zero_le _, rfl⟩
    · exact ⟨k + 1, by omega, Option.bind_eq_some_iff.2 ⟨p, hp, h⟩⟩

namespace Tree

variable {ν : Type}

abbrev isValid (t : Tree ν) (n : ν) : Bool := t (.isValid n)
abbrev parent (t : Tree ν) (n : ν) : Option ν := t (.parent n)
abbrev childCount (t : Tree ν) (n : ν) : Nat := t (.childCount n)
abbrev childAt (t : Tree ν) (n : ν) (i : Nat) : Option ν := t (.childAt n i)
abbrev indexInParent (t : Tree ν) (n : ν) : Option Nat := t (.indexInParent n)
abbrev isCollection (t : Tree ν) (n : ν) : Bool := t (.isCollection n)

/-- Whether a walk goes below an object, which it may not where that is a collection. -/
def mayEnter (t : Tree ν) (traverse : Bool) (n : ν) : Bool := traverse || !t.isCollection n

/-- The object that a path leads to. -/
def follow (t : Tree ν) : ν → List Nat → Option ν
  | n, [] => some n
  | n, i :: ps => (t.childAt n i).bind (follow t · ps)

/-- The answers are those of a finite forest, and what is outside it stands alone. -/
structure IsForest (t : Tree ν) : Prop where
  finite : {n | t.isValid n = true}.Finite
  outside : ∀ n, t.isValid n = false → t.parent n = none ∧ t.childCount n = 0
  child : ∀ n i, i < t.childCount n → ∃ c, t.childAt n i = some c ∧ t.isValid c = true ∧
    t.parent c = some n ∧ t.indexInParent c = some i
  noChild : ∀ n i, t.childCount n ≤ i → t.childAt n i = none
  parent : ∀ c p, t.parent c = some p → ∃ i, t.childAt p i = some c
  root : ∀ n, t.parent n = none → t.indexInParent n = none
  /-- Whoever climbs leaves the forest in the end. -/
  ends : ∀ n, ∃ k, climb t.parent k n = none

/-- One object is another one or lies below it. -/
def Reaches (t : Tree ν) (a n : ν) : Prop := ∃ ps, t.follow a ps = some n

/-- One object lies below another one, which is not the same one. -/
def Below (t : Tree ν) (a n : ν) : Prop := ∃ i ps, t.follow a (i :: ps) = some n

/-- No path down from an object is longer than this. -/
def Within (t : Tree ν) (n : ν) (levels : Nat) : Prop :=
  ∀ ps m, t.follow n ps = some m → ps.length ≤ levels

variable {t : Tree ν} {a b c n m p : ν} {i j : Nat} {ps qs rs : List Nat}

@[simp] lemma mayEnter_true : t.mayEnter true n = true := rfl

/-! ### Paths -/

@[simp] lemma follow_nil : t.follow n [] = some n := rfl

lemma follow_cons : t.follow n (i :: ps) = some m ↔
    ∃ c, t.childAt n i = some c ∧ t.follow c ps = some m := Option.bind_eq_some_iff

lemma follow_append : t.follow n (ps ++ qs) = (t.follow n ps).bind (t.follow · qs) := by
  induction ps generalizing n with
  | nil => rfl
  | cons i ps ih =>
    simp only [List.cons_append, follow, Option.bind_assoc]
    exact congrArg _ (funext fun c => ih)

lemma follow_trans (h : t.follow a ps = some b) (h' : t.follow b qs = some c) :
    t.follow a (ps ++ qs) = some c := by
  rw [follow_append, h]; exact h'

lemma follow_snoc : t.follow n (ps ++ [i]) = some m ↔
    ∃ p, t.follow n ps = some p ∧ t.childAt p i = some m := by
  rw [follow_append, Option.bind_eq_some_iff]
  refine exists_congr fun p => and_congr_right fun _ => ?_
  rw [follow_cons]
  simp

lemma below_of_childAt (h : t.childAt n i = some c) : t.Below n c :=
  ⟨i, [], follow_cons.2 ⟨c, h, rfl⟩⟩

lemma Reaches.refl : t.Reaches n n := ⟨[], rfl⟩

lemma Below.reaches (h : t.Below a n) : t.Reaches a n := by
  obtain ⟨i, ps, h⟩ := h
  exact ⟨i :: ps, h⟩

lemma Reaches.eq_or_below (h : t.Reaches a n) : a = n ∨ t.Below a n := by
  obtain ⟨ps | ⟨i, ps⟩, h⟩ := h
  · cases h; exact Or.inl rfl
  · exact Or.inr ⟨i, ps, h⟩

lemma Reaches.trans (h : t.Reaches a b) (h' : t.Reaches b c) : t.Reaches a c := by
  obtain ⟨ps, h⟩ := h
  obtain ⟨qs, h'⟩ := h'
  exact ⟨ps ++ qs, follow_trans h h'⟩

lemma Below.trans_reaches (h : t.Below a b) (h' : t.Reaches b c) : t.Below a c := by
  obtain ⟨i, ps, h⟩ := h
  obtain ⟨qs, h'⟩ := h'
  exact ⟨i, ps ++ qs, follow_trans h h'⟩

lemma Reaches.trans_below (h : t.Reaches a b) (h' : t.Below b c) : t.Below a c := by
  rcases h.eq_or_below with rfl | h
  · exact h'
  · exact h.trans_reaches h'.reaches

/-- What lies below an object is a child of something that the object reaches. -/
lemma Below.exists_childAt (h : t.Below a n) : ∃ p i, t.Reaches a p ∧ t.childAt p i = some n := by
  obtain ⟨i, ps, h⟩ := h
  rcases List.eq_nil_or_concat (i :: ps) with he | ⟨qs, j, he⟩
  · cases he
  · rw [he, List.concat_eq_append] at h
    obtain ⟨p, hp, hn⟩ := follow_snoc.1 h
    exact ⟨p, j, ⟨qs, hp⟩, hn⟩

/-- Where all that is reached keeps its children, every path leads where it led. -/
lemma follow_congr {t' : Tree ν} (h : ∀ m, t.Reaches n m → ∀ i, t'.childAt m i = t.childAt m i)
    (ps : List Nat) : t'.follow n ps = t.follow n ps := by
  induction ps generalizing n with
  | nil => rfl
  | cons i ps ih =>
    rw [follow, follow, h n Reaches.refl i]
    refine Option.bind_congr fun c hc => ih fun m hm => h m ?_
    exact (below_of_childAt hc).reaches.trans hm

lemma within_childAt (h : t.Within n i) (hc : t.childAt n j = some c) :
    ∃ k, i = k + 1 ∧ t.Within c k := by
  have one := h [j] c (follow_cons.2 ⟨c, hc, rfl⟩)
  refine ⟨i - 1, by simp at one; omega, fun ps m hm => ?_⟩
  have := h (j :: ps) m (follow_cons.2 ⟨c, hc, hm⟩)
  simp at this; omega

/-- Below the end of a path there are as many levels less as the path is long. -/
lemma Within.follow (hw : t.Within n i) (h : t.follow n ps = some m) :
    t.Within m (i - ps.length) := fun qs l hl => by
  have := hw (ps ++ qs) l (follow_trans h hl)
  rw [List.length_append] at this
  omega

lemma Within.mono (hw : t.Within n i) (hij : i ≤ j) : t.Within n j := fun ps m h =>
  (hw ps m h).trans hij

namespace IsForest

variable (ht : t.IsForest)
include ht

lemma lt_of_childAt (h : t.childAt n i = some c) : i < t.childCount n := by
  by_contra hc
  rw [ht.noChild n i (by omega)] at h
  cases h

lemma of_childAt (h : t.childAt n i = some c) :
    t.isValid c = true ∧ t.parent c = some n ∧ t.indexInParent c = some i := by
  obtain ⟨c', hc, rest⟩ := ht.child n i (ht.lt_of_childAt h)
  rw [h] at hc
  cases hc
  exact rest

lemma childAt_of_parent (h : t.parent c = some p) :
    ∃ i, t.childAt p i = some c ∧ t.indexInParent c = some i := by
  obtain ⟨i, hi⟩ := ht.parent c p h
  exact ⟨i, hi, (ht.of_childAt hi).2.2⟩

lemma valid_of_childAt (h : t.childAt n i = some c) : t.isValid n = true := by
  by_contra hn
  have := (ht.outside n (by simpa using hn)).2
  have := ht.lt_of_childAt h
  omega

lemma valid_of_follow (hn : t.isValid n = true) (h : t.follow n ps = some m) :
    t.isValid m = true := by
  induction ps generalizing n with
  | nil => cases h; exact hn
  | cons i ps ih =>
    obtain ⟨c, hc, h⟩ := follow_cons.1 h
    exact ih (ht.of_childAt hc).1 h

lemma valid_of_below (h : t.Below a n) : t.isValid a = true ∧ t.isValid n = true := by
  obtain ⟨i, ps, h⟩ := h
  obtain ⟨c, hc, h'⟩ := follow_cons.1 h
  exact ⟨ht.valid_of_childAt hc, ht.valid_of_follow (ht.of_childAt hc).1 h'⟩

/-- Climbing takes back what a path went down. -/
lemma climb_length (h : t.follow n ps = some m) : climb t.parent ps.length m = some n := by
  induction ps using List.reverseRecOn generalizing m with
  | nil => cases h; rfl
  | append_singleton ps i ih =>
    obtain ⟨p, hp, hm⟩ := follow_snoc.1 h
    rw [List.length_append, List.length_singleton, climb, (ht.of_childAt hm).2.1]
    exact ih hp

lemma exists_follow_of_climb {k : Nat} (h : climb t.parent k m = some n) :
    ∃ ps, ps.length = k ∧ t.follow n ps = some m := by
  induction k generalizing m with
  | zero => cases h; exact ⟨[], rfl, rfl⟩
  | succ k ih =>
    obtain ⟨p, hp, h⟩ := Option.bind_eq_some_iff.1 h
    obtain ⟨ps, hk, hps⟩ := ih h
    obtain ⟨i, hi, -⟩ := ht.childAt_of_parent hp
    exact ⟨ps ++ [i], by simp [hk], follow_snoc.2 ⟨p, hps, hi⟩⟩

lemma below_of_climb {k : Nat} (hk : 0 < k) (h : climb t.parent k n = some a) : t.Below a n := by
  obtain ⟨_ | ⟨i, ps⟩, rfl, hps⟩ := ht.exists_follow_of_climb h
  · exact absurd hk (Nat.lt_irrefl 0)
  · exact ⟨i, ps, hps⟩

/-- No way down leads back to where it began. -/
lemma follow_self (h : t.follow n ps = some n) : ps = [] := by
  obtain ⟨k, hk⟩ := ht.ends n
  induction k generalizing n ps with
  | zero => cases hk
  | succ k ih =>
    rcases List.eq_nil_or_concat ps with rfl | ⟨qs, i, rfl⟩
    · rfl
    · -- The parent lies on the same circle, one level less below the end of the climb.
      rw [List.concat_eq_append] at h
      obtain ⟨p, hp, hn⟩ := follow_snoc.1 h
      rw [climb, (ht.of_childAt hn).2.1] at hk
      exact absurd (ih (follow_cons.2 ⟨n, hn, hp⟩) hk) (by simp)

lemma below_irrefl : ¬ t.Below n n := fun ⟨_, _, h⟩ => by simpa using ht.follow_self h

lemma not_below_of_reaches (h : t.Reaches n m) : ¬ t.Below m n := fun h' =>
  ht.below_irrefl (h'.trans_reaches h)

/-- Of two objects that a third one is reached from, one is reached from the other. -/
lemma follow_meet (h : t.follow a ps = some n) (h' : t.follow b qs = some n) :
    (∃ rs, t.follow a rs = some b ∧ ps = rs ++ qs) ∨
      ∃ rs, t.follow b rs = some a ∧ qs = rs ++ ps := by
  induction ps using List.reverseRecOn generalizing n qs with
  | nil => cases h; exact Or.inr ⟨qs, h', by simp⟩
  | append_singleton ps i ih =>
    rcases List.eq_nil_or_concat qs with rfl | ⟨qs, j, rfl⟩
    · cases h'; exact Or.inl ⟨ps ++ [i], h, by simp⟩
    rw [List.concat_eq_append] at h' ⊢
    obtain ⟨p, hp, hi⟩ := follow_snoc.1 h
    obtain ⟨q, hq, hj⟩ := follow_snoc.1 h'
    obtain ⟨-, pi, ii⟩ := ht.of_childAt hi
    obtain ⟨-, pj, ij⟩ := ht.of_childAt hj
    rw [pi] at pj
    rw [ii] at ij
    cases pj
    cases ij
    rcases ih hp hq with ⟨rs, hr, rfl⟩ | ⟨rs, hr, rfl⟩
    · exact Or.inl ⟨rs, hr, by simp⟩
    · exact Or.inr ⟨rs, hr, by simp⟩

lemma reaches_meet (h : t.Reaches a n) (h' : t.Reaches b n) : t.Reaches a b ∨ t.Reaches b a := by
  obtain ⟨ps, h⟩ := h
  obtain ⟨qs, h'⟩ := h'
  rcases ht.follow_meet h h' with ⟨rs, hr, -⟩ | ⟨rs, hr, -⟩
  · exact Or.inl ⟨rs, hr⟩
  · exact Or.inr ⟨rs, hr⟩

lemma follow_inj (h : t.follow n ps = some m) (h' : t.follow n qs = some m) : ps = qs := by
  rcases ht.follow_meet h h' with ⟨rs, hr, rfl⟩ | ⟨rs, hr, rfl⟩ <;>
    simp [ht.follow_self hr]

/-- At each level there is only one object above another one. -/
lemma eq_of_follow (h : t.follow a ps = some n) (h' : t.follow b qs = some n)
    (hl : ps.length = qs.length) : a = b := by
  have hclimb := ht.climb_length h
  rw [hl, ht.climb_length h'] at hclimb
  exact (Option.some.inj hclimb).symm

/-- Above a child are its parent and what is above its parent. -/
lemma below_childAt_iff (h : t.childAt p i = some c) : t.Below a c ↔ t.Reaches a p := by
  refine ⟨fun ha => ?_, fun ha => ha.trans_below (below_of_childAt h)⟩
  obtain ⟨q, j, hq, hc⟩ := ha.exists_childAt
  have hp := (ht.of_childAt h).2.1
  rw [(ht.of_childAt hc).2.1] at hp
  cases hp
  exact hq

/-- What different children reach is different. -/
lemma index_eq (hi : t.childAt p i = some a) (hj : t.childAt p j = some b) (ha : t.Reaches a n)
    (hb : t.Reaches b n) : i = j := by
  obtain ⟨ps, ha⟩ := ha
  obtain ⟨qs, hb⟩ := hb
  have := ht.follow_inj (follow_cons.2 ⟨a, hi, ha⟩) (follow_cons.2 ⟨b, hj, hb⟩)
  exact (List.cons.inj this).1

/-- Two paths begin alike where one child reaches both of their ends. -/
lemma index_eq_iff (ha : t.follow n (i :: ps) = some a) (hb : t.follow n (j :: qs) = some b) :
    j = i ↔ ∃ k c, t.childAt n k = some c ∧ t.Reaches c a ∧ t.Reaches c b := by
  obtain ⟨c, hc, hca⟩ := follow_cons.1 ha
  obtain ⟨d, hd, hdb⟩ := follow_cons.1 hb
  constructor
  · rintro rfl
    rw [hc] at hd
    cases hd
    exact ⟨j, c, hc, ⟨ps, hca⟩, ⟨qs, hdb⟩⟩
  · rintro ⟨k, e, he, hea, heb⟩
    exact (ht.index_eq hd he ⟨qs, hdb⟩ heb).trans (ht.index_eq he hc hea ⟨ps, hca⟩)

/-- What lies between an object and what one of its children reaches is reached by that child. -/
lemma reaches_between (hi : t.childAt n i = some c) (hc : t.Reaches c m) (ha : t.Below n a)
    (ham : t.Below a m) : t.Reaches c a := by
  obtain ⟨j, ps, ha⟩ := ha
  obtain ⟨d, hd, hda⟩ := follow_cons.1 ha
  rw [ht.index_eq hd hi (Reaches.trans ⟨ps, hda⟩ ham.reaches) hc, hi] at hd
  cases hd
  exact ⟨ps, hda⟩

/-- As many objects lie above the end of a path as the path is long. -/
lemma exists_above (h : t.follow n ps = some m) :
    ∃ l : List ν, l.length = ps.length ∧ l.Nodup ∧ ∀ a ∈ l, t.Below a m := by
  induction ps using List.reverseRecOn generalizing m with
  | nil => exact ⟨[], rfl, List.nodup_nil, by simp⟩
  | append_singleton ps i ih =>
    obtain ⟨p, hp, hm⟩ := follow_snoc.1 h
    obtain ⟨l, hl, hn, ha⟩ := ih hp
    refine ⟨p :: l, by simp [hl], List.nodup_cons.2 ⟨fun hm => ht.below_irrefl (ha p hm), hn⟩, ?_⟩
    intro a hal
    rw [ht.below_childAt_iff hm]
    rcases List.mem_cons.1 hal with rfl | hal
    · exact Reaches.refl
    · exact (ha a hal).reaches

/-- There is a greatest depth below every object. -/
lemma exists_within (n : ν) : ∃ levels, t.Within n levels := by
  classical
  refine ⟨ht.finite.toFinset.card, fun ps m h => ?_⟩
  obtain ⟨l, hl, hn, ha⟩ := ht.exists_above h
  rw [← hl, ← List.toFinset_card_of_nodup hn]
  refine Finset.card_le_card fun a hal => ht.finite.mem_toFinset.2 ?_
  exact (ht.valid_of_below (ha a (List.mem_toFinset.1 hal))).1

/-- No path is as long as there are objects. -/
lemma within_card [Fintype ν] : t.Within n (Fintype.card ν) := fun ps m h => by
  obtain ⟨l, hl, hn, -⟩ := ht.exists_above h
  rw [← hl]
  exact hn.length_le_card

end IsForest

/-- Finitely many objects with a list of children each are a forest if each child names its place
and nobody climbs for ever. -/
lemma isForest_of_children [Finite ν] {kids : ν → List ν} {levels : Nat}
    (valid : ∀ n, t.isValid n = true) (count : ∀ n, t.childCount n = (kids n).length)
    (nth : ∀ n i, t.childAt n i = (kids n)[i]?)
    (child : ∀ n, ∀ i < t.childCount n, ∃ c, t.childAt n i = some c ∧ t.parent c = some n ∧
      t.indexInParent c = some i)
    (parent : ∀ c p, t.parent c = some p → t.childAt p ((t.indexInParent c).getD 0) = some c)
    (root : ∀ n, t.parent n = none → t.indexInParent n = none)
    (ends : ∀ n, climb t.parent levels n = none) : t.IsForest where
  finite := Set.toFinite _
  outside n h := absurd ((valid n).symm.trans h) (by simp)
  child n i h := by
    obtain ⟨c, hc, hplace⟩ := child n i h
    exact ⟨c, hc, valid c, hplace⟩
  noChild n i h := by
    rw [nth, List.getElem?_eq_none ((count n).symm.trans_le h)]
  parent c p h := ⟨_, parent c p h⟩
  root := root
  ends n := ⟨levels, ends n⟩

/-- A window with a toolbar and a list. The toolbar is a collection of its own and has a button. -/
def sample : Tree (Fin 4)
  | .parent n => [none, some 0, some 1, some 0][n]
  | .childCount n => [2, 1, 0, 0][n]
  | .childAt n i => [[1, 3], [2], [], []][n][i]?
  | .indexInParent n => [none, some 0, some 0, some 1][n]
  | .isValid _ => true
  | .isCollection n => n == 1
  | q => q.absent

lemma sample_isForest : sample.IsForest :=
  isForest_of_children (fun _ => rfl) (by decide) (fun _ _ => rfl) (by decide) (by decide)
    (by decide) (by decide : ∀ n, climb sample.parent 3 n = none)

end Tree

end AccessTree
