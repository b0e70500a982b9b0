import Mathlib.Data.List.Lex
import Mathlib.Order.WellFoundedSet
import AccessTree.Proofs.Forest

/-!
Document order. Of two objects the one whose path comes first, in the order of a dictionary, is
the earlier one, so an object comes before whatever is below it. From which object the paths
start makes no difference.
-/

namespace AccessTree.Tree

variable {ν : Type}

def Precedes (t : Tree ν) (x y : ν) : Prop :=
  ∃ n ps qs, t.follow n ps = some x ∧ t.follow n qs = some y ∧ ps < qs

/-- A list of exactly the objects that are meant, each of them once and in document order. -/
structure Lists (t : Tree ν) (l : List ν) (P : ν → Prop) : Prop where
  mem_iff : ∀ y, y ∈ l ↔ P y
  ordered : l.Pairwise t.Precedes

variable {t : Tree ν} {a b c n p x y z : ν} {i j : Nat} {ps qs rs : List Nat}

lemma append_lt_append_iff : rs ++ ps < rs ++ qs ↔ ps < qs := by
  induction rs with
  | nil => rfl
  | cons i rs ih => simp [ih]

/-- The paths before a path that goes one step on. -/
lemma lt_snoc_iff : ps < rs ++ [i] ↔ ps < rs ∨ ps = rs ∨ ∃ j < i, ∃ us, ps = rs ++ j :: us := by
  induction rs generalizing ps with
  | nil => cases ps <;> simp [List.cons_lt_cons_iff]
  | cons k rs ih =>
    cases ps with
    | nil => simp
    | cons l ps =>
      simp only [List.cons_append, List.cons_lt_cons_iff, ih, List.cons.injEq]
      constructor
      · rintro (h | ⟨rfl, h | rfl | ⟨j, hj, us, rfl⟩⟩)
        · exact Or.inl (Or.inl h)
        · exact Or.inl (Or.inr ⟨rfl, h⟩)
        · exact Or.inr (Or.inl ⟨rfl, rfl⟩)
        · exact Or.inr (Or.inr ⟨j, hj, us, rfl, rfl⟩)
      · rintro ((h | ⟨rfl, h⟩) | ⟨rfl, rfl⟩ | ⟨j, hj, us, rfl, rfl⟩)
        · exact Or.inl h
        · exact Or.inr ⟨rfl, Or.inl h⟩
        · exact Or.inr ⟨rfl, Or.inr (Or.inl rfl)⟩
        · exact Or.inr ⟨rfl, Or.inr (Or.inr ⟨j, hj, us, rfl⟩)⟩

/-- A path comes before what goes on from it and before what parts from it to a later place. -/
lemma lt_iff_goes_on_or_parts : ps < qs ↔ (∃ j us, qs = ps ++ j :: us) ∨
    ∃ rs i us j vs, i < j ∧ ps = rs ++ i :: us ∧ qs = rs ++ j :: vs := by
  constructor
  · intro h
    -- Down to where the paths part, or to the end of the first.
    induction ps generalizing qs with
    | nil =>
      cases qs with
      | nil => exact absurd h (List.lt_irrefl [])
      | cons j us => exact Or.inl ⟨j, us, rfl⟩
    | cons k ps ih =>
      cases qs with
      | nil => exact absurd h (List.not_lt_nil _)
      | cons l qs =>
        rcases List.cons_lt_cons_iff.1 h with hkl | ⟨rfl, hlt⟩
        · exact Or.inr ⟨[], k, ps, l, qs, hkl, rfl, rfl⟩
        · rcases ih hlt with ⟨j, us, rfl⟩ | ⟨rs, i, us, j, vs, hij, rfl, rfl⟩
          · exact Or.inl ⟨j, us, rfl⟩
          · exact Or.inr ⟨k :: rs, i, us, j, vs, hij, rfl, rfl⟩
  · rintro (⟨j, us, rfl⟩ | ⟨rs, i, us, j, vs, hij, rfl, rfl⟩)
    · have h : ps ++ [] < ps ++ j :: us := append_lt_append_iff.2 (List.nil_lt_cons j us)
      rwa [List.append_nil] at h
    · exact append_lt_append_iff.2 (List.cons_lt_cons_iff.2 (Or.inl hij))

/-- Between two paths that begin alike are only paths that begin like them. -/
lemma exists_append_of_lt_of_lt {us : List Nat} (h : rs ++ ps < us) (h' : us < rs ++ qs) :
    ∃ vs, us = rs ++ vs := by
  induction rs generalizing us with
  | nil => exact ⟨us, rfl⟩
  | cons k rs ih =>
    cases us with
    | nil => exact absurd h (List.not_lt_nil _)
    | cons l us =>
      simp only [List.cons_append, List.cons_lt_cons_iff] at h h'
      obtain rfl : k = l := by omega
      obtain ⟨vs, rfl⟩ := ih (by simpa using h) (by simpa using h')
      exact ⟨vs, rfl⟩

lemma Below.precedes (h : t.Below x y) : t.Precedes x y := by
  obtain ⟨i, ps, h⟩ := h
  exact ⟨x, [], i :: ps, rfl, h, List.nil_lt_cons _ _⟩

/-- What is reached through different children is in the order of the children. -/
lemma precedes_of_siblings (hi : t.childAt n i = some a) (hj : t.childAt n j = some b)
    (hij : i < j) (hx : t.follow a ps = some x) (hy : t.follow b qs = some y) :
    t.Precedes x y :=
  ⟨n, i :: ps, j :: qs, follow_cons.2 ⟨a, hi, hx⟩, follow_cons.2 ⟨b, hj, hy⟩,
    List.cons_lt_cons_iff.2 (Or.inl hij)⟩

/-- Of two objects that a third one reaches, one comes first unless they are the same. -/
lemma precedes_total (hx : t.Reaches n x) (hy : t.Reaches n y) :
    t.Precedes x y ∨ x = y ∨ t.Precedes y x := by
  obtain ⟨ps, hx⟩ := hx
  obtain ⟨qs, hy⟩ := hy
  rcases lt_trichotomy ps qs with h | rfl | h
  · exact Or.inl ⟨n, ps, qs, hx, hy, h⟩
  · exact Or.inr (Or.inl (Option.some.inj (hx.symm.trans hy)))
  · exact Or.inr (Or.inr ⟨n, qs, ps, hy, hx, h⟩)

lemma Lists.filter {l : List ν} {P : ν → Prop} (h : t.Lists l P) (q : ν → Bool) :
    t.Lists (l.filter q) fun y => P y ∧ q y = true where
  mem_iff y := by rw [List.mem_filter, h.mem_iff]
  ordered := h.ordered.filter q

lemma Lists.congr {l : List ν} {P Q : ν → Prop} (h : t.Lists l P) (hPQ : ∀ y, P y ↔ Q y) :
    t.Lists l Q :=
  ⟨fun y => (h.mem_iff y).trans (hPQ y), h.ordered⟩

namespace IsForest

variable (ht : t.IsForest)
include ht

/-- Any paths from one object decide the order. -/
theorem precedes_iff (hx : t.follow n ps = some x) (hy : t.follow n qs = some y) :
    t.Precedes x y ↔ ps < qs := by
  refine ⟨fun ⟨m, ps', qs', hx', hy', h⟩ => ?_, fun h => ⟨n, ps, qs, hx, hy, h⟩⟩
  rcases ht.follow_meet hx hx' with ⟨rs, hr, rfl⟩ | ⟨rs, hr, rfl⟩
  · rw [ht.follow_inj hy (follow_trans hr hy')]
    exact append_lt_append_iff.2 h
  · rw [ht.follow_inj hy' (follow_trans hr hy)] at h
    exact append_lt_append_iff.1 h

lemma precedes_irrefl : ¬ t.Precedes x x := fun ⟨n, ps, qs, hx, hy, h⟩ => by
  rw [ht.follow_inj hx hy] at h
  exact List.lt_irrefl _ h

lemma precedes_asymm (h : t.Precedes x y) : ¬ t.Precedes y x := by
  obtain ⟨n, ps, qs, hx, hy, h⟩ := h
  rw [ht.precedes_iff hy hx]
  exact List.lt_asymm h

lemma precedes_trans (h : t.Precedes x y) (h' : t.Precedes y z) : t.Precedes x z := by
  obtain ⟨n, ps, qs, hx, hy, h⟩ := h
  obtain ⟨m, ps', qs', hy', hz, h'⟩ := h'
  rcases ht.follow_meet hy hy' with ⟨rs, hr, rfl⟩ | ⟨rs, hr, rfl⟩
  · exact ⟨n, ps, rs ++ qs', hx, follow_trans hr hz,
      List.lt_trans h (append_lt_append_iff.2 h')⟩
  · exact ⟨m, rs ++ ps, qs', follow_trans hr hx, hz,
      List.lt_trans (append_lt_append_iff.2 h) h'⟩

lemma not_precedes_of_below (h : t.Below x y) : ¬ t.Precedes y x := ht.precedes_asymm h.precedes

lemma valid_of_precedes (h : t.Precedes x y) : t.isValid x = true := by
  obtain ⟨n, ps, qs, hx, hy, h⟩ := h
  cases ps with
  | nil =>
    cases hx
    cases qs with
    | nil => exact absurd h (List.lt_irrefl [])
    | cons i qs => exact (ht.valid_of_below ⟨i, qs, hy⟩).1
  | cons i ps => exact (ht.valid_of_below ⟨i, ps, hx⟩).2

/-- What comes between two objects below a third one lies below it as well. -/
lemma below_of_precedes (hy : t.Below a y) (hx : t.Reaches a x) (hyz : t.Precedes y z)
    (hzx : t.Precedes z x) : t.Below a z := by
  have hreaches : t.Reaches a z := by
    obtain ⟨n, ps, qs, hps, hqs, h⟩ := hyz
    obtain ⟨ps', hps'⟩ := hy.reaches
    obtain ⟨qs', hqs'⟩ := hx
    rcases ht.follow_meet hps hps' with ⟨rs, hrs, rfl⟩ | ⟨rs, hrs, -⟩
    · obtain ⟨vs, rfl⟩ := exists_append_of_lt_of_lt h
        ((ht.precedes_iff hqs (follow_trans hrs hqs')).1 hzx)
      rw [follow_append, hrs] at hqs
      exact ⟨vs, hqs⟩
    · exact ⟨rs ++ qs, follow_trans hrs hqs⟩
  refine hreaches.eq_or_below.resolve_left ?_
  rintro rfl
  exact ht.not_precedes_of_below hy hyz

/-- Only finitely many objects come before an object, so going back ends. -/
lemma wellFoundedOn_precedes : {n | t.isValid n = true}.WellFoundedOn t.Precedes := by
  have : IsStrictOrder ν t.Precedes :=
    { irrefl := fun _ => ht.precedes_irrefl, trans := fun _ _ _ => ht.precedes_trans }
  exact ht.finite.wellFoundedOn

lemma nodup_of_pairwise {l : List ν} (h : l.Pairwise t.Precedes) : l.Nodup :=
  h.imp fun {x y} hxy (he : x = y) => ht.precedes_irrefl (he ▸ hxy)

lemma nodup_of_lists {l : List ν} {P : ν → Prop} (h : t.Lists l P) : l.Nodup :=
  ht.nodup_of_pairwise h.ordered

/-- What is meant leaves no choice of the list. -/
theorem lists_unique {l l' : List ν} {P : ν → Prop} (h : t.Lists l P) (h' : t.Lists l' P) :
    l = l' := by
  have hp : l.Perm l' := (List.perm_ext_iff_of_nodup (ht.nodup_of_lists h)
    (ht.nodup_of_lists h')).2 fun y => (h.mem_iff y).trans (h'.mem_iff y).symm
  exact hp.eq_of_pairwise (fun _ _ _ _ hxy hyx => absurd hyx (ht.precedes_asymm hxy))
    h.ordered h'.ordered

/-- What comes before an object is the first part of the list. -/
lemma exists_append_of_lists {l all : List ν} {P : ν → Prop} (hall : t.Lists all P)
    (hl : t.Lists l fun y => P y ∧ t.Precedes y x) (hn : ∀ y, P y → t.Reaches n y)
    (hx : t.Reaches n x) : ∃ after, all = l ++ after ∧ ∀ y ∈ after, ¬ t.Precedes y x := by
  classical
  have hafter : ∀ y ∈ all.filter fun y => ¬ t.Precedes y x, P y ∧ ¬ t.Precedes y x := by
    intro y hy
    rw [List.mem_filter, hall.mem_iff] at hy
    simpa using hy
  refine ⟨all.filter fun y => ¬ t.Precedes y x, ?_, fun y hy => (hafter y hy).2⟩
  -- What is left is put after the first part, and the two together have to be the list.
  refine ht.lists_unique hall ⟨fun y => ?_, ?_⟩
  · rw [List.mem_append, List.mem_filter, hl.mem_iff, hall.mem_iff]
    by_cases hyx : t.Precedes y x <;> simp [hyx]
  · refine List.pairwise_append.2 ⟨hl.ordered, hall.ordered.filter _, fun y hy z hz => ?_⟩
    have hyx := ((hl.mem_iff y).1 hy).2
    obtain ⟨hz, hzx⟩ := hafter z hz
    rcases precedes_total (hn z hz) hx with h | rfl | h
    · exact absurd h hzx
    · exact hyx
    · exact ht.precedes_trans hyx h

/-- An object in a list has what comes before it on one side and what it precedes on the other. -/
lemma lists_split {l r : List ν} {P : ν → Prop} (h : t.Lists (l ++ x :: r) P) :
    (t.Lists l fun y => P y ∧ t.Precedes y x) ∧ t.Lists r fun y => P y ∧ t.Precedes x y := by
  obtain ⟨hl, hr, hlr⟩ := List.pairwise_append.1 h.ordered
  obtain ⟨hxr, hr⟩ := List.pairwise_cons.1 hr
  have hlx : ∀ y ∈ l, t.Precedes y x := fun y hy => hlr y hy x List.mem_cons_self
  refine ⟨⟨fun y => ?_, hl⟩, fun y => ?_, hr⟩
  · rw [← h.mem_iff, List.mem_append, List.mem_cons]
    refine ⟨fun hy => ⟨Or.inl hy, hlx y hy⟩, ?_⟩
    rintro ⟨hy | rfl | hy, hyx⟩
    · exact hy
    · exact absurd hyx ht.precedes_irrefl
    · exact absurd (hxr y hy) (ht.precedes_asymm hyx)
  · rw [← h.mem_iff, List.mem_append, List.mem_cons]
    refine ⟨fun hy => ⟨Or.inr (Or.inr hy), hxr y hy⟩, ?_⟩
    rintro ⟨hy | rfl | hy, hxy⟩
    · exact absurd (hlx y hy) (ht.precedes_asymm hxy)
    · exact absurd hxy ht.precedes_irrefl
    · exact hy

/-- Up to an object in a list is what comes before the object. -/
lemma lists_takeWhile [DecidableEq ν] {l : List ν} {P : ν → Prop} (h : t.Lists l P) (hx : x ∈ l) :
    t.Lists (l.takeWhile (· ≠ x)) fun y => P y ∧ t.Precedes y x := by
  obtain ⟨before, after, rfl, hbefore⟩ := List.eq_append_cons_of_mem hx
  have hne : ∀ y ∈ before, decide (y ≠ x) = true := fun y hy =>
    decide_eq_true fun he => hbefore (he ▸ hy)
  rw [List.takeWhile_append_of_pos hne, List.takeWhile_cons_of_neg (by simp), List.append_nil]
  exact (ht.lists_split h).1

/-- Going round a list from an object in it, each other object is met once. -/
lemma rotate_lists {all l r : List ν} {P : ν → Prop} {Q : Prop} [Decidable Q]
    (h : t.Lists all P) (he : all = l ++ (if Q then [x] else []) ++ r)
    (hl : ∀ y ∈ l, t.Precedes y x) (hr : ∀ y ∈ r, t.Precedes x y) :
    (r ++ l).Nodup ∧ ∀ y, y ∈ r ++ l ↔ P y ∧ y ≠ x := by
  have hn := ht.nodup_of_lists h
  -- The two ends are taken from a list in which nothing is met twice.
  have hsub : (l ++ r).Sublist all := by
    rw [he, List.append_assoc]
    exact (List.sublist_append_right _ _).append_left l
  refine ⟨(List.perm_append_comm.nodup_iff).1 (hsub.nodup hn), fun y => ⟨fun hy => ?_, ?_⟩⟩
  · rw [List.mem_append] at hy
    refine ⟨(h.mem_iff y).1 (hsub.subset (List.mem_append.2 hy.symm)), ?_⟩
    rintro rfl
    exact ht.precedes_irrefl (hy.elim (hr y) (hl y))
  · rintro ⟨hy, hyx⟩
    have hy := (h.mem_iff y).2 hy
    rw [he, List.mem_append, List.mem_append] at hy
    rcases hy with (hy | hy) | hy
    · exact List.mem_append_right _ hy
    · split at hy
      · exact absurd (List.mem_singleton.1 hy) hyx
      · cases hy
    · exact List.mem_append_left _ hy

/-- What comes before a child is its parent, what comes before its parent, and what is reached
through an elder sibling. -/
theorem precedes_childAt_iff (hx : t.childAt p i = some x) :
    t.Precedes y x ↔ t.Precedes y p ∨ y = p ∨
      ∃ j < i, ∃ c qs, t.childAt p j = some c ∧ t.follow c qs = some y := by
  constructor
  · rintro ⟨n, ps, qs, hy, hqs, h⟩
    -- The paths start at the parent or above it, for nothing comes before a path that is empty.
    obtain ⟨rs, hr, rfl⟩ : ∃ rs, t.follow n rs = some p ∧ qs = rs ++ [i] := by
      rcases ht.follow_meet hqs (follow_cons.2 ⟨x, hx, rfl⟩ : t.follow p [i] = some x) with
        hA | ⟨rs, hr, he⟩
      · exact hA
      · rcases rs with _ | ⟨k, rs⟩
        · cases hr; exact ⟨[], rfl, he.symm⟩
        · obtain ⟨-, rfl⟩ := List.append_eq_nil_iff.1 (List.cons.inj he).2.symm
          exact absurd h (List.not_lt_nil ps)
    rcases lt_snoc_iff.1 h with h | rfl | ⟨j, hj, us, rfl⟩
    · exact Or.inl ⟨n, ps, rs, hy, hr, h⟩
    · rw [hr] at hy
      cases hy
      exact Or.inr (Or.inl rfl)
    · rw [follow_append, hr, Option.bind_some, follow_cons] at hy
      obtain ⟨c, hc, hy⟩ := hy
      exact Or.inr (Or.inr ⟨j, hj, c, us, hc, hy⟩)
  · rintro (⟨n, ps, qs, hy, hp, h⟩ | rfl | ⟨j, hj, c, qs, hc, hy⟩)
    · exact ⟨n, ps, qs ++ [i], hy, follow_snoc.2 ⟨p, hp, hx⟩, lt_snoc_iff.2 (Or.inl h)⟩
    · exact (below_of_childAt hx).precedes
    · exact precedes_of_siblings hc hx hj hy (follow_nil : t.follow x [] = some x)

end IsForest

end AccessTree.Tree
