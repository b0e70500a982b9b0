import Mathlib.Data.List.Basic
import AccessTree.Proofs.Forest

/-!
Parents and lists of children that belong together. Each list holds exactly the objects whose
parent it belongs to, and climbing always comes to an end. Taking an object out of a list, putting
one into a list and removing a whole subtree keep it so.
-/

namespace AccessTree

variable {ν : Type}

/-- Climbing from an object comes to an end. -/
inductive Rooted (up : ν → Option ν) : ν → Prop where
  | root {n : ν} (h : up n = none) : Rooted up n
  | child {n p : ν} (h : up n = some p) (hp : Rooted up p) : Rooted up n

structure Kinship (up : ν → Option ν) (down : ν → List ν) : Prop where
  mem_iff : ∀ c p, c ∈ down p ↔ up c = some p
  nodup : ∀ p, (down p).Nodup
  rooted : ∀ n, Rooted up n

variable {up up' : ν → Option ν} {down down' : ν → List ν} {c n p : ν}

/-- The last step of a climb leads to an object without a parent. -/
lemma Rooted.exists_climb (h : Rooted up n) :
    ∃ k r, climb up k n = some r ∧ up r = none ∧ climb up (k + 1) n = none := by
  induction h with
  | root h => exact ⟨0, _, rfl, h, by simp [climb, h]⟩
  | child h _ ih =>
    obtain ⟨k, r, hk, hr, hn⟩ := ih
    exact ⟨k + 1, r, by simp [climb, h, hk], hr, by rw [climb, h]; exact hn⟩

lemma climb_of_cut (hup : ∀ n, up' n = up n ∨ up' n = none) {k : Nat}
    (h : climb up' k n = some p) : climb up k n = some p := by
  induction k generalizing n with
  | zero => exact h
  | succ k ih =>
    obtain ⟨m, hm, h⟩ := Option.bind_eq_some_iff.1 h
    rcases hup n with he | he
    · rw [climb, ← he, hm]
      exact ih h
    · rw [he] at hm
      cases hm

/-- Cutting links does no harm. -/
lemma Rooted.of_cut (h : Rooted up n) (hup : ∀ n, up' n = up n ∨ up' n = none) :
    Rooted up' n := by
  induction h with
  | root h =>
    refine Rooted.root ?_
    rcases hup _ with he | he
    · rw [he, h]
    · exact he
  | child h _ ih =>
    rcases hup _ with he | he
    · exact Rooted.child (he.trans h) ih
    · exact Rooted.root he

/-- A new link does no harm where it joins different trees. -/
lemma Rooted.of_link (hrooted : ∀ n, Rooted up n) (hp : ∀ k, climb up k p ≠ some c)
    (hc : up' c = some p) (hup : ∀ n, n ≠ c → up' n = up n) : Rooted up' n := by
  -- Above the new parent nothing has changed, for the child is not met there.
  have above : ∀ {m}, Rooted up m → (∀ k, climb up k m ≠ some c) → Rooted up' m := by
    intro m hm hmc
    induction hm with
    | root h => exact Rooted.root ((hup _ fun e => hmc 0 (congrArg some e)).trans h)
    | child h _ ih =>
      refine Rooted.child ((hup _ fun e => hmc 0 (congrArg some e)).trans h) (ih fun k hk => ?_)
      exact hmc (k + 1) (by rw [climb, h]; exact hk)
  have parent := above (hrooted p) hp
  have hn := hrooted n
  -- A climb that comes to the child now goes on from the new parent.
  induction hn with
  | @root m h =>
    by_cases hm : m = c
    · exact Rooted.child (hm ▸ hc) parent
    · exact Rooted.root ((hup m hm).trans h)
  | @child m q h _ ih =>
    by_cases hm : m = c
    · exact Rooted.child (hm ▸ hc) parent
    · exact Rooted.child ((hup m hm).trans h) ih

namespace Kinship

variable (h : Kinship up down)
include h

theorem detach [DecidableEq ν] (hp : up c = some p)
    (hup : ∀ n, up' n = if n = c then none else up n)
    (hdown : ∀ n, down' n = if n = p then (down p).filter (· != c) else down n) :
    Kinship up' down' where
  mem_iff d q := by
    have hm := h.mem_iff d q
    rw [hup, hdown]
    by_cases hd : d = c
    · subst hd
      by_cases hq : q = p
      · simp [hq]
      · rw [if_neg hq, if_pos rfl, hm, hp]
        simpa using fun e => hq e.symm
    · rw [if_neg hd, ← hm]
      by_cases hq : q = p
      · subst hq
        simp [hd]
      · rw [if_neg hq]
  nodup q := by
    rw [hdown]
    split
    · exact (h.nodup p).filter _
    · exact h.nodup q
  rooted n := (h.rooted n).of_cut fun m => by
    rw [hup]
    split
    · exact Or.inr rfl
    · exact Or.inl rfl

theorem attach [DecidableEq ν] {i : Nat} (hc : up c = none)
    (hp : ∀ k, climb up k p ≠ some c) (hi : i ≤ (down p).length)
    (hup : ∀ n, up' n = if n = c then some p else up n)
    (hdown : ∀ n, down' n = if n = p then (down p).insertIdx i c else down n) :
    Kinship up' down' where
  mem_iff d q := by
    have hm := h.mem_iff d q
    rw [hup, hdown]
    by_cases hq : q = p
    · subst hq
      rw [if_pos rfl, List.mem_insertIdx hi]
      by_cases hd : d = c
      · simp [hd]
      · simp [hd, hm]
    · rw [if_neg hq, hm]
      by_cases hd : d = c
      · subst hd
        rw [if_pos rfl, hc]
        simpa using fun e => hq e.symm
      · rw [if_neg hd]
  nodup q := by
    rw [hdown]
    split
    · have hcp : c ∉ down p := fun hm => by
        rw [h.mem_iff, hc] at hm
        cases hm
      exact (List.perm_insertIdx c (down p) hi).nodup_iff.2
        (List.nodup_cons.2 ⟨hcp, h.nodup p⟩)
    · exact h.nodup q
  rooted n := Rooted.of_link h.rooted hp (by rw [hup, if_pos rfl]) fun m hm => by
    rw [hup, if_neg hm]

/-- Objects that take all their kin with them may go. -/
theorem remove {S : ν → Prop} [DecidablePred S] (hS : ∀ c p, up c = some p → (S c ↔ S p))
    (hup : ∀ n, up' n = if S n then none else up n)
    (hdown : ∀ n, down' n = if S n then [] else down n) : Kinship up' down' where
  mem_iff c p := by
    have hm := h.mem_iff c p
    rw [hup, hdown]
    by_cases hp : S p
    · by_cases hc : S c
      · simp [hp, hc]
      · have : up c ≠ some p := fun hcp => hc ((hS c p hcp).2 hp)
        simp [hp, hc, this]
    · by_cases hc : S c
      · have : up c ≠ some p := fun hcp => hp ((hS c p hcp).1 hc)
        simp [hp, hc, hm, this]
      · simp [hp, hc, hm]
  nodup p := by
    rw [hdown]
    split
    · exact List.nodup_nil
    · exact h.nodup p
  rooted n := (h.rooted n).of_cut fun m => by
    rw [hup]
    split
    · exact Or.inr rfl
    · exact Or.inl rfl

end Kinship

end AccessTree
