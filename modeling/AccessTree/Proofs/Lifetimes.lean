import AccessTree.Proofs.PathNames
import AccessTree.Proofs.Removal

/-!
Paths over the life of a registry. The history of a registry keeps the handles that were given out
and counts how often each cell was cleared. The count gives the version of the cell, so a handle
that has fallen behind stays behind, and its path leads nowhere from then on.
-/

namespace AccessTree

open Registry

/-- What has happened to a registry. -/
structure History where
  registry : Registry := .empty
  /-- The handles that were given out, one after another. -/
  made : List ObjectId := []
  /-- How often the object in a cell was removed. -/
  cleared : UInt32 → Nat := fun _ => 0

namespace History

/-- The cell is in use before a change and is free after it. -/
def clears (r : Registry) (e : Edit) (n : UInt32) : Bool :=
  (r.objects.shape n).1 && !((r.apply e).2.state.objects.shape n).1

def next (h : History) (e : Edit) : History where
  registry := (h.registry.apply e).2.state
  made := h.made ++ (e.made? h.registry).toList
  cleared n := h.cleared n + (clears h.registry e n).toNat

/-- The versions tell how often the cells were cleared, and no handle is ahead of its cell. -/
structure Orderly (h : History) : Prop where
  version : ∀ n, (h.registry.objects.shape n).2.toNat =
    2 * h.cleared n + (h.registry.objects.shape n).1.toNat
  odd : ∀ i ∈ h.made, i.version.toNat % 2 = 1
  reached : ∀ i ∈ h.made, i.version.toNat ≤ (h.registry.objects.shape i.cell).2.toNat
  nodup : h.made.Nodup

end History

/-- The history of the changes that `run` makes. -/
def history (edits : List Edit) : History := edits.foldl .next {}

variable {early late edits : List Edit} {e : Edit} {h : History} {i : ObjectId} {n : UInt32}

lemma history_snoc : history (edits ++ [e]) = (history edits).next e := by
  rw [history, history, List.foldl_append]
  rfl

lemma history_registry (edits : List Edit) : (history edits).registry = run edits := by
  induction edits using List.reverseRecOn with
  | nil => rfl
  | append_singleton edits e ih =>
    rw [history_snoc, run_snoc, ← ih]
    rfl

lemma made_subset : (history early).made ⊆ (history (early ++ late)).made := by
  induction late using List.reverseRecOn with
  | nil => simp
  | append_singleton late e ih =>
    rw [← List.append_assoc, history_snoc]
    exact fun i hi => List.mem_append_left _ (ih hi)

lemma cleared_le : (history early).cleared n ≤ (history (early ++ late)).cleared n := by
  induction late using List.reverseRecOn with
  | nil => simp
  | append_singleton late e ih =>
    rw [← List.append_assoc, history_snoc]
    exact ih.trans (Nat.le_add_right _ _)

/-- One change clears a cell at most once. -/
lemma cleared_le_length : (history edits).cleared n ≤ edits.length := by
  induction edits using List.reverseRecOn with
  | nil => rfl
  | append_singleton edits e ih =>
    have once := Bool.toNat_le (History.clears (history edits).registry e n)
    rw [history_snoc, List.length_append, List.length_singleton]
    exact Nat.add_le_add ih once

/-! ### Versions -/

lemma toNat_or_one (v : UInt32) : (v ||| 1).toNat = 2 * (v.toNat / 2) + 1 := by
  have one : (1 : UInt32).toNat = 1 := rfl
  rw [UInt32.toNat_or, one]
  have h := Nat.div_add_mod v.toNat 2
  have hor := Nat.two_pow_add_eq_or_of_lt (i := 1) (b := v.toNat % 2) (by omega) (v.toNat / 2)
  have hor' := Nat.two_pow_add_eq_or_of_lt (i := 1) (b := 1) (by omega) (v.toNat / 2)
  rw [Nat.pow_one] at hor hor'
  have hbit : v.toNat % 2 ||| 1 = 1 := by
    rcases Nat.mod_two_eq_zero_or_one v.toNat with h | h <;> rw [h] <;> rfl
  calc v.toNat ||| 1
    _ = (2 * (v.toNat / 2) ||| v.toNat % 2) ||| 1 := by rw [← hor, h]
    _ = 2 * (v.toNat / 2) ||| 1 := by rw [Nat.or_assoc, hbit]
    _ = 2 * (v.toNat / 2) + 1 := hor'.symm

lemma or_one_of_odd {v : UInt32} (h : v.toNat % 2 = 1) : v ||| 1 = v := by
  rw [← UInt32.toNat_inj, toNat_or_one]
  omega

/-- A turn adds one to the version, up to the last clearing that the version can count. -/
lemma Arena.Turn.version_next {s t : Bool × UInt32} (turn : Turn s t) {k : Nat}
    (hs : s.2.toNat = 2 * k + s.1.toNat) (hk : k + (s.1 && !t.1).toNat < 2 ^ 31) :
    t.2.toNat = 2 * (k + (s.1 && !t.1).toNat) + t.1.toNat ∧ s.2.toNat ≤ t.2.toNat := by
  cases turn with
  | keep => simp [hs]
  | fill v =>
    simp only [Bool.toNat_false, Bool.toNat_true, Bool.false_and] at hs ⊢
    rw [toNat_or_one]
    omega
  | clear v =>
    have one : (1 : UInt32).toNat = 1 := rfl
    simp only [Bool.toNat_false, Bool.toNat_true, Bool.true_and, Bool.not_false] at hs hk ⊢
    rw [UInt32.toNat_add, one]
    omega

namespace History

lemma Orderly.contains_iff (h' : h.Orderly) (hi : i ∈ h.made) : h.registry.contains i = true ↔
    (h.registry.objects.shape i.cell).2.toNat = i.version.toNat := by
  have version := h'.version i.cell
  have odd := h'.odd i hi
  rw [contains, Arena.contains_iff_shape]
  generalize h.registry.objects.shape i.cell = shape at version ⊢
  obtain ⟨_ | _, v⟩ := shape
  · simp only [Bool.toNat_false] at version
    constructor
    · intro hf
      cases congrArg Prod.fst hf
    · intro hv
      simp only at hv
      omega
  · simp [UInt32.toNat_inj]

lemma Orderly.next (h' : h.Orderly) (hs : h.registry.Sound)
    (hn : ∀ n, (h.next e).cleared n < 2 ^ 31) : (h.next e).Orderly := by
  have turn : ∀ n, Arena.Turn (h.registry.objects.shape n)
      ((h.next e).registry.objects.shape n) := by
    intro n
    rw [History.next, apply_state]
    exact turn_edit (s := ⟨h.registry, #[]⟩) hs e n
  have ahead : ∀ n, _ ∧ _ := fun n => (turn n).version_next (h'.version n) (hn n)
  -- A new handle has the next odd version of its cell, which is above all that the cell has had.
  have fresh : ∀ i, e.made? h.registry = some i → i.version.toNat % 2 = 1 ∧
      (h.registry.objects.shape i.cell).2.toNat < i.version.toNat ∧
      ((h.next e).registry.objects.shape i.cell).2.toNat = i.version.toNat := by
    intro i hi
    obtain ⟨⟨v, hv, hversion⟩, hc⟩ := hs.made_fresh hi
    have version := h'.version i.cell
    have hor := toNat_or_one v
    rw [contains, Arena.contains_iff_shape] at hc
    rw [← hversion] at hor
    rw [hv] at version ⊢
    simp only [Bool.toNat_false] at version
    refine ⟨by omega, by simp only; omega, ?_⟩
    rw [History.next, hc]
  have mem : ∀ i, i ∈ (h.next e).made ↔ i ∈ h.made ∨ e.made? h.registry = some i := by
    intro i
    rw [History.next, List.mem_append, Option.mem_toList]
  constructor
  · exact fun n => (ahead n).1
  · intro i hi
    rcases (mem i).1 hi with hi | hi
    · exact h'.odd i hi
    · exact (fresh i hi).1
  · intro i hi
    rcases (mem i).1 hi with hi | hi
    · exact (h'.reached i hi).trans (ahead i.cell).2
    · exact (fresh i hi).2.2.ge
  · -- A handle made before has a version that its cell has reached, so it is not the new one.
    rw [History.next, List.nodup_append]
    refine ⟨h'.nodup, ?_, fun i hi j hj hij => ?_⟩
    · cases e.made? h.registry <;> simp
    · rw [Option.mem_toList, ← hij] at hj
      have reached := h'.reached i hi
      have later := (fresh i hj).2.1
      omega

end History

/-- While no version goes round, the history of any run is orderly. -/
theorem orderly_history (hn : ∀ n, (history edits).cleared n < 2 ^ 31) :
    (history edits).Orderly := by
  induction edits using List.reverseRecOn with
  | nil =>
    have shape : ∀ n, (Registry.empty.objects.shape n) = (false, 0) := fun n => Arena.shape_empty
    refine ⟨fun n => ?_, by simp [history], by simp [history], by simp [history]⟩
    rw [history_registry, run, List.foldl_nil, shape]
    rfl
  | append_singleton edits e ih =>
    have hn' : ∀ n, (history edits).cleared n < 2 ^ 31 := fun n => cleared_le.trans_lt (hn n)
    rw [history_snoc] at hn ⊢
    refine (ih hn').next ?_ hn
    rw [history_registry]
    exact sound_run edits

lemma version_le (hn : ∀ n, (history (early ++ late)).cleared n < 2 ^ 31) (n : UInt32) :
    ((run early).objects.shape n).2.toNat ≤ ((run (early ++ late)).objects.shape n).2.toNat := by
  induction late using List.reverseRecOn with
  | nil => simp
  | append_singleton late e ih =>
    rw [← List.append_assoc] at hn ⊢
    have hn' : ∀ n, (history (early ++ late)).cleared n < 2 ^ 31 :=
      fun n => cleared_le.trans_lt (hn n)
    refine (ih hn').trans ?_
    have turn := turn_edit (s := ⟨run (early ++ late), #[]⟩) (sound_run _) e n
    have version := (orderly_history hn').version n
    have hk := hn n
    rw [history_snoc] at hk
    simp only [History.next, History.clears, history_registry, apply_state] at hk version
    rw [run_snoc, apply_state]
    exact (turn.version_next version hk).2

/-- An object that is gone does not come back. -/
theorem contains_of_contains_append (hn : ∀ n, (history (early ++ late)).cleared n < 2 ^ 31)
    (hi : i ∈ (history early).made) (h : (run (early ++ late)).contains i = true) :
    (run early).contains i = true := by
  have hn' : ∀ n, (history early).cleared n < 2 ^ 31 := fun n => cleared_le.trans_lt (hn n)
  have before := (orderly_history hn').contains_iff hi
  have after := (orderly_history hn).contains_iff (made_subset hi)
  have reached := (orderly_history hn').reached i hi
  -- A handle is in use exactly when its cell has its version. That version was reached early and is
  -- there late, so it has not changed in between.
  have version := version_le hn i.cell
  rw [history_registry] at before after reached
  rw [after] at h
  rw [before]
  omega

/-- Every registered object has a path of its own, which leads to it until it or something above it
is destroyed and to nothing ever after, whatever is put into its cell. Apart from the path of the
first root, the paths that lead to an object are those that write a number of its handle. -/
theorem paths_identify (early late : List Edit)
    (hn : ∀ n, (history (early ++ late)).cleared n < 2 ^ 31) :
    ((history (early ++ late)).made.map pathOf).Nodup ∧
    (∀ e i, e.made? (run (early ++ late)) = some i →
      (run (early ++ late ++ [e])).resolve (pathOf i) = some i) ∧
    (∀ i ∈ (history early).made, (run (early ++ late)).resolve (pathOf i) =
      if (run (early ++ late)).contains i = true then some i else none) ∧
    (∀ e i, (run (early ++ late)).contains i = true →
      ((run (early ++ late ++ [e])).contains i = false ↔
        ∃ j, e = .destroy j ∧ (run (early ++ late)).tree.Reaches j i)) ∧
    (∀ i ∈ (history early).made, (run early).contains i = false →
      (run (early ++ late)).resolve (pathOf i) = none) ∧
    ∀ p i, p ≠ rootPath → ((run (early ++ late)).resolve p = some i ↔
      (run (early ++ late)).contains i = true ∧ ∃ cs n, p.toList = pathHead.toList ++ cs ∧
        Text.Writes cs n ∧ n < UInt64.size ∧ i.cell.toNat = n % UInt32.size ∧
        i.version.toNat = n / UInt32.size ||| 1) := by
  have orderly := orderly_history hn
  have resolve : ∀ i ∈ (history early).made, (run (early ++ late)).resolve (pathOf i) =
      if (run (early ++ late)).contains i = true then some i else none := fun i hi =>
    resolve_pathOf (or_one_of_odd (orderly.odd i (made_subset hi)))
  refine ⟨?_, fun e i hi => ?_, resolve, fun e i hi => ?_, fun i hi hgone => ?_,
    fun p i hp => resolve_eq_some_iff hp⟩
  · exact orderly.nodup.map fun i j hij => pathOf_inj.1 hij
  · obtain ⟨⟨v, -, hv⟩, hc⟩ := (sound_run (early ++ late)).made_fresh hi
    have odd : i.version ||| 1 = i.version := by rw [hv, UInt32.or_assoc]; rfl
    rw [run_snoc, resolve_pathOf odd]
    exact if_pos hc
  · rw [run_snoc]
    exact (sound_run (early ++ late)).leaves_iff hi e
  · rw [resolve i hi, if_neg]
    intro hc
    rw [contains_of_contains_append hn hi hc] at hgone
    cases hgone

/-- The cell of an object that is gone is used again, and the old path does not lead there. -/
theorem paths_identify_sample :
    (∀ n, (history ([.register {}, .destroy ⟨1, 1⟩] ++ [.register {}])).cleared n < 2 ^ 31) ∧
    ((history ([.register {}, .destroy ⟨1, 1⟩] ++ [.register {}])).made.map pathOf).Nodup ∧
    ⟨1, 1⟩ ∈ (history [.register {}, .destroy ⟨1, 1⟩]).made ∧
    (run [.register {}, .destroy ⟨1, 1⟩]).contains ⟨1, 1⟩ = false ∧
    (run ([.register {}, .destroy ⟨1, 1⟩] ++ [.register {}])).resolve (pathOf ⟨1, 1⟩) = none := by
  have hn : ∀ n, (history ([.register {}, .destroy ⟨1, 1⟩] ++ [.register {}])).cleared n < 2 ^ 31 :=
    fun n => cleared_le_length.trans_lt (by decide)
  have made : (history [.register {}, .destroy ⟨1, 1⟩]).made = [⟨1, 1⟩] := by decide +kernel
  have gone : (run [.register {}, .destroy ⟨1, 1⟩]).contains ⟨1, 1⟩ = false := by decide +kernel
  have hmem : (⟨1, 1⟩ : ObjectId) ∈ (history [.register {}, .destroy ⟨1, 1⟩]).made := by
    rw [made]
    exact List.mem_singleton_self _
  obtain ⟨paths, -, -, -, dead, -⟩ :=
    paths_identify [.register {}, .destroy ⟨1, 1⟩] [.register {}] hn
  exact ⟨hn, paths, hmem, gone, dead _ hmem gone⟩

example : (run [.register {}, .destroy ⟨1, 1⟩, .register {}]).resolve
    "/org/a11y/atspi/accessible/+12884901889" = some ⟨1, 3⟩ := by decide +kernel

end AccessTree
