import Mathlib.Data.List.Nodup
import Mathlib.Data.List.Perm.Subperm
import Mathlib.Data.Set.Finite.Basic
import AccessTree.Arena

/-!
Arenas that are kept in order: the cells waiting to be used are empty, and none waits twice. Then
a new value disturbs no other. In any arena there are no more handles in use than cells.
-/

namespace AccessTree.Arena

variable {α : Type} {a : Arena α} {i j : ObjectId} {x : α}

structure Sound (a : Arena α) : Prop where
  vacant : ∀ n ∈ a.free, ∃ v, a.cells[n.toNat]? = some (.vacant v)
  nodup : a.free.Nodup

/-- A new value gets a cell whose number a handle can hold. -/
def HasRoom (a : Arena α) : Prop := a.free ≠ [] ∨ a.cells.size < UInt32.size

lemma get?_empty : (empty : Arena α).get? i = none := by
  rw [← Option.not_isSome_iff_eq_none, Option.isSome_iff_exists]
  rintro ⟨x, h⟩
  have h := get?_eq_some_iff.1 h
  obtain ⟨hi, h⟩ := Array.getElem?_eq_some_iff.1 h
  have : i.cell.toNat = 0 := by simpa [empty] using hi
  simp [empty, this] at h

lemma sound_empty : (empty : Arena α).Sound := ⟨by simp [empty], by simp [empty]⟩

lemma Sound.not_mem_free (ha : a.Sound) (h : a.get? i = some x) : i.cell ∉ a.free := by
  intro hi
  obtain ⟨v, hv⟩ := ha.vacant _ hi
  rw [get?_eq_some_iff.1 h] at hv
  cases hv

lemma Sound.modify (ha : a.Sound) (i : ObjectId) (f : α → α) : (a.modify i f).Sound := by
  unfold Arena.modify
  split
  · exact ha
  · rename_i x h
    refine ⟨fun n hn => ?_, ha.nodup⟩
    obtain ⟨v, hv⟩ := ha.vacant n hn
    refine ⟨v, ?_⟩
    rw [Array.getElem?_setIfInBounds, if_neg, hv]
    exact fun hc => ha.not_mem_free h (UInt32.toNat_inj.1 hc ▸ hn)

lemma Sound.erase (ha : a.Sound) (i : ObjectId) : (a.erase i).Sound := by
  unfold Arena.erase
  split
  · rename_i h
    obtain ⟨x, h⟩ := Option.isSome_iff_exists.1 h
    have inside := (Array.getElem?_eq_some_iff.1 (get?_eq_some_iff.1 h)).1
    refine ⟨fun n hn => ?_, List.nodup_cons.2 ⟨ha.not_mem_free h, ha.nodup⟩⟩
    rw [Array.getElem?_setIfInBounds]
    rcases List.mem_cons.1 hn with rfl | hn
    · exact ⟨_, by rw [if_pos rfl, if_pos inside]⟩
    · obtain ⟨v, hv⟩ := ha.vacant n hn
      refine ⟨v, ?_⟩
      rw [if_neg, hv]
      exact fun hc => ha.not_mem_free h (UInt32.toNat_inj.1 hc ▸ hn)
  · exact ha

lemma Sound.foldl_erase (ha : a.Sound) (is : List ObjectId) : (is.foldl (·.erase ·) a).Sound := by
  induction is generalizing a with
  | nil => exact ha
  | cons i is ih => exact ih (ha.erase i)

lemma Sound.insert (ha : a.Sound) (x : α) : (a.insert x).2.Sound := by
  unfold Arena.insert
  split
  · rename_i h
    refine ⟨fun n hn => ?_, ha.nodup⟩
    simp [h] at hn
  · rename_i n free h
    have hnd := ha.nodup
    rw [h, List.nodup_cons] at hnd
    refine ⟨fun m hm => ?_, hnd.2⟩
    obtain ⟨v, hv⟩ := ha.vacant m (by rw [h]; exact List.mem_cons_of_mem _ hm)
    refine ⟨v, ?_⟩
    rw [Array.getElem?_setIfInBounds, if_neg, hv]
    exact fun hc => hnd.1 (UInt32.toNat_inj.1 hc ▸ hm)

/-- The handle of a new value is not in use before, and finds the value afterwards. -/
theorem Sound.get?_insert (ha : a.Sound) (hr : a.HasRoom) (x : α) (j : ObjectId) :
    a.get? (a.insert x).1 = none ∧
      (a.insert x).2.get? j = if (a.insert x).1 = j then some x else a.get? j := by
  unfold Arena.insert
  split
  · -- No cell is free, and a new one is put at the end.
    rename_i h
    have hs : a.cells.size < UInt32.size := hr.resolve_left (absurd h)
    have hn : (UInt32.ofNat a.cells.size).toNat = a.cells.size := UInt32.toNat_ofNat_of_lt' hs
    have hnew : a.cells[a.cells.size]? = none := Array.getElem?_eq_none (Nat.le_refl _)
    constructor
    · simp [get?, hn]
    · obtain ⟨c, v⟩ := j
      simp only [get?, Array.getElem?_push, ObjectId.mk.injEq]
      by_cases hc : c.toNat = a.cells.size
      · rw [if_pos hc, hc, hnew]
        have : UInt32.ofNat a.cells.size = c := by rw [← hc, UInt32.ofNat_toNat]
        simp [Cell.get?, this]
      · rw [if_neg hc, if_neg]
        rintro ⟨rfl, -⟩
        exact hc hn
  · -- The cell that was cleared last is used again.
    rename_i n free h
    obtain ⟨v, hv⟩ := ha.vacant n (by simp [h])
    have inside := (Array.getElem?_eq_some_iff.1 hv).1
    constructor
    · simp [get?, hv, Cell.get?]
    · obtain ⟨c, w⟩ := j
      simp only [get?, Array.getElem?_setIfInBounds, ObjectId.mk.injEq, hv]
      by_cases hc : n = c
      · subst hc
        rw [if_pos rfl, if_pos inside, Option.bind_some, hv]
        simp [Cell.get?]
      · rw [if_neg (fun h => hc (UInt32.toNat_inj.1 h)), if_neg (fun h => hc h.1)]

/-- Where there is no room, no handle finds anything else. -/
theorem get?_insert_of_full (hr : ¬ a.HasRoom) (x : α) (j : ObjectId) :
    (a.insert x).2.get? j = a.get? j := by
  unfold HasRoom at hr
  rw [not_or, Decidable.not_not, Nat.not_lt] at hr
  have := j.cell.toNat_lt
  have hj : j.cell.toNat < a.cells.size := Nat.lt_of_lt_of_le this hr.2
  unfold Arena.insert
  rw [hr.1]
  simp only [get?, Array.getElem?_push_lt hj, Array.getElem?_eq_getElem hj]

lemma get?_modify_eq_map (a : Arena α) (i j : ObjectId) (f : α → α) :
    (a.modify i f).get? j = (a.get? j).map fun x => if j = i then f x else x := by
  rw [get?_modify]
  by_cases hj : i = j
  · subst hj
    simp
  · rw [if_neg hj]
    simp [Ne.symm hj]

lemma cell_lt_bound (h : a.get? i = some x) : i.cell.toNat < a.bound :=
  (Array.getElem?_eq_some_iff.1 (get?_eq_some_iff.1 h)).1

/-- Handles in use lie in different cells. -/
lemma eq_of_cell_eq {y : α} (h : a.get? i = some x) (h' : a.get? j = some y)
    (hc : i.cell = j.cell) : i = j := by
  by_contra hne
  have := get?_of_cell_eq h hc fun hv => hne (ObjectId.ext hc hv)
  rw [h'] at this
  cases this

lemma length_le_bound {l : List ObjectId} (hn : l.Nodup) (hl : ∀ i ∈ l, a.contains i = true) :
    l.length ≤ a.bound := by
  have hinj : (l.map fun i => i.cell.toNat).Nodup := by
    refine hn.map_on fun i hi j hj hij => ?_
    obtain ⟨x, h⟩ := Option.isSome_iff_exists.1 (hl i hi)
    obtain ⟨y, h'⟩ := Option.isSome_iff_exists.1 (hl j hj)
    exact eq_of_cell_eq h h' (UInt32.toNat_inj.1 hij)
  have hsub : (l.map fun i => i.cell.toNat) ⊆ List.range a.bound := by
    intro n hn
    obtain ⟨i, hi, rfl⟩ := List.mem_map.1 hn
    obtain ⟨x, h⟩ := Option.isSome_iff_exists.1 (hl i hi)
    exact List.mem_range.2 (cell_lt_bound h)
  have := (List.subperm_of_subset hinj hsub).length_le
  simpa using this

/-- Only so many handles are in use. -/
lemma finite_contains (a : Arena α) : {i | a.contains i = true}.Finite := by
  refine Set.Finite.of_injOn (f := fun i => i.cell.toNat) (t := {n | n < a.bound}) ?_ ?_
    (Set.finite_lt_nat _)
  · intro i hi
    obtain ⟨x, h⟩ := Option.isSome_iff_exists.1 hi
    exact cell_lt_bound h
  · intro i hi j hj hij
    obtain ⟨x, h⟩ := Option.isSome_iff_exists.1 hi
    obtain ⟨y, h'⟩ := Option.isSome_iff_exists.1 hj
    exact eq_of_cell_eq h h' (UInt32.toNat_inj.1 hij)

end AccessTree.Arena
