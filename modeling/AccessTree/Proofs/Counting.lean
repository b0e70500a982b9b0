import Mathlib.Data.List.Nodup
import Mathlib.Data.List.Range
import AccessTree.Proofs.ArenaSound

/-!
Counting what an arena holds. A value that is taken out is one less, a value that is changed counts
as before. As long as the handles can number all cells, the list of what an arena holds has each
handle in use once, with the value that is found by it.
-/

namespace AccessTree

/-- Whether there is a value in the cell. -/
def Cell.used {α : Type} : Cell α → Bool
  | vacant _ => false
  | occupied _ _ => true

namespace Arena

variable {α : Type} {a : Arena α} {i j : ObjectId} {x : α}

lemma size_eq_countP (a : Arena α) : a.size = a.cells.toList.countP Cell.used := by
  rw [size, toList, List.length_filterMap_eq_countP]
  conv_rhs => rw [← List.zipIdx_map_fst 0 a.cells.toList, List.countP_map]
  refine List.countP_congr fun ⟨c, n⟩ _ => ?_
  cases c <;> simp [Cell.used]

/-- A write to a cell in use takes its value out and puts the new one in. -/
lemma size_write (h : a.get? i = some x) (c : Cell α) (free : List UInt32) :
    size ⟨a.cells.setIfInBounds i.cell.toNat c, free⟩ + 1 = a.size + c.used.toNat := by
  obtain ⟨hi, hcell⟩ := Array.getElem?_eq_some_iff.1 (get?_eq_some_iff.1 h)
  have hl : i.cell.toNat < a.cells.toList.length := by simpa using hi
  have hused : (a.cells.toList[i.cell.toNat]).used = true := by
    rw [Array.getElem_toList, hcell]
    rfl
  have hpos : 0 < a.cells.toList.countP Cell.used :=
    List.countP_pos_iff.2 ⟨_, List.getElem_mem hl, hused⟩
  rw [size_eq_countP, size_eq_countP, Array.toList_setIfInBounds, List.countP_set hl, if_pos hused]
  cases c.used
  · simp only [Bool.false_eq_true, if_false, Bool.toNat_false]
    omega
  · simp only [if_true, Bool.toNat_true]
    omega

lemma size_modify (a : Arena α) (i : ObjectId) (f : α → α) : (a.modify i f).size = a.size := by
  unfold modify
  split
  · rfl
  · rename_i x h
    have := size_write h (.occupied i.version (f x)) a.free
    simpa [Cell.used] using this

lemma size_erase (h : a.contains i = true) : (a.erase i).size + 1 = a.size := by
  obtain ⟨x, hx⟩ := Option.isSome_iff_exists.1 h
  rw [erase, if_pos h]
  exact size_write hx _ _

/-- Handles in use that are erased one after another are so many less. -/
lemma size_foldl_erase {is : List ObjectId} (hn : is.Nodup) (h : ∀ i ∈ is, a.contains i = true) :
    (is.foldl (·.erase ·) a).size + is.length = a.size := by
  induction is generalizing a with
  | nil => rfl
  | cons i is ih =>
    obtain ⟨hi, hn⟩ := List.nodup_cons.1 hn
    have hrest : ∀ j ∈ is, (a.erase i).contains j = true := fun j hj => by
      have hne : i ≠ j := fun he => hi (he ▸ hj)
      rw [contains_erase, h j (List.mem_cons_of_mem i hj)]
      simpa using hne
    have hone := size_erase (h i List.mem_cons_self)
    rw [List.foldl_cons, List.length_cons, ← hone, ← ih hn hrest, Nat.add_assoc]

/-! ### The list of what an arena holds -/

lemma mem_toList (hb : a.bound ≤ UInt32.size) : (i, x) ∈ a.toList ↔ a.get? i = some x := by
  rw [toList, List.mem_filterMap, get?_eq_some_iff]
  constructor
  · rintro ⟨⟨c, n⟩, hmem, hc⟩
    rw [List.mk_mem_zipIdx_iff_getElem?, Array.getElem?_toList] at hmem
    have hn : n < UInt32.size := (Array.getElem?_eq_some_iff.1 hmem).1.trans_le hb
    cases c with
    | vacant v => cases hc
    | occupied v y =>
      cases hc
      rwa [UInt32.toNat_ofNat_of_lt' hn]
  · intro hcell
    refine ⟨(.occupied i.version x, i.cell.toNat), ?_, ?_⟩
    · rwa [List.mk_mem_zipIdx_iff_getElem?, Array.getElem?_toList]
    · dsimp only
      rw [UInt32.ofNat_toNat]

lemma mem_handles (hb : a.bound ≤ UInt32.size) :
    i ∈ a.toList.map Prod.fst ↔ a.contains i = true := by
  rw [contains, Option.isSome_iff_exists, List.mem_map]
  constructor
  · rintro ⟨⟨j, x⟩, hmem, rfl⟩
    exact ⟨x, (mem_toList hb).1 hmem⟩
  · rintro ⟨x, hx⟩
    exact ⟨(i, x), (mem_toList hb).2 hx, rfl⟩

/-- The handles are listed by cell number, so none is listed twice. -/
lemma nodup_handles (hb : a.bound ≤ UInt32.size) : (a.toList.map Prod.fst).Nodup := by
  have hcells : a.cells.toList.zipIdx.Pairwise fun c d => c.2 < d.2 := by
    rw [← List.pairwise_map, List.zipIdx_map_snd]
    exact List.pairwise_lt_range' 1
  have inside : ∀ c ∈ a.cells.toList.zipIdx, (UInt32.ofNat c.2).toNat = c.2 := by
    rintro ⟨c, n⟩ hmem
    rw [List.mk_mem_zipIdx_iff_getElem?, Array.getElem?_toList] at hmem
    exact UInt32.toNat_ofNat_of_lt' ((Array.getElem?_eq_some_iff.1 hmem).1.trans_le hb)
  have apart : a.cells.toList.zipIdx.Pairwise fun c d => UInt32.ofNat c.2 ≠ .ofNat d.2 := by
    -- Numbers below the bound of handles do not wrap to the same one.
    refine hcells.imp_of_mem fun hc hd hlt he => ?_
    rw [← inside _ hc, ← inside _ hd, he] at hlt
    exact Nat.lt_irrefl _ hlt
  refine List.pairwise_map.2 (apart.filterMap _ ?_)
  rintro ⟨_ | ⟨v, x⟩, n⟩ ⟨_ | ⟨w, y⟩, m⟩ hne _ hc _ hd he
  · cases hc
  · cases hc
  · cases hd
  · cases hc
    cases hd
    exact hne (congrArg ObjectId.cell he)

end Arena

end AccessTree
