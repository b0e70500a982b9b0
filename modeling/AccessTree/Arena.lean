import AccessTree.ObjectId

/-!
Arenas: values in numbered cells, found by handle. A cell that is emptied goes up to an even
version and is the first to be used again, with the next odd version. A change of a cell is seen
through its own handle and no other.
-/

namespace AccessTree

inductive Cell (α : Type) where
  | vacant (version : UInt32)
  | occupied (version : UInt32) (value : α)

/-- The value of a cell, asked for with the version it has to have. -/
def Cell.get? {α : Type} : Cell α → UInt32 → Option α
  | vacant _, _ => none
  | occupied v x, version => if v = version then some x else none

/-- The cell with number 0 is never used. Of the free cells the last one emptied comes first. -/
structure Arena (α : Type) where
  cells : Array (Cell α) := #[.vacant 0]
  free : List UInt32 := []

namespace Arena

variable {α : Type}

def empty : Arena α := {}

def get? (a : Arena α) (i : ObjectId) : Option α :=
  a.cells[i.cell.toNat]?.bind (·.get? i.version)

def contains (a : Arena α) (i : ObjectId) : Bool := (a.get? i).isSome

/-- Puts a value into the free cell that comes first, or into a new one. -/
def insert (a : Arena α) (x : α) : ObjectId × Arena α :=
  match a.free with
  | [] => (⟨.ofNat a.cells.size, 1⟩, { a with cells := a.cells.push (.occupied 1 x) })
  | n :: free =>
    let version := match a.cells[n.toNat]? with
      | some (.vacant v) => v ||| 1
      | _ => 1
    (⟨n, version⟩, ⟨a.cells.setIfInBounds n.toNat (.occupied version x), free⟩)

def modify (a : Arena α) (i : ObjectId) (f : α → α) : Arena α :=
  match a.get? i with
  | none => a
  | some x => { a with cells := a.cells.setIfInBounds i.cell.toNat (.occupied i.version (f x)) }

def erase (a : Arena α) (i : ObjectId) : Arena α :=
  if a.contains i then
    ⟨a.cells.setIfInBounds i.cell.toNat (.vacant (i.version + 1)), i.cell :: a.free⟩
  else a

/-- The handles in use and their values, by cell number. -/
def toList (a : Arena α) : List (ObjectId × α) :=
  a.cells.toList.zipIdx.filterMap fun
    | (.occupied v x, n) => some (⟨.ofNat n, v⟩, x)
    | (.vacant _, _) => none

def size (a : Arena α) : Nat := a.toList.length

/-- More than the number of values, without counting them. -/
def bound (a : Arena α) : Nat := a.cells.size

/-! ### What is found -/

theorem get?_eq_some_iff {a : Arena α} {i : ObjectId} {x : α} :
    a.get? i = some x ↔ a.cells[i.cell.toNat]? = some (.occupied i.version x) := by
  rw [get?, Option.bind_eq_some_iff]
  constructor
  · rintro ⟨_ | ⟨v, y⟩, hc, h⟩
    · cases h
    · simp only [Cell.get?, Option.ite_none_right_eq_some, Option.some.injEq] at h
      rw [hc, h.1, h.2]
  · exact fun h => ⟨_, h, if_pos rfl⟩

/-- What is found after a write to the cell of a handle in use. -/
theorem get?_write {a : Arena α} {i : ObjectId} {x : α} (h : a.get? i = some x) (c : Cell α)
    (free : List UInt32) (j : ObjectId) :
    get? ⟨a.cells.setIfInBounds i.cell.toNat c, free⟩ j =
      if i.cell = j.cell then c.get? j.version else a.get? j := by
  have inside := (Array.getElem?_eq_some_iff.1 (get?_eq_some_iff.1 h)).1
  by_cases hc : i.cell = j.cell
  · rw [if_pos hc, get?, Array.getElem?_setIfInBounds, if_pos (by rw [hc]), if_pos inside]
    rfl
  · rw [if_neg hc, get?, Array.getElem?_setIfInBounds, if_neg (by rwa [UInt32.toNat_inj])]
    rfl

/-- The cell of a handle in use answers for no other handle. -/
theorem get?_of_cell_eq {a : Arena α} {i j : ObjectId} {x : α} (h : a.get? i = some x)
    (hc : i.cell = j.cell) (hv : i.version ≠ j.version) : a.get? j = none := by
  rw [get?, ← hc, get?_eq_some_iff.1 h]
  exact if_neg hv

theorem get?_modify (a : Arena α) (i j : ObjectId) (f : α → α) :
    (a.modify i f).get? j = if i = j then (a.get? i).map f else a.get? j := by
  by_cases hij : i = j
  · subst j
    rw [if_pos rfl, modify]
    split
    · rename_i h
      rw [h]
      rfl
    · rename_i x h
      rw [get?_write h, if_pos rfl, h]
      exact if_pos rfl
  · rw [if_neg hij, modify]
    split
    · rfl
    · rename_i x h
      rw [get?_write h]
      split
      · rename_i hc
        have hv := fun hv => hij (ObjectId.ext hc hv)
        rw [get?_of_cell_eq h hc hv]
        exact if_neg hv
      · rfl

theorem get?_erase (a : Arena α) (i j : ObjectId) :
    (a.erase i).get? j = if i = j then none else a.get? j := by
  unfold erase
  split
  · rename_i h
    obtain ⟨x, h⟩ := Option.isSome_iff_exists.1 h
    rw [get?_write h]
    by_cases hij : i = j
    · rw [if_pos (hij ▸ rfl), if_pos hij]
      rfl
    · rw [if_neg hij]
      split
      · rename_i hc
        exact (get?_of_cell_eq h hc fun hv => hij (ObjectId.ext hc hv)).symm
      · rfl
  · rename_i h
    split
    · subst j
      exact Option.not_isSome_iff_eq_none.1 h
    · rfl

theorem contains_modify (a : Arena α) (i j : ObjectId) (f : α → α) :
    (a.modify i f).contains j = a.contains j := by
  simp only [contains, get?_modify]
  grind

theorem contains_erase (a : Arena α) (i j : ObjectId) :
    (a.erase i).contains j = (i != j && a.contains j) := by
  simp only [contains, get?_erase]
  grind

end Arena

end AccessTree
