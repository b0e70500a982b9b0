import AccessTree.Bits
import AccessTree.State
import AccessTree.Text.Braces

/-!
Sets of states, one bit for each state in a word of 64 bits. They travel as two words of 32 bits,
and a set read from words comes with the first position that names no state. What is in a set
after each operation is said in terms of `contains`.
-/

namespace AccessTree

@[ext]
structure StateSet where
  bits : UInt64
  deriving DecidableEq

namespace StateSet

def mask (x : State) : UInt64 := 1 <<< UInt64.ofNat x.code

def empty : StateSet := ⟨0⟩

instance : Inhabited StateSet := ⟨empty⟩

def contains (s : StateSet) (x : State) : Bool := s.bits &&& mask x != 0

def insert (s : StateSet) (x : State) : StateSet := ⟨s.bits ||| mask x⟩

def erase (s : StateSet) (x : State) : StateSet := ⟨s.bits &&& ~~~mask x⟩

/-- Inserts a state and tells whether it is new. -/
def insertNew (s : StateSet) (x : State) : Bool × StateSet := (!s.contains x, s.insert x)

/-- Erases a state and tells whether it was there. -/
def eraseOld (s : StateSet) (x : State) : Bool × StateSet := (s.contains x, s.erase x)

def insertMany (s : StateSet) (xs : List State) : StateSet := xs.foldl insert s

def ofList (xs : List State) : StateSet := insertMany empty xs

/-- What an object that is gone is in. -/
def defunct : StateSet := ofList [.defunct]

def containsAll (s t : StateSet) : Bool := s.bits &&& t.bits == t.bits

def containsAny (s t : StateSet) : Bool := s.bits &&& t.bits != 0

def containsNone (s t : StateSet) : Bool := !s.containsAny t

def isEmpty (s : StateSet) : Bool := s.bits == 0

/-- The number of bits that are set. -/
def size (s : StateSet) : Nat := (List.range 64).countP s.bits.toNat.testBit

/-- The states of the set in the order of their codes. -/
def toList (s : StateSet) : List State := State.all.filter s.contains

def toBits (s : StateSet) : List UInt32 := [s.bits.toUInt32, (s.bits >>> 32).toUInt32]

/-- The states at the positions that are set, and the first position at which there is none. -/
def ofBits (ws : List UInt32) : StateSet × Option UInt32 :=
  let ps := Bits.positions ws
  (ofList (ps.filterMap fun p => State.ofCode? p.toNat),
    ps.find? fun p => (State.ofCode? p.toNat).isNone)

def text (s : StateSet) : String := Text.braces (s.toList.map State.label)

/-! ### Membership -/

theorem toBitVec_mask (x : State) : (mask x).toBitVec = .twoPow 64 x.code := by
  cases x <;> decide

theorem contains_eq_getLsbD (s : StateSet) (x : State) :
    s.contains x = s.bits.toBitVec.getLsbD x.code := by
  have h : s.bits &&& mask x = 0 ↔ s.bits.toBitVec &&& .twoPow 64 x.code = 0#64 := by
    rw [← UInt64.toBitVec_inj, UInt64.toBitVec_and, toBitVec_mask]; rfl
  have nonzero : BitVec.twoPow 64 x.code ≠ 0#64 := by cases x <;> decide
  rw [Bool.eq_iff_iff, contains, bne_iff_ne, Ne, h, BitVec.and_twoPow]
  cases s.bits.toBitVec.getLsbD x.code <;> simp [nonzero]

@[simp] theorem contains_empty (x : State) : empty.contains x = false := by
  simp [contains_eq_getLsbD, empty]

@[simp] theorem contains_insert (s : StateSet) (x y : State) :
    (s.insert x).contains y = (x == y || s.contains y) := by
  have := State.code_lt y
  simp [contains_eq_getLsbD, insert, toBitVec_mask, BitVec.getLsbD_twoPow]
  grind [State.code_inj]

@[simp] theorem contains_erase (s : StateSet) (x y : State) :
    (s.erase x).contains y = (x != y && s.contains y) := by
  have := State.code_lt y
  simp [contains_eq_getLsbD, erase, toBitVec_mask, BitVec.getLsbD_twoPow]
  grind [State.code_inj]

@[simp] theorem mem_toList {s : StateSet} {x : State} : x ∈ s.toList ↔ s.contains x = true := by
  simp [toList, State.mem_all]

@[simp] theorem contains_insertMany (s : StateSet) (xs : List State) (y : State) :
    (s.insertMany xs).contains y = (xs.contains y || s.contains y) := by
  induction xs generalizing s with
  | nil => simp [insertMany]
  | cons x xs ih =>
    simp only [insertMany, List.foldl_cons] at ih ⊢
    grind [contains_insert]

@[simp] theorem contains_ofList (xs : List State) (y : State) :
    (ofList xs).contains y = xs.contains y := by
  simp [ofList]

theorem isEmpty_iff {s : StateSet} : s.isEmpty = true ↔ s = .empty := by
  simp [isEmpty, empty, StateSet.ext_iff]

/-- A set that is put together from states is empty if no state is in it. -/
theorem ofList_eq_empty_iff {xs : List State} :
    ofList xs = .empty ↔ ∀ x, (ofList xs).contains x = false := by
  constructor
  · intro h x
    rw [h, contains_empty]
  · intro h
    cases xs with
    | nil => rfl
    | cons x xs => simpa using h x

end StateSet

end AccessTree
