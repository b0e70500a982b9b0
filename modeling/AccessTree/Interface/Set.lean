import AccessTree.Interface
import AccessTree.Text.Braces

/-!
Sets of interfaces, one bit for each interface in a word of 16 bits.
-/

namespace AccessTree

structure InterfaceSet where
  bits : UInt16
  deriving DecidableEq

namespace InterfaceSet

def mask (i : Interface) : UInt16 := 1 <<< UInt16.ofNat i.code

def empty : InterfaceSet := ⟨0⟩

instance : Inhabited InterfaceSet := ⟨empty⟩

def contains (s : InterfaceSet) (i : Interface) : Bool := s.bits &&& mask i != 0

def insert (s : InterfaceSet) (i : Interface) : InterfaceSet := ⟨s.bits ||| mask i⟩

def erase (s : InterfaceSet) (i : Interface) : InterfaceSet := ⟨s.bits &&& ~~~mask i⟩

def ofList (is : List Interface) : InterfaceSet := is.foldl insert empty

def isEmpty (s : InterfaceSet) : Bool := s.bits == 0

def toList (s : InterfaceSet) : List Interface := Interface.all.filter s.contains

def text (s : InterfaceSet) : String := Text.braces (s.toList.map Interface.label)

/-! ### Membership -/

theorem toBitVec_mask (i : Interface) : (mask i).toBitVec = .twoPow 16 i.code := by
  cases i <;> decide

theorem contains_eq_getLsbD (s : InterfaceSet) (i : Interface) :
    s.contains i = s.bits.toBitVec.getLsbD i.code := by
  have h : s.bits &&& mask i = 0 ↔ s.bits.toBitVec &&& .twoPow 16 i.code = 0#16 := by
    rw [← UInt16.toBitVec_inj, UInt16.toBitVec_and, toBitVec_mask]; rfl
  have nonzero : BitVec.twoPow 16 i.code ≠ 0#16 := by cases i <;> decide
  rw [Bool.eq_iff_iff, contains, bne_iff_ne, Ne, h, BitVec.and_twoPow]
  cases s.bits.toBitVec.getLsbD i.code <;> simp [nonzero]

@[simp] theorem contains_empty (i : Interface) : empty.contains i = false := by
  simp [contains_eq_getLsbD, empty]

@[simp] theorem contains_insert (s : InterfaceSet) (i j : Interface) :
    (s.insert i).contains j = (i == j || s.contains j) := by
  have := Interface.code_lt j
  simp [contains_eq_getLsbD, insert, toBitVec_mask, BitVec.getLsbD_twoPow]
  grind [Interface.code_inj]

@[simp] theorem contains_erase (s : InterfaceSet) (i j : Interface) :
    (s.erase i).contains j = (i != j && s.contains j) := by
  have := Interface.code_lt j
  simp [contains_eq_getLsbD, erase, toBitVec_mask, BitVec.getLsbD_twoPow]
  grind [Interface.code_inj]

@[simp] theorem mem_toList {s : InterfaceSet} {i : Interface} :
    i ∈ s.toList ↔ s.contains i = true := by
  simp [toList, Interface.mem_all]

end InterfaceSet

end AccessTree
