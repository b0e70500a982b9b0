import AccessTree.Attribute
import AccessTree.Role
import AccessTree.State.Set

/-!
Rules: which objects a search is for. A rule has four criteria, on states, attributes, roles and
interfaces, and an object has to meet all of them.
-/

namespace AccessTree

/-- How what a criterion lists has to relate to what an object has. -/
inductive MatchType where
  | invalid | all | any | none
  /-- Like `all` where something is listed. Where nothing is, the object has to have nothing. -/
  | empty
  deriving DecidableEq, Repr

namespace MatchType

def code (m : MatchType) : Int32 := .ofNat m.ctorIdx

def ofCode? (n : Int32) : Option MatchType :=
  [invalid, all, any, none, empty].find? fun m => m.code == n

theorem ofCode?_eq_some_iff {n : Int32} {m : MatchType} : ofCode? n = some m ↔ m.code = n := by
  constructor
  · intro h
    simpa using List.find?_some h
  · rintro rfl
    cases m <;> rfl

theorem code_bounds (m : MatchType) : 0 ≤ m.code ∧ m.code ≤ 4 := by cases m <;> decide

theorem ofCode?_eq_none_iff {n : Int32} : ofCode? n = .none ↔ ¬ (0 ≤ n ∧ n ≤ 4) := by
  constructor
  · intro h hn
    rw [Int32.le_iff_toInt_le, Int32.le_iff_toInt_le] at hn
    have hcases : n.toInt = Int32.toInt 0 ∨ n.toInt = Int32.toInt 1 ∨ n.toInt = Int32.toInt 2 ∨
        n.toInt = Int32.toInt 3 ∨ n.toInt = Int32.toInt 4 := by
      simp at hn ⊢
      omega
    simp only [Int32.toInt_inj] at hcases
    rcases hcases with rfl | rfl | rfl | rfl | rfl <;> cases h
  · intro hn
    cases h : ofCode? n with
    | none => rfl
    | some m => exact absurd (ofCode?_eq_some_iff.1 h ▸ code_bounds m) hn

end MatchType

structure Rule where
  states : StateSet := .empty
  stateMatch : MatchType := .all
  attributes : List Attribute := []
  attributeMatch : MatchType := .all
  roles : List Role := []
  roleMatch : MatchType := .all
  /-- Names as they were given, which need not be those of interfaces. -/
  interfaces : List String := []
  interfaceMatch : MatchType := .all
  invert : Bool := false
  deriving DecidableEq

namespace Rule

/-- The rule that every object meets. -/
def anyObject : Rule := {}

def withStates (r : Rule) (states : StateSet) (m : MatchType) : Rule :=
  { r with states, stateMatch := m }

def withAttributes (r : Rule) (attributes : List Attribute) (m : MatchType) : Rule :=
  { r with attributes, attributeMatch := m }

/-- A role counts once, where it is listed first. -/
def withRoles (r : Rule) (roles : List Role) (m : MatchType) : Rule :=
  { r with roles := roles.eraseDups, roleMatch := m }

def withInterfaces (r : Rule) (interfaces : List String) (m : MatchType) : Rule :=
  { r with interfaces, interfaceMatch := m }

def withInvert (r : Rule) (invert : Bool) : Rule := { r with invert }

end Rule

end AccessTree
