import AccessTree.ArgumentError
import AccessTree.Rule

/-!
Rules as they travel: bit arrays for states and roles, text for attributes and interfaces, and a
code for each match type. Reading stops at the first thing that has no meaning.
-/

namespace AccessTree

/-- Attributes travel as one text with a line for each, or as a list of texts. -/
inductive AttributeArgs where
  | text (s : String)
  | list (ss : List String)
  deriving DecidableEq

namespace AttributeArgs

def entries : AttributeArgs → List String
  | text s => Text.splitAll '\n' s
  | list ss => ss

/-- Empty entries are no attributes. -/
def attributes (a : AttributeArgs) : List Attribute :=
  (a.entries.filter (!·.isEmpty)).map Attribute.parse

end AttributeArgs

structure MatchArgs where
  states : List Int32 := []
  stateMatch : Int32 := 0
  attributes : AttributeArgs := .text ""
  attributeMatch : Int32 := 0
  roles : List Int32 := []
  roleMatch : Int32 := 0
  /-- Names with semicolons between them. -/
  interfaces : String := ""
  interfaceMatch : Int32 := 0
  invert : Bool := false
  deriving DecidableEq

namespace MatchArgs

def stateSet (words : List Int32) : Except ArgumentError StateSet :=
  match StateSet.ofBits (words.map (·.toUInt32)) with
  | (_, some position) => .error (.unknownStateBit position)
  | (states, none) => .ok states

def role (position : UInt32) : Except ArgumentError Role :=
  match Role.ofCode? position.toNat with
  | none => .error (.unknownRole position)
  | some r => .ok r

def roleList (words : List Int32) : Except ArgumentError (List Role) :=
  (Bits.positions (words.map (·.toUInt32))).mapM role

def matchType (c : Criterion) (code : Int32) : Except ArgumentError MatchType :=
  match MatchType.ofCode? code with
  | none => .error (.unknownMatchType c code)
  | some m => .ok m

/-- Segments between semicolons, without the empty ones. -/
def interfaceNames (s : String) : List String := (Text.splitAll ';' s).filter (!·.isEmpty)

/-- The rule that the arguments mean. -/
def rule (a : MatchArgs) : Except ArgumentError Rule := do
  let states ← stateSet a.states
  let roles ← roleList a.roles
  let stateMatch ← matchType .states a.stateMatch
  let attributeMatch ← matchType .attributes a.attributeMatch
  let roleMatch ← matchType .roles a.roleMatch
  let interfaceMatch ← matchType .interfaces a.interfaceMatch
  return Rule.anyObject
    |>.withStates states stateMatch
    |>.withAttributes a.attributes.attributes attributeMatch
    |>.withRoles roles roleMatch
    |>.withInterfaces (interfaceNames a.interfaces) interfaceMatch
    |>.withInvert a.invert

end MatchArgs

end AccessTree
