import AccessTree.Json
import AccessTree.MatchArgs

/-!
Arguments written as JSON: an object in which any field may be missing and unknown ones are
passed over, or an array of the fields in their order, which may break off early.
-/

namespace AccessTree

namespace Json

def int32? (j : Json) : Option Int32 :=
  j.int?.bind fun n => if Int32.minValue.toInt ≤ n ∧ n ≤ Int32.maxValue.toInt then
    some (.ofInt n) else none

def listOf? {α : Type} (item : Json → Option α) (j : Json) : Option (List α) :=
  j.items?.bind (·.mapM item)

end Json

def AttributeArgs.ofJson? : Json → Option AttributeArgs
  | .text s => some (.text s)
  | j => AttributeArgs.list <$> j.listOf? Json.text?

namespace MatchArgs

/-- How the field with a name and a place in the order is found. -/
abbrev Fields := String → Nat → Option (Option Json)

/-- A named field may be there once. -/
def named (fields : List (String × Json)) : Fields := fun name _ =>
  match fields.filter (·.1 == name) with
  | [] => some none
  | [(_, j)] => some (some j)
  | _ => none

def placed (items : List Json) : Fields := fun _ place => some items[place]?

/-- The field if it is there and can be read, a default if it is missing. -/
def read {α : Type} (fields : Fields) (name : String) (place : Nat) (item : Json → Option α)
    (default : α) : Option α := do
  match ← fields name place with
  | none => return default
  | some j => item j

def ofFields? (fields : Fields) : Option MatchArgs := do
  return {
    states := ← read fields "states" 0 (·.listOf? Json.int32?) []
    stateMatch := ← read fields "state_match" 1 Json.int32? 0
    attributes := ← read fields "attributes" 2 AttributeArgs.ofJson? (.text "")
    attributeMatch := ← read fields "attribute_match" 3 Json.int32? 0
    roles := ← read fields "roles" 4 (·.listOf? Json.int32?) []
    roleMatch := ← read fields "role_match" 5 Json.int32? 0
    interfaces := ← read fields "interfaces" 6 Json.text? ""
    interfaceMatch := ← read fields "interface_match" 7 Json.int32? 0
    invert := ← read fields "invert" 8 Json.bool? false }

def ofJson? : Json → Option MatchArgs
  | .object fields => ofFields? (named fields)
  | .array items => if items.length ≤ 9 then ofFields? (placed items) else none
  | _ => none

end MatchArgs

end AccessTree
