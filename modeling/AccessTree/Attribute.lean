import AccessTree.Text.Caseless
import AccessTree.Text.Split

/-!
Attributes of an object: names, with a value or without. Names and values are compared without
regard to ASCII case, and of several attributes with one name only the first one counts.
-/

namespace AccessTree

structure Attribute where
  name : String
  value? : Option String := none
  deriving DecidableEq, Repr

namespace Attribute

/-- Reads a name, or a name and a value with a colon between them. One space after the colon is
not part of the value. -/
def parse (s : String) : Attribute :=
  match Text.cut? ':' s.toList with
  | none => ⟨s, none⟩
  | some (name, ' ' :: value) => ⟨.ofList name, some (.ofList value)⟩
  | some (name, value) => ⟨.ofList name, some (.ofList value)⟩

def text (a : Attribute) : String :=
  match a.value? with
  | none => a.name
  | some v => a.name ++ ":" ++ v

/-- The names agree, and so do the values if one is wanted. -/
def accepts (wanted a : Attribute) : Bool :=
  Text.alike wanted.name a.name &&
    match wanted.value?, a.value? with
    | none, _ => true
    | some v, some w => Text.alike v w
    | some _, none => false

/-- The first attribute of the wanted name is accepted. -/
def satisfiedBy (wanted : Attribute) (own : List Attribute) : Bool :=
  (own.find? fun a => Text.alike a.name wanted.name).any wanted.accepts

end Attribute

end AccessTree
