import AccessTree.Settings
import AccessTree.Toml.Document

/-!
Settings read from a TOML document. What the document leaves out keeps its default and what it
has besides is passed over, but all of it has to be TOML.
-/

namespace AccessTree

namespace AnyState

def label : AnyState → String
  | present => "present"
  | absent => "legacy-absent"

def ofLabel? (s : String) : Option AnyState := [present, absent].find? fun a => a.label == s

/-- A choice is written as its name, or as a table with nothing but its name, which names something
empty. -/
def ofToml? : Toml.Value → Option AnyState
  | .text s => ofLabel? s
  | .table _ [(key, .array [])] | .table _ [(key, .table _ [])] | .table _ [(key, .tables [])] =>
    ofLabel? key
  | _ => none

end AnyState

namespace Settings

def read {α : Type} (es : Toml.Entries) (key : String) (item : Toml.Value → Option α)
    (default : α) : Option α :=
  match es.lookup key with
  | none => some default
  | some v => item v

def ofEntries? (es : Toml.Entries) : Option Settings := do
  let standard : Settings := {}
  let word (v : Toml.Value) : Option UInt32 := .ofNat <$> v.natBelow? UInt32.size
  let maxResults ← read es "max_results" word standard.maxResults
  let maxDepth ← read es "max_depth" (Toml.Value.natBelow? UInt64.size) standard.maxDepth
  let anyState ← read es "state_any" AnyState.ofToml? standard.anyState
  let honorInvert ← read es "honor_invert" Toml.Value.bool? standard.honorInvert
  return { maxResults, maxDepth, anyState, honorInvert }

def ofToml? (text : String) : Option Settings := (Toml.parse? text).bind ofEntries?

end Settings

end AccessTree
