import AccessTree.Text.Blank
import AccessTree.Text.Caseless

/-!
Interfaces: what can be done with an object beyond asking about it. An interface is looked up by
its name, with blanks around the name and the case of ASCII letters left out of account.
-/

namespace AccessTree

inductive Interface where
  | action | collection | component | document | editableText | hypertext | image | selection
  | streamableContent | table | text | value
  deriving DecidableEq, Repr

namespace Interface

def all : List Interface :=
  [.action, .collection, .component, .document, .editableText, .hypertext, .image, .selection,
    .streamableContent, .table, .text, .value]

def code (i : Interface) : Nat := i.ctorIdx

def name : Interface → String
  | .action => "action"
  | .collection => "collection"
  | .component => "component"
  | .document => "document"
  | .editableText => "editabletext"
  | .hypertext => "hypertext"
  | .image => "image"
  | .selection => "selection"
  | .streamableContent => "streamablecontent"
  | .table => "table"
  | .text => "text"
  | .value => "value"

def label : Interface → String
  | .action => "Action"
  | .collection => "Collection"
  | .component => "Component"
  | .document => "Document"
  | .editableText => "EditableText"
  | .hypertext => "Hypertext"
  | .image => "Image"
  | .selection => "Selection"
  | .streamableContent => "StreamableContent"
  | .table => "Table"
  | .text => "Text"
  | .value => "Value"

def ofName? (s : String) : Option Interface :=
  let wanted := String.ofList (Text.trim s.toList)
  all.find? fun i => Text.alike i.name wanted

theorem mem_all (i : Interface) : i ∈ all := by cases i <;> decide

theorem code_lt (i : Interface) : i.code < 12 := by cases i <;> decide

theorem code_inj {i j : Interface} : i.code = j.code ↔ i = j := by
  cases i <;> cases j <;> decide

end Interface

end AccessTree
