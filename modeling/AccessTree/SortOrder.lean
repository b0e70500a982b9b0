/-!
The orders in which the results of a search can be asked for. Only document order and its reverse
can be given.
-/

namespace AccessTree

inductive SortOrder where
  | invalid | canonical | flow | tab | reverseCanonical | reverseFlow | reverseTab
  deriving DecidableEq, Repr

namespace SortOrder

def code (s : SortOrder) : UInt32 := .ofNat s.ctorIdx

/-- Any code without an order of its own is that of the invalid order. -/
def ofCode (n : UInt32) : SortOrder :=
  match n with
  | 1 => canonical
  | 2 => flow
  | 3 => tab
  | 4 => reverseCanonical
  | 5 => reverseFlow
  | 6 => reverseTab
  | _ => invalid

def label : SortOrder → String
  | invalid => "Invalid"
  | canonical => "Canonical"
  | flow => "Flow"
  | tab => "Tab"
  | reverseCanonical => "ReverseCanonical"
  | reverseFlow => "ReverseFlow"
  | reverseTab => "ReverseTab"

/-- Whether results come last first, for the two orders that a search can give. -/
def reversed? : SortOrder → Option Bool
  | canonical => some false
  | reverseCanonical => some true
  | _ => none

end SortOrder

end AccessTree
