/-!
Scopes: the part of a tree that a search from an anchor covers. It is what lies below the anchor,
the anchor and its younger siblings, or everything from the anchor on and round to it again.
-/

namespace AccessTree

inductive Scope where
  | children | siblings | inorder
  deriving DecidableEq, Repr

namespace Scope

def code (s : Scope) : UInt32 := .ofNat s.ctorIdx

def ofCode? (n : UInt32) : Option Scope :=
  match n with
  | 0 => some children
  | 1 => some siblings
  | 2 => some inorder
  | _ => none

end Scope

end AccessTree
