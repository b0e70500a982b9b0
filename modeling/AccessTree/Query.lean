import AccessTree.Rule
import AccessTree.Scope
import AccessTree.SortOrder

/-!
Queries: a search of a collection from one of its objects on, or back from it.
-/

namespace AccessTree

/-- Whether a search goes on from its anchor or back from it. -/
inductive Direction where
  | onward | back
  deriving DecidableEq, Repr

structure Query (ν : Type) where
  collection : ν
  anchor : ν
  rule : Rule := .anyObject
  sort : SortOrder := .canonical
  scope : Scope := .children
  direction : Direction := .onward
  limit : Nat := 0
  /-- Whether a search back ends at the anchor's parent and not at the collection. -/
  recurse : Bool := false
  /-- Whether collections inside the collection are entered. -/
  traverse : Bool := true

end AccessTree
