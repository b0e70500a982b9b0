import AccessTree.Role

/-!
Changes of a tree, as whoever keeps the tree reports them.
-/

namespace AccessTree

inductive Change (ν : Type) where
  | registered (node : ν) (role : Role)
  | destroying (node : ν) (descendants : Nat)
  | reparented (child parent : ν) (index : Nat)

end AccessTree
