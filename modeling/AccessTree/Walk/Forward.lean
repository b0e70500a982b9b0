import AccessTree.Walk.Basic

/-!
Walking forward: the objects below a container in document order, from one of its children on.
The number of children is asked for anew before each child, since the tree may have changed.
-/

namespace AccessTree.Walker

variable {σ ν : Type} [DecidableEq ν] (w : Walker σ ν)

/-- Walks on from a child of a container that lies so deep below the first one. Only the tree
limits the number of children, so the steps do. -/
def forwardFrom : Nat → Nat → ν → Nat → WalkM σ ν Unit
  | 0, _, _, _ => throw .exhausted
  | steps + 1, depth, container, index => do
    let count ← w.ask (.childCount container)
    if index < count then
      match ← w.ask (.childAt container index) with
      | none => pure ()
      | some child =>
        if ← WalkM.isStop child then
          w.note (.reachedStop child)
          throw .broken
        w.visit child
        if ← w.enters child then
          if w.maxDepth ≤ depth then w.note (.subtreeSkipped child w.maxDepth)
          else forwardFrom steps (depth + 1) child 0
        forwardFrom steps depth container (index + 1)

def forward (steps : Nat) (container : ν) (start : Nat) : WalkM σ ν Unit :=
  w.forwardFrom steps 0 container start

end AccessTree.Walker
