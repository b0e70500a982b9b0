import AccessTree.Walk.Forward

/-!
Sweeping a whole collection from an anchor on: first what is below the anchor, then what follows
it at each level up to the collection, and then the collection from its start to the anchor.
-/

namespace AccessTree.Walker

variable {σ ν : Type} [DecidableEq ν] (w : Walker σ ν)

/-- Climbs from an object to the collection, at most so many levels, and walks through the younger
siblings at each. Tells whether the collection is reached.

Where a tree gives an object the place `2 ^ 64 - 1`, the place after it does not fit a machine word:
there it overflows, or it is 0 again and the walk starts over. Here it is `2 ^ 64`, and no number of
children that fits a word exceeds it, so nothing more is found. A consistent tree has no such place,
since its places are below its numbers of children. -/
def ascend (steps : Nat) (collection : ν) : Nat → ν → WalkM σ ν Bool
  | levels, n =>
    if n = collection then pure true
    else do
      let parent? ← w.ask (.parent n)
      let index? ← w.ask (.indexInParent n)
      match parent?, index? with
      | some parent, some index =>
        match levels with
        | 0 => do
          w.note (.ascentStopped w.maxDepth)
          pure false
        | levels + 1 => do
          w.forward steps parent (index + 1)
          ascend steps collection levels parent
      | _, _ => do
        w.note (.ranOutOfAncestors n)
        pure false

def sweep (steps : Nat) (collection anchor : ν) : WalkM σ ν Unit := do
  if ← w.encloses collection anchor then
    WalkM.stopAt none
    w.forward steps anchor 0
    let reached ← w.ascend steps collection w.maxDepth anchor
    if reached && anchor != collection then
      WalkM.stopAt (some anchor)
      w.forward steps collection 0
  else w.note (.sweepOutside anchor)

end AccessTree.Walker
