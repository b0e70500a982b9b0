import AccessTree.Walk.Basic

/-!
Walking backward through document order. Before an object comes the last object below its elder
sibling, or its parent where it has none.
-/

namespace AccessTree.Walker

variable {σ ν : Type} (w : Walker σ ν)

/-- Goes down along last children, at most so many levels. -/
def lastBelow : Nat → ν → Inquiry σ ν ν
  | levels, n => do
    if ← w.enters n then
      let count ← w.ask (.childCount n)
      if count = 0 then pure n
      else
        match levels with
        | 0 => do
          w.note (.descentStopped n w.maxDepth)
          pure n
        | levels + 1 => do
          match ← w.ask (.childAt n (count - 1)) with
          | none => pure n
          | some child => lastBelow levels child
    else pure n

/-- The object before another one in document order. -/
def previous (n : ν) : Inquiry σ ν (Option ν) := do
  match ← w.ask (.parent n) with
  | none => pure none
  | some parent =>
    match ← w.ask (.indexInParent n) with
    | none | some 0 => pure (some parent)
    | some (index + 1) =>
      match ← w.ask (.childAt parent index) with
      | none => pure none
      | some sibling => some <$> w.lastBelow w.maxDepth sibling

/-- Walks back from an object up to the stop, which is not visited. -/
def backward [DecidableEq ν] : Nat → ν → WalkM σ ν Unit
  | 0, _ => throw .exhausted
  | steps + 1, n => do
    if ← WalkM.isStop n then pure ()
    else
      w.visit n
      match ← w.previous n with
      | none => pure ()
      | some n => backward steps n

end AccessTree.Walker
