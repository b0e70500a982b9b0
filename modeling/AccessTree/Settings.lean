/-!
The settings of searches: how many results at most, how deep into a tree, and two choices about
the reading of rules.
-/

namespace AccessTree

/-- What makes an object meet the criterion "any of these states". -/
inductive AnyState where
  /-- One of the states is there. -/
  | present
  /-- One of the states is missing. -/
  | absent
  deriving DecidableEq, Repr

structure Settings where
  /-- The most results of a search, or 0 for no such limit. -/
  maxResults : UInt32 := 0
  maxDepth : Nat := 4096
  anyState : AnyState := .present
  /-- Whether a rule may ask for the objects that do not meet it. -/
  honorInvert : Bool := false
  deriving DecidableEq

namespace Settings

/-- The smaller of two limits, where 0 is no limit. -/
def limit (s : Settings) (requested : Nat) : Nat :=
  let most := s.maxResults.toNat
  if requested = 0 then most
  else if most = 0 then requested
  else min requested most

theorem limit_eq_zero_iff {s : Settings} {n : Nat} :
    s.limit n = 0 ↔ n = 0 ∧ s.maxResults.toNat = 0 := by
  simp only [limit]
  split <;> grind

end Settings

end AccessTree
