import AccessTree.LiveTree
import AccessTree.Rule
import AccessTree.Settings

/-!
Meeting a rule. The tree is asked no more than is needed: a criterion that lists nothing asks
nothing, and the first thing that decides the answer ends the questions.
-/

namespace AccessTree

variable {σ ν : Type}

namespace Inquiry

/-- Whether all hold, asking up to the first that does not. -/
def allOf : List (Inquiry σ ν Bool) → Inquiry σ ν Bool
  | [] => pure true
  | x :: xs => do
    if ← x then allOf xs else pure false

/-- Whether one holds, asking up to the first that does. -/
def anyOf : List (Inquiry σ ν Bool) → Inquiry σ ν Bool
  | [] => pure false
  | x :: xs => do
    if ← x then pure true else anyOf xs

end Inquiry

open Inquiry

/-- Whether listed things relate to an object as they should, given for each whether the object
has it, and whether the object has nothing at all. The first listed thing is looked at even where
no answer would do. -/
def MatchType.holds (m : MatchType) (hits : List (Inquiry σ ν Bool))
    (nothing : Inquiry σ ν Bool) : Inquiry σ ν Bool :=
  match hits with
  | [] => if m = .empty then nothing else pure true
  | hit :: _ =>
    match m with
    | .all | .empty => allOf hits
    | .any => anyOf hits
    | .none => not <$> anyOf hits
    | .invalid => do
      let _ ← hit
      pure false

namespace Rule

variable (r : Rule) (s : Settings) (t : LiveTree σ ν) (n : ν)

def interfacesHold : Inquiry σ ν Bool :=
  if r.interfaces.isEmpty && r.interfaceMatch != .empty then pure true
  else
    let implemented (name : String) : Inquiry σ ν Bool :=
      match Interface.ofName? name with
      | none => pure false
      | some i => ask t (.implements n i)
    r.interfaceMatch.holds (r.interfaces.map implemented)
      (allOf <| Interface.all.map fun i => not <$> ask t (.implements n i))

def statesHold : Inquiry σ ν Bool := do
  if r.states.isEmpty && r.stateMatch != .empty then pure true
  else
    let own ← ask t (.states n)
    let wanted := !(r.stateMatch == .any && s.anyState == .absent)
    r.stateMatch.holds (r.states.toList.map fun x => pure (own.contains x == wanted))
      (pure own.isEmpty)

/-- An object has one role, and none at all if its role is invalid. -/
def rolesHold : Inquiry σ ν Bool := do
  if r.roles.isEmpty && r.roleMatch != .empty then pure true
  else
    let own ← ask t (.role n)
    r.roleMatch.holds (r.roles.map fun x => pure (x == own)) (pure (own == .invalid))

def attributesHold : Inquiry σ ν Bool := do
  if r.attributes.isEmpty && r.attributeMatch != .empty then pure true
  else
    let own ← ask t (.attributes n)
    r.attributeMatch.holds (r.attributes.map fun a => pure (a.satisfiedBy own))
      (pure own.isEmpty)

/-- Whether an object is there and meets the rule, or does not meet it where the rule asks for
those and may. -/
def accepts : Inquiry σ ν Bool := do
  if ← ask t (.isValid n) then
    let met ← allOf [r.interfacesHold t n, r.statesHold s t n, r.rolesHold t n,
      r.attributesHold t n]
    pure (met != (s.honorInvert && r.invert))
  else pure false

end Rule

end AccessTree
