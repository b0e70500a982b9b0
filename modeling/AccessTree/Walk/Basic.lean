import AccessTree.Rule.Accepts

/-!
Walks through a tree that collect the objects meeting a rule. A walk keeps what it has found even
when it is broken off, which happens when enough is found or the stop is reached.
-/

namespace AccessTree

/-- What stays the same during a walk. The anchor is never among the results, and a limit of 0
is none. -/
structure Walker (σ ν : Type) where
  tree : LiveTree σ ν
  rule : Rule
  settings : Settings := {}
  anchor : ν
  limit : Nat := 0
  maxDepth : Nat := 4096
  /-- Whether objects that are collections of their own are entered. -/
  traverse : Bool := true

/-- How far a walk has come. -/
structure Walk (σ ν : Type) where
  asked : Logged σ (Event ν)
  stop : Option ν := none
  found : Array ν := #[]

/-- Why a walk ends before its last object. -/
inductive Walk.Halt where
  | broken
  /-- The steps that were allowed are used up, and nothing is known about the rest. -/
  | exhausted
  deriving DecidableEq

abbrev WalkM (σ ν : Type) := EStateM Walk.Halt (Walk σ ν)

variable {σ ν : Type}

namespace WalkM

def ofInquiry {α : Type} (x : Inquiry σ ν α) : WalkM σ ν α := fun w =>
  let (a, asked) := x w.asked
  .ok a { w with asked }

instance : MonadLift (Inquiry σ ν) (WalkM σ ν) := ⟨ofInquiry⟩

def stopAt (stop : Option ν) : WalkM σ ν Unit := modify ({ · with stop })

def isStop [DecidableEq ν] (n : ν) : WalkM σ ν Bool := (fun w => w.stop == some n) <$> get

def keep (n : ν) : WalkM σ ν Unit := modify fun w => { w with found := w.found.push n }

end WalkM

namespace Walker

variable (w : Walker σ ν)

def ask (q : Question ν) : Inquiry σ ν q.Answer := Inquiry.ask w.tree q

def note (_ : Walker σ ν) (n : Notice ν) : Inquiry σ ν Unit := Inquiry.note n

def isFull (found : Array ν) : Bool := w.limit != 0 && w.limit ≤ found.size

/-- Breaks the walk off when as much is found as may be. -/
def checkLimit : WalkM σ ν Unit := do
  if w.isFull (← get).found then throw .broken

def accepts (n : ν) : Inquiry σ ν Bool := w.rule.accepts w.settings w.tree n

/-- Keeps an object that meets the rule. -/
def visit [DecidableEq ν] (n : ν) : WalkM σ ν Unit := do
  w.checkLimit
  if n ≠ w.anchor then
    if ← w.accepts n then
      WalkM.keep n
      w.checkLimit

/-- Whether the walk goes below an object. -/
def enters (n : ν) : Inquiry σ ν Bool :=
  if w.traverse then pure true else not <$> w.ask (.isCollection n)

/-- Climbs at most so many levels, looking for a collection. -/
def climb [DecidableEq ν] (collection : ν) : Nat → ν → Inquiry σ ν Bool
  | levels, n =>
    if n = collection then pure true
    else
      match levels with
      | 0 => do
        w.note (.enclosureGivenUp w.maxDepth)
        pure false
      | levels + 1 => do
        match ← w.ask (.parent n) with
        | none => pure false
        | some p => climb collection levels p

/-- Whether an object is the collection or lies in it, up to one level more than the greatest
depth. -/
def encloses [DecidableEq ν] (collection n : ν) : Inquiry σ ν Bool :=
  w.climb collection (w.maxDepth + 1) n

end Walker

end AccessTree
