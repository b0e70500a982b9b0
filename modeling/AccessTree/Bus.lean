import AccessTree.Finder
import AccessTree.MatchArgs

/-!
Requests as they come over a bus: objects by path and everything else by code. Paths are looked
up first, then the arguments are read in their order, and the first thing wrong is the answer.
-/

namespace AccessTree

structure Request.Target where
  path : String
  args : MatchArgs := {}
  sortBy : UInt32
  count : Int32
  traverse : Bool := true

/-- Where a request that has a direction begins, and the code of the part it covers. -/
structure Request.Start where
  path : String
  scope : UInt32

inductive Request where
  | getMatches (target : Request.Target)
  | getMatchesFrom (target : Request.Target) (start : Request.Start)
  | getMatchesTo (target : Request.Target) (start : Request.Start) (recurse : Bool)

/-- The number of results that a count asks for, 0 for all. -/
def Request.limit (count : Int32) : Except ArgumentError Nat :=
  if count.toInt < 0 then .error (.negativeCount count) else .ok count.toInt.toNat

def Request.scope (code : UInt32) : Except ArgumentError Scope :=
  match Scope.ofCode? code with
  | none => .error (.unknownScope code)
  | some s => .ok s

inductive RequestError where
  | objectNotFound (path : String)
  | invalidArguments (e : ArgumentError)
  deriving DecidableEq

def RequestError.message : RequestError → String
  | objectNotFound path => "Object not found: " ++ path
  | invalidArguments e => "Invalid arguments: " ++ e.reason

/-- How objects and paths belong together. -/
structure Directory (σ ν : Type) where
  resolve : σ → String → Option ν
  pathOf : σ → ν → String

structure Bus (σ ν : Type) where
  finder : Finder σ ν
  directory : Directory σ ν

abbrev Handling (σ ν : Type) := ExceptT RequestError (Search σ ν)

namespace Bus

variable {σ ν : Type} (b : Bus σ ν)

def locate (path : String) : Handling σ ν ν := do
  match b.directory.resolve (← get).state path with
  | some n => pure n
  | none =>
    ExceptT.lift (Search.note (.pathUnknown path))
    throw (.objectNotFound path)

def check {α : Type} (x : Except ArgumentError α) : Handling σ ν α :=
  match x with
  | .error e => throw (.invalidArguments e)
  | .ok a => pure a

def pathsOf (found : Search σ ν (List ν)) : Handling σ ν (List String) := do
  let nodes ← ExceptT.lift found
  let asked ← get
  return nodes.map (b.directory.pathOf asked.state)

variable [DecidableEq ν]

/-- Answers a request that has a direction. -/
def directed (t : Request.Target) (start : Request.Start) (direction : Direction)
    (recurse : Bool) : Handling σ ν (List String) := do
  let collection ← b.locate t.path
  let anchor ← b.locate start.path
  let rule ← check t.args.rule
  let scope ← check (Request.scope start.scope)
  let limit ← check (Request.limit t.count)
  let sort := SortOrder.ofCode t.sortBy
  b.pathsOf (b.finder.find
    { collection, anchor, rule, sort, scope, direction, limit, recurse, traverse := t.traverse })

/-- The paths of the objects that a request is for. -/
def handle : Request → Handling σ ν (List String)
  | .getMatches t => do
    let collection ← b.locate t.path
    let rule ← check t.args.rule
    let limit ← check (Request.limit t.count)
    b.pathsOf (b.finder.findAll collection rule (.ofCode t.sortBy) limit t.traverse)
  | .getMatchesFrom t start => b.directed t start .onward false
  | .getMatchesTo t start recurse => b.directed t start .back recurse

end Bus

end AccessTree
