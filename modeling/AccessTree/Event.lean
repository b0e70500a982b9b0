import AccessTree.Change
import AccessTree.SortOrder

/-!
What is reported while a tree is searched. Each event is a value that holds what it is about, and
its line for a log is made from it in one place.
-/

namespace AccessTree

/-- What a search reports about itself. -/
inductive Notice (ν : Type) where
  | reachedStop (child : ν)
  | subtreeSkipped (child : ν) (maxDepth : Nat)
  | descentStopped (node : ν) (maxDepth : Nat)
  | ascentStopped (maxDepth : Nat)
  | enclosureGivenUp (maxDepth : Nat)
  | ranOutOfAncestors (node : ν)
  /-- Found by a sweep, which looks again after the search that began it. -/
  | sweepOutside (anchor : ν)
  | anchorOutside (anchor : ν)
  | anchorStale (anchor : ν)
  | anchorWithoutParent (anchor : ν)
  | sortUnsupported (sort : SortOrder)
  | finished (count : Nat)
  | pathUnknown (path : String)

inductive Event (ν : Type) where
  | change (c : Change ν)
  | notice (n : Notice ν)

inductive Event.Level where
  | warn | debug | trace
  deriving DecidableEq

/-- The line of a log: a message about a part of the program, with named details. -/
structure Event.Line where
  level : Event.Level
  target : String
  message : String
  fields : List (String × String) := []

variable {ν : Type}

namespace Notice

open Event (Line)

def level : Notice ν → Event.Level
  | reachedStop _ => .trace
  | subtreeSkipped .. | descentStopped .. | ascentStopped _ | enclosureGivenUp _
  | sortUnsupported _ => .warn
  | ranOutOfAncestors _ | sweepOutside _ | anchorOutside _ | anchorStale _
  | anchorWithoutParent _ | finished _ | pathUnknown _ => .debug

def target : Notice ν → String
  | reachedStop _ | subtreeSkipped .. | descentStopped .. | ascentStopped _
  | enclosureGivenUp _ | ranOutOfAncestors _ | sweepOutside _ =>
    "horizon_atspi_collection::traverse"
  | anchorOutside _ | anchorStale _ | anchorWithoutParent _ | sortUnsupported _ | finished _ =>
    "horizon_atspi_collection"
  | pathUnknown _ => "horizon_atspi::adaptor"

def message : Notice ν → String
  | reachedStop _ => "reached stop node"
  | subtreeSkipped .. => "maximum depth exceeded, skipping subtree"
  | descentStopped .. => "maximum depth exceeded, stopping drill-down"
  | ascentStopped _ => "maximum depth exceeded while ascending"
  | enclosureGivenUp _ => "maximum depth exceeded while looking for the collection"
  | ranOutOfAncestors _ => "ran out of ancestors before reaching the collection"
  | sweepOutside _ | anchorOutside _ => "anchor is outside the collection"
  | anchorStale _ => "anchor is stale"
  | anchorWithoutParent _ => "anchor has no parent"
  | sortUnsupported _ => "sort order not implemented"
  | finished _ => "query finished"
  | pathUnknown _ => "object path does not resolve"

def fields (text : ν → String) : Notice ν → List (String × String)
  | reachedStop child => [("child", text child)]
  | subtreeSkipped child maxDepth => [("child", text child), ("max_depth", toString maxDepth)]
  | descentStopped node maxDepth => [("node", text node), ("max_depth", toString maxDepth)]
  | ascentStopped maxDepth | enclosureGivenUp maxDepth => [("max_depth", toString maxDepth)]
  | ranOutOfAncestors node => [("node", text node)]
  | sweepOutside anchor | anchorOutside anchor | anchorStale anchor
  | anchorWithoutParent anchor => [("anchor", text anchor)]
  | sortUnsupported sort => [("sort", sort.label)]
  | finished count => [("matches", toString count)]
  | pathUnknown path => [("path", path)]

end Notice

namespace Change

def message : Change ν → String
  | registered .. => "registered object"
  | destroying .. => "destroying object tree"
  | reparented .. => "reparented object"

def fields (text : ν → String) : Change ν → List (String × String)
  | registered node role => [("id", text node), ("role", role.name)]
  | destroying node descendants => [("id", text node), ("descendant_count", toString descendants)]
  | reparented child parent index =>
    [("child", text child), ("parent", text parent), ("index", toString index)]

end Change

namespace Event

def level : Event ν → Level
  | change _ => .trace
  | notice n => n.level

/-- The line of an event, with handles shown by `text`. -/
def line (text : ν → String) : Event ν → Line
  | change c => ⟨.trace, "horizon_atspi_core::registry", c.message, c.fields text⟩
  | notice n => ⟨n.level, n.target, n.message, n.fields text⟩

end Event

end AccessTree
