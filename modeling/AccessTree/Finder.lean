import AccessTree.Query
import AccessTree.Search
import AccessTree.Walk.Backward
import AccessTree.Walk.Sweep

/-!
Answering queries. A finder chooses the walk for a query, cuts it off at the limit and puts what
it found into the order asked for. A search back finds the nearest object first, so there the
forward order is the one that is turned round.
-/

namespace AccessTree

structure Finder (σ ν : Type) where
  tree : LiveTree σ ν
  settings : Settings := {}
  /-- How many steps a walk may take. -/
  steps : Nat

variable {σ ν : Type}

namespace Search

/-- What a walk finds, whether it comes to its end or is broken off. -/
def collect (stop : Option ν) (x : WalkM σ ν Unit) : Search σ ν (List ν) := fun asked =>
  match x { asked, stop } with
  | .ok _ w | .error .broken w => (some w.found.toList, w.asked)
  | .error .exhausted w => (none, w.asked)

def finish (reverse : Bool) (found : List ν) : Search σ ν (List ν) := do
  note (.finished found.length)
  return if reverse then found.reverse else found

end Search

open Search

namespace Finder

variable [DecidableEq ν] (f : Finder σ ν)

def walker (rule : Rule) (anchor : ν) (limit : Nat) (traverse : Bool) : Walker σ ν where
  tree := f.tree
  rule := rule
  settings := f.settings
  anchor := anchor
  limit := f.settings.limit limit
  maxDepth := f.settings.maxDepth
  traverse := traverse

/-- Goes on with whether the results are to be reversed, where the order can be given. -/
def sorted (sort : SortOrder) (x : Bool → Search σ ν (List ν)) : Search σ ν (List ν) :=
  match sort.reversed? with
  | some reversed => x reversed
  | none => do
    note (.sortUnsupported sort)
    return []

/-- The objects of a whole collection. -/
def findAll (collection : ν) (rule : Rule) (sort : SortOrder) (limit : Nat) (traverse : Bool) :
    Search σ ν (List ν) :=
  sorted sort fun reversed => do
    let w := f.walker rule collection limit traverse
    finish reversed (← collect none (w.forward f.steps collection 0))

/-- The objects after the anchor. A sweep always enters collections, and the siblings of the
collection itself lie outside it. -/
def findOnward (q : Query ν) : Search σ ν (List ν) := do
  let w := f.walker q.rule q.anchor q.limit (q.traverse || q.scope == .inorder)
  match q.scope with
  | .children => collect none (w.forward f.steps q.anchor 0)
  | .inorder => collect none (w.sweep f.steps q.collection q.anchor)
  | .siblings =>
    if q.anchor = q.collection then pure []
    else
      let parent? ← ask f.tree (.parent q.anchor)
      let index? ← ask f.tree (.indexInParent q.anchor)
      match parent?, index? with
      -- The anchor's own place is the first, so what is below the anchor is searched too.
      | some parent, some index => collect none (w.forward f.steps parent index)
      | _, _ =>
        note (.anchorWithoutParent q.anchor)
        pure []

/-- The objects before the anchor, down to the collection or to the anchor's parent. -/
def findBack (q : Query ν) : Search σ ν (List ν) := do
  let w := f.walker q.rule q.anchor q.limit (q.traverse || q.scope == .inorder)
  if q.scope ≠ .inorder ∧ q.recurse ∧ q.anchor ≠ q.collection then
    match ← ask f.tree (.parent q.anchor) with
    | some parent => collect (some parent) (w.backward f.steps q.anchor)
    | none =>
      note (.anchorWithoutParent q.anchor)
      pure []
  else collect (some q.collection) (w.backward f.steps q.anchor)

/-- Answers a query. Its anchor has to be there and to lie in the collection. -/
def find (q : Query ν) : Search σ ν (List ν) :=
  sorted q.sort fun reversed => do
    if ← ask f.tree (.isValid q.anchor) then
      let w := f.walker q.rule q.anchor q.limit true
      if ← OptionT.lift (w.encloses q.collection q.anchor) then
        match q.direction with
        | .onward => finish reversed (← f.findOnward q)
        | .back => finish (!reversed) (← f.findBack q)
      else
        note (.anchorOutside q.anchor)
        return []
    else
      note (.anchorStale q.anchor)
      return []

end Finder

end AccessTree
