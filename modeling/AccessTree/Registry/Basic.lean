import AccessTree.Arena
import AccessTree.Attribute
import AccessTree.Interface.Set
import AccessTree.Role
import AccessTree.State.Set

/-!
A registry of accessible objects. Each object has its data, its parent and the list of its
children; objects without a parent are the roots of a forest.
-/

namespace AccessTree

structure ObjectData where
  name : String := ""
  role : Role := .invalid
  states : StateSet := .empty
  attributes : List Attribute := []
  interfaces : InterfaceSet := .empty

structure Registry.Entry where
  data : ObjectData
  parent? : Option ObjectId := none
  children : List ObjectId := []

structure Registry where
  objects : Arena Registry.Entry := .empty

namespace Registry

inductive Error where
  /-- The handle names no object, or one that is gone. -/
  | invalidObjectId
  | circularParentage
  | childIndexOutOfRange (index count : Nat)
  deriving DecidableEq

def Error.message : Error → String
  | invalidObjectId => "Invalid or destroyed object ID"
  | circularParentage => "Cannot set an object as its own parent or ancestor"
  | childIndexOutOfRange index count =>
    "Child index " ++ toString index ++ " out of range for a parent with " ++ toString count ++
      " children"

def empty : Registry := {}

def contains (r : Registry) (i : ObjectId) : Bool := r.objects.contains i

def size (r : Registry) : Nat := r.objects.size

def entry (r : Registry) (i : ObjectId) : Except Error Entry :=
  match r.objects.get? i with
  | none => .error .invalidObjectId
  | some e => .ok e

def parent (r : Registry) (i : ObjectId) : Except Error (Option ObjectId) :=
  (·.parent?) <$> r.entry i

def children (r : Registry) (i : ObjectId) : Except Error (List ObjectId) :=
  (·.children) <$> r.entry i

def data (r : Registry) (i : ObjectId) : Except Error ObjectData :=
  (·.data) <$> r.entry i

/-- The place of an object with a known parent among the parent's children. -/
def place? (r : Registry) (parent i : ObjectId) : Option Nat :=
  (r.objects.get? parent).bind fun p => p.children.idxOf? i

def siblingIndex (r : Registry) (i : ObjectId) : Except Error (Option Nat) :=
  (fun e => e.parent?.bind (r.place? · i)) <$> r.entry i

/-- The objects without a parent, by cell number. -/
def roots (r : Registry) : List ObjectId :=
  (r.objects.toList.filter fun (_, e) => e.parent?.isNone).map (·.1)

/-- Lists the objects on the stack, each followed by those below it. An object is listed once, so
as many steps as there are objects are enough. -/
def preorderFrom (r : Registry) : Nat → List ObjectId → Except Error (List ObjectId)
  | _, [] => .ok []
  | 0, _ :: _ => .ok []
  | steps + 1, i :: stack => do
    let e ← r.entry i
    return i :: (← r.preorderFrom steps (e.children ++ stack))

/-- An object and the objects below it in document order. -/
def preorder (r : Registry) (i : ObjectId) : Except Error (List ObjectId) :=
  r.preorderFrom r.objects.bound [i]

/-- Empties the stack from its end, putting the children of what is taken there. -/
def belowFrom (r : Registry) : Nat → List ObjectId → List ObjectId
  | _, [] => []
  | 0, _ :: _ => []
  | steps + 1, i :: stack =>
    let kids := match r.objects.get? i with
      | none => []
      | some e => e.children
    i :: r.belowFrom steps (kids.reverse ++ stack)

/-- The objects below an object, the last child and what is below it first. -/
def below (r : Registry) (i : ObjectId) : Except Error (List ObjectId) := do
  let e ← r.entry i
  return r.belowFrom r.objects.bound e.children.reverse

/-- Climbs from an object and tells whether another one is met. -/
def climbs (r : Registry) (goal : ObjectId) : Nat → ObjectId → Bool
  | 0, _ => false
  | steps + 1, i =>
    i = goal ||
      match (r.objects.get? i).bind (·.parent?) with
      | none => false
      | some p => r.climbs goal steps p

/-- An object is its own ancestor here. -/
def isAncestor (r : Registry) (a i : ObjectId) : Bool := r.climbs a r.objects.bound i

end Registry

end AccessTree
