import AccessTree.Attribute
import AccessTree.Interface
import AccessTree.Role
import AccessTree.State.Set

/-!
Trees of accessible objects, seen from outside. A tree belongs to an application and is known
only by its answers to questions, so nothing makes the answers agree with each other: a child
need not name its parent, and links may run in circles.
-/

namespace AccessTree

/-- What can be asked of a tree whose objects are known by handles of type `ν`. -/
inductive Question (ν : Type) where
  | parent (n : ν)
  | childCount (n : ν)
  | childAt (n : ν) (index : Nat)
  | indexInParent (n : ν)
  | role (n : ν)
  | states (n : ν)
  | attributes (n : ν)
  | implements (n : ν) (i : Interface)
  | isValid (n : ν)
  /-- Whether the object is a collection of its own, which some walks do not enter. -/
  | isCollection (n : ν)
  | name (n : ν)
  deriving DecidableEq

namespace Question

variable {ν : Type}

abbrev Answer : Question ν → Type
  | parent _ => Option ν
  | childCount _ => Nat
  | childAt _ _ => Option ν
  | indexInParent _ => Option Nat
  | role _ => Role
  | states _ => StateSet
  | attributes _ => List Attribute
  | implements _ _ => Bool
  | isValid _ => Bool
  | isCollection _ => Bool
  | name _ => String

/-- The object that is asked about. -/
def node : Question ν → ν
  | parent n | childCount n | childAt n _ | indexInParent n | role n | states n | attributes n
  | implements n _ | isValid n | isCollection n | name n => n

/-- What is said of an object that is gone: nothing is below or above it, and it is defunct. -/
def absent : (q : Question ν) → q.Answer
  | parent _ => none
  | childCount _ => (0 : Nat)
  | childAt _ _ => none
  | indexInParent _ => none
  | role _ => Role.invalid
  | states _ => StateSet.defunct
  | attributes _ => ([] : List Attribute)
  | implements _ _ => false
  | isValid _ => false
  | isCollection _ => true
  | name _ => ""

end Question

/-- A tree at rest: the same question always has the same answer. -/
abbrev Tree (ν : Type) := (q : Question ν) → q.Answer

end AccessTree
