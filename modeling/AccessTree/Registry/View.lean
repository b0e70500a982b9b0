import AccessTree.Registry.Basic
import AccessTree.Tree

/-!
A registry as a tree to be asked. Handles whose object is gone never fail; they are answered for
like an absent object.
-/

namespace AccessTree.Registry

def Entry.answer (r : Registry) (e : Entry) : (q : Question ObjectId) → q.Answer
  | .parent _ => e.parent?
  | .childCount _ => e.children.length
  | .childAt _ index => e.children[index]?
  | .indexInParent i => e.parent?.bind (r.place? · i)
  | .role _ => e.data.role
  | .states _ => e.data.states
  | .attributes _ => e.data.attributes
  | .implements _ i => e.data.interfaces.contains i
  | .isValid _ => true
  | .isCollection _ => true
  | .name _ => e.data.name

def tree (r : Registry) : Tree ObjectId := fun q =>
  match r.objects.get? q.node with
  | none => q.absent
  | some e => e.answer r q

end AccessTree.Registry
