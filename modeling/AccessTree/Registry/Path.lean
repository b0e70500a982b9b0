import AccessTree.Registry.Basic
import AccessTree.Text.Decimal
import AccessTree.Text.Split

/-!
Paths: the names by which objects are known on the bus. A path ends in the number of its handle,
and one more path stands for the first root, whichever object that is.
-/

namespace AccessTree.Registry

def pathHead : String := "/org/a11y/atspi/accessible/"

def rootPath : String := "/org/a11y/atspi/accessible/root"

def pathOf (i : ObjectId) : String := pathHead ++ toString i.raw.toNat

/-- The handle whose number ends a path, whether or not it is in use. -/
def handleOfPath? (path : String) : Option ObjectId := do
  let digits ← Text.after? pathHead.toList path.toList
  return .ofRaw (← Text.word64? digits)

/-- The object that a path names at present. -/
def resolve (r : Registry) (path : String) : Option ObjectId :=
  if path = rootPath then r.roots.head?
  else (handleOfPath? path).filter r.contains

end AccessTree.Registry
