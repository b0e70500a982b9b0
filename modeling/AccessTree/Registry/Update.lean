import AccessTree.Logged
import AccessTree.Registry.Basic
import AccessTree.Change

/-!
The operations that change a registry. A parent's list of children and a child's parent are kept
in step, and an operation that fails leaves the registry as it was.
-/

namespace AccessTree.Registry

/-- A change of a registry that may fail. The registry at the time of a failure is kept, so that
a failing change can be seen to change nothing. -/
abbrev Update := EStateM Error (Logged Registry (Change ObjectId))

def current : Update Registry := (·.state) <$> get

def report (c : Change ObjectId) : Update Unit := modify (·.report c)

def modifyObjects (f : Arena Entry → Arena Entry) : Update Unit :=
  modify fun s => { s with state := ⟨f s.state.objects⟩ }

def modifyEntry (i : ObjectId) (f : Entry → Entry) : Update Unit :=
  modifyObjects fun objects => objects.modify i f

def check {α : Type} (x : Except Error α) : Update α :=
  match x with
  | .error e => throw e
  | .ok a => pure a

/-- Puts a new object without a parent into the registry. -/
def register (d : ObjectData) : Update ObjectId := do
  let i ← modifyGet fun s =>
    let (i, objects) := s.state.objects.insert { data := d }
    (i, { s with state := ⟨objects⟩ })
  report (.registered i d.role)
  return i

/-- Takes an object out of its parent's children. -/
def detach (i : ObjectId) : Update Unit := do
  let r ← current
  match (r.objects.get? i).bind (·.parent?) with
  | none => pure ()
  | some p =>
    modifyEntry i fun e => { e with parent? := none }
    modifyEntry p fun e => { e with children := e.children.filter (· != i) }

/-- Moves an object to a place among the other children of a parent. -/
def insertChild (parent : ObjectId) (index : Nat) (child : ObjectId) : Update Unit := do
  let r ← current
  if !r.contains child then throw .invalidObjectId
  let p ← check (r.entry parent)
  if r.isAncestor child parent then throw .circularParentage
  let count := p.children.countP (· != child)
  if count < index then throw (.childIndexOutOfRange index count)
  detach child
  modifyEntry parent fun e => { e with children := e.children.insertIdx index child }
  modifyEntry child fun e => { e with parent? := some parent }
  report (.reparented child parent index)

/-- Makes an object the last child of a parent, or a root. -/
def setParent (i : ObjectId) (parent? : Option ObjectId) : Update Unit := do
  let r ← current
  match parent? with
  | some parent =>
    let siblings ← check (r.children parent)
    insertChild parent (siblings.countP (· != i)) i
  | none =>
    if !r.contains i then throw .invalidObjectId
    detach i

/-- Puts a new object into the registry as the last child of a parent. -/
def registerChild (parent : ObjectId) (d : ObjectData) : Update ObjectId := do
  let r ← current
  if !r.contains parent then throw .invalidObjectId
  let i ← register d
  setParent i (some parent)
  return i

/-- Takes an object and all below it out of the registry. -/
def destroy (i : ObjectId) : Update Unit := do
  let r ← current
  let below ← check (r.below i)
  report (.destroying i below.length)
  detach i
  below.forM fun j => modifyObjects (·.erase j)
  modifyObjects (·.erase i)

def setData (i : ObjectId) (f : ObjectData → ObjectData) : Update Unit := do
  let r ← current
  if !r.contains i then throw .invalidObjectId
  modifyEntry i fun e => { e with data := f e.data }

/-! ### Changes as data -/

inductive Edit where
  | register (d : ObjectData)
  | registerChild (parent : ObjectId) (d : ObjectData)
  | destroy (i : ObjectId)
  | setParent (i : ObjectId) (parent? : Option ObjectId)
  | insertChild (parent : ObjectId) (index : Nat) (child : ObjectId)
  | setName (i : ObjectId) (name : String)
  | setRole (i : ObjectId) (role : Role)
  | setStates (i : ObjectId) (states : StateSet)
  | setState (i : ObjectId) (state : State) (on : Bool)
  | setAttributes (i : ObjectId) (attributes : List Attribute)
  | setInterfaces (i : ObjectId) (interfaces : InterfaceSet)
  | setData (i : ObjectId) (d : ObjectData)

def Edit.silent (u : Update Unit) : Update (Option ObjectId) := do
  u
  return none

/-- Carries an edit out, and answers with the handle of the object that it made. -/
def Edit.run : Edit → Update (Option ObjectId)
  | register d => some <$> Registry.register d
  | registerChild parent d => some <$> Registry.registerChild parent d
  | destroy i => silent (Registry.destroy i)
  | setParent i parent? => silent (Registry.setParent i parent?)
  | insertChild parent index child => silent (Registry.insertChild parent index child)
  | setName i name => silent (Registry.setData i ({ · with name }))
  | setRole i role => silent (Registry.setData i ({ · with role }))
  | setStates i states => silent (Registry.setData i ({ · with states }))
  | setState i x on => silent <| Registry.setData i fun d =>
      { d with states := if on then d.states.insert x else d.states.erase x }
  | setAttributes i attributes => silent (Registry.setData i ({ · with attributes }))
  | setInterfaces i interfaces => silent (Registry.setData i ({ · with interfaces }))
  | setData i d => silent <| Registry.setData i fun _ => d

/-- The outcome of an edit, the registry after it and what was reported. -/
def apply (r : Registry) (e : Edit) :
    Except Error (Option ObjectId) × Logged Registry (Change ObjectId) :=
  match e.run ⟨r, #[]⟩ with
  | .ok made s => (.ok made, s)
  | .error err s => (.error err, s)

end AccessTree.Registry
