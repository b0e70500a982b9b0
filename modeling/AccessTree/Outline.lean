import AccessTree.Search

/-!
Outlines: a tree drawn as text, one line for each object. A line begins with a column for each
level above its object and ends with the object's label.
-/

namespace AccessTree

inductive Outline.Style where
  | ascii | unicode | compact
  deriving DecidableEq

/-- What an outline shows and how it is drawn. -/
structure Outline where
  style : Outline.Style := .unicode
  showIds : Bool := true
  showRoles : Bool := true
  showStates : Bool := false
  maxDepth? : Option Nat := none
  indentSize : Nat := 2

namespace Outline

def detailed : Outline := { showStates := true }

def minimal : Outline := { showIds := false, showRoles := false }

/-- The line of a level with more to come, and the signs for an object that has a younger sibling
and for one that has none. -/
structure Glyphs where
  branch : String
  tee : String
  corner : String

def Style.glyphs : Style → Glyphs
  | ascii => ⟨"|", "+-- ", "\x60-- "⟩
  | unicode => ⟨"\u2502", "\u251c\u2500\u2500 ", "\u2514\u2500\u2500 "⟩
  | compact => ⟨"", "", ""⟩

variable (o : Outline)

def indent : String := String.ofList (List.replicate o.indentSize ' ')

/-- The column of one level. -/
def column (more : Bool) : String := (if more then o.style.glyphs.branch else " ") ++ o.indent

/-- What stands before a label. For each level above the object, from the root's on, `levels`
tells whether more is to come there; the root's own level has no column. -/
def lead (levels : List Bool) (isLast : Bool) : String :=
  match levels with
  | [] => ""
  | _ :: inner =>
    String.join (inner.map o.column) ++
      if o.style = .compact then o.indent
      else if isLast then o.style.glyphs.corner
      else o.style.glyphs.tee

variable {σ ν : Type} (t : LiveTree σ ν) (text : ν → String)

/-- The name of an object and what else is shown of it. -/
def label (n : ν) : Inquiry σ ν String := do
  let name ← Inquiry.ask t (.name n)
  let role ← if o.showRoles then (" <" ++ ·.name ++ ">") <$> Inquiry.ask t (.role n) else pure ""
  let states ← if o.showStates then (" " ++ ·.text) <$> Inquiry.ask t (.states n) else pure ""
  return (if name.isEmpty then "(unnamed)" else name) ++ role ++
    (if o.showIds then " [" ++ text n ++ "]" else "") ++ states

/-- The children at so many places from an index on. -/
def childrenFrom (n : ν) : Nat → Nat → Inquiry σ ν (List ν)
  | 0, _ => pure []
  | count + 1, index => do
    let child? ← Inquiry.ask t (.childAt n index)
    return child?.toList ++ (← childrenFrom n count (index + 1))

def children (n : ν) : Inquiry σ ν (List ν) := do
  childrenFrom t n (← Inquiry.ask t (.childCount n)) 0

/-- Drawing keeps the levels above the object at hand: for each, from the root's on, whether more
is to come there. -/
abbrev Drawing (σ ν : Type) := StateT (List Bool) (Search σ ν)

/-- The lines of an object and of what is below it. Its own level is added while its children are
drawn, and taken away again. The steps limit the depth, which the tree does not. -/
def linesFrom : Nat → Bool → ν → Drawing σ ν (List String)
  | 0, _, _ => failure
  | steps + 1, isLast, n => do
    let levels ← get
    if o.maxDepth?.any (· < levels.length) then pure []
    else do
      let label ← OptionT.lift (o.label t text n)
      let kids ← OptionT.lift (children t n)
      modify (· ++ [!levels.isEmpty && !isLast])
      let below ← kids.zipIdx.mapM fun (child, i) => linesFrom steps (i + 1 == kids.length) child
      modify List.dropLast
      return (o.lead levels isLast ++ label ++ "\n") :: below.flatten

def draw (steps : Nat) (root : ν) : Search σ ν String :=
  String.join <$> (o.linesFrom t text steps true root).run' []

end Outline

end AccessTree
