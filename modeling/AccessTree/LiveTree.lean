import AccessTree.Event
import AccessTree.Logged
import AccessTree.Tree

/-!
Trees that live on while they are asked. An answer may depend on everything that was asked
before, and the tree may change with every question and report the change. A tree at rest is the
special case in which nothing is kept.
-/

namespace AccessTree

/-- An answer, the state of the tree after it and the changes that came before it. -/
structure Reply (σ ν α : Type) where
  answer : α
  state : σ
  changes : List (Change ν) := []

structure LiveTree (σ ν : Type) where
  reply : (q : Question ν) → σ → Reply σ ν q.Answer

variable {σ ν : Type}

namespace LiveTree

/-- A tree that only looks at its state. -/
def ofView (view : σ → Tree ν) : LiveTree σ ν := ⟨fun q s => ⟨view s q, s, []⟩⟩

/-- Some answers are given in place of the tree's own. -/
def override (t : LiveTree σ ν) (fixed : (q : Question ν) → σ → Option q.Answer) :
    LiveTree σ ν where
  reply q s :=
    match fixed q s with
    | some answer => ⟨answer, s, []⟩
    | none => t.reply q s

/-- Something happens to the state just before each question is answered. -/
def disturb (t : LiveTree σ ν) (before : Question ν → σ → σ × List (Change ν)) :
    LiveTree σ ν where
  reply q s :=
    let (s, changes) := before q s
    let r := t.reply q s
    { r with changes := changes ++ r.changes }

end LiveTree

/-- A tree at rest, asked like any other. -/
def Tree.atRest (t : Tree ν) : LiveTree Unit ν := .ofView fun _ => t

/-- Questions to a tree, with a log of what happens meanwhile. -/
abbrev Inquiry (σ ν : Type) := StateM (Logged σ (Event ν))

namespace Inquiry

def ask (t : LiveTree σ ν) (q : Question ν) : Inquiry σ ν q.Answer := fun s =>
  let r := t.reply q s.state
  (r.answer, ⟨r.state, r.changes.foldl (fun log c => log.push (.change c)) s.log⟩)

def note (n : Notice ν) : Inquiry σ ν Unit := modify (·.report (.notice n))

end Inquiry

end AccessTree
