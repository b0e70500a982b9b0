import AccessTree.Proofs.Inquiries
import AccessTree.Proofs.WalkSteps

/-!
What the inquiries of walks hand on. A property of single questions and of notices that stays when
inquiries are put together belongs to all that a walk finds out on its way.
-/

namespace AccessTree.Inquiry.Closed

variable {σ ν : Type} {C : (α : Type) → Inquiry σ ν α → Prop} {w : Walker σ ν} (hC : Closed C)
  (hask : ∀ q : Question ν, C q.Answer (w.ask q))
include hC hask

lemma enters (n : ν) : C Bool (w.enters n) := by
  unfold Walker.enters
  split
  · exact hC.answer true
  · exact hC.map (hask _) _

lemma nextChild (n : ν) (index : Nat) : C (Option ν) (w.nextChild n index) := by
  refine hC.next (hask (.childCount n)) fun count => ?_
  split
  · exact hask (.childAt n index)
  · exact hC.answer none

variable (hnote : ∀ m : Notice ν, C Unit (w.note m))
include hnote

lemma lastBelow (levels : Nat) (n : ν) : C ν (w.lastBelow levels n) := by
  induction levels generalizing n with
  | zero =>
    unfold Walker.lastBelow
    refine hC.next (hC.enters hask n) fun enters => ?_
    split
    · refine hC.next (hask _) fun count => ?_
      split
      · exact hC.answer n
      · exact hC.next (hnote _) fun _ => hC.answer n
    · exact hC.answer n
  | succ levels ih =>
    unfold Walker.lastBelow
    refine hC.next (hC.enters hask n) fun enters => ?_
    split
    · refine hC.next (hask _) fun count => ?_
      split
      · exact hC.answer n
      · refine hC.next (hask _) fun child? => ?_
        cases child? with
        | none => exact hC.answer n
        | some child => exact ih child
    · exact hC.answer n

lemma previous (n : ν) : C (Option ν) (w.previous n) := by
  refine hC.next (hask _) fun parent? => ?_
  cases parent? with
  | none => exact hC.answer none
  | some parent =>
    refine hC.next (hask _) fun index? => ?_
    split
    · exact hC.answer _
    · exact hC.answer _
    · refine hC.next (hask _) fun sibling? => ?_
      cases sibling? with
      | none => exact hC.answer none
      | some sibling => exact hC.map (hC.lastBelow hask hnote _ sibling) _

lemma encloses [DecidableEq ν] (collection n : ν) : C Bool (w.encloses collection n) := by
  -- For all numbers of levels at once, since a climb uses one up at each parent.
  have climbs : ∀ levels n, C Bool (w.climb collection levels n) := by
    intro levels
    induction levels with
    | zero =>
      intro n
      unfold Walker.climb
      split
      · exact hC.answer true
      · exact hC.next (hnote _) fun _ => hC.answer false
    | succ levels ih =>
      intro n
      unfold Walker.climb
      split
      · exact hC.answer true
      · refine hC.next (hask _) fun parent? => ?_
        cases parent? with
        | none => exact hC.answer false
        | some p => exact ih p
  exact climbs _ n

end AccessTree.Inquiry.Closed
