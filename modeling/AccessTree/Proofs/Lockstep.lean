import AccessTree.Finder
import AccessTree.Proofs.WalkSteps

/-!
Walks in lockstep. What holds between the single steps of two walkers, and does not get lost when
steps are put together, holds between their whole walks, however these go, and between the
searches that take these walks.
-/

namespace AccessTree

namespace Walker

open WalkM

variable {σ ν : Type} [DecidableEq ν]

/-- Each step of the first walker is in the relation to the same step of the second one. Where the
first one is out of steps, it does not matter what the second one does, nor where the first one
warns that it is as deep as it may be and the second one may go deeper. -/
structure Lockstep (v : Walker σ ν) (R : (α : Type) → WalkM σ ν α → WalkM σ ν α → Prop)
    (w : Walker σ ν) : Prop where
  maxDepth : v.maxDepth ≤ w.maxDepth
  tooDeep : v.maxDepth < w.maxDepth → ∀ {α : Type} {m : Notice ν}, m.level = .warn →
    ∀ {x x' : WalkM σ ν α} (y : WalkM σ ν α), R α x x' → R α (liftM (v.note m) >>= fun _ => x) y
  answer : ∀ {α : Type} (a : α), R α (pure a) (pure a)
  next : ∀ {α β : Type} {x y : WalkM σ ν α} {f g : α → WalkM σ ν β},
    R α x y → (∀ a, R β (f a) (g a)) → R β (x >>= f) (y >>= g)
  broken : R Unit (throw .broken) (throw .broken)
  exhausted : ∀ x, R Unit (throw .exhausted) x
  stopAt : ∀ stop, R Unit (stopAt stop) (stopAt stop)
  isStop : ∀ n, R Bool (isStop n) (isStop n)
  visit : ∀ n, R Unit (v.visit n) (w.visit n)
  note : ∀ m, R Unit (liftM (v.note m)) (liftM (w.note m))
  parent : ∀ n, R (Option ν) (liftM (v.ask (.parent n))) (liftM (w.ask (.parent n)))
  indexInParent : ∀ n,
    R (Option Nat) (liftM (v.ask (.indexInParent n))) (liftM (w.ask (.indexInParent n)))
  enters : ∀ n, R Bool (liftM (v.enters n)) (liftM (w.enters n))
  nextChild : ∀ n index,
    R (Option ν) (liftM (v.nextChild n index)) (liftM (w.nextChild n index))
  encloses : ∀ collection n,
    R Bool (liftM (v.encloses collection n)) (liftM (w.encloses collection n))
  previous : ∀ n, R (Option ν) (liftM (v.previous n)) (liftM (w.previous n))

namespace Lockstep

variable {R : (α : Type) → WalkM σ ν α → WalkM σ ν α → Prop} {v w : Walker σ ν}
  (h : v.Lockstep R w)
include h

lemma atChild {depth : Nat} {child : ν} {below after below' after' : WalkM σ ν Unit}
    (hbelow : R Unit below below') (hafter : R Unit after after') :
    R Unit (v.atChild depth child below after) (w.atChild depth child below' after') := by
  refine h.next (h.isStop child) fun stopped => ?_
  cases stopped
  · refine h.next (h.visit child) fun _ => h.next (h.enters child) fun enters => ?_
    cases enters
    · exact hafter
    · rw [if_pos rfl, if_pos rfl]
      by_cases hdeep : v.maxDepth ≤ depth
      · -- Here the first walker turns back, while the second one may still go down.
        rw [if_pos hdeep]
        rcases Nat.lt_or_eq_of_le h.maxDepth with hlt | heq
        · exact h.tooDeep hlt rfl _ hafter
        · rw [if_pos (heq ▸ hdeep), heq]
          exact h.next (h.note _) fun _ => hafter
      · have := h.maxDepth
        rw [if_neg hdeep, if_neg (by omega)]
        exact h.next hbelow fun _ => hafter
  · exact h.next (h.note _) fun _ => h.broken

lemma forwardFrom {steps steps' : Nat} (hs : steps ≤ steps') (depth : Nat) (container : ν)
    (index : Nat) : R Unit (v.forwardFrom steps depth container index)
      (w.forwardFrom steps' depth container index) := by
  induction steps generalizing steps' depth container index with
  | zero => exact h.exhausted _
  | succ steps ih =>
    obtain ⟨steps', rfl⟩ := Nat.exists_eq_succ_of_ne_zero (by omega : steps' ≠ 0)
    replace ih := fun depth container index => ih (by omega : steps ≤ steps') depth container index
    rw [forwardFrom_succ, forwardFrom_succ]
    refine h.next (h.nextChild container index) fun child? => ?_
    cases child? with
    | none => exact h.answer ()
    | some child => exact h.atChild (ih _ _ _) (ih _ _ _)

theorem forward {steps steps' : Nat} (hs : steps ≤ steps') (container : ν) (start : Nat) :
    R Unit (v.forward steps container start) (w.forward steps' container start) :=
  h.forwardFrom hs 0 container start

/-- The second climb may have as many levels more left as the second walker may go deeper. -/
lemma ascend {steps steps' : Nat} (hs : steps ≤ steps') (collection : ν) {levels levels' : Nat}
    (hl : levels + w.maxDepth = levels' + v.maxDepth) (n : ν) :
    R Bool (v.ascend steps collection levels n) (w.ascend steps' collection levels' n) := by
  induction levels generalizing levels' n with
  | zero =>
    unfold Walker.ascend
    split
    · exact h.answer true
    · refine h.next (h.parent n) fun parent? => h.next (h.indexInParent n) fun index? => ?_
      split
      · -- The first climb has no level left. Either has the second none, or it is the deeper one.
        rcases levels' with _ | levels'
        · rw [show v.maxDepth = w.maxDepth by omega]
          exact h.next (h.note _) fun _ => h.answer false
        · exact h.tooDeep (by omega) rfl _ (h.answer false)
      · exact h.next (h.note _) fun _ => h.answer false
  | succ levels ih =>
    have := h.maxDepth
    obtain ⟨levels', rfl⟩ := Nat.exists_eq_succ_of_ne_zero (by omega : levels' ≠ 0)
    unfold Walker.ascend
    split
    · exact h.answer true
    · refine h.next (h.parent n) fun parent? => h.next (h.indexInParent n) fun index? => ?_
      split
      · exact h.next (h.forward hs _ _) fun _ => ih (by omega) _
      · exact h.next (h.note _) fun _ => h.answer false

theorem sweep {steps steps' : Nat} (hs : steps ≤ steps') (collection anchor : ν) :
    R Unit (v.sweep steps collection anchor) (w.sweep steps' collection anchor) := by
  unfold Walker.sweep
  refine h.next (h.encloses collection anchor) fun inside => ?_
  cases inside
  · exact h.note _
  · refine h.next (h.stopAt none) fun _ => h.next (h.forward hs anchor 0) fun _ => ?_
    refine h.next (h.ascend hs collection (Nat.add_comm _ _) anchor) fun reached => ?_
    split
    · exact h.next (h.stopAt _) fun _ => h.forward hs collection 0
    · exact h.answer ()

theorem backward {steps steps' : Nat} (hs : steps ≤ steps') (n : ν) :
    R Unit (v.backward steps n) (w.backward steps' n) := by
  induction steps generalizing steps' n with
  | zero => exact h.exhausted _
  | succ steps ih =>
    obtain ⟨steps', rfl⟩ := Nat.exists_eq_succ_of_ne_zero (by omega : steps' ≠ 0)
    unfold Walker.backward
    refine h.next (h.isStop n) fun stopped => ?_
    cases stopped
    · refine h.next (h.visit n) fun _ => h.next (h.previous n) fun previous? => ?_
      cases previous? with
      | none => exact h.answer ()
      | some n => exact ih (by omega) n
    · exact h.answer ()

end Lockstep

end Walker

/-! ### Searches -/

open Search

namespace Finder

variable {σ ν : Type} [DecidableEq ν]

/-- Each step of a search by the first finder is in a relation to the same step by the second one,
and so is each step of their walkers. -/
structure Lockstep (f : Finder σ ν) (R : (α : Type) → WalkM σ ν α → WalkM σ ν α → Prop)
    (S : (α : Type) → Search σ ν α → Search σ ν α → Prop) (g : Finder σ ν) : Prop where
  steps : f.steps ≤ g.steps
  walker : ∀ rule anchor limit traverse, (f.walker rule anchor limit traverse).Lockstep R
    (g.walker rule anchor limit traverse)
  answer : ∀ {α : Type} (a : α), S α (pure a) (pure a)
  next : ∀ {α β : Type} {x y : Search σ ν α} {p q : α → Search σ ν β},
    S α x y → (∀ a, S β (p a) (q a)) → S β (x >>= p) (y >>= q)
  note : ∀ m, S Unit (note m) (note m)
  ask : ∀ q, S q.Answer (ask f.tree q) (ask g.tree q)
  encloses : ∀ rule anchor limit collection n,
    S Bool (OptionT.lift ((f.walker rule anchor limit true).encloses collection n))
      (OptionT.lift ((g.walker rule anchor limit true).encloses collection n))
  collect : ∀ {x y : WalkM σ ν Unit} (stop : Option ν), R Unit x y →
    S (List ν) (collect stop x) (collect stop y)

namespace Lockstep

variable {R : (α : Type) → WalkM σ ν α → WalkM σ ν α → Prop}
  {S : (α : Type) → Search σ ν α → Search σ ν α → Prop} {f g : Finder σ ν}
  (h : f.Lockstep R S g)
include h

lemma finish (reverse : Bool) (l : List ν) : S (List ν) (finish reverse l) (finish reverse l) :=
  h.next (h.note _) fun _ => h.answer _

theorem findAll (collection : ν) (rule : Rule) (sort : SortOrder) (limit : Nat)
    (traverse : Bool) : S (List ν) (f.findAll collection rule sort limit traverse)
      (g.findAll collection rule sort limit traverse) := by
  unfold Finder.findAll sorted
  split
  · exact h.next (h.collect none ((h.walker _ _ _ _).forward h.steps collection 0)) fun l =>
      h.finish _ l
  · exact h.next (h.note _) fun _ => h.answer []

lemma findOnward (q : Query ν) : S (List ν) (f.findOnward q) (g.findOnward q) := by
  unfold Finder.findOnward
  dsimp only
  cases q.scope with
  | children => exact h.collect none ((h.walker _ _ _ _).forward h.steps _ _)
  | inorder => exact h.collect none ((h.walker _ _ _ _).sweep h.steps _ _)
  | siblings =>
    dsimp only
    split
    · exact h.answer []
    · refine h.next (h.ask _) fun parent? => h.next (h.ask _) fun index? => ?_
      split
      · exact h.collect none ((h.walker _ _ _ _).forward h.steps _ _)
      · exact h.next (h.note _) fun _ => h.answer []

lemma findBack (q : Query ν) : S (List ν) (f.findBack q) (g.findBack q) := by
  unfold Finder.findBack
  dsimp only
  split
  · refine h.next (h.ask _) fun parent? => ?_
    cases parent? with
    | none => exact h.next (h.note _) fun _ => h.answer []
    | some parent => exact h.collect _ ((h.walker _ _ _ _).backward h.steps _)
  · exact h.collect _ ((h.walker _ _ _ _).backward h.steps _)

theorem find (q : Query ν) : S (List ν) (f.find q) (g.find q) := by
  unfold Finder.find sorted
  split
  · refine h.next (h.ask _) fun valid => ?_
    cases valid
    · exact h.next (h.note _) fun _ => h.answer []
    refine h.next (h.encloses _ _ _ _ _) fun inside => ?_
    cases inside
    · exact h.next (h.note _) fun _ => h.answer []
    cases q.direction with
    | onward => exact h.next (h.findOnward q) fun l => h.finish _ l
    | back => exact h.next (h.findBack q) fun l => h.finish _ l
  · exact h.next (h.note _) fun _ => h.answer []

end Lockstep

end Finder

end AccessTree
