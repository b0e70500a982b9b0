import Mathlib.Data.List.Basic
import AccessTree.Walk.Sweep
import AccessTree.Walk.Backward

/-!
Steps of walks, as equations: what a visit does to the state of a walk, and how a walk forward
goes on from one child to the next. Where a walk goes does not depend on what it looks for.
-/

namespace AccessTree

variable {σ ν α β : Type}

namespace WalkM

lemma bind_apply (x : WalkM σ ν α) (f : α → WalkM σ ν β) (k : Walk σ ν) : (x >>= f) k =
    match x k with
    | .ok a k => f a k
    | .error e k => .error e k := by
  change EStateM.bind x f k = _
  unfold EStateM.bind
  cases x k <;> rfl

end WalkM

namespace Walker

variable (w : Walker σ ν)

lemma checkLimit_apply (k : Walk σ ν) :
    w.checkLimit k = if w.isFull k.found then .error .broken k else .ok () k := by
  change (if w.isFull k.found then throw .broken else pure () : WalkM σ ν Unit) k = _
  split <;> rfl

/-- The child at a place, where the container has as many children when it is asked. -/
def nextChild (container : ν) (index : Nat) : Inquiry σ ν (Option ν) := do
  let count ← w.ask (.childCount container)
  if index < count then w.ask (.childAt container index) else pure none

variable [DecidableEq ν]

lemma visit_apply (n : ν) (k : Walk σ ν) : w.visit n k =
    if w.isFull k.found then .error .broken k
    else if n = w.anchor then .ok () k
    else
      match w.accepts n k.asked with
      | (false, asked) => .ok () { k with asked }
      | (true, asked) => w.checkLimit { k with asked, found := k.found.push n } := by
  unfold visit
  rw [WalkM.bind_apply, checkLimit_apply]
  by_cases hfull : w.isFull k.found = true
  · rw [if_pos hfull, if_pos hfull]
  rw [if_neg hfull, if_neg hfull]
  by_cases hn : n = w.anchor
  · rw [if_pos hn, if_neg (not_not_intro hn)]
    rfl
  rw [if_neg hn, if_pos hn]
  change (if (w.accepts n k.asked).1 = true then WalkM.keep n >>= fun _ => w.checkLimit
    else pure () : WalkM σ ν Unit) { k with asked := (w.accepts n k.asked).2 } = _
  rcases w.accepts n k.asked with ⟨_ | _, asked⟩ <;> rfl

/-- What a walk forward does at a child, for the walks below it and after it. -/
def atChild (depth : Nat) (child : ν) (below after : WalkM σ ν Unit) : WalkM σ ν Unit := do
  if ← WalkM.isStop child then
    w.note (.reachedStop child)
    throw .broken
  w.visit child
  if ← w.enters child then
    if w.maxDepth ≤ depth then w.note (.subtreeSkipped child w.maxDepth) else below
  after

lemma forwardFrom_succ (steps depth : Nat) (container : ν) (index : Nat) :
    w.forwardFrom (steps + 1) depth container index = (do
      match ← w.nextChild container index with
      | none => pure ()
      | some child =>
        w.atChild depth child (w.forwardFrom steps (depth + 1) child 0)
          (w.forwardFrom steps depth container (index + 1))) := by
  -- The two questions about a child are asked as one inquiry.
  have lift : ∀ {α β γ : Type} (x : Inquiry σ ν α) (g : α → Inquiry σ ν β)
      (h : β → WalkM σ ν γ), (liftM (x >>= g) >>= h : WalkM σ ν γ) =
        liftM x >>= fun a => liftM (g a) >>= h := fun _ _ _ => rfl
  rw [forwardFrom, nextChild, lift]
  refine bind_congr fun count => ?_
  by_cases hi : index < count
  · rw [if_pos hi, if_pos hi]
    refine bind_congr fun child? => ?_
    cases child? <;> rfl
  · rw [if_neg hi, if_neg hi]
    rfl

/-! ### Walkers that look for something else -/

variable (rule : Rule) (settings : Settings) (limit : Nat)

lemma climb_update (collection : ν) (levels : Nat) (n : ν) :
    ({ w with rule, settings, limit } : Walker σ ν).climb collection levels n =
      w.climb collection levels n := by
  induction levels generalizing n with
  | zero => rfl
  | succ levels ih =>
    unfold climb
    split
    · rfl
    · refine bind_congr fun parent? => ?_
      cases parent? with
      | none => rfl
      | some p => exact ih p

lemma encloses_update (collection n : ν) :
    ({ w with rule, settings, limit } : Walker σ ν).encloses collection n =
      w.encloses collection n :=
  w.climb_update rule settings limit collection (w.maxDepth + 1) n

omit [DecidableEq ν] in
lemma lastBelow_update (levels : Nat) (n : ν) :
    ({ w with rule, settings, limit } : Walker σ ν).lastBelow levels n = w.lastBelow levels n := by
  induction levels generalizing n with
  | zero => rfl
  | succ levels ih =>
    refine bind_congr fun enters => ?_
    cases enters with
    | false => rfl
    | true =>
      rw [if_pos rfl, if_pos rfl]
      refine bind_congr fun count => ?_
      by_cases hcount : count = 0
      · rw [if_pos hcount, if_pos hcount]
      · rw [if_neg hcount, if_neg hcount]
        refine bind_congr fun child? => ?_
        cases child? with
        | none => rfl
        | some child => exact ih child

omit [DecidableEq ν] in
lemma previous_update (n : ν) :
    ({ w with rule, settings, limit } : Walker σ ν).previous n = w.previous n := by
  unfold previous
  refine bind_congr fun parent? => ?_
  cases parent? with
  | none => rfl
  | some parent =>
    refine bind_congr fun index? => ?_
    rcases index? with _ | _ | index
    · rfl
    · rfl
    · refine bind_congr fun sibling? => ?_
      cases sibling? with
      | none => rfl
      | some sibling =>
        exact congrArg (some <$> ·) (w.lastBelow_update rule settings limit w.maxDepth sibling)

end Walker

end AccessTree
