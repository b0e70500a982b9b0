import Mathlib.Data.List.Basic
import AccessTree.Finder
import AccessTree.Proofs.Lockstep

/-!
More steps. A walk that comes to its end with the steps that it is allowed comes to the same end
with any more of them, and so does a search, whatever the tree does meanwhile.
-/

namespace AccessTree

variable {σ ν α β : Type}

namespace WalkM

/-- The second walk does what the first one does, unless that one runs out of steps. -/
def Extends (x y : WalkM σ ν α) : Prop := ∀ w, (∃ w', x w = .error .exhausted w') ∨ y w = x w

variable {x y : WalkM σ ν α} {f g : α → WalkM σ ν β}

lemma Extends.refl (x : WalkM σ ν α) : Extends x x := fun _ => Or.inr rfl

lemma extends_exhausted : Extends (throw .exhausted) x := fun w => Or.inl ⟨w, rfl⟩

lemma Extends.bind (h : Extends x y) (hf : ∀ a, Extends (f a) (g a)) :
    Extends (x >>= f) (y >>= g) := by
  intro w
  rw [bind_apply, bind_apply]
  rcases h w with ⟨w', hx⟩ | hy
  · rw [hx]
    exact Or.inl ⟨w', rfl⟩
  · rw [hy]
    cases x w with
    | ok a w' => exact hf a w'
    | error e w' => exact Or.inr rfl

end WalkM

open WalkM

namespace Walker

/-- With more steps a walker goes the same way. -/
lemma lockstep_extends [DecidableEq ν] (w : Walker σ ν) : w.Lockstep (fun _ => Extends) w where
  maxDepth := Nat.le_refl w.maxDepth
  tooDeep hlt := absurd hlt (Nat.lt_irrefl w.maxDepth)
  answer a := .refl (pure a)
  next h hf := h.bind hf
  broken := .refl _
  exhausted _ := extends_exhausted
  stopAt _ := .refl _
  isStop _ := .refl _
  visit _ := .refl _
  note _ := .refl _
  parent _ := .refl _
  indexInParent _ := .refl _
  enters _ := .refl _
  nextChild _ _ := .refl _
  encloses _ _ := .refl _
  previous _ := .refl _

end Walker

/-! ### Searches -/

namespace Search

/-- The second search answers as the first one does, unless that one gives no answer. -/
def Extends (x y : Search σ ν α) : Prop := ∀ asked, (x asked).1 = none ∨ y asked = x asked

variable {x y : Search σ ν α} {f g : α → Search σ ν β}

lemma bind_apply (asked : Logged σ (Event ν)) : (x >>= f) asked =
    match x asked with
    | (some a, s) => f a s
    | (none, s) => (none, s) := by
  change OptionT.bind x f asked = _
  unfold OptionT.bind OptionT.mk
  change StateT.bind x _ asked = _
  unfold StateT.bind
  rcases x asked with ⟨_ | a, s⟩ <;> rfl

lemma Extends.refl (x : Search σ ν α) : Extends x x := fun _ => Or.inr rfl

lemma Extends.bind (h : Extends x y) (hf : ∀ a, Extends (f a) (g a)) :
    Extends (x >>= f) (y >>= g) := by
  intro asked
  rw [bind_apply, bind_apply]
  rcases h asked with hx | hy
  · rcases hxs : x asked with ⟨_ | a, s⟩
    · exact Or.inl rfl
    · rw [hxs] at hx
      cases hx
  · rw [hy]
    rcases x asked with ⟨_ | a, s⟩
    · exact Or.inl rfl
    · exact hf a s

lemma Extends.eq (h : Extends x y) {asked : Logged σ (Event ν)} {a : α}
    (ha : (x asked).1 = some a) : y asked = x asked :=
  (h asked).resolve_left (by simp [ha])

lemma extends_collect {x y : WalkM σ ν Unit} (h : WalkM.Extends x y) (stop : Option ν) :
    Extends (collect stop x) (collect stop y) := by
  intro asked
  unfold collect
  rcases h { asked, stop } with ⟨w, hx⟩ | hy
  · rw [hx]
    exact Or.inl rfl
  · rw [hy]
    exact Or.inr rfl

end Search

open Search

namespace Finder

variable [DecidableEq ν] {f : Finder σ ν} {steps : Nat} (hs : f.steps ≤ steps)
include hs

/-- With more steps a finder goes the same way. -/
lemma lockstep_more_steps : f.Lockstep (fun _ => WalkM.Extends) (fun _ => Search.Extends)
    { f with steps } where
  steps := hs
  walker _ _ _ _ := Walker.lockstep_extends _
  answer a := .refl (pure a)
  next h hp := h.bind hp
  note _ := .refl _
  ask _ := .refl _
  encloses _ _ _ _ _ := .refl _
  collect stop h := extends_collect h stop

lemma extends_findAll (collection : ν) (rule : Rule) (sort : SortOrder) (limit : Nat)
    (traverse : Bool) : Search.Extends (f.findAll collection rule sort limit traverse)
      (Finder.findAll { f with steps } collection rule sort limit traverse) :=
  (lockstep_more_steps hs).findAll collection rule sort limit traverse

theorem extends_find (q : Query ν) :
    Search.Extends (f.find q) (Finder.find { f with steps } q) :=
  (lockstep_more_steps hs).find q

end Finder

end AccessTree
