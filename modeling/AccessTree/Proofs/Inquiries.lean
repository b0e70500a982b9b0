import Mathlib.Data.List.Basic
import AccessTree.Rule.Accepts

/-!
What inquiries hand on. A property that single questions have, and that stays when inquiries are
put together, is a property of whatever is found out by asking, such as whether an object meets a
rule.
-/

namespace AccessTree

variable {σ ν α β : Type}

namespace Inquiry

/-- The property of an inquiry does not get lost when inquiries are put together. -/
structure Closed (C : (α : Type) → Inquiry σ ν α → Prop) : Prop where
  answer : ∀ {α : Type} (a : α), C α (pure a)
  next : ∀ {α β : Type} {x : Inquiry σ ν α} {f : α → Inquiry σ ν β},
    C α x → (∀ a, C β (f a)) → C β (x >>= f)

namespace Closed

variable {C : (α : Type) → Inquiry σ ν α → Prop} (hC : Closed C)
include hC

lemma map {x : Inquiry σ ν α} (h : C α x) (f : α → β) : C β (f <$> x) := by
  rw [map_eq_pure_bind]
  exact hC.next h fun a => hC.answer (f a)

lemma allOf {xs : List (Inquiry σ ν Bool)} (h : ∀ x ∈ xs, C Bool x) : C Bool (allOf xs) := by
  induction xs with
  | nil => exact hC.answer true
  | cons x xs ih =>
    obtain ⟨hx, hxs⟩ := List.forall_mem_cons.1 h
    refine hC.next hx fun a => ?_
    cases a
    · exact hC.answer false
    · exact ih hxs

lemma anyOf {xs : List (Inquiry σ ν Bool)} (h : ∀ x ∈ xs, C Bool x) : C Bool (anyOf xs) := by
  induction xs with
  | nil => exact hC.answer false
  | cons x xs ih =>
    obtain ⟨hx, hxs⟩ := List.forall_mem_cons.1 h
    refine hC.next hx fun a => ?_
    cases a
    · exact ih hxs
    · exact hC.answer true

lemma holds {m : MatchType} {hits : List (Inquiry σ ν Bool)} {nothing : Inquiry σ ν Bool}
    (h : ∀ x ∈ hits, C Bool x) (hn : C Bool nothing) : C Bool (m.holds hits nothing) := by
  cases hits with
  | nil =>
    rw [MatchType.holds]
    split
    · exact hn
    · exact hC.answer true
  | cons x xs =>
    cases m with
    | invalid => exact hC.next (h x List.mem_cons_self) fun _ => hC.answer false
    | all => exact hC.allOf h
    | any => exact hC.anyOf h
    | none => exact hC.map (hC.anyOf h) _
    | empty => exact hC.allOf h

/-! ### Rules -/

/-- Most criteria ask one question, and what they list is looked up in the answer. -/
lemma criterion {t : LiveTree σ ν} {m : MatchType} {unasked : Bool} {q : Question ν} {l : List α}
    {hit : q.Answer → α → Bool} {nothing : q.Answer → Bool} (hq : C q.Answer (ask t q)) :
    C Bool (if unasked then pure true else ask t q >>= fun own =>
      m.holds (l.map fun x => pure (hit own x)) (pure (nothing own))) := by
  split
  · exact hC.answer true
  · exact hC.next hq fun own =>
      hC.holds (List.forall_mem_map.2 fun _ _ => hC.answer _) (hC.answer _)

variable {r : Rule} {s : Settings} {t : LiveTree σ ν} {n : ν}

lemma interfacesHold (hask : ∀ i, C Bool (ask t (.implements n i))) :
    C Bool (r.interfacesHold t n) := by
  rw [Rule.interfacesHold]
  split
  · exact hC.answer true
  · refine hC.holds (List.forall_mem_map.2 fun name _ => ?_)
      (hC.allOf (List.forall_mem_map.2 fun i _ => hC.map (hask i) _))
    cases Interface.ofName? name with
    | none => exact hC.answer false
    | some i => exact hask i

variable (hask : ∀ q : Question ν, (∀ m i, q ≠ .childAt m i) → C q.Answer (ask t q))
include hask

lemma criteria : C Bool (Inquiry.allOf
    [r.interfacesHold t n, r.statesHold s t n, r.rolesHold t n, r.attributesHold t n]) := by
  refine hC.allOf ?_
  simp only [List.forall_mem_cons]
  exact ⟨hC.interfacesHold fun i => hask (.implements n i) nofun,
    hC.criterion (hask (.states n) nofun), hC.criterion (hask (.role n) nofun),
    hC.criterion (hask (.attributes n) nofun), fun _ h => absurd h List.not_mem_nil⟩

/-- Whether an object meets a rule is found out without looking for its children. -/
theorem accepts : C Bool (r.accepts s t n) := by
  refine hC.next (hask (.isValid n) nofun) fun valid => ?_
  cases valid
  · exact hC.answer false
  · exact hC.next (hC.criteria hask) fun met => hC.answer _

end Closed

end Inquiry

end AccessTree
