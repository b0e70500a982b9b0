import Mathlib.Data.List.Infix
import AccessTree.Finder
import AccessTree.Proofs.Forest
import AccessTree.Proofs.Inquiries
import AccessTree.Proofs.WalkSteps

/-!
Trees that change all the time. Each answer may be any function of what was asked before, so that
nothing is known of the tree. What is asked of it is known: a child is looked for only at a place
that the object was just said to have.
-/

namespace AccessTree

variable {σ ν α β : Type}

/-- A tree with an answer to each question for everything that may have been asked before. What
a tree says in one run, whatever changes it, is always said by such a tree. -/
def LiveTree.ofPast (view : List (Question ν) → Tree ν) : LiveTree (List (Question ν)) ν :=
  ⟨fun q past => ⟨view past q, past ++ [q], []⟩⟩

/-- The window of the sample goes away, with all that is in it, after a few questions. -/
def Tree.vanishing (past : List (Question (Fin 4))) : Tree (Fin 4) :=
  if past.length < 9 then sample else Question.absent

variable {view : List (Question ν) → Tree ν} {past past' : List (Question ν)} {q : Question ν}
  {n : ν} {i : Nat}

/-- The last answers say that an object has a place for children: there were more children than
that, or another child was in the place after it. -/
inductive HasPlace (view : List (Question ν) → Tree ν) : List (Question ν) → ν → Nat → Prop where
  | counted {past : List (Question ν)} {n : ν} {i : Nat} (h : i < (view past).childCount n) :
    HasPlace view (past ++ [.childCount n]) n i
  | elder {past : List (Question ν)} {x n : ν} {i : Nat} (hp : (view past).parent x = some n)
    (hi : (view (past ++ [.parent x])).indexInParent x = some (i + 1)) :
    HasPlace view (past ++ [.parent x] ++ [.indexInParent x]) n i

/-- Children were only looked for at places that their parents had. -/
def InRange (view : List (Question ν) → Tree ν) (past : List (Question ν)) : Prop :=
  ∀ before n i, before ++ [.childAt n i] <+: past → HasPlace view before n i

lemma inRange_nil : InRange view [] := fun before n i h => by
  have := h.length_le
  simp at this

lemma InRange.snoc (h : InRange view past) (hq : ∀ n i, q = .childAt n i → HasPlace view past n i) :
    InRange view (past ++ [q]) := by
  intro before n i hb
  rcases List.prefix_concat_iff.1 hb with he | hb
  · obtain ⟨rfl, hq'⟩ := List.append_inj' he rfl
    exact hq n i (List.singleton_inj.1 hq').symm
  · exact h before n i hb

/-- More was asked, and children were still only looked for where there was a place. -/
structure Continues (view : List (Question ν) → Tree ν) (past past' : List (Question ν)) :
    Prop where
  isPrefix : past <+: past'
  inRange : InRange view past → InRange view past'

lemma Continues.refl : Continues view past past := ⟨List.prefix_refl past, id⟩

lemma Continues.trans {past'' : List (Question ν)} (h : Continues view past past')
    (h' : Continues view past' past'') : Continues view past past'' :=
  ⟨h.isPrefix.trans h'.isPrefix, h'.inRange ∘ h.inRange⟩

namespace Inquiry

/-- After such a past, an inquiry only looks for children where there is a place. -/
def Careful (view : List (Question ν) → Tree ν) (past : List (Question ν))
    (x : Inquiry (List (Question ν)) ν α) : Prop :=
  ∀ log, Continues view past (x ⟨past, log⟩).2.state

variable {x : Inquiry (List (Question ν)) ν α} {f : α → Inquiry (List (Question ν)) ν β}

lemma careful_pure (a : α) : Careful view past (pure a) := fun _ => .refl

lemma careful_note (m : Notice ν) : Careful view past (note m) := fun _ => .refl

lemma Careful.bind (h : Careful view past x) (hf : ∀ a past, Careful view past (f a)) :
    Careful view past (x >>= f) := fun log =>
  (h log).trans (hf (x ⟨past, log⟩).1 (x ⟨past, log⟩).2.state (x ⟨past, log⟩).2.log)

/-- What is asked next may rest on the answer, as long as nothing else is asked in between. -/
lemma careful_ask_bind {f : q.Answer → Inquiry (List (Question ν)) ν β}
    (hq : ∀ n i, q = .childAt n i → HasPlace view past n i)
    (hf : Careful view (past ++ [q]) (f (view past q))) :
    Careful view past (ask (.ofPast view) q >>= f) := fun log =>
  .trans ⟨List.prefix_append past [q], fun h => h.snoc hq⟩ (hf log)

lemma careful_ask (hq : ∀ n i, q = .childAt n i → HasPlace view past n i) :
    Careful view past (ask (.ofPast view) q) := fun _ =>
  ⟨List.prefix_append past [q], fun h => h.snoc hq⟩

lemma careful_of_ne (hq : ∀ n i, q ≠ .childAt n i) (past : List (Question ν)) :
    Careful view past (ask (.ofPast view) q) := careful_ask fun n i he => absurd he (hq n i)

lemma closed_careful : Closed fun _ (x : Inquiry (List (Question ν)) ν _) =>
    ∀ past, Careful view past x where
  answer a _ := careful_pure a
  next h hf past := (h past).bind hf

end Inquiry

open Inquiry

namespace Rule

variable {r : Rule} {s : Settings}

lemma careful_accepts : Careful view past (r.accepts s (.ofPast view) n) :=
  closed_careful.accepts (fun _ => careful_of_ne) past

/-- Of an object that meets a rule it was asked first whether it is there, and it was. -/
lemma valid_of_accepts {log : Array (Event ν)}
    (h : (r.accepts s (.ofPast view) n ⟨past, log⟩).1 = true) : (view past).isValid n = true ∧
      past ++ [.isValid n] <+: (r.accepts s (.ofPast view) n ⟨past, log⟩).2.state := by
  have hstep : ∀ b, (view past).isValid n = b → r.accepts s (.ofPast view) n ⟨past, log⟩ =
      (if b = true then do
        let met ← allOf [r.interfacesHold (.ofPast view) n, r.statesHold s (.ofPast view) n,
          r.rolesHold (.ofPast view) n, r.attributesHold (.ofPast view) n]
        pure (met != (s.honorInvert && r.invert))
      else pure false : Inquiry _ ν Bool) ⟨past ++ [.isValid n], log⟩ := by
    rintro b rfl
    rfl
  cases hv : (view past).isValid n
  · rw [hstep false hv] at h
    cases h
  · refine ⟨rfl, ?_⟩
    rw [hstep true hv]
    exact ((closed_careful.criteria (fun _ => careful_of_ne) _).bind
      fun met _ => careful_pure _) log |>.isPrefix

end Rule

namespace Walker

variable {w : Walker (List (Question ν)) ν} (hw : w.tree = .ofPast view)
include hw

lemma careful_ask_of_ne (hq : ∀ n i, q ≠ .childAt n i) (past : List (Question ν)) :
    Careful view past (w.ask q) := by
  rw [ask, hw]
  exact careful_of_ne hq past

lemma careful_enters : Careful view past (w.enters n) := by
  unfold enters
  split
  · exact careful_pure true
  · rw [ask, hw, map_eq_pure_bind]
    exact (careful_ask nofun).bind fun _ _ => careful_pure _

lemma careful_nextChild : Careful view past (w.nextChild n i) := by
  unfold nextChild
  simp only [ask, hw]
  refine careful_ask_bind nofun ?_
  split
  · rename_i hi
    refine careful_ask fun m j he => ?_
    cases he
    exact .counted hi
  · exact careful_pure none

lemma careful_lastBelow (levels : Nat) (n : ν) (past : List (Question ν)) :
    Careful view past (w.lastBelow levels n) := by
  induction levels generalizing n past with
  | zero =>
    unfold lastBelow
    refine (careful_enters hw).bind fun _ _ => ?_
    split
    · simp only [ask, hw]
      refine careful_ask_bind nofun ?_
      split
      · exact careful_pure n
      · exact (careful_note _).bind fun _ _ => careful_pure n
    · exact careful_pure n
  | succ levels ih =>
    unfold lastBelow
    refine (careful_enters hw).bind fun _ _ => ?_
    split
    · simp only [ask, hw]
      refine careful_ask_bind nofun ?_
      split
      · exact careful_pure n
      · -- The last place is below the count that was just answered.
        rename_i hne
        refine careful_ask_bind (fun m j he => ?_) ?_
        · cases he
          exact .counted (Nat.sub_one_lt hne)
        · split
          · exact careful_pure n
          · exact ih _ _
    · exact careful_pure n

lemma careful_previous : Careful view past (w.previous n) := by
  unfold previous
  simp only [ask, hw]
  refine careful_ask_bind nofun ?_
  split
  · exact careful_pure none
  · rename_i p hp
    refine careful_ask_bind nofun ?_
    split
    · exact careful_pure _
    · exact careful_pure _
    · -- The place before that of an object was not counted, but the tree gave the next one for a
      -- child of this parent.
      rename_i i hi
      refine careful_ask_bind (fun m j he => ?_) ?_
      · cases he
        exact .elder hp hi
      · split
        · exact careful_pure none
        · rw [map_eq_pure_bind]
          exact (careful_lastBelow hw _ _ _).bind fun _ _ => careful_pure _

lemma careful_encloses [DecidableEq ν] (collection : ν) :
    Careful view past (w.encloses collection n) := by
  -- Each level is asked after more questions than the one before, so the induction is for any past.
  have climbs : ∀ levels n past, Careful view past (w.climb collection levels n) := by
    intro levels
    induction levels with
    | zero =>
      intro n past
      unfold climb
      split
      · exact careful_pure true
      · exact (careful_note _).bind fun _ _ => careful_pure false
    | succ levels ih =>
      intro n past
      unfold climb
      split
      · exact careful_pure true
      · simp only [ask, hw]
        refine careful_ask_bind nofun ?_
        split
        · exact careful_pure false
        · exact ih _ _
  exact climbs _ n past

end Walker

end AccessTree
