import AccessTree.Proofs.LosingSweep

/-!
Searches from an anchor while objects are destroyed. Where only objects behind the anchor go, no
search finds an object twice. A search through children or younger siblings finds none twice
whatever goes. Any other search may find one twice where the anchor goes, which a sweep then never
meets, or an object before it, whose place is then that of the object where a step back began.
-/

namespace AccessTree

variable {α : Type} {J : Registry → Prop} {schedule : Nat → List Registry.Edit}

/-- One object goes at one moment. -/
def Registry.lost (moment : Nat) (i : ObjectId) (k : Nat) : List ObjectId :=
  if k = moment then [i] else []

namespace Search

open Inquiry (Yields)

/-- From wherever something holds of the registry, the search comes to an answer, and no object is
in it twice. -/
def Distinct (J : Registry → Prop) (x : Search (Registry × Nat) ObjectId (List ObjectId)) : Prop :=
  ∀ s : Logged (Registry × Nat) (Event ObjectId), J s.state.1 → ∃ l, (x s).1 = some l ∧ l.Nodup

lemma distinct_nil : Distinct J (pure []) := fun _ _ => ⟨[], rfl, List.nodup_nil⟩

lemma distinct_lift {q : Inquiry (Registry × Nat) ObjectId α} {P : α → Prop}
    {f : α → Search (Registry × Nat) ObjectId (List ObjectId)} (hq : Yields J q P)
    (hf : ∀ a, Distinct J (f a)) : Distinct J (OptionT.lift q >>= f) := by
  intro s hs
  rw [bind_apply]
  exact hf (q s).1 (q s).2 (hq s hs).1

lemma Distinct.finish {x : Search (Registry × Nat) ObjectId (List ObjectId)} (h : Distinct J x)
    (reverse : Bool) : Distinct J (x >>= Search.finish reverse) := by
  intro s hs
  obtain ⟨l, hl, hn⟩ := h s hs
  rw [bind_apply]
  rcases hx : x s with ⟨_ | l', s'⟩ <;> rw [hx] at hl <;> cases hl
  refine ⟨if reverse then l.reverse else l, rfl, ?_⟩
  split
  · exact List.nodup_reverse.2 hn
  · exact hn

lemma distinct_collect {stop : Option ObjectId} {x : WalkM (Registry × Nat) ObjectId Unit}
    (h : ∀ k, Walker.At J stop k → ∃ l, Walker.Finds x k l ∧ l.Nodup) :
    Distinct J (collect stop x) := by
  intro s hs
  obtain ⟨l, hfinds, hn⟩ := h { asked := s, stop } ⟨hs, rfl⟩
  obtain ⟨new, hnew, hsublist⟩ := exists_collect_of_finds hfinds
  exact ⟨new, hnew, hn.sublist hsublist⟩

end Search

open Search

namespace Finder

variable {f : Finder (Registry × Nat) ObjectId} (hf : f.tree = Registry.live schedule)
  {q : Query ObjectId}
include hf

section

variable (hJ : Endures J schedule)
include hJ

lemma distinct_ask (question : Question ObjectId)
    {g : question.Answer → Search (Registry × Nat) ObjectId (List ObjectId)}
    (hg : ∀ a, Distinct J (g a)) : Distinct J (ask f.tree question >>= g) := by
  rw [ask, hf]
  exact distinct_lift (Inquiry.yields_ask hJ question) hg

/-- It is the walk that decides whether an object is found twice. -/
lemma distinct_find (honward : q.direction = .onward → Distinct J (f.findOnward q))
    (hback : q.direction = .back → Distinct J (f.findBack q)) : Distinct J (f.find q) := by
  have nothing : ∀ n : Notice ObjectId, Distinct J (do note n; return []) := fun n =>
    distinct_lift (Inquiry.yields_note n) fun _ => distinct_nil
  unfold find sorted
  split
  · refine distinct_ask hf hJ _ fun valid => ?_
    split
    · have encloses : Inquiry.Yields J ((f.walker q.rule q.anchor q.limit true).encloses
          q.collection q.anchor) fun _ => True :=
        Inquiry.closed_yields.encloses (Walker.yields_ask_anything hf hJ) Inquiry.yields_note
          q.collection q.anchor
      refine distinct_lift encloses fun inside => ?_
      split
      · split
        · rename_i hd
          exact (honward hd).finish _
        · rename_i hd
          exact (hback hd).finish _
      · exact nothing _
    · exact nothing _
  · exact nothing _

end

variable (hs : ∀ k, ∀ e ∈ schedule k, e.shrinks = true) {r : Registry} (h : r.Sound)
  (hsteps : r.objects.bound < f.steps)
include hs h hsteps

/-- A walk on from a place finds each object once, whatever goes meanwhile. -/
lemma distinct_forward (hJ : ∀ r', J r' → r.Shrinks r') (rule : Rule) (anchor : ObjectId)
    (limit : Nat) (traverse : Bool) (container : ObjectId) (start : Nat) : Distinct J
      (collect none ((f.walker rule anchor limit traverse).forward f.steps container start)) := by
  refine distinct_collect fun k hk => ?_
  have finds : Walker.Finds
      ((f.walker rule anchor limit traverse).forward f.steps container start) k
      ((r.tree.childrenFrom container start).flatMap (r.whole f.settings.maxDepth)) :=
    Walker.finds_whole hf hs h (hJ _ hk.registry) (Nat.zero_le _) le_rfl
      (h.length_flatMap_whole_le.trans_lt hsteps)
  exact ⟨_, finds, h.nodup_flatMap_whole⟩

lemma distinct_findOnward (hJ : Endures (r.Spares q.anchor) schedule)
    (hscope : q.scope = .inorder) : Distinct (r.Spares q.anchor) (f.findOnward q) := by
  have traverse : (q.traverse || Scope.inorder == .inorder) = true := by simp
  rw [findOnward, hscope]
  exact distinct_collect fun k hk => Walker.exists_finds_sweep hf hs hJ h traverse hk hsteps

lemma distinct_findOnward_of_ne (hq : q.scope ≠ .inorder) (hJ : Endures J schedule)
    (hshrinks : ∀ r', J r' → r.Shrinks r') : Distinct J (f.findOnward q) := by
  unfold findOnward
  cases hscope : q.scope with
  | inorder => exact absurd hscope hq
  | children => exact distinct_forward hf hs h hsteps hshrinks _ _ _ _ q.anchor 0
  | siblings =>
    dsimp only
    split
    · exact distinct_nil
    · refine distinct_ask hf hJ _ fun parent? => distinct_ask hf hJ _ fun index? => ?_
      split
      · exact distinct_forward hf hs h hsteps hshrinks _ _ _ _ _ _
      · exact distinct_lift (Inquiry.yields_note _) fun _ => distinct_nil

lemma distinct_findBack (hJ : Endures (r.Spares q.anchor) schedule) :
    Distinct (r.Spares q.anchor) (f.findBack q) := by
  obtain ⟨before, hbefore, hlength⟩ := h.exists_before q.anchor
  let w := f.walker q.rule q.anchor q.limit (q.traverse || q.scope == .inorder)
  have hw : w.tree = Registry.live schedule := hf
  have back : ∀ stop,
      Distinct (r.Spares q.anchor) (collect stop (w.backward f.steps q.anchor)) := by
    refine fun stop => distinct_collect fun k hk => ?_
    obtain ⟨l, hfinds, hl, -⟩ := Walker.exists_finds_backward hw hs hJ h hk (Or.inl rfl) hbefore
      (hlength.trans_lt hsteps)
    refine ⟨l, hfinds, hl.imp fun {x y} hyx he => ?_⟩
    subst he
    exact h.isForest.precedes_irrefl hyx
  -- Where the walk stops does not matter for what it finds twice.
  unfold findBack
  dsimp only
  split
  · refine distinct_ask hf hJ _ fun parent? => ?_
    cases parent? with
    | none => exact distinct_lift (Inquiry.yields_note _) fun _ => distinct_nil
    | some parent => exact back (some parent)
  · exact back (some q.collection)

omit hf hs h hsteps

/-- While objects are destroyed, a search ends and finds none of them twice if it goes on through
children or siblings, or if neither the anchor nor anything before it goes. -/
theorem find_while_losing (edits : List Registry.Edit) (schedule : Nat → List ObjectId)
    (s : Settings) (q : Query ObjectId) (log : Array (Event ObjectId))
    (h : q.direction = .onward ∧ q.scope ≠ .inorder ∨
      ∀ k, ∀ i ∈ schedule k, ¬ (Registry.run edits).tree.UpTo q.anchor i) :
    ∃ l, (∃ enough, ∀ steps ≥ enough,
        (find ⟨Registry.live fun k => (schedule k).map .destroy, s, steps⟩ q
          ⟨(Registry.run edits, 0), log⟩).1 = some l) ∧ l.Nodup := by
  have hsound := Registry.sound_run edits
  generalize Registry.run edits = r at hsound h
  have hs : ∀ k, ∀ e ∈ (schedule k).map Registry.Edit.destroy, e.shrinks = true := by
    intro k e he
    obtain ⟨i, -, rfl⟩ := List.mem_map.1 he
    rfl
  let f : Finder (Registry × Nat) ObjectId :=
    ⟨Registry.live fun k => (schedule k).map .destroy, s, r.objects.bound + 1⟩
  have hsteps : r.objects.bound < f.steps := Nat.lt_succ_self _
  -- It is enough to end once, for a search that ends takes no more steps if it may.
  suffices hdistinct : ∃ l, (f.find q ⟨(r, 0), log⟩).1 = some l ∧ l.Nodup by
    obtain ⟨l, hl, hn⟩ := hdistinct
    refine ⟨l, ⟨f.steps, fun steps hle => ?_⟩, hn⟩
    have hmore := extends_find (f := f) hle q
    rw [← hl]
    exact congrArg Prod.fst (hmore.eq hl)
  rcases h with ⟨hd, hscope⟩ | h
  · -- All that is needed of the registry is that lists of children only get shorter.
    have hJ : Endures r.Shrinks fun k => (schedule k).map .destroy := fun r' k hr' =>
      hr'.trans (Registry.shrinks_edited (hs k))
    refine distinct_find (J := r.Shrinks) rfl hJ (fun _ => ?_) (fun hback => ?_) _ (.refl r)
    · exact distinct_findOnward_of_ne rfl hs hsound hsteps hscope hJ fun _ => id
    · rw [hd] at hback
      cases hback
  · -- The anchor and what comes before it keep their places, whatever goes behind them.
    have hJ : Endures (r.Spares q.anchor) fun k => (schedule k).map .destroy := fun r' k hr' =>
      hr'.edited hsound (h k)
    refine distinct_find (J := r.Spares q.anchor) rfl hJ (fun _ => ?_) (fun _ => ?_) _
      (hsound.spares q.anchor)
    · by_cases hscope : q.scope = .inorder
      · exact distinct_findOnward rfl hs hsound hsteps hJ hscope
      · exact distinct_findOnward_of_ne rfl hs hsound hsteps hscope hJ fun r' hr' => hr'.shrinks
    · exact distinct_findBack rfl hs hsound hsteps hJ

theorem find_while_losing_sample :
    let q : Query ObjectId := { collection := ⟨1, 1⟩, anchor := ⟨2, 1⟩, scope := .inorder }
    (∀ k, ∀ i ∈ Registry.lost 9 ⟨3, 1⟩ k, ¬ (Registry.run Registry.family).tree.UpTo q.anchor i) ∧
    (find ⟨Registry.live fun k => (Registry.lost 9 ⟨3, 1⟩ k).map .destroy, {}, 9⟩ q
      ⟨(Registry.run Registry.family, 0), #[]⟩).1 = some [⟨3, 1⟩] ∧
    ∃ l, (∃ enough, ∀ steps ≥ enough,
      (find ⟨Registry.live fun k => (Registry.lost 9 ⟨3, 1⟩ k).map .destroy, {}, steps⟩ q
        ⟨(Registry.run Registry.family, 0), #[]⟩).1 = some l) ∧ l.Nodup := by
  intro q
  have ht := (Registry.sound_run Registry.family).isForest
  have first : (Registry.run Registry.family).tree.childAt ⟨1, 1⟩ 0 = some ⟨2, 1⟩ := by
    decide +kernel
  have second : (Registry.run Registry.family).tree.childAt ⟨1, 1⟩ 1 = some ⟨3, 1⟩ := by
    decide +kernel
  have order : (Registry.run Registry.family).tree.Precedes ⟨2, 1⟩ ⟨3, 1⟩ :=
    Tree.precedes_of_siblings first second Nat.zero_lt_one Tree.follow_nil Tree.follow_nil
  have behind : ∀ k, ∀ i ∈ Registry.lost 9 ⟨3, 1⟩ k,
      ¬ (Registry.run Registry.family).tree.UpTo q.anchor i := by
    intro k i hi
    unfold Registry.lost at hi
    split at hi
    · rw [List.mem_singleton.1 hi]
      rintro (he | hbefore)
      · exact absurd he (by decide)
      · exact ht.precedes_asymm order hbefore
    · cases hi
  exact ⟨behind, by decide +kernel,
    find_while_losing Registry.family (Registry.lost 9 ⟨3, 1⟩) {} q #[] (Or.inr behind)⟩

/-- An anchor that goes during a sweep does not end it any more. An elder sibling that goes between
the questions of a step back leaves its place to the object where the step began. -/
theorem find_repeats_when_losing :
    (find ⟨Registry.live fun k => (Registry.lost 12 ⟨2, 1⟩ k).map .destroy, {}, 12⟩
      { collection := ⟨1, 1⟩, anchor := ⟨2, 1⟩, scope := .inorder }
      ⟨(Registry.run Registry.family, 0), #[]⟩).1 = some [⟨3, 1⟩, ⟨4, 1⟩, ⟨3, 1⟩, ⟨4, 1⟩] ∧
    (find ⟨Registry.live fun k => (Registry.lost 9 ⟨2, 1⟩ k).map .destroy, {}, 12⟩
      { collection := ⟨1, 1⟩, anchor := ⟨4, 1⟩, direction := .back }
      ⟨(Registry.run Registry.family, 0), #[]⟩).1 = some [⟨3, 1⟩, ⟨3, 1⟩] := by
  constructor <;> decide +kernel

end Finder

end AccessTree
