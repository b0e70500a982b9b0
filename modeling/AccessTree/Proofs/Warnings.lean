import AccessTree.Proofs.ChangingTree
import AccessTree.Proofs.MoreSteps
import AccessTree.Proofs.WalkInquiries

/-!
Warnings. Wherever a search turns back because it is as deep as it may be, it warns. So a search
that did not warn goes the same way when it may go deeper, whatever the tree does meanwhile.
-/

namespace AccessTree

variable {σ ν α β : Type}

/-- How many of the events are warnings. -/
def warnings (log : Array (Event ν)) : Nat := log.countP (·.level = .warn)

lemma warnings_push (log : Array (Event ν)) (e : Event ν) :
    warnings (log.push e) = warnings log + if e.level = .warn then 1 else 0 := by
  simp [warnings, Array.countP_push]

/-- Changes of the tree are no warnings. -/
lemma warnings_foldl_changes (changes : List (Change ν)) (log : Array (Event ν)) :
    warnings (changes.foldl (fun log c => log.push (.change c)) log) = warnings log := by
  induction changes generalizing log with
  | nil => rfl
  | cons c changes ih =>
    rw [List.foldl_cons, ih, warnings_push, if_neg (show ¬ (Event.change c).level = .warn by nofun)]
    rfl

/-! ### Inquiries -/

namespace Inquiry

/-- The second inquiry does what the first one does, unless that one warns. -/
def UnlessWarned (x y : Inquiry σ ν α) : Prop := ∀ s,
  warnings s.log ≤ warnings (x s).2.log ∧ (warnings (x s).2.log = warnings s.log → y s = x s)

variable {x y x' : Inquiry σ ν α} {f g : α → Inquiry σ ν β}

lemma unlessWarned_pure (a : α) : UnlessWarned (pure a : Inquiry σ ν α) (pure a) :=
  fun _ => ⟨Nat.le_refl _, fun _ => rfl⟩

lemma UnlessWarned.bind (h : UnlessWarned x y) (hf : ∀ a, UnlessWarned (f a) (g a)) :
    UnlessWarned (x >>= f) (y >>= g) := by
  intro s
  obtain ⟨hle, heq⟩ := h s
  obtain ⟨hle', heq'⟩ := hf (x s).1 (x s).2
  refine ⟨hle.trans hle', fun hw => ?_⟩
  change g (y s).1 (y s).2 = f (x s).1 (x s).2
  have hw : warnings (f (x s).1 (x s).2).2.log = warnings s.log := hw
  rw [heq (by omega), heq' (by omega)]

lemma warnings_note (m : Notice ν) (s : Logged σ (Event ν)) :
    warnings (note m s).2.log = warnings s.log + if m.level = .warn then 1 else 0 :=
  warnings_push s.log (.notice m)

lemma unlessWarned_note (m : Notice ν) :
    UnlessWarned (note m : Inquiry σ ν Unit) (note m) := fun s => by
  rw [warnings_note]
  exact ⟨Nat.le_add_right _ _, fun _ => rfl⟩

lemma unlessWarned_ask (t : LiveTree σ ν) (q : Question ν) :
    UnlessWarned (ask t q) (ask t q) := fun s =>
  ⟨Nat.le_of_eq (warnings_foldl_changes _ s.log).symm, fun _ => rfl⟩

/-- After a warning it does not matter what the second inquiry does. -/
lemma unlessWarned_warn {m : Notice ν} (hm : m.level = .warn) (h : UnlessWarned x x')
    (y : Inquiry σ ν α) : UnlessWarned (note m >>= fun _ => x) y := by
  intro s
  have hle := (h (note m s).2).1
  rw [warnings_note, if_pos hm] at hle
  change _ ≤ warnings (x (note m s).2).2.log ∧ (warnings (x (note m s).2).2.log = _ → _)
  exact ⟨by omega, fun hw => by omega⟩

/-- An inquiry never takes a warning back. -/
lemma closed_unlessWarned : Closed fun _ (x : Inquiry σ ν _) => UnlessWarned x x :=
  ⟨unlessWarned_pure, UnlessWarned.bind⟩

lemma unlessWarned_accepts (r : Rule) (s : Settings) (t : LiveTree σ ν) (n : ν) :
    UnlessWarned (r.accepts s t n) (r.accepts s t n) :=
  closed_unlessWarned.accepts fun q _ => unlessWarned_ask t q

end Inquiry

/-! ### Walks -/

namespace WalkM

/-- The log when a walk has come to its end. -/
def logAfter (x : WalkM σ ν α) (k : Walk σ ν) : Array (Event ν) :=
  match x k with
  | .ok _ k' | .error _ k' => k'.asked.log

/-- The second walk does what the first one does, unless that one warns or runs out of steps. -/
def UnlessWarned (x y : WalkM σ ν α) : Prop := ∀ k,
  warnings k.asked.log ≤ warnings (x.logAfter k) ∧
    (warnings (x.logAfter k) = warnings k.asked.log →
      (∃ k', x k = .error .exhausted k') ∨ y k = x k)

variable {x y : WalkM σ ν α} {f g : α → WalkM σ ν β}

lemma logAfter_of_ok {k k' : Walk σ ν} {a : α} (h : x k = .ok a k') :
    (x >>= f).logAfter k = (f a).logAfter k' := by
  rw [logAfter, bind_apply, h]
  rfl

lemma logAfter_of_error {k k' : Walk σ ν} {e : Walk.Halt} (h : x k = .error e k') :
    (x >>= f).logAfter k = k'.asked.log := by
  rw [logAfter, bind_apply, h]

lemma UnlessWarned.bind (h : UnlessWarned x y) (hf : ∀ a, UnlessWarned (f a) (g a)) :
    UnlessWarned (x >>= f) (y >>= g) := by
  intro k
  obtain ⟨hle, heq⟩ := h k
  rcases hx : x k with ⟨a, k'⟩ | ⟨e, k'⟩
  · have hlog : x.logAfter k = k'.asked.log := by rw [logAfter, hx]
    obtain ⟨hle', heq'⟩ := hf a k'
    rw [logAfter_of_ok hx]
    rw [hlog] at hle heq
    refine ⟨hle.trans hle', fun hw => ?_⟩
    rcases heq (by omega) with ⟨_, he⟩ | hy
    · rw [hx] at he
      cases he
    · rw [bind_apply, bind_apply, hy, hx]
      exact heq' (by omega)
  · have hlog : x.logAfter k = k'.asked.log := by rw [logAfter, hx]
    rw [logAfter_of_error hx]
    rw [hlog] at hle heq
    refine ⟨hle, fun hw => ?_⟩
    rw [bind_apply, bind_apply, hx]
    rcases heq hw with ⟨k'', he⟩ | hy
    · rw [hx] at he
      cases he
      exact Or.inl ⟨k', rfl⟩
    · rw [hy, hx]
      exact Or.inr rfl

/-- A step that reports nothing. -/
lemma unlessWarned_of_logAfter (h : ∀ k, x.logAfter k = k.asked.log) : UnlessWarned x x :=
  fun k => ⟨Nat.le_of_eq (congrArg warnings (h k)).symm, fun _ => Or.inr rfl⟩

lemma unlessWarned_pure (a : α) : UnlessWarned (pure a : WalkM σ ν α) (pure a) :=
  unlessWarned_of_logAfter fun _ => rfl

lemma unlessWarned_throw (e : Walk.Halt) : UnlessWarned (throw e : WalkM σ ν α) (throw e) :=
  unlessWarned_of_logAfter fun _ => rfl

lemma unlessWarned_exhausted (y : WalkM σ ν α) : UnlessWarned (throw .exhausted) y :=
  fun k => ⟨Nat.le_refl _, fun _ => Or.inl ⟨k, rfl⟩⟩

lemma unlessWarned_lift {p q : Inquiry σ ν α} (h : Inquiry.UnlessWarned p q) :
    UnlessWarned (liftM p : WalkM σ ν α) (liftM q) := by
  intro k
  obtain ⟨hle, heq⟩ := h k.asked
  refine ⟨hle, fun hw => Or.inr ?_⟩
  change EStateM.Result.ok (q k.asked).1 { k with asked := (q k.asked).2 } = _
  rw [heq hw]
  rfl

lemma unlessWarned_warn {m : Notice ν} (hm : m.level = .warn) {x' : WalkM σ ν α}
    (h : UnlessWarned x x') (y : WalkM σ ν α) :
    UnlessWarned ((liftM (Inquiry.note m : Inquiry σ ν Unit) : WalkM σ ν Unit) >>= fun _ => x)
      y := by
  intro k
  have hle := (h { k with asked := (Inquiry.note m k.asked).2 }).1
  rw [Inquiry.warnings_note, if_pos hm] at hle
  rw [logAfter_of_ok (show (liftM (Inquiry.note m : Inquiry σ ν Unit) : WalkM σ ν Unit) k =
    .ok () { k with asked := (Inquiry.note m k.asked).2 } from rfl)]
  exact ⟨by omega, fun hw => by omega⟩

end WalkM

open WalkM

namespace Walker

/-- The same walker, which may go as deep as is said. -/
def reaching (w : Walker σ ν) (depth : Nat) : Walker σ ν :=
  { w with settings := { w.settings with maxDepth := depth }, maxDepth := depth }

variable {w : Walker σ ν} {depth : Nat}

lemma unlessWarned_checkLimit : WalkM.UnlessWarned w.checkLimit w.checkLimit := by
  refine unlessWarned_of_logAfter fun k => ?_
  rw [logAfter, checkLimit_apply]
  cases w.isFull k.found <;> rfl

lemma unlessWarned_ask (q : Question ν) :
    Inquiry.UnlessWarned (w.ask q) ((w.reaching depth).ask q) := Inquiry.unlessWarned_ask w.tree q

lemma unlessWarned_enters (n : ν) :
    Inquiry.UnlessWarned (w.enters n) ((w.reaching depth).enters n) :=
  Inquiry.closed_unlessWarned.enters (Inquiry.unlessWarned_ask w.tree) n

lemma unlessWarned_lastBelow {levels levels' : Nat} (hl : levels ≤ levels') (n : ν) :
    Inquiry.UnlessWarned (w.lastBelow levels n) ((w.reaching depth).lastBelow levels' n) := by
  induction levels generalizing levels' n with
  | zero =>
    -- With no level left, the first walker warns before it gives up, and only where there is a
    -- child.
    unfold lastBelow
    refine (unlessWarned_enters n).bind fun enters => ?_
    split
    · refine (unlessWarned_ask (.childCount n)).bind fun count => ?_
      split
      · exact Inquiry.unlessWarned_pure n
      · exact Inquiry.unlessWarned_warn rfl (Inquiry.unlessWarned_pure n) _
    · exact Inquiry.unlessWarned_pure n
  | succ levels ih =>
    obtain ⟨levels', rfl⟩ := Nat.exists_eq_succ_of_ne_zero (by omega : levels' ≠ 0)
    unfold lastBelow
    refine (unlessWarned_enters n).bind fun enters => ?_
    split
    · refine (unlessWarned_ask (.childCount n)).bind fun count => ?_
      split
      · exact Inquiry.unlessWarned_pure n
      · refine (unlessWarned_ask (.childAt n (count - 1))).bind fun child? => ?_
        cases child? with
        | none => exact Inquiry.unlessWarned_pure n
        | some child => exact ih (by omega) child
    · exact Inquiry.unlessWarned_pure n

lemma unlessWarned_previous (hd : w.maxDepth ≤ depth) (n : ν) :
    Inquiry.UnlessWarned (w.previous n) ((w.reaching depth).previous n) := by
  refine (unlessWarned_ask (.parent n)).bind fun parent? => ?_
  cases parent? with
  | none => exact Inquiry.unlessWarned_pure none
  | some parent =>
    refine (unlessWarned_ask (.indexInParent n)).bind fun index? => ?_
    split
    · exact Inquiry.unlessWarned_pure _
    · exact Inquiry.unlessWarned_pure _
    · refine (unlessWarned_ask (.childAt parent _)).bind fun sibling? => ?_
      cases sibling? with
      | none => exact Inquiry.unlessWarned_pure none
      | some sibling =>
        dsimp only
        rw [map_eq_pure_bind, map_eq_pure_bind]
        exact (unlessWarned_lastBelow hd sibling).bind fun _ => Inquiry.unlessWarned_pure _

variable [DecidableEq ν]

lemma unlessWarned_encloses (hd : w.maxDepth ≤ depth) (collection n : ν) :
    Inquiry.UnlessWarned (w.encloses collection n)
      ((w.reaching depth).encloses collection n) := by
  -- For any two numbers of levels, since each parent uses up one of both.
  have climbs : ∀ levels levels' n, levels ≤ levels' → Inquiry.UnlessWarned
      (w.climb collection levels n) ((w.reaching depth).climb collection levels' n) := by
    intro levels
    induction levels with
    | zero =>
      intro levels' n _
      unfold climb
      split
      · exact Inquiry.unlessWarned_pure true
      · exact Inquiry.unlessWarned_warn rfl (Inquiry.unlessWarned_pure false) _
    | succ levels ih =>
      intro levels' n hl
      obtain ⟨levels', rfl⟩ := Nat.exists_eq_succ_of_ne_zero (by omega : levels' ≠ 0)
      unfold climb
      split
      · exact Inquiry.unlessWarned_pure true
      · refine (unlessWarned_ask (.parent n)).bind fun parent? => ?_
        cases parent? with
        | none => exact Inquiry.unlessWarned_pure false
        | some p => exact ih levels' p (by omega)
  exact climbs _ _ n (Nat.add_le_add_right hd 1)

/-- What is found does not depend on how deep the walker may go. -/
lemma unlessWarned_visit (n : ν) :
    WalkM.UnlessWarned (w.visit n) ((w.reaching depth).visit n) := by
  -- The rule is judged under settings of another depth, which it does not look at.
  change WalkM.UnlessWarned (w.visit n) (w.visit n)
  unfold visit
  refine unlessWarned_checkLimit.bind fun _ => ?_
  split
  · refine (unlessWarned_lift (Inquiry.unlessWarned_accepts _ _ _ n)).bind fun accepted => ?_
    cases accepted
    · exact WalkM.unlessWarned_pure ()
    · exact (unlessWarned_of_logAfter fun _ => rfl).bind fun _ => unlessWarned_checkLimit
  · exact WalkM.unlessWarned_pure ()

/-- A walker that may go deeper goes the same way until a warning. -/
theorem lockstep_unlessWarned (hd : w.maxDepth ≤ depth) :
    w.Lockstep (fun _ => WalkM.UnlessWarned) (w.reaching depth) where
  maxDepth := hd
  tooDeep _ _ _ hm _ _ y h := unlessWarned_warn hm h y
  answer := WalkM.unlessWarned_pure
  next h hf := h.bind hf
  broken := unlessWarned_throw .broken
  exhausted := unlessWarned_exhausted
  stopAt _ := unlessWarned_of_logAfter fun _ => rfl
  isStop _ := unlessWarned_of_logAfter fun _ => rfl
  visit := unlessWarned_visit
  note m := unlessWarned_lift (Inquiry.unlessWarned_note m)
  parent n := unlessWarned_lift (unlessWarned_ask (.parent n))
  indexInParent n := unlessWarned_lift (unlessWarned_ask (.indexInParent n))
  enters n := unlessWarned_lift (unlessWarned_enters n)
  nextChild n index := unlessWarned_lift
    (Inquiry.closed_unlessWarned.nextChild (Inquiry.unlessWarned_ask w.tree) n index)
  encloses collection n := unlessWarned_lift (unlessWarned_encloses hd collection n)
  previous n := unlessWarned_lift (unlessWarned_previous hd n)

end Walker

/-! ### Searches -/

namespace Search

/-- The second search does what the first one does, unless that one warns or gives no answer. -/
def UnlessWarned (x y : Search σ ν α) : Prop := ∀ asked,
  warnings asked.log ≤ warnings (x asked).2.log ∧
    (warnings (x asked).2.log = warnings asked.log → (x asked).1 = none ∨ y asked = x asked)

variable {x y : Search σ ν α} {f g : α → Search σ ν β}

lemma unlessWarned_lift {p q : Inquiry σ ν α} (h : Inquiry.UnlessWarned p q) :
    UnlessWarned (OptionT.lift p) (OptionT.lift q) := by
  intro asked
  obtain ⟨hle, heq⟩ := h asked
  refine ⟨hle, fun hw => Or.inr ?_⟩
  change (some (q asked).1, (q asked).2) = (some (p asked).1, (p asked).2)
  rw [heq hw]

lemma UnlessWarned.bind (h : UnlessWarned x y) (hf : ∀ a, UnlessWarned (f a) (g a)) :
    UnlessWarned (x >>= f) (y >>= g) := by
  intro asked
  obtain ⟨hle, heq⟩ := h asked
  rw [bind_apply, bind_apply]
  rcases hx : x asked with ⟨_ | a, s⟩
  · rw [hx] at hle
    exact ⟨hle, fun _ => Or.inl rfl⟩
  · rw [hx] at hle heq
    obtain ⟨hle', heq'⟩ := hf a s
    refine ⟨hle.trans hle', fun hw => ?_⟩
    rcases heq (by dsimp only at hle hw ⊢; omega) with he | hy
    · cases he
    · rw [hy]
      exact heq' (by dsimp only at hle hw ⊢; omega)

lemma unlessWarned_collect {x y : WalkM σ ν Unit} (stop : Option ν)
    (h : WalkM.UnlessWarned x y) : UnlessWarned (collect stop x) (collect stop y) := by
  intro asked
  obtain ⟨hle, heq⟩ := h { asked, stop }
  have hlog : (collect stop x asked).2.log = x.logAfter { asked, stop } := by
    rw [collect, logAfter]
    rcases x { asked, stop } with ⟨_, _⟩ | ⟨_ | _, _⟩ <;> rfl
  rw [hlog]
  refine ⟨hle, fun hw => ?_⟩
  unfold collect
  rcases heq hw with ⟨k', hx⟩ | hy
  · rw [hx]
    exact Or.inl rfl
  · rw [hy]
    exact Or.inr rfl

end Search

namespace Finder

variable [DecidableEq ν]

/-- A finder that may go deeper goes the same way until a warning. -/
lemma lockstep_deeper {f : Finder σ ν} {steps depth : Nat} (hs : f.steps ≤ steps)
    (hd : f.settings.maxDepth ≤ depth) :
    f.Lockstep (fun _ => WalkM.UnlessWarned) (fun _ => Search.UnlessWarned)
      { f with settings := { f.settings with maxDepth := depth }, steps } where
  steps := hs
  walker _ _ _ _ := Walker.lockstep_unlessWarned hd
  answer a := Search.unlessWarned_lift (Inquiry.unlessWarned_pure a)
  next h hp := h.bind hp
  note m := Search.unlessWarned_lift (Inquiry.unlessWarned_note m)
  ask q := Search.unlessWarned_lift (Inquiry.unlessWarned_ask f.tree q)
  encloses _ _ _ collection n :=
    Search.unlessWarned_lift (Walker.unlessWarned_encloses hd collection n)
  collect stop h := Search.unlessWarned_collect stop h

/-- A search that comes to its end and adds no warning to the log does just the same when it may
go deeper: it asks the same questions, reports the same events and finds the same objects. -/
theorem deeper_without_warning (t : LiveTree σ ν) (s : Settings) {steps steps' depth : Nat}
    (hs : steps ≤ steps') (hd : s.maxDepth ≤ depth) (asked asked' : Logged σ (Event ν))
    (hw : warnings asked'.log = warnings asked.log) (found : List ν) :
    let f : Finder σ ν := ⟨t, s, steps⟩
    let deeper : Finder σ ν := ⟨t, { s with maxDepth := depth }, steps'⟩
    (∀ collection rule sort limit traverse,
      f.findAll collection rule sort limit traverse asked = (some found, asked') →
        deeper.findAll collection rule sort limit traverse asked = (some found, asked')) ∧
    ∀ q : Query ν, f.find q asked = (some found, asked') →
      deeper.find q asked = (some found, asked') := by
  have h := lockstep_deeper (f := (⟨t, s, steps⟩ : Finder σ ν)) hs hd
  have settled : ∀ {x y : Search σ ν (List ν)}, Search.UnlessWarned x y →
      x asked = (some found, asked') → y asked = (some found, asked') := by
    intro x y hxy hx
    have hsame := (hxy asked).2
    rw [hx] at hsame
    exact (hsame hw).resolve_left nofun
  exact ⟨fun collection rule sort limit traverse => settled (h.findAll _ _ _ _ _),
    fun q => settled (h.find q)⟩

/-- The window goes away while it is searched, before the search is too deep. -/
theorem deeper_without_warning_sample :
    9 ≤ 9 ∧ 2 ≤ 5 ∧ ∃ asked', warnings asked'.log = warnings (#[] : Array (Event (Fin 4))) ∧
      findAll ⟨.ofPast Tree.vanishing, { maxDepth := 2 }, 9⟩ 0 .anyObject .canonical 0 true
        ⟨[], #[]⟩ = (some [1, 2], asked') ∧
      findAll ⟨.ofPast Tree.vanishing, { maxDepth := 5 }, 9⟩ 0 .anyObject .canonical 0 true
        ⟨[], #[]⟩ = (some [1, 2], asked') := by
  have hw : warnings (findAll ⟨.ofPast Tree.vanishing, { maxDepth := 2 }, 9⟩ 0 .anyObject
      .canonical 0 true ⟨[], #[]⟩).2.log = warnings (#[] : Array (Event (Fin 4))) := by
    decide +kernel
  have hfound : (findAll ⟨.ofPast Tree.vanishing, { maxDepth := 2 }, 9⟩ 0 .anyObject .canonical 0
      true ⟨[], #[]⟩).1 = some [1, 2] := by decide +kernel
  rcases hsearch : findAll ⟨.ofPast Tree.vanishing, { maxDepth := 2 }, 9⟩ 0 .anyObject .canonical 0
      true ⟨[], #[]⟩ with ⟨found, asked'⟩
  rw [hsearch] at hw hfound
  obtain rfl : found = some [1, 2] := hfound
  have h := (deeper_without_warning (.ofPast Tree.vanishing) { maxDepth := 2 } (Nat.le_refl 9)
    (by decide : 2 ≤ 5) ⟨[], #[]⟩ asked' hw [1, 2]).1 0 .anyObject .canonical 0 true hsearch
  exact ⟨Nat.le_refl 9, by decide, asked', hw, rfl, h⟩

example : warnings (findAll ⟨Tree.sample.atRest, { maxDepth := 1 }, 9⟩ 0 .anyObject .canonical 0
    true ⟨(), #[]⟩).2.log = 1 := by decide +kernel

end Finder

end AccessTree
