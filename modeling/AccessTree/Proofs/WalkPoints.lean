import AccessTree.Proofs.ShrinkingSearch

/-!
What a walk can rely on while the registry changes. Something that holds of the registry and that no
edit of the schedule undoes holds at each point of the walk, and with it what it says about answers.
-/

namespace AccessTree

variable {α β : Type} {J : Registry → Prop} {schedule : Nat → List Registry.Edit}

/-- What holds of a registry still holds when the edits of a schedule have been made. -/
def Endures (J : Registry → Prop) (schedule : Nat → List Registry.Edit) : Prop :=
  ∀ r k, J r → J (r.edited (schedule k)).state

namespace Inquiry

/-- What holds of the registry holds of it when this has been found out, and the answer is one of
those that are meant. -/
def Yields (J : Registry → Prop) (x : Inquiry (Registry × Nat) ObjectId α) (P : α → Prop) : Prop :=
  ∀ s : Logged (Registry × Nat) (Event ObjectId), J s.state.1 → J (x s).2.state.1 ∧ P (x s).1

variable {x : Inquiry (Registry × Nat) ObjectId α} {f : α → Inquiry (Registry × Nat) ObjectId β}
  {P : α → Prop} {Q : β → Prop} {a : α}

lemma yields_pure (h : P a) : Yields J (pure a) P := fun _ hs => ⟨hs, h⟩

lemma yields_note (n : Notice ObjectId) :
    Yields J (note n : Inquiry (Registry × Nat) ObjectId Unit) fun _ => True :=
  fun _ hs => ⟨hs, trivial⟩

lemma Yields.bind (hx : Yields J x P) (hf : ∀ a, P a → Yields J (f a) Q) :
    Yields J (x >>= f) Q := fun s hs => hf (x s).1 (hx s hs).2 (x s).2 (hx s hs).1

lemma Yields.mono {P' : α → Prop} (h : Yields J x P) (hP : ∀ a, P a → P' a) : Yields J x P' :=
  fun s hs => ⟨(h s hs).1, hP _ (h s hs).2⟩

lemma closed_yields :
    Closed fun _ (x : Inquiry (Registry × Nat) ObjectId _) => Yields J x fun _ => True where
  answer _ := yields_pure trivial
  next hx hf := hx.bind fun a _ => hf a

/-- An answer is that of some registry of which the same holds. -/
lemma yields_ask (hJ : Endures J schedule) (q : Question ObjectId) :
    Yields J (ask (Registry.live schedule) q) fun a => ∃ r, J r ∧ r.tree q = a := by
  intro s hs
  have after : J (ask (Registry.live schedule) q s).2.state.1 := hJ s.state.1 s.state.2 hs
  exact ⟨after, _, after, (ask_live q s).symm⟩

end Inquiry

namespace Walker

open Inquiry (Yields Shrinking closed_yields yields_note)

variable {w : Walker (Registry × Nat) ObjectId} (hw : w.tree = Registry.live schedule)

/-! ### Inquiries -/

section

variable (hJ : Endures J schedule)
include hw hJ

lemma yields_ask (q : Question ObjectId) :
    Yields J (w.ask q) fun a => ∃ r, J r ∧ r.tree q = a := by
  rw [ask, hw]
  exact Inquiry.yields_ask hJ q

lemma yields_ask_of_eq {q : Question ObjectId} {a : q.Answer} (h : ∀ r, J r → r.tree q = a) :
    Yields J (w.ask q) (· = a) :=
  (yields_ask hw hJ q).mono fun _ ⟨r, hr, ha⟩ => ha.symm.trans (h r hr)

lemma yields_ask_anything (q : Question ObjectId) : Yields J (w.ask q) fun _ => True :=
  (yields_ask hw hJ q).mono fun _ _ => trivial

end

/-! ### Points of a walk -/

/-- A point of a walk at which something holds of the registry and the stop is known. -/
structure At (J : Registry → Prop) (stop : Option ObjectId)
    (k : Walk (Registry × Nat) ObjectId) : Prop where
  registry : J (registry k)
  stop : k.stop = stop

/-- Where a walk ends without being broken off, the same holds as at its beginning. -/
def Stays (J : Registry → Prop) (stop : Option ObjectId)
    (x : WalkM (Registry × Nat) ObjectId α) : Prop :=
  ∀ k a k', At J stop k → x k = .ok a k' → At J stop k'

variable {stop : Option ObjectId} {x : WalkM (Registry × Nat) ObjectId α}
  {f : α → WalkM (Registry × Nat) ObjectId β}

lemma stays_pure (a : α) : Stays J stop (pure a) := by
  rintro k _ _ hk ⟨⟩
  exact hk

lemma stays_throw (e : Walk.Halt) : Stays J stop (throw e : WalkM _ _ α) := by
  intro k a k' hk h
  cases h

lemma Stays.bind (hx : Stays J stop x) (hf : ∀ a, Stays J stop (f a)) :
    Stays J stop (x >>= f) := by
  intro k b k' hk h
  rw [WalkM.bind_apply] at h
  cases hxk : x k with
  | error e k₁ =>
    rw [hxk] at h
    cases h
  | ok a k₁ =>
    rw [hxk] at h
    exact hf a k₁ b k' (hx k a k₁ hk hxk) h

lemma stays_lift {q : Inquiry (Registry × Nat) ObjectId α} {P : α → Prop} (hq : Yields J q P) :
    Stays J stop (liftM q) := by
  rintro k _ _ hk ⟨⟩
  exact ⟨(hq k.asked hk.registry).1, hk.stop⟩

lemma stays_isStop (n : ObjectId) : Stays J stop (WalkM.isStop n) := by
  rintro k _ _ hk ⟨⟩
  exact hk

section

variable (hJ : Endures J schedule)
include hw hJ

lemma stays_visit (n : ObjectId) : Stays J stop (w.visit n) := by
  have accepts : Yields J (w.accepts n) fun _ => True :=
    closed_yields.accepts fun q _ => yields_ask_anything hw hJ q
  intro k a k' hk h
  rw [visit_apply] at h
  by_cases hfull : w.isFull k.found = true
  · rw [if_pos hfull] at h
    cases h
  by_cases hn : n = w.anchor
  · rw [if_neg hfull, if_pos hn] at h
    cases h
    exact hk
  rw [if_neg hfull, if_neg hn] at h
  have after := (accepts k.asked hk.registry).1
  -- Only the judgement asks the tree. What comes after it changes what is found and nothing else.
  rcases ha : w.accepts n k.asked with ⟨_ | _, asked⟩ <;> rw [ha] at h after
  · cases h
    exact ⟨after, hk.stop⟩
  · simp only at h
    rw [checkLimit_apply] at h
    split at h
    · cases h
    · cases h
      exact ⟨after, hk.stop⟩

lemma stays_forwardFrom (steps depth : Nat) (container : ObjectId) (index : Nat) :
    Stays J stop (w.forwardFrom steps depth container index) := by
  induction steps generalizing depth container index with
  | zero => exact stays_throw _
  | succ steps ih =>
    rw [forwardFrom_succ]
    have next : Yields J (w.nextChild container index) fun _ => True :=
      closed_yields.nextChild (yields_ask_anything hw hJ) container index
    refine (stays_lift next).bind fun child? => ?_
    cases child? with
    | none => exact stays_pure ()
    | some child =>
      have enters : Yields J (w.enters child) fun _ => True :=
        closed_yields.enters (yields_ask_anything hw hJ) child
      refine (stays_isStop child).bind fun stopped => ?_
      cases stopped
      · refine (stays_visit hw hJ child).bind fun _ => (stays_lift enters).bind fun enters => ?_
        cases enters
        · exact ih _ _ _
        · rw [if_pos rfl]
          split
          · exact (stays_lift (yields_note _)).bind fun _ => ih _ _ _
          · exact (ih _ _ _).bind fun _ => ih _ _ _
      · exact (stays_lift (yields_note _)).bind fun _ => stays_throw _

end

variable {y : WalkM (Registry × Nat) ObjectId Unit}
  {g : Unit → WalkM (Registry × Nat) ObjectId Unit} {k : Walk (Registry × Nat) ObjectId}
  {l l' : List ObjectId}

/-- What a walk finds and what is found from where it ends. -/
lemma Finds.bind_at (h : Finds y k l) (hk : At J stop k) (hy : Stays J stop y)
    (hg : ∀ k', At J stop k' → Finds (g ()) k' l') : Finds (y >>= g) k (l ++ l') :=
  h.bind_of_ok fun k' _ hk' => hg k' (hy k () k' hk hk')

lemma finds_lift {q : Inquiry (Registry × Nat) ObjectId α} {P : α → Prop}
    {f : α → WalkM (Registry × Nat) ObjectId Unit} (hk : At J stop k) (hq : Shrinking q)
    (hyields : Yields J q P) (hf : ∀ a k', P a → At J stop k' → Finds (f a) k' l) :
    Finds (liftM q >>= f) k l := by
  obtain ⟨after, answer⟩ := hyields k.asked hk.registry
  exact finds_ask hq (hf _ _ answer ⟨after, hk.stop⟩)

lemma finds_isStop_eq {n : ObjectId} {stopped : Bool}
    {f : Bool → WalkM (Registry × Nat) ObjectId Unit} (h : (k.stop == some n) = stopped)
    (hf : Finds (f stopped) k l) : Finds (WalkM.isStop n >>= f) k l := by
  subst h
  exact hf

lemma finds_stopAt {stop : Option ObjectId} {f : Unit → WalkM (Registry × Nat) ObjectId Unit}
    (hf : Finds (f ()) { k with stop } l) : Finds (WalkM.stopAt stop >>= f) k l := by
  obtain ⟨new, hnew, hend⟩ := hf
  have hstart : Ended k [] (.ok () { k with stop }) := ⟨.refl (registry k), by simp⟩
  exact ⟨new, hnew, hend.after hstart.1 hstart.2⟩

/-- What is found from where a walk ends may depend on that point. -/
lemma Finds.exists_bind {Q : List ObjectId → Prop} (h : Finds y k l) (hQ : Q l)
    (hg : ∀ k', y k = .ok () k' → ∃ l', Finds (g ()) k' l' ∧ Q (l ++ l')) :
    ∃ l', Finds (y >>= g) k l' ∧ Q l' := by
  cases hy : y k with
  | ok a k₁ =>
    obtain ⟨l', hfinds, hl'⟩ := hg k₁ hy
    refine ⟨l ++ l', h.bind_of_ok fun k' _ hk' => ?_, hl'⟩
    rw [hy] at hk'
    cases hk'
    exact hfinds
  | error e k₁ =>
    refine ⟨l ++ [], h.bind_of_ok fun k' _ hk' => ?_, by rwa [List.append_nil]⟩
    rw [hy] at hk'
    cases hk'

end Walker

end AccessTree
