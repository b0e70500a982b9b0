import AccessTree.Finder
import AccessTree.Proofs.Forest
import AccessTree.Proofs.Inquiries
import AccessTree.Proofs.WalkSteps

/-!
Inquiries, walks and searches of a tree at rest. What was asked and reported before makes no
difference to them, so an inquiry has one answer, and a walk may be told by the objects that it
comes to, in their order.
-/

namespace AccessTree

variable {σ ν α β : Type}

namespace Inquiry

/-- The answer is the same whatever was asked and reported before. -/
def Says (x : Inquiry σ ν α) (a : α) : Prop := ∀ s, (x s).1 = a

def Steady (x : Inquiry σ ν α) : Prop := ∃ a, Says x a

variable {x : Inquiry σ ν α} {f : α → Inquiry σ ν β} {a : α} {b : β}

lemma says_pure (a : α) : Says (pure a : Inquiry σ ν α) a := fun _ => rfl

lemma says_note (n : Notice ν) : Says (note n : Inquiry σ ν Unit) () := fun _ => rfl

lemma says_ask {t : Tree ν} {q : Question ν} {a : q.Answer} (h : t q = a) :
    Says (ask t.atRest q) a := fun _ => h

lemma Says.bind (h : Says x a) (hf : Says (f a) b) : Says (x >>= f) b := fun s => by
  change (f (x s).1 (x s).2).1 = b
  rw [h s]
  exact hf _

lemma Says.map (h : Says x a) (f : α → β) : Says (f <$> x) (f a) := fun s => congrArg f (h s)

lemma Says.ite_bind {y : Inquiry σ ν α} {a' : α} {p : Prop} [Decidable p] (h : Says x a)
    (h' : Says y a') (hf : Says (f (if p then a else a')) b) :
    Says (if p then x >>= f else y >>= f) b := by
  by_cases hp : p
  · rw [if_pos hp] at hf ⊢
    exact h.bind hf
  · rw [if_neg hp] at hf ⊢
    exact h'.bind hf

lemma steady_pure (a : α) : Steady (pure a : Inquiry σ ν α) := ⟨a, says_pure a⟩

lemma steady_ask (t : Tree ν) (q : Question ν) : Steady (ask t.atRest q) :=
  ⟨t q, says_ask rfl⟩

lemma Steady.bind (h : Steady x) (hf : ∀ a, Steady (f a)) : Steady (x >>= f) := by
  obtain ⟨a, ha⟩ := h
  obtain ⟨b, hb⟩ := hf a
  exact ⟨b, ha.bind hb⟩

lemma Steady.map (h : Steady x) (f : α → β) : Steady (f <$> x) := by
  obtain ⟨a, ha⟩ := h
  exact ⟨f a, ha.map f⟩

/-- The inquiry has one answer, which tells whether something is so. -/
def Decides (x : Inquiry σ ν Bool) (P : Prop) : Prop := ∃ b, Says x b ∧ (b = true ↔ P)

section

variable {x : Inquiry σ ν Bool} {P Q : Prop}

lemma decides_pure (b : Bool) : Decides (pure b : Inquiry σ ν Bool) (b = true) :=
  ⟨b, says_pure b, Iff.rfl⟩

lemma Decides.congr (h : Decides x P) (hPQ : P ↔ Q) : Decides x Q := by
  obtain ⟨b, hx, hb⟩ := h
  exact ⟨b, hx, hb.trans hPQ⟩

lemma Decides.not (h : Decides x P) : Decides (not <$> x) ¬ P := by
  obtain ⟨b, hx, hb⟩ := h
  refine ⟨!b, hx.map _, ?_⟩
  rw [Bool.not_eq_true', ← Bool.not_eq_true, hb]

lemma Decides.ask {t : Tree ν} {q : Question ν} {f : q.Answer → Inquiry Unit ν Bool}
    (h : Decides (f (t q)) P) : Decides (Inquiry.ask t.atRest q >>= f) P := by
  obtain ⟨b, hf, hb⟩ := h
  exact ⟨b, (says_ask rfl).bind hf, hb⟩

end

lemma closed_steady : Closed fun _ (x : Inquiry σ ν _) => Steady x := ⟨steady_pure, Steady.bind⟩

end Inquiry

open Inquiry

namespace Tree

/-- Whether an object of a tree at rest meets a rule. -/
def meets (t : Tree ν) (r : Rule) (s : Settings) (n : ν) : Bool :=
  (r.accepts s t.atRest n ⟨(), #[]⟩).1

lemma meets_anyObject (t : Tree ν) (s : Settings) (n : ν) :
    t.meets .anyObject s n = t.isValid n := by
  have known : Inquiry.Says (Rule.anyObject.accepts s t.atRest n) (t.isValid n) := by
    refine (Inquiry.says_ask rfl).bind ?_
    split
    · rename_i hv
      intro asked
      change (true != (s.honorInvert && false)) = t (.isValid n)
      rw [Bool.and_false, hv]
      rfl
    · rename_i hv
      rw [show t.isValid n = false by simpa using hv]
      exact Inquiry.says_pure false
  exact known _

lemma isValid_of_meets {t : Tree ν} {r : Rule} {s : Settings} {n : ν} (h : t.meets r s n = true) :
    t.isValid n = true := by
  by_contra hv
  have known : Inquiry.Says (r.accepts s t.atRest n) false := by
    refine (Inquiry.says_ask (rfl : _ = t.isValid n)).bind ?_
    rw [if_neg hv]
    exact Inquiry.says_pure false
  exact Bool.false_ne_true ((known _).symm.trans h)

end Tree

namespace Rule

variable {r : Rule} {s : Settings} {t : Tree ν} {n : ν}

/-- To ask a tree at rest leaves no trace, so an inquiry is no more than its answer. -/
lemma accepts_atRest : r.accepts s t.atRest n = pure (t.meets r s n) := by
  have closed : Closed fun α (x : Inquiry Unit ν α) => ∃ a, x = pure a := by
    refine ⟨fun a => ⟨a, rfl⟩, ?_⟩
    rintro α β x f ⟨a, rfl⟩ hf
    obtain ⟨b, hb⟩ := hf a
    exact ⟨b, by rw [pure_bind, hb]⟩
  obtain ⟨a, ha⟩ := closed.accepts (r := r) (s := s) (n := n) fun q _ =>
    ⟨t q, (rfl : ask t.atRest q = pure (t q))⟩
  rw [Tree.meets, ha]
  rfl

lemma says_accepts : Says (r.accepts s t.atRest n) (t.meets r s n) := by
  rw [accepts_atRest]
  exact says_pure _

end Rule

/-! ### Walks -/

namespace WalkM

/-- The end that a walk comes to, the stop and what is found. -/
def outcome (x : WalkM σ ν α) (w : Walk σ ν) : Except Walk.Halt α × Option ν × Array ν :=
  match x w with
  | .ok a w => (.ok a, w.stop, w.found)
  | .error e w => (.error e, w.stop, w.found)

/-- Both walks come to the same end, whatever was asked and reported before. -/
def Alike (x y : WalkM σ ν α) : Prop := ∀ asked asked' stop found,
  outcome x ⟨asked, stop, found⟩ = outcome y ⟨asked', stop, found⟩

variable {x y z : WalkM σ ν α} {f g : α → WalkM σ ν β} {a : α} {asked : Logged σ (Event ν)}
  {stop stop' : Option ν} {found found' : Array ν}

lemma exists_outcome_bind (h : outcome x ⟨asked, stop, found⟩ = (.ok a, stop', found')) :
    ∃ asked', outcome (x >>= f) ⟨asked, stop, found⟩ = outcome (f a) ⟨asked', stop', found'⟩ := by
  unfold outcome at h
  split at h
  · rename_i b w hx
    cases h
    refine ⟨w.asked, ?_⟩
    rw [outcome, bind_apply, hx]
    rfl
  · cases h

lemma outcome_bind {r : Except Walk.Halt β × Option ν × Array ν}
    (h : outcome x ⟨asked, stop, found⟩ = (.ok a, stop', found'))
    (hf : ∀ asked', outcome (f a) ⟨asked', stop', found'⟩ = r) :
    outcome (x >>= f) ⟨asked, stop, found⟩ = r := by
  obtain ⟨asked', hx⟩ := exists_outcome_bind h
  exact hx.trans (hf asked')

lemma outcome_bind_error {e : Walk.Halt}
    (h : outcome x ⟨asked, stop, found⟩ = (.error e, stop', found')) :
    outcome (x >>= f) ⟨asked, stop, found⟩ = (.error e, stop', found') := by
  unfold outcome at h
  split at h
  · cases h
  · rename_i e w hx
    cases h
    rw [outcome, bind_apply, hx]

lemma Alike.symm (h : Alike x y) : Alike y x := fun _ _ _ _ => (h _ _ _ _).symm

lemma Alike.trans (h : Alike x y) (h' : Alike y z) : Alike x z := fun asked _ _ _ =>
  (h _ asked _ _).trans (h' _ _ _ _)

lemma Alike.bind (h : Alike x y) (hf : ∀ a, Alike (f a) (g a)) : Alike (x >>= f) (y >>= g) := by
  intro asked asked' stop found
  rcases hx : outcome x ⟨asked, stop, found⟩ with ⟨e | a, stop', found'⟩
  · rw [outcome_bind_error hx, outcome_bind_error ((h asked asked' stop found).symm.trans hx)]
  · refine outcome_bind hx fun asked₁ => ?_
    refine (outcome_bind ((h asked asked' stop found).symm.trans hx) fun asked₂ => ?_).symm
    exact (hf a _ _ _ _).symm

lemma alike_pure (a : α) : Alike (pure a : WalkM σ ν α) (pure a) := fun _ _ _ _ => rfl

lemma alike_stopAt (stop : Option ν) : Alike (stopAt stop : WalkM σ ν Unit) (stopAt stop) :=
  fun _ _ _ _ => rfl

lemma alike_isStop [DecidableEq ν] (n : ν) : Alike (isStop n : WalkM σ ν Bool) (isStop n) :=
  fun _ _ _ _ => rfl

lemma alike_keep (n : ν) : Alike (keep n : WalkM σ ν Unit) (keep n) := fun _ _ _ _ => rfl

lemma outcome_isStop_bind [DecidableEq ν] {n : ν} {f : Bool → WalkM σ ν α} :
    outcome (isStop n >>= f) ⟨asked, stop, found⟩ =
      outcome (f (stop == some n)) ⟨asked, stop, found⟩ := rfl

lemma outcome_ask {q : Inquiry σ ν α} {r : Except Walk.Halt β × Option ν × Array ν}
    (h : Inquiry.Says q a) (hf : ∀ asked', outcome (f a) ⟨asked', stop, found⟩ = r) :
    outcome (liftM q >>= f) ⟨asked, stop, found⟩ = r := by
  change outcome (f (q asked).1) ⟨(q asked).2, stop, found⟩ = r
  rw [h asked]
  exact hf _

/-- An inquiry with one answer may be left out. -/
lemma alike_ask {q : Inquiry σ ν α} {y : WalkM σ ν β} (h : Inquiry.Says q a)
    (hf : Alike (f a) y) : Alike (liftM q >>= f) y :=
  fun _ _ _ _ => outcome_ask h fun _ => hf _ _ _ _

lemma Alike.left (h : Alike x y) : Alike x x := h.trans h.symm

end WalkM

open WalkM

/-! ### Visits -/

namespace Walker

lemma outcome_checkLimit (w : Walker σ ν) (asked : Logged σ (Event ν)) (stop : Option ν)
    (found : Array ν) : outcome w.checkLimit ⟨asked, stop, found⟩ =
      (if w.isFull found then .error .broken else .ok (), stop, found) := by
  rw [outcome, checkLimit_apply]
  dsimp only
  cases w.isFull found <;> rfl

lemma alike_checkLimit (w : Walker σ ν) : Alike w.checkLimit w.checkLimit :=
  fun asked asked' stop found =>
    (w.outcome_checkLimit asked stop found).trans (w.outcome_checkLimit asked' stop found).symm

lemma checkLimit_eq {w : Walker σ ν} (hl : w.limit = 0) : w.checkLimit = pure () := by
  funext k
  rw [checkLimit_apply, isFull, hl]
  rfl

section

variable {w : Walker Unit ν} {t : Tree ν} (hw : w.tree = t.atRest)
include hw

lemma says_ask {q : Question ν} {a : q.Answer} (h : t q = a) : Inquiry.Says (w.ask q) a := by
  rw [ask, hw]
  exact Inquiry.says_ask h

lemma says_enters (n : ν) : Inquiry.Says (w.enters n) (t.mayEnter w.traverse n) := by
  unfold enters Tree.mayEnter
  cases w.traverse
  · exact (says_ask hw rfl).map _
  · exact Inquiry.says_pure true

lemma says_accepts (n : ν) : Inquiry.Says (w.accepts n) (t.meets w.rule w.settings n) := by
  rw [accepts, hw]
  exact Rule.says_accepts

end

variable [DecidableEq ν]

/-- Whether an object that a walk comes to is kept. -/
def keeps (w : Walker σ ν) (t : Tree ν) (n : ν) : Bool :=
  n ≠ w.anchor && t.meets w.rule w.settings n

lemma keeps_filter {w : Walker σ ν} {t : Tree ν} {l : List ν} (h : ∀ n ∈ l, n ≠ w.anchor) :
    l.filter (w.keeps t) = l.filter (t.meets w.rule w.settings) :=
  List.filter_congr fun n hn => by simp [keeps, h n hn]

/-- Visits an object that is not the stop. -/
def arrive (w : Walker σ ν) (n : ν) : WalkM σ ν Unit := do
  if ← WalkM.isStop n then throw .broken
  w.visit n

/-- Arrives at one object after the other. -/
def pass (w : Walker σ ν) : List ν → WalkM σ ν Unit
  | [] => pure ()
  | n :: l => w.arrive n >>= fun _ => pass w l

lemma pass_append (w : Walker σ ν) (l l' : List ν) :
    w.pass (l ++ l') = w.pass l >>= fun _ => w.pass l' := by
  induction l with
  | nil => rfl
  | cons n l ih => rw [List.cons_append, pass, pass, ih, bind_assoc]

variable {w : Walker Unit ν} {t : Tree ν} {n x : ν} {l l' : List ν}
  {asked : Logged Unit (Event ν)} {stop : Option ν} {found : Array ν} (hw : w.tree = t.atRest)
include hw

lemma alike_visit : Alike (w.visit n) (do
    w.checkLimit
    if w.keeps t n then
      WalkM.keep n
      w.checkLimit) := by
  refine (alike_checkLimit w).bind fun _ => ?_
  by_cases hn : n = w.anchor
  · rw [if_neg (not_not_intro hn), keeps, if_neg (by simp [hn])]
    exact alike_pure ()
  · have hk : w.keeps t n = t.meets w.rule w.settings n := by simp [keeps, hn]
    rw [if_pos hn, hk]
    refine alike_ask (says_accepts hw n) ?_
    cases t.meets w.rule w.settings n
    · exact alike_pure ()
    · exact (alike_keep n).bind fun _ => alike_checkLimit w

/-! ### What is found without a limit -/

variable (hl : w.limit = 0)
include hl

lemma outcome_visit : outcome (w.visit n) ⟨asked, stop, found⟩ =
    (.ok (), stop, found ++ ([n].filter (w.keeps t)).toArray) := by
  rw [alike_visit hw asked asked, checkLimit_eq hl]
  cases h : w.keeps t n <;> simp [h] <;> rfl

lemma outcome_pass (hs : ∀ n ∈ l, stop ≠ some n) : outcome (w.pass l) ⟨asked, stop, found⟩ =
    (.ok (), stop, found ++ (l.filter (w.keeps t)).toArray) := by
  induction l generalizing asked found with
  | nil => simp [pass]; rfl
  | cons n l ih =>
    have hn : (stop == some n) = false := by simp [hs n List.mem_cons_self]
    have ha : outcome (w.arrive n) ⟨asked, stop, found⟩ =
        (.ok (), stop, found ++ ([n].filter (w.keeps t)).toArray) := by
      rw [arrive, outcome_isStop_bind, hn]
      exact outcome_visit hw hl
    refine outcome_bind ha fun asked' => ?_
    rw [ih fun n h => hs n (List.mem_cons_of_mem _ h)]
    cases hk : w.keeps t n <;> simp [hk]

/-- The stop ends a walk that arrives at it. -/
lemma outcome_pass_stop (hs : ∀ n ∈ l, n ≠ x) :
    outcome (w.pass (l ++ x :: l')) ⟨asked, some x, found⟩ =
      (.error .broken, some x, found ++ (l.filter (w.keeps t)).toArray) := by
  have hp : outcome (w.pass l) ⟨asked, some x, found⟩ =
      (.ok (), some x, found ++ (l.filter (w.keeps t)).toArray) :=
    outcome_pass hw hl fun n h he => hs n h (Option.some.inj he).symm
  rw [pass_append]
  refine outcome_bind hp fun asked' => outcome_bind_error ?_
  rw [arrive, outcome_isStop_bind, beq_self_eq_true]
  rfl

end Walker

/-! ### Searches -/

namespace Search

/-- The search comes to its end with the same result whatever was asked and reported before. -/
def Gives (x : Search σ ν α) (a : α) : Prop := Inquiry.Says x.run (some a)

variable {x : Search σ ν α} {f : α → Search σ ν β} {a : α} {b : β}

lemma gives_pure (a : α) : Gives (pure a : Search σ ν α) a := fun _ => rfl

lemma Gives.bind (h : Gives x a) (hf : Gives (f a) b) : Gives (x >>= f) b := by
  rw [Gives, OptionT.run_bind]
  exact Inquiry.Says.bind h hf

lemma Gives.map (h : Gives x a) (f : α → β) : Gives (f <$> x) (f a) := by
  rw [map_eq_pure_bind]
  exact h.bind (gives_pure (f a))

/-- Where each search of a list ends, they all end one after the other. -/
lemma gives_mapM {g : α → β} {l : List α} (h : ∀ a ∈ l, Gives (f a) (g a)) :
    Gives (l.mapM f) (l.map g) := by
  induction l with
  | nil => exact gives_pure []
  | cons a l ih =>
    obtain ⟨ha, hl⟩ := List.forall_mem_cons.1 h
    rw [List.mapM_cons]
    exact ha.bind ((ih hl).bind (gives_pure _))

lemma gives_lift {x : Inquiry σ ν α} (h : Inquiry.Says x a) : Gives (OptionT.lift x) a :=
  fun asked => congrArg some (h asked)

lemma gives_note (n : Notice ν) : Gives (note n : Search σ ν Unit) () :=
  gives_lift (Inquiry.says_note n)

lemma gives_ask {t : Tree ν} {q : Question ν} {a : q.Answer} (h : t q = a) :
    Gives (ask t.atRest q) a :=
  gives_lift (Inquiry.says_ask h)

lemma gives_finish (reverse : Bool) (l : List ν) : Gives (finish reverse l : Search σ ν (List ν))
    (if reverse then l.reverse else l) :=
  (gives_note _).bind (gives_pure _)

lemma collect_eq {x : WalkM σ ν Unit} {stop : Option ν} {asked : Logged σ (Event ν)} :
    (collect stop x asked).1 =
      match outcome x ⟨asked, stop, #[]⟩ with
      | (.ok _, _, found) | (.error .broken, _, found) => some found.toList
      | (.error .exhausted, _, _) => none := by
  rw [collect, outcome]
  rcases x ⟨asked, stop, #[]⟩ with ⟨_, w⟩ | ⟨_ | _, w⟩ <;> rfl

lemma gives_collect {x : WalkM σ ν Unit} {stop : Option ν} {l : List ν}
    (h : ∀ asked, ∃ r stop', r ≠ .error .exhausted ∧
      outcome x ⟨asked, stop, #[]⟩ = (r, stop', l.toArray)) : Gives (collect stop x) l := by
  intro asked
  obtain ⟨r, stop', hr, ho⟩ := h asked
  refine collect_eq.trans ?_
  rw [ho]
  rcases r with (_ | _) | _
  · rfl
  · exact absurd rfl hr
  · rfl

lemma Gives.of_alike {x y : WalkM σ ν Unit} {stop : Option ν} {l : List ν}
    (h : Gives (collect stop y) l) (hxy : Alike x y) : Gives (collect stop x) l := by
  intro asked
  have heq : (collect stop x asked).1 = (collect stop y asked).1 := by
    rw [collect_eq, collect_eq, hxy asked asked stop #[]]
  exact heq.trans (h asked)

end Search

end AccessTree
