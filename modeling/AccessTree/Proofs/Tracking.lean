import AccessTree.Proofs.Answers
import AccessTree.Proofs.Lockstep
import AccessTree.Proofs.WalkInquiries

/-!
Walks that track each other. Of two walks through a tree at rest, one for a rule and with a limit
and one for any object and without a limit, the first keeps what the rule accepts of what the
second keeps, until the limit breaks it off.
-/

namespace AccessTree

variable {ν α β : Type} {t : Tree ν}

open WalkM

namespace Walker

/-- The same walk for any object and without a limit. -/
def plain (w : Walker Unit ν) : Walker Unit ν :=
  { w with rule := .anyObject, settings := { w.settings with maxResults := 0 }, limit := 0 }

/-- Where the second walk comes to its end, the first one keeps what the rule accepts of what the
second one keeps, and comes to the same end unless the limit breaks it off before. -/
def Tracks (w : Walker Unit ν) (t : Tree ν) (x y : WalkM Unit ν α) : Prop :=
  ∀ asked stop found e stop' found', outcome y ⟨asked, stop, found⟩ = (e, stop', found') →
    e ≠ .error .exhausted → ∃ new : List ν, found' = found ++ new.toArray ∧
      ∀ asked kept, w.isFull kept = false →
        let all := kept ++ (new.filter (t.meets w.rule w.settings)).toArray
        (w.isFull all = false ∧ outcome x ⟨asked, stop, kept⟩ = (e, stop', all)) ∨
        (w.isFull all = true ∧ ∃ stop', outcome x ⟨asked, stop, kept⟩ =
          (.error .broken, stop', all.take w.limit))

lemma encloses_plain [DecidableEq ν] (w : Walker Unit ν) (collection n : ν) :
    w.plain.encloses collection n = w.encloses collection n :=
  w.encloses_update .anyObject { w.settings with maxResults := 0 } 0 collection n

lemma previous_plain (w : Walker Unit ν) (n : ν) : w.plain.previous n = w.previous n :=
  w.previous_update .anyObject { w.settings with maxResults := 0 } 0 n

variable {w : Walker Unit ν} {x y : WalkM Unit ν α} {f g : α → WalkM Unit ν β} {a : α}

lemma isFull_append {kept new : Array ν} (h : w.isFull kept = true) :
    w.isFull (kept ++ new) = true := by
  simp only [isFull, Bool.and_eq_true, decide_eq_true_eq, Array.size_append] at h ⊢
  exact ⟨h.1, by omega⟩

lemma take_limit_append {kept new : Array ν} (h : w.isFull kept = true) :
    (kept ++ new).take w.limit = kept.take w.limit := by
  simp only [isFull, Bool.and_eq_true, decide_eq_true_eq] at h
  refine Array.ext' ?_
  simp only [Array.take_eq_extract, Array.toList_extract]
  simp [List.take_append_of_le_length, h.2]

/-- One more object does not go beyond a limit that is not reached before. -/
lemma take_limit_of_step {kept : Array ν} {new : List ν} (hk : w.isFull kept = false)
    (hall : w.isFull (kept ++ new.toArray) = true) (hn : new.length ≤ 1) :
    (kept ++ new.toArray).take w.limit = kept ++ new.toArray := by
  have hsize : (kept ++ new.toArray).size ≤ w.limit := by
    simp [isFull] at hk hall ⊢
    have := hk hall.1
    omega
  rw [Array.take_eq_extract, Array.extract_eq_self_of_le hsize]

lemma tracks_exhausted : w.Tracks t x (throw .exhausted) := by
  intro asked stop found e stop' found' h he
  cases h
  exact absurd rfl he

/-- A step that leaves alone what is found, and does not look at it. -/
lemma tracks_of_silent (end_ : Option ν → Except Walk.Halt α × Option ν)
    (h : ∀ asked stop found, outcome x ⟨asked, stop, found⟩ =
      ((end_ stop).1, (end_ stop).2, found)) : w.Tracks t x x := by
  intro asked stop found e stop' found' hx _
  rw [h] at hx
  cases hx
  refine ⟨[], by simp, fun asked kept hk => Or.inl ?_⟩
  simp [hk, h]

lemma tracks_broken : w.Tracks t (throw .broken : WalkM Unit ν α) (throw .broken) :=
  tracks_of_silent (fun stop => (.error .broken, stop)) fun _ _ _ => rfl

lemma tracks_pure (a : α) : w.Tracks t (pure a : WalkM Unit ν α) (pure a) :=
  tracks_of_silent (fun stop => (.ok a, stop)) fun _ _ _ => rfl

lemma tracks_stopAt (stop : Option ν) : w.Tracks t (stopAt stop) (stopAt stop) :=
  tracks_of_silent (fun _ => (.ok (), stop)) fun _ _ _ => rfl

lemma tracks_isStop [DecidableEq ν] (n : ν) : w.Tracks t (isStop n) (isStop n) :=
  tracks_of_silent (fun stop => (.ok (stop == some n), stop)) fun _ _ _ => rfl

lemma tracks_of_answer {q : Inquiry Unit ν α} (h : Inquiry.Says q a) :
    w.Tracks t (liftM q : WalkM Unit ν α) (liftM q) :=
  tracks_of_silent (fun stop => (.ok a, stop)) fun asked _ _ => by
    rw [← h asked]
    rfl

lemma Tracks.bind (h : w.Tracks t x y) (hf : ∀ a, w.Tracks t (f a) (g a)) :
    w.Tracks t (x >>= f) (y >>= g) := by
  intro asked stop found e stop' found' hg he
  rcases hy : outcome y ⟨asked, stop, found⟩ with ⟨e₁ | a, stop₁, found₁⟩
  · -- The second walk ends in its first part, and so does the first walk.
    rw [outcome_bind_error hy] at hg
    cases hg
    obtain ⟨new, hnew, hx⟩ := h _ _ _ _ _ _ hy fun he' => he (by rw [Except.error.inj he'])
    refine ⟨new, hnew, fun asked kept hk => ?_⟩
    rcases hx asked kept hk with ⟨hall, hx⟩ | ⟨hall, stop', hx⟩
    · exact Or.inl ⟨hall, outcome_bind_error hx⟩
    · exact Or.inr ⟨hall, stop', outcome_bind_error hx⟩
  · obtain ⟨new, rfl, hx⟩ := h _ _ _ _ _ _ hy (by simp)
    obtain ⟨asked₁, he₁⟩ := exists_outcome_bind (f := g) hy
    obtain ⟨new', rfl, hfa⟩ := hf a _ _ _ _ _ _ (he₁.symm.trans hg) he
    refine ⟨new ++ new', by simp, fun asked kept hk => ?_⟩
    dsimp only
    rw [List.filter_append, ← List.append_toArray, ← Array.append_assoc]
    rcases hx asked kept hk with ⟨hmid, hx⟩ | ⟨hmid, stop', hx⟩
    · -- There is room in the middle, and the second parts track each other from there.
      obtain ⟨asked', he'⟩ := exists_outcome_bind (f := f) hx
      rw [he']
      exact hfa asked' _ hmid
    · -- The limit has broken the first walk off, and what comes later is cut away.
      refine Or.inr ⟨isFull_append hmid, stop', ?_⟩
      rw [take_limit_append hmid]
      exact outcome_bind_error hx

lemma tracks_of_steady {q : Inquiry Unit ν α} (hq : Inquiry.Steady q) :
    w.Tracks t (liftM q : WalkM Unit ν α) (liftM q) := by
  obtain ⟨a, ha⟩ := hq
  exact tracks_of_answer ha

variable [DecidableEq ν]

/-- What is kept of any objects, and then meets the rule, is what is kept. -/
lemma filter_plain_keeps (l : List ν) : (l.filter (w.plain.keeps t)).filter
    (t.meets w.rule w.settings) = l.filter (w.keeps t) := by
  rw [List.filter_filter]
  refine List.filter_congr fun m _ => ?_
  rw [Walker.keeps, Walker.keeps]
  cases hm : t.meets w.rule w.settings m
  · simp
  · by_cases ha : m = w.anchor <;>
      simp [plain, Tree.meets_anyObject, Tree.isValid_of_meets hm, ha]

variable (hw : w.tree = t.atRest)
include hw

lemma outcome_visit_limited {n : ν} {asked : Logged Unit (Event ν)} {stop : Option ν}
    {kept : Array ν} (hk : w.isFull kept = false) :
    let all := kept ++ ([n].filter (w.keeps t)).toArray
    outcome (w.visit n) ⟨asked, stop, kept⟩ =
      (if w.isFull all then .error .broken else .ok (), stop, all) := by
  rw [alike_visit hw asked asked]
  have hfirst := w.outcome_checkLimit asked stop kept
  rw [hk] at hfirst
  refine outcome_bind hfirst fun asked' => ?_
  cases hn : w.keeps t n
  · simp [hn, hk]
    rfl
  · simp only [List.filter_singleton, hn]
    exact outcome_bind rfl fun asked' => (w.outcome_checkLimit asked' stop _).trans (by simp)

lemma tracks_visit (n : ν) : w.Tracks t (w.visit n) (w.plain.visit n) := by
  intro asked stop found e stop' found' h _
  rw [outcome_visit (w := w.plain) hw rfl] at h
  cases h
  refine ⟨[n].filter (w.plain.keeps t), rfl, fun asked kept hk => ?_⟩
  rw [filter_plain_keeps]
  have hv : outcome (w.visit n) ⟨asked, stop, kept⟩ = _ := outcome_visit_limited hw hk
  dsimp only at hv ⊢
  cases hall : w.isFull (kept ++ ([n].filter (w.keeps t)).toArray)
  · exact Or.inl ⟨rfl, hv.trans (by rw [hall]; rfl)⟩
  · refine Or.inr ⟨rfl, stop, hv.trans ?_⟩
    rw [if_pos hall, take_limit_of_step hk hall]
    exact List.length_filter_le _ _

/-! ### Walks -/

lemma steady_encloses (collection n : ν) : Inquiry.Steady (w.encloses collection n) :=
  Inquiry.closed_steady.encloses (fun q => ⟨t q, says_ask hw rfl⟩)
    (fun m => ⟨(), Inquiry.says_note m⟩) collection n

omit [DecidableEq ν] in
lemma steady_nextChild (n : ν) (index : Nat) : Inquiry.Steady (w.nextChild n index) :=
  Inquiry.closed_steady.nextChild (fun q => ⟨t q, says_ask hw rfl⟩) n index

omit [DecidableEq ν] in
lemma steady_previous (n : ν) : Inquiry.Steady (w.previous n) :=
  Inquiry.closed_steady.previous (fun q => ⟨t q, says_ask hw rfl⟩)
    (fun m => ⟨(), Inquiry.says_note m⟩) n

/-- The walker for a rule and with a limit goes the way of the one without. -/
theorem lockstep_tracks : w.plain.Lockstep (fun _ x y => w.Tracks t y x) w where
  maxDepth := Nat.le_refl w.maxDepth
  tooDeep hlt := absurd hlt (Nat.lt_irrefl w.maxDepth)
  answer := tracks_pure
  next h hf := h.bind hf
  broken := tracks_broken
  exhausted _ := tracks_exhausted
  stopAt := tracks_stopAt
  isStop := tracks_isStop
  visit := tracks_visit hw
  note m := tracks_of_answer (Inquiry.says_note m)
  parent _ := tracks_of_answer (says_ask hw rfl)
  indexInParent _ := tracks_of_answer (says_ask hw rfl)
  enters n := tracks_of_answer (says_enters hw n)
  nextChild n index := tracks_of_steady (steady_nextChild hw n index)
  encloses collection n := by
    rw [encloses_plain]
    exact tracks_of_steady (steady_encloses hw collection n)
  previous n := by
    rw [previous_plain]
    exact tracks_of_steady (steady_previous hw n)

end Walker

end AccessTree
