import AccessTree.Proofs.Preorder

/-!
Edits that a registry refuses. An edit is refused where a handle that it names is gone, where it
would put an object below itself, and where there is no such place among the other children. A
refused edit leaves no trace: the registry goes on as if it had not been tried.
-/

namespace AccessTree.Registry

/-- The handles that an edit names. -/
def Edit.handles : Edit → List ObjectId
  | register _ => []
  | registerChild p _ => [p]
  | destroy i => [i]
  | setParent i parent? => i :: parent?.toList
  | insertChild p _ c => [c, p]
  | setName i _ | setRole i _ | setStates i _ | setState i _ _ | setAttributes i _
  | setInterfaces i _ | setData i _ => [i]

/-- The object that an edit puts below another one, and that other one. -/
def Edit.link? : Edit → Option (ObjectId × ObjectId)
  | setParent c (some p) | insertChild p _ c => some (c, p)
  | _ => none

/-- Why a registry refuses an edit. A later reason counts only where no earlier one does. -/
inductive Refuses (r : Registry) (e : Edit) : Error → Prop
  | gone {i : ObjectId} (hi : i ∈ e.handles) (h : r.contains i = false) :
      Refuses r e .invalidObjectId
  | circle {c p : ObjectId} {l : List ObjectId} (hlink : e.link? = some (c, p))
      (there : ∀ i ∈ e.handles, r.contains i = true) (hl : r.preorder c = .ok l) (h : p ∈ l) :
      Refuses r e .circularParentage
  | noPlace {c p : ObjectId} {l siblings : List ObjectId} {index : Nat}
      (he : e = .insertChild p index c) (there : ∀ i ∈ e.handles, r.contains i = true)
      (hl : r.preorder c = .ok l) (hp : p ∉ l) (hs : r.children p = .ok siblings)
      (h : siblings.countP (· != c) < index) :
      Refuses r e (.childIndexOutOfRange index (siblings.countP (· != c)))

variable {r : Registry} {c i p : ObjectId} {index : Nat} {e : Edit} {err : Error}
  {s : Logged Registry (Change ObjectId)}

/-- There is one reason at most. -/
lemma Refuses.unique {err' : Error} (h : r.Refuses e err) (h' : r.Refuses e err') :
    err = err' := by
  -- The reasons exclude each other: the later ones ask for all objects to be there, a circle has
  -- the parent below the child, and a missing place does not.
  have absurd_gone : ∀ {i}, i ∈ e.handles → r.contains i = false →
      (∀ i ∈ e.handles, r.contains i = true) → False := fun hi hgone there =>
    Bool.false_ne_true (hgone.symm.trans (there _ hi))
  cases h with
  | gone hi hgone =>
    cases h' with
    | gone => rfl
    | circle _ there => exact (absurd_gone hi hgone there).elim
    | noPlace _ there => exact (absurd_gone hi hgone there).elim
  | circle hlink there hl hp =>
    cases h' with
    | gone hi hgone => exact (absurd_gone hi hgone there).elim
    | circle => rfl
    | noPlace he _ hl' hp' =>
      subst he
      cases hlink
      rw [hl] at hl'
      cases hl'
      exact absurd hp hp'
  | noPlace he there hl hp hs h =>
    subst he
    cases h' with
    | gone hi hgone => exact (absurd_gone hi hgone there).elim
    | circle hlink _ hl' hp' =>
      cases hlink
      rw [hl] at hl'
      cases hl'
      exact absurd hp' hp
    | noPlace he _ _ _ hs' =>
      cases he
      rw [hs] at hs'
      cases hs'
      rfl

/-- An edit is either refused, and then nothing changes and nothing is reported, or carried out
where nothing stands against it. -/
def Settles (r : Registry) (e : Edit) : Prop :=
  (∃ err, r.Refuses e err ∧ r.apply e = (.error err, ⟨r, #[]⟩)) ∨
    (∀ err, ¬ r.Refuses e err) ∧ ∃ made s, r.apply e = (.ok made, s)

lemma Settles.iff (h : r.Settles e) (err : Error) (s : Logged Registry (Change ObjectId)) :
    r.apply e = (.error err, s) ↔ r.Refuses e err ∧ s = ⟨r, #[]⟩ := by
  rcases h with ⟨err', hr, he⟩ | ⟨hr, made, s', he⟩
  · rw [he, Prod.mk.injEq, Except.error.injEq]
    constructor
    · rintro ⟨rfl, rfl⟩
      exact ⟨hr, rfl⟩
    · rintro ⟨hr', rfl⟩
      exact ⟨hr.unique hr', rfl⟩
  · rw [he, Prod.mk.injEq]
    refine ⟨?_, fun hr' => absurd hr'.1 (hr err)⟩
    rintro ⟨⟨⟩, -⟩

lemma not_refuses (there : ∀ i ∈ e.handles, r.contains i = true)
    (hcircle : ∀ c p l, e.link? = some (c, p) → r.preorder c = .ok l → p ∉ l)
    (hplace : ∀ p index c siblings, e = .insertChild p index c → r.children p = .ok siblings →
      index ≤ siblings.countP (· != c)) : ¬ r.Refuses e err := by
  intro h
  cases h with
  | gone hi hgone => exact Bool.false_ne_true (hgone.symm.trans (there _ hi))
  | circle hlink _ hl hp => exact hcircle _ _ _ hlink hl hp
  | noPlace he _ _ _ hs hlt => exact absurd hlt (Nat.not_lt.2 (hplace _ _ _ _ he hs))

lemma apply_silent {u : Update Unit} (he : e.run = Edit.silent u) :
    r.apply e = match u ⟨r, #[]⟩ with
      | .ok _ s => (.ok none, s)
      | .error err s => (.error err, s) := by
  unfold apply
  rw [he, Edit.silent, bind_apply]
  cases u ⟨r, #[]⟩ <;> rfl

/-! ### Edits of one object -/

/-- An edit that asks only for its one object to be there. -/
lemma settles_of_single {u : Update Unit} (he : e.run = Edit.silent u) (hh : e.handles = [i])
    (hlink : e.link? = none)
    (hgone : r.contains i = false → u ⟨r, #[]⟩ = .error .invalidObjectId ⟨r, #[]⟩)
    (hthere : r.contains i = true → ∃ s, u ⟨r, #[]⟩ = .ok () s) : r.Settles e := by
  cases hi : r.contains i with
  | false =>
    refine Or.inl ⟨.invalidObjectId, .gone (hh ▸ List.mem_singleton_self i) hi, ?_⟩
    rw [apply_silent he, hgone hi]
  | true =>
    obtain ⟨s, hs⟩ := hthere hi
    refine Or.inr ⟨fun err => not_refuses (fun j hj => ?_) ?_ ?_, none, s, ?_⟩
    · rw [hh] at hj
      exact List.mem_singleton.1 hj ▸ hi
    · simp [hlink]
    · rintro p index c siblings rfl
      cases hlink
    · rw [apply_silent he, hs]

lemma settles_setData {f : ObjectData → ObjectData}
    (he : e.run = Edit.silent (Registry.setData i f)) (hh : e.handles = [i])
    (hlink : e.link? = none) : r.Settles e := by
  refine settles_of_single he hh hlink (fun hi => ?_) fun hi => ?_
  · rw [setData_eq, if_neg (by simp [hi])]
  · rw [setData_eq, if_pos hi]
    exact ⟨_, rfl⟩

lemma settles_destroy : r.Settles (.destroy i) := by
  refine settles_of_single rfl rfl rfl destroy_eq_error fun hi => ?_
  rw [destroy_eq hi]
  exact ⟨_, rfl⟩

lemma settles_setParent_none : r.Settles (.setParent i none) := by
  refine settles_of_single rfl rfl rfl (fun hi => ?_) fun hi => ?_
  · rw [setParent_none_eq, if_neg (by simp [hi])]
  · rw [setParent_none_eq, if_pos hi]
    exact ⟨_, rfl⟩

/-! ### Edits that link two objects -/

namespace Sound

variable (h : r.Sound)
include h

/-- What becomes of a child that is to be put among the children of a parent. -/
lemma insertChild_cases (p : ObjectId) (index : Nat) (c : ObjectId)
    (log : Array (Change ObjectId)) :
    (∃ i ∈ [c, p], r.contains i = false ∧
      Registry.insertChild p index c ⟨r, log⟩ = .error .invalidObjectId ⟨r, log⟩) ∨
    (∀ i ∈ [c, p], r.contains i = true) ∧ r.children p = .ok (r.childrenOf p) ∧
      ∃ l, r.preorder c = .ok l ∧
        (p ∈ l ∧ Registry.insertChild p index c ⟨r, log⟩ = .error .circularParentage ⟨r, log⟩ ∨
          p ∉ l ∧ ((r.childrenOf p).countP (· != c) < index ∧
              Registry.insertChild p index c ⟨r, log⟩ = .error (.childIndexOutOfRange index
                ((r.childrenOf p).countP (· != c))) ⟨r, log⟩ ∨
            index ≤ (r.childrenOf p).countP (· != c) ∧
              ∃ s, Registry.insertChild p index c ⟨r, log⟩ = .ok () s)) := by
  rw [insertChild_eq]
  by_cases hc : r.contains c = true
  swap
  · exact Or.inl ⟨c, by simp, by simpa using hc, if_neg fun hlive => hc hlive.1⟩
  by_cases hp : r.contains p = true
  swap
  · exact Or.inl ⟨p, by simp, by simpa using hp, if_neg fun hlive => hp hlive.2⟩
  have hl := h.preorder_eq hc
  -- The climb from the parent and the listing from the child are two ways to find a circle.
  have hcircle := (h.isAncestor_iff_reaches (c := c) hp).trans (h.mem_preorder_iff hc hl).symm
  refine Or.inr ⟨by simp [hc, hp], children_eq hp, _, hl, ?_⟩
  rw [if_pos ⟨hc, hp⟩]
  by_cases ha : r.isAncestor c p = true
  · exact Or.inl ⟨hcircle.1 ha, if_pos ha⟩
  rw [if_neg ha]
  refine Or.inr ⟨fun hm => ha (hcircle.2 hm), ?_⟩
  by_cases hi : (r.childrenOf p).countP (· != c) < index
  · exact Or.inl ⟨hi, if_pos hi⟩
  · exact Or.inr ⟨Nat.le_of_not_lt hi, _, if_neg hi⟩

lemma settles_insertChild : r.Settles (.insertChild p index c) := by
  have happly := apply_silent (r := r) (e := .insertChild p index c) rfl
  obtain ⟨i, hi, hgone, hx⟩ | ⟨there, hs, l, hl, ⟨hp, hx⟩ | ⟨hp, ⟨hlt, hx⟩ | ⟨hle, s, hx⟩⟩⟩ :=
    h.insertChild_cases p index c #[]
  all_goals rw [hx] at happly
  · exact Or.inl ⟨_, .gone hi hgone, happly⟩
  · exact Or.inl ⟨_, .circle rfl there hl hp, happly⟩
  · exact Or.inl ⟨_, .noPlace rfl there hl hp hs hlt, happly⟩
  · refine Or.inr ⟨fun err => not_refuses there ?_ ?_, none, s, happly⟩
    · rintro _ _ l' ⟨⟩ hl'
      rw [hl] at hl'
      exact Except.ok.inj hl' ▸ hp
    · rintro _ _ _ siblings ⟨⟩ hs'
      rw [hs] at hs'
      exact Except.ok.inj hs' ▸ hle

/-- There is always a place behind the other children. -/
lemma settles_setParent_some : r.Settles (.setParent c (some p)) := by
  have happly := apply_silent (r := r) (e := .setParent c (some p)) rfl
  rw [setParent_some_eq] at happly
  obtain ⟨i, hi, hgone, hx⟩ | ⟨there, -, l, hl, ⟨hp, hx⟩ | ⟨hp, ⟨hlt, -⟩ | ⟨-, s, hx⟩⟩⟩ :=
    h.insertChild_cases p ((r.childrenOf p).countP (· != c)) c #[]
  · rw [hx] at happly
    exact Or.inl ⟨_, .gone hi hgone, happly⟩
  · rw [hx] at happly
    exact Or.inl ⟨_, .circle rfl there hl hp, happly⟩
  · exact absurd hlt (Nat.lt_irrefl _)
  · rw [hx] at happly
    refine Or.inr ⟨fun err => not_refuses there ?_ (by rintro _ _ _ _ ⟨⟩), none, s, happly⟩
    rintro _ _ l' ⟨⟩ hl'
    rw [hl] at hl'
    exact Except.ok.inj hl' ▸ hp

/-! ### New objects -/

lemma settles_registerChild {d : ObjectData}
    (room : r.contains p = true → r.objects.HasRoom) : r.Settles (.registerChild p d) := by
  cases hp : r.contains p with
  | false =>
    refine Or.inl ⟨_, .gone (List.mem_singleton_self p) hp, ?_⟩
    unfold apply
    rw [Edit.run, map_eq_pure_bind, bind_apply, registerChild_eq, if_neg (by simp [hp])]
  | true =>
    have happly : ∃ made s, r.apply (.registerChild p d) = (.ok made, s) := by
      unfold apply
      rw [Edit.run, map_eq_pure_bind, bind_apply, h.registerChild_eq_ok (room hp) hp]
      exact ⟨_, _, rfl⟩
    refine Or.inr ⟨fun err => not_refuses (fun i hi => ?_) (by rintro _ _ _ ⟨⟩)
      (by rintro _ _ _ _ ⟨⟩), happly⟩
    exact List.mem_singleton.1 hi ▸ hp

omit h in
lemma settles_register {d : ObjectData} : r.Settles (.register d) :=
  Or.inr ⟨fun err => not_refuses (by rintro _ ⟨⟩) (by rintro _ _ _ ⟨⟩) (by rintro _ _ _ _ ⟨⟩),
    _, _, rfl⟩

theorem settles
    (room : ∀ p d, e = .registerChild p d → r.contains p = true → r.objects.HasRoom) :
    r.Settles e := by
  cases e with
  | register d => exact settles_register
  | registerChild p d => exact h.settles_registerChild (room p d rfl)
  | destroy i => exact settles_destroy
  | setParent i parent? =>
    cases parent? with
    | none => exact settles_setParent_none
    | some p => exact h.settles_setParent_some
  | insertChild p index c => exact h.settles_insertChild
  | setName | setRole | setStates | setState | setAttributes | setInterfaces | setData =>
    exact settles_setData rfl rfl rfl

end Sound

/-- An edit fails for the first of the reasons for which it is refused, and for no other. It then
leaves the whole registry as it was and reports nothing, so that whatever is done later comes out
as if the edit had not been tried. Only a new child of an object that is there asks for room
besides. -/
theorem edit_refused_iff (edits : List Edit) (e : Edit)
    (room : ∀ p d, e = .registerChild p d → (run edits).contains p = true →
      (run edits).objects.HasRoom)
    (err : Error) (s : Logged Registry (Change ObjectId)) :
    ((run edits).apply e = (.error err, s) ↔
      (run edits).Refuses e err ∧ s = ⟨run edits, #[]⟩) ∧
    ((run edits).apply e = (.error err, s) → ∀ late, run (edits ++ e :: late) =
      run (edits ++ late)) := by
  have hiff := ((sound_run edits).settles room).iff err s
  refine ⟨hiff, fun happly late => ?_⟩
  obtain ⟨-, rfl⟩ := hiff.1 happly
  rw [run, run, List.foldl_append, List.foldl_append, List.foldl_cons]
  change List.foldl _ ((run edits).apply e).2.state late = List.foldl _ (run edits) late
  rw [happly]

/-- An object with a child, and one that is gone. -/
def oneGone : List Edit :=
  [.register {}, .registerChild ⟨1, 1⟩ {}, .register {}, .destroy ⟨3, 1⟩]

theorem edit_refused_iff_sample :
    (run oneGone).objects.HasRoom ∧
    (run oneGone).apply (.registerChild ⟨3, 1⟩ {}) =
      (.error .invalidObjectId, ⟨run oneGone, #[]⟩) ∧
    (run oneGone).apply (.insertChild ⟨2, 1⟩ 0 ⟨1, 1⟩) =
      (.error .circularParentage, ⟨run oneGone, #[]⟩) := by
  have room : (run oneGone).objects.HasRoom := Or.inl (by
    have free : (run oneGone).objects.free = [3] := by decide +kernel
    simp [free])
  refine ⟨room, ?_, ?_⟩
  · refine (edit_refused_iff oneGone (.registerChild ⟨3, 1⟩ {}) (fun _ _ _ _ => room) _ _).1.2
      ⟨.gone (List.mem_singleton_self _) ?_, rfl⟩
    decide +kernel
  · have hl : (run oneGone).preorder ⟨1, 1⟩ = .ok [⟨1, 1⟩, ⟨2, 1⟩] := by decide +kernel
    have there : ∀ i ∈ (Edit.insertChild ⟨2, 1⟩ 0 ⟨1, 1⟩).handles,
        (run oneGone).contains i = true := by
      simp only [Edit.handles, List.forall_mem_cons]
      exact ⟨by decide +kernel, by decide +kernel, by simp⟩
    exact (edit_refused_iff oneGone (.insertChild ⟨2, 1⟩ 0 ⟨1, 1⟩) (by rintro _ _ ⟨⟩) _ _).1.2
      ⟨.circle rfl there hl (by simp), rfl⟩

end AccessTree.Registry
