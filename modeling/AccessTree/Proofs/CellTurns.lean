import AccessTree.Proofs.RegistryUpkeep

/-!
The cells of a registry over its life. A cell is free with an even version or in use with an odd
one, and each change leaves it alone or takes it one version further. While no version goes all the
way round, a handle that has been given out is never given out again, and once its object is gone
it names nothing any more.
-/

namespace AccessTree

namespace Arena

variable {α : Type} {a : Arena α} {i : ObjectId} {n : UInt32} {x : α}

/-- Whether a cell is in use, and its version. A cell that is still to come is free. -/
def shape (a : Arena α) (n : UInt32) : Bool × UInt32 :=
  match a.cells[n.toNat]? with
  | none => (false, 0)
  | some (.vacant v) => (false, v)
  | some (.occupied v _) => (true, v)

/-- What one change may do to a cell. -/
inductive Turn : Bool × UInt32 → Bool × UInt32 → Prop where
  | keep (s : Bool × UInt32) : Turn s s
  | fill (v : UInt32) : Turn (false, v) (true, v ||| 1)
  | clear (v : UInt32) : Turn (true, v) (false, v + 1)

instance : Decidable a.HasRoom := inferInstanceAs (Decidable (_ ∨ _))

lemma shape_empty : (empty : Arena α).shape n = (false, 0) := by
  unfold shape
  rcases n.toNat with _ | k
  · rfl
  · simp [empty]

/-- A handle is in use exactly when its cell is in use with its version. -/
lemma contains_iff_shape : a.contains i = true ↔ a.shape i.cell = (true, i.version) := by
  rw [contains, Option.isSome_iff_exists]
  constructor
  · rintro ⟨x, h⟩
    rw [shape, get?_eq_some_iff.1 h]
  · intro h
    unfold shape at h
    split at h
    · cases h
    · cases h
    · rename_i v x hx
      obtain rfl : v = i.version := congrArg Prod.snd h
      exact ⟨x, get?_eq_some_iff.2 hx⟩

lemma shape_write (h : a.contains i = true) (c : Cell α) (free : List UInt32) :
    shape ⟨a.cells.setIfInBounds i.cell.toNat c, free⟩ n =
      if n = i.cell then
        match c with
        | .vacant v => (false, v)
        | .occupied v _ => (true, v)
      else a.shape n := by
  obtain ⟨x, h⟩ := Option.isSome_iff_exists.1 h
  have inside := (Array.getElem?_eq_some_iff.1 (get?_eq_some_iff.1 h)).1
  unfold shape
  rw [Array.getElem?_setIfInBounds]
  by_cases hn : n = i.cell
  · rw [if_pos (by rw [hn]), if_pos inside, if_pos hn]
    cases c <;> rfl
  · rw [if_neg (fun he => hn (UInt32.toNat_inj.1 he).symm), if_neg hn]

lemma shape_modify (i : ObjectId) (f : α → α) : (a.modify i f).shape n = a.shape n := by
  unfold modify
  split
  · rfl
  · rename_i x h
    have hi : a.contains i = true := by rw [contains, h]; rfl
    rw [shape_write hi]
    split
    · rename_i hn
      rw [hn, contains_iff_shape.1 hi]
    · rfl

/-- Values are changed in their cells, and nothing else happens. -/
inductive Rewrites (a : Arena α) : Arena α → Prop where
  | refl : Rewrites a a
  | modify {b : Arena α} (h : Rewrites a b) (i : ObjectId) (f : α → α) : Rewrites a (b.modify i f)

lemma Rewrites.shape_eq {b : Arena α} (h : a.Rewrites b) (n : UInt32) : b.shape n = a.shape n := by
  induction h with
  | refl => rfl
  | modify _ i f ih => rw [shape_modify, ih]

/-- Cells that are cleared one after another are cleared once each. -/
lemma Turn.trans_of_clear {s t u : Bool × UInt32} (h : Turn s t) (hs : t.1 = true → s.1 = true)
    (h' : Turn t u) (ht : u.1 = true → t.1 = true) :
    Turn s u ∧ (u.1 = true → s.1 = true) := by
  refine ⟨?_, fun hu => hs (ht hu)⟩
  cases h with
  | keep => exact h'
  | fill v => cases hs rfl
  | clear v =>
    cases h' with
    | keep => exact .clear v
    | fill => cases ht rfl

lemma turn_erase (a : Arena α) (i : ObjectId) (n : UInt32) :
    Turn (a.shape n) ((a.erase i).shape n) ∧
      (((a.erase i).shape n).1 = true → (a.shape n).1 = true) := by
  unfold erase
  split
  · rename_i hi
    rw [shape_write hi]
    by_cases hn : n = i.cell
    · rw [if_pos hn, hn, contains_iff_shape.1 hi]
      exact ⟨.clear _, fun _ => rfl⟩
    · rw [if_neg hn]
      exact ⟨.keep _, id⟩
  · exact ⟨.keep _, id⟩

lemma turn_foldl_erase (a : Arena α) (is : List ObjectId) (n : UInt32) :
    Turn (a.shape n) ((is.foldl (·.erase ·) a).shape n) ∧
      (((is.foldl (·.erase ·) a).shape n).1 = true → (a.shape n).1 = true) := by
  induction is generalizing a with
  | nil => exact ⟨.keep _, id⟩
  | cons i is ih =>
    obtain ⟨turn, used⟩ := turn_erase a i n
    obtain ⟨turn', used'⟩ := ih (a.erase i)
    exact turn.trans_of_clear used turn' used'

/-- A new value takes a free cell one version further, and no other cell is touched. -/
lemma Sound.shape_insert (ha : a.Sound) (hr : a.HasRoom) (x : α) :
    ∃ v, a.shape (a.insert x).1.cell = (false, v) ∧ (a.insert x).1.version = v ||| 1 ∧
      ∀ n, (a.insert x).2.shape n =
        if n = (a.insert x).1.cell then (true, v ||| 1) else a.shape n := by
  unfold Arena.insert
  split
  · -- A cell at the end counts as free at version 0 before it is there.
    rename_i hf
    have hs : a.cells.size < UInt32.size := hr.resolve_left (absurd hf)
    have hc : (UInt32.ofNat a.cells.size).toNat = a.cells.size := UInt32.toNat_ofNat_of_lt' hs
    have hnew : a.cells[a.cells.size]? = none := Array.getElem?_eq_none (Nat.le_refl _)
    refine ⟨0, by rw [shape, hc, hnew], rfl, fun n => ?_⟩
    unfold shape
    rw [Array.getElem?_push]
    by_cases hn : n = UInt32.ofNat a.cells.size
    · rw [if_pos hn, if_pos (by rw [hn, hc])]
      rfl
    · have hn' : n.toNat ≠ a.cells.size := fun he => hn (by rw [← he, UInt32.ofNat_toNat])
      rw [if_neg hn, if_neg hn']
  · rename_i m free hf
    obtain ⟨v, hv⟩ := ha.vacant m (by simp [hf])
    have inside := (Array.getElem?_eq_some_iff.1 hv).1
    refine ⟨v, by rw [shape, hv], by rw [hv], fun n => ?_⟩
    unfold shape
    rw [Array.getElem?_setIfInBounds, hv]
    by_cases hn : n = m
    · rw [if_pos hn, if_pos (by rw [hn]), if_pos inside]
    · rw [if_neg hn, if_neg (fun he => hn (UInt32.toNat_inj.1 he).symm)]

lemma shape_insert_of_full (hr : ¬ a.HasRoom) (x : α) (n : UInt32) :
    (a.insert x).2.shape n = a.shape n := by
  unfold HasRoom at hr
  rw [not_or, Decidable.not_not, Nat.not_lt] at hr
  have hn : n.toNat < a.cells.size := Nat.lt_of_lt_of_le n.toNat_lt hr.2
  unfold Arena.insert
  rw [hr.1]
  simp only [shape, Array.getElem?_push_lt hn, Array.getElem?_eq_getElem hn]

lemma Sound.turn_insert (ha : a.Sound) (x : α) (n : UInt32) :
    Turn (a.shape n) ((a.insert x).2.shape n) := by
  by_cases hr : a.HasRoom
  · obtain ⟨v, hv, -, hs⟩ := ha.shape_insert hr x
    rw [hs n]
    split
    · rename_i hn
      rw [hn, hv]
      exact .fill v
    · exact .keep _
  · rw [shape_insert_of_full hr]
    exact .keep _

end Arena

namespace Registry

variable {r : Registry} {i p : ObjectId} {e : Edit} {edits : List Edit} {n : UInt32}
  {s : Logged Registry (Change ObjectId)}

/-! ### Changes -/

lemma rewrites_detached (i : ObjectId) : r.objects.Rewrites (r.detached i).objects := by
  unfold detached
  split
  · exact .refl
  · exact (Arena.Rewrites.refl.modify _ _).modify _ _

lemma rewrites_insertChild (p : ObjectId) (index : Nat) (c : ObjectId) :
    s.state.objects.Rewrites (after (insertChild p index c) s).objects := by
  unfold after
  rw [insertChild_eq]
  split_ifs
  · exact .refl
  · exact .refl
  · exact ((rewrites_detached c).modify _ _).modify _ _
  · exact .refl

lemma rewrites_setParent (i : ObjectId) (parent? : Option ObjectId) :
    s.state.objects.Rewrites (after (setParent i parent?) s).objects := by
  cases parent? with
  | some p =>
    have := rewrites_insertChild (s := s) p ((s.state.childrenOf p).countP (· != i)) i
    unfold after at this ⊢
    rwa [setParent_some_eq]
  | none =>
    unfold after
    rw [setParent_none_eq]
    split_ifs
    · exact rewrites_detached i
    · exact .refl

/-- A new child takes up its cell as any new object does. -/
lemma rewrites_registerChild (hp : s.state.contains p = true) (d : ObjectData) :
    (s.state.added d).objects.Rewrites (after (registerChild p d) s).objects := by
  have parted := rewrites_setParent (s := ⟨s.state.added d,
    s.log.push (.registered (s.state.objects.insert { data := d }).1 d.role)⟩)
    (s.state.objects.insert { data := d }).1 (some p)
  rw [← after_bind_pure] at parted
  unfold after at parted ⊢
  rw [registerChild_eq, if_pos hp]
  exact parted

lemma rewrites_setData (i : ObjectId) (f : ObjectData → ObjectData) :
    s.state.objects.Rewrites (after (setData i f) s).objects := by
  unfold after
  rw [setData_eq]
  split_ifs
  · exact Arena.Rewrites.refl.modify _ _
  · exact .refl

/-- All that a change can do to the cells: values are changed where they are, after one has been
put in or not, or the cells of what is destroyed are cleared. -/
theorem edit_cases (e : Edit) (s : Logged Registry (Change ObjectId)) :
    s.state.objects.Rewrites (after e.run s).objects ∨
    (∃ d, (s.state.added d).objects.Rewrites (after e.run s).objects) ∨
    ∃ i, ∃ is : List ObjectId, e = .destroy i ∧
      (after e.run s).objects = is.foldl (·.erase ·) (s.state.detached i).objects := by
  -- Registering puts a value in and destroying takes some out. All other changes, and those that
  -- fail, leave the cells in use as they are.
  cases e with
  | register d =>
    rw [Edit.run, after_map]
    exact Or.inr (Or.inl ⟨d, .refl⟩)
  | registerChild p d =>
    rw [Edit.run, after_map]
    by_cases hp : s.state.contains p = true
    · exact Or.inr (Or.inl ⟨d, rewrites_registerChild hp d⟩)
    · unfold after
      rw [registerChild_eq, if_neg hp]
      exact Or.inl .refl
  | destroy i =>
    rw [Edit.run, Edit.silent, after_bind_pure]
    unfold after
    by_cases hi : s.state.contains i = true
    · rw [destroy_eq hi]
      exact Or.inr (Or.inr ⟨i, _, rfl, rfl⟩)
    · rw [destroy_eq_error (by simpa using hi)]
      exact Or.inl .refl
  | setParent i p =>
    rw [Edit.run, Edit.silent, after_bind_pure]
    exact Or.inl (rewrites_setParent i p)
  | insertChild p index c =>
    rw [Edit.run, Edit.silent, after_bind_pure]
    exact Or.inl (rewrites_insertChild p index c)
  | setName i _ | setRole i _ | setStates i _ | setState i _ _ | setAttributes i _
  | setInterfaces i _ | setData i _ =>
    rw [Edit.run, Edit.silent, after_bind_pure]
    exact Or.inl (rewrites_setData i _)

/-- What one change does to a cell. -/
theorem turn_edit (h : s.state.Sound) (e : Edit) (n : UInt32) :
    Arena.Turn (s.state.objects.shape n) ((after e.run s).objects.shape n) := by
  rcases edit_cases e s with same | ⟨d, same⟩ | ⟨i, is, -, gone⟩
  · rw [same.shape_eq]
    exact .keep _
  · rw [same.shape_eq]
    exact h.arena.turn_insert _ n
  · rw [gone, ← (rewrites_detached i).shape_eq]
    exact (Arena.turn_foldl_erase _ is n).1

/-! ### New handles -/

/-- The handle that a change gives out. There is none when the cells that a handle can hold have
run out. -/
def Edit.made? (r : Registry) (e : Edit) : Option ObjectId :=
  if r.objects.HasRoom then (r.apply e).1.toOption.join else none

lemma made?_silent {u : Update Unit} (he : e.run = Edit.silent u) : e.made? r = none := by
  unfold Edit.made? apply
  rw [he, Edit.silent, bind_apply]
  cases u ⟨r, #[]⟩ <;> simp [pure_apply, Except.toOption]

lemma registerChild_ok {d : ObjectData} {t : Logged Registry (Change ObjectId)}
    (h : registerChild p d s = .ok i t) :
    s.state.contains p = true ∧ i = (s.state.objects.insert { data := d }).1 := by
  obtain ⟨r, log⟩ := s
  rw [registerChild_eq] at h
  split at h
  · rename_i hp
    rw [bind_apply] at h
    split at h
    · cases h
      exact ⟨hp, rfl⟩
    · cases h
  · cases h

/-- Only a registration that succeeds gives out a handle, and it is that of the value put in. -/
lemma made?_eq_some (h : e.made? r = some i) : r.objects.HasRoom ∧
    ∃ d : ObjectData, i = (r.objects.insert { data := d }).1 ∧
      (r.added d).objects.Rewrites (r.apply e).2.state.objects := by
  have room : r.objects.HasRoom := by
    by_contra hr
    rw [Edit.made?, if_neg hr] at h
    cases h
  refine ⟨room, ?_⟩
  cases e with
  | register d =>
    rw [Edit.made?, if_pos room] at h
    exact ⟨d, (Option.some.inj h).symm, .refl⟩
  | registerChild p d =>
    refine ⟨d, ?_⟩
    -- A registration below an absent parent fails, and no handle comes of it.
    have hrun : ∃ t, registerChild p d ⟨r, #[]⟩ = .ok i t := by
      rw [Edit.made?, if_pos room, apply, Edit.run, map_eq_pure_bind, bind_apply] at h
      cases hu : registerChild p d ⟨r, #[]⟩ with
      | ok j t =>
        rw [hu] at h
        obtain rfl : j = i := Option.some.inj h
        exact ⟨t, rfl⟩
      | error err t =>
        rw [hu] at h
        cases h
    obtain ⟨t, ht⟩ := hrun
    obtain ⟨hp, hi⟩ := registerChild_ok ht
    refine ⟨hi, ?_⟩
    rw [apply_state, Edit.run, after_map]
    exact rewrites_registerChild hp d
  | destroy | setParent | insertChild | setName | setRole | setStates | setState
  | setAttributes | setInterfaces | setData =>
    rw [made?_silent rfl] at h
    cases h

/-- A handle that is given out has a cell that was free, at the next version, and its object is
there. -/
lemma Sound.made_fresh (h : r.Sound) (he : e.made? r = some i) :
    (∃ v, r.objects.shape i.cell = (false, v) ∧ i.version = v ||| 1) ∧
      (r.apply e).2.state.contains i = true := by
  obtain ⟨room, d, rfl, same⟩ := made?_eq_some he
  obtain ⟨v, hv, hversion, hinsert⟩ := h.arena.shape_insert room { data := d }
  refine ⟨⟨v, hv, hversion⟩, ?_⟩
  rw [contains, Arena.contains_iff_shape, same.shape_eq, Registry.added, hinsert, if_pos rfl,
    hversion]

/-! ### Versions in use -/

/-- A version in use is odd, as a turn that puts it to use makes it so. -/
lemma odd_run (h : (run edits).contains i = true) : i.version ||| 1 = i.version := by
  -- Stated for cells, since the handle in question need not have been there before the last change.
  have odd : ∀ n v, (run edits).objects.shape n = (true, v) → v ||| 1 = v := by
    clear h
    induction edits using List.reverseRecOn with
    | nil =>
      intro n v hv
      have empty : (run []).objects.shape n = (false, 0) := Arena.shape_empty
      rw [empty] at hv
      cases hv
    | append_singleton edits e ih =>
      intro n v hv
      have turn := turn_edit (s := ⟨run edits, #[]⟩) (sound_run edits) e n
      rw [run_snoc, apply_state] at hv
      rw [hv] at turn
      generalize hbefore : (run edits).objects.shape n = before at turn
      cases turn with
      | keep => exact ih n v hbefore
      | fill v => rw [UInt32.or_assoc]; rfl
  exact odd i.cell i.version (Arena.contains_iff_shape.1 h)

end Registry

end AccessTree
