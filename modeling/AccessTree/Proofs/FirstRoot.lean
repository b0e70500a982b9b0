import AccessTree.Proofs.Removal
import AccessTree.Registry.Path

/-!
The object that the path of the first root names. Nothing remembers it: it is the root whose cell
has the lowest number at the time. A new root that takes the cell of an object that is gone may come
before it, and then the path names the new one, though the old one is there and still a root.
-/

namespace AccessTree

namespace Arena

variable {α : Type} {a b : Arena α}

lemma Rewrites.bound_eq (h : a.Rewrites b) : b.bound = a.bound := by
  induction h with
  | refl => rfl
  | modify _ i f ih =>
    rw [← ih]
    unfold Arena.modify bound
    split <;> simp

lemma Rewrites.free_eq (h : a.Rewrites b) : b.free = a.free := by
  induction h with
  | refl => rfl
  | modify _ i f ih =>
    rw [← ih]
    unfold Arena.modify
    split <;> rfl

/-- An arena that a value was put into and that is not too large had room for it. -/
lemma hasRoom_of_bound {x : α} (hb : (a.insert x).2.bound ≤ UInt32.size) :
    a.HasRoom ∧ a.bound ≤ UInt32.size := by
  unfold Arena.insert bound at hb
  split at hb
  · simp only [Array.size_push] at hb
    exact ⟨Or.inr (by omega), by unfold bound; omega⟩
  · rename_i n free hf
    rw [Array.size_setIfInBounds] at hb
    exact ⟨Or.inl (by simp [hf]), hb⟩

lemma insert_of_free_nil {x : α} (hf : a.free = []) : a.insert x =
    (⟨.ofNat a.cells.size, 1⟩, ⟨a.cells.push (.occupied 1 x), []⟩) := by
  obtain ⟨cells, free⟩ := a
  subst hf
  rfl

/-- Where no cell is free, a new value goes behind all others. -/
lemma cell_lt_insert {x y : α} {i : ObjectId} (hf : a.free = []) (hr : a.HasRoom)
    (hi : a.get? i = some y) : i.cell < (a.insert x).1.cell := by
  have hs : a.cells.size < UInt32.size := hr.resolve_left (absurd hf)
  have hc : (UInt32.ofNat a.cells.size).toNat = a.cells.size := UInt32.toNat_ofNat_of_lt' hs
  have hlt : i.cell.toNat < a.cells.size := cell_lt_bound hi
  rw [insert_of_free_nil hf, UInt32.lt_iff_toNat_lt, hc]
  exact hlt

end Arena

namespace Registry

variable {r : Registry} {i j p : ObjectId} {d : ObjectData} {edits : List Edit}

lemma isRoot_iff : r.IsRoot i ↔
    ∃ e, r.objects.cells[i.cell.toNat]? = some (.occupied i.version e) ∧ e.parent? = none := by
  constructor
  · rintro ⟨hi, hp⟩
    obtain ⟨e, he⟩ := exists_entry hi
    rw [parentOf, he] at hp
    exact ⟨e, Arena.get?_eq_some_iff.1 he, hp⟩
  · rintro ⟨e, he, hp⟩
    have he := Arena.get?_eq_some_iff.2 he
    exact ⟨contains_eq he, by rw [parentOf, he]; exact hp⟩

/-! ### The lowest cell -/

/-- Whether a cell has a root in it. -/
def rootIn : Cell Entry → Bool
  | .vacant _ => false
  | .occupied _ e => e.parent?.isNone

lemma rootIn_iff {c : Cell Entry} : rootIn c = true ↔
    ∃ v e, c = .occupied v e ∧ e.parent? = none := by
  cases c with
  | vacant v => simp [rootIn]
  | occupied v e => simp [rootIn]

/-- The first root is found where cell after cell is looked at. -/
lemma head?_roots_eq : r.roots.head? = some i ↔ ∃ k v e,
    r.objects.cells[k]? = some (.occupied v e) ∧ e.parent? = none ∧ i = ⟨.ofNat k, v⟩ ∧
      ∀ m < k, ∀ c, r.objects.cells[m]? = some c → rootIn c = false := by
  unfold roots Arena.toList
  rw [List.head?_map, List.head?_filter, List.find?_filterMap, Option.map_eq_some_iff]
  simp only [Option.bind_eq_some_iff, List.find?_eq_some_iff_getElem, List.getElem_zipIdx,
    List.length_zipIdx, Array.length_toList, Nat.zero_add]
  -- Filtering drops the vacant cells and the objects with a parent. What is found first has only
  -- such cells below it, and the two ways of saying so are compared cell by cell.
  constructor
  · rintro ⟨⟨j, e⟩, ⟨⟨c, k⟩, ⟨hp, k', hk, heq, hlow⟩, hf⟩, rfl⟩
    obtain ⟨hc, rfl⟩ := Prod.mk.inj heq
    have hcell : r.objects.cells[k']? = some c := by
      rw [← hc, ← Array.getElem?_toList, List.getElem?_eq_getElem]
    cases c with
    | vacant v => cases hf
    | occupied v x =>
      obtain ⟨rfl, rfl⟩ := Prod.mk.inj (Option.some.inj hf)
      refine ⟨k', v, x, hcell, Option.isNone_iff_eq_none.1 hp, rfl, fun m hm c hmc => ?_⟩
      obtain ⟨hm', rfl⟩ := Array.getElem?_eq_some_iff.1 hmc
      have := hlow m hm
      rw [Array.getElem_toList] at this
      cases hcm : r.objects.cells[m] with
      | vacant w => rfl
      | occupied w y =>
        rw [hcm] at this
        simpa [rootIn] using this
  · rintro ⟨k, v, e, hc, he, rfl, hlow⟩
    obtain ⟨hk, hcell⟩ := Array.getElem?_eq_some_iff.1 hc
    refine ⟨(⟨.ofNat k, v⟩, e), ⟨(.occupied v e, k), ⟨?_, k, hk, ?_, fun m hm => ?_⟩, rfl⟩, rfl⟩
    · simp [he]
    · rw [Array.getElem_toList, hcell]
    · have hm' : m < r.objects.cells.size := hm.trans hk
      have := hlow m hm _ (Array.getElem?_eq_getElem hm')
      rw [Array.getElem_toList]
      cases hcm : r.objects.cells[m] with
      | vacant w => rfl
      | occupied w y =>
        rw [hcm] at this
        simpa [rootIn] using this

/-- Of all roots the first one has the lowest cell. -/
theorem head?_roots_iff (hb : r.objects.bound ≤ UInt32.size) : r.roots.head? = some i ↔
    r.IsRoot i ∧ ∀ j, r.IsRoot j → i.cell ≤ j.cell := by
  rw [head?_roots_eq]
  -- A handle keeps the whole number of its cell, so cells and handles are in the same order.
  have inside : ∀ {k c}, r.objects.cells[k]? = some c → (UInt32.ofNat k).toNat = k := by
    intro k c hc
    obtain ⟨hk, -⟩ := Array.getElem?_eq_some_iff.1 hc
    exact UInt32.toNat_ofNat_of_lt' (hk.trans_le hb)
  constructor
  · rintro ⟨k, v, e, hc, he, rfl, hlow⟩
    have hk := inside hc
    refine ⟨isRoot_iff.2 ⟨e, by rwa [hk], he⟩, fun j hj => ?_⟩
    obtain ⟨e', hj, he'⟩ := isRoot_iff.1 hj
    rw [UInt32.le_iff_toNat_le, hk]
    by_contra hlt
    have := hlow j.cell.toNat (by omega) _ hj
    rw [rootIn_iff.2 ⟨_, e', rfl, he'⟩] at this
    cases this
  · rintro ⟨hi, hlow⟩
    obtain ⟨e, hc, he⟩ := isRoot_iff.1 hi
    refine ⟨i.cell.toNat, i.version, e, hc, he, by rw [UInt32.ofNat_toNat], fun m hm c hmc => ?_⟩
    rw [← Bool.not_eq_true, rootIn_iff]
    rintro ⟨v, e', rfl, he'⟩
    have hk := inside hmc
    have := hlow ⟨.ofNat m, v⟩ (isRoot_iff.2 ⟨e', by rwa [hk], he'⟩)
    rw [UInt32.le_iff_toNat_le, hk] at this
    omega

/-! ### Registrations -/

lemma Sound.isRoot_added (h : r.Sound) (hr : r.objects.HasRoom) : (r.added d).IsRoot j ↔
    r.IsRoot j ∨ (r.objects.insert { data := d }).1 = j := by
  obtain ⟨new, -⟩ := h.arena.get?_insert hr { data := d } j
  rw [IsRoot, IsRoot, h.contains_added hr, parentOf_added h.arena]
  constructor
  · rintro ⟨hj | hj, hp⟩
    · exact Or.inl ⟨hj, hp⟩
    · exact Or.inr hj
  · rintro (⟨hj, hp⟩ | hj)
    · exact ⟨Or.inl hj, hp⟩
    · refine ⟨Or.inr hj, ?_⟩
      rw [parentOf, ← hj, new]
      rfl

/-- A new child makes no root. -/
lemma Sound.isRoot_registerChild {s : Logged Registry (Change ObjectId)} (h : s.state.Sound)
    (hr : s.state.objects.HasRoom) :
    (after (Registry.registerChild p d) s).IsRoot j ↔ s.state.IsRoot j := by
  by_cases hp : s.state.contains p = true
  · obtain ⟨index, hafter⟩ : ∃ index, after (Registry.registerChild p d) s =
        (s.state.added d).attached p index (s.state.objects.insert { data := d }).1 := by
      unfold after
      rw [h.registerChild_eq_ok hr hp]
      exact ⟨_, rfl⟩
    obtain ⟨there, -⟩ := (h.isRoot_added (d := d) hr).2 (Or.inr rfl)
    have new := (h.arena.get?_insert hr { data := d } p).1
    rw [hafter, IsRoot, IsRoot, contains_attached, parentOf_attached there, h.contains_added hr,
      parentOf_added h.arena]
    constructor
    · rintro ⟨hj, hroot⟩
      split at hroot
      · cases hroot
      · rename_i hne
        exact ⟨hj.resolve_right (Ne.symm hne), hroot⟩
    · rintro ⟨hj, hroot⟩
      refine ⟨Or.inl hj, ?_⟩
      rw [if_neg, hroot]
      rintro rfl
      rw [contains, Arena.contains, new] at hj
      cases hj
  · have fails : after (Registry.registerChild p d) s = s.state := by
      unfold after
      rw [registerChild_eq, if_neg hp]
    rw [fails]

/-- A new child leaves the first root where it is. -/
lemma Sound.head?_roots_registerChild {s : Logged Registry (Change ObjectId)} (h : s.state.Sound)
    (hi : s.state.roots.head? = some i)
    (hb : (after (Registry.registerChild p d) s).objects.bound ≤ UInt32.size) :
    (after (Registry.registerChild p d) s).roots.head? = some i := by
  by_cases hp : s.state.contains p = true
  · -- The set of roots is the same after it, so the lowest one is, too.
    obtain ⟨room, hb'⟩ := Arena.hasRoom_of_bound
      ((rewrites_registerChild hp d).bound_eq.symm.trans_le hb)
    obtain ⟨root, lowest⟩ := (head?_roots_iff hb').1 hi
    have same : ∀ j, (after (Registry.registerChild p d) s).IsRoot j ↔ s.state.IsRoot j :=
      fun j => h.isRoot_registerChild room
    exact (head?_roots_iff hb).2 ⟨(same i).2 root, fun j hj => lowest j ((same j).1 hj)⟩
  · unfold after
    rwa [registerChild_eq, if_neg hp]

/-- A new root comes first if it has the lower cell. -/
lemma Sound.head?_roots_added (h : r.Sound) (hi : r.roots.head? = some i)
    (hb : (r.added d).objects.bound ≤ UInt32.size) : (r.added d).roots.head? = some
      (if (r.objects.insert { data := d }).1.cell < i.cell then
        (r.objects.insert { data := d }).1
      else i) := by
  obtain ⟨room, hb'⟩ := Arena.hasRoom_of_bound hb
  obtain ⟨root, lowest⟩ := (head?_roots_iff hb').1 hi
  rw [head?_roots_iff hb, h.isRoot_added room]
  -- There is one root more, so either that one is the lowest or the same one as before.
  split
  · rename_i hlt
    refine ⟨Or.inr rfl, fun j hj => ?_⟩
    rcases (h.isRoot_added room).1 hj with hj | rfl
    · exact UInt32.le_trans (UInt32.le_of_lt hlt) (lowest j hj)
    · exact UInt32.le_refl _
  · rename_i hlt
    refine ⟨Or.inl root, fun j hj => ?_⟩
    rcases (h.isRoot_added room).1 hj with hj | rfl
    · exact lowest j hj
    · exact UInt32.not_lt.1 hlt

/-- Where no cell is free, a new object has a higher cell than any root. -/
lemma cell_lt_of_free_nil (hf : r.objects.free = [])
    (hb : (r.added d).objects.bound ≤ UInt32.size) (hi : r.IsRoot i) :
    i.cell < (r.objects.insert { data := d }).1.cell := by
  obtain ⟨room, -⟩ := Arena.hasRoom_of_bound hb
  obtain ⟨e, he⟩ := exists_entry hi.1
  exact Arena.cell_lt_insert hf room he

lemma free_run (h : ∀ j, .destroy j ∉ edits) : (run edits).objects.free = [] := by
  induction edits using List.reverseRecOn with
  | nil => rfl
  | append_singleton edits e ih =>
    have before := ih fun j hj => h j (List.mem_append_left _ hj)
    rw [run_snoc, apply_state]
    rcases edit_cases e ⟨run edits, #[]⟩ with same | ⟨d, same⟩ | ⟨i, is, rfl, -⟩
    · rw [same.free_eq, before]
    · rw [same.free_eq, added, Arena.insert_of_free_nil before]
    · exact absurd (List.mem_append_right _ (List.mem_singleton_self _)) (h i)

lemma resolve_rootPath : r.resolve rootPath = r.roots.head? := if_pos rfl

/-- The path of the first root stays with its object when a child is registered. When a root is
registered it goes over to the new object if that has the lower cell, which is never so in a
registry from which nothing was destroyed. -/
theorem rootPath_after_registration (edits : List Edit) (i : ObjectId)
    (hi : (run edits).resolve rootPath = some i) :
    (∀ p d, (run (edits ++ [.registerChild p d])).objects.bound ≤ UInt32.size →
      (run (edits ++ [.registerChild p d])).resolve rootPath = some i) ∧
    ∀ d, (run (edits ++ [.register d])).objects.bound ≤ UInt32.size →
      (run (edits ++ [.register d])).resolve rootPath = some
        (if ((run edits).objects.insert { data := d }).1.cell < i.cell then
          ((run edits).objects.insert { data := d }).1
        else i) ∧
      ((∀ j, .destroy j ∉ edits) →
        (run (edits ++ [.register d])).resolve rootPath = some i) := by
  have h := sound_run edits
  rw [resolve_rootPath] at hi
  refine ⟨fun p d hb => ?_, fun d hb => ?_⟩
  · have state : run (edits ++ [.registerChild p d]) =
        after (Registry.registerChild p d) ⟨run edits, #[]⟩ := by
      rw [run_snoc, apply_state, Edit.run, after_map]
    rw [state] at hb
    rw [resolve_rootPath, state]
    exact Sound.head?_roots_registerChild (s := ⟨run edits, #[]⟩) h hi hb
  · have state : run (edits ++ [.register d]) = (run edits).added d := by
      rw [run_snoc, apply_state]
      rfl
    rw [state] at hb
    rw [resolve_rootPath, state]
    have first := h.head?_roots_added hi hb
    refine ⟨first, fun hnone => ?_⟩
    -- Nothing destroyed means no free cell, and then the new object does not come first.
    obtain ⟨-, hb'⟩ := Arena.hasRoom_of_bound hb
    have behind := cell_lt_of_free_nil (free_run hnone) hb ((head?_roots_iff hb').1 hi).1
    rw [first, if_neg fun hlt => UInt32.lt_asymm hlt behind]

/-- Two roots, of which the first one is destroyed. -/
def orphaned : List Edit := [.register {}, .register {}, .destroy ⟨1, 1⟩]

theorem rootPath_after_registration_sample :
    (run orphaned).resolve rootPath = some ⟨2, 1⟩ ∧
    (run (orphaned ++ [.registerChild ⟨2, 1⟩ {}])).objects.bound ≤ UInt32.size ∧
    (run (orphaned ++ [.registerChild ⟨2, 1⟩ {}])).resolve rootPath = some ⟨2, 1⟩ := by
  have hi : (run orphaned).resolve rootPath = some ⟨2, 1⟩ := by decide +kernel
  have hb : (run (orphaned ++ [.registerChild ⟨2, 1⟩ {}])).objects.bound = 3 := by decide +kernel
  have hb : (run (orphaned ++ [.registerChild ⟨2, 1⟩ {}])).objects.bound ≤ UInt32.size := by
    rw [hb]
    decide
  exact ⟨hi, hb, (rootPath_after_registration orphaned ⟨2, 1⟩ hi).1 ⟨2, 1⟩ {} hb⟩

/-- A root that is registered later takes the path over, and the other one is still a root. -/
theorem rootPath_taken_over :
    (run orphaned).resolve rootPath = some ⟨2, 1⟩ ∧
    (run (orphaned ++ [.register {}])).resolve rootPath = some ⟨1, 3⟩ ∧
    (run (orphaned ++ [.register {}])).roots = [⟨1, 3⟩, ⟨2, 1⟩] := by
  refine ⟨?_, ?_, ?_⟩ <;> decide +kernel

end Registry

end AccessTree
