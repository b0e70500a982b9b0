import AccessTree.Proofs.CellTurns

/-!
What is left when an object is destroyed. The object goes together with all that lies below it, and
of the other lists of children only its parent's loses a member. Nothing else that can be done to a
registry takes an object out of it.
-/

namespace AccessTree.Registry

variable {r : Registry} {i n p : ObjectId} {e : Edit} {s : Logged Registry (Change ObjectId)}

lemma after_destroy (hi : s.state.contains i = true) :
    after (destroy i) s = s.state.destroyed i := by
  unfold after
  rw [destroy_eq hi]

namespace Sound

variable (h : r.Sound)
include h

theorem contains_destroyed (hi : r.contains i = true) (n : ObjectId) :
    (r.destroyed i).contains n = true ↔ r.contains n = true ∧ ¬ r.tree.Reaches i n := by
  rw [contains, Arena.contains, Registry.destroyed, get?_without, ← h.mem_gone_iff hi]
  split
  · rename_i hn
    simp [hn]
  · rename_i hn
    simp only [hn, not_false_eq_true, and_true]
    exact (contains_detached n).congr_left

/-- A list that does not go itself loses at most the object that is destroyed. -/
theorem childrenOf_destroyed (hi : r.contains i = true) (hp : ¬ r.tree.Reaches i p) :
    (r.destroyed i).childrenOf p = (r.childrenOf p).filter (· != i) := by
  rw [Registry.destroyed, childrenOf_without, if_neg (by rwa [h.mem_gone_iff hi]),
    h.childrenOf_detached_eq]

end Sound

/-! ### What takes objects away -/

lemma Sound.shape_added (h : r.Sound) {d : ObjectData} {c : UInt32}
    (hc : (r.objects.shape c).1 = true) :
    (r.added d).objects.shape c = r.objects.shape c := by
  by_cases hr : r.objects.HasRoom
  · obtain ⟨v, hv, -, hs⟩ := h.arena.shape_insert hr { data := d }
    have hne : c ≠ (r.objects.insert { data := d }).1.cell := by
      rintro rfl
      rw [hv] at hc
      cases hc
    exact (hs c).trans (if_neg hne)
  · exact Arena.shape_insert_of_full hr _ c

/-- A cell in use is left alone by all changes but one. -/
lemma Sound.shape_edit (h : s.state.Sound) (he : ∀ j, e ≠ .destroy j) {c : UInt32}
    (hc : (s.state.objects.shape c).1 = true) :
    (after e.run s).objects.shape c = s.state.objects.shape c := by
  rcases edit_cases e s with same | ⟨d, same⟩ | ⟨i, is, rfl, -⟩
  · exact same.shape_eq c
  · rw [same.shape_eq]
    exact h.shape_added hc
  · exact absurd rfl (he i)

/-- An object leaves a registry when it is destroyed or something above it is, and not else. -/
theorem Sound.leaves_iff (h : r.Sound) (hi : r.contains i = true) (e : Edit) :
    (r.apply e).2.state.contains i = false ↔ ∃ j, e = .destroy j ∧ r.tree.Reaches j i := by
  rw [apply_state]
  -- Only a destruction takes objects out. It takes those that are reached from one that is there.
  by_cases he : ∃ j, e = .destroy j
  · obtain ⟨j, rfl⟩ := he
    rw [Edit.run, Edit.silent, after_bind_pure]
    by_cases hj : r.contains j = true
    · rw [after_destroy hj, ← Bool.not_eq_true, h.contains_destroyed hj]
      simp [hi]
    · have same : after (Registry.destroy j) ⟨r, #[]⟩ = r := by
        unfold after
        rw [destroy_eq_error (by simpa using hj)]
      rw [same, hi]
      constructor
      · intro hf
        cases hf
      · rintro ⟨k, hk, hreach⟩
        cases hk
        exact absurd (h.contains_above hi hreach) hj
  · have he : ∀ j, e ≠ .destroy j := fun j hj => he ⟨j, hj⟩
    rw [contains, Arena.contains_iff_shape] at hi
    have used : (r.objects.shape i.cell).1 = true := by rw [hi]
    -- All other changes leave the cell of the object as it is, and an object is there as long as
    -- its cell says so.
    have same := h.shape_edit (s := ⟨r, #[]⟩) he used
    have stays : (after e.run ⟨r, #[]⟩).contains i = true := by
      rw [contains, Arena.contains_iff_shape, same]
      exact hi
    rw [stays]
    constructor
    · intro hf
      cases hf
    · rintro ⟨j, hj, -⟩
      exact absurd hj (he j)

end AccessTree.Registry
