import AccessTree.Proofs.Counting
import AccessTree.Proofs.Moves
import AccessTree.Proofs.Removal

/-!
Destroying an object. The objects that go are those that were listed below it, itself included,
whatever the order in which they are taken out. What is left has the same parents and data as
before, and of all lists of children only that of the parent has lost a member.
-/

namespace AccessTree.Registry

/-- The objects of a list have gone, of which one had all the others below it. -/
structure Removes (r r' : Registry) (i : ObjectId) (l : List ObjectId) : Prop where
  listed : ∀ n ∈ l, r.contains n = true
  stays : ∀ n, r'.contains n = true ↔ r.contains n = true ∧ n ∉ l
  fewer : r'.size + l.length = r.size
  leaves : ∀ p, r.parent i = .ok (some p) → ∃ cs, r.children p = .ok cs ∧
    r'.children p = .ok (cs.filter (· != i))
  otherChildren : ∀ n, r'.contains n = true → r.parent i ≠ .ok (some n) →
    r'.children n = r.children n
  sameParents : ∀ n, r'.contains n = true → r'.parent n = r.parent n
  sameData : ∀ n, r'.contains n = true → r'.data n = r.data n
  /-- No link leads to an object that has gone. -/
  linked : ∀ n, r'.contains n = true → (∀ p, r'.parent n = .ok (some p) → p ∉ l) ∧
    ∀ cs, r'.children n = .ok cs → ∀ c ∈ cs, c ∉ l

variable {r : Registry} {i n : ObjectId} {l is : List ObjectId} {steps : Nat}
  {s : Logged Registry (Change ObjectId)}

lemma size_detached : (r.detached i).size = r.size := by
  unfold detached
  split
  · rfl
  · rw [size, Arena.size_modify, Arena.size_modify, size]

lemma apply_destroy (hi : r.contains i = true) : r.apply (.destroy i) =
    (.ok none, ⟨r.destroyed i,
      #[.destroying i (r.belowFrom r.objects.bound (r.childrenOf i).reverse).length]⟩) := by
  rw [apply_silent rfl, destroy_eq hi]
  rfl

lemma entry_without (hn : n ∉ is) : (r.without is).entry n = r.entry n := by
  rw [entry, get?_without, if_neg hn, entry]

namespace Sound

variable (h : r.Sound)
include h

/-- The gathering has come to its end within the steps that it is given. -/
lemma belowFrom_of_le (hi : r.contains i = true) (hs : r.objects.bound ≤ steps) :
    r.belowFrom steps (r.childrenOf i).reverse =
      r.belowFrom r.objects.bound (r.childrenOf i).reverse := by
  have hlen := (h.belowFrom_perm hi).length_eq.trans_le (h.length_branch_le hi)
  exact belowFrom_of_length_lt hlen hs

/-- What goes is what is listed, in another order. -/
lemma gone_perm (hi : r.contains i = true) (hl : r.preorder i = .ok l) : (r.gone i).Perm l := by
  rw [h.preorder_eq hi] at hl
  rw [← Except.ok.inj hl]
  exact List.perm_append_comm.trans (h.belowFrom_perm hi)

lemma size_destroyed (hi : r.contains i = true) (hl : r.preorder i = .ok l) :
    (r.destroyed i).size + l.length = r.size := by
  have hp := h.gone_perm hi hl
  have there : ∀ n ∈ r.gone i, (r.detached i).objects.contains n = true := fun n hn =>
    (contains_detached n).trans (h.contains_of_reaches hi ((h.mem_gone_iff hi).1 hn))
  have hcount := Arena.size_foldl_erase (hp.nodup_iff.2 (h.nodup_preorder hi hl)) there
  calc (r.destroyed i).size + l.length
      = (r.destroyed i).size + (r.gone i).length := by rw [hp.length_eq]
    _ = (r.detached i).size := hcount
    _ = r.size := size_detached

lemma contains_destroyed_iff (hi : r.contains i = true) (hl : r.preorder i = .ok l) :
    (r.destroyed i).contains n = true ↔ r.contains n = true ∧ n ∉ l := by
  rw [h.mem_preorder_iff hi hl, h.contains_destroyed hi]

/-- Who stays has the entry that parting has left. -/
lemma entry_destroyed (hi : r.contains i = true) (hn : (r.destroyed i).contains n = true) :
    (r.destroyed i).entry n = (r.detached i).entry n :=
  entry_without fun hg => ((h.contains_destroyed hi n).1 hn).2 ((h.mem_gone_iff hi).1 hg)

/-- An object first parts from its parent, and then it goes with all that is below it. -/
theorem removes (hi : r.contains i = true) (hl : r.preorder i = .ok l) :
    r.Removes (r.destroyed i) i l := by
  have parted : r.Moves (r.detached i) i none :=
    h.moves hi (by rintro _ _ ⟨⟩) (h.get?_detached i)
  have stays : ∀ n, (r.destroyed i).contains n = true ↔ r.contains n = true ∧ n ∉ l := fun n =>
    h.contains_destroyed_iff hi hl
  have same : ∀ n, (r.destroyed i).contains n = true →
      (r.destroyed i).entry n = (r.detached i).entry n := fun n => h.entry_destroyed hi
  have left := h.destroyed hi
  exact {
    listed n hn := h.contains_of_reaches hi ((h.mem_preorder_iff hi hl).1 hn)
    stays
    fewer := h.size_destroyed hi hl
    leaves p hp := by
      obtain ⟨cs, hcs, -, hcs'⟩ := parted.leaves p hp (by simp)
      rw [parent_eq hi] at hp
      have hp := Except.ok.inj hp
      -- The parent is above the object, so it is none of those that go.
      have hpl : p ∉ l := (h.mem_preorder_iff hi hl).not.2 (h.not_reaches_parent hp)
      refine ⟨cs, hcs, ?_⟩
      rw [← hcs', children, children, same p ((stays p).2 ⟨h.contains_parent hp, hpl⟩)]
    otherChildren n hn hp := by
      rw [← parted.otherChildren n (by simp) hp, children, children, same n hn]
    sameParents n hn := by
      have hne : n ≠ i := by
        rintro rfl
        exact ((h.contains_destroyed hi n).1 hn).2 Tree.Reaches.refl
      rw [← parted.otherParents n hne, parent, parent, same n hn]
    sameData n hn := by
      rw [← parted.sameData n, data, data, same n hn]
    linked n hn := by
      refine ⟨fun p hp => ?_, fun cs hcs c hc => ?_⟩
      · rw [parent_eq hn] at hp
        exact ((stays p).1 (left.contains_parent (Except.ok.inj hp))).2
      · rw [children_eq hn] at hcs
        cases hcs
        exact ((stays c).1 (contains_of_parentOf (left.mem_childrenOf_iff.1 hc))).2 }

end Sound

/-- An object that is there can always be destroyed. The gathering of what is below it comes to its
end, and those go that were listed from it, each once, and nobody else. -/
theorem destroy_removes_branch (edits : List Edit) (i : ObjectId)
    (hi : (run edits).contains i = true) :
    (∃ l s, (run edits).preorder i = .ok l ∧ (run edits).apply (.destroy i) = (.ok none, s) ∧
      l.Nodup ∧ (run edits).Removes s.state i l) ∧
    ∃ cs below, (run edits).children i = .ok cs ∧ (run edits).below i = .ok below ∧
      ∀ steps, (run edits).objects.bound ≤ steps →
        (run edits).belowFrom steps cs.reverse = below := by
  have h := sound_run edits
  generalize run edits = r at h hi
  refine ⟨?_, r.childrenOf i, _, children_eq hi, below_eq hi, fun steps => h.belowFrom_of_le hi⟩
  have hl := h.preorder_eq hi
  refine ⟨_, _, hl, apply_destroy hi, h.nodup_preorder hi hl, h.removes hi hl⟩

theorem destroy_removes_branch_sample : ∃ l s, (run twoParents).preorder ⟨2, 1⟩ = .ok l ∧
    (run twoParents).apply (.destroy ⟨2, 1⟩) = (.ok none, s) ∧ l.Nodup ∧
    (run twoParents).Removes s.state ⟨2, 1⟩ l :=
  (destroy_removes_branch twoParents ⟨2, 1⟩ (by decide +kernel)).1

end AccessTree.Registry
