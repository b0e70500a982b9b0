import AccessTree.Proofs.DocumentOrder
import AccessTree.Proofs.Removal
import AccessTree.Proofs.Shrinking

/-!
Losses behind an object. Where only such objects are destroyed as come after a given one, that
object and all before it keep their parents and their places among the siblings.
-/

namespace AccessTree

namespace Tree

variable {ν : Type} {t : Tree ν} {a c m n p : ν} {i j : Nat}

/-- An object, or one that comes before it in document order. -/
def UpTo (t : Tree ν) (a n : ν) : Prop := n = a ∨ t.Precedes n a

namespace IsForest

variable (ht : t.IsForest)
include ht

lemma upTo_of_precedes (h : t.UpTo a n) (hm : t.Precedes m n) : t.UpTo a m := by
  rcases h with rfl | h
  · exact Or.inr hm
  · exact Or.inr (ht.precedes_trans hm h)

lemma upTo_of_reaches (h : t.UpTo a n) (hm : t.Reaches m n) : t.UpTo a m := by
  rcases hm.eq_or_below with rfl | hb
  · exact h
  · exact ht.upTo_of_precedes h hb.precedes

/-- The elder siblings come before an object. -/
lemma upTo_of_sibling (h : t.UpTo a n) (hi : t.childAt p i = some c) (hj : t.childAt p j = some n)
    (hij : i < j) : t.UpTo a c := by
  have hself : t.follow c [] = some c := rfl
  have hself' : t.follow n [] = some n := rfl
  exact ht.upTo_of_precedes h (precedes_of_siblings hi hj hij hself hself')

end IsForest

end Tree

namespace Registry

variable {r r' : Registry} {a i n p : ObjectId}

/-- What is reached when a registry has shrunk was reached before. -/
lemma Shrinks.reaches (h : r.Shrinks r') (hn : r'.tree.Reaches p n) : r.tree.Reaches p n := by
  obtain ⟨ps, hps⟩ := hn
  induction ps generalizing p with
  | nil =>
    cases hps
    exact .refl
  | cons j ps ih =>
    obtain ⟨c, hc, hps⟩ := Tree.follow_cons.1 hps
    rw [tree_childAt] at hc
    have hmem : c ∈ r.childrenOf p := (h p).subset (List.mem_of_getElem? hc)
    obtain ⟨l, hl⟩ := List.mem_iff_getElem?.1 hmem
    have hchild : r.tree.childAt p l = some c := tree_childAt.trans hl
    exact (Tree.below_of_childAt hchild).reaches.trans (ih hps)

/-- What is there up to an object is there in its place after some time. -/
structure Spares (r : Registry) (a : ObjectId) (r' : Registry) : Prop where
  sound : r'.Sound
  shrinks : r.Shrinks r'
  place : ∀ {p n : ObjectId} {k : Nat}, r.tree.UpTo a n → (r.childrenOf p)[k]? = some n →
    (r'.childrenOf p)[k]? = some n

lemma Sound.spares (h : r.Sound) (a : ObjectId) : r.Spares a r := ⟨h, .refl r, fun _ => id⟩

/-- What stands before an object in a list stays before it where others are taken out. -/
lemma getElem?_filter_of_not_mem_take {l : List ObjectId} {k : Nat} (hn : l[k]? = some n)
    (hne : n ≠ i) (hi : i ∉ l.take k) : (l.filter (· != i))[k]? = some n := by
  obtain ⟨hk, hget⟩ := List.getElem?_eq_some_iff.1 hn
  have split : l = l.take k ++ n :: l.drop (k + 1) := by
    rw [← hget, ← List.drop_eq_getElem_cons hk, List.take_append_drop]
  have front : (l.take k).filter (· != i) = l.take k := by
    refine List.filter_eq_self.2 fun c hc => ?_
    rw [bne_iff_ne]
    rintro rfl
    exact hi hc
  have length : (l.take k).length = k := List.length_take_of_le hk.le
  rw [split, List.filter_append, front, List.filter_cons_of_pos (by simpa using hne),
    List.getElem?_append_right length.le, length, Nat.sub_self]
  rfl

namespace Spares

variable (h : r.Spares a r') (h0 : r.Sound)
include h h0

/-- Before an object that is spared stand only spared ones. -/
lemma not_mem_take {k : Nat} (hn : r.tree.UpTo a n) (hk : (r.childrenOf p)[k]? = some n)
    (hi : ¬ r.tree.UpTo a i) : i ∉ (r'.childrenOf p).take k := by
  intro hmem
  obtain ⟨j, hj⟩ := List.mem_iff_getElem?.1 hmem
  rw [List.getElem?_take, Option.ite_none_right_eq_some] at hj
  obtain ⟨hjk, hj⟩ := hj
  have hlt : j < (r.childrenOf p).length := hjk.trans (List.getElem?_eq_some_iff.1 hk).1
  have hc : (r.childrenOf p)[j]? = some (r.childrenOf p)[j] := List.getElem?_eq_getElem hlt
  have elder : r.tree.UpTo a (r.childrenOf p)[j] := h0.isForest.upTo_of_sibling hn
    (tree_childAt.trans hc) (tree_childAt.trans hk) hjk
  rw [h.place elder hc] at hj
  rw [Option.some.inj hj] at elder
  exact hi elder

theorem destroy (hi : ¬ r.tree.UpTo a i) (log : Array (Change ObjectId)) :
    r.Spares a (after (Registry.destroy i) ⟨r', log⟩) where
  sound := h.sound.destroy (s := ⟨r', log⟩) i
  shrinks := h.shrinks.trans (shrinks_destroy (s := ⟨r', log⟩))
  place {p n k} hn hk := by
    have hk' := h.place hn hk
    by_cases hc : r'.contains i = true
    · have hchild : r'.tree.childAt p k = some n := tree_childAt.trans hk'
      -- What is destroyed is not above the parent, as it would come before the object then.
      have apart : ¬ r'.tree.Reaches i p := fun hip =>
        hi (h0.isForest.upTo_of_reaches hn
          (h.shrinks.reaches (hip.trans (Tree.below_of_childAt hchild).reaches)))
      have hne : n ≠ i := by
        rintro rfl
        exact hi hn
      rw [after_destroy hc, h.sound.childrenOf_destroyed hc apart]
      exact getElem?_filter_of_not_mem_take hk' hne (h.not_mem_take h0 hn hk hi)
    · unfold after
      rw [destroy_eq_error (by simpa using hc)]
      exact hk'

theorem edited {is : List ObjectId} (his : ∀ i ∈ is, ¬ r.tree.UpTo a i) :
    r.Spares a (r'.edited (is.map .destroy)).state := by
  induction is using List.reverseRecOn with
  | nil => exact h
  | append_singleton is i ih =>
    have before := ih fun j hj => his j (List.mem_append_left _ hj)
    have step : (r'.edited ((is ++ [i]).map .destroy)).state =
        after (Edit.run (.destroy i)) ⟨(r'.edited (is.map .destroy)).state, #[]⟩ := by
      rw [← apply_state]
      simp only [Registry.edited, List.map_append, List.map_cons, List.map_nil, List.foldl_append,
        List.foldl_cons, List.foldl_nil]
    rw [step, Edit.run, Edit.silent, after_bind_pure]
    exact before.destroy h0 (his i (by simp)) _

/-! ### Answers that stay -/

omit h0 in
lemma childAt_eq {k : Nat} (hn : r.tree.UpTo a n) (hk : r.tree.childAt p k = some n) :
    r'.tree.childAt p k = some n := by
  rw [tree_childAt] at hk ⊢
  exact h.place hn hk

omit h0 in
lemma indexInParent_eq {k : Nat} (hn : r.tree.UpTo a n) (hk : r.tree.childAt p k = some n) :
    r'.tree.indexInParent n = some k :=
  (h.sound.isForest.of_childAt (h.childAt_eq hn hk)).2.2

lemma parent_eq (hn : r.tree.UpTo a n) : r'.tree.parent n = r.tree.parent n := by
  cases hp : r.tree.parent n with
  | some p =>
    obtain ⟨k, hk, -⟩ := h0.isForest.childAt_of_parent hp
    exact (h.sound.isForest.of_childAt (h.childAt_eq hn hk)).2.1
  | none =>
    by_contra hne
    obtain ⟨p, hp'⟩ := Option.ne_none_iff_exists'.1 hne
    obtain ⟨k, hk, -⟩ := h.sound.isForest.childAt_of_parent hp'
    rw [tree_childAt] at hk
    have hmem : n ∈ r.childrenOf p := (h.shrinks p).subset (List.mem_of_getElem? hk)
    rw [tree_parent, h0.mem_childrenOf_iff.1 hmem] at hp
    cases hp

end Spares

end Registry

end AccessTree
