import AccessTree.Proofs.RegistryUpkeep

/-!
Listing an object and what lies below it. In a sound registry the listing comes to an end, meets
no object that is gone, and gives what a forest has below the object, in document order. An object
is listed below another one exactly where the climb from it meets that other one.
-/

namespace AccessTree.Registry

variable {r : Registry} {c i p : ObjectId} {l : List ObjectId} {steps : Nat}

/-- Enough steps empty a stack of objects that are there, and each gives itself and what is below
it. -/
lemma preorderFrom_eq {list : ObjectId → List ObjectId}
    (hl : ∀ i, list i = i :: (r.childrenOf i).flatMap list) {stack : List ObjectId}
    (hthere : ∀ i ∈ stack.flatMap list, r.contains i = true)
    (hs : (stack.flatMap list).length ≤ steps) :
    r.preorderFrom steps stack = .ok (stack.flatMap list) := by
  induction steps generalizing stack with
  | zero =>
    cases stack with
    | nil => rfl
    | cons i stack =>
      rw [List.flatMap_cons, hl i] at hs
      simp at hs
  | succ steps ih =>
    cases stack with
    | nil => rfl
    | cons i stack =>
      -- The object leaves the stack for its children, and what the stack gives besides the object
      -- is the same.
      have hnext : (i :: stack).flatMap list =
          i :: (r.childrenOf i ++ stack).flatMap list := by
        rw [List.flatMap_cons, hl i, List.flatMap_append, List.cons_append]
      rw [hnext] at hthere hs ⊢
      obtain ⟨e, he⟩ := exists_entry (hthere i List.mem_cons_self)
      have hrest := ih (fun j hj => hthere j (List.mem_cons_of_mem i hj))
        (Nat.le_of_succ_le_succ hs)
      rw [childrenOf_eq he] at hrest ⊢
      rw [preorderFrom, entry_eq he]
      change (do return i :: (← r.preorderFrom steps (e.children ++ stack))) = _
      rw [hrest]
      rfl

namespace Sound

variable (h : r.Sound)
include h

/-- The listing is the branch of the object, as deep as it goes, however many steps more than
enough are taken. -/
theorem preorderFrom_of_le (hi : r.contains i = true) (hs : r.objects.bound ≤ steps) :
    r.preorderFrom steps [i] = .ok (branch (r.tree.kids fun _ => true) r.objects.bound i) := by
  let list := branch (r.tree.kids fun _ => true) r.objects.bound
  have hb : ∀ n, list n = n :: (r.childrenOf n).flatMap list := fun n => by
    rw [← h.kids_tree]
    exact h.isForest.branch_of_within (h.within n)
  have hone : [i].flatMap list = list i := List.flatMap_singleton list i
  rw [preorderFrom_eq hb, hone]
  · rw [hone]
    exact fun _ hj => h.contains_of_mem_branch hi hj
  · rw [hone]
    exact (h.length_branch_le hi).trans hs

theorem preorder_eq (hi : r.contains i = true) :
    r.preorder i = .ok (branch (r.tree.kids fun _ => true) r.objects.bound i) :=
  h.preorderFrom_of_le hi (Nat.le_refl _)

lemma mem_preorder_iff (hi : r.contains i = true) (hl : r.preorder i = .ok l) :
    p ∈ l ↔ r.tree.Reaches i p := by
  rw [h.preorder_eq hi] at hl
  rw [← Except.ok.inj hl, h.isForest.mem_branch_of_within (fun _ => rfl) (h.within i)]

/-- What is listed is what the object reaches, in document order. -/
lemma lists_preorder (hi : r.contains i = true) (hl : r.preorder i = .ok l) :
    r.tree.Lists l (r.tree.Reaches i) := by
  refine ⟨fun _ => h.mem_preorder_iff hi hl, ?_⟩
  rw [h.preorder_eq hi] at hl
  rw [← Except.ok.inj hl]
  exact h.isForest.pairwise_branch

lemma nodup_preorder (hi : r.contains i = true) (hl : r.preorder i = .ok l) : l.Nodup :=
  h.isForest.nodup_of_lists (h.lists_preorder hi hl)

lemma isAncestor_iff_reaches (hp : r.contains p = true) :
    r.isAncestor c p = true ↔ r.tree.Reaches c p := by
  rw [h.isAncestor_iff hp, ← show r.tree.parent = r.parentOf from funext fun i => tree_parent]
  constructor
  · rintro ⟨k, hk⟩
    obtain ⟨ps, -, hps⟩ := h.isForest.exists_follow_of_climb hk
    exact ⟨ps, hps⟩
  · rintro ⟨ps, hps⟩
    exact ⟨ps.length, h.isForest.climb_length hps⟩

end Sound

end AccessTree.Registry
