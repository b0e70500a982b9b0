import AccessTree.Proofs.Losses
import AccessTree.Proofs.WalkPoints

/-!
Walks forward and back while objects behind an anchor are destroyed. The anchor and what comes
before it stay in their places, so a step back leads to an object that came before.
-/

namespace AccessTree

open AccessTree.Tree

/-! ### Whole branches -/

namespace Registry

variable {r : Registry} {n : ObjectId} {levels start : Nat}

/-- An object with all that is below it, down to so many levels. -/
abbrev whole (r : Registry) (levels : Nat) : ObjectId → List ObjectId :=
  branch (r.tree.kids fun _ => true) levels

namespace Sound

variable (h : r.Sound)
include h

lemma nodup_flatMap_whole : ((r.tree.childrenFrom n start).flatMap (r.whole levels)).Nodup :=
  h.isForest.nodup_of_lists h.isForest.lists_flatMap_branch

/-- There are not more objects below another one than in the registry. -/
lemma length_flatMap_whole_le :
    ((r.tree.childrenFrom n start).flatMap (r.whole levels)).length ≤ r.objects.bound := by
  refine Arena.length_le_bound h.nodup_flatMap_whole fun i hi => ?_
  obtain ⟨j, ps, -, hps, -⟩ := (h.isForest.lists_flatMap_branch.mem_iff i).1 hi
  exact tree_isValid.symm.trans (h.isForest.valid_of_below ⟨j, ps, hps⟩).2

lemma whole_eq (hw : r.tree.Within n levels) :
    r.whole levels n = n :: (r.tree.childrenFrom n 0).flatMap (r.whole levels) := by
  have kids : r.tree.kids (fun _ => true) n = r.tree.childrenFrom n 0 := if_pos rfl
  rw [whole, h.isForest.branch_of_within hw, kids]

/-- There are not more objects before another one than in the registry. -/
lemma exists_before (a : ObjectId) : ∃ before : List ObjectId,
    (∀ m, r.tree.Precedes m a → m ∈ before) ∧ before.length ≤ r.objects.bound := by
  have hfinite : {i | r.objects.contains i = true}.Finite := Arena.finite_contains _
  refine ⟨hfinite.toFinset.toList, fun m hm => ?_, ?_⟩
  · rw [Finset.mem_toList, Set.Finite.mem_toFinset]
    exact tree_isValid.symm.trans (h.isForest.valid_of_precedes hm)
  · refine Arena.length_le_bound (Finset.nodup_toList _) fun i hi => ?_
    rwa [Finset.mem_toList, Set.Finite.mem_toFinset] at hi

end Sound

end Registry

namespace Walker

open Inquiry (Yields Shrinking yields_pure yields_note)

variable {schedule : Nat → List Registry.Edit} {w : Walker (Registry × Nat) ObjectId}
  (hw : w.tree = Registry.live schedule) (hs : ∀ k, ∀ e ∈ schedule k, e.shrinks = true)
  {r : Registry} {a collection n m : ObjectId} {k : Walk (Registry × Nat) ObjectId}
  {levels steps depth index : Nat}
include hw hs

/-- A walk on finds part of what is below its container in the beginning. -/
lemma finds_whole (h : r.Sound) (hk : r.Shrinks (registry k)) (hd : depth ≤ w.maxDepth)
    (hl : w.maxDepth ≤ levels)
    (hsteps : ((r.tree.childrenFrom n index).flatMap (r.whole levels)).length < steps) :
    Finds (w.forwardFrom steps depth n index) k
      ((r.tree.childrenFrom n index).flatMap (r.whole levels)) := by
  have kids : ∀ n, r.tree.kids (fun _ => true) n = r.childrenOf n := h.kids_tree
  have children : r.tree.childrenFrom n index = (r.childrenOf n).drop index := by
    rw [h.isForest.childrenFrom_eq_drop, ← kids]
    rfl
  have cut : ((r.tree.childrenFrom n index).flatMap (r.whole (w.maxDepth - depth))).Sublist
      ((r.tree.childrenFrom n index).flatMap (r.whole levels)) :=
    List.Sublist.flatMap_right _ fun c _ => branch_sublist_of_le (by omega)
  have hdepth : depth + (w.maxDepth - depth) = w.maxDepth := by omega
  -- The walk is cut at its own depth, and the longer branches hold what it finds.
  refine (finds_forwardFrom hw hs hdepth (fun _ c => ?_) ?_
    (cut.length_le.trans_lt hsteps)).mono cut
  · rw [kids]
    exact hk c
  · rw [children]
    exact (hk n).drop index

/-! ### Back -/

variable (hJ : Endures (r.Spares a) schedule) (h : r.Sound)

omit hs in
include hJ in
/-- The end of a way down was below its beginning before. -/
lemma yields_lastBelow (steps : Nat) (n : ObjectId) :
    Yields (r.Spares a) (w.lastBelow steps n) (r.tree.Reaches n) := by
  induction steps generalizing n with
  | zero =>
    unfold lastBelow
    refine (Inquiry.closed_yields.enters (yields_ask_anything hw hJ) n).bind fun enters _ => ?_
    split
    · refine (yields_ask_anything hw hJ _).bind fun count _ => ?_
      split
      · exact yields_pure .refl
      · exact (yields_note _).bind fun _ _ => yields_pure .refl
    · exact yields_pure .refl
  | succ steps ih =>
    unfold lastBelow
    refine (Inquiry.closed_yields.enters (yields_ask_anything hw hJ) n).bind fun enters _ => ?_
    split
    · refine (yields_ask_anything hw hJ _).bind fun count _ => ?_
      split
      · exact yields_pure .refl
      · refine (yields_ask hw hJ _).bind fun child? hchild => ?_
        -- The child is one of some later registry, where children are below their parents as
        -- before.
        obtain ⟨r', hr', hchild⟩ := hchild
        cases child? with
        | none => exact yields_pure .refl
        | some child =>
          have below : r.tree.Reaches n child :=
            hr'.shrinks.reaches (Tree.below_of_childAt hchild).reaches
          exact (ih child).mono fun m hm => below.trans hm
    · exact yields_pure .refl

omit hs in
include hJ h in
/-- A step back leads to an object that came before. -/
lemma yields_previous (hn : r.tree.UpTo a n) : Yields (r.Spares a) (w.previous n)
    fun m? => ∀ m, m? = some m → r.tree.Precedes m n := by
  unfold previous
  refine (yields_ask_of_eq hw hJ fun r' hr' => hr'.parent_eq h hn).bind fun parent? hp => ?_
  cases parent? with
  | none => exact yields_pure nofun
  | some p =>
    obtain ⟨i, hi, -⟩ := h.isForest.childAt_of_parent hp.symm
    refine (yields_ask_of_eq hw hJ fun r' hr' => hr'.indexInParent_eq hn hi).bind
      fun index? he => ?_
    subst he
    cases i with
    | zero =>
      refine yields_pure fun m hm => ?_
      cases hm
      exact (Tree.below_of_childAt hi).precedes
    | succ i =>
      have hlt := h.isForest.lt_of_childAt hi
      obtain ⟨c, hc, -⟩ := h.isForest.child p i (by omega)
      -- The elder sibling comes before the object, so it has been spared as well.
      have elder : r.tree.UpTo a c := h.isForest.upTo_of_sibling hn hc hi (Nat.lt_succ_self i)
      refine (yields_ask_of_eq hw hJ fun r' hr' => hr'.childAt_eq elder hc).bind fun c? he => ?_
      subst he
      refine (yields_lastBelow hw hJ w.maxDepth c).bind fun m hm => yields_pure fun m' hm' => ?_
      cases hm'
      obtain ⟨ps, hps⟩ := hm
      have self : r.tree.follow n [] = some n := rfl
      exact Tree.precedes_of_siblings hc hi (Nat.lt_succ_self i) hps self

include hJ h in
/-- A walk back finds each object once, the later ones first. -/
theorem exists_finds_backward {stop : Option ObjectId} {before : List ObjectId}
    (hk : At (r.Spares a) stop k) (hn : r.tree.UpTo a n)
    (hbefore : ∀ m, r.tree.Precedes m n → m ∈ before) (hsteps : before.length < steps) :
    ∃ l, Finds (w.backward steps n) k l ∧ l.Pairwise (fun x y => r.tree.Precedes y x) ∧
      ∀ m ∈ l, m = n ∨ r.tree.Precedes m n := by
  have ht := h.isForest
  -- Each step back comes to an earlier object, so the list of those that may still come gets
  -- shorter.
  induction steps generalizing n before k with
  | zero => omega
  | succ steps ih =>
    rw [backward]
    by_cases hstop : (k.stop == some n) = true
    · refine ⟨[], finds_isStop_eq hstop ?_, .nil, nofun⟩
      exact finds_pure
    suffices hbody : ∃ l, Finds _ k l ∧ _ by
      obtain ⟨l, hfinds, hl⟩ := hbody
      exact ⟨l, finds_isStop_eq (eq_false_of_ne_true hstop) hfinds, hl⟩
    rw [if_neg Bool.false_ne_true]
    refine (finds_visit hw hs n).exists_bind ⟨List.pairwise_singleton _ n, ?_⟩ fun k' hk' => ?_
    · exact fun m hm => Or.inl (List.mem_singleton.1 hm)
    have there : At (r.Spares a) stop k' := stays_visit hw hJ n k () k' hk hk'
    have back : Shrinking (w.previous n) := shrinking_previous hw hs n
    obtain ⟨after, earlier⟩ := yields_previous hw hJ h hn k'.asked there.registry
    cases hm : (w.previous n k'.asked).1 with
    | none =>
      refine ⟨[], finds_ask back ?_, List.pairwise_singleton _ n, ?_⟩
      · rw [hm]
        exact finds_pure
      · exact fun m hm => Or.inl (List.mem_singleton.1 hm)
    | some m =>
      have hmn : r.tree.Precedes m n := earlier m hm
      have hmem : m ∈ before := hbefore m hmn
      have hlength := List.length_erase_of_mem hmem
      have hpos := List.length_pos_of_mem hmem
      -- What comes before the next object was in the list, and it is not the next object.
      have rest : ∀ c, r.tree.Precedes c m → c ∈ before.erase m := by
        intro c hc
        have hne : c ≠ m := by
          rintro rfl
          exact ht.precedes_irrefl hc
        exact (List.mem_erase_of_ne hne).2 (hbefore c (ht.precedes_trans hc hmn))
      have hnext : At (r.Spares a) stop { k' with asked := (w.previous n k'.asked).2 } :=
        ⟨after, there.stop⟩
      obtain ⟨l, hfinds, hl, hlow⟩ := ih hnext (ht.upTo_of_precedes hn hmn) rest (by omega)
      have low : ∀ c ∈ l, r.tree.Precedes c n := by
        intro c hc
        rcases hlow c hc with rfl | hcm
        · exact hmn
        · exact ht.precedes_trans hcm hmn
      refine ⟨l, finds_ask back ?_, List.pairwise_cons.2 ⟨low, hl⟩, fun c hc => ?_⟩
      · rw [hm]
        exact hfinds
      · exact (List.mem_cons.1 hc).imp_right (low c)

end Walker

end AccessTree
