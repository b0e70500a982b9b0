import AccessTree.Proofs.Branches
import AccessTree.Proofs.RegistryEffects

/-!
A registry stays sound through every change, failing ones included. For a move this rests on the
test for circles, which climbs high enough to meet every ancestor, and for a removal on the
gathering of the objects below, which misses none.
-/

namespace AccessTree.Registry

variable {r : Registry} {a c i j p : ObjectId} {steps : Nat}

/-! ### Climbing and gathering -/

lemma climbs_succ : r.climbs a (steps + 1) i =
    (decide (i = a) || ((r.parentOf i).map (r.climbs a steps)).getD false) := by
  rw [climbs, parentOf]
  cases (r.objects.get? i).bind (·.parent?) <;> rfl

lemma climbs_iff : r.climbs a steps i = true ↔ ∃ k < steps, climb r.parentOf k i = some a := by
  induction steps generalizing i with
  | zero => simp [climbs]
  | succ steps ih =>
    have up : ((r.parentOf i).map (r.climbs a steps)).getD false = true ↔
        ∃ k < steps, climb r.parentOf (k + 1) i = some a := by
      unfold climb
      cases r.parentOf i with
      | none => simp
      | some p => exact ih
    rw [climbs_succ, Bool.or_eq_true, up, decide_eq_true_iff]
    constructor
    · rintro (rfl | ⟨k, hk, h⟩)
      · exact ⟨0, by omega, rfl⟩
      · exact ⟨k + 1, by omega, h⟩
    · rintro ⟨_ | k, hk, h⟩
      · exact Or.inl (Option.some.inj h)
      · exact Or.inr ⟨k, by omega, h⟩

lemma belowFrom_succ {stack : List ObjectId} : r.belowFrom (steps + 1) (i :: stack) =
    i :: r.belowFrom steps ((r.childrenOf i).reverse ++ stack) := by
  rw [belowFrom, childrenOf]
  cases r.objects.get? i <;> rfl

/-- Enough steps empty the stack, and each object on it gives itself and what is below it. -/
lemma belowFrom_eq {list : ObjectId → List ObjectId}
    (hl : ∀ i, list i = i :: (r.childrenOf i).reverse.flatMap list) {stack : List ObjectId}
    (hs : (stack.flatMap list).length ≤ steps) :
    r.belowFrom steps stack = stack.flatMap list := by
  induction steps generalizing stack with
  | zero =>
    cases stack with
    | nil => rfl
    | cons i stack =>
      rw [List.flatMap_cons, hl i] at hs
      simp at hs
  | succ steps ih =>
    cases stack with
    | nil => rfl
    | cons i stack =>
      rw [List.flatMap_cons, hl i] at hs ⊢
      rw [belowFrom_succ, ih, List.flatMap_append]
      · rfl
      · simp only [List.cons_append, List.length_cons, List.flatMap_append] at hs ⊢
        omega

/-- A gathering that leaves a step unused has come to its end, and more steps bring nothing more. -/
lemma belowFrom_of_length_lt {more : Nat} {stack : List ObjectId}
    (h : (r.belowFrom steps stack).length < steps) (hm : steps ≤ more) :
    r.belowFrom more stack = r.belowFrom steps stack := by
  induction steps generalizing more stack with
  | zero => exact absurd h (Nat.not_lt_zero _)
  | succ steps ih =>
    obtain ⟨more, rfl⟩ := Nat.exists_eq_succ_of_ne_zero (by omega : more ≠ 0)
    cases stack with
    | nil => rfl
    | cons i stack =>
      rw [belowFrom_succ, List.length_cons] at h
      rw [belowFrom_succ, belowFrom_succ, ih (by omega) (by omega)]

namespace Sound

variable (h : r.Sound)
include h

lemma contains_of_below (hb : r.tree.Below i j) : r.contains i = true :=
  tree_isValid.symm.trans (h.isForest.valid_of_below hb).1

lemma contains_of_reaches (hi : r.contains i = true) (hj : r.tree.Reaches i j) :
    r.contains j = true := by
  obtain ⟨ps, hps⟩ := hj
  have := h.isForest.valid_of_follow (tree_isValid.trans hi) hps
  rwa [tree_isValid] at this

/-- What is above an object that is there is there, too. -/
lemma contains_above (hj : r.contains j = true) (hi : r.tree.Reaches i j) :
    r.contains i = true := by
  rcases hi.eq_or_below with rfl | hb
  · exact hj
  · exact h.contains_of_below hb

lemma within (n : ObjectId) : r.tree.Within n r.objects.bound := by
  intro ps m hm
  obtain ⟨l, hl, hn, ha⟩ := h.isForest.exists_above hm
  rw [← hl]
  exact Arena.length_le_bound hn fun a hal => h.contains_of_below (ha a hal)

/-- Enough steps are taken to meet every ancestor. -/
lemma isAncestor_iff (hi : r.contains i = true) :
    r.isAncestor a i = true ↔ ∃ k, climb r.parentOf k i = some a := by
  rw [isAncestor, climbs_iff]
  refine ⟨fun ⟨k, _, hk⟩ => ⟨k, hk⟩, fun ⟨k, hk⟩ => ⟨k, ?_, hk⟩⟩
  have hk' := hk
  rw [← show r.tree.parent = r.parentOf from funext fun i => tree_parent] at hk'
  obtain ⟨ps, rfl, hps⟩ := h.isForest.exists_follow_of_climb hk'
  obtain ⟨l, hl, hn, ha⟩ := h.isForest.exists_above hps
  have hn : (i :: l).Nodup :=
    List.nodup_cons.2 ⟨fun hil => h.isForest.below_irrefl (ha i hil), hn⟩
  have := Arena.length_le_bound (a := r.objects) hn fun b hb => by
    rcases List.mem_cons.1 hb with rfl | hb
    · exact hi
    · exact h.contains_of_below (ha b hb)
  rw [List.length_cons, hl] at this
  exact this

lemma kids_tree (n : ObjectId) : r.tree.kids (fun _ => true) n = r.childrenOf n := by
  rw [Tree.kids, if_pos rfl]
  refine List.ext_getElem? fun i => ?_
  rw [h.isForest.getElem?_childrenFrom, Nat.zero_add, tree_childAt]

lemma contains_of_mem_branch (hi : r.contains i = true)
    (hj : j ∈ branch (r.tree.kids fun _ => true) r.objects.bound i) : r.contains j = true :=
  h.contains_of_reaches hi (h.isForest.reaches_of_mem_branch hj)

/-- There are no more objects below an object than steps are taken, for each is met once. -/
lemma length_branch_le (hi : r.contains i = true) :
    (branch (r.tree.kids fun _ => true) r.objects.bound i).length ≤ r.objects.bound :=
  Arena.length_le_bound h.isForest.nodup_branch fun _ hj => h.contains_of_mem_branch hi hj

/-- What is gathered below an object is what lies below it, though in another order. -/
theorem belowFrom_perm (hi : r.contains i = true) :
    (i :: r.belowFrom r.objects.bound (r.childrenOf i).reverse).Perm
      (branch (r.tree.kids fun _ => true) r.objects.bound i) := by
  -- The stack gives the children last first, so the branch of reversed lists stands in between.
  have hp : (branch (fun n => (r.childrenOf n).reverse) r.objects.bound i).Perm
      (branch (r.tree.kids fun _ => true) r.objects.bound i) := Tree.branch_perm fun n => by
    rw [h.kids_tree]
    exact List.reverse_perm _
  have hlen := hp.length_eq.trans_le (h.length_branch_le hi)
  have hb : ∀ n, branch (fun n => (r.childrenOf n).reverse) r.objects.bound n =
      n :: (r.childrenOf n).reverse.flatMap
        (branch (fun n => (r.childrenOf n).reverse) r.objects.bound) := fun n =>
    (Tree.branch_succ_of_within (t := r.tree) (fun n c hc => by
      obtain ⟨k, hk⟩ := List.mem_iff_getElem?.1 (List.mem_reverse.1 hc)
      exact ⟨k, by rw [tree_childAt, hk]⟩) (h.within n)).symm
  rw [hb i, List.length_cons] at hlen
  rwa [belowFrom_eq hb (by omega), ← hb i]

lemma mem_belowFrom_iff (hi : r.contains i = true) :
    j ∈ i :: r.belowFrom r.objects.bound (r.childrenOf i).reverse ↔ r.tree.Reaches i j := by
  rw [(h.belowFrom_perm hi).mem_iff, h.isForest.mem_branch_of_within (fun _ => rfl) (h.within i)]

/-- What goes with an object is what it reaches. -/
lemma mem_gone_iff (hi : r.contains i = true) :
    j ∈ r.gone i ↔ r.tree.Reaches i j := by
  rw [← h.mem_belowFrom_iff hi, gone, List.mem_append, List.mem_singleton, List.mem_cons, or_comm]

/-! ### Changes -/

lemma detached (i : ObjectId) : (r.detached i).Sound := by
  cases hp : r.parentOf i with
  | none => rwa [detached_of_root hp]
  | some p =>
    refine ⟨?_, h.kin.detach hp parentOf_detached (childrenOf_detached hp (h.contains_parent hp))⟩
    rw [Registry.detached, hp]
    exact (h.arena.modify _ _).modify _ _

lemma added (d : ObjectData) : (r.added d).Sound where
  arena := h.arena.insert _
  kin := by
    rw [show (r.added d).parentOf = r.parentOf from funext (parentOf_added h.arena),
      show (r.added d).childrenOf = r.childrenOf from funext (childrenOf_added h.arena)]
    exact h.kin

lemma setData (i : ObjectId) (f : ObjectData → ObjectData) :
    Sound ⟨r.objects.modify i fun e => { e with data := f e.data }⟩ where
  arena := h.arena.modify _ _
  kin := by
    rw [show parentOf ⟨r.objects.modify i fun e => { e with data := f e.data }⟩ = r.parentOf from
        funext (parentOf_modify_of_eq fun _ => rfl),
      show childrenOf ⟨r.objects.modify i fun e => { e with data := f e.data }⟩ = r.childrenOf from
        funext (childrenOf_modify_of_eq fun _ => rfl)]
    exact h.kin

/-- A list that an object is not in is the same without it. -/
lemma childrenOf_filter_ne (hne : r.parentOf c ≠ some p) :
    (r.childrenOf p).filter (· != c) = r.childrenOf p := by
  refine List.filter_eq_self.2 fun d hd => ?_
  rw [bne_iff_ne]
  rintro rfl
  exact hne (h.mem_childrenOf_iff.1 hd)

/-- An object that has parted is in no list any more. -/
lemma childrenOf_detached_eq (c p : ObjectId) :
    (r.detached c).childrenOf p = (r.childrenOf p).filter (· != c) := by
  cases hq : r.parentOf c with
  | none =>
    rw [detached_of_root hq, h.childrenOf_filter_ne (by simp [hq])]
  | some q =>
    rw [childrenOf_detached hq (h.contains_parent hq)]
    split
    · rename_i hp
      rw [hp]
    · rename_i hp
      rw [h.childrenOf_filter_ne (by rw [hq]; exact fun he => hp (Option.some.inj he).symm)]

/-- The other children of a parent are those that are left when the child has parted. -/
lemma length_childrenOf_detached (c p : ObjectId) :
    ((r.detached c).childrenOf p).length = (r.childrenOf p).countP (· != c) := by
  rw [List.countP_eq_length_filter, h.childrenOf_detached_eq]

/-- A move keeps a registry sound where it closes no circle and the place is there. -/
lemma attached {index : Nat} (hc : r.contains c = true) (hp : r.contains p = true)
    (hcp : r.isAncestor c p = false) (hi : index ≤ (r.childrenOf p).countP (· != c)) :
    ((r.detached c).attached p index c).Sound := by
  have hd := h.detached c
  refine ⟨(hd.arena.modify _ _).modify _ _, ?_⟩
  -- The object has parted before it joins, so above the new parent no climb may meet it now. As
  -- parting only cuts links, it is enough that none met it before.
  refine hd.kin.attach (by rw [parentOf_detached, if_pos rfl]) (fun k hk => ?_)
    (by rwa [h.length_childrenOf_detached]) (parentOf_attached (by rwa [contains_detached]))
    (childrenOf_attached (by rwa [contains_detached]))
  have hk : climb r.parentOf k p = some c := climb_of_cut (fun n => by
    rw [parentOf_detached]
    split
    · exact Or.inr rfl
    · exact Or.inl rfl) hk
  have := (h.isAncestor_iff (a := c) hp).2 ⟨k, hk⟩
  rw [hcp] at this
  cases this

lemma contains_added {d : ObjectData} (hr : r.objects.HasRoom) :
    (r.added d).contains j = true ↔
      r.contains j = true ∨ (r.objects.insert { data := d }).1 = j := by
  obtain ⟨-, hget⟩ := h.arena.get?_insert hr { data := d } j
  rw [contains, Arena.contains, Registry.added, hget, contains, Arena.contains]
  split
  · rename_i hj
    simp [hj]
  · rename_i hj
    simp [hj]

/-- A new object joins the children of its parent at their end, and nothing stands against that. -/
lemma registerChild_eq_ok {d : ObjectData} {log : Array (Change ObjectId)}
    (hr : r.objects.HasRoom) (hp : r.contains p = true) :
    let c := (r.objects.insert { data := d }).1
    let index := ((r.added d).childrenOf p).countP (· != c)
    registerChild p d ⟨r, log⟩ = .ok c ⟨(r.added d).attached p index c,
      (log.push (.registered c d.role)).push (.reparented c p index)⟩ := by
  intro c index
  have hpa : (r.added d).contains p = true := (h.contains_added hr).2 (Or.inl hp)
  have there : (r.added d).contains c = true := (h.contains_added hr).2 (Or.inr rfl)
  have gone : r.objects.get? c = none := (h.arena.get?_insert hr { data := d } p).1
  have alone : (r.added d).parentOf c = none := by
    rw [parentOf_added h.arena, parentOf, gone]
    rfl
  have hcircle : ¬ (r.added d).isAncestor c p = true := by
    rw [(h.added d).isAncestor_iff hpa]
    rintro ⟨k, hk⟩
    have hup : (r.added d).parentOf = r.tree.parent :=
      funext fun n => (parentOf_added h.arena n).trans tree_parent.symm
    rw [hup] at hk
    obtain ⟨ps, -, hps⟩ := h.isForest.exists_follow_of_climb hk
    have gone : r.contains c = false := by rw [contains, Arena.contains, gone]; rfl
    rw [h.contains_above hp ⟨ps, hps⟩] at gone
    cases gone
  rw [registerChild_eq, if_pos hp, bind_apply, setParent_some_eq, insertChild_eq,
    if_pos ⟨there, hpa⟩, if_neg hcircle, if_neg (Nat.lt_irrefl _), detached_of_root alone]
  rfl

lemma destroyed (hi : r.contains i = true) : (r.destroyed i).Sound := by
  have ht := h.isForest
  constructor
  · exact (h.detached i).arena.foldl_erase _
  · refine (h.detached i).kin.remove (fun c p hcp => ?_) (parentOf_without _)
      (childrenOf_without _)
    rw [h.mem_gone_iff hi, h.mem_gone_iff hi]
    rw [parentOf_detached, Option.ite_none_left_eq_some, ← tree_parent] at hcp
    obtain ⟨k, hk, -⟩ := ht.childAt_of_parent hcp.2
    rw [← ht.below_childAt_iff hk]
    exact ⟨fun hc => hc.eq_or_below.resolve_left (Ne.symm hcp.1), fun hc => hc.reaches⟩

end Sound

/-! ### Runs -/

/-- The registry after a change, whether the change fails or not. -/
def after {α : Type} (u : Update α) (s : Logged Registry (Change ObjectId)) : Registry :=
  match u s with
  | .ok _ s | .error _ s => s.state

/-- The registry that a list of changes makes of an empty one. -/
def run (edits : List Edit) : Registry := edits.foldl (fun r e => (r.apply e).2.state) empty

variable {s : Logged Registry (Change ObjectId)}

lemma apply_state (e : Edit) : (r.apply e).2.state = after e.run ⟨r, #[]⟩ := by
  unfold apply after
  cases e.run ⟨r, #[]⟩ <;> rfl

lemma run_snoc (edits : List Edit) (e : Edit) :
    run (edits ++ [e]) = ((run edits).apply e).2.state := by
  rw [run, run, List.foldl_append]
  rfl

lemma after_bind_pure {α β : Type} (u : Update α) (f : α → β) :
    after (u >>= fun a => pure (f a)) s = after u s := by
  unfold after
  rw [bind_apply]
  cases u s <;> rfl

lemma after_map {α β : Type} (u : Update α) (f : α → β) : after (f <$> u) s = after u s := by
  rw [map_eq_pure_bind, after_bind_pure]

namespace Sound

lemma insertChild (h : s.state.Sound) (p : ObjectId) (index : Nat) (c : ObjectId) :
    (after (Registry.insertChild p index c) s).Sound := by
  unfold after
  rw [insertChild_eq]
  split_ifs with hcp ha hi
  · exact h
  · exact h
  · exact h.attached hcp.1 hcp.2 (by simpa using ha) (by omega)
  · exact h

lemma setParent (h : s.state.Sound) (i : ObjectId) (parent? : Option ObjectId) :
    (after (Registry.setParent i parent?) s).Sound := by
  cases parent? with
  | some p =>
    have := h.insertChild p ((s.state.childrenOf p).countP (· != i)) i
    unfold after at this ⊢
    rwa [setParent_some_eq]
  | none =>
    unfold after
    rw [setParent_none_eq]
    split_ifs
    · exact h.detached i
    · exact h

lemma registerChild (h : s.state.Sound) (p : ObjectId) (d : ObjectData) :
    (after (Registry.registerChild p d) s).Sound := by
  have added : ∀ log, (after (do
      Registry.setParent (s.state.objects.insert { data := d }).1 (some p)
      return (s.state.objects.insert { data := d }).1) ⟨s.state.added d, log⟩).Sound := by
    intro log
    rw [after_bind_pure]
    exact Sound.setParent (s := ⟨s.state.added d, log⟩) (h.added d) _ _
  unfold after at added ⊢
  rw [registerChild_eq]
  split_ifs
  · exact added _
  · exact h

lemma destroy (h : s.state.Sound) (i : ObjectId) : (after (Registry.destroy i) s).Sound := by
  unfold after
  by_cases hi : s.state.contains i = true
  · rw [destroy_eq hi]
    exact h.destroyed hi
  · rw [destroy_eq_error (by simpa using hi)]
    exact h

lemma update_data (h : s.state.Sound) (i : ObjectId) (f : ObjectData → ObjectData) :
    (after (Registry.setData i f) s).Sound := by
  unfold after
  rw [setData_eq]
  split_ifs
  · exact h.setData i f
  · exact h

/-- What one change does keeps a registry sound. -/
theorem edit (h : s.state.Sound) (e : Edit) : (after e.run s).Sound := by
  -- All that sets data is one case, since it leaves the links alone.
  cases e with
  | register d =>
    rw [Edit.run, after_map]
    exact h.added d
  | registerChild p d =>
    rw [Edit.run, after_map]
    exact h.registerChild p d
  | destroy i =>
    rw [Edit.run, Edit.silent, after_bind_pure]
    exact h.destroy i
  | setParent i p =>
    rw [Edit.run, Edit.silent, after_bind_pure]
    exact h.setParent i p
  | insertChild p index c =>
    rw [Edit.run, Edit.silent, after_bind_pure]
    exact h.insertChild p index c
  | setName i _ | setRole i _ | setStates i _ | setState i _ _ | setAttributes i _
  | setInterfaces i _ | setData i _ =>
    rw [Edit.run, Edit.silent, after_bind_pure]
    exact h.update_data i _

end Sound

/-- Whatever is done to an empty registry, in whatever order, leaves it sound. -/
theorem sound_run (edits : List Edit) : (run edits).Sound := by
  induction edits using List.reverseRecOn with
  | nil => exact sound_empty
  | append_singleton edits e ih =>
    rw [run_snoc, apply_state]
    exact ih.edit (s := ⟨run edits, #[]⟩) e

/-- Whoever climbs from an object of a sound registry comes to a root of it. -/
lemma Sound.exists_root (h : r.Sound) (hi : r.contains i = true) :
    ∃ k root, climb r.tree.parent k i = some root ∧ r.contains root = true ∧
      r.tree.parent root = none := by
  have hup : r.tree.parent = r.parentOf := funext fun i => tree_parent
  obtain ⟨k, root, hk, hroot, -⟩ := (h.kin.rooted i).exists_climb
  rw [← hup] at hk hroot
  obtain ⟨ps, -, hps⟩ := h.isForest.exists_follow_of_climb hk
  exact ⟨k, root, hk, h.contains_above hi ⟨ps, hps⟩, hroot⟩

/-- Only the roots have no place among the children of a parent. -/
lemma Sound.indexInParent_eq_none_iff (h : r.Sound) :
    r.tree.indexInParent i = none ↔ r.tree.parent i = none := by
  refine ⟨fun hi => ?_, h.isForest.root i⟩
  cases hp : r.tree.parent i with
  | none => rfl
  | some p =>
    obtain ⟨index, -, hindex⟩ := h.isForest.childAt_of_parent hp
    rw [hi] at hindex
    cases hindex

/-- The answers of a registry agree with each other, whatever has been done to it: there is a child
at each place below the count and at no other, a child and its parent know of each other, each
child stands once in its parent's list, and climbing ends at a root. The tree that is asked has the
parents and places of the registry itself. As long as handles can number the cells, the objects
that have no place are the roots. -/
theorem run_answers_as_forest (edits : List Edit) :
    (run edits).tree.IsForest ∧
    (∀ n, (run edits).contains n = true → ∀ i,
      ((∃ c, (run edits).tree.childAt n i = some c) ↔ i < (run edits).tree.childCount n) ∧
      ∀ c, (run edits).tree.childAt n i = some c → (run edits).contains c = true ∧
        (run edits).tree.parent c = some n ∧ (run edits).tree.indexInParent c = some i) ∧
    (∀ c p, (run edits).parent c = .ok (some p) → (run edits).contains p = true ∧
      ∃ cs, (run edits).children p = .ok cs ∧ cs.count c = 1) ∧
    (∀ n, (run edits).contains n = true →
      ((run edits).tree.indexInParent n = none ↔ (run edits).tree.parent n = none)) ∧
    (∀ n, (run edits).contains n = true → ∃ k root,
      climb (run edits).tree.parent k n = some root ∧ (run edits).contains root = true ∧
      (run edits).tree.parent root = none) ∧
    (∀ n, (run edits).contains n = true →
      (run edits).parent n = .ok ((run edits).tree.parent n) ∧
      (run edits).siblingIndex n = .ok ((run edits).tree.indexInParent n)) ∧
    ((run edits).objects.bound ≤ UInt32.size → ∀ n, n ∈ (run edits).roots ↔
      (run edits).contains n = true ∧ (run edits).tree.indexInParent n = none) := by
  have h := sound_run edits
  generalize run edits = r at h
  have ht := h.isForest
  refine ⟨ht, fun n _ i => ⟨⟨fun ⟨c, hc⟩ => ht.lt_of_childAt hc, fun hi => ?_⟩, fun c hc => ?_⟩,
    fun c p hp => ?_, fun n _ => h.indexInParent_eq_none_iff, fun n hn => h.exists_root hn,
    fun n hn => ⟨by rw [tree_parent, parent_eq hn], siblingIndex_eq hn⟩, fun hb n => ?_⟩
  · obtain ⟨c, hc, -⟩ := ht.child n i hi
    exact ⟨c, hc⟩
  · rw [← tree_isValid]
    exact ht.of_childAt hc
  · -- The parent has the child in its list, and once, for no list has an object twice.
    have hp : r.parentOf c = some p := by
      unfold Registry.parent entry at hp
      unfold parentOf
      cases he : r.objects.get? c with
      | none => rw [he] at hp; cases hp
      | some e => rw [he] at hp; exact Except.ok.inj hp
    obtain ⟨e, he⟩ := exists_entry (h.contains_parent hp)
    refine ⟨contains_eq he, e.children, by rw [children, entry, he]; rfl, ?_⟩
    rw [← childrenOf_eq he]
    exact List.count_eq_one_of_mem (h.kin.nodup p) (h.mem_childrenOf_iff.2 hp)
  · rw [mem_roots hb, IsRoot, ← tree_parent, h.indexInParent_eq_none_iff]

end AccessTree.Registry
