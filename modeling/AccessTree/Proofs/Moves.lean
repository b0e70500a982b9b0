import AccessTree.Proofs.Refusals

/-!
Moves. When an object gets another parent, or none, it leaves one list of children and joins
another one at the place that was asked for, and takes along what lies below it. No other link
changes, and nobody comes or goes.
-/

namespace AccessTree.Registry

/-- An object has gone to a place among the other children of a parent, or has become a root, and
all else is as it was. -/
structure Moves (r r' : Registry) (c : ObjectId) (to? : Option (ObjectId × Nat)) : Prop where
  parent : r'.parent c = .ok (to?.map Prod.fst)
  joins : ∀ p index, to? = some (p, index) → ∃ l, r.children p = .ok l ∧
    r'.children p = .ok ((l.filter (· != c)).insertIdx index c)
  /-- The place is there when the object has left its old one. -/
  fits : ∀ p index, to? = some (p, index) → ∃ l, (after (detach c) ⟨r, #[]⟩).children p = .ok l ∧
    index ≤ l.length
  leaves : ∀ q, r.parent c = .ok (some q) → to?.map Prod.fst ≠ some q → ∃ l,
    r.children q = .ok l ∧ c ∈ l ∧ r'.children q = .ok (l.filter (· != c))
  otherParents : ∀ n, n ≠ c → r'.parent n = r.parent n
  otherChildren : ∀ n, to?.map Prod.fst ≠ some n → r.parent c ≠ .ok (some n) →
    r'.children n = r.children n
  sameData : ∀ n, r'.data n = r.data n
  sameObjects : ∀ n, r'.contains n = r.contains n
  /-- What lies below the object is where it was, seen from the object. -/
  sameBelow : ∀ ps, r'.tree.follow c ps = r.tree.follow c ps

/-- What a move makes of an entry. -/
def Entry.moved (c : ObjectId) (to? : Option (ObjectId × Nat)) (n : ObjectId) (e : Entry) :
    Entry where
  data := e.data
  parent? := if n = c then to?.map Prod.fst else e.parent?
  children :=
    let others := e.children.filter (· != c)
    match to? with
    | none => others
    | some (p, index) => if n = p then others.insertIdx index c else others

variable {r r' : Registry} {c n p q : ObjectId} {index : Nat} {e : Entry}
  {to? : Option (ObjectId × Nat)} {log : Array (Change ObjectId)}
  {s : Logged Registry (Change ObjectId)}

namespace Sound

variable (h : r.Sound)
include h

lemma not_reaches_parent (hp : r.parentOf c = some p) : ¬ r.tree.Reaches c p := by
  rw [← tree_parent] at hp
  obtain ⟨k, hk, -⟩ := h.isForest.childAt_of_parent hp
  exact fun hreach => h.isForest.not_below_of_reaches hreach (Tree.below_of_childAt hk)

theorem get?_detached (c n : ObjectId) :
    (r.detached c).objects.get? n = (r.objects.get? n).map (Entry.moved c none n) := by
  -- A root is in no list of children, so there is nothing to take it out of.
  cases hp : r.parentOf c with
  | none =>
    rw [detached_of_root hp]
    cases he : r.objects.get? n with
    | none => rfl
    | some e =>
      have hparent : (if n = c then none else e.parent?) = e.parent? := by
        split
        · rename_i hn
          rw [parentOf, ← hn, he] at hp
          exact hp.symm
        · rfl
      have hchildren := h.childrenOf_filter_ne (c := c) (p := n) (by simp [hp])
      rw [childrenOf_eq he] at hchildren
      rw [Option.map_some, Entry.moved, Option.map_none, hparent, hchildren]
  | some q =>
    rw [Registry.detached, hp, Arena.get?_modify_eq_map, Arena.get?_modify_eq_map, Option.map_map]
    refine Option.map_congr fun e he => ?_
    have hchildren : n ≠ q → e.children.filter (· != c) = e.children := fun hn => by
      rw [← childrenOf_eq he]
      exact h.childrenOf_filter_ne (by rw [hp]; exact fun hq => hn (Option.some.inj hq).symm)
    rw [Function.comp_apply, Entry.moved, Option.map_none]
    -- Only the entries of the old parent and of the object itself are written, and the others have
    -- nothing to be changed.
    split_ifs with hq hc hc
    · rfl
    · rfl
    · rw [hchildren hq]
    · rw [hchildren hq]

theorem get?_attached (c p : ObjectId) (index : Nat) (n : ObjectId) :
    ((r.detached c).attached p index c).objects.get? n =
      (r.objects.get? n).map (Entry.moved c (some (p, index)) n) := by
  rw [Registry.attached, Arena.get?_modify_eq_map, Arena.get?_modify_eq_map, h.get?_detached,
    Option.map_map, Option.map_map]
  refine Option.map_congr fun e he => ?_
  rw [Function.comp_apply, Function.comp_apply, Entry.moved, Entry.moved]
  dsimp only
  split_ifs <;> rfl

/-- A move leaves the children of an object alone if it leads neither away from it nor to it. -/
lemma children_moved (he : r.objects.get? n = some e) (hfrom : r.parentOf c ≠ some n)
    (hto : to?.map Prod.fst ≠ some n) : (Entry.moved c to? n e).children = e.children := by
  have others := h.childrenOf_filter_ne hfrom
  rw [childrenOf_eq he] at others
  rw [Entry.moved]
  cases to? with
  | none => exact others
  | some place => exact (if_neg fun hn => hto (congrArg some hn.symm)).trans others

/-- Where the entries are what a move makes of them, the object has moved. -/
theorem moves (hc : r.contains c = true)
    (hto : ∀ p index, to? = some (p, index) → r.contains p = true ∧ ¬ r.tree.Reaches c p ∧
      index ≤ (r.childrenOf p).countP (· != c))
    (hget : ∀ n, r'.objects.get? n = (r.objects.get? n).map (Entry.moved c to? n)) :
    r.Moves r' c to? where
  parent := by
    -- The entry of the object has the new parent.
    obtain ⟨e, he⟩ := exists_entry hc
    rw [parent, entry_of_get? (hget c), entry_eq he]
    exact congrArg Except.ok (if_pos rfl)
  joins p index ht := by
    obtain ⟨e, he⟩ := exists_entry (hto p index ht).1
    refine ⟨e.children, by rw [children, entry_eq he]; rfl, ?_⟩
    rw [children, entry_of_get? (hget p), entry_eq he, ht]
    exact congrArg Except.ok (if_pos rfl)
  fits p index ht := by
    -- The object is out of its old list when its place is counted.
    obtain ⟨hp, -, hi⟩ := hto p index ht
    have parted : after (detach c) ⟨r, #[]⟩ = r.detached c := by
      unfold after
      rw [detach_eq]
    refine ⟨_, ?_, hi.trans_eq (h.length_childrenOf_detached c p).symm⟩
    rw [parted, children_eq ((contains_detached p).trans hp)]
  leaves q hq ht := by
    -- The old parent is another one than the new, so it only loses the object.
    rw [parent_eq hc] at hq
    have hq := Except.ok.inj hq
    obtain ⟨e, he⟩ := exists_entry (h.contains_parent hq)
    refine ⟨e.children, by rw [children, entry_eq he]; rfl,
      childrenOf_eq he ▸ h.mem_childrenOf_iff.2 hq, ?_⟩
    rw [children, entry_of_get? (hget q), entry_eq he]
    refine congrArg Except.ok ?_
    rw [Entry.moved]
    cases to? with
    | none => rfl
    | some place => exact if_neg fun hqp => ht (congrArg some hqp.symm)
  otherParents n hn := by
    rw [parent, parent, entry_of_get? (hget n)]
    cases r.entry n with
    | error err => rfl
    | ok e => exact congrArg Except.ok (if_neg hn)
  otherChildren n ht hn := by
    -- Whoever is neither the old parent nor the new one does not list the object.
    rw [parent_eq hc] at hn
    rw [children, children, entry_of_get? (hget n), entry]
    cases he : r.objects.get? n with
    | none => rfl
    | some e =>
      exact congrArg Except.ok (h.children_moved he (fun hq => hn (congrArg Except.ok hq)) ht)
  sameData n := by
    rw [data, data, entry_of_get? (hget n)]
    cases r.entry n <;> rfl
  sameObjects n := by
    rw [contains, contains, Arena.contains, Arena.contains, hget, Option.isSome_map]
  sameBelow ps := by
    -- Neither parent lies below the object, so every list on the way down is as it was.
    refine Tree.follow_congr (fun n hn i => ?_) ps
    have hfrom : r.parentOf c ≠ some n := fun hp => h.not_reaches_parent hp hn
    have hto : to?.map Prod.fst ≠ some n := by
      intro ht
      obtain ⟨⟨p, index⟩, hp, rfl⟩ := Option.map_eq_some_iff.1 ht
      exact (hto p index hp).2.1 hn
    rw [tree_childAt, tree_childAt, childrenOf, childrenOf, hget]
    cases he : r.objects.get? n with
    | none => rfl
    | some e =>
      rw [Option.map_some, Option.map_some, h.children_moved he hfrom hto]
      rfl

end Sound

/-! ### Edits -/

lemma insertChild_eq_ok (h : insertChild p index c ⟨r, log⟩ = .ok () s) :
    r.contains c = true ∧ r.contains p = true ∧ r.isAncestor c p = false ∧
      index ≤ (r.childrenOf p).countP (· != c) ∧
      s.state = (r.detached c).attached p index c := by
  rw [insertChild_eq] at h
  split_ifs at h with hcp ha hi
  cases h
  exact ⟨hcp.1, hcp.2, by simpa using ha, by omega, rfl⟩

lemma Sound.moves_of_insertChild (h : r.Sound)
    (hok : Registry.insertChild p index c ⟨r, log⟩ = .ok () s) :
    r.Moves s.state c (some (p, index)) := by
  obtain ⟨hc, hp, ha, hi, hs⟩ := insertChild_eq_ok hok
  refine h.moves hc ?_ fun n => by rw [hs, h.get?_attached]
  rintro _ _ ⟨⟩
  refine ⟨hp, fun hreach => ?_, hi⟩
  rw [← h.isAncestor_iff_reaches hp, ha] at hreach
  cases hreach

lemma apply_silent_ok {e : Edit} {u : Update Unit} {made : Option ObjectId}
    (he : e.run = Edit.silent u) (h : r.apply e = (.ok made, s)) : u ⟨r, #[]⟩ = .ok () s := by
  rw [apply_silent he] at h
  cases hu : u ⟨r, #[]⟩ with
  | ok a t =>
    rw [hu] at h
    cases h
    rfl
  | error err t =>
    rw [hu] at h
    cases h

/-- A move that succeeds changes the place of one object and nothing else. A place among the
children of a parent is counted without the object itself, and where none is given the object
becomes the last child. -/
theorem reparenting_moves_one (edits : List Edit) (c : ObjectId) (made : Option ObjectId)
    (s : Logged Registry (Change ObjectId)) :
    (∀ p index, (run edits).apply (.insertChild p index c) = (.ok made, s) →
      (run edits).Moves s.state c (some (p, index))) ∧
    (∀ p, (run edits).apply (.setParent c (some p)) = (.ok made, s) →
      ∃ l, (run edits).children p = .ok l ∧
        (run edits).Moves s.state c (some (p, l.countP (· != c))) ∧
        s.state.children p = .ok (l.filter (· != c) ++ [c])) ∧
    ((run edits).apply (.setParent c none) = (.ok made, s) →
      (run edits).Moves s.state c none) := by
  have h := sound_run edits
  generalize run edits = r at h
  refine ⟨fun p index hok => ?_, fun p hok => ?_, fun hok => ?_⟩
  · exact h.moves_of_insertChild (apply_silent_ok rfl hok)
  · have hok := apply_silent_ok rfl hok
    -- The place is the number of the other children, which is the end of their list.
    rw [setParent_some_eq] at hok
    obtain ⟨-, hp, -⟩ := insertChild_eq_ok hok
    have hmoves := h.moves_of_insertChild hok
    obtain ⟨l, hl, hl'⟩ := hmoves.joins _ _ rfl
    rw [children_eq hp] at hl
    cases hl
    refine ⟨r.childrenOf p, children_eq hp, hmoves, ?_⟩
    rw [hl', List.countP_eq_length_filter, List.insertIdx_length_self]
  · have hok := apply_silent_ok rfl hok
    rw [setParent_none_eq] at hok
    split_ifs at hok with hc
    cases hok
    exact h.moves hc (by rintro _ _ ⟨⟩) (h.get?_detached c)

/-- Two parents. The first one has two children, of which the elder one has a child itself. -/
def twoParents : List Edit :=
  [.register {}, .registerChild ⟨1, 1⟩ {}, .registerChild ⟨1, 1⟩ {}, .registerChild ⟨2, 1⟩ {},
    .register {}, .registerChild ⟨5, 1⟩ {}]

theorem reparenting_moves_one_sample :
    (∃ s, (run twoParents).apply (.insertChild ⟨5, 1⟩ 0 ⟨2, 1⟩) = (.ok none, s) ∧
      (run twoParents).Moves s.state ⟨2, 1⟩ (some (⟨5, 1⟩, 0))) ∧
    (∃ s l, (run twoParents).apply (.setParent ⟨2, 1⟩ (some ⟨1, 1⟩)) = (.ok none, s) ∧
      (run twoParents).children ⟨1, 1⟩ = .ok l ∧
      s.state.children ⟨1, 1⟩ = .ok (l.filter (· != ⟨2, 1⟩) ++ [⟨2, 1⟩])) ∧
    ∃ s, (run twoParents).apply (.setParent ⟨4, 1⟩ none) = (.ok none, s) ∧
      (run twoParents).Moves s.state ⟨4, 1⟩ none := by
  have succeeds : ∀ e, ((run twoParents).apply e).1 = .ok none →
      (run twoParents).apply e = (.ok none, ((run twoParents).apply e).2) := fun e he =>
    Prod.ext he rfl
  refine ⟨?_, ?_, ?_⟩
  · have hok := succeeds (.insertChild ⟨5, 1⟩ 0 ⟨2, 1⟩) (by decide +kernel)
    exact ⟨_, hok, (reparenting_moves_one twoParents ⟨2, 1⟩ none _).1 ⟨5, 1⟩ 0 hok⟩
  · have hok := succeeds (.setParent ⟨2, 1⟩ (some ⟨1, 1⟩)) (by decide +kernel)
    obtain ⟨l, hl, -, hlast⟩ :=
      (reparenting_moves_one twoParents ⟨2, 1⟩ none _).2.1 ⟨1, 1⟩ hok
    exact ⟨_, l, hok, hl, hlast⟩
  · have hok := succeeds (.setParent ⟨4, 1⟩ none) (by decide +kernel)
    exact ⟨_, hok, (reparenting_moves_one twoParents ⟨4, 1⟩ none _).2.2 hok⟩

end AccessTree.Registry
