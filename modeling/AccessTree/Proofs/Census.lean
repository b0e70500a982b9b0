import AccessTree.Proofs.Counting
import AccessTree.Proofs.ForwardSearch
import AccessTree.Proofs.Moves

/-!
Counting a registry's objects by listing them. Each object is below one root and no other, so the
listings of the roots hold each object once. A search for any object finds what is listed below the
collection, as long as nothing is too deep for it.
-/

namespace AccessTree.Registry

variable {r : Registry} {i n : ObjectId} {l : List ObjectId} {limit : Nat} {s : Settings}

lemma nodup_roots (hb : r.objects.bound ≤ UInt32.size) : r.roots.Nodup :=
  (Arena.nodup_handles hb).sublist (List.filter_sublist.map _)

/-- A list of all objects is as long as the registry is large. -/
lemma length_eq_size (hb : r.objects.bound ≤ UInt32.size) (hn : l.Nodup)
    (hl : ∀ n, n ∈ l ↔ r.contains n = true) : l.length = r.size := by
  have hp : l.Perm (r.objects.toList.map Prod.fst) :=
    (List.perm_ext_iff_of_nodup hn (Arena.nodup_handles hb)).2 fun n =>
      (hl n).trans (Arena.mem_handles hb).symm
  rw [hp.length_eq, List.length_map, size, Arena.size]

/-- Where each root has a listing, so have all of them together. -/
lemma mapM_preorder {is : List ObjectId} {list : ObjectId → List ObjectId}
    (h : ∀ i ∈ is, r.preorder i = .ok (list i)) : is.mapM r.preorder = .ok (is.map list) := by
  induction is with
  | nil => rfl
  | cons i is ih =>
    rw [List.mapM_cons, h i List.mem_cons_self, ih fun j hj => h j (List.mem_cons_of_mem i hj)]
    rfl

namespace Sound

variable (h : r.Sound)
include h

/-- An object has one root above it. -/
lemma root_unique {a b : ObjectId} (ha : r.IsRoot a) (hb : r.IsRoot b) (han : r.tree.Reaches a n)
    (hbn : r.tree.Reaches b n) : a = b := by
  have top : ∀ {a b}, r.IsRoot b → r.tree.Reaches a b → a = b := fun hb hab => by
    refine hab.eq_or_below.resolve_right fun hbelow => ?_
    obtain ⟨p, k, -, hk⟩ := hbelow.exists_childAt
    obtain ⟨-, hp, -⟩ := h.isForest.of_childAt hk
    rw [tree_parent, hb.2] at hp
    cases hp
  rcases h.isForest.reaches_meet han hbn with hab | hba
  · exact top hb hab
  · exact (top ha hba).symm

lemma exists_root_reaches (hn : r.contains n = true) :
    ∃ root, r.IsRoot root ∧ r.tree.Reaches root n := by
  obtain ⟨k, root, hk, hroot, hp⟩ := h.exists_root hn
  obtain ⟨ps, -, hps⟩ := h.isForest.exists_follow_of_climb hk
  exact ⟨root, ⟨hroot, tree_parent.symm.trans hp⟩, ps, hps⟩

/-- The listings of all roots, one after the other, are a list of all objects. -/
theorem census (hb : r.objects.bound ≤ UInt32.size) : ∃ ls, r.roots.mapM r.preorder = .ok ls ∧
    ls.flatten.Nodup ∧ ∀ n, n ∈ ls.flatten ↔ r.contains n = true := by
  let list := branch (r.tree.kids fun _ => true) r.objects.bound
  have hlist : ∀ i ∈ r.roots, r.preorder i = .ok (list i) := fun i hi =>
    h.preorder_eq ((mem_roots hb).1 hi).1
  have hmem : ∀ i ∈ r.roots, ∀ n, n ∈ list i ↔ r.tree.Reaches i n := fun i hi n =>
    h.mem_preorder_iff ((mem_roots hb).1 hi).1 (hlist i hi)
  refine ⟨_, mapM_preorder hlist, ?_, fun n => ?_⟩
  · rw [← List.flatMap_def, List.nodup_flatMap]
    -- No listing repeats itself, and two listings with an object in common have the same root.
    refine ⟨fun i hi => h.nodup_preorder ((mem_roots hb).1 hi).1 (hlist i hi), ?_⟩
    refine (nodup_roots hb).imp_of_mem fun ha hb' hne n hna hnb => hne ?_
    exact h.root_unique ((mem_roots hb).1 ha) ((mem_roots hb).1 hb') ((hmem _ ha n).1 hna)
      ((hmem _ hb' n).1 hnb)
  · rw [← List.flatMap_def, List.mem_flatMap]
    constructor
    · rintro ⟨i, hi, hn⟩
      exact h.contains_of_reaches ((mem_roots hb).1 hi).1 ((hmem i hi n).1 hn)
    · intro hn
      obtain ⟨root, hroot, hreach⟩ := h.exists_root_reaches hn
      have hroot := (mem_roots hb).2 hroot
      exact ⟨root, hroot, (hmem root hroot n).2 hreach⟩

/-- The listing goes on, after the object itself, with all that a search from there finds. -/
theorem listing_of_search (hi : r.contains i = true) (hl : s.limit limit = 0)
    (hw : r.tree.Within i (s.maxDepth + 1)) : ∃ l, r.preorder i = .ok (i :: l) ∧
      r.tree.Answers s (·.findAll i .anyObject .canonical limit true) l := by
  have ht := h.isForest
  obtain ⟨l, hanswer, hlist⟩ := Finder.exists_findAll_within ht hl hw .anyObject
  have hbelow : r.tree.Lists l (r.tree.Below i) := hlist.congr fun y => by
    rw [Tree.meets_anyObject]
    exact ⟨And.right, fun hy => ⟨(ht.valid_of_below hy).2, hy⟩⟩
  have hcons : r.tree.Lists (i :: l) (r.tree.Reaches i) := by
    refine ⟨fun y => ?_, List.pairwise_cons.2 ⟨fun y hy => ?_, hbelow.ordered⟩⟩
    · rw [List.mem_cons, hbelow.mem_iff]
      constructor
      · rintro (rfl | hy)
        · exact Tree.Reaches.refl
        · exact hy.reaches
      · exact fun hy => hy.eq_or_below.imp Eq.symm id
    · exact ((hbelow.mem_iff y).1 hy).precedes
  refine ⟨l, ?_, hanswer⟩
  have hall := h.preorder_eq hi
  rw [hall, ht.lists_unique (h.lists_preorder hi hall) hcons]

end Sound

/-- The listing of an object comes to its end and has the object and all below it, each once and in
document order. As long as handles can number the cells, the listings of the roots have all objects,
each once, so together they are as long as the registry is large. And what is listed after an object
is what a search of it for any object finds, unless that is stopped by a limit or by its depth. -/
theorem listings_cover_registry (edits : List Edit) :
    (∀ i, (run edits).contains i = true → ∃ l, (run edits).preorder i = .ok l ∧
      (∀ steps, (run edits).objects.bound ≤ steps →
        (run edits).preorderFrom steps [i] = .ok l) ∧
      l.Nodup ∧ (run edits).tree.Lists l ((run edits).tree.Reaches i)) ∧
    ((run edits).objects.bound ≤ UInt32.size → ∃ ls,
      (run edits).roots.mapM (run edits).preorder = .ok ls ∧ ls.flatten.Nodup ∧
      (∀ n, n ∈ ls.flatten ↔ (run edits).contains n = true) ∧
      ls.flatten.length = (run edits).size) ∧
    ∀ i (s : Settings) limit, (run edits).contains i = true → s.limit limit = 0 →
      (run edits).tree.Within i (s.maxDepth + 1) → ∃ l, (run edits).preorder i = .ok (i :: l) ∧
        (run edits).tree.Answers s (·.findAll i .anyObject .canonical limit true) l := by
  have h := sound_run edits
  generalize run edits = r at h
  refine ⟨fun i hi => ?_, fun hb => ?_, fun i s limit hi hl hw => h.listing_of_search hi hl hw⟩
  · have hl := h.preorder_eq hi
    exact ⟨_, hl, fun steps => h.preorderFrom_of_le hi, h.nodup_preorder hi hl,
      h.lists_preorder hi hl⟩
  · obtain ⟨ls, hls, hn, hmem⟩ := h.census hb
    exact ⟨ls, hls, hn, hmem, length_eq_size hb hn hmem⟩

theorem listings_cover_registry_sample :
    (∃ l, (run twoParents).preorder ⟨1, 1⟩ = .ok l ∧ l.Nodup) ∧
    (∃ ls, (run twoParents).roots.mapM (run twoParents).preorder = .ok ls ∧
      ls.flatten.length = (run twoParents).size) ∧
    ∃ l, (run twoParents).preorder ⟨5, 1⟩ = .ok (⟨5, 1⟩ :: l) ∧
      (run twoParents).tree.Answers {} (·.findAll ⟨5, 1⟩ .anyObject .canonical 0 true) l := by
  obtain ⟨hlist, hall, hsearch⟩ := listings_cover_registry twoParents
  have hbound : (run twoParents).objects.bound = 7 := by decide +kernel
  refine ⟨?_, ?_, ?_⟩
  · obtain ⟨l, hl, -, hn, -⟩ := hlist ⟨1, 1⟩ (by decide +kernel)
    exact ⟨l, hl, hn⟩
  · have room : (run twoParents).objects.bound ≤ UInt32.size := by
      rw [hbound]
      decide
    obtain ⟨ls, hls, -, -, hlength⟩ := hall room
    exact ⟨ls, hls, hlength⟩
  · -- Nothing can be deeper than the registry has cells.
    have shallow := (sound_run twoParents).within ⟨5, 1⟩
    rw [hbound] at shallow
    exact hsearch ⟨5, 1⟩ {} 0 (by decide +kernel) (by decide) (shallow.mono (by decide))

end AccessTree.Registry
