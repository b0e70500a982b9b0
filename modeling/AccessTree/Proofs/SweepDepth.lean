import AccessTree.Proofs.Limits
import AccessTree.Proofs.SweepSearch

/-!
Sweeps and the greatest depth. An anchor may lie one level deeper below the collection than a
sweep climbs. From such an anchor the climb gives up at a child of the collection, and nothing is
found that is not below this child.
-/

namespace AccessTree

open Search WalkM AccessTree.Tree

variable {ν : Type} [DecidableEq ν] {t : Tree ν}

namespace Walker

variable {w : Walker Unit ν} {collection : ν} {i : Nat} {ps : List Nat} (hw : w.tree = t.atRest)
  (ht : t.IsForest) (hlimit : w.limit = 0) (he : ∀ a, t.mayEnter w.traverse a = true)
  (h : t.follow collection (i :: ps) = some w.anchor)
include hw ht hlimit he h

/-- Where the climb reaches the collection, a sweep leaves out nothing but its anchor. -/
lemma exists_sweep_of_lt (hd : ps.length < w.maxDepth) : ∃ found,
    (∃ enough, ∀ steps ≥ enough, Gives (collect none (w.sweep steps collection w.anchor)) found) ∧
      ∀ j qs y, t.follow collection (j :: qs) = some y → qs.length ≤ w.maxDepth →
        (y ∈ found ↔ w.keeps t y = true) := by
  have hlist : t.Lists ((t.childrenFrom collection 0).flatMap (w.branch t w.maxDepth)) _ :=
    ht.lists_flatMap_branch
  have hall : ∀ j qs y, t.follow collection (j :: qs) = some y → qs.length ≤ w.maxDepth →
      y ∈ (t.childrenFrom collection 0).flatMap (w.branch t w.maxDepth) := fun j qs y hy hq =>
    (hlist.mem_iff y).2 ⟨j, qs, Nat.zero_le j, hy, hq, fun a _ _ => he a⟩
  -- The anchor is one of what the collection has, so the last walk comes to it and stops.
  obtain ⟨before, after, hsplit⟩ := List.append_of_mem (hall i ps _ h hd.le)
  rw [hsplit] at hlist hall
  obtain ⟨hbefore, hafter⟩ := ht.lists_split hlist
  have hne : (true && w.anchor != collection) = true := by
    simpa using fun hx : w.anchor = collection => ht.below_irrefl (hx ▸ (⟨i, ps, h⟩ : t.Below _ _))
  refine ⟨_, gives_sweep_again hw ht hlimit h (Nat.succ_le_succ hd.le)
    (alike_ascend hw ht h hd) hne hsplit fun y hy hx => ?_, fun j qs y hy hq => ?_⟩
  · exact ht.precedes_irrefl (hx ▸ ((hbefore.mem_iff y).1 hy).2)
  · rw [List.mem_filter, and_iff_right_iff_imp, List.mem_append,
      ht.mem_onward_iff he h hy (Nat.succ_le_succ hq)]
    intro hkeep
    -- What comes before the anchor is found by the last walk, and what comes after it by the first
    -- two.
    rcases List.mem_append.1 (hall j qs y hy hq) with hy | hy
    · exact Or.inr hy
    rcases List.mem_cons.1 hy with rfl | hy
    · simp [keeps] at hkeep
    · exact Or.inl ((hafter.mem_iff y).1 hy).2

/-- Where the climb gives up below the collection, a sweep finds what comes after its anchor and
is reached by the same child of the collection. -/
lemma exists_sweep_of_eq (hd : ps.length = w.maxDepth) : ∃ found,
    (∃ enough, ∀ steps ≥ enough, Gives (collect none (w.sweep steps collection w.anchor)) found) ∧
      ∀ j qs y, t.follow collection (j :: qs) = some y → qs.length ≤ w.maxDepth →
        (y ∈ found ↔ (t.Precedes w.anchor y ∧ j = i) ∧ w.keeps t y = true) := by
  obtain ⟨c, hc, hrs⟩ := follow_cons.1 h
  have hshort := alike_ascend_short hw ht hc hrs
  rw [hd] at hshort
  refine ⟨_, gives_sweep_once hw ht hlimit h (Nat.succ_le_succ hd.le) hshort rfl,
    fun j qs y hy hq => ?_⟩
  obtain ⟨d, hj, hy⟩ := follow_cons.1 hy
  rw [List.mem_filter]
  refine and_congr_left fun _ => ⟨fun hmem => ?_, ?_⟩
  · have hcy : t.Reaches c y := by
      rcases List.mem_append.1 hmem with hmem | hmem
      · obtain ⟨k, us, -, hu, -⟩ := (ht.lists_flatMap_branch.mem_iff y).1 hmem
        exact ⟨_, follow_trans hrs hu⟩
      · exact ((ht.pairwise_trailing hrs).2 y hmem).1.reaches
    obtain rfl : j = i := ht.index_eq hj hc ⟨qs, hy⟩ hcy
    rw [hc] at hj
    cases hj
    exact ⟨(ht.mem_onward_iff he hrs hy (hq.trans (Nat.le_succ _))).1 hmem, rfl⟩
  · rintro ⟨hxy, rfl⟩
    rw [hc] at hj
    cases hj
    exact (ht.mem_onward_iff he hrs hy (hq.trans (Nat.le_succ _))).2 hxy

end Walker

namespace Finder

variable {s : Settings} {limit : Nat}

/-- A search all round for any object, from an anchor that is not too deep for a walk forward. -/
lemma exists_round_anyObject {q : Query ν} {i : Nat} {ps : List Nat} (ht : t.IsForest)
    (hr : q.rule = .anyObject) (hscope : q.scope = .inorder) (hd : q.direction = .onward)
    (hs : q.sort = .canonical) (hl : s.limit q.limit = 0)
    (h : t.follow q.collection (i :: ps) = some q.anchor) (hps : ps.length ≤ s.maxDepth) :
    ∃ found, t.Answers s (·.find q) found ∧
      ∀ j qs y, t.follow q.collection (j :: qs) = some y → qs.length ≤ s.maxDepth →
        (y ∈ found ↔ y ≠ q.anchor ∧ (ps.length = s.maxDepth → t.Precedes q.anchor y ∧ j = i)) := by
  have hvalid : ∀ {j qs y}, t.follow q.collection (j :: qs) = some y → t.isValid y = true :=
    fun hy => (ht.valid_of_below ⟨_, _, hy⟩).2
  have ha : t.Anchors s q.collection q.anchor := ⟨hvalid h, i :: ps, h, Nat.succ_le_succ hps⟩
  let w := (⟨t.atRest, s, 0⟩ : Finder Unit ν).walker q.rule q.anchor q.limit true
  have hkeeps : ∀ {j qs y}, t.follow q.collection (j :: qs) = some y →
      (w.keeps t y = true ↔ y ≠ q.anchor) := fun hy => by
    simp [Walker.keeps, w, walker, hr, meets_anyObject, hvalid hy]
  -- The climb has as many levels as the greatest depth, and the anchor one more to go in the second
  -- case.
  rcases Nat.lt_or_eq_of_le hps with hlt | heq
  · obtain ⟨found, hsweep, hfound⟩ := w.exists_sweep_of_lt rfl ht hl (fun _ => mayEnter_true) h hlt
    refine ⟨found, answers_sweep ht ha hd hs hscope hsweep, fun j qs y hy hq => ?_⟩
    rw [hfound j qs y hy hq, hkeeps hy]
    exact (and_iff_left fun heq => absurd heq hlt.ne).symm
  · obtain ⟨found, hsweep, hfound⟩ := w.exists_sweep_of_eq rfl ht hl (fun _ => mayEnter_true) h heq
    refine ⟨found, answers_sweep ht ha hd hs hscope hsweep, fun j qs y hy hq => ?_⟩
    rw [hfound j qs y hy hq, hkeeps hy, and_comm, forall_prop_of_true heq]
    rfl

/-- From an anchor that lies no deeper below the collection than the greatest depth, a search all
round finds every other object of the collection. From an anchor that lies one level deeper, it
finds of these only the ones that come after the anchor and are reached by the same child of the
collection. -/
theorem answers_round_by_depth (ht : t.IsForest) (hl : s.limit limit = 0) (collection : ν)
    (recurse traverse : Bool) :
    ∃ all, t.Answers s (·.findAll collection .anyObject .canonical limit true) all ∧
      ∀ x ∈ all, ∃ ps found, t.follow collection ps = some x ∧ ps.length ≤ s.maxDepth + 1 ∧
        t.Answers s
          (·.find { collection, anchor := x, scope := .inorder, limit, recurse, traverse }) found ∧
        (ps.length ≤ s.maxDepth → ∀ y ∈ all, y ∈ found ↔ y ≠ x) ∧
        (s.maxDepth < ps.length → ∀ y ∈ all, y ∈ found ↔ t.Precedes x y ∧
          ∃ i c, t.childAt collection i = some c ∧ t.Reaches c x ∧ t.Reaches c y) := by
  obtain ⟨all, hall, hlist⟩ := exists_findAll_anyObject ht hl collection
  refine ⟨all, hall, fun x hx => ?_⟩
  obtain ⟨i, ps, h, hps⟩ := (hlist.mem_iff x).1 hx
  let q : Query ν := { collection, anchor := x, scope := .inorder, limit, recurse, traverse }
  obtain ⟨found, hfound, hmem⟩ := exists_round_anyObject (q := q) ht rfl rfl rfl rfl hl h hps
  refine ⟨i :: ps, found, h, Nat.succ_le_succ hps, hfound, fun hnear y hy => ?_,
    fun hdeep y hy => ?_⟩
  · obtain ⟨j, qs, hy, hq⟩ := (hlist.mem_iff y).1 hy
    rw [hmem j qs y hy hq]
    exact and_iff_left fun heq => absurd hnear (Nat.not_le.2 (Nat.lt_succ_of_le heq.ge))
  · obtain ⟨j, qs, hy, hq⟩ := (hlist.mem_iff y).1 hy
    -- Not near enough, and not too deep to be listed, leaves one depth.
    have heq : ps.length = s.maxDepth := Nat.le_antisymm hps (Nat.le_of_lt_succ hdeep)
    rw [hmem j qs y hy hq, forall_prop_of_true heq, ← ht.index_eq_iff h hy, and_iff_right_iff_imp]
    rintro ⟨hxy, -⟩ rfl
    exact ht.precedes_irrefl hxy

theorem answers_round_by_depth_sample : sample.IsForest ∧
    ({ maxDepth := 1 } : Settings).limit 0 = 0 ∧
    ∃ all, sample.Answers { maxDepth := 1 } (·.findAll 0 .anyObject .canonical 0 true) all ∧
      ∀ x ∈ all, ∃ ps found, sample.follow 0 ps = some x ∧ ps.length ≤ 2 ∧
        sample.Answers { maxDepth := 1 }
          (·.find { collection := 0, anchor := x, scope := .inorder }) found ∧
        (ps.length ≤ 1 → ∀ y ∈ all, y ∈ found ↔ y ≠ x) ∧
        (1 < ps.length → ∀ y ∈ all, y ∈ found ↔ sample.Precedes x y ∧
          ∃ i c, sample.childAt 0 i = some c ∧ sample.Reaches c x ∧ sample.Reaches c y) :=
  ⟨sample_isForest, rfl,
    answers_round_by_depth (s := { maxDepth := 1 }) sample_isForest rfl 0 false true⟩

/-- With a greatest depth of one, the button in the toolbar belongs to the objects of the window,
and a search all round from the button finds none of the others. -/
theorem answers_round_too_deep : ∃ all found, sample.IsForest ∧
    ({ maxDepth := 1 } : Settings).limit 0 = 0 ∧
    sample.Answers { maxDepth := 1 } (·.findAll 0 .anyObject .canonical 0 true) all ∧ 2 ∈ all ∧
    sample.Answers { maxDepth := 1 } (·.find { collection := 0, anchor := 2, scope := .inorder })
      found ∧ ∃ y ∈ all, y ≠ 2 ∧ y ∉ found := by
  let q : Query (Fin 4) := { collection := 0, anchor := 2, scope := .inorder }
  have hcanonical : SortOrder.canonical.reversed? ≠ none := by decide
  have hall : sample.Ends { maxDepth := 1 } (·.findAll 0 .anyObject .canonical 0 true)
      (SortOrder.canonical.arrange .onward [1, 2, 3]) := ⟨9, ⟨(), #[]⟩, by decide +kernel⟩
  have hround : sample.Ends { maxDepth := 1 } (·.find q)
      (SortOrder.canonical.arrange q.direction []) := ⟨9, ⟨(), #[]⟩, by decide +kernel⟩
  refine ⟨[1, 2, 3], [], sample_isForest, rfl, ?_, by decide, ?_, 3, by decide, by decide,
    List.not_mem_nil⟩
  · exact answers_findAll_of_ends (s := { maxDepth := 1 }) 0 .anyObject 0 true hcanonical hall
      .canonical
  · exact answers_find_of_ends (s := { maxDepth := 1 }) q hcanonical hround

end Finder

end AccessTree
