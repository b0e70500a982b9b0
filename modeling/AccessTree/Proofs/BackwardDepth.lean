import AccessTree.Proofs.Containment
import AccessTree.Proofs.LastChildren

/-!
Searches back and the greatest depth. A step back counts the levels that it goes down from an elder
sibling and not from the collection. So a search back comes to objects that lie too deep for a walk
forward, and it leaves out only such objects.
-/

namespace AccessTree

open Search WalkM AccessTree.Tree

variable {ν : Type} {t : Tree ν}

namespace Walker

variable {w : Walker Unit ν} {b x : ν} (hw : w.tree = t.atRest) (ht : t.IsForest)
  (he : ∀ a, t.mayEnter w.traverse a = true)
include hw ht he

lemma exists_back (h : t.Below b x) :
    ∃ z, w.After z x ∧ t.Back w.maxDepth z x ∧ t.Reaches b z := by
  obtain ⟨p, i, hp, hx⟩ := h.exists_childAt
  cases i with
  | zero => exact ⟨p, after_parent hw ht hx, .parent hx, hp⟩
  | succ i =>
    obtain ⟨s, hs, -⟩ := ht.child p i (Nat.lt_of_succ_lt (ht.lt_of_childAt hx))
    obtain ⟨z, j, hlast, hz, hj, hend⟩ := ht.exists_lastDown_of_branch he w.maxDepth s
    refine ⟨z, after_sibling hw ht hs hx hlast, .sibling hs hx hz hj hend, ?_⟩
    exact hp.trans ((below_of_childAt hs).reaches.trans (reaches_of_lastDown hz))

/-- On the way back from an object is what comes before it and is not passed over. -/
lemma exists_wayBack_passing (h : t.Reaches b x) : ∃ l, w.WayBack t b x l ∧
    ∀ y, t.Below b y → t.Precedes y x → (y ∈ l ↔ ¬ t.PassedOver w.maxDepth b x y) := by
  refine exists_wayBack_of_step (P := fun x l => ∀ y, t.Below b y → t.Precedes y x →
    (y ∈ l ↔ ¬ t.PassedOver w.maxDepth b x y)) ht ?_ (fun x hx => ?_) h
  · exact fun y hy hyb => absurd hyb (ht.not_precedes_of_below hy)
  obtain ⟨z, hafter, hback, hz⟩ := exists_back hw ht he hx
  refine ⟨z, hafter, hz, hback.precedes, fun l hl hP y hy hyx => ?_⟩
  have hne : y ≠ x := fun h => ht.precedes_irrefl (h ▸ hyx)
  rw [List.mem_append, List.mem_singleton, or_iff_left hne]
  -- The step back goes to `z`. What comes before `z` is settled for `z` already, and what lies
  -- between `z` and `x` is passed over.
  rcases precedes_total hy.reaches hz with hyz | rfl | hzy
  · rw [hP y hy hyz, ht.passedOver_iff_of_back hback hyz]
  · have hmem : y ∈ b :: l := List.mem_of_getLast? hl.last
    refine iff_of_true ((List.mem_cons.1 hmem).resolve_left fun he => ?_)
      (ht.not_passedOver_of_back hback)
    exact ht.below_irrefl (he ▸ hy)
  · refine iff_of_false (fun hyl => ?_) (not_not.2 (ht.passedOver_of_between hback hx hzy hyx))
    rcases hl.precedes_or_eq (List.mem_cons_of_mem b hyl) with hyz | rfl
    · exact ht.precedes_asymm hyz hzy
    · exact ht.precedes_irrefl hzy

end Walker

namespace Tree

/-- A window whose only panel has a menu with one entry, and after the menu a button. -/
def nested : Tree (Fin 5)
  | .parent n => [none, some 0, some 1, some 2, some 1][n]
  | .childCount n => [1, 2, 1, 0, 0][n]
  | .childAt n i => [[1], [2, 4], [3], [], []][n][i]?
  | .indexInParent n => [none, some 0, some 0, some 0, some 1][n]
  | .isValid _ => true
  | q => q.absent

lemma nested_isForest : nested.IsForest :=
  isForest_of_children (fun _ => rfl) (by decide) (fun _ _ => rfl) (by decide) (by decide)
    (by decide) (by decide : ∀ n, climb nested.parent 4 n = none)

end Tree

namespace Finder

variable [DecidableEq ν] {s : Settings} {limit : Nat}

/-- A search back for any object finds what comes before its anchor and is not passed over. -/
lemma exists_findBack_anyObject {q : Query ν} (ht : t.IsForest) (hr : q.rule = .anyObject)
    (hscope : q.scope = .inorder) (hd : q.direction = .back) (hs : q.sort = .canonical)
    (hl : s.limit q.limit = 0) (ha : t.Anchors s q.collection q.anchor)
    (hb : t.Below q.collection q.anchor) : ∃ found, t.Answers s (·.find q) found ∧
      t.Lists found fun y => t.Below q.collection y ∧ t.Precedes y q.anchor ∧
        ¬ t.PassedOver s.maxDepth q.collection q.anchor y := by
  let w := (⟨t.atRest, s, 0⟩ : Finder Unit ν).walker q.rule q.anchor q.limit
    (q.traverse || q.scope == .inorder)
  have henter : ∀ a, t.mayEnter w.traverse a = true := fun a => by
    simp [w, walker, mayEnter, hscope]
  have hboundary : t.boundary q = q.collection := if_neg fun h => h.1 hscope
  obtain ⟨l, hway, hmem⟩ := w.exists_wayBack_passing rfl ht henter hb.reaches
  obtain ⟨enough, hback⟩ := w.gives_wayBack rfl ht hl hway
  have hne := (List.nodup_cons.1 (ht.nodup_of_pairwise hway.ordered)).1
  have hbelow : ∀ y ∈ l, t.Below q.collection y := fun y hy =>
    (hway.reaches y (List.mem_cons_of_mem _ hy)).eq_or_below.resolve_left fun he => hne (he ▸ hy)
  -- The walk meets the way back from its end, so what it finds is turned round twice.
  refine ⟨l.filter (w.keeps t), ⟨enough, fun steps hsteps => ?_⟩, fun y => ?_,
    (List.pairwise_cons.1 hway.ordered).2.filter _⟩
  · refine gives_find ht rfl hs (fun _ => ?_) (absurd ha)
    have hfound := gives_findBack (f := ⟨t.atRest, s, steps⟩) rfl ht hb
      (hboundary ▸ hback steps hsteps)
    rw [hd, ← List.reverse_reverse (l.filter _), ← List.filter_reverse]
    exact hfound.bind (gives_finish true _)
  · have hkeeps : t.Below q.collection y → (w.keeps t y = true ↔ y ≠ q.anchor) := fun hy => by
      simp [Walker.keeps, w, walker, hr, meets_anyObject, (ht.valid_of_below hy).2]
    rw [List.mem_filter]
    constructor
    · rintro ⟨hy, hkeep⟩
      have hyx := (hway.precedes_or_eq (List.mem_cons_of_mem _ hy)).resolve_right
        ((hkeeps (hbelow y hy)).1 hkeep)
      exact ⟨hbelow y hy, hyx, (hmem y (hbelow y hy) hyx).1 hy⟩
    · rintro ⟨hy, hyx, hpassed⟩
      refine ⟨(hmem y hy hyx).2 hpassed, (hkeeps hy).2 ?_⟩
      rintro rfl
      exact ht.precedes_irrefl hyx

/-- A search back from an object of a collection finds everything that the collection has before
it. What it finds besides lies deeper than the collection goes, and of what lies so deep it leaves
out exactly what is passed over. -/
theorem answers_back_by_depth (ht : t.IsForest) (hl : s.limit limit = 0) (collection : ν)
    (recurse traverse : Bool) :
    let q : ν → Query ν := fun anchor =>
      { collection, anchor, scope := .inorder, direction := .back, limit, recurse, traverse }
    ∃ all, t.Answers s (·.findAll collection .anyObject .canonical limit true) all ∧
      ∀ x ∈ all, ∃ before after found, all = before ++ x :: after ∧
        t.Answers s (·.find (q x)) found ∧
        (t.Lists found fun y => t.Below collection y ∧ t.Precedes y x ∧
          ¬ t.PassedOver s.maxDepth collection x y) ∧
        ∀ y, y ∈ before ↔ y ∈ found ∧
          ∃ ps, t.follow collection ps = some y ∧ ps.length ≤ s.maxDepth + 1 := by
  intro q
  obtain ⟨all, hall, hlist⟩ := exists_findAll_anyObject ht hl collection
  refine ⟨all, hall, fun x hx => ?_⟩
  obtain ⟨i, ps, h, hd⟩ := (hlist.mem_iff x).1 hx
  have hb : t.Below collection x := ⟨i, ps, h⟩
  obtain ⟨before, after, rfl⟩ := List.append_of_mem hx
  obtain ⟨found, hfound, hlfound⟩ := exists_findBack_anyObject (q := q x) ht rfl rfl rfl rfl hl
    ⟨(ht.valid_of_below hb).2, i :: ps, h, Nat.succ_le_succ hd⟩ hb
  refine ⟨before, after, found, rfl, hfound, hlfound, fun y => ?_⟩
  -- What is passed over lies too deep to be listed, and what lies so deep is not listed at all.
  rw [(ht.lists_split hlist).1.mem_iff, hlfound.mem_iff]
  constructor
  · rintro ⟨⟨j, qs, hy, hq⟩, hyx⟩
    refine ⟨⟨⟨j, qs, hy⟩, hyx, fun hpassed => ?_⟩, j :: qs, hy, Nat.succ_le_succ hq⟩
    obtain ⟨us, hus, hlong⟩ := hpassed.exists_follow
    rw [ht.follow_inj hus hy, List.length_cons] at hlong
    omega
  · rintro ⟨⟨⟨j, qs, hy⟩, hyx, -⟩, us, hus, hshort⟩
    rw [ht.follow_inj hus hy] at hshort
    exact ⟨⟨j, qs, hy, Nat.le_of_succ_le_succ hshort⟩, hyx⟩

theorem answers_back_by_depth_sample :
    let q : Fin 4 → Query (Fin 4) := fun anchor =>
      { collection := 0, anchor, scope := .inorder, direction := .back }
    sample.IsForest ∧ ({ maxDepth := 1 } : Settings).limit 0 = 0 ∧
    ∃ all, sample.Answers { maxDepth := 1 } (·.findAll 0 .anyObject .canonical 0 true) all ∧
      ∀ x ∈ all, ∃ before after found, all = before ++ x :: after ∧
        sample.Answers { maxDepth := 1 } (·.find (q x)) found ∧
        (sample.Lists found fun y => sample.Below 0 y ∧ sample.Precedes y x ∧
          ¬ sample.PassedOver 1 0 x y) ∧
        ∀ y, y ∈ before ↔ y ∈ found ∧ ∃ ps, sample.follow 0 ps = some y ∧ ps.length ≤ 2 :=
  ⟨sample_isForest, rfl,
    answers_back_by_depth (s := { maxDepth := 1 }) sample_isForest rfl 0 false true⟩

/-- With a greatest depth of one, the entry in the menu does not belong to the objects of the
window, but a search back from the button finds it before the menu. -/
theorem answers_back_too_deep : ∃ before after found, nested.IsForest ∧
    ({ maxDepth := 1 } : Settings).limit 0 = 0 ∧
    nested.Answers { maxDepth := 1 } (·.findAll 0 .anyObject .canonical 0 true)
      (before ++ 4 :: after) ∧
    nested.Answers { maxDepth := 1 }
      (·.find { collection := 0, anchor := 4, scope := .inorder, direction := .back }) found ∧
    ∃ y ∈ found, y ∉ before := by
  let q : Query (Fin 5) := { collection := 0, anchor := 4, scope := .inorder, direction := .back }
  have hcanonical : SortOrder.canonical.reversed? ≠ none := by decide
  have hall : nested.Ends { maxDepth := 1 } (·.findAll 0 .anyObject .canonical 0 true)
      (SortOrder.canonical.arrange .onward [1, 2, 4]) := ⟨9, ⟨(), #[]⟩, by decide +kernel⟩
  have hback : nested.Ends { maxDepth := 1 } (·.find q)
      (SortOrder.canonical.arrange q.direction [3, 2, 1]) := ⟨9, ⟨(), #[]⟩, by decide +kernel⟩
  refine ⟨[1, 2], [], [1, 2, 3], nested_isForest, rfl, ?_, ?_, 3, by decide, by decide⟩
  · exact answers_findAll_of_ends (s := { maxDepth := 1 }) 0 .anyObject 0 true hcanonical hall
      .canonical
  · exact answers_find_of_ends (s := { maxDepth := 1 }) q hcanonical hback

end Finder

end AccessTree
