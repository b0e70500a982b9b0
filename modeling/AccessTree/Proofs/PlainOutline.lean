import AccessTree.Proofs.OutlineText

/-!
Outlines without lines. A label is set in by the columns of the levels above its object. Where more
is to come at a level, its column holds a line, which has no width in this style; where nothing is,
it still holds a blank. So how far a label is set in depends on the objects above, and two objects
of one depth need not be set in alike.
-/

namespace AccessTree

open Search AccessTree.Tree

variable {ν : Type}

namespace Tree

/-- The objects strictly between an object and the one so many levels above it, from the top. -/
def between (t : Tree ν) (d : Nat) (n : ν) : List ν :=
  (List.range' 1 (d - 1)).filterMap fun level => climb t.parent (d - level) n

variable {t : Tree ν} {a n root : ν} {d : Nat}

namespace IsForest

variable (ht : t.IsForest)
include ht

/-- What is met on the way up to the root. -/
lemma mem_between (h : climb t.parent d n = some root) :
    a ∈ t.between d n ↔ t.Below root a ∧ t.Below a n := by
  rw [between, List.mem_filterMap]
  constructor
  · rintro ⟨level, hlevel, ha⟩
    rw [List.mem_range'_1] at hlevel
    refine ⟨ht.below_of_climb (k := level) (by omega) ?_, ht.below_of_climb (by omega) ha⟩
    rwa [show d = d - level + level by omega, climb_add, ha, Option.bind_some] at h
  · rintro ⟨⟨i, ps, ha⟩, j, qs, hn⟩
    obtain ⟨rs, rfl, hrs⟩ := ht.exists_follow_of_climb h
    rw [ht.follow_inj hrs (follow_trans ha hn)]
    refine ⟨ps.length + 1, List.mem_range'_1.2 ?_, ?_⟩
    · simp only [List.length_append, List.length_cons]
      omega
    · rw [← ht.climb_length hn]
      simp

lemma lists_between (h : climb t.parent d n = some root) :
    t.Lists (t.between d n) fun a => t.Below root a ∧ t.Below a n where
  mem_iff a := ht.mem_between h
  ordered := by
    rw [between, List.pairwise_filterMap, List.pairwise_iff_getElem]
    intro i j hi hj hij a ha b hb
    -- The climb that ends at the lower object goes on to the upper one.
    rw [List.length_range'] at hj
    rw [List.getElem_range'] at ha hb
    rw [show d - (1 + 1 * i) = d - (1 + 1 * j) + (j - i) by omega, climb_add, hb] at ha
    exact (ht.below_of_climb (by omega) ha).precedes

end IsForest

/-- A window with two panels, of which one has two buttons and the other has one. -/
def panels : Tree (Fin 6)
  | .parent n => [none, some 0, some 1, some 1, some 0, some 4][n]
  | .childCount n => [2, 2, 0, 0, 1, 0][n]
  | .childAt n i => [[1, 4], [2, 3], [], [], [5], []][n][i]?
  | .indexInParent n => [none, some 0, some 0, some 1, some 1, some 0][n]
  | .isValid _ => true
  | .name n => ["window", "tools", "cut", "copy", "text", "find"][n]
  | q => q.absent

lemma panels_isForest : panels.IsForest :=
  isForest_of_children (fun _ => rfl) (by decide) (fun _ _ => rfl) (by decide) (by decide)
    (by decide) (by decide : ∀ n, climb panels.parent 3 n = none)

end Tree

namespace Outline

/-- So many blanks. -/
def blanks (n : Nat) : String := String.ofList (List.replicate n ' ')

/-- How many blanks stand before the label of an object so many levels below the root, where no
lines are drawn: the indent for each level, and one more for each object in between that has no
younger sibling. -/
def inset (o : Outline) (t : Tree ν) (d : Nat) (n : ν) : Nat :=
  d * o.indentSize + (t.between d n).countP fun a => !t.hasYounger a

variable {o : Outline} {t : Tree ν} {n root : ν} {d : Nat}

lemma blanks_append (m n : Nat) : blanks m ++ blanks n = blanks (m + n) := by
  rw [blanks, blanks, ← String.ofList_append, List.replicate_append_replicate, blanks]

lemma column_eq_blanks (hs : o.style = .compact) (more : Bool) :
    o.column more = blanks ((if more then 0 else 1) + o.indentSize) := by
  rw [← blanks_append, column, hs]
  cases more <;> rfl

lemma join_columns (hs : o.style = .compact) (levels : List Bool) :
    String.join (levels.map o.column) =
      blanks (levels.length * o.indentSize + levels.countP (!·)) := by
  induction levels with
  | nil => simp [blanks]
  | cons more levels ih =>
    rw [List.map_cons, String.join_cons, ih, column_eq_blanks hs, blanks_append, List.length_cons,
      List.countP_cons, Nat.add_mul]
    congr 1
    cases more <;> simp <;> omega

/-- The levels above an object at which nothing more is to come are those of the objects in between
that have no younger sibling. -/
lemma countP_more {levels : List Bool} (hlevels : t.more (d + 1) n = false :: levels)
    (h : climb t.parent (d + 1) n = some root) :
    levels.countP (!·) = (t.between (d + 1) n).countP fun a => !t.hasYounger a := by
  obtain ⟨-, rfl⟩ := List.cons.inj hlevels
  rw [List.countP_map, between, List.countP_filterMap, Nat.add_sub_cancel]
  refine List.countP_congr fun level hlevel => ?_
  rw [List.mem_range'_1] at hlevel
  cases hclimb : climb t.parent (d + 1 - level) n with
  | some a => simp [hclimb]
  | none =>
    -- Whoever comes to the root has not left the forest before.
    rw [show d + 1 = d + 1 - level + level by omega, climb_add, hclimb] at h
    cases h

lemma lead_eq_blanks (hs : o.style = .compact) (h : climb t.parent d n = some root)
    (isLast : Bool) : o.lead (t.more d n) isLast = blanks (o.inset t d n) := by
  cases d with
  | zero => simp [more, lead, inset, between, blanks]
  | succ d =>
    obtain ⟨levels, hlevels⟩ : ∃ levels, t.more (d + 1) n = false :: levels := ⟨_, rfl⟩
    have hlength : levels.length = d := by simpa [hlevels] using length_more (t := t) (d + 1) n
    have hindent : o.indent = blanks o.indentSize := rfl
    rw [hlevels, lead, if_pos hs, join_columns hs, hindent, blanks_append, inset,
      ← countP_more hlevels h, hlength, Nat.succ_mul, Nat.add_right_comm]

/-- Drawn without lines, an outline has one line for each object from its root on, in document
order. Its label is set in by the indent for each level only where each object in between has a
younger sibling. -/
theorem draw_without_lines (ht : t.IsForest) (hs : o.style = .compact) (text : ν → String)
    (root : ν) : ∃ (objects : List ν) (depth : ν → Nat), t.Lists objects (t.Reaches root) ∧
      (∀ y ∈ objects, climb t.parent (depth y) y = some root ∧
        t.Lists (t.between (depth y) y) (fun a => t.Below root a ∧ t.Below a y) ∧
        (o.inset t (depth y) y = depth y * o.indentSize ↔
          ∀ a, t.Below root a → t.Below a y → t.hasYounger a = true)) ∧
      ∃ enough, ∀ steps ≥ enough, ∀ maxDepth?,
        Gives ({ o with maxDepth? }.draw t.atRest text steps root)
          (String.join ((objects.filter fun y => maxDepth?.all (depth y ≤ ·)).map fun y =>
            blanks (o.inset t (depth y) y) ++ o.labelOf t text y ++ "\n")) := by
  obtain ⟨objects, depth, hobjects, hdepth, enough, hdraw⟩ := exists_draw ht o text root
  refine ⟨objects, depth, hobjects, fun y hy => ?_, enough, fun steps hsteps maxDepth? => ?_⟩
  · have hbetween := ht.lists_between (hdepth y hy)
    refine ⟨hdepth y hy, hbetween, ?_⟩
    rw [inset, Nat.add_eq_left, List.countP_eq_zero]
    refine ⟨fun h a hroot hay => ?_, fun h a ha => ?_⟩
    · simpa using h a ((hbetween.mem_iff a).2 ⟨hroot, hay⟩)
    · simpa using h a ((hbetween.mem_iff a).1 ha).1 ((hbetween.mem_iff a).1 ha).2
  · convert hdraw steps hsteps maxDepth? using 2
    refine List.map_congr_left fun y hy => ?_
    rw [lineOf, ← lead_eq_blanks hs (hdepth y (List.mem_filter.1 hy).1)]
    rfl

theorem draw_without_lines_sample : panels.IsForest ∧
    ({ style := .compact } : Outline).style = .compact ∧
    ∃ (objects : List (Fin 6)) (depth : Fin 6 → Nat),
      panels.Lists objects (panels.Reaches 0) ∧
      (∀ y ∈ objects, climb panels.parent (depth y) y = some 0 ∧
        panels.Lists (panels.between (depth y) y) (fun a => panels.Below 0 a ∧ panels.Below a y) ∧
        (Outline.inset { style := .compact } panels (depth y) y = depth y * 2 ↔
          ∀ a, panels.Below 0 a → panels.Below a y → panels.hasYounger a = true)) ∧
      ∃ enough, ∀ steps ≥ enough, ∀ maxDepth?,
        Gives (Outline.draw { style := .compact, maxDepth? } panels.atRest toString steps 0)
          (String.join ((objects.filter fun y => maxDepth?.all (depth y ≤ ·)).map fun y =>
            blanks (Outline.inset { style := .compact } panels (depth y) y) ++
              Outline.labelOf { style := .compact } panels toString y ++ "\n")) :=
  ⟨panels_isForest, rfl, draw_without_lines panels_isForest rfl toString 0⟩

/-- The second panel has no younger sibling, so its button stands one blank further in than the
buttons of the first one. -/
theorem draw_unevenly :
    let o : Outline := { style := .compact, showIds := false, showRoles := false }
    let depth : Fin 6 → Nat := fun n => [0, 1, 2, 2, 1, 2][n]
    panels.IsForest ∧ o.style = .compact ∧ (∀ y, climb panels.parent (depth y) y = some 0) ∧
      (o.draw panels.atRest toString 3 0 ⟨(), #[]⟩).1 =
        some "window\n  tools\n    cut\n    copy\n  text\n     find\n" ∧
      "window\n  tools\n    cut\n    copy\n  text\n     find\n" ≠
        String.join ([0, 1, 2, 3, 4, 5].map fun y =>
          blanks (depth y * o.indentSize) ++ o.labelOf panels toString y ++ "\n") :=
  ⟨panels_isForest, rfl, by decide, by decide +kernel, by decide⟩

end Outline

end AccessTree
