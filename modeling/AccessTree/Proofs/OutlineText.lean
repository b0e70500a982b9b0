import AccessTree.Outline
import AccessTree.Proofs.AtRest
import AccessTree.Proofs.Branches

/-!
The text of an outline. The signs before a label are put together on the way down, but they can be
read off the tree: each stands for an object above, or for the object itself, and tells whether
that one has a younger sibling.
-/

namespace AccessTree

open Search Inquiry

variable {ν : Type}

namespace Tree

/-- Whether an object has a sibling at the next place. -/
def hasYounger (t : Tree ν) (n : ν) : Bool :=
  match t.parent n, t.indexInParent n with
  | some p, some i => (t.childAt p (i + 1)).isSome
  | _, _ => false

/-- Whether more is to come at each level above an object so many levels below the root. At the
root's own level there is not. -/
def more (t : Tree ν) : Nat → ν → List Bool
  | 0, _ => []
  | d + 1, n => false :: (List.range' 1 d).map fun level =>
      (climb t.parent (d + 1 - level) n).any t.hasYounger

end Tree

/-- The places in a list do not matter where nothing asks for them. -/
lemma flatMap_eq_flatten_zipIdx {α β : Type} (l : List α) (f : α → List β) :
    l.flatMap f = (l.zipIdx.map fun p => f p.1).flatten := by
  conv_lhs => rw [List.flatMap_def, ← List.zipIdx_map_fst 0 l, List.map_map]
  rfl

namespace Outline

open AccessTree.Tree

/-- What stands before the label of an object so many levels below the root, in a style that draws
lines: a column for each object in between, and the sign for the object itself. -/
def margin (o : Outline) (t : Tree ν) : Nat → ν → String
  | 0, _ => ""
  | d + 1, n =>
    String.join ((List.range' 1 d).map fun level =>
      (if (climb t.parent (d + 1 - level) n).any t.hasYounger then o.style.glyphs.branch
        else " ") ++ o.indent) ++
      if t.hasYounger n then o.style.glyphs.tee else o.style.glyphs.corner

/-- The label of an object of a tree at rest. -/
def labelOf (o : Outline) (t : Tree ν) (text : ν → String) (n : ν) : String :=
  (if (t (.name n)).isEmpty then "(unnamed)" else t (.name n)) ++
    (if o.showRoles then " <" ++ (t (.role n)).name ++ ">" else "") ++
    (if o.showIds then " [" ++ text n ++ "]" else "") ++
    if o.showStates then " " ++ (t (.states n)).text else ""

/-- The line of an object so many levels below the root, in any style. -/
def lineOf (o : Outline) (t : Tree ν) (text : ν → String) (d : Nat) (n : ν) : String :=
  o.lead (t.more d n) (!t.hasYounger n) ++ o.labelOf t text n ++ "\n"

variable {o : Outline} {t : Tree ν} {text : ν → String} {c n root y : ν} {d i : Nat}

lemma length_more (d : Nat) (n : ν) : (t.more d n).length = d := by
  cases d <;> simp [more]

lemma lead_eq_margin (hs : o.style ≠ .compact) (d : Nat) (n : ν) :
    o.lead (t.more d n) (!t.hasYounger n) = o.margin t d n := by
  cases d with
  | zero => rfl
  | succ d =>
    rw [more, lead, margin, List.map_map, if_neg hs]
    cases t.hasYounger n <;> rfl

/-- Nothing that is drawn depends on whether the root is the last one. -/
lemma lead_of_isLast {isLast : Bool} (h : d ≠ 0 → isLast = !t.hasYounger n) :
    o.lead (t.more d n) isLast = o.lead (t.more d n) (!t.hasYounger n) := by
  cases d with
  | zero => rfl
  | succ d => rw [h (Nat.succ_ne_zero d)]

lemma more_append_of_isLast {isLast : Bool} (h : d ≠ 0 → isLast = !t.hasYounger n) :
    t.more d n ++ [!(t.more d n).isEmpty && !isLast] =
      t.more d n ++ [d != 0 && t.hasYounger n] := by
  cases d with
  | zero => rfl
  | succ d =>
    rw [h (Nat.succ_ne_zero d), Bool.not_not]
    rfl

lemma says_label (n : ν) : Says (o.label t.atRest text n) (o.labelOf t text n) := by
  have hrole := (says_ask (rfl : t (.role n) = _)).map fun role => " <" ++ role.name ++ ">"
  have hstates := (says_ask (rfl : t (.states n) = _)).map fun states => " " ++ states.text
  refine (says_ask (rfl : t (.name n) = _)).bind (hrole.ite_bind (says_pure "") ?_)
  exact hstates.ite_bind (says_pure "") (says_pure _)

section
variable (ht : t.IsForest)
include ht

lemma says_childrenFrom {count index : Nat} (h : index + count = t.childCount n) :
    Says (childrenFrom t.atRest n count index) (t.childrenFrom n index) := by
  induction count generalizing index with
  | zero =>
    rw [childrenFrom_of_le (by omega)]
    exact says_pure []
  | succ count ih =>
    obtain ⟨c, hc, -⟩ := ht.child n index (by omega)
    rw [childrenFrom_of_lt (by omega), hc]
    exact (says_ask hc).bind ((ih (by omega)).bind (says_pure _))

lemma says_children (n : ν) : Says (children t.atRest n) (t.childrenFrom n 0) :=
  (says_ask rfl).bind (says_childrenFrom ht (Nat.zero_add _))

/-- A child comes after the levels of its parent and the parent's own. -/
lemma more_childAt (hc : t.childAt n i = some c) (d : Nat) :
    t.more (d + 1) c = t.more d n ++ [d != 0 && t.hasYounger n] := by
  have hp := (ht.of_childAt hc).2.1
  have hclimb : ∀ k, climb t.parent (k + 1) c = climb t.parent k n := fun k => by
    rw [climb, hp, Option.bind_some]
  cases d with
  | zero => rfl
  | succ d =>
    rw [more, more, List.range'_concat, List.map_append, List.cons_append]
    refine congrArg _ (congrArg₂ _ (List.map_congr_left fun level hlevel => ?_) ?_)
    · have hle := (List.mem_range'_1.1 hlevel).2
      rw [show d + 1 + 1 - level = d + 1 - level + 1 by omega, hclimb]
    · rw [List.map_singleton, show d + 1 + 1 - (1 + 1 * d) = 0 + 1 by omega, hclimb]
      rfl

lemma childAt_of_mem_zipIdx {p : ν × Nat} (h : p ∈ (t.childrenFrom n 0).zipIdx) :
    t.childAt n p.2 = some p.1 := by
  rwa [List.mem_zipIdx_iff_getElem?, ht.getElem?_childrenFrom, Nat.zero_add] at h

lemma isLast_childAt (hc : t.childAt n i = some c) :
    (i + 1 == (t.childrenFrom n 0).length) = !t.hasYounger c := by
  obtain ⟨-, hp, hi⟩ := ht.of_childAt hc
  have hget : ∀ j, (t.childrenFrom n 0)[j]? = t.childAt n j := fun j => by
    rw [ht.getElem?_childrenFrom, Nat.zero_add]
  obtain ⟨hlt, -⟩ := List.getElem?_eq_some_iff.1 ((hget i).trans hc)
  rw [hasYounger, hp, hi]
  dsimp only
  rw [← hget, Bool.eq_iff_iff]
  simp
  omega

end

/-! ### Levels -/

section
variable {σ α β : Type}

/-- Drawings that take away every level they add do so one after the other too. -/
lemma run_mapM {f : α → Drawing σ ν β} {g : α → Search σ ν β} {levels : List Bool} {l : List α}
    (h : ∀ a ∈ l, (f a).run levels = (·, levels) <$> g a) :
    (l.mapM f).run levels = (·, levels) <$> l.mapM g := by
  induction l with
  | nil => simp
  | cons a l ih =>
    obtain ⟨ha, hl⟩ := List.forall_mem_cons.1 h
    simp [List.mapM_cons, ha, ih hl]

/-- The lines of an object that has the given levels above it. -/
def linesUnder (o : Outline) (t : LiveTree σ ν) (text : ν → String) :
    Nat → List Bool → Bool → ν → Search σ ν (List String)
  | 0, _, _, _ => failure
  | steps + 1, levels, isLast, n =>
    if o.maxDepth?.any (· < levels.length) then pure []
    else do
      let label ← OptionT.lift (o.label t text n)
      let kids ← OptionT.lift (children t n)
      let inner := levels ++ [!levels.isEmpty && !isLast]
      let below ← kids.zipIdx.mapM fun (child, i) =>
        linesUnder o t text steps inner (i + 1 == kids.length) child
      return (o.lead levels isLast ++ label ++ "\n") :: below.flatten

/-- Whatever the tree answers, drawing an object leaves the levels as they were before it. -/
theorem run_linesFrom {t : LiveTree σ ν} {steps : Nat} {levels : List Bool} {isLast : Bool}
    {n : ν} : (o.linesFrom t text steps isLast n).run levels =
      (·, levels) <$> o.linesUnder t text steps levels isLast n := by
  induction steps generalizing levels isLast n with
  | zero => rfl
  | succ steps ih =>
    have hkids (inner : List Bool) (kids : List ν) : StateT.run (kids.zipIdx.mapM fun p =>
          o.linesFrom t text steps (p.2 + 1 == kids.length) p.1) inner =
        (·, inner) <$> kids.zipIdx.mapM fun p =>
          o.linesUnder t text steps inner (p.2 + 1 == kids.length) p.1 :=
      run_mapM fun _ _ => ih
    unfold linesFrom linesUnder
    simp only [StateT.run_bind, StateT.run_get, pure_bind]
    split
    · simp
    · simp [hkids]

lemma draw_eq (t : LiveTree σ ν) (steps : Nat) (root : ν) :
    o.draw t text steps root = String.join <$> o.linesUnder t text steps [] true root := by
  rw [draw, StateT.run'_eq, run_linesFrom]
  simp

end

/-! ### Lines -/

/-- Whether objects so many levels below the root are shown. -/
def shows (o : Outline) (d : Nat) : Bool := o.maxDepth?.all (d ≤ ·)

/-- The lines of objects that are not too deep, for given depths. -/
def linesOf (o : Outline) (t : Tree ν) (text : ν → String) (depth : ν → Nat) (l : List ν) :
    List String :=
  (l.filter fun y => o.shows (depth y)).map fun y => o.lineOf t text (depth y) y

lemma any_eq_not_shows : o.maxDepth?.any (· < d) = !o.shows d := by
  unfold shows
  cases o.maxDepth? <;> simp [← decide_not]

lemma shows_of_le {d' : Nat} (h : o.shows d' = true) (hd : d ≤ d') : o.shows d = true := by
  unfold shows at h ⊢
  cases hmax : o.maxDepth? with
  | none => rfl
  | some levels =>
    rw [hmax] at h
    simp only [Option.all_some, decide_eq_true_eq] at h ⊢
    omega

variable {depth : ν → Nat} {l : List ν}

lemma linesOf_cons (h : o.shows (depth n) = true) : o.linesOf t text depth (n :: l) =
    o.lineOf t text (depth n) n :: o.linesOf t text depth l := by
  rw [linesOf, List.filter_cons, if_pos h, List.map_cons, linesOf]

lemma linesOf_eq_nil (h : o.shows d = false) (hl : ∀ y ∈ l, d ≤ depth y) :
    o.linesOf t text depth l = [] := by
  rw [linesOf, List.map_eq_nil_iff, List.filter_eq_nil_iff]
  intro y hy hshows
  exact Bool.false_ne_true (h.symm.trans (shows_of_le hshows (hl y hy)))

lemma linesOf_flatMap {list : ν → List ν} : o.linesOf t text depth (l.flatMap list) =
    l.flatMap fun c => o.linesOf t text depth (list c) := by
  simp only [linesOf, List.filter_flatMap, List.map_flatMap]

section
variable (ht : t.IsForest)
  (hdepth : ∀ y, t.Reaches root y → climb t.parent (depth y) y = some root)
include ht hdepth

lemma depth_eq {ps : List Nat} (h : t.follow root ps = some y) : depth y = ps.length := by
  obtain ⟨qs, hlength, hqs⟩ := ht.exists_follow_of_climb (hdepth y ⟨ps, h⟩)
  rw [← hlength, ht.follow_inj hqs h]

lemma depth_childAt (hn : t.Reaches root n) (hc : t.childAt n i = some c) :
    depth c = depth n + 1 := by
  obtain ⟨ps, hps⟩ := hn
  rw [depth_eq ht hdepth hps, depth_eq ht hdepth (follow_snoc.2 ⟨n, hps, hc⟩), List.length_append,
    List.length_singleton]

lemma depth_le_of_reaches (hn : t.Reaches root n) (hy : t.Reaches n y) : depth n ≤ depth y := by
  obtain ⟨ps, hps⟩ := hn
  obtain ⟨qs, hqs⟩ := hy
  rw [depth_eq ht hdepth hps, depth_eq ht hdepth (follow_trans hps hqs), List.length_append]
  exact Nat.le_add_right _ _

/-- The lines of an object are those of what it reaches, in document order. -/
theorem gives_linesUnder {steps levels below : Nat} {isLast : Bool} (hn : t.Reaches root n)
    (hw : t.Within n levels) (hbelow : t.Within n below) (hs : below < steps)
    (hlast : depth n ≠ 0 → isLast = !t.hasYounger n) :
    Gives (o.linesUnder t.atRest text steps (t.more (depth n) n) isLast n)
      (o.linesOf t text depth (branch (t.kids fun _ => true) levels n)) := by
  -- The steps run out with the levels below an object, while branches all go as deep as they may.
  induction steps generalizing n below isLast with
  | zero => omega
  | succ steps ih =>
    unfold linesUnder
    rw [length_more, any_eq_not_shows]
    cases hshows : o.shows (depth n)
    · rw [linesOf_eq_nil hshows fun y hy =>
        depth_le_of_reaches ht hdepth hn (ht.reaches_of_mem_branch hy)]
      exact gives_pure []
    have hchild : ∀ p ∈ (t.childrenFrom n 0).zipIdx, Gives
        (o.linesUnder t.atRest text steps (t.more (depth n) n ++
          [!(t.more (depth n) n).isEmpty && !isLast])
          (p.2 + 1 == (t.childrenFrom n 0).length) p.1)
        (o.linesOf t text depth (branch (t.kids fun _ => true) levels p.1)) := by
      intro p hp
      have hc := childAt_of_mem_zipIdx ht hp
      obtain ⟨below, rfl, hbc⟩ := within_childAt hbelow hc
      have hwc : t.Within p.1 levels := (hw.follow (follow_cons.2 ⟨p.1, hc, follow_nil⟩)).mono
        (Nat.sub_le _ _)
      have hlines := ih (hn.trans (below_of_childAt hc).reaches) hwc hbc (by omega)
        fun _ => isLast_childAt ht hc
      rwa [depth_childAt ht hdepth hn hc, more_childAt ht hc,
        ← more_append_of_isLast hlast] at hlines
    have hkids : t.kids (fun _ => true) n = t.childrenFrom n 0 := if_pos rfl
    rw [ht.branch_of_within hw, linesOf_cons hshows, linesOf_flatMap, hkids,
      flatMap_eq_flatten_zipIdx, lineOf, ← lead_of_isLast hlast]
    exact (gives_lift (says_label n)).bind ((gives_lift (says_children ht n)).bind
      ((gives_mapM hchild).bind (gives_pure _)))

end

/-- An outline in any style has the lines of all objects from its root on that are not too deep. -/
lemma exists_draw (ht : t.IsForest) (o : Outline) (text : ν → String) (root : ν) :
    ∃ (objects : List ν) (depth : ν → Nat), t.Lists objects (t.Reaches root) ∧
      (∀ y ∈ objects, climb t.parent (depth y) y = some root) ∧
      ∃ enough, ∀ steps ≥ enough, ∀ maxDepth?,
        Gives ({ o with maxDepth? }.draw t.atRest text steps root)
          (String.join ({ o with maxDepth? }.linesOf t text depth objects)) := by
  have hlevels : ∀ y, ∃ d, t.Reaches root y → climb t.parent d y = some root := fun y => by
    by_cases hy : t.Reaches root y
    · obtain ⟨ps, hps⟩ := hy
      exact ⟨ps.length, fun _ => ht.climb_length hps⟩
    · exact ⟨0, fun h => absurd h hy⟩
  choose depth hdepth using hlevels
  obtain ⟨levels, hw⟩ := ht.exists_within root
  have hobjects : ∀ y, y ∈ branch (t.kids fun _ => true) levels root ↔ t.Reaches root y :=
    fun y => ht.mem_branch_of_within (fun _ => rfl) hw
  refine ⟨_, depth, ⟨hobjects, ht.pairwise_branch⟩, fun y hy => hdepth y ((hobjects y).1 hy),
    levels + 1, fun steps hs maxDepth? => ?_⟩
  rw [draw_eq]
  refine Gives.map ?_ String.join
  have hroot : depth root = 0 := depth_eq ht hdepth follow_nil
  have hlines : Gives (linesUnder { o with maxDepth? } t.atRest text steps
      (t.more (depth root) root) true root) _ :=
    gives_linesUnder ht hdepth Reaches.refl hw hw (Nat.lt_of_succ_le hs) (absurd hroot)
  rwa [hroot] at hlines

example : Outline.margin {} sample 2 2 = "\u2502  \u2514\u2500\u2500 " := by decide

end Outline

end AccessTree
