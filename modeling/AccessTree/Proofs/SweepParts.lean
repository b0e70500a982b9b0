import AccessTree.Proofs.SweepSearch

/-!
The two ways of a sweep: onward from where it begins, up to the collection, and from the start of
the collection on. The climb does not ask whether what lies in between may be entered, but the walk
from the start comes back only where all of that may be entered. Where some of it may not, this
walk does not end in time and goes through what the climb has gone through before.
-/

namespace AccessTree

open Search WalkM

variable {ν : Type} {t : Tree ν} {collection x y : ν}

namespace Tree

/-- An object lies below something in the collection that may not be entered. -/
def Hidden (t : Tree ν) (opens : ν → Bool) (collection x : ν) : Prop :=
  ∃ a, t.Below collection a ∧ t.Below a x ∧ opens a = false

/-- What a sweep comes to on its climb and again from the start of the collection on. The climb
must reach the collection, or there is no walk from its start. -/
structure Repeats (t : Tree ν) (opens : ν → Bool) (levels : Nat) (collection x y : ν) : Prop where
  climbs : ∃ ps, t.follow collection ps = some x ∧ ps.length ≤ levels
  hidden : t.Hidden opens collection x
  after : t.Precedes x y
  ahead : t.Ahead opens levels collection 0 y

variable {opens : ν → Bool} {levels i : Nat} {ps : List Nat}

lemma Ahead.not_hidden (h : t.Ahead opens levels collection 0 y) :
    ¬ t.Hidden opens collection y := by
  rintro ⟨a, ha, hay, hclosed⟩
  obtain ⟨-, -, -, -, -, hopen⟩ := h
  exact absurd (hopen a ha hay) (by simp [hclosed])

lemma ahead_of_not_hidden (h : t.follow collection (i :: ps) = some x) (hd : ps.length ≤ levels)
    (hx : ¬ t.Hidden opens collection x) : t.Ahead opens levels collection 0 x :=
  ⟨i, ps, Nat.zero_le i, h, hd, fun a ha hax => by
    by_contra hclosed
    exact hx ⟨a, ha, hax, by simpa using hclosed⟩⟩

section
variable (ht : t.IsForest) (h : t.follow collection (i :: ps) = some x)
include ht h

/-- The walk from the start comes to what has come after the object only if it has passed by the
object. -/
lemma IsForest.mem_onward_and_again_iff [DecidableEq ν] (hd : ps.length < levels) :
    (y ∈ (t.childrenFrom x 0).flatMap (branch (t.kids opens) levels) ++
        t.trailing (branch (t.kids opens) levels) collection (i :: ps) ∧
      y ∈ ((t.childrenFrom collection 0).flatMap (branch (t.kids opens) levels)).takeWhile
        (· ≠ x)) ↔ t.Repeats opens levels collection x y := by
  have hall : t.Lists _ (t.Ahead opens levels collection 0) := ht.lists_flatMap_branch
  constructor
  · rintro ⟨hy, hagain⟩
    have hafter := ((ht.pairwise_onward h).2 y hy).2
    -- Had the walk come back, it would have ended before it came to what comes after.
    have hnot : ¬ t.Ahead opens levels collection 0 x := fun hx => by
      have hyx := ((ht.lists_takeWhile hall ((hall.mem_iff x).2 hx)).mem_iff y).1 hagain
      exact ht.precedes_asymm hafter hyx.2
    exact ⟨⟨_, h, hd⟩, by_contra fun hhidden => hnot (ahead_of_not_hidden h hd.le hhidden),
      hafter, (hall.mem_iff y).1 ((List.takeWhile_sublist _).subset hagain)⟩
  · intro hy
    obtain ⟨a, ha, hax, hclosed⟩ := hy.hidden
    have hne : ∀ z ∈ (t.childrenFrom collection 0).flatMap (branch (t.kids opens) levels),
        z ≠ x := by
      rintro _ hx rfl
      exact ((hall.mem_iff _).1 hx).not_hidden hy.hidden
    rw [List.takeWhile_eq_self_iff.2 (by simpa using hne)]
    exact ⟨List.mem_append_right _ (ht.mem_trailing_of_ahead h ha hax hclosed hy.ahead hy.after),
      (hall.mem_iff y).2 hy.ahead⟩

end

end Tree

namespace Walker

open AccessTree.Tree

variable [DecidableEq ν] {w : Walker Unit ν}

/-- Both ways of a sweep lead to objects in the collection, and neither comes to one twice. -/
structure Parts (w : Walker Unit ν) (t : Tree ν) (collection x : ν) (onward again : List ν) :
    Prop where
  gives : ∃ enough, ∀ steps ≥ enough, ∀ stop, Gives (collect stop (w.sweep steps collection x))
    ((onward ++ again).filter (w.keeps t))
  below : ∀ y ∈ onward ++ again, t.Below collection y
  onward_nodup : onward.Nodup
  again_nodup : again.Nodup
  both_iff : ∀ y, y ∈ onward ∧ y ∈ again ↔
    t.Repeats (t.mayEnter w.traverse) w.maxDepth collection x y

variable {l onward again : List ν} {i : Nat} {ps : List Nat}

lemma Parts.count_le_two (h : w.Parts t collection x onward again) (y : ν) :
    (onward ++ again).count y ≤ 2 := by
  have := List.nodup_iff_count_le_one.1 h.onward_nodup y
  have := List.nodup_iff_count_le_one.1 h.again_nodup y
  rw [List.count_append]
  omega

lemma Parts.count_eq_two_iff (h : w.Parts t collection x onward again) (y : ν) :
    (onward ++ again).count y = 2 ↔
      t.Repeats (t.mayEnter w.traverse) w.maxDepth collection x y := by
  rw [← h.both_iff, List.count_append, h.onward_nodup.count, h.again_nodup.count]
  by_cases honward : y ∈ onward <;> by_cases hagain : y ∈ again <;> simp [honward, hagain]

/-- From where nothing is hidden, a sweep comes to different objects. -/
lemma Parts.nodup (h : w.Parts t collection x onward again)
    (hx : ¬ t.Hidden (t.mayEnter w.traverse) collection x) : (onward ++ again).Nodup :=
  List.nodup_append.2 ⟨h.onward_nodup, h.again_nodup, fun y hy _ hz he =>
    hx ((h.both_iff y).1 ⟨hy, he ▸ hz⟩).hidden⟩

/-- A sweep that does not go on from the start comes to no object twice. -/
lemma parts_once (h : ∃ enough, ∀ steps ≥ enough, ∀ stop,
      Gives (collect stop (w.sweep steps collection x)) ((l ++ []).filter (w.keeps t)))
    (hl : l.Nodup) (hbelow : ∀ y ∈ l, t.Below collection y)
    (hn : ∀ y, ¬ t.Repeats (t.mayEnter w.traverse) w.maxDepth collection x y) :
    w.Parts t collection x l [] where
  gives := h
  below y hy := hbelow y (by simpa using hy)
  onward_nodup := hl
  again_nodup := .nil
  both_iff y := ⟨fun hy => absurd hy.2 List.not_mem_nil, fun hy => absurd hy (hn y)⟩

section
variable (hw : w.tree = t.atRest) (ht : t.IsForest) (hl : w.limit = 0)
include hw ht hl

/-- A sweep whose climb reaches the collection from below goes on from the start. -/
lemma exists_parts_of_climb (h : t.follow collection (i :: ps) = some x)
    (hd : ps.length < w.maxDepth) : ∃ onward again, w.Parts t collection x onward again := by
  have hne : (true && x != collection) = true := by
    have hx : t.Below collection x := ⟨i, ps, h⟩
    simpa using fun he : x = collection => ht.below_irrefl (he ▸ hx)
  have hsweep := gives_sweep hw hl (says_encloses hw ht h (by simp; omega))
    (alike_ascend hw ht h (Nat.succ_le_of_lt hd))
  rw [hne, if_pos rfl] at hsweep
  obtain ⟨honward, hafter⟩ := ht.pairwise_onward h
  have hall : t.Lists _ (t.Ahead (t.mayEnter w.traverse) w.maxDepth collection 0) :=
    ht.lists_flatMap_branch
  refine ⟨_, _, hsweep, fun y hy => ?_, ht.nodup_of_pairwise honward,
    (ht.nodup_of_lists hall).sublist (List.takeWhile_sublist _),
    fun y => ht.mem_onward_and_again_iff h hd⟩
  rcases List.mem_append.1 hy with hy | hy
  · exact (hafter y hy).1
  · exact ((hall.mem_iff y).1 ((List.takeWhile_sublist _).subset hy)).below

/-- Where nothing limits it, a sweep has its two ways. -/
lemma exists_parts (collection x : ν) : ∃ onward again, w.Parts t collection x onward again := by
  obtain ⟨inside, hsays, hinside⟩ := decides_encloses hw ht collection x
  cases inside
  · -- The object is outside: nothing is found, and nothing can be found twice.
    refine ⟨[], [], parts_once ⟨0, fun steps _ stop => gives_sweep_outside hsays steps stop⟩
      .nil (by simp) fun y hy => ?_⟩
    obtain ⟨ps, h, hd⟩ := hy.climbs
    exact absurd (hinside.2 ⟨ps, h, by omega⟩) Bool.false_ne_true
  obtain ⟨_ | ⟨i, ps⟩, h, hd⟩ := hinside.1 rfl
  · -- The object is the collection, and what is hidden from it would be below itself.
    cases h
    have hsweep := gives_sweep hw hl hsays (alike_ascend hw ht follow_nil (Nat.zero_le _))
    rw [bne_self_eq_false, Bool.and_false, if_neg Bool.false_ne_true] at hsweep
    obtain ⟨honward, hafter⟩ := ht.pairwise_onward follow_nil
    refine ⟨_, [], parts_once hsweep (ht.nodup_of_pairwise honward) (fun y hy => (hafter y hy).1)
      fun y hy => ?_⟩
    obtain ⟨a, ha, hax, -⟩ := hy.hidden
    exact ht.below_irrefl (ha.trans_reaches hax.reaches)
  rw [List.length_cons] at hd
  rcases Nat.lt_or_eq_of_le (Nat.le_of_succ_le_succ hd) with hlt | heq
  · exact exists_parts_of_climb hw ht hl h hlt
  · -- The climb gives up one level below the collection.
    obtain ⟨c, hc, hps⟩ := follow_cons.1 h
    have hsweep := gives_sweep hw hl hsays (heq ▸ alike_ascend_short hw ht hc hps)
    rw [Bool.false_and, if_neg Bool.false_ne_true] at hsweep
    obtain ⟨honward, hafter⟩ := ht.pairwise_onward hps
    refine ⟨_, [], parts_once hsweep (ht.nodup_of_pairwise honward)
      (fun y hy => (below_of_childAt hc).trans_reaches (hafter y hy).1.reaches) fun y hy => ?_⟩
    obtain ⟨qs, hqs, hlength⟩ := hy.climbs
    rw [ht.follow_inj hqs h, List.length_cons] at hlength
    omega

end

end Walker

end AccessTree
