import AccessTree.Proofs.Limits
import AccessTree.Proofs.SweepParts

/-!
Sweeps that come to an object twice. Which objects these are can be told from the tree, and there
are none where everything between the collection and the beginning of the sweep may be entered.
-/

namespace AccessTree

open Search WalkM AccessTree.Tree

variable {ν : Type} {t : Tree ν}

namespace Walker

variable [DecidableEq ν] {w : Walker Unit ν}

/-- What a sweep finds of its two ways under a limit. -/
lemma exists_gives_cut (hw : w.tree = t.atRest) (ht : t.IsForest) (collection x : ν) :
    ∃ onward again, w.plain.Parts t collection x onward again ∧
      ∃ enough, ∀ steps ≥ enough, ∀ stop, Gives (collect stop (w.sweep steps collection x))
        (cut w.limit ((onward ++ again).filter (w.keeps t))) := by
  obtain ⟨onward, again, hparts⟩ := exists_parts (w := w.plain) hw ht rfl collection x
  obtain ⟨enough, hsweep⟩ := hparts.gives
  refine ⟨onward, again, hparts, enough, fun steps hs stop => ?_⟩
  have htracks : w.Tracks t (w.sweep steps collection x) (w.plain.sweep steps collection x) :=
    (lockstep_tracks hw).sweep le_rfl collection x
  rw [← filter_plain_keeps]
  exact follows_collect htracks stop ⟨(), #[]⟩ _ (hsweep steps hs stop _)

/-- A sweep comes to an end and finds no object more than twice. What it finds twice follows the
object from which it begins, and that one must be hidden from the collection, so that a sweep that
enters everything finds different objects. Without a limit nothing of this is missing. -/
theorem sweep_repeats (ht : t.IsForest) (w : Walker Unit ν) (hw : w.tree = t.atRest)
    (collection x : ν) : ∃ found,
      (∃ enough, ∀ steps ≥ enough, ∀ stop,
        Gives (collect stop (w.sweep steps collection x)) found) ∧
      (∀ y, found.count y ≤ 2) ∧
      (∀ y, found.count y = 2 → w.keeps t y = true ∧
        t.Repeats (t.mayEnter w.traverse) w.maxDepth collection x y) ∧
      (w.limit = 0 → ∀ y, w.keeps t y = true →
        t.Repeats (t.mayEnter w.traverse) w.maxDepth collection x y → found.count y = 2) ∧
      (w.traverse = true ∨ ¬ t.Hidden (t.mayEnter w.traverse) collection x → found.Nodup) := by
  obtain ⟨onward, again, hparts, hgives⟩ := exists_gives_cut hw ht collection x
  have hcut := cut_sublist w.limit ((onward ++ again).filter (w.keeps t))
  have hcount : ∀ y, _ ≤ (onward ++ again).count y := fun y =>
    (hcut.trans List.filter_sublist).count_le y
  have hrepeats : ∀ y, _ ↔ t.Repeats (t.mayEnter w.traverse) w.maxDepth collection x y :=
    fun y => hparts.count_eq_two_iff y
  refine ⟨_, hgives, fun y => (hcount y).trans (hparts.count_le_two y), fun y hy => ⟨?_, ?_⟩,
    fun hl y hk hy => ?_, fun hopen => ?_⟩
  · have hmem : y ∈ (onward ++ again).filter (w.keeps t) :=
      hcut.subset (List.count_pos_iff.1 (by omega))
    exact (List.mem_filter.1 hmem).2
  · exact (hrepeats y).1 (le_antisymm (hparts.count_le_two y) (hy ▸ hcount y))
  · rw [cut, if_pos hl, List.count_filter hk]
    exact (hrepeats y).2 hy
  · -- The two ways meet in hidden objects only.
    have hvisible : ¬ t.Hidden (t.mayEnter w.traverse) collection x := by
      rcases hopen with hopen | hopen
      · rintro ⟨a, -, -, hclosed⟩
        simp [hopen] at hclosed
      · exact hopen
    exact (hparts.nodup hvisible).sublist (hcut.trans List.filter_sublist)

theorem sweep_repeats_sample :
    let w : Walker Unit (Fin 4) :=
      { tree := sample.atRest, rule := .anyObject, anchor := 2, traverse := false }
    sample.IsForest ∧ w.tree = sample.atRest ∧ ∃ found,
      (∃ enough, ∀ steps ≥ enough, ∀ stop, Gives (collect stop (w.sweep steps 0 2)) found) ∧
      (∀ y, found.count y ≤ 2) ∧
      (∀ y, found.count y = 2 → w.keeps sample y = true ∧
        sample.Repeats (sample.mayEnter false) 4096 0 2 y) ∧
      (w.limit = 0 → ∀ y, w.keeps sample y = true →
        sample.Repeats (sample.mayEnter false) 4096 0 2 y → found.count y = 2) ∧
      (w.traverse = true ∨ ¬ sample.Hidden (sample.mayEnter false) 0 2 → found.Nodup) := by
  intro w
  exact ⟨sample_isForest, rfl, sweep_repeats sample_isForest w rfl 0 2⟩

theorem not_nodup_sweep_sample :
    let w : Walker Unit (Fin 4) :=
      { tree := sample.atRest, rule := .anyObject, anchor := 2, traverse := false }
    sample.IsForest ∧ (collect none (w.sweep 9 0 2) ⟨(), #[]⟩).1 = some [3, 1, 3] ∧
      ¬ [3, 1, 3].Nodup :=
  ⟨sample_isForest, by decide +kernel, by decide⟩

end Walker

end AccessTree
