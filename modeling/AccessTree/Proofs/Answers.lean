import AccessTree.Proofs.AtRest

/-!
Answers of a tree at rest. Given enough steps a search comes to its end, and to the same one
with any more of them. A search from an anchor begins by looking whether the anchor is there and
lies in the collection, and finds nothing otherwise.
-/

namespace AccessTree

variable {ν : Type}

namespace Tree

/-- Given enough steps, the search ends with these objects. -/
def Answers (t : Tree ν) (s : Settings) (search : Finder Unit ν → Search Unit ν (List ν))
    (l : List ν) : Prop :=
  ∃ enough, ∀ steps ≥ enough, (search ⟨t.atRest, s, steps⟩).Gives l

/-- An object is there, and it is the collection or not too far below it to be an anchor. -/
def Anchors (t : Tree ν) (s : Settings) (collection n : ν) : Prop :=
  t.isValid n = true ∧ ∃ ps, t.follow collection ps = some n ∧ ps.length ≤ s.maxDepth + 1

lemma anchors_of_reaches {t : Tree ν} {s : Settings} {collection n : ν}
    (hw : t.Within collection (s.maxDepth + 1)) (hv : t.isValid n = true)
    (h : t.Reaches collection n) : t.Anchors s collection n := by
  obtain ⟨ps, h⟩ := h
  exact ⟨hv, ps, h, hw ps n h⟩

end Tree

open Search

variable [DecidableEq ν] {t : Tree ν}

namespace Walker

variable {w : Walker Unit ν} (hw : w.tree = t.atRest)
include hw

lemma decides_climb (collection : ν) (levels : Nat) (n : ν) :
    (w.climb collection levels n).Decides
      (∃ k ≤ levels, AccessTree.climb t.parent k n = some collection) := by
  induction levels generalizing n with
  | zero =>
    rw [climb]
    by_cases hn : n = collection
    · rw [if_pos hn]
      exact (Inquiry.decides_pure true).congr (by simp [AccessTree.climb, hn])
    · rw [if_neg hn]
      refine ⟨false, (Inquiry.says_note _).bind (Inquiry.says_pure false), ?_⟩
      simp [AccessTree.climb, hn]
  | succ levels ih =>
    rw [climb, exists_climb_succ_iff]
    -- One level more: above an object is what is above its parent, and the object itself.
    by_cases hn : n = collection
    · rw [if_pos hn]
      exact (Inquiry.decides_pure true).congr (by simp [hn])
    · rw [if_neg hn]
      cases hp : t.parent n with
      | none => exact ⟨false, (says_ask hw hp).bind (Inquiry.says_pure false), by simp [hn]⟩
      | some p =>
        obtain ⟨b, hb, hiff⟩ := ih p
        exact ⟨b, (says_ask hw hp).bind hb, by simpa [hn] using hiff⟩

lemma decides_encloses (ht : t.IsForest) (collection n : ν) :
    (w.encloses collection n).Decides
      (∃ ps, t.follow collection ps = some n ∧ ps.length ≤ w.maxDepth + 1) := by
  refine (decides_climb hw collection (w.maxDepth + 1) n).congr ⟨?_, ?_⟩
  · rintro ⟨k, hk, h⟩
    obtain ⟨ps, rfl, hps⟩ := ht.exists_follow_of_climb h
    exact ⟨ps, hps, hk⟩
  · rintro ⟨ps, hps, hl⟩
    exact ⟨ps.length, hl, ht.climb_length hps⟩

end Walker

namespace Finder

variable {f : Finder Unit ν} {q : Query ν} {l : List ν} (ht : t.IsForest)
  (hf : f.tree = t.atRest) (hs : q.sort = .canonical)
include ht hf hs

/-- What a search from an anchor comes down to. -/
lemma gives_find
    (hin : t.Anchors f.settings q.collection q.anchor → Gives (match q.direction with
      | .onward => do finish false (← f.findOnward q)
      | .back => do finish true (← f.findBack q)) l)
    (hout : ¬ t.Anchors f.settings q.collection q.anchor → l = []) : (f.find q).Gives l := by
  obtain ⟨b, hb, hiff⟩ := Walker.decides_encloses
    (w := f.walker q.rule q.anchor q.limit true) hf ht q.collection q.anchor
  have hv : Gives (ask f.tree (.isValid q.anchor)) (t.isValid q.anchor) := by
    rw [hf]
    exact gives_ask rfl
  rw [find, hs]
  refine hv.bind ?_
  cases hvalid : t.isValid q.anchor
  · rw [hout fun h => Bool.false_ne_true (hvalid.symm.trans h.1)]
    exact (gives_note _).bind (gives_pure [])
  refine (gives_lift hb).bind ?_
  cases b
  · rw [hout fun h => Bool.false_ne_true (hiff.2 h.2)]
    exact (gives_note _).bind (gives_pure [])
  · exact hin ⟨hvalid, hiff.1 rfl⟩

end Finder

end AccessTree
