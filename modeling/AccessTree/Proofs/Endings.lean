import AccessTree.Proofs.Limits
import AccessTree.Proofs.SweepSearch

/-!
Searches onward come to an end in every tree at rest. Links may run in circles, children may be
shared, and an object may have fewer children than it says: a walk forward goes down no further
than the greatest depth and along no more children than it is told of, and a climb has a greatest
number of levels of its own.
-/

namespace AccessTree

open Search WalkM AccessTree.Tree

variable {ν : Type} [DecidableEq ν] {t : Tree ν}

namespace Walker

variable {w : Walker Unit ν} (hw : w.tree = t.atRest)
include hw

/-- A climb with no level left stays where it is. -/
lemma alike_ascend_zero (collection n : ν) (steps : Nat) :
    Alike (w.ascend steps collection 0 n) (pure (decide (n = collection))) := by
  unfold ascend
  by_cases hn : n = collection
  · rw [if_pos hn, decide_eq_true hn]
    exact alike_pure true
  · rw [if_neg hn, decide_eq_false hn]
    refine alike_ask (says_ask hw rfl) (alike_ask (says_ask hw rfl) ?_)
    split
    · exact alike_ask (Inquiry.says_note _) (alike_pure false)
    · exact alike_ask (Inquiry.says_note _) (alike_pure false)

/-- A climb arrives at some objects, and after that it has reached the collection or gives up. -/
lemma exists_alike_ascend (collection : ν) (levels : Nat) (n : ν) :
    ∃ l reached, ∃ enough, ∀ steps ≥ enough, Alike (w.ascend steps collection levels n)
      (w.pass l >>= fun _ => pure reached) := by
  induction levels generalizing n with
  | zero => exact ⟨[], _, 0, fun steps _ => alike_ascend_zero hw collection n steps⟩
  | succ levels ih =>
    by_cases hn : n = collection
    · refine ⟨[], true, 0, fun steps _ => ?_⟩
      unfold ascend
      rw [if_pos hn]
      exact alike_pure true
    -- In a tree that is no forest an object may have a parent and no place, which ends the climb.
    by_cases hplace : ∃ p i, t.parent n = some p ∧ t.indexInParent n = some i
    · obtain ⟨p, i, hp, hi⟩ := hplace
      obtain ⟨enough, hforward⟩ := alike_forwardFrom hw (Nat.zero_add w.maxDepth) p (i + 1)
      obtain ⟨l, reached, enough', hascend⟩ := ih p
      refine ⟨(t.childrenFrom p (i + 1)).flatMap (w.branch t w.maxDepth) ++ l, reached,
        max enough enough', fun steps hs => ?_⟩
      unfold ascend
      rw [if_neg hn, pass_append, bind_assoc]
      refine alike_ask (says_ask hw hp) (alike_ask (says_ask hw hi) ?_)
      exact (hforward steps (by omega)).bind fun _ => hascend steps (by omega)
    · refine ⟨[], false, 0, fun steps _ => ?_⟩
      unfold ascend
      rw [if_neg hn]
      refine alike_ask (says_ask hw rfl) (alike_ask (says_ask hw rfl) ?_)
      split
      · exact absurd ⟨_, _, ‹_›, ‹_›⟩ hplace
      · exact alike_ask (Inquiry.says_note _) (alike_pure false)

/-- Where nothing limits it, a sweep comes to its end. -/
lemma exists_gives_sweep (hl : w.limit = 0) (collection x : ν) : ∃ found enough,
    ∀ steps ≥ enough, Gives (collect none (w.sweep steps collection x)) found := by
  obtain ⟨inside, hb⟩ := steady_encloses hw collection x
  cases inside
  · exact ⟨[], 0, fun steps _ => gives_sweep_outside hb steps none⟩
  · obtain ⟨l, reached, hascend⟩ := exists_alike_ascend hw collection w.maxDepth x
    obtain ⟨enough, hsweep⟩ := gives_sweep hw hl hb hascend
    exact ⟨_, enough, fun steps hs => hsweep steps hs none⟩

end Walker

namespace Finder

variable {s : Settings} {q : Query ν}

lemma exists_gives_findOnward (t : Tree ν) (hl : s.limit q.limit = 0) : ∃ found enough,
    ∀ steps ≥ enough, Gives ((⟨t.atRest, s, steps⟩ : Finder Unit ν).findOnward q) found := by
  have hforward : ∀ traverse container start, ∃ found enough, ∀ steps ≥ enough, Gives
      (collect none
        (((⟨t.atRest, s, steps⟩ : Finder Unit ν).walker q.rule q.anchor q.limit traverse).forward
          steps container start)) found := fun traverse container start => by
    let w := (⟨t.atRest, s, 0⟩ : Finder Unit ν).walker q.rule q.anchor q.limit traverse
    obtain ⟨enough, h⟩ := w.gives_forward rfl hl container start
    exact ⟨_, enough, h⟩
  unfold findOnward
  cases q.scope with
  | children => exact hforward _ q.anchor 0
  | inorder =>
    let w := (⟨t.atRest, s, 0⟩ : Finder Unit ν).walker q.rule q.anchor q.limit
      (q.traverse || Scope.inorder == .inorder)
    exact w.exists_gives_sweep rfl hl q.collection q.anchor
  | siblings =>
    dsimp only
    by_cases hne : q.anchor = q.collection
    · exact ⟨[], 0, fun steps _ => by rw [if_pos hne]; exact gives_pure []⟩
    by_cases hplace : ∃ p i, t.parent q.anchor = some p ∧ t.indexInParent q.anchor = some i
    · obtain ⟨p, i, hp, hi⟩ := hplace
      obtain ⟨found, enough, h⟩ := hforward (q.traverse || Scope.siblings == .inorder) p i
      refine ⟨found, enough, fun steps hs => ?_⟩
      rw [if_neg hne]
      exact (gives_ask hp).bind ((gives_ask hi).bind (h steps hs))
    · refine ⟨[], 0, fun steps _ => ?_⟩
      rw [if_neg hne]
      refine (gives_ask rfl).bind ((gives_ask rfl).bind ?_)
      split
      · exact absurd ⟨_, _, ‹_›, ‹_›⟩ hplace
      · exact (gives_note _).bind (gives_pure [])

/-- Where nothing limits it, a search onward comes to its end. -/
lemma exists_answers_onward (t : Tree ν) (hl : s.limit q.limit = 0) (hs : q.sort = .canonical)
    (hd : q.direction = .onward) : ∃ found, t.Answers s (·.find q) found := by
  obtain ⟨found, enough, honward⟩ := exists_gives_findOnward t hl
  obtain ⟨inside, hb⟩ := Walker.steady_encloses (w := walker ⟨t.atRest, s, 0⟩ q.rule q.anchor
    q.limit true) rfl q.collection q.anchor
  refine ⟨if t.isValid q.anchor && inside then found else [], enough, fun steps hsteps => ?_⟩
  unfold find
  rw [hs]
  cases hvalid : t.isValid q.anchor
  · exact (gives_ask hvalid).bind ((gives_note _).bind (gives_pure []))
  refine (gives_ask hvalid).bind ((gives_lift hb).bind ?_)
  cases inside
  · exact (gives_note _).bind (gives_pure [])
  · rw [hd]
    exact (honward steps hsteps).bind (gives_finish false found)

/-- Whatever a tree at rest answers, searches of a whole collection and searches onward from an
anchor come to their end, in every scope, for every rule, sort order, limit and greatest depth. A
collection has what branches off its children, each branch down to the greatest depth, and an
anchor only has what meets the rule. -/
theorem answers_onward_always (t : Tree ν) (s : Settings) :
    (∀ collection rule sort limit traverse,
      t.Answers s (·.findAll collection rule sort limit traverse)
        (sort.arrange .onward (cut (s.limit limit) (((t.childrenFrom collection 0).flatMap
          (branch (t.kids (t.mayEnter traverse)) s.maxDepth)).filter fun y =>
            y ≠ collection && t.meets rule s y)))) ∧
    ∀ q : Query ν, ∃ found, t.Answers s (·.find { q with direction := .onward }) found ∧
      ∀ y ∈ found, t.meets q.rule s y = true := by
  have hcanonical : SortOrder.canonical.reversed? ≠ none := by decide
  have hl : ({ s with maxResults := 0 } : Settings).limit 0 = 0 :=
    Settings.limit_eq_zero_iff.2 ⟨rfl, rfl⟩
  -- Everything is first found without limit and rule, and then cut and filtered.
  refine ⟨fun collection rule sort limit traverse => ?_, fun q => ?_⟩
  · let w := (⟨t.atRest, s, 0⟩ : Finder Unit ν).walker rule collection limit traverse
    obtain ⟨enough, h⟩ := w.plain.gives_forward (t := t) rfl hl collection 0
    have hall : t.Answers { s with maxResults := 0 }
        (·.findAll collection .anyObject .canonical 0 traverse) _ :=
      ⟨enough, fun steps hs => (h steps hs).bind (gives_finish false _)⟩
    have hanswer :=
      answers_findAll_of_ends collection rule limit traverse hcanonical hall.ends sort
    exact w.filter_plain_keeps (t := t) _ ▸ hanswer
  · obtain ⟨found, h⟩ := exists_answers_onward (s := { s with maxResults := 0 })
      (q := { q with rule := .anyObject, sort := .canonical, limit := 0, direction := .onward })
      t hl rfl rfl
    refine ⟨_, answers_find_of_ends { q with direction := .onward } hcanonical h.ends,
      fun y hy => ?_⟩
    exact (List.mem_filter.1 ((cut_sublist _ _).subset (SortOrder.mem_arrange.1 hy).2)).2

end Finder

end AccessTree
