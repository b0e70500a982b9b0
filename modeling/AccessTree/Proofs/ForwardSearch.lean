import AccessTree.Proofs.Answers
import AccessTree.Proofs.Branches

/-!
Searching forward. A walk on from a child of a container arrives at the branches of this child and
of its younger siblings, each cut at the greatest depth.
-/

namespace AccessTree

open Search WalkM AccessTree.Tree

variable {ν : Type} {t : Tree ν}

namespace Walker

/-- An object with what a walk goes through below it. -/
abbrev branch (w : Walker Unit ν) (t : Tree ν) : Nat → ν → List ν :=
  AccessTree.branch (t.kids (t.mayEnter w.traverse))

variable [DecidableEq ν] {w : Walker Unit ν}

variable (hw : w.tree = t.atRest)
include hw

variable {depth : Nat}

lemma alike_forwardFrom_step {steps index : Nat} {c container : ν} {below rest : List ν}
    (hc : t.childAt container index = some c) (hi : index < t.childCount container)
    (hb : Alike (if t.mayEnter w.traverse c then
        if w.maxDepth ≤ depth then pure () else w.forwardFrom steps (depth + 1) c 0
      else pure ()) (w.pass below))
    (hr : Alike (w.forwardFrom steps depth container (index + 1)) (w.pass rest)) :
    Alike (w.forwardFrom (steps + 1) depth container index) (w.pass (c :: below ++ rest)) := by
  unfold forwardFrom
  refine alike_ask (says_ask hw (rfl : _ = t.childCount container)) ?_
  rw [if_pos hi]
  refine alike_ask (says_ask hw hc) ?_
  rw [List.cons_append, pass, arrive, bind_assoc]
  refine (alike_isStop c).bind fun stopped => ?_
  -- At the stop both sides break off. Else the object is visited and, where it may be entered, what
  -- is below it comes before the rest.
  cases stopped
  · refine (alike_visit hw).left.bind fun _ => alike_ask (says_enters hw c) ?_
    rw [pass_append]
    have hbr := hb.bind fun _ => hr
    split
    · rename_i ho
      rw [if_pos ho] at hbr
      split
      · rename_i hd
        rw [if_pos hd] at hbr
        exact alike_ask (Inquiry.says_note _) hbr
      · rename_i hd
        rwa [if_neg hd] at hbr
    · rename_i ho
      rwa [if_neg ho] at hbr
  · exact alike_ask (Inquiry.says_note _) fun _ _ _ _ => rfl

lemma alike_forwardFrom_of_below (below : ν → List ν)
    (hb : ∀ c, ∃ enough, ∀ steps ≥ enough, Alike (if t.mayEnter w.traverse c then
        if w.maxDepth ≤ depth then pure () else w.forwardFrom steps (depth + 1) c 0
      else pure ()) (w.pass (below c))) (container : ν) (index : Nat) :
    ∃ enough, ∀ steps ≥ enough, Alike (w.forwardFrom steps depth container index)
      (w.pass ((t.childrenFrom container index).flatMap fun c => c :: below c)) := by
  obtain ⟨left, hleft⟩ : ∃ left, t.childCount container - index = left := ⟨_, rfl⟩
  -- The children left to come get fewer, where the steps that are allowed are only known at the
  -- end.
  induction left generalizing index with
  | zero =>
    refine ⟨1, fun steps hs => ?_⟩
    obtain ⟨steps, rfl⟩ := Nat.exists_eq_succ_of_ne_zero (by omega : steps ≠ 0)
    rw [childrenFrom_of_le (by omega)]
    unfold forwardFrom
    refine alike_ask (says_ask hw (rfl : _ = t.childCount container)) ?_
    rw [if_neg (by omega)]
    exact alike_pure ()
  | succ left ih =>
    have hi : index < t.childCount container := by omega
    rw [childrenFrom_of_lt hi]
    cases hc : t.childAt container index with
    | none =>
      refine ⟨1, fun steps hs => ?_⟩
      obtain ⟨steps, rfl⟩ := Nat.exists_eq_succ_of_ne_zero (by omega : steps ≠ 0)
      unfold forwardFrom
      refine alike_ask (says_ask hw (rfl : _ = t.childCount container)) ?_
      rw [if_pos hi]
      exact alike_ask (says_ask hw hc) (alike_pure ())
    | some c =>
      obtain ⟨enough, he⟩ := hb c
      obtain ⟨enough', he'⟩ := ih (index + 1) (by omega)
      refine ⟨max enough enough' + 1, fun steps hs => ?_⟩
      obtain ⟨steps, rfl⟩ := Nat.exists_eq_succ_of_ne_zero (by omega : steps ≠ 0)
      exact alike_forwardFrom_step hw hc hi (he steps (by omega)) (he' steps (by omega))

/-- A walk forward arrives at the branches from a child on. -/
theorem alike_forwardFrom {levels : Nat} (hd : depth + levels = w.maxDepth) (container : ν)
    (index : Nat) : ∃ enough, ∀ steps ≥ enough, Alike (w.forwardFrom steps depth container index)
      (w.pass ((t.childrenFrom container index).flatMap (w.branch t levels))) := by
  induction levels generalizing depth container index with
  | zero =>
    refine alike_forwardFrom_of_below hw (fun _ => []) (fun c => ⟨0, fun steps _ => ?_⟩) _ _
    rw [if_pos (by omega : w.maxDepth ≤ depth), ite_self]
    exact alike_pure ()
  | succ levels ih =>
    refine alike_forwardFrom_of_below hw
      (fun c => (t.kids (t.mayEnter w.traverse) c).flatMap (w.branch t levels))
      (fun c => ?_) _ _
    obtain ⟨enough, he⟩ := ih (by omega : depth + 1 + levels = w.maxDepth) c 0
    refine ⟨enough, fun steps hs => ?_⟩
    rw [if_neg (by omega : ¬ w.maxDepth ≤ depth), kids]
    split
    · exact he steps hs
    · exact alike_pure ()

/-- Where nothing limits it, a walk forward finds what it arrives at and keeps. -/
lemma gives_forward (hl : w.limit = 0) (container : ν) (start : Nat) :
    ∃ enough, ∀ steps ≥ enough, Gives (collect none (w.forward steps container start))
      (((t.childrenFrom container start).flatMap
        (w.branch t w.maxDepth)).filter (w.keeps t)) := by
  obtain ⟨enough, h⟩ := alike_forwardFrom hw (Nat.zero_add w.maxDepth) container start
  refine ⟨enough, fun steps hs => gives_collect fun asked => ⟨.ok (), none, by simp, ?_⟩⟩
  refine (h steps hs asked asked none #[]).trans ((outcome_pass hw hl (by simp)).trans ?_)
  rw [Array.empty_append]

end Walker

namespace Finder

variable [DecidableEq ν] {s : Settings} {limit : Nat}

/-- A walk forward finds what lies ahead and meets the rule. -/
lemma exists_forward (ht : t.IsForest) (hl : s.limit limit = 0) (rule : Rule) (anchor : ν)
    (traverse : Bool) (container : ν) (start : Nat) :
    ∃ l, (∃ enough, ∀ steps ≥ enough, Gives (collect none
        (((⟨t.atRest, s, steps⟩ : Finder Unit ν).walker rule anchor limit traverse).forward
          steps container start)) l) ∧
      t.Lists l fun y => y ≠ anchor ∧ t.meets rule s y = true ∧
        t.Ahead (t.mayEnter traverse) s.maxDepth container start y := by
  let w := (⟨t.atRest, s, 0⟩ : Finder Unit ν).walker rule anchor limit traverse
  refine ⟨_, Walker.gives_forward (w := w) rfl hl container start, ?_⟩
  refine (ht.lists_flatMap_branch.filter _).congr fun y => ?_
  rw [and_comm, Walker.keeps, Bool.and_eq_true, decide_eq_true_eq, and_assoc]
  rfl

lemma exists_findAll (ht : t.IsForest) (hl : s.limit limit = 0) (collection : ν) (rule : Rule)
    (traverse : Bool) :
    ∃ l, t.Answers s (·.findAll collection rule .canonical limit traverse) l ∧
      t.Lists l fun y => y ≠ collection ∧ t.meets rule s y = true ∧
        t.Ahead (t.mayEnter traverse) s.maxDepth collection 0 y := by
  obtain ⟨l, ⟨enough, h⟩, hlist⟩ := exists_forward ht hl rule collection traverse collection 0
  exact ⟨l, ⟨enough, fun steps hs => (h steps hs).bind (gives_finish false l)⟩, hlist⟩

/-- Where nothing lies too deep and all may be entered, a collection has what is below it. -/
lemma exists_findAll_within (ht : t.IsForest) (hl : s.limit limit = 0) {collection : ν}
    (hw : t.Within collection (s.maxDepth + 1)) (rule : Rule) :
    ∃ l, t.Answers s (·.findAll collection rule .canonical limit true) l ∧
      t.Lists l fun y => t.meets rule s y = true ∧ t.Below collection y := by
  obtain ⟨l, hanswer, hlist⟩ := exists_findAll ht hl collection rule true
  refine ⟨l, hanswer, hlist.congr fun y => ?_⟩
  rw [ahead_iff_below (fun _ => mayEnter_true) hw]
  refine ⟨And.right, fun h => ⟨fun he => ht.below_irrefl (he ▸ h.2), h⟩⟩

/-- A search of a collection for any object finds what is not too deep below it. -/
lemma exists_findAll_anyObject (ht : t.IsForest) (hl : s.limit limit = 0) (collection : ν) :
    ∃ all, t.Answers s (·.findAll collection .anyObject .canonical limit true) all ∧
      t.Lists all fun y => ∃ i ps, t.follow collection (i :: ps) = some y ∧
        ps.length ≤ s.maxDepth := by
  obtain ⟨all, hanswer, hlist⟩ := exists_findAll ht hl collection .anyObject true
  refine ⟨all, hanswer, hlist.congr fun y => ⟨?_, ?_⟩⟩
  · rintro ⟨-, -, i, ps, -, h, hps, -⟩
    exact ⟨i, ps, h, hps⟩
  · rintro ⟨i, ps, h, hps⟩
    have hb : t.Below collection y := ⟨i, ps, h⟩
    refine ⟨fun he => ht.below_irrefl (he ▸ hb), ?_, i, ps, Nat.zero_le i, h, hps, fun _ _ _ => rfl⟩
    rw [meets_anyObject]
    exact (ht.valid_of_below hb).2

section
variable {q : Query ν} (ht : t.IsForest) (ha : t.Anchors s q.collection q.anchor)
  (hl : s.limit q.limit = 0) (hd : q.direction = .onward) (hs : q.sort = .canonical)
include ht ha hl hd hs

/-- A search of what is below an anchor finds what lies ahead of the anchor's first child. -/
lemma exists_find_children (hscope : q.scope = .children) : ∃ l, t.Answers s (·.find q) l ∧
    t.Lists l fun y => y ≠ q.anchor ∧ t.meets q.rule s y = true ∧
      t.Ahead (t.mayEnter q.traverse) s.maxDepth q.anchor 0 y := by
  obtain ⟨l, ⟨enough, h⟩, hlist⟩ := exists_forward ht hl q.rule q.anchor q.traverse q.anchor 0
  refine ⟨l, ⟨enough, fun steps hsteps => gives_find ht rfl hs (fun _ => ?_) (absurd ha)⟩, hlist⟩
  rw [hd]
  refine Gives.bind ?_ (gives_finish false l)
  rw [findOnward, hscope, show (q.traverse || Scope.children == .inorder) = q.traverse by simp]
  exact h steps hsteps

/-- A search of an anchor's siblings finds what lies ahead of the anchor's own place. -/
lemma exists_find_siblings (hscope : q.scope = .siblings) (hne : q.anchor ≠ q.collection) :
    ∃ p i, t.childAt p i = some q.anchor ∧ ∃ l, t.Answers s (·.find q) l ∧
      t.Lists l fun y => y ≠ q.anchor ∧ t.meets q.rule s y = true ∧
        t.Ahead (t.mayEnter q.traverse) s.maxDepth p i y := by
  obtain ⟨p, i, hc⟩ : ∃ p i, t.childAt p i = some q.anchor := by
    obtain ⟨-, ps, hps, -⟩ := ha
    have hb := Reaches.eq_or_below ⟨ps, hps⟩
    obtain ⟨p, i, -, hc⟩ := (hb.resolve_left (Ne.symm hne)).exists_childAt
    exact ⟨p, i, hc⟩
  obtain ⟨-, hp, hi⟩ := ht.of_childAt hc
  obtain ⟨l, ⟨enough, h⟩, hlist⟩ := exists_forward ht hl q.rule q.anchor q.traverse p i
  refine ⟨p, i, hc, l, ⟨enough, fun steps hsteps => ?_⟩, hlist⟩
  refine gives_find ht rfl hs (fun _ => ?_) (absurd ha)
  rw [hd]
  refine Gives.bind ?_ (gives_finish false l)
  rw [findOnward, hscope, show (q.traverse || Scope.siblings == .inorder) = q.traverse by simp]
  dsimp only
  rw [if_neg hne]
  exact (gives_ask hp).bind ((gives_ask hi).bind (h steps hsteps))

end

/-- Searches onward find exactly what lies ahead and meets the rule, in document order. -/
theorem answers_onward (ht : t.IsForest) (hl : s.limit limit = 0) (collection : ν) (rule : Rule)
    (traverse : Bool) :
    (∃ l, t.Answers s (·.findAll collection rule .canonical limit traverse) l ∧
      t.Lists l fun y => y ≠ collection ∧ t.meets rule s y = true ∧
        t.Ahead (t.mayEnter traverse) s.maxDepth collection 0 y) ∧
    ∀ anchor recurse,
      let q : Scope → Query ν := fun scope =>
        { collection, anchor, rule, scope, limit, recurse, traverse }
      (t.Anchors s collection anchor →
        (∃ l, t.Answers s (·.find (q .children)) l ∧
          t.Lists l fun y => y ≠ anchor ∧ t.meets rule s y = true ∧
            t.Ahead (t.mayEnter traverse) s.maxDepth anchor 0 y) ∧
        (anchor ≠ collection → ∃ p i, t.parent anchor = some p ∧
          t.indexInParent anchor = some i ∧ ∃ l, t.Answers s (·.find (q .siblings)) l ∧
            t.Lists l fun y => y ≠ anchor ∧ t.meets rule s y = true ∧
              t.Ahead (t.mayEnter traverse) s.maxDepth p i y)) ∧
      (¬ t.Anchors s collection anchor → ∀ scope, t.Answers s (·.find (q scope)) []) := by
  refine ⟨exists_findAll ht hl collection rule traverse, fun anchor recurse => ?_⟩
  intro q
  refine ⟨fun ha => ⟨?_, fun hne => ?_⟩, fun ha scope => ?_⟩
  · exact exists_find_children (q := q .children) ht ha hl rfl rfl rfl
  · obtain ⟨p, i, hc, h⟩ := exists_find_siblings (q := q .siblings) ht ha hl rfl rfl rfl hne
    exact ⟨p, i, (ht.of_childAt hc).2.1, (ht.of_childAt hc).2.2, h⟩
  · exact ⟨0, fun steps _ => gives_find ht rfl rfl (fun h => absurd h ha) fun _ => rfl⟩

theorem answers_onward_sample : sample.IsForest ∧ ({} : Settings).limit 0 = 0 ∧
    (∃ l, sample.Answers {} (·.findAll 0 .anyObject .canonical 0 true) l ∧
      sample.Lists l fun y => y ≠ 0 ∧ sample.meets .anyObject {} y = true ∧
        sample.Ahead (sample.mayEnter true) 4096 0 0 y) ∧
    ∃ p i, sample.parent 1 = some p ∧ sample.indexInParent 1 = some i ∧
      ∃ l, sample.Answers {} (·.find { collection := 0, anchor := 1, scope := .siblings }) l ∧
        sample.Lists l fun y => y ≠ 1 ∧ sample.meets .anyObject {} y = true ∧
          sample.Ahead (sample.mayEnter true) 4096 p i y := by
  have hl : Settings.limit {} 0 = 0 := rfl
  have h := answers_onward sample_isForest hl 0 .anyObject true
  have ha : sample.Anchors {} 0 1 := ⟨rfl, [0], rfl, by decide⟩
  exact ⟨sample_isForest, rfl, h.1, ((h.2 1 false).1 ha).2 (by decide)⟩

example : ((Finder.findAll ⟨sample.atRest, {}, 9⟩ 0 .anyObject .canonical 0 true).run
    ⟨(), #[]⟩).1 = some [1, 2, 3] := by decide +kernel

end Finder

end AccessTree
