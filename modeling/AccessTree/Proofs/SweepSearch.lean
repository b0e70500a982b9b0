import Mathlib.Data.List.TakeWhile
import AccessTree.Proofs.BackwardSearch

/-!
Sweeping a collection. What a sweep arrives at after its anchor is the rest of the collection in
document order, and after that comes what leads up to the anchor, so that the sweep goes round.
-/

namespace AccessTree

open Search WalkM AccessTree.Tree

variable {ν : Type} [DecidableEq ν] {t : Tree ν}

namespace Walker

/-- Passes what is below an object and what comes next, and if it is to go on, what comes from the
start up to that object. -/
def round (w : Walker Unit ν) (x : ν) (below next all : List ν) (again : Bool) :
    WalkM Unit ν Unit := do
  WalkM.stopAt none
  w.pass below
  w.pass next
  if again then
    WalkM.stopAt (some x)
    w.pass all

variable {w : Walker Unit ν} {collection n x : ν} {i levels : Nat} {ps : List Nat} {l : List ν}
  (hw : w.tree = t.atRest) (ht : t.IsForest)
include hw ht

/-- A climb arrives at what follows at each level up to an object in the collection, and goes on
from there. -/
lemma alike_ascend_through {top : ν} {y : WalkM Unit ν Bool} (htop : t.Reaches collection top)
    (hy : ∃ enough, ∀ steps ≥ enough, Alike (w.ascend steps collection levels top) y)
    (h : t.follow top ps = some n) :
    ∃ enough, ∀ steps ≥ enough, Alike (w.ascend steps collection (levels + ps.length) n)
      (w.pass (t.trailing (w.branch t w.maxDepth) top ps) >>= fun _ => y) := by
  -- On the last step of the path, since a climb begins at its lower end.
  induction ps using List.reverseRecOn generalizing n with
  | nil =>
    cases h
    exact hy
  | append_singleton ps i ih =>
    obtain ⟨p, hp, hn⟩ := follow_snoc.1 h
    have hne : n ≠ collection := fun he =>
      ht.not_below_of_reaches (htop.trans ⟨ps, hp⟩) (he ▸ below_of_childAt hn)
    obtain ⟨-, hparent, hindex⟩ := ht.of_childAt hn
    obtain ⟨enough, he⟩ := alike_forwardFrom hw (Nat.zero_add w.maxDepth) p (i + 1)
    obtain ⟨enough', he'⟩ := ih hp
    refine ⟨max enough enough', fun steps hs => ?_⟩
    rw [List.length_append, List.length_singleton, ← Nat.add_assoc]
    unfold ascend
    rw [if_neg hne, trailing_snoc hp hn, pass_append, bind_assoc]
    refine alike_ask (says_ask hw hparent) (alike_ask (says_ask hw hindex) ?_)
    exact (he steps (by omega)).bind fun _ => he' steps (by omega)

/-- A climb to the collection arrives at what follows at each level. -/
lemma alike_ascend (h : t.follow collection ps = some n) (hl : ps.length ≤ levels) :
    ∃ enough, ∀ steps ≥ enough, Alike (w.ascend steps collection levels n)
      (w.pass (t.trailing (w.branch t w.maxDepth) collection ps) >>= fun _ => pure true) := by
  obtain ⟨rest, rfl⟩ := Nat.exists_eq_add_of_le' hl
  refine alike_ascend_through hw ht Reaches.refl ⟨0, fun steps _ => ?_⟩ h
  unfold ascend
  rw [if_pos rfl]
  exact alike_pure true

/-- A climb from below a child of the collection, with as many levels left as lead up to that
child, gives up there. -/
lemma alike_ascend_short {c : ν} (hc : t.childAt collection i = some c)
    (h : t.follow c ps = some n) :
    ∃ enough, ∀ steps ≥ enough, Alike (w.ascend steps collection ps.length n)
      (w.pass (t.trailing (w.branch t w.maxDepth) c ps) >>= fun _ => pure false) := by
  have hcollection := below_of_childAt hc
  have hgivesUp : ∃ enough, ∀ steps ≥ enough,
      Alike (w.ascend steps collection 0 c) (pure false) := by
    obtain ⟨-, hp, hi⟩ := ht.of_childAt hc
    refine ⟨0, fun steps _ => ?_⟩
    unfold ascend
    rw [if_neg fun he => ht.below_irrefl (he ▸ hcollection)]
    refine alike_ask (says_ask hw hp) (alike_ask (says_ask hw hi) ?_)
    exact alike_ask (Inquiry.says_note _) (alike_pure false)
  have hthrough := alike_ascend_through hw ht hcollection.reaches hgivesUp h
  rwa [Nat.zero_add] at hthrough

omit ht in
/-- A sweep from an object inside is a walk below it, a climb from there, and a walk from the start
where the climb reaches the collection. -/
lemma alike_sweep_inside {reached : Bool} (hb : Inquiry.Says (w.encloses collection x) true)
    (ha : ∃ enough, ∀ steps ≥ enough, Alike (w.ascend steps collection w.maxDepth x)
      (w.pass l >>= fun _ => pure reached)) :
    ∃ enough, ∀ steps ≥ enough, Alike (w.sweep steps collection x)
      (w.round x ((t.childrenFrom x 0).flatMap (w.branch t w.maxDepth)) l
        ((t.childrenFrom collection 0).flatMap (w.branch t w.maxDepth))
        (reached && x != collection)) := by
  obtain ⟨enough, he⟩ := alike_forwardFrom hw (Nat.zero_add w.maxDepth) x 0
  obtain ⟨enough', he'⟩ := ha
  obtain ⟨enough'', he''⟩ := alike_forwardFrom hw (Nat.zero_add w.maxDepth) collection 0
  refine ⟨max enough (max enough' enough''), fun steps hs => ?_⟩
  unfold sweep
  refine alike_ask hb ?_
  rw [if_pos rfl]
  refine (alike_stopAt none).bind fun _ => (he steps (by omega)).bind fun _ => ?_
  -- The climb tells whether it reached the collection, so both ways of going on are named together.
  let again : Bool → WalkM Unit ν Unit := fun reached => do
    if reached && x != collection then
      WalkM.stopAt (some x)
      w.pass ((t.childrenFrom collection 0).flatMap (w.branch t w.maxDepth))
  have hagain : ∀ reached, Alike (if (reached && x != collection) = true then
      (WalkM.stopAt (some x) >>= fun _ => w.forward steps collection 0) else pure ())
      (again reached) := by
    intro reached
    dsimp only [again]
    split
    · exact (alike_stopAt _).bind fun _ => he'' steps (by omega)
    · exact alike_pure ()
  have hascend := (he' steps (by omega)).bind hagain
  rw [bind_assoc] at hascend
  exact hascend

omit hw ht in
/-- A sweep from an object outside finds nothing. -/
lemma gives_sweep_outside (hb : Inquiry.Says (w.encloses collection x) false) (steps : Nat)
    (stop : Option ν) : Gives (collect stop (w.sweep steps collection x)) [] := by
  refine gives_collect fun asked => ⟨.ok (), stop, by simp, ?_⟩
  unfold sweep
  exact outcome_ask hb fun _ => rfl

/-- An object that is not too deep below the collection is inside. -/
lemma says_encloses (h : t.follow collection ps = some x) (hd : ps.length ≤ w.maxDepth + 1) :
    Inquiry.Says (w.encloses collection x) true := by
  obtain ⟨b, hb, hiff⟩ := decides_encloses hw ht collection x
  rwa [hiff.2 ⟨ps, h, hd⟩] at hb

variable (hlimit : w.limit = 0)
include hlimit

variable {stop : Option ν} {before after : List ν}

omit ht in
/-- A walk that comes to its stop ends there, and one that does not goes on to its end. -/
lemma outcome_pass_until {asked : Logged Unit (Event ν)} {found : Array ν} :
    outcome (w.pass l) ⟨asked, some x, found⟩ = (if x ∈ l then .error .broken else .ok (), some x,
      found ++ ((l.takeWhile (· ≠ x)).filter (w.keeps t)).toArray) := by
  by_cases hx : x ∈ l
  · obtain ⟨before, after, rfl, hbefore⟩ := List.eq_append_cons_of_mem hx
    have hne : ∀ y ∈ before, y ≠ x := fun y hy he => hbefore (he ▸ hy)
    rw [if_pos hx, outcome_pass_stop hw hlimit hne,
      List.takeWhile_append_of_pos (by simpa using hne)]
    simp
  · have hne : ∀ y ∈ l, y ≠ x := fun y hy he => hx (he ▸ hy)
    rw [if_neg hx, outcome_pass hw hlimit fun y hy he => hne y hy (Option.some.inj he).symm,
      List.takeWhile_eq_self_iff.2 (by simpa using hne)]

omit ht in
/-- A round that goes on from the start comes no further than the object where it began. -/
lemma gives_round (below next all : List ν) (again : Bool) :
    Gives (collect stop (w.round x below next all again))
      ((below ++ next ++ if again then all.takeWhile (· ≠ x) else []).filter (w.keeps t)) := by
  refine gives_collect fun asked => ⟨if again = true ∧ x ∈ all then .error .broken else .ok (),
    if again then some x else none, by split <;> simp, ?_⟩
  refine outcome_bind rfl fun asked' => ?_
  refine outcome_bind (outcome_pass hw hlimit (by simp)) fun asked' => ?_
  refine outcome_bind (outcome_pass hw hlimit (by simp)) fun asked' => ?_
  cases again
  · simp
    rfl
  · refine outcome_bind rfl fun asked' => (outcome_pass_until hw hlimit).trans ?_
    simp

omit ht in
/-- A sweep from an object inside finds what is below it, what the climb arrives at and, where the
climb reaches the collection, what comes from the start of the collection on. -/
lemma gives_sweep {reached : Bool} (hb : Inquiry.Says (w.encloses collection x) true)
    (ha : ∃ enough, ∀ steps ≥ enough, Alike (w.ascend steps collection w.maxDepth x)
      (w.pass l >>= fun _ => pure reached)) :
    ∃ enough, ∀ steps ≥ enough, ∀ stop, Gives (collect stop (w.sweep steps collection x))
      (((t.childrenFrom x 0).flatMap (w.branch t w.maxDepth) ++ l ++
        if reached && x != collection then
          ((t.childrenFrom collection 0).flatMap (w.branch t w.maxDepth)).takeWhile (· ≠ x)
        else []).filter (w.keeps t)) := by
  obtain ⟨enough, hsweep⟩ := alike_sweep_inside hw hb ha
  exact ⟨enough, fun steps hs stop => (gives_round hw hlimit _ _ _ _).of_alike (hsweep steps hs)⟩

section
variable {reached : Bool} (h : t.follow collection ps = some w.anchor)
  (hd : ps.length ≤ w.maxDepth + 1)
  (ha : ∃ enough, ∀ steps ≥ enough, Alike (w.ascend steps collection w.maxDepth w.anchor)
    (w.pass l >>= fun _ => pure reached))
include h hd ha

/-- A sweep finds what is below its anchor and what the climb arrives at. -/
lemma gives_sweep_once (hr : (reached && w.anchor != collection) = false) :
    ∃ enough, ∀ steps ≥ enough, Gives (collect none (w.sweep steps collection w.anchor))
      (((t.childrenFrom w.anchor 0).flatMap (w.branch t w.maxDepth) ++ l).filter
        (w.keeps t)) := by
  obtain ⟨enough, hsweep⟩ := gives_sweep hw hlimit (says_encloses hw ht h hd) ha
  rw [hr, if_neg Bool.false_ne_true, List.append_nil] at hsweep
  exact ⟨enough, fun steps hs => hsweep steps hs none⟩

/-- Where the climb reaches the collection, a sweep then finds what leads up to its anchor. -/
lemma gives_sweep_again (hr : (reached && w.anchor != collection) = true)
    (hall : (t.childrenFrom collection 0).flatMap (w.branch t w.maxDepth) =
      before ++ w.anchor :: after) (hx : ∀ y ∈ before, y ≠ w.anchor) :
    ∃ enough, ∀ steps ≥ enough, Gives (collect none (w.sweep steps collection w.anchor))
      (((t.childrenFrom w.anchor 0).flatMap (w.branch t w.maxDepth) ++ l ++ before).filter
        (w.keeps t)) := by
  obtain ⟨enough, hsweep⟩ := gives_sweep hw hlimit (says_encloses hw ht h hd) ha
  have hbefore : (before ++ w.anchor :: after).takeWhile (· ≠ w.anchor) = before := by
    rw [List.takeWhile_append_of_pos (by simpa using hx)]
    simp
  rw [hr, if_pos rfl, hall, hbefore] at hsweep
  exact ⟨enough, fun steps hs => hsweep steps hs none⟩

end

/-- A sweep from the collection itself is a walk through all of it. -/
lemma exists_sweep_self (he : ∀ a, t.mayEnter w.traverse a = true)
    (hd : t.Within w.anchor (w.maxDepth + 1)) : ∃ l, t.Lists l (t.Below w.anchor) ∧
      ∃ enough, ∀ steps ≥ enough, Gives (collect none (w.sweep steps w.anchor w.anchor))
        (l.filter (t.meets w.rule w.settings)) := by
  have hlist := ht.lists_below he hd
  refine ⟨_, hlist, ?_⟩
  have h : t.follow w.anchor [] = some w.anchor := follow_nil
  have hsweep := gives_sweep_once hw ht hlimit h (Nat.zero_le _)
    (alike_ascend hw ht h (Nat.zero_le _)) (by simp)
  rwa [trailing, List.append_nil, keeps_filter fun y hy he => ?_] at hsweep
  exact ht.below_irrefl (he ▸ (hlist.mem_iff y).1 hy)

/-- A sweep from below the collection goes round and ends where it began. -/
lemma exists_sweep {n : ν} (he : ∀ a, t.mayEnter w.traverse a = true)
    (hd : t.Within n w.maxDepth) (hb : t.Below n w.anchor) :
    ∃ l r, t.Lists (l ++ w.anchor :: r) (t.Below n) ∧
      ∃ enough, ∀ steps ≥ enough, Gives (collect none (w.sweep steps n w.anchor))
        ((r ++ l).filter (t.meets w.rule w.settings)) := by
  have hne : (true && w.anchor != n) = true := by
    simpa using fun h : w.anchor = n => ht.below_irrefl (h ▸ hb)
  obtain ⟨i, ps, h⟩ := hb
  obtain ⟨l, hlead⟩ : ∃ l, t.leading (w.branch t w.maxDepth) n (i :: ps) = n :: l := ⟨_, rfl⟩
  have hlist := ht.lists_below he (hd.mono (Nat.le_succ _))
  have hsplit := ht.flatMap_branch_split he hd h hlead
  rw [hsplit] at hlist
  refine ⟨l, _, hlist, ?_⟩
  obtain ⟨hl, hr⟩ := ht.lists_split hlist
  -- What leads up to the anchor does not hold it, so the second walk is stopped by nothing else.
  have hnotl : ∀ y ∈ l, y ≠ w.anchor := by
    rintro _ hy rfl
    exact ht.precedes_irrefl ((hl.mem_iff _).1 hy).2
  have hlen : (i :: ps).length ≤ w.maxDepth := hd (i :: ps) _ h
  have hsweep := gives_sweep_again hw ht hlimit h (hlen.trans (Nat.le_succ _))
    (alike_ascend hw ht h hlen) hne hsplit hnotl
  rwa [keeps_filter] at hsweep
  rintro _ hy rfl
  rcases List.mem_append.1 hy with hy | hy
  · exact ht.precedes_irrefl ((hr.mem_iff _).1 hy).2
  · exact hnotl _ hy rfl

end Walker

namespace Finder

variable {s : Settings} {q : Query ν} {collection x : ν} {limit : Nat}

lemma answers_sweep (ht : t.IsForest) (ha : t.Anchors s q.collection q.anchor)
    (hd : q.direction = .onward) (hs : q.sort = .canonical) (hscope : q.scope = .inorder)
    {l : List ν} (h : ∃ enough, ∀ steps ≥ enough, Gives (collect none
      (((⟨t.atRest, s, steps⟩ : Finder Unit ν).walker q.rule q.anchor q.limit true).sweep steps
        q.collection q.anchor)) l) : t.Answers s (·.find q) l := by
  obtain ⟨enough, he⟩ := h
  refine ⟨enough, fun steps hsteps => gives_find ht rfl hs (fun _ => ?_) (absurd ha)⟩
  rw [hd]
  refine Gives.bind ?_ (gives_finish false l)
  rw [findOnward, hscope, show (q.traverse || Scope.inorder == .inorder) = true by simp]
  exact he steps hsteps

/-- A search all round finds the rest of the collection from the anchor on, and then what comes
before the anchor. -/
theorem answers_round (ht : t.IsForest) (hl : s.limit limit = 0)
    (hw : t.Within collection s.maxDepth) (hv : t.isValid x = true)
    (hx : t.Reaches collection x) (rule : Rule) (recurse traverse : Bool) :
    let q : Direction → Query ν := fun direction =>
      { collection, anchor := x, rule, scope := .inorder, direction, limit, recurse, traverse }
    ∃ all before after,
      t.Answers s (·.findAll collection rule .canonical limit true) all ∧
      all = before ++ (if x ≠ collection ∧ t.meets rule s x = true then [x] else []) ++ after ∧
      (∀ y ∈ before, t.Precedes y x) ∧ (∀ y ∈ after, t.Precedes x y) ∧
      t.Answers s (·.find (q .onward)) (after ++ before) ∧
      t.Answers s (·.find (q .back)) before ∧
      ((after ++ before).Nodup ∧ ∀ y, y ∈ after ++ before ↔
        (t.meets rule s y = true ∧ t.Below collection y) ∧ y ≠ x) ∧
      (x = collection → after ++ before = all) := by
  intro q
  have hw' : t.Within collection (s.maxDepth + 1) := hw.mono (Nat.le_succ _)
  have ha := anchors_of_reaches hw' hv hx
  let w := (⟨t.atRest, s, 0⟩ : Finder Unit ν).walker rule x limit true
  obtain ⟨all, hall, hlist⟩ := exists_findAll_within ht hl hw' rule
  rcases hx.eq_or_below with rfl | hb
  · obtain ⟨l, hlbelow, hsweep⟩ := w.exists_sweep_self rfl ht hl (fun _ => mayEnter_true) hw'
    -- From the collection itself a sweep is one walk, and nothing comes before.
    have hl' : all = l.filter (t.meets rule s) := ht.lists_unique hlist
      ((hlbelow.filter _).congr fun y => and_comm)
    have hafter : ∀ y ∈ all, t.Precedes collection y := fun y hy =>
      ((hlist.mem_iff y).1 hy).2.precedes
    have he : all = [] ++ (if collection ≠ collection ∧ t.meets rule s collection = true then
        [collection] else []) ++ all := by simp
    refine ⟨all, [], all, hall, he, by simp, hafter, ?_, answers_back_self ht rfl rfl hl rfl,
      ht.rotate_lists hlist he (by simp) hafter, by simp⟩
    rw [List.append_nil, hl']
    exact answers_sweep ht ha rfl rfl rfl hsweep
  · -- The list of what is below the collection is cut in two at the anchor.
    obtain ⟨l, r, hlr, hsweep⟩ := w.exists_sweep rfl ht hl (fun _ => mayEnter_true) hw hb
    replace hlr : t.Lists (l ++ x :: r) (t.Below collection) := hlr
    obtain ⟨hbefore, hafter⟩ := ht.lists_split hlr
    have hne : x ≠ collection := fun he => ht.below_irrefl (he ▸ hb)
    have he : all = l.filter (t.meets rule s) ++
        (if x ≠ collection ∧ t.meets rule s x = true then [x] else []) ++
          r.filter (t.meets rule s) := by
      rw [ht.lists_unique hlist ((hlr.filter _).congr fun y => and_comm), List.filter_append,
        List.filter_cons]
      cases hm : t.meets rule s x <;> simp [hne]
    have hbeforex : ∀ y ∈ l.filter (t.meets rule s), t.Precedes y x := fun y hy =>
      ((hbefore.mem_iff y).1 (List.mem_filter.1 hy).1).2
    have hafterx : ∀ y ∈ r.filter (t.meets rule s), t.Precedes x y := fun y hy =>
      ((hafter.mem_iff y).1 (List.mem_filter.1 hy).1).2
    refine ⟨all, _, _, hall, he, hbeforex, hafterx, ?_, ?_,
      ht.rotate_lists hlist he hbeforex hafterx, fun he => absurd he hne⟩
    · rw [← List.filter_append]
      exact answers_sweep ht ha rfl rfl rfl hsweep
    · -- A search back has a list of its own, which must be that of what comes before.
      obtain ⟨l', hback, hl'⟩ := exists_findBack (q := q .back) ht rfl rfl hl hw' hb
      have hboundary : t.boundary (q .back) = collection := if_neg fun h => h.1 rfl
      rw [hboundary] at hl'
      have henter : ((q .back).traverse || (q .back).scope == .inorder) = true := by simp [q]
      rw [ht.lists_unique (hbefore.filter (t.meets rule s)) (hl'.congr fun y => ?_)]
      · exact hback
      · simp only [henter, mayEnter_true, implies_true, and_true]
        rw [and_comm]

theorem answers_round_sample : sample.IsForest ∧ ({} : Settings).limit 0 = 0 ∧
    sample.Within 0 4096 ∧ sample.isValid 1 = true ∧ sample.Reaches 0 1 ∧
      ∃ all before after, sample.Answers {} (·.findAll 0 .anyObject .canonical 0 true) all ∧
        all = before ++ (if 1 ≠ 0 ∧ sample.meets .anyObject {} 1 = true then [1] else []) ++ after ∧
          sample.Answers {} (·.find { collection := 0, anchor := 1, scope := .inorder })
            (after ++ before) := by
  have hw : sample.Within 0 4096 := (sample_isForest.within_card).mono (by decide)
  have hx : sample.Reaches 0 1 := ⟨[0], rfl⟩
  have hl : Settings.limit {} 0 = 0 := rfl
  obtain ⟨all, before, after, hall, he, -, -, hround, -⟩ :=
    answers_round sample_isForest hl hw rfl hx .anyObject false true
  exact ⟨sample_isForest, rfl, hw, rfl, hx, all, before, after, hall, he, hround⟩

example : ((Finder.find ⟨sample.atRest, {}, 9⟩
    { collection := 0, anchor := 2, scope := .inorder }).run ⟨(), #[]⟩).1 =
      some [3, 1] := by decide +kernel

end Finder

end AccessTree
