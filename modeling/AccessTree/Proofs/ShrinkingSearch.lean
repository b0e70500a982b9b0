import AccessTree.Proofs.ForwardSearch
import AccessTree.Proofs.MoreSteps
import AccessTree.Proofs.Shrinking
import AccessTree.Proofs.Tracking
import AccessTree.Proofs.WalkInquiries

/-!
Searching a registry that shrinks meanwhile. A walk knows its place in a list of children by number
only. As the list has at most lost members, what comes from there on is part of what came from there
on in the beginning, and what lies below it then is part of what lay below it. So the walk
ends, and what it finds is in the document order of the beginning.
-/

namespace AccessTree

open Search

variable {α β : Type} {schedule : Nat → List Registry.Edit}

namespace Inquiry

/-- The registry at most shrinks while this is found out. -/
def Shrinking (x : Inquiry (Registry × Nat) ObjectId α) : Prop :=
  ∀ s : Logged (Registry × Nat) (Event ObjectId), s.state.1.Shrinks (x s).2.state.1

lemma shrinking_note (n : Notice ObjectId) :
    Shrinking (note n : Inquiry (Registry × Nat) ObjectId Unit) := fun s => .refl s.state.1

lemma closed_shrinking :
    Closed fun _ (x : Inquiry (Registry × Nat) ObjectId _) => Shrinking x where
  answer _ := fun s => Registry.Shrinks.refl s.state.1
  next hx hf := fun s => (hx s).trans (hf _ _)

lemma shrinking_ask (hs : ∀ k, ∀ e ∈ schedule k, e.shrinks = true) (q : Question ObjectId) :
    Shrinking (ask (Registry.live schedule) q) := fun s => Registry.shrinks_edited (hs s.state.2)

/-- An answer is that of the registry after the edits that come before the question. -/
lemma ask_live (q : Question ObjectId) (s : Logged (Registry × Nat) (Event ObjectId)) :
    (ask (Registry.live schedule) q s).1 =
      (ask (Registry.live schedule) q s).2.state.1.tree q := rfl

end Inquiry

namespace Walker

/-- The registry at a point of a walk. -/
abbrev registry (k : Walk (Registry × Nat) ObjectId) : Registry := k.asked.state.1

/-- An end that a walk from a point comes to when it has found so much more, with steps left. -/
def Ended (k : Walk (Registry × Nat) ObjectId) (new : List ObjectId) :
    EStateM.Result Walk.Halt (Walk (Registry × Nat) ObjectId) Unit → Prop
  | .ok _ k' => (registry k).Shrinks (registry k') ∧ k'.found = k.found ++ new.toArray
  | .error e k' => e = .broken ∧ k'.found = k.found ++ new.toArray

/-- From a point on, a walk comes to an end and finds part of a list, in its order. -/
def Finds (x : WalkM (Registry × Nat) ObjectId Unit) (k : Walk (Registry × Nat) ObjectId)
    (l : List ObjectId) : Prop := ∃ new : List ObjectId, new.Sublist l ∧ Ended k new (x k)

variable {x : WalkM (Registry × Nat) ObjectId Unit} {k k' : Walk (Registry × Nat) ObjectId}
  {l l' new new' : List ObjectId}

lemma Ended.after {r : EStateM.Result Walk.Halt (Walk (Registry × Nat) ObjectId) Unit}
    (h : Ended k' new' r) (hk : (registry k).Shrinks (registry k'))
    (hfound : k'.found = k.found ++ new.toArray) : Ended k (new ++ new') r := by
  have happend : k'.found ++ new'.toArray = k.found ++ (new ++ new').toArray := by simp [hfound]
  cases r with
  | ok _ k₂ => exact ⟨hk.trans h.1, h.2.trans happend⟩
  | error e k₂ => exact ⟨h.1, h.2.trans happend⟩

lemma finds_pure : Finds (pure ()) k l := ⟨[], List.nil_sublist l, .refl _, by simp⟩

lemma finds_broken : Finds (throw .broken) k l := ⟨[], List.nil_sublist l, rfl, by simp⟩

lemma Finds.mono (h : Finds x k l) (hl : l.Sublist l') : Finds x k l' := by
  obtain ⟨new, hnew, hx⟩ := h
  exact ⟨new, hnew.trans hl, hx⟩

/-- What one walk finds and what the next one finds from there come one after the other. -/
lemma Finds.bind_of_ok {f : Unit → WalkM (Registry × Nat) ObjectId Unit} (h : Finds x k l)
    (hf : ∀ k', (registry k).Shrinks (registry k') → x k = .ok () k' → Finds (f ()) k' l') :
    Finds (x >>= f) k (l ++ l') := by
  obtain ⟨new, hnew, hx⟩ := h
  unfold Finds
  rw [WalkM.bind_apply]
  cases hxk : x k with
  | ok _ k₁ =>
    rw [hxk] at hx
    obtain ⟨hshrinks, hfound⟩ := hx
    obtain ⟨new', hnew', hfk⟩ := hf k₁ hshrinks hxk
    exact ⟨new ++ new', hnew.append hnew', hfk.after hshrinks hfound⟩
  | error e k₁ =>
    rw [hxk] at hx
    exact ⟨new, hnew.trans (List.sublist_append_left l l'), hx⟩

lemma Finds.bind {f : Unit → WalkM (Registry × Nat) ObjectId Unit} (h : Finds x k l)
    (hf : ∀ k', (registry k).Shrinks (registry k') → Finds (f ()) k' l') :
    Finds (x >>= f) k (l ++ l') :=
  h.bind_of_ok fun k' hk' _ => hf k' hk'

lemma finds_ask {q : Inquiry (Registry × Nat) ObjectId α}
    {f : α → WalkM (Registry × Nat) ObjectId Unit} (hq : Inquiry.Shrinking q)
    (hf : Finds (f (q k.asked).1) { k with asked := (q k.asked).2 } l) :
    Finds (liftM q >>= f) k l := by
  obtain ⟨new, hnew, hfk⟩ := hf
  have hstart : Ended k [] (.ok () { k with asked := (q k.asked).2 }) := ⟨hq k.asked, by simp⟩
  exact ⟨new, hnew, hfk.after hstart.1 hstart.2⟩

lemma finds_isStop {n : ObjectId} {f : Bool → WalkM (Registry × Nat) ObjectId Unit}
    (hf : ∀ stopped, Finds (f stopped) k l) : Finds (WalkM.isStop n >>= f) k l :=
  hf (k.stop == some n)

variable {w : Walker (Registry × Nat) ObjectId} (hw : w.tree = Registry.live schedule)
include hw

/-- Every object of a registry is a collection, so only the traverse flag counts. -/
lemma enters_live (n : ObjectId) (s : Logged (Registry × Nat) (Event ObjectId)) :
    (w.enters n s).1 = w.traverse := by
  unfold enters
  cases w.traverse
  · have hanswer : (w.ask (.isCollection n) s).1 = true := by
      rw [ask, hw, Inquiry.ask_live]
      exact Registry.tree_isCollection
    change (!(w.ask (.isCollection n) s).1) = false
    rw [hanswer]
    rfl
  · rfl

variable (hs : ∀ k, ∀ e ∈ schedule k, e.shrinks = true)
include hs

lemma shrinking_ask (q : Question ObjectId) : Inquiry.Shrinking (w.ask q) := by
  rw [ask, hw]
  exact Inquiry.shrinking_ask hs q

lemma shrinking_enters (n : ObjectId) : Inquiry.Shrinking (w.enters n) :=
  Inquiry.closed_shrinking.enters (shrinking_ask hw hs) n

lemma shrinking_nextChild (n : ObjectId) (index : Nat) :
    Inquiry.Shrinking (w.nextChild n index) :=
  Inquiry.closed_shrinking.nextChild (shrinking_ask hw hs) n index

lemma shrinking_previous (n : ObjectId) : Inquiry.Shrinking (w.previous n) :=
  Inquiry.closed_shrinking.previous (shrinking_ask hw hs) Inquiry.shrinking_note n

lemma shrinking_encloses (collection n : ObjectId) : Inquiry.Shrinking (w.encloses collection n) :=
  Inquiry.closed_shrinking.encloses (shrinking_ask hw hs) Inquiry.shrinking_note collection n

omit hs in
/-- The next child is the one in the place after the edits that come before the question for it. -/
lemma nextChild_live {n child : ObjectId} {index : Nat}
    {s : Logged (Registry × Nat) (Event ObjectId)} (h : (w.nextChild n index s).1 = some child) :
    ((w.nextChild n index s).2.state.1.childrenOf n)[index]? = some child := by
  obtain ⟨s', hs'⟩ : ∃ s', s' = (Inquiry.ask (Registry.live schedule) (.childCount n) s).2 :=
    ⟨_, rfl⟩
  -- Two questions are asked, and the registry may change before each. The child is read from what
  -- it is after the second change.
  have hnext : w.nextChild n index s =
      (if index < (Inquiry.ask (Registry.live schedule) (.childCount n) s).1 then
        Inquiry.ask (Registry.live schedule) (.childAt n index)
      else pure none : Inquiry (Registry × Nat) ObjectId _) s' := by
    rw [hs', nextChild]
    simp only [ask, hw]
    rfl
  rw [hnext] at h ⊢
  by_cases hi : index < (Inquiry.ask (Registry.live schedule) (.childCount n) s).1
  · rw [if_pos hi] at h ⊢
    rw [Inquiry.ask_live] at h
    rw [← h]
    exact Registry.tree_childAt.symm
  · rw [if_neg hi] at h
    cases h

lemma finds_visit (n : ObjectId) : Finds (w.visit n) k [n] := by
  have haccepts : (registry k).Shrinks (w.accepts n k.asked).2.state.1 := by
    rw [accepts, hw]
    exact Inquiry.closed_shrinking.accepts (fun q _ => Inquiry.shrinking_ask hs q) k.asked
  unfold Finds
  rw [visit_apply]
  by_cases hfull : w.isFull k.found = true
  · rw [if_pos hfull]
    exact ⟨[], List.nil_sublist _, rfl, by simp⟩
  by_cases hn : n = w.anchor
  · rw [if_neg hfull, if_pos hn]
    exact ⟨[], List.nil_sublist _, .refl _, by simp⟩
  rw [if_neg hfull, if_neg hn]
  rcases ha : w.accepts n k.asked with ⟨_ | _, asked⟩ <;> rw [ha] at haccepts
  · exact ⟨[], List.nil_sublist _, haccepts, by simp⟩
  · refine ⟨[n], .refl _, ?_⟩
    dsimp only
    rw [checkLimit_apply]
    split
    · exact ⟨rfl, by simp⟩
    · exact ⟨haccepts, by simp⟩

omit hw hs in
lemma exists_below (kids : ObjectId → List ObjectId) (levels : Nat) (n : ObjectId) :
    ∃ below, AccessTree.branch kids levels n = n :: below ∧
      ∀ next, levels = next + 1 → below = (kids n).flatMap (AccessTree.branch kids next) := by
  cases levels with
  | zero => exact ⟨[], rfl, nofun⟩
  | succ levels =>
    refine ⟨_, rfl, fun next he => ?_⟩
    cases he
    rfl

lemma finds_atChild {depth : Nat} {child : ObjectId} {below after : List ObjectId}
    {x y : WalkM (Registry × Nat) ObjectId Unit}
    (hx : ∀ k', (registry k).Shrinks (registry k') → w.traverse = true → ¬ w.maxDepth ≤ depth →
      Finds x k' below)
    (hy : ∀ k', (registry k).Shrinks (registry k') → Finds y k' after) :
    Finds (w.atChild depth child x y) k (child :: below ++ after) := by
  refine finds_isStop fun stopped => ?_
  -- What lies below the child and what comes after it are both searched in a registry that has
  -- shrunk.
  cases stopped
  · refine (finds_visit hw hs child).bind fun k₁ hk₁ => finds_ask (shrinking_enters hw hs child) ?_
    obtain ⟨k₂, hk₂⟩ : ∃ k₂ : Walk (Registry × Nat) ObjectId,
      { k₁ with asked := (w.enters child k₁.asked).2 } = k₂ := ⟨_, rfl⟩
    have hshrinks : (registry k).Shrinks (registry k₂) := by
      rw [← hk₂]
      exact hk₁.trans (shrinking_enters hw hs child k₁.asked)
    rw [enters_live hw, hk₂]
    by_cases ht : w.traverse = true
    · rw [if_pos ht]
      by_cases hdeep : w.maxDepth ≤ depth
      · rw [if_pos hdeep]
        refine Finds.mono (l := after) ?_ (List.sublist_append_right below after)
        exact finds_ask (Inquiry.shrinking_note _) (hy _ hshrinks)
      · rw [if_neg hdeep]
        exact (hx k₂ hshrinks ht hdeep).bind fun k₃ hk₃ => hy k₃ (hshrinks.trans hk₃)
    · rw [if_neg ht]
      exact (hy k₂ hshrinks).mono (List.sublist_append_right below after)
  · exact finds_ask (Inquiry.shrinking_note _) finds_broken

/-- A walk on from a place finds part of the branches of what may still come. Each object in them
allows one step, so the steps are enough. -/
theorem finds_forwardFrom {kids : ObjectId → List ObjectId} {steps levels depth index : Nat}
    {container : ObjectId} {rest : List ObjectId} (hd : depth + levels = w.maxDepth)
    (hkids : w.traverse = true → ∀ n, ((registry k).childrenOf n).Sublist (kids n))
    (hrest : (((registry k).childrenOf container).drop index).Sublist rest)
    (hsteps : (rest.flatMap (AccessTree.branch kids levels)).length < steps) :
    Finds (w.forwardFrom steps depth container index) k
      (rest.flatMap (AccessTree.branch kids levels)) := by
  induction steps generalizing levels depth index container rest k with
  | zero => omega
  | succ steps ih =>
    rw [forwardFrom_succ]
    refine finds_ask (shrinking_nextChild hw hs container index) ?_
    have hshrinks := shrinking_nextChild hw hs container index k.asked
    cases hchild : (w.nextChild container index k.asked).1 with
    | none => exact finds_pure
    | some child =>
      have hplace := nextChild_live hw hchild
      obtain ⟨k', hk'⟩ : ∃ k' : Walk (Registry × Nat) ObjectId,
        { k with asked := (w.nextChild container index k.asked).2 } = k' := ⟨_, rfl⟩
      have hreg : (w.nextChild container index k.asked).2.state.1 = registry k' := by rw [← hk']
      rw [hreg] at hshrinks hplace
      rw [hk']
      -- The child is one of those that may still come. Those before it have been passed over, and
      -- each of them leaves a step unused.
      obtain ⟨before, after, rfl, hafter⟩ := hshrinks.exists_rest hrest hplace
      obtain ⟨below, hbelow, hnext⟩ := exists_below kids levels child
      simp only [List.flatMap_append, List.flatMap_cons, hbelow, List.length_append,
        List.length_cons] at hsteps ⊢
      refine Finds.mono ?_ (List.sublist_append_right _ _)
      refine finds_atChild hw hs (fun k₂ hk₂ ht hdeep => ?_) fun k₂ hk₂ => ?_
      · obtain ⟨next, rfl⟩ := Nat.exists_eq_succ_of_ne_zero (by omega : levels ≠ 0)
        obtain rfl := hnext next rfl
        have hkids₂ : ∀ n, ((registry k₂).childrenOf n).Sublist (kids n) := fun n =>
          ((hshrinks.trans hk₂) n).trans (hkids ht n)
        exact ih (by omega) (fun _ => hkids₂) (hkids₂ child) (by omega)
      · refine ih hd (fun ht n => ?_) (((hk₂ container).drop (index + 1)).trans hafter) (by omega)
        exact ((hshrinks.trans hk₂) n).trans (hkids ht n)

end Walker

/-- What a walk finds is what the search that makes it collects. -/
lemma Search.exists_collect_of_finds {x : WalkM (Registry × Nat) ObjectId Unit}
    {s : Logged (Registry × Nat) (Event ObjectId)} {stop : Option ObjectId} {l : List ObjectId}
    (h : Walker.Finds x { asked := s, stop } l) :
    ∃ new, (collect stop x s).1 = some new ∧ new.Sublist l := by
  obtain ⟨new, hnew, hend⟩ := h
  refine ⟨new, ?_, hnew⟩
  unfold collect
  cases hx : x { asked := s, stop } with
  | ok a k =>
    rw [hx] at hend
    have hfound : k.found.toList = new := by simp [hend.2]
    exact congrArg some hfound
  | error e k =>
    rw [hx] at hend
    obtain ⟨rfl, hfound⟩ := hend
    have hfound : k.found.toList = new := by simp [hfound]
    exact congrArg some hfound

namespace Finder

/-- Without a rule and a limit, a search of a forest at rest finds all it comes to. -/
lemma answers_findAll_anyObject {ν : Type} [DecidableEq ν] {t : Tree ν} (ht : t.IsForest)
    (s : Settings) (collection : ν) (traverse : Bool) :
    t.Answers { s with maxResults := 0 } (·.findAll collection .anyObject .canonical 0 traverse)
      ((t.childrenFrom collection 0).flatMap
        (branch (t.kids (t.mayEnter traverse)) s.maxDepth)) := by
  let w : Walker Unit ν :=
    walker ⟨t.atRest, { s with maxResults := 0 }, 0⟩ .anyObject collection 0 traverse
  have hlimit : w.limit = 0 := Settings.limit_eq_zero_iff.2 ⟨rfl, rfl⟩
  obtain ⟨enough, hgives⟩ := w.gives_forward rfl hlimit collection 0
  have hkeeps : ((t.childrenFrom collection 0).flatMap (w.branch t w.maxDepth)).filter (w.keeps t) =
      (t.childrenFrom collection 0).flatMap (w.branch t w.maxDepth) := by
    refine List.filter_eq_self.2 fun y hy => ?_
    obtain ⟨i, ps, -, hps, -⟩ := (ht.lists_flatMap_branch.mem_iff y).1 hy
    have hbelow : t.Below collection y := ⟨i, ps, hps⟩
    have hne : y ≠ collection := fun he => ht.below_irrefl (he ▸ hbelow)
    have hvalid : t.isValid y = true := (ht.valid_of_below hbelow).2
    simp [Walker.keeps, w, walker, Tree.meets_anyObject, hne, hvalid]
  rw [hkeeps] at hgives
  exact ⟨enough, fun steps hs => (hgives steps hs).bind (gives_finish false _)⟩

/-- Once a walk finds part of a list, so does the search that makes it. -/
lemma exists_findAll_of_finds {f : Finder (Registry × Nat) ObjectId} {collection : ObjectId}
    {rule : Rule} {limit : Nat} {traverse : Bool} {s : Logged (Registry × Nat) (Event ObjectId)}
    {all : List ObjectId} (h : Walker.Finds ((f.walker rule collection limit traverse).forward
      f.steps collection 0) { asked := s } all) :
    ∃ l, (f.findAll collection rule .canonical limit traverse s).1 = some l ∧ l.Sublist all := by
  obtain ⟨new, hcollect, hnew⟩ := exists_collect_of_finds h
  refine ⟨new, ?_, hnew⟩
  change ((collect none ((f.walker rule collection limit traverse).forward f.steps collection 0) >>=
    finish false) s).1 = some new
  rw [Search.bind_apply]
  rcases hk : collect none ((f.walker rule collection limit traverse).forward f.steps collection 0)
    s with ⟨_ | l, s'⟩ <;> rw [hk] at hcollect <;> cases hcollect
  rfl

/-- The search for the objects of a collection ends while the registry shrinks, and it finds some of
the objects that are there in the beginning, in their order. -/
theorem findAll_while_shrinking (edits : List Registry.Edit) (schedule : Nat → List Registry.Edit)
    (h : ∀ k, ∀ e ∈ schedule k, e.shrinks = true) (s : Settings) (collection : ObjectId)
    (rule : Rule) (limit : Nat) (traverse : Bool) (log : Array (Event ObjectId)) :
    ∃ all l, (Registry.run edits).tree.Answers { s with maxResults := 0 }
        (·.findAll collection .anyObject .canonical 0 traverse) all ∧
      (∃ enough, ∀ steps ≥ enough,
        (findAll ⟨Registry.live schedule, s, steps⟩ collection rule .canonical limit traverse
          ⟨(Registry.run edits, 0), log⟩).1 = some l) ∧
      l.Sublist all ∧ l.Nodup := by
  have hsound := Registry.sound_run edits
  generalize Registry.run edits = r at hsound
  have ht := hsound.isForest
  let all := (r.tree.childrenFrom collection 0).flatMap
    (branch (r.tree.kids (r.tree.mayEnter traverse)) s.maxDepth)
  let f : Finder (Registry × Nat) ObjectId := ⟨Registry.live schedule, s, all.length + 1⟩
  have hkids : ∀ n, r.tree.childrenFrom n 0 = r.childrenOf n := hsound.kids_tree
  -- As many steps as there are objects to come are enough, and one more to see that there are none.
  have hfinds : Walker.Finds
      ((f.walker rule collection limit traverse).forward f.steps collection 0)
      { asked := ⟨(r, 0), log⟩ } all := by
    refine Walker.finds_forwardFrom rfl h (Nat.zero_add s.maxDepth) (fun htraverse n => ?_) ?_
      (Nat.lt_succ_self _)
    · have hopen : traverse = true := htraverse
      rw [hopen]
      exact (hsound.kids_tree n).symm ▸ .refl _
    · rw [hkids]
      exact .refl _
  obtain ⟨l, hl, hsublist⟩ := exists_findAll_of_finds hfinds
  refine ⟨all, l, answers_findAll_anyObject ht s collection traverse,
    ⟨all.length + 1, fun steps hsteps => ?_⟩, hsublist,
    (ht.nodup_of_lists ht.lists_flatMap_branch).sublist hsublist⟩
  have hmore := extends_findAll (f := f) hsteps collection rule .canonical limit traverse
  rw [← hl]
  exact congrArg Prod.fst (hmore.eq hl)

/-- A first child that goes leaves its place to the second one, and the search passes that over. -/
theorem findAll_while_shrinking_sample : (∀ k, ∀ e ∈ Registry.loss k, e.shrinks = true) ∧
    (findAll ⟨Registry.live Registry.loss, {}, 9⟩ ⟨1, 1⟩ .anyObject .canonical 0 true
      ⟨(Registry.run Registry.family, 0), #[]⟩).1 = some [⟨2, 1⟩, ⟨4, 1⟩] ∧
    ∃ all l, (Registry.run Registry.family).tree.Answers {}
        (·.findAll ⟨1, 1⟩ .anyObject .canonical 0 true) all ∧
      (∃ enough, ∀ steps ≥ enough,
        (findAll ⟨Registry.live Registry.loss, {}, steps⟩ ⟨1, 1⟩ .anyObject .canonical 0 true
          ⟨(Registry.run Registry.family, 0), #[]⟩).1 = some l) ∧
      l.Sublist all ∧ l.Nodup := by
  have hloss : ∀ k, ∀ e ∈ Registry.loss k, e.shrinks = true := by
    intro k e he
    unfold Registry.loss at he
    split at he
    · rw [List.mem_singleton.1 he]
      rfl
    · cases he
  exact ⟨hloss, by decide +kernel,
    findAll_while_shrinking Registry.family Registry.loss hloss {} ⟨1, 1⟩ .anyObject 0 true #[]⟩

end Finder

end AccessTree
