import AccessTree.Proofs.ChangingTree
import AccessTree.Proofs.Limits
import AccessTree.Proofs.Lockstep

/-!
Searches of a tree that changes all the time. Every object that is found was visited once, and right
then it was there and met the rule. The anchor is not found, the limit holds, and a sort that
cannot be given finds nothing.
-/

namespace AccessTree

open WalkM

variable {ν α β : Type}

/-- A look at an object, with what had been asked before it and after it. -/
structure Visit (ν : Type) where
  node : ν
  before : List (Question ν)
  after : List (Question ν)

/-- At that time the object was there, and then it met the rule. -/
structure Visit.Accepted (view : List (Question ν) → Tree ν) (rule : Rule) (s : Settings)
    (v : Visit ν) : Prop where
  asked : v.before ++ [.isValid v.node] <+: v.after
  valid : (view v.before).isValid v.node = true
  met : ∃ log log', rule.accepts s (.ofPast view) v.node ⟨v.before, log⟩ = (true, ⟨v.after, log'⟩)

/-- Visits by a search, one after the other, of objects that it keeps. -/
structure Account (view : List (Question ν) → Tree ν) (rule : Rule) (s : Settings) (anchor : ν)
    (limit : Nat) (past : List (Question ν)) (visits : List (Visit ν)) : Prop where
  accepted : ∀ v ∈ visits, v.Accepted view rule s
  ne_anchor : ∀ v ∈ visits, v.node ≠ anchor
  ordered : visits.Pairwise fun v v' => v.after <+: v'.before
  done : ∀ v ∈ visits, v.after <+: past
  limited : limit ≠ 0 → visits.length ≤ limit

variable {view : List (Question ν) → Tree ν} {rule : Rule} {s : Settings} {anchor : ν}
  {limit : Nat} {past past' : List (Question ν)} {visits : List (Visit ν)}

namespace Account

lemma nil : Account view rule s anchor limit past [] where
  accepted _ hv := absurd hv List.not_mem_nil
  ne_anchor _ hv := absurd hv List.not_mem_nil
  ordered := .nil
  done _ hv := absurd hv List.not_mem_nil
  limited _ := Nat.zero_le limit

lemma mono (h : Account view rule s anchor limit past visits) (hp : past <+: past') :
    Account view rule s anchor limit past' visits :=
  ⟨h.accepted, h.ne_anchor, h.ordered, fun v hv => (h.done v hv).trans hp, h.limited⟩

/-- A visit that began after the others ended is the last one. -/
lemma snoc (h : Account view rule s anchor limit past visits) {v : Visit ν}
    (hbefore : v.before = past) (hv : v.Accepted view rule s) (hne : v.node ≠ anchor)
    (hl : limit ≠ 0 → visits.length < limit) :
    Account view rule s anchor limit v.after (visits ++ [v]) where
  accepted u hu := by
    rcases List.mem_append.1 hu with hu | hu
    · exact h.accepted u hu
    · exact List.mem_singleton.1 hu ▸ hv
  ne_anchor u hu := by
    rcases List.mem_append.1 hu with hu | hu
    · exact h.ne_anchor u hu
    · exact List.mem_singleton.1 hu ▸ hne
  ordered := by
    refine List.pairwise_append.2 ⟨h.ordered, List.pairwise_singleton _ _, fun u hu u' hu' => ?_⟩
    rw [List.mem_singleton.1 hu', hbefore]
    exact h.done u hu
  done u hu := by
    rcases List.mem_append.1 hu with hu | hu
    · exact (hbefore ▸ h.done u hu).trans ((List.prefix_append _ _).trans hv.asked)
    · rw [List.mem_singleton.1 hu]
  limited hne := by
    have := hl hne
    rw [List.length_append, List.length_singleton]
    omega

end Account

/-! ### Walks -/

namespace Walker

/-- What is found is told by visits, and nothing was looked for out of range. -/
def Told (w : Walker (List (Question ν)) ν) (view : List (Question ν) → Tree ν)
    (k : Walk (List (Question ν)) ν) : Prop :=
  InRange view k.asked.state ∧ ∃ visits : List (Visit ν), visits.map (·.node) = k.found.toList ∧
    Account view w.rule w.settings w.anchor w.limit k.asked.state visits

/-- Whatever happens in a walk, it stays told. -/
def KeepsTold (w : Walker (List (Question ν)) ν) (view : List (Question ν) → Tree ν)
    (x : WalkM (List (Question ν)) ν α) : Prop :=
  ∀ k, w.Told view k → match x k with
    | .ok _ k' | .error _ k' => w.Told view k'

variable {w : Walker (List (Question ν)) ν} {x : WalkM (List (Question ν)) ν α}
  {f : α → WalkM (List (Question ν)) ν β} {k : Walk (List (Question ν)) ν}

lemma Told.continues (h : w.Told view k) {asked : Logged (List (Question ν)) (Event ν)}
    (hc : Continues view k.asked.state asked.state) : w.Told view { k with asked } := by
  obtain ⟨hr, visits, hnodes, ha⟩ := h
  exact ⟨hc.inRange hr, visits, hnodes, ha.mono hc.isPrefix⟩

lemma keepsTold_pure (a : α) : w.KeepsTold view (pure a) := fun _ h => h

lemma keepsTold_throw (e : Walk.Halt) :
    w.KeepsTold view (throw e : WalkM (List (Question ν)) ν α) := fun _ h => h

lemma keepsTold_stopAt (stop : Option ν) : w.KeepsTold view (stopAt stop) := fun _ h => h

lemma keepsTold_isStop [DecidableEq ν] (n : ν) : w.KeepsTold view (isStop n) := fun _ h => h

lemma keepsTold_ask {q : Inquiry (List (Question ν)) ν α}
    (hq : ∀ past, Inquiry.Careful view past q) : w.KeepsTold view (liftM q) := fun k h =>
  h.continues (hq k.asked.state k.asked.log)

lemma KeepsTold.bind (h : w.KeepsTold view x) (hf : ∀ a, w.KeepsTold view (f a)) :
    w.KeepsTold view (x >>= f) := by
  intro k hk
  have hx := h k hk
  rw [WalkM.bind_apply]
  cases hxk : x k with
  | ok a k' =>
    rw [hxk] at hx
    exact hf a k' hx
  | error e k' =>
    rw [hxk] at hx
    exact hx

lemma keepsTold_checkLimit : w.KeepsTold view w.checkLimit := by
  intro k h
  rw [checkLimit_apply]
  by_cases hfull : w.isFull k.found = true
  · rw [if_pos hfull]
    exact h
  · rw [if_neg hfull]
    exact h

variable (hw : w.tree = .ofPast view)
include hw

lemma continues_accepts (n : ν) (asked : Logged (List (Question ν)) (Event ν)) :
    Continues view asked.state (w.accepts n asked).2.state := by
  rw [accepts, hw]
  exact Rule.careful_accepts asked.log

/-- An object is kept right after it is accepted, and only while there is room. -/
lemma Told.keep (h : w.Told view k) {n : ν} (hn : n ≠ w.anchor) (hfull : ¬ w.isFull k.found = true)
    {asked : Logged (List (Question ν)) (Event ν)} (ha : w.accepts n k.asked = (true, asked)) :
    w.Told view { k with asked, found := k.found.push n } := by
  obtain ⟨hr, visits, hnodes, hvisits⟩ := h
  have hcontinues := continues_accepts hw n k.asked
  rw [ha] at hcontinues
  rw [accepts, hw] at ha
  obtain ⟨hvalid, hasked⟩ := Rule.valid_of_accepts (congrArg Prod.fst ha)
  rw [ha] at hasked
  let v : Visit ν := ⟨n, k.asked.state, asked.state⟩
  have haccepted : v.Accepted view w.rule w.settings := ⟨hasked, hvalid, _, _, ha⟩
  have hroom : w.limit ≠ 0 → visits.length < w.limit := by
    intro hne
    have hsize : visits.length = k.found.size := by simpa using congrArg List.length hnodes
    simp [isFull, hne] at hfull
    omega
  refine ⟨hcontinues.inRange hr, visits ++ [v], ?_, hvisits.snoc rfl haccepted hn hroom⟩
  simp [hnodes, v]

/-! ### Steps -/

variable [DecidableEq ν]

lemma keepsTold_visit (n : ν) : w.KeepsTold view (w.visit n) := by
  intro k h
  rw [visit_apply]
  by_cases hfull : w.isFull k.found = true
  · rw [if_pos hfull]
    exact h
  by_cases hn : n = w.anchor
  · rw [if_neg hfull, if_pos hn]
    exact h
  rw [if_neg hfull, if_neg hn]
  have hcontinues := continues_accepts hw n k.asked
  rcases ha : w.accepts n k.asked with ⟨_ | _, asked⟩
  · rw [ha] at hcontinues
    exact h.continues hcontinues
  · exact keepsTold_checkLimit _ (h.keep hw hn hfull ha)

/-- Walks are told as long as each of their steps is. -/
theorem lockstep_keepsTold : w.Lockstep (fun _ x _ => w.KeepsTold view x) w where
  maxDepth := Nat.le_refl w.maxDepth
  tooDeep hlt := absurd hlt (Nat.lt_irrefl w.maxDepth)
  answer := keepsTold_pure
  next h hf := h.bind hf
  broken := keepsTold_throw .broken
  exhausted _ := keepsTold_throw .exhausted
  stopAt := keepsTold_stopAt
  isStop := keepsTold_isStop
  visit := keepsTold_visit hw
  note m := keepsTold_ask fun _ => Inquiry.careful_note m
  parent _ := keepsTold_ask (careful_ask_of_ne hw nofun)
  indexInParent _ := keepsTold_ask (careful_ask_of_ne hw nofun)
  enters _ := keepsTold_ask fun _ => careful_enters hw
  nextChild _ _ := keepsTold_ask fun _ => careful_nextChild hw
  encloses collection _ := keepsTold_ask fun _ => careful_encloses hw collection
  previous _ := keepsTold_ask fun _ => careful_previous hw

end Walker

/-! ### Searches -/

namespace Search

/-- The search looks for nothing out of range, and what it finds is made of the objects of
visits. -/
def Accounts (view : List (Question ν) → Tree ν) (rule : Rule) (s : Settings) (anchor : ν)
    (limit : Nat) (made : List ν → List ν)
    (x : Search (List (Question ν)) ν (List ν)) : Prop :=
  ∀ past log, InRange view past → InRange view (x ⟨past, log⟩).2.state ∧
    ∀ l, (x ⟨past, log⟩).1 = some l → ∃ visits : List (Visit ν), l = made (visits.map (·.node)) ∧
      Account view rule s anchor limit (x ⟨past, log⟩).2.state visits

variable {made : List ν → List ν} {x : Search (List (Question ν)) ν (List ν)}

lemma accounts_nil (h : made [] = []) :
    Accounts view rule s anchor limit made (pure []) := fun _ _ hr =>
  ⟨hr, fun _ hl => ⟨[], (Option.some.inj hl).symm.trans h.symm, .nil⟩⟩

lemma accounts_lift {q : Inquiry (List (Question ν)) ν α}
    {f : α → Search (List (Question ν)) ν (List ν)} (hq : ∀ past, Inquiry.Careful view past q)
    (hf : ∀ a, Accounts view rule s anchor limit made (f a)) :
    Accounts view rule s anchor limit made (OptionT.lift q >>= f) := fun past log hr =>
  hf (q ⟨past, log⟩).1 _ (q ⟨past, log⟩).2.log ((hq past log).inRange hr)

lemma accounts_ask {q : Question ν} {f : q.Answer → Search (List (Question ν)) ν (List ν)}
    (hq : ∀ n i, q ≠ .childAt n i) (hf : ∀ a, Accounts view rule s anchor limit made (f a)) :
    Accounts view rule s anchor limit made (ask (.ofPast view) q >>= f) :=
  accounts_lift (Inquiry.careful_of_ne hq) hf

lemma accounts_note (n : Notice ν) (hx : Accounts view rule s anchor limit made x) :
    Accounts view rule s anchor limit made (note n >>= fun _ => x) :=
  accounts_lift (fun _ => Inquiry.careful_note n) fun _ => hx

lemma accounts_finish (reverse : Bool) (hx : Accounts view rule s anchor limit id x) :
    Accounts view rule s anchor limit (fun l => if reverse then l.reverse else l)
      (x >>= finish reverse) := by
  intro past log hr
  obtain ⟨hr', hvisits⟩ := hx past log hr
  rw [bind_apply]
  rcases hxs : x ⟨past, log⟩ with ⟨_ | l, asked⟩
  · rw [hxs] at hr'
    exact ⟨hr', nofun⟩
  · rw [hxs] at hr' hvisits
    obtain ⟨visits, rfl, ha⟩ := hvisits l rfl
    exact ⟨hr', fun l hl => ⟨visits, (Option.some.inj hl).symm, ha⟩⟩

lemma accounts_collect {w : Walker (List (Question ν)) ν} {x : WalkM (List (Question ν)) ν Unit}
    (h : w.KeepsTold view x) (stop : Option ν) :
    Accounts view w.rule w.settings w.anchor w.limit id (collect stop x) := by
  intro past log hr
  have hx := h { asked := ⟨past, log⟩, stop } ⟨hr, [], rfl, .nil⟩
  unfold collect
  rcases hxk : x { asked := ⟨past, log⟩, stop } with ⟨a, k⟩ | ⟨e, k⟩
  · rw [hxk] at hx
    obtain ⟨hr', visits, hnodes, ha⟩ := hx
    exact ⟨hr', fun l hl => ⟨visits, (Option.some.inj hl).symm.trans hnodes.symm, ha⟩⟩
  · rw [hxk] at hx
    obtain ⟨hr', visits, hnodes, ha⟩ := hx
    cases e with
    | broken => exact ⟨hr', fun l hl => ⟨visits, (Option.some.inj hl).symm.trans hnodes.symm, ha⟩⟩
    | exhausted => exact ⟨hr', nofun⟩

end Search

open Search

/-- What can be said of the objects found in a tree that changes all the time. -/
structure Justified (view : List (Question ν) → Tree ν) (rule : Rule) (s : Settings) (anchor : ν)
    (limit : Nat) (sort : SortOrder) (direction : Direction) (past : List (Question ν))
    (l : List ν) : Prop where
  ne_anchor : anchor ∉ l
  limited : s.limit limit ≠ 0 → l.length ≤ s.limit limit
  unsupported : sort.reversed? = none → l = []
  /-- The objects are those of visits, each over before the next one began, and all of them over in
  the end. -/
  visited : ∃ visits : List (Visit ν), l = sort.arrange direction (visits.map (·.node)) ∧
    (∀ v ∈ visits, v.Accepted view rule s ∧ v.after <+: past) ∧
      visits.Pairwise fun v v' => v.after <+: v'.before

namespace Finder

variable {steps : Nat}

lemma accounts_unsupported {sort : SortOrder} (h : sort.reversed? = none) (d : Direction)
    {x : Bool → Search (List (Question ν)) ν (List ν)} :
    Accounts view rule s anchor limit (sort.arrange d) (sorted sort x) := by
  unfold sorted
  rw [h]
  exact accounts_note _ (accounts_nil (SortOrder.arrange_nil sort d))

lemma justified_of_accounts {sort : SortOrder} {direction : Direction}
    {x : Search (List (Question ν)) ν (List ν)}
    (h : Accounts view rule s anchor (s.limit limit) (sort.arrange direction) x)
    (log : Array (Event ν)) : InRange view (x ⟨[], log⟩).2.state ∧
      ∀ l, (x ⟨[], log⟩).1 = some l →
        Justified view rule s anchor limit sort direction (x ⟨[], log⟩).2.state l := by
  obtain ⟨hr, hvisits⟩ := h [] log inRange_nil
  refine ⟨hr, fun l hl => ?_⟩
  obtain ⟨visits, rfl, ha⟩ := hvisits l hl
  refine ⟨fun hm => ?_, fun hne => ?_, fun hs => ?_,
    ⟨visits, rfl, fun v hv => ⟨ha.accepted v hv, ha.done v hv⟩, ha.ordered⟩⟩
  · obtain ⟨v, hv, he⟩ := List.mem_map.1 (SortOrder.mem_arrange.1 hm).2
    exact ha.ne_anchor v hv he
  · refine (SortOrder.length_arrange_le _ _ _).trans ?_
    rw [List.length_map]
    exact ha.limited hne
  · unfold SortOrder.arrange
    rw [hs]

variable [DecidableEq ν]

lemma accounts_walk (rule : Rule) (anchor : ν) (limit : Nat) (traverse : Bool)
    {walk : Walker (List (Question ν)) ν → WalkM (List (Question ν)) ν Unit}
    (h : ∀ w : Walker (List (Question ν)) ν, w.Lockstep (fun _ x _ => w.KeepsTold view x) w →
      w.KeepsTold view (walk w))
    (stop : Option ν) : Accounts view rule s anchor (s.limit limit) id (collect stop
      (walk (walker ⟨.ofPast view, s, steps⟩ rule anchor limit traverse))) :=
  accounts_collect (h (walker ⟨.ofPast view, s, steps⟩ rule anchor limit traverse)
    (Walker.lockstep_keepsTold rfl)) stop

lemma accounts_findOnward (q : Query ν) : Accounts view q.rule s q.anchor (s.limit q.limit) id
    (findOnward ⟨.ofPast view, s, steps⟩ q) := by
  unfold findOnward
  dsimp only
  cases q.scope with
  | children => exact accounts_walk _ _ _ _ (fun w h => h.forward le_rfl _ _) none
  | inorder => exact accounts_walk _ _ _ _ (fun w h => h.sweep le_rfl _ _) none
  | siblings =>
    dsimp only
    split
    · exact accounts_nil rfl
    · refine accounts_ask nofun fun parent? => accounts_ask nofun fun index? => ?_
      split
      · exact accounts_walk _ _ _ _ (fun w h => h.forward le_rfl _ _) none
      · exact accounts_note _ (accounts_nil rfl)

lemma accounts_findBack (q : Query ν) : Accounts view q.rule s q.anchor (s.limit q.limit) id
    (findBack ⟨.ofPast view, s, steps⟩ q) := by
  unfold findBack
  dsimp only
  split
  · refine accounts_ask nofun fun parent? => ?_
    cases parent? with
    | none => exact accounts_note _ (accounts_nil rfl)
    | some parent => exact accounts_walk _ _ _ _ (fun w h => h.backward le_rfl _) _
  · exact accounts_walk _ _ _ _ (fun w h => h.backward le_rfl _) _

lemma accounts_find (q : Query ν) : Accounts view q.rule s q.anchor (s.limit q.limit)
    (q.sort.arrange q.direction) (find ⟨.ofPast view, s, steps⟩ q) := by
  have hnil : q.sort.arrange q.direction ([] : List ν) = [] := SortOrder.arrange_nil _ _
  unfold find
  cases hr : q.sort.reversed? with
  | none => exact accounts_unsupported hr q.direction
  | some reversed =>
    unfold sorted
    rw [hr]
    refine accounts_ask nofun fun valid => ?_
    cases valid
    · exact accounts_note _ (accounts_nil hnil)
    refine accounts_lift (fun past => Walker.careful_encloses rfl q.collection) fun inside => ?_
    cases inside
    · exact accounts_note _ (accounts_nil hnil)
    cases q.direction with
    | onward =>
      rw [SortOrder.arrange_onward hr]
      exact accounts_finish reversed (accounts_findOnward q)
    | back =>
      rw [SortOrder.arrange_back hr]
      exact accounts_finish (!reversed) (accounts_findBack q)

lemma accounts_findAll (collection : ν) (rule : Rule) (sort : SortOrder) (limit : Nat)
    (traverse : Bool) : Accounts view rule s collection (s.limit limit) (sort.arrange .onward)
      (findAll ⟨.ofPast view, s, steps⟩ collection rule sort limit traverse) := by
  unfold findAll
  cases hr : sort.reversed? with
  | none => exact accounts_unsupported hr .onward
  | some reversed =>
    unfold sorted
    rw [hr, SortOrder.arrange_onward hr]
    exact accounts_finish reversed
      (accounts_walk _ _ _ _ (fun w h => h.forward le_rfl _ _) none)

/-- However a tree changes while it is searched, no child is looked for out of range, and a search
that ends has found no more objects than it may and not its anchor, and each of them was there and
met the rule when it was visited. -/
theorem justified_while_changing (view : List (Question ν) → Tree ν) (s : Settings) (steps : Nat)
    (log : Array (Event ν)) :
    let f : Finder (List (Question ν)) ν := ⟨.ofPast view, s, steps⟩
    (∀ collection rule sort limit traverse,
      let r := f.findAll collection rule sort limit traverse ⟨[], log⟩
      InRange view r.2.state ∧ ∀ l, r.1 = some l →
        Justified view rule s collection limit sort .onward r.2.state l) ∧
    ∀ q : Query ν,
      let r := f.find q ⟨[], log⟩
      InRange view r.2.state ∧ ∀ l, r.1 = some l →
        Justified view q.rule s q.anchor q.limit q.sort q.direction r.2.state l := by
  exact ⟨fun collection rule sort limit traverse =>
    justified_of_accounts (accounts_findAll collection rule sort limit traverse) log,
    fun q => justified_of_accounts (accounts_find q) log⟩

theorem justified_while_changing_sample :
    (findAll ⟨.ofPast Tree.vanishing, {}, 9⟩ 0 .anyObject .canonical 0 true ⟨[], #[]⟩).1 =
      some [1, 2] ∧
    Justified Tree.vanishing .anyObject {} 0 0 .canonical .onward
      (findAll ⟨.ofPast Tree.vanishing, {}, 9⟩ 0 .anyObject .canonical 0 true ⟨[], #[]⟩).2.state
      [1, 2] := by
  have hfound : (findAll ⟨.ofPast Tree.vanishing, {}, 9⟩ 0 .anyObject .canonical 0 true
      ⟨[], #[]⟩).1 = some [1, 2] := by decide +kernel
  have h := (justified_while_changing Tree.vanishing {} 9 #[]).1 0 .anyObject .canonical 0 true
  exact ⟨hfound, h.2 [1, 2] hfound⟩

end Finder

end AccessTree
