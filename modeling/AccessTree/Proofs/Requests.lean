import AccessTree.Bus
import AccessTree.Proofs.CellTurns
import AccessTree.Proofs.Containment
import AccessTree.Proofs.PathNames

/-!
Requests to a registry at rest. A request is refused for the first thing that is wrong with it, or
answered with the paths of what the search that it comes down to finds, in the order of that
search. What is found are different objects below the collection that meet the rule, and each path
leads back to its object.
-/

namespace AccessTree

open Search

/-- The bus of a registry to which nothing happens meanwhile. -/
def Registry.bus (r : Registry) (s : Settings) (steps : Nat) : Bus Unit ObjectId where
  finder := ⟨r.tree.atRest, s, steps⟩
  directory := ⟨fun _ => r.resolve, fun _ => Registry.pathOf⟩

namespace Request

def target : Request → Target
  | getMatches t | getMatchesFrom t _ | getMatchesTo t _ _ => t

/-- What only a request with a direction has. -/
def start? : Request → Option Start
  | getMatches _ => none
  | getMatchesFrom _ start | getMatchesTo _ start _ => some start

/-- The path of the collection and then that of the anchor, where there is one. -/
def paths (q : Request) : List String := q.target.path :: (q.start?.map (·.path)).toList

def ruleError? (q : Request) : Option ArgumentError :=
  match q.target.args.rule with
  | .error e => some e
  | .ok _ => none

def scopeError? (q : Request) : Option ArgumentError :=
  q.start?.bind fun start => if start.scope < 3 then none else some (.unknownScope start.scope)

def countError? (q : Request) : Option ArgumentError :=
  if q.target.count.toInt < 0 then some (.negativeCount q.target.count) else none

/-- Why a request is refused: for the first path that leads nowhere, or else for the first argument
that has no meaning. -/
def refusal? (r : Registry) (q : Request) : Option RequestError :=
  ((q.paths.find? fun p => (r.resolve p).isNone).map .objectNotFound).or
    ((q.ruleError?.or (q.scopeError?.or q.countError?)).map .invalidArguments)

def count (q : Request) : Nat := q.target.count.toInt.toNat

/-- The search that a request comes down to. -/
def search (q : Request) {σ ν : Type} [DecidableEq ν] (collection anchor : ν) (rule : Rule)
    (scope : Scope) (f : Finder σ ν) : Search σ ν (List ν) :=
  let sort := SortOrder.ofCode q.target.sortBy
  let traverse := q.target.traverse
  match q with
  | getMatches _ => f.findAll collection rule sort q.count traverse
  | getMatchesFrom _ _ => f.find
    { collection, anchor, rule, sort, scope, direction := .onward, limit := q.count, traverse }
  | getMatchesTo _ _ recurse => f.find
    { collection, anchor, rule, sort, scope, direction := .back, limit := q.count, recurse,
      traverse }

/-- What the paths and the codes of a request stand for. Where a request has no anchor of its own,
the collection is the anchor. -/
structure Means (q : Request) (r : Registry) (collection anchor : ObjectId) (rule : Rule)
    (scope : Scope) : Prop where
  collection_eq : r.resolve q.target.path = some collection
  anchor_eq : ∀ start, q.start? = some start → r.resolve start.path = some anchor
  scope_eq : ∀ start, q.start? = some start → Scope.ofCode? start.scope = some scope
  anchor_own : q.start? = none → anchor = collection
  rule_eq : q.target.args.rule = .ok rule

lemma scope_eq_error_iff {code : UInt32} {err : ArgumentError} :
    Request.scope code = .error err ↔ ¬ code < 3 ∧ .unknownScope code = err := by
  unfold Request.scope Scope.ofCode?
  split
  · rename_i hn
    split at hn
    · cases hn
    · cases hn
    · cases hn
    · rename_i h0 h1 h2
      have outside : ¬ code < 3 := by
        intro hlt
        simp only [UInt32.lt_iff_toNat_lt, ← UInt32.toNat_inj] at *
        have : code.toNat < 3 := hlt
        have : code.toNat ≠ 0 := h0
        have : code.toNat ≠ 1 := h1
        have : code.toNat ≠ 2 := h2
        omega
      simp [outside]
  · rename_i scope hs
    have inside : code < 3 := by
      split at hs
      · decide
      · decide
      · decide
      · cases hs
    simp [inside]

lemma scope_eq_ok {code : UInt32} {scope : Scope} (h : Request.scope code = .ok scope) :
    Scope.ofCode? code = some scope ∧ code < 3 := by
  have known : code < 3 := by
    by_contra hc
    have refused : Request.scope code = .error (.unknownScope code) :=
      scope_eq_error_iff.2 ⟨hc, rfl⟩
    rw [refused] at h
    cases h
  refine ⟨?_, known⟩
  unfold Request.scope at h
  split at h
  · cases h
  · rename_i hs
    rw [hs, Except.ok.inj h]

lemma exists_means {q : Request} {r : Registry} (h : q.refusal? r = none) :
    ∃ collection anchor rule scope, q.Means r collection anchor rule scope := by
  obtain ⟨hpaths, herror⟩ := Option.or_eq_none_iff.1 h
  obtain ⟨hrule, herror⟩ := Option.or_eq_none_iff.1 (Option.map_eq_none_iff.1 herror)
  obtain ⟨hscope, -⟩ := Option.or_eq_none_iff.1 herror
  have leads : ∀ p ∈ q.paths, ∃ n, r.resolve p = some n := fun p hp => by
    have := List.find?_eq_none.1 (Option.map_eq_none_iff.1 hpaths) p hp
    exact Option.ne_none_iff_exists'.1 fun hn => this (by rw [hn]; rfl)
  obtain ⟨collection, hc⟩ := leads q.target.path List.mem_cons_self
  obtain ⟨rule, hr⟩ : ∃ rule, q.target.args.rule = .ok rule := by
    unfold ruleError? at hrule
    cases hr : q.target.args.rule with
    | error err =>
      rw [hr] at hrule
      cases hrule
    | ok rule => exact ⟨rule, rfl⟩
  cases hstart : q.start? with
  | none =>
    refine ⟨collection, collection, rule, .children, hc, ?_, ?_, fun _ => rfl, hr⟩
    · rw [hstart]
      exact nofun
    · rw [hstart]
      exact nofun
  | some start =>
    obtain ⟨anchor, ha⟩ := leads start.path (by simp [paths, hstart])
    obtain ⟨scope, hs⟩ : ∃ scope, Request.scope start.scope = .ok scope := by
      cases hs : Request.scope start.scope with
      | error err =>
        have hge := (scope_eq_error_iff.1 hs).1
        simp [scopeError?, hstart, hge] at hscope
      | ok scope => exact ⟨scope, rfl⟩
    refine ⟨collection, anchor, rule, scope, hc, ?_, ?_, ?_, hr⟩
    · rw [hstart]
      rintro _ ⟨⟩
      exact ha
    · rw [hstart]
      rintro _ ⟨⟩
      exact (scope_eq_ok hs).1
    · rw [hstart]
      exact nofun

/-- A request stands for one search. -/
lemma Means.search_eq {q : Request} {r : Registry}
    {collection collection' anchor anchor' : ObjectId} {rule rule' : Rule} {scope scope' : Scope}
    (h : q.Means r collection anchor rule scope)
    (h' : q.Means r collection' anchor' rule' scope') (f : Finder Unit ObjectId) :
    q.search collection anchor rule scope f = q.search collection' anchor' rule' scope' f := by
  obtain rfl := Option.some.inj (h.collection_eq.symm.trans h'.collection_eq)
  obtain rfl := Except.ok.inj (h.rule_eq.symm.trans h'.rule_eq)
  -- A request without an anchor of its own does not look at anchor and scope.
  have directed : ∀ start, q.start? = some start → anchor = anchor' ∧ scope = scope' :=
    fun start hstart =>
      ⟨Option.some.inj ((h.anchor_eq start hstart).symm.trans (h'.anchor_eq start hstart)),
        Option.some.inj ((h.scope_eq start hstart).symm.trans (h'.scope_eq start hstart))⟩
  cases q with
  | getMatches target => rfl
  | getMatchesFrom target start =>
    obtain ⟨rfl, rfl⟩ := directed start rfl
    rfl
  | getMatchesTo target start recurse =>
    obtain ⟨rfl, rfl⟩ := directed start rfl
    rfl

end Request

/-! ### What is found -/

lemma SortOrder.reversed?_ofCode {code : UInt32} (h1 : code ≠ 1) (h4 : code ≠ 4) :
    (SortOrder.ofCode code).reversed? = none := by
  unfold ofCode
  split <;> first | rfl | contradiction

section

variable {ν : Type} {t : Tree ν} {s : Settings} {collection anchor : ν}

/-- What the results of a search promise. -/
structure Tree.Results (t : Tree ν) (s : Settings) (collection anchor : ν) (rule : Rule)
    (sort : SortOrder) (limit : Nat) (found : List ν) : Prop
    extends t.Inside collection anchor found where
  meets : ∀ y ∈ found, t.meets rule s y = true
  length_le : s.limit limit ≠ 0 → found.length ≤ s.limit limit
  unsorted : sort.reversed? = none → found = []

/-- Rule, limit and order make results of whatever lies inside. -/
lemma Tree.Inside.results {inner : List ν} (h : t.Inside collection anchor inner) (rule : Rule)
    (sort : SortOrder) (limit : Nat) (d : Direction) :
    t.Results s collection anchor rule sort limit
      (sort.arrange d (Finder.kept t s rule limit inner)) := by
  have chosen : (Finder.kept t s rule limit inner).Sublist (inner.filter (t.meets rule s)) :=
    cut_sublist _ _
  refine ⟨(h.sublist (chosen.trans List.filter_sublist)).arrange sort d, fun y hy => ?_,
    fun hl => ?_, fun hsort => ?_⟩
  · have hy := chosen.subset (SortOrder.mem_arrange.1 hy).2
    exact (List.mem_filter.1 hy).2
  · have cut_le : (Finder.kept t s rule limit inner).length ≤ s.limit limit := by
      rw [Finder.kept, cut, if_neg hl]
      exact List.length_take_le _ _
    exact (SortOrder.length_arrange_le sort d _).trans cut_le
  · unfold SortOrder.arrange
    rw [hsort]

/-- The search of any request comes to its end with such results. -/
lemma Request.exists_search [DecidableEq ν] (ht : t.IsForest) (q : Request) (rule : Rule)
    (scope : Scope) (hanchor : q.start? = none → anchor = collection) :
    ∃ found, t.Answers s (q.search collection anchor rule scope) found ∧
      t.Results s collection anchor rule (.ofCode q.target.sortBy) q.count found := by
  have hcanonical : SortOrder.canonical.reversed? ≠ none := by decide
  have hl : ({ s with maxResults := 0 } : Settings).limit 0 = 0 :=
    Settings.limit_eq_zero_iff.2 ⟨rfl, rfl⟩
  have directed : ∀ p : Query ν, p.collection = collection → p.anchor = anchor →
      ∃ found, t.Answers s (·.find p) found ∧
        t.Results s collection anchor p.rule p.sort p.limit found := by
    rintro p rfl rfl
    obtain ⟨inner, hends, hinside, -⟩ := Finder.exists_find_inside
      (s := { s with maxResults := 0 })
      (q := { p with rule := .anyObject, sort := .canonical, limit := 0 }) ht rfl hl
    exact ⟨_, Finder.answers_find_of_ends p hcanonical hends, hinside.results _ _ _ _⟩
  cases q with
  | getMatches target =>
    obtain rfl := hanchor rfl
    obtain ⟨inner, hends, hlist⟩ :=
      Finder.exists_findAll ht hl anchor .anyObject target.traverse
    have hinside : t.Inside anchor anchor inner := ⟨ht.nodup_of_lists hlist,
      fun y hy => ((hlist.mem_iff y).1 hy).2.2.below, fun y hy => ((hlist.mem_iff y).1 hy).1⟩
    exact ⟨_, Finder.answers_findAll_of_ends anchor rule _ target.traverse hcanonical hends.ends _,
      hinside.results _ _ _ _⟩
  | getMatchesFrom target start => exact directed _ rfl rfl
  | getMatchesTo target start recurse => exact directed _ rfl rfl

end

/-! ### Handling -/

namespace Bus

variable {σ ν α β : Type} {x : Handling σ ν α} {f : α → Handling σ ν β} {a : α}
  {e : RequestError} {out : Except RequestError β} {r : Registry} {s : Settings} {steps : Nat}

lemma locate_run (b : Bus σ ν) (path : String) (asked : Logged σ (Event ν)) :
    (b.locate path).run.run asked =
      match b.directory.resolve asked.state path with
      | some n => (some (.ok n), asked)
      | none => (some (.error (.objectNotFound path)),
          asked.report (.notice (.pathUnknown path))) := by
  have now : (b.locate path).run.run asked = (match b.directory.resolve asked.state path with
      | some n => (pure n : Handling σ ν ν)
      | none => do
        ExceptT.lift (Search.note (.pathUnknown path))
        throw (RequestError.objectNotFound path)).run.run asked := rfl
  rw [now]
  cases b.directory.resolve asked.state path <;> rfl

/-- What follows on a path counts if the path leads somewhere. -/
lemma gives_locate {path : String} {f : ObjectId → Handling Unit ObjectId β}
    (hsome : ∀ n, r.resolve path = some n → Gives (f n).run out)
    (hnone : r.resolve path = none → out = .error (.objectNotFound path)) :
    Gives ((r.bus s steps).locate path >>= f).run out := by
  rw [ExceptT.run_bind]
  cases hn : r.resolve path with
  | none =>
    have refused : Gives ((r.bus s steps).locate path).run (.error (.objectNotFound path)) := by
      intro asked
      have now : (r.bus s steps).directory.resolve asked.state path = none := hn
      rw [locate_run, now]
    rw [hnone hn]
    exact refused.bind (gives_pure _)
  | some n =>
    have located : Gives ((r.bus s steps).locate path).run (.ok n) := by
      intro asked
      have now : (r.bus s steps).directory.resolve asked.state path = some n := hn
      rw [locate_run, now]
    exact located.bind (hsome n hn)

/-- What follows on an argument counts if the argument has a meaning. -/
lemma gives_check {x : Except ArgumentError α} (hok : ∀ a, x = .ok a → Gives (f a).run out)
    (herror : ∀ err, x = .error err → out = .error (.invalidArguments err)) :
    Gives (check x >>= f).run out := by
  rw [ExceptT.run_bind]
  cases x with
  | error err =>
    rw [herror err rfl]
    exact (gives_pure (Except.error (RequestError.invalidArguments err))).bind (gives_pure _)
  | ok a => exact (gives_pure (Except.ok a)).bind (hok a rfl)

lemma gives_pathsOf {found : List ObjectId} {search : Search Unit ObjectId (List ObjectId)}
    (h : Gives search found) : Gives ((r.bus s steps).pathsOf search).run
      (.ok (found.map Registry.pathOf)) := by
  have lifted : Gives (ExceptT.lift search : Handling Unit ObjectId _).run (.ok found) :=
    h.bind (gives_pure _)
  unfold pathsOf
  rw [ExceptT.run_bind]
  exact lifted.bind fun asked => rfl

lemma gives_directed {q : Request} {start : Request.Start} {d : Direction} {recurse : Bool}
    {out : Except RequestError (List String)} (hstart : q.start? = some start)
    (hno : ∀ e, q.refusal? r = some e → out = .error e)
    (hyes : ∀ collection anchor rule scope, q.refusal? r = none →
      q.Means r collection anchor rule scope → Gives ((r.bus s steps).pathsOf
      ((r.bus s steps).finder.find
        { collection, anchor, rule, sort := .ofCode q.target.sortBy, scope, direction := d,
          limit := q.count, recurse, traverse := q.target.traverse })).run out) :
    Gives ((r.bus s steps).directed q.target start d recurse).run out := by
  unfold Request.refusal? Request.paths Request.ruleError? Request.scopeError?
    Request.countError? at hno hyes
  rw [hstart] at hno hyes
  -- The arguments are read in the order in which a refusal looks at them, so the first that fails
  -- is the one refused for.
  refine gives_locate (fun collection hc => ?_) fun hc => hno _ (by simp [hc])
  refine gives_locate (fun anchor ha => ?_) fun ha => hno _ (by simp [hc, ha])
  refine gives_check (fun rule hr => ?_) fun err hr => hno _ (by simp [hc, ha, hr])
  refine gives_check (fun scope hs => ?_) fun err hs => ?_
  · obtain ⟨hscope, hlt⟩ := Request.scope_eq_ok hs
    refine gives_check (fun limit hl => ?_) fun err hl => ?_
    · unfold Request.limit at hl
      split at hl
      · cases hl
      · rename_i hcount
        cases hl
        refine hyes collection anchor rule scope (by simp [hc, ha, hr, hlt, hcount])
          ⟨hc, ?_, ?_, ?_, hr⟩
        · rw [hstart]
          rintro _ ⟨⟩
          exact ha
        · rw [hstart]
          rintro _ ⟨⟩
          exact hscope
        · rw [hstart]
          exact nofun
    · unfold Request.limit at hl
      split at hl
      · rename_i hneg
        cases hl
        exact hno _ (by simp [hc, ha, hr, hlt, hneg])
      · cases hl
  · obtain ⟨hge, rfl⟩ := Request.scope_eq_error_iff.1 hs
    exact hno _ (by simp [hc, ha, hr, hge])

/-- What a request is answered with, whatever is wrong with it and whatever it stands for. -/
lemma gives_handle {q : Request} {out : Except RequestError (List String)}
    (hno : ∀ e, q.refusal? r = some e → out = .error e)
    (hyes : ∀ collection anchor rule scope, q.refusal? r = none →
      q.Means r collection anchor rule scope → Gives ((r.bus s steps).pathsOf
        (q.search collection anchor rule scope (r.bus s steps).finder)).run out) :
    Gives ((r.bus s steps).handle q).run out := by
  cases q with
  | getMatchesFrom t start =>
    change Gives ((r.bus s steps).directed t start .onward false).run out
    exact gives_directed (q := .getMatchesFrom t start) rfl hno hyes
  | getMatchesTo t start recurse =>
    change Gives ((r.bus s steps).directed t start .back recurse).run out
    exact gives_directed (q := .getMatchesTo t start recurse) rfl hno hyes
  | getMatches t =>
    unfold Request.refusal? Request.paths Request.ruleError? Request.scopeError?
      Request.countError? Request.start? Request.target at hno hyes
    refine gives_locate (fun collection hc => ?_) fun hc => hno _ (by simp [hc])
    refine gives_check (fun rule hr => ?_) fun err hr => hno _ (by simp [hc, hr])
    refine gives_check (fun limit hl => ?_) fun err hl => ?_
    · unfold Request.limit at hl
      split at hl
      · cases hl
      · rename_i hcount
        cases hl
        exact hyes collection collection rule .children (by simp [hc, hr, hcount])
          ⟨hc, nofun, nofun, fun _ => rfl, hr⟩
    · unfold Request.limit at hl
      split at hl
      · rename_i hneg
        cases hl
        exact hno _ (by simp [hc, hr, hneg])
      · cases hl

end Bus

namespace Registry

/-- A request to a registry, whatever has been done to the registry before. Either it is refused,
for the first path that leads nowhere or else for the first argument without a meaning, or it is
answered with the paths of what the search finds that it comes down to. Each path leads back to an
object of its own, which lies below the collection, is not the anchor and meets the rule. There are
no more of them than the limit allows, and none where the order asked for cannot be given. -/
theorem handle_at_rest (edits : List Edit) (s : Settings) (q : Request) :
    (∀ e, q.refusal? (run edits) = some e →
      ∀ steps, Gives (((run edits).bus s steps).handle q).run (.error e)) ∧
    (q.refusal? (run edits) = none → ∃ collection anchor rule scope,
      q.Means (run edits) collection anchor rule scope ∧ ∃ found,
        (run edits).tree.Answers s (q.search collection anchor rule scope) found ∧
        (∃ enough, ∀ steps ≥ enough,
          Gives (((run edits).bus s steps).handle q).run (.ok (found.map pathOf))) ∧
        (found.map pathOf).Nodup ∧
        (∀ y ∈ found, (run edits).resolve (pathOf y) = some y ∧ (run edits).contains y = true ∧
          (run edits).tree.Below collection y ∧ y ≠ anchor ∧
          (run edits).tree.meets rule s y = true) ∧
        (s.limit q.count ≠ 0 → found.length ≤ s.limit q.count) ∧
        (q.target.sortBy ≠ 1 → q.target.sortBy ≠ 4 → found = [])) := by
  have ht := (sound_run edits).isForest
  refine ⟨fun e he steps => ?_, fun hnone => ?_⟩
  · refine Bus.gives_handle (fun e' he' => ?_) fun _ _ _ _ hnone => ?_
    · rw [he] at he'
      rw [Option.some.inj he']
    · rw [he] at hnone
      cases hnone
  · obtain ⟨collection, anchor, rule, scope, hmeans⟩ := Request.exists_means hnone
    obtain ⟨found, ⟨enough, hfound⟩, hresults⟩ :=
      q.exists_search ht (s := s) rule scope hmeans.anchor_own
    refine ⟨collection, anchor, rule, scope, hmeans, found, ⟨enough, hfound⟩,
      ⟨enough, fun steps hsteps => ?_⟩, ?_, fun y hy => ?_, hresults.length_le, fun h1 h4 => ?_⟩
    · refine Bus.gives_handle (fun e he => ?_) fun collection' anchor' rule' scope' _ hmeans' => ?_
      · rw [hnone] at he
        cases he
      · rw [hmeans'.search_eq hmeans]
        exact Bus.gives_pathsOf (hfound steps hsteps)
    · exact hresults.nodup.map fun i j hij => pathOf_inj.1 hij
    · -- A handle in use has an odd version, so its path leads back to it.
      have hvalid := (ht.valid_of_below (hresults.below y hy)).2
      rw [tree_isValid] at hvalid
      refine ⟨?_, hvalid, hresults.below y hy, hresults.ne_anchor y hy, hresults.meets y hy⟩
      rw [resolve_pathOf (odd_run hvalid), if_pos hvalid]
    · exact hresults.unsorted (SortOrder.reversed?_ofCode h1 h4)

example : (((run [.register {}, .registerChild ⟨1, 1⟩ {}]).bus {} 5).handle
    (.getMatches { path := rootPath, sortBy := 1, count := 0 }) ⟨(), #[]⟩).1 =
      some (.ok ["/org/a11y/atspi/accessible/4294967298"]) := by decide +kernel

end Registry

end AccessTree
