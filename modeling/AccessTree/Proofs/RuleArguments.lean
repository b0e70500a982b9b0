import Mathlib.Tactic.Positivity
import Mathlib.Tactic.Ring
import AccessTree.MatchArgs
import AccessTree.Proofs.Segments
import AccessTree.Proofs.StateSets

/-!
Reading the arguments of a rule. What can be wrong with them is looked for in one order, and where
nothing is wrong the rule says what was sent: the positions of the set bits, the parts of the texts
and the codes.
-/

namespace AccessTree

/-- The place of a problem in the order in which problems are looked for. -/
def ArgumentError.rank : ArgumentError → Nat
  | .unknownStateBit _ => 0
  | .unknownRole _ => 1
  | .unknownMatchType .states _ => 2
  | .unknownMatchType .attributes _ => 3
  | .unknownMatchType .roles _ => 4
  | .unknownMatchType .interfaces _ => 5
  | .unknownScope _ | .negativeCount _ => 6

def Rule.matchType (r : Rule) : Criterion → MatchType
  | .states => r.stateMatch
  | .attributes => r.attributeMatch
  | .roles => r.roleMatch
  | .interfaces => r.interfaceMatch

namespace MatchArgs

variable {a : MatchArgs} {words : List Int32} {e : ArgumentError}

def matchCode (a : MatchArgs) : Criterion → Int32
  | .states => a.stateMatch
  | .attributes => a.attributeMatch
  | .roles => a.roleMatch
  | .interfaces => a.interfaceMatch

/-- The bit at a position of an array of words is set. A negative word has the bits of its two's
complement. -/
def Sends (words : List Int32) (p : Nat) : Prop :=
  ∃ w, words[p / 32]? = some w ∧ w.toInt / 2 ^ (p % 32) % 2 = 1

/-- What is wrong with the arguments, of bits the lowest one that has no meaning. -/
inductive Problem (a : MatchArgs) : ArgumentError → Prop
  | state {p : UInt32} (h : IsLeast {q | Sends a.states q ∧ 41 ≤ q} p.toNat) :
      Problem a (.unknownStateBit p)
  | role {p : UInt32} (h : IsLeast {q | Sends a.roles q ∧ 90 ≤ q} p.toNat) :
      Problem a (.unknownRole p)
  | matchType (c : Criterion) (h : ¬ (0 ≤ a.matchCode c ∧ a.matchCode c ≤ 4)) :
      Problem a (.unknownMatchType c (a.matchCode c))

/-- Everything in the arguments has a meaning. -/
def Acceptable (a : MatchArgs) : Prop :=
  (∀ p, Sends a.states p → p < 41) ∧ (∀ p, Sends a.roles p → p < 90) ∧
    ∀ c, 0 ≤ a.matchCode c ∧ a.matchCode c ≤ 4

/-- The entries in which attributes are sent. -/
def Entries : AttributeArgs → List String → Prop
  | .text s, entries => Text.Segments '\n' s entries
  | .list ss, entries => entries = ss

/-- The rule says what the arguments say. -/
structure Means (a : MatchArgs) (r : Rule) : Prop where
  states : ∀ p, r.states.bits.toNat.testBit p = true ↔ Sends a.states p
  roles : ∀ p, p ∈ r.roles.map Role.code ↔ Sends a.roles p
  ascending : (r.roles.map Role.code).Pairwise (· < ·)
  attributes : ∃ entries, Entries a.attributes entries ∧
    r.attributes = (entries.filter (· ≠ "")).map Attribute.parse
  interfaces : ∃ segments, Text.Segments ';' a.interfaces segments ∧
    r.interfaces = segments.filter (· ≠ "")
  matchTypes : ∀ c, (r.matchType c).code = a.matchCode c
  invert : r.invert = a.invert

/-! ### Readings, one after the other -/

section

variable {α β : Type} {x : Except ArgumentError α} {f : α → Except ArgumentError β} {b : β}

lemma bind_eq_ok_iff : x >>= f = .ok b ↔ ∃ a, x = .ok a ∧ f a = .ok b := by
  cases x <;> simp [bind, Except.bind]

lemma bind_eq_error_iff : x >>= f = .error e ↔ x = .error e ∨ ∃ a, x = .ok a ∧ f a = .error e := by
  cases x <;> simp [bind, Except.bind]

end

/-! ### Words -/

/-- A negative word is 2 ^ 32 below the number that has its bits, which is an even multiple of the
weight of each of its bits. -/
lemma testBit_toUInt32 (w : Int32) {i : Nat} (hi : i < 32) :
    w.toUInt32.toNat.testBit i = true ↔ w.toInt / 2 ^ i % 2 = 1 := by
  have hbit : w.toUInt32.toNat.testBit i = true ↔ (w.toUInt32.toNat : Int) / 2 ^ i % 2 = 1 := by
    rw [Nat.testBit_eq_decide_div_mod_eq, decide_eq_true_eq]
    norm_cast
  have hint : w.toInt = w.toUInt32.toNat ∨ w.toInt = w.toUInt32.toNat - 2 ^ 32 := by
    change w.toUInt32.toBitVec.toInt = _ ∨ w.toUInt32.toBitVec.toInt = _
    rw [BitVec.toInt_eq_toNat_cond]
    split
    · exact Or.inl rfl
    · exact Or.inr rfl
  rw [hbit]
  rcases hint with hint | hint
  · rw [hint]
  · obtain ⟨k, hk⟩ := Nat.exists_eq_add_of_lt hi
    have hweight : (2 : Int) ^ 32 = 2 ^ i * (2 * 2 ^ k) := by rw [hk]; ring
    have heven : w.toInt / 2 ^ i = (w.toUInt32.toNat : Int) / 2 ^ i + -(2 * 2 ^ k) := by
      rw [hint, hweight, sub_eq_add_neg, ← mul_neg, Int.add_mul_ediv_left _ _ (by positivity)]
    rw [heven]
    omega

lemma sends_iff {p : Nat} : Sends words p ↔ Bits.isSet (words.map (·.toUInt32)) p = true := by
  rw [Bits.isSet, Option.any_eq_true, List.getElem?_map, Sends]
  simp only [Option.map_eq_some_iff, exists_exists_and_eq_and]
  refine exists_congr fun w => and_congr_right fun _ => ?_
  exact (testBit_toUInt32 w (Nat.mod_lt p (by decide))).symm

lemma stateSet_eq_error_iff (h : words.length ≤ 2 ^ 27) : stateSet words = .error e ↔
    ∃ p : UInt32, IsLeast {q | Sends words q ∧ 41 ≤ q} p.toNat ∧ e = .unknownStateBit p := by
  have hlength : (words.map (·.toUInt32)).length ≤ 2 ^ 27 := by rwa [List.length_map]
  simp only [sends_iff, ← Bits.firstFrom_eq_some_iff hlength, ← StateSet.snd_ofBits, stateSet]
  generalize StateSet.ofBits (words.map (·.toUInt32)) = read
  rcases read with ⟨s, _ | p⟩
  · simp
  · simp [eq_comm]

lemma stateSet_eq_ok {s : StateSet} (h : words.length ≤ 2 ^ 27) (hs : stateSet words = .ok s) :
    (∀ p, Sends words p → p < 41) ∧ ∀ p, s.bits.toNat.testBit p = true ↔ Sends words p := by
  have hlength : (words.map (·.toUInt32)).length ≤ 2 ^ 27 := by rwa [List.length_map]
  have hread : StateSet.ofBits (words.map (·.toUInt32)) = (s, none) := by
    rw [stateSet] at hs
    split at hs
    · cases hs
    · rename_i hof
      cases hs
      exact hof
  have hknown : ∀ p, Sends words p → p < 41 := by
    simp only [sends_iff]
    rw [← Bits.firstFrom_eq_none_iff hlength, ← StateSet.snd_ofBits, hread]
  refine ⟨hknown, fun p => ?_⟩
  have hbits := StateSet.testBit_ofBits hlength p
  rw [hread] at hbits
  rw [hbits, ← sends_iff]
  exact and_iff_right_of_imp (hknown p)

/-! ### Roles -/

lemma role_eq_ok_iff {p : UInt32} {r : Role} : role p = .ok r ↔ r.code = p.toNat := by
  rw [← Role.ofCode?_eq_some_iff, role]
  cases Role.ofCode? p.toNat <;> simp

lemma role_eq_error_iff {p : UInt32} : role p = .error e ↔ 90 ≤ p.toNat ∧ e = .unknownRole p := by
  rw [← Role.ofCode?_eq_none_iff, role]
  cases Role.ofCode? p.toNat <;> simp [eq_comm]

lemma mapM_role_eq_ok {ps : List UInt32} {rs : List Role} (h : ps.mapM role = .ok rs) :
    rs.map Role.code = ps.map UInt32.toNat := by
  induction ps generalizing rs with
  | nil =>
    cases h
    rfl
  | cons p ps ih =>
    rw [List.mapM_cons] at h
    obtain ⟨r, hr, h⟩ := bind_eq_ok_iff.1 h
    obtain ⟨rs', hrs, h⟩ := bind_eq_ok_iff.1 h
    cases h
    rw [List.map_cons, List.map_cons, ih hrs, role_eq_ok_iff.1 hr]

lemma mapM_role_eq_error_iff {ps : List UInt32} : ps.mapM role = .error e ↔
    ∃ p, ps.find? (fun p => 90 ≤ p.toNat) = some p ∧ e = .unknownRole p := by
  induction ps with
  | nil => simp [pure, Except.pure]
  | cons p ps ih =>
    rw [List.mapM_cons, bind_eq_error_iff]
    rcases hp : role p with e' | r
    · obtain ⟨hunknown, rfl⟩ := role_eq_error_iff.1 hp
      simp [hunknown, eq_comm]
    · have hknown : ¬ 90 ≤ p.toNat := by
        rw [← role_eq_ok_iff.1 hp]
        exact Nat.not_le_of_lt r.code_lt
      simp [hknown, bind_eq_error_iff, ih, pure, Except.pure]

lemma roleList_eq_error_iff (h : words.length ≤ 2 ^ 27) : roleList words = .error e ↔
    ∃ p : UInt32, IsLeast {q | Sends words q ∧ 90 ≤ q} p.toNat ∧ e = .unknownRole p := by
  have hlength : (words.map (·.toUInt32)).length ≤ 2 ^ 27 := by rwa [List.length_map]
  simp only [sends_iff, ← Bits.firstFrom_eq_some_iff hlength]
  exact mapM_role_eq_error_iff

lemma roleList_eq_ok {rs : List Role} (h : words.length ≤ 2 ^ 27) (hrs : roleList words = .ok rs) :
    (rs.map Role.code).Pairwise (· < ·) ∧ ∀ p, p ∈ rs.map Role.code ↔ Sends words p := by
  have hlength : (words.map (·.toUInt32)).length ≤ 2 ^ 27 := by rwa [List.length_map]
  rw [mapM_role_eq_ok hrs]
  refine ⟨?_, fun p => ?_⟩
  · rw [Bits.map_toNat_positions hlength]
    exact List.pairwise_lt_range.filter _
  · rw [sends_iff, Bits.mem_map_positions_iff_isSet hlength]

/-! ### Match types -/

lemma matchType_eq_ok_iff {c : Criterion} {n : Int32} {m : MatchType} :
    matchType c n = .ok m ↔ m.code = n := by
  rw [← MatchType.ofCode?_eq_some_iff, matchType]
  cases MatchType.ofCode? n <;> simp

lemma matchType_eq_error_iff {c : Criterion} {n : Int32} : matchType c n = .error e ↔
    ¬ (0 ≤ n ∧ n ≤ 4) ∧ e = .unknownMatchType c n := by
  rw [← MatchType.ofCode?_eq_none_iff, matchType]
  cases MatchType.ofCode? n <;> simp [eq_comm]

/-! ### The first problem -/

/-- The first problem from a place on. -/
def FirstFrom (a : MatchArgs) (k : Nat) (e : ArgumentError) : Prop :=
  a.Problem e ∧ k ≤ e.rank ∧ ∀ e', a.Problem e' → k ≤ e'.rank → e.rank ≤ e'.rank

/-- What is read at a place is refused for the problem of this place, and where there is none the
first problem is one of those that come later. -/
lemma firstFrom_bind {α β : Type} {k : Nat} {x : Except ArgumentError α}
    {f : α → Except ArgumentError β} (hx : ∀ e, x = .error e ↔ a.Problem e ∧ e.rank = k)
    (hf : ∀ y e, f y = .error e ↔ a.FirstFrom (k + 1) e) (e : ArgumentError) :
    x >>= f = .error e ↔ a.FirstFrom k e := by
  rw [bind_eq_error_iff]
  cases x with
  | error e₀ =>
    obtain ⟨hproblem, hrank⟩ := (hx e₀).1 rfl
    constructor
    · rintro (h | ⟨y, hy, -⟩)
      · cases h
        exact ⟨hproblem, hrank.ge, fun e' _ hk => hrank.trans_le hk⟩
      · cases hy
    · rintro ⟨he, hk, hfirst⟩
      have hle := hfirst e₀ hproblem hrank.ge
      exact Or.inl ((hx e).2 ⟨he, by omega⟩)
  | ok y =>
    -- Nothing is wrong at this place, so problems from here on are problems from the next place on.
    have hnone : ∀ e', a.Problem e' → e'.rank ≠ k := fun e' he' hk => by
      cases (hx e').2 ⟨he', hk⟩
    constructor
    · rintro (h | ⟨y', hy, h⟩)
      · cases h
      · obtain ⟨he, hk, hfirst⟩ := (hf y' e).1 h
        refine ⟨he, by omega, fun e' he' hk' => hfirst e' he' ?_⟩
        have := hnone e' he'
        omega
    · rintro ⟨he, hk, hfirst⟩
      have hlater := hnone e he
      refine Or.inr ⟨y, rfl, (hf y e).2 ⟨he, by omega, fun e' he' hk' => hfirst e' he' (by omega)⟩⟩

lemma not_firstFrom_six : ¬ a.FirstFrom 6 e := by
  rintro ⟨hproblem, hrank, -⟩
  cases hproblem with
  | state => simp [ArgumentError.rank] at hrank
  | role => simp [ArgumentError.rank] at hrank
  | matchType c => cases c <;> simp [ArgumentError.rank] at hrank

variable (hs : a.states.length ≤ 2 ^ 27) (hr : a.roles.length ≤ 2 ^ 27)

include hs in
lemma stateSet_refuses (e : ArgumentError) :
    stateSet a.states = .error e ↔ a.Problem e ∧ e.rank = 0 := by
  rw [stateSet_eq_error_iff hs]
  constructor
  · rintro ⟨p, hp, rfl⟩
    exact ⟨.state hp, rfl⟩
  · rintro ⟨hproblem, hrank⟩
    cases hproblem with
    | state h => exact ⟨_, h, rfl⟩
    | role => cases hrank
    | matchType c => cases c <;> cases hrank

include hr in
lemma roleList_refuses (e : ArgumentError) :
    roleList a.roles = .error e ↔ a.Problem e ∧ e.rank = 1 := by
  rw [roleList_eq_error_iff hr]
  constructor
  · rintro ⟨p, hp, rfl⟩
    exact ⟨.role hp, rfl⟩
  · rintro ⟨hproblem, hrank⟩
    cases hproblem with
    | state => cases hrank
    | role h => exact ⟨_, h, rfl⟩
    | matchType c => cases c <;> cases hrank

lemma matchType_refuses (c : Criterion) (e : ArgumentError) :
    matchType c (a.matchCode c) = .error e ↔
      a.Problem e ∧ e.rank = (ArgumentError.unknownMatchType c (a.matchCode c)).rank := by
  rw [matchType_eq_error_iff]
  constructor
  · rintro ⟨h, rfl⟩
    exact ⟨.matchType c h, rfl⟩
  · rintro ⟨hproblem, hrank⟩
    cases hproblem with
    | state => cases c <;> cases hrank
    | role => cases c <;> cases hrank
    | matchType c' h =>
      obtain rfl : c' = c := by
        cases c' <;> cases c <;> first | rfl | cases hrank
      exact ⟨h, rfl⟩

include hs hr in
lemma rule_eq_error_iff : a.rule = .error e ↔ a.FirstFrom 0 e := by
  unfold rule
  -- The ranks of the problems follow the order in which the arguments are read.
  refine firstFrom_bind (stateSet_refuses hs) (fun states => ?_) e
  refine firstFrom_bind (roleList_refuses hr) fun roles => ?_
  refine firstFrom_bind (matchType_refuses .states) fun stateMatch => ?_
  refine firstFrom_bind (matchType_refuses .attributes) fun attributeMatch => ?_
  refine firstFrom_bind (matchType_refuses .roles) fun roleMatch => ?_
  refine firstFrom_bind (matchType_refuses .interfaces) fun interfaceMatch e => ?_
  exact iff_of_false (fun h => by cases h) not_firstFrom_six

lemma not_problem_of_acceptable (h : a.Acceptable) : ¬ a.Problem e := by
  rintro (⟨hp⟩ | ⟨hp⟩ | ⟨c, hc⟩)
  · exact Nat.not_le_of_lt (h.1 _ hp.1.1) hp.1.2
  · exact Nat.not_le_of_lt (h.2.1 _ hp.1.1) hp.1.2
  · exact hc (h.2.2 c)

/-! ### The rule that is read -/

lemma entries_entries (args : AttributeArgs) : Entries args args.entries := by
  cases args with
  | text s => exact Text.segments_splitAll '\n' s
  | list ss => rfl

lemma filter_ne_empty (l : List String) : l.filter (!·.isEmpty) = l.filter (· ≠ "") := by
  refine List.filter_congr fun s _ => ?_
  rw [Bool.eq_iff_iff]
  simp

lemma eraseDups_eq_self {α : Type} [BEq α] [LawfulBEq α] {l : List α} (h : l.Nodup) :
    l.eraseDups = l := by
  induction l with
  | nil => rfl
  | cons x l ih =>
    obtain ⟨hx, hl⟩ := List.nodup_cons.1 h
    have hkept : l.filter (fun y => !y == x) = l := by
      refine List.filter_eq_self.2 fun y hy => ?_
      have hne : y ≠ x := fun he => hx (he ▸ hy)
      simpa using hne
    rw [List.eraseDups_cons, hkept, ih hl]

include hs hr in
lemma means_of_rule {r : Rule} (h : a.rule = .ok r) : a.Acceptable ∧ a.Means r := by
  unfold rule at h
  obtain ⟨states, hstates, h⟩ := bind_eq_ok_iff.1 h
  obtain ⟨roles, hroles, h⟩ := bind_eq_ok_iff.1 h
  obtain ⟨stateMatch, hstate, h⟩ := bind_eq_ok_iff.1 h
  obtain ⟨attributeMatch, hattribute, h⟩ := bind_eq_ok_iff.1 h
  obtain ⟨roleMatch, hrole, h⟩ := bind_eq_ok_iff.1 h
  obtain ⟨interfaceMatch, hinterface, h⟩ := bind_eq_ok_iff.1 h
  obtain ⟨hknown, hbits⟩ := stateSet_eq_ok hs hstates
  obtain ⟨hascending, hmem⟩ := roleList_eq_ok hr hroles
  have hdistinct : roles.Nodup := List.Nodup.of_map Role.code (hascending.imp Nat.ne_of_lt)
  -- Each criterion has its own code, and each code was read into its own part of the rule.
  have hread : ∀ c, ∃ m, matchType c (a.matchCode c) = .ok m ∧ r.matchType c = m := by
    cases h
    rintro (_ | _ | _ | _)
    · exact ⟨_, hstate, rfl⟩
    · exact ⟨_, hattribute, rfl⟩
    · exact ⟨_, hrole, rfl⟩
    · exact ⟨_, hinterface, rfl⟩
  have hcode : ∀ c, (r.matchType c).code = a.matchCode c := by
    intro c
    obtain ⟨m, hm, rfl⟩ := hread c
    exact matchType_eq_ok_iff.1 hm
  have hrole : ∀ p, Sends a.roles p → p < 90 := by
    intro p hp
    obtain ⟨role, -, rfl⟩ := List.mem_map.1 ((hmem p).2 hp)
    exact role.code_lt
  -- Roles come in ascending order, so none comes twice and dropping repetitions drops nothing.
  have hroles : r.roles = roles := by
    cases h
    exact eraseDups_eq_self hdistinct
  refine ⟨⟨hknown, hrole, fun c => hcode c ▸ (r.matchType c).code_bounds⟩, ?_⟩
  cases h
  exact {
    states := hbits
    roles := fun p => by rw [hroles, hmem]
    ascending := by rwa [hroles]
    attributes := ⟨_, entries_entries a.attributes, by rw [← filter_ne_empty]; rfl⟩
    interfaces := ⟨_, Text.segments_splitAll ';' a.interfaces, filter_ne_empty _⟩
    matchTypes := hcode
    invert := rfl }

end MatchArgs

/-- The arguments are refused for the first of their problems, and accepted where they have none.
The rule that is then read is the one they mean. -/
theorem MatchArgs.rule_read (a : MatchArgs) (hs : a.states.length < 2 ^ 27)
    (hr : a.roles.length < 2 ^ 27) :
    ((∃ r, a.rule = .ok r) ↔ a.Acceptable) ∧ (∀ r, a.rule = .ok r → a.Means r) ∧
      ∀ e, a.rule = .error e ↔
        a.Problem e ∧ ∀ e', a.Problem e' → e.rank ≤ e'.rank := by
  have hfirst : ∀ e, a.FirstFrom 0 e ↔ a.Problem e ∧ ∀ e', a.Problem e' → e.rank ≤ e'.rank := by
    intro e
    simp [FirstFrom]
  refine ⟨⟨?_, fun hok => ?_⟩, fun r h => (means_of_rule hs.le hr.le h).2, fun e => ?_⟩
  · rintro ⟨r, h⟩
    exact (means_of_rule hs.le hr.le h).1
  · cases h : a.rule with
    | ok r => exact ⟨r, rfl⟩
    | error e =>
      have hproblem := ((rule_eq_error_iff hs.le hr.le).1 h).1
      exact absurd hproblem (not_problem_of_acceptable hok)
  · rw [rule_eq_error_iff hs.le hr.le, hfirst]

/-- The last bit of a negative word is set. Of an unknown role and an unknown match type the role is
reported, although the match type of the states was sent before it. -/
theorem MatchArgs.rule_read_sample :
    let a : MatchArgs :=
      { states := [-2147483648, 256], stateMatch := 7, roles := [0, 0, 0x04000002] }
    a.states.length < 2 ^ 27 ∧ a.roles.length < 2 ^ 27 ∧ a.rule = .error (.unknownRole 90) := by
  intro a
  have hs : a.states.length < 2 ^ 27 := by simp [a]
  have hr : a.roles.length < 2 ^ 27 := by simp [a]
  have hstates : ∀ q < 64, Bits.isSet (a.states.map (·.toUInt32)) q = true → q < 41 := by decide
  refine ⟨hs, hr, ((rule_read a hs hr).2.2 _).2 ⟨.role ⟨⟨?_, ?_⟩, ?_⟩, ?_⟩⟩
  · exact sends_iff.2 (by decide)
  · decide
  · exact fun q hq => hq.2
  · rintro e' (⟨hp⟩ | ⟨hp⟩ | ⟨c, hc⟩)
    · have hset := sends_iff.1 hp.1.1
      exact absurd hp.1.2 (Nat.not_le_of_lt (hstates _ (Bits.lt_of_isSet hset) hset))
    · exact Nat.le_refl 1
    · cases c <;> decide

end AccessTree
