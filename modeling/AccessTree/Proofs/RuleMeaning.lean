import Mathlib.Data.Set.Basic
import Mathlib.Data.List.Nodup
import AccessTree.Proofs.AtRest

/-!
What rules mean. The things that a criterion lists are a set, and so are the things that an object
has; the match type says how the one set has to lie to the other. A rule is met by the objects that
are there and are described by its four criteria, or by those that are not described.
-/

namespace AccessTree

variable {α ν : Type}

/-- How the set of what is listed lies to the set of what an object has. To have nothing need not
be the same as to have none of what can be listed. -/
def MatchType.Relates (m : MatchType) (listed own : Set α) (nothing : Prop) : Prop :=
  match m with
  | .all => listed ⊆ own
  | .any => listed = ∅ ∨ (listed ∩ own).Nonempty
  | .none => listed ∩ own = ∅
  | .empty => (listed.Nonempty → listed ⊆ own) ∧ (listed = ∅ → nothing)
  | .invalid => listed = ∅

namespace Tree

variable (t : Tree ν) (n : ν)

/-- The names, as they may be written in a rule, of the interfaces that an object has. -/
def interfaceNames : Set String :=
  {name | ∃ i, Text.fold (.ofList (Text.trim name.toList)) = Text.fold i.name ∧
    t (.implements n i) = true}

def ownStates : Set State := {x | (t (.states n)).contains x = true}

/-- What may be wanted of the attributes of an object. Of the attributes with one name the first
one counts, and its value has to be the wanted one if there is a wanted one. -/
def fittingAttributes : Set Attribute :=
  {wanted | ∃ before a after, t (.attributes n) = before ++ a :: after ∧
    (∀ b ∈ before, Text.fold b.name ≠ Text.fold wanted.name) ∧
    Text.fold a.name = Text.fold wanted.name ∧
    ∀ v, wanted.value? = some v → ∃ w, a.value? = some w ∧ Text.fold w = Text.fold v}

end Tree

/-- All four criteria are met. Where the states that are missing count, one of the listed states has
to be missing. -/
structure Rule.Describes (r : Rule) (s : Settings) (t : Tree ν) (n : ν) : Prop where
  interfaces : r.interfaceMatch.Relates {name | name ∈ r.interfaces} (t.interfaceNames n)
    (t.interfaceNames n = ∅)
  states : if r.stateMatch = .any ∧ s.anyState = .absent then
      {x | r.states.contains x = true} = ∅ ∨ ¬ {x | r.states.contains x = true} ⊆ t.ownStates n
    else r.stateMatch.Relates {x | r.states.contains x = true} (t.ownStates n)
      (t (.states n) = .empty)
  roles : r.roleMatch.Relates {x | x ∈ r.roles} {t (.role n)} (t (.role n) = .invalid)
  attributes : r.attributeMatch.Relates {a | a ∈ r.attributes} (t.fittingAttributes n)
    (t.fittingAttributes n = ∅)

/-! ### Questions that are decided -/

namespace Inquiry

variable {x : Inquiry Unit ν Bool} {f : α → Inquiry Unit ν Bool} {P Q : Prop} {R : α → Prop}
  {l : List α}

lemma decides_allOf_nil : Decides (Inquiry.allOf [] : Inquiry Unit ν Bool) True :=
  ⟨true, says_pure true, by simp⟩

lemma Decides.allOf_cons {xs : List (Inquiry Unit ν Bool)} (h : Decides x P)
    (hxs : Decides (Inquiry.allOf xs) Q) : Decides (Inquiry.allOf (x :: xs)) (P ∧ Q) := by
  obtain ⟨b, hx, hb⟩ := h
  obtain ⟨c, hxs, hc⟩ := hxs
  rw [Inquiry.allOf]
  cases b with
  | false => exact ⟨false, hx.bind (says_pure false), by simp [← hb]⟩
  | true => exact ⟨c, hx.bind hxs, by simp [← hb, hc]⟩

lemma Decides.anyOf_cons {xs : List (Inquiry Unit ν Bool)} (h : Decides x P)
    (hxs : Decides (Inquiry.anyOf xs) Q) : Decides (Inquiry.anyOf (x :: xs)) (P ∨ Q) := by
  obtain ⟨b, hx, hb⟩ := h
  obtain ⟨c, hxs, hc⟩ := hxs
  rw [Inquiry.anyOf]
  cases b with
  | false => exact ⟨c, hx.bind hxs, by simp [← hb, hc]⟩
  | true => exact ⟨true, hx.bind (says_pure true), by simp [← hb]⟩

lemma Decides.allOf (h : ∀ a, Decides (f a) (R a)) :
    Decides (Inquiry.allOf (l.map f)) (∀ a ∈ l, R a) := by
  induction l with
  | nil => exact decides_allOf_nil.congr (by simp)
  | cons a l ih => exact ((h a).allOf_cons ih).congr List.forall_mem_cons.symm

lemma Decides.anyOf (h : ∀ a, Decides (f a) (R a)) :
    Decides (Inquiry.anyOf (l.map f)) (∃ a ∈ l, R a) := by
  induction l with
  | nil => exact ⟨false, says_pure false, by simp⟩
  | cons a l ih => exact ((h a).anyOf_cons ih).congr (by simp)

end Inquiry

open Inquiry

/-! ### Criteria -/

namespace MatchType

variable {m : MatchType} {listed own : Set α} {nothing : Prop} {l : List α}
  {f : α → Inquiry Unit ν Bool} {x : Inquiry Unit ν Bool}

lemma relates_of_eq_empty (hl : listed = ∅) (hm : m ≠ .empty) : m.Relates listed own nothing := by
  subst hl
  cases m with
  | empty => exact absurd rfl hm
  | invalid => rfl
  | all => exact Set.empty_subset own
  | any => exact Or.inl rfl
  | none => exact Set.empty_inter own

/-- Listing nothing is met where the match type does not ask what else there is. -/
lemma decides_unless_nothing {skip : Bool} (hl : skip = true → listed = ∅)
    (h : Decides x (m.Relates listed own nothing)) :
    Decides (if skip && m != .empty then pure true else x) (m.Relates listed own nothing) := by
  split
  · rename_i hskip
    obtain ⟨hskip, hm⟩ := (Bool.and_eq_true _ _).mp hskip
    refine (decides_pure true).congr (iff_of_true rfl ?_)
    exact relates_of_eq_empty (hl hskip) (bne_iff_ne.1 hm)
  · exact h

lemma decides_unless_nil (h : Decides x (m.Relates {a | a ∈ l} own nothing)) :
    Decides (if l.isEmpty && m != .empty then pure true else x)
      (m.Relates {a | a ∈ l} own nothing) := by
  refine decides_unless_nothing (fun hl => ?_) h
  rw [List.isEmpty_iff.1 hl]
  simp

/-- The questions about the listed things decide how they lie to what the object has. -/
theorem decides_holds (h : ∀ a, Decides (f a) (a ∈ own)) (hx : Decides x nothing) :
    Decides (m.holds (l.map f) x) (m.Relates {a | a ∈ l} own nothing) := by
  -- Where nothing is listed only `empty` asks for something. Where something is, `empty` asks for
  -- what `all` does.
  cases l with
  | nil =>
    have hl : {a : α | a ∈ []} = ∅ := by simp
    rw [List.map_nil, holds, hl]
    split
    · rename_i hm
      subst hm
      exact hx.congr ⟨fun hn => ⟨fun he => absurd he Set.not_nonempty_empty, fun _ => hn⟩,
        fun hr => hr.2 rfl⟩
    · rename_i hm
      exact (decides_pure true).congr (iff_of_true rfl (relates_of_eq_empty rfl hm))
  | cons a l =>
    have there : {b | b ∈ a :: l}.Nonempty := ⟨a, List.mem_cons_self⟩
    have nonempty : {b | b ∈ a :: l} ≠ ∅ := there.ne_empty
    cases m with
    | all => exact Decides.allOf (l := a :: l) h
    | empty =>
      refine (Decides.allOf (l := a :: l) h).congr ⟨fun hall => ⟨fun _ => hall, ?_⟩, fun hr => ?_⟩
      · exact fun he => absurd he nonempty
      · exact hr.1 there
    | any =>
      refine (Decides.anyOf (l := a :: l) h).congr ⟨fun hany => Or.inr hany, fun hr => ?_⟩
      exact hr.resolve_left nonempty
    | none =>
      refine (Decides.anyOf (l := a :: l) h).not.congr ?_
      rw [Relates, Set.eq_empty_iff_forall_notMem]
      simp
    | invalid =>
      -- The first thing is asked about in vain.
      obtain ⟨b, hb, -⟩ := h a
      exact ⟨false, hb.bind (says_pure false), iff_of_false Bool.false_ne_true nonempty⟩

end MatchType

namespace Interface

/-- No two interfaces have names that differ in case only. -/
lemma fold_name_inj {i j : Interface} (h : Text.fold i.name = Text.fold j.name) : i = j := by
  have hn : (all.map fun i => Text.fold i.name).Nodup := by decide
  exact List.inj_on_of_nodup_map hn (mem_all i) (mem_all j) h

lemma find?_name_eq_some_iff {wanted : String} {i : Interface} :
    all.find? (fun i => Text.alike i.name wanted) = some i ↔
      Text.fold wanted = Text.fold i.name := by
  constructor
  · intro h
    have hi := List.find?_some h
    exact (Text.alike_iff.1 hi).symm
  · intro h
    have hsome : (all.find? fun i => Text.alike i.name wanted).isSome = true :=
      List.find?_isSome.2 ⟨i, mem_all i, Text.alike_iff.2 h.symm⟩
    obtain ⟨j, hj⟩ := Option.isSome_iff_exists.1 hsome
    have hname := List.find?_some hj
    rw [hj, fold_name_inj ((Text.alike_iff.1 hname).trans h)]

lemma ofName?_eq_some_iff {name : String} {i : Interface} : ofName? name = some i ↔
    Text.fold (.ofList (Text.trim name.toList)) = Text.fold i.name := by
  rw [ofName?]
  exact find?_name_eq_some_iff

end Interface

lemma Attribute.satisfiedBy_iff {wanted : Attribute} {own : List Attribute} :
    wanted.satisfiedBy own = true ↔ ∃ before a after, own = before ++ a :: after ∧
      (∀ b ∈ before, Text.fold b.name ≠ Text.fold wanted.name) ∧
      Text.fold a.name = Text.fold wanted.name ∧
      ∀ v, wanted.value? = some v → ∃ w, a.value? = some w ∧ Text.fold w = Text.fold v := by
  have value : ∀ a, Text.fold a.name = Text.fold wanted.name → (wanted.accepts a = true ↔
      ∀ v, wanted.value? = some v → ∃ w, a.value? = some w ∧ Text.fold w = Text.fold v) := by
    intro a ha
    rw [accepts, Text.alike_iff.2 ha.symm, Bool.true_and]
    cases wanted.value? with
    | none => simp
    | some v =>
      cases a.value? with
      | none => simp
      | some w =>
        rw [Text.alike_iff]
        simp [eq_comm (a := Text.fold w)]
  rw [satisfiedBy, Option.any_eq_true]
  constructor
  · rintro ⟨a, hfind, ha⟩
    obtain ⟨hname, before, after, hown, hbefore⟩ := List.find?_eq_some_iff_append.1 hfind
    have hname := Text.alike_iff.1 hname
    refine ⟨before, a, after, hown, fun b hb => ?_, hname, (value a hname).1 ha⟩
    simpa [Text.alike_eq_false_iff] using hbefore b hb
  · rintro ⟨before, a, after, hown, hbefore, hname, ha⟩
    refine ⟨a, List.find?_eq_some_iff_append.2 ⟨Text.alike_iff.2 hname, before, after, hown,
      fun b hb => ?_⟩, (value a hname).2 ha⟩
    simpa [Text.alike_eq_false_iff] using hbefore b hb

/-! ### What an object has -/

namespace Tree

variable {t : Tree ν} {n : ν}

lemma interfaceNames_eq_empty_iff : t.interfaceNames n = ∅ ↔
    ∀ i ∈ Interface.all, ¬ t (.implements n i) = true := by
  rw [Set.eq_empty_iff_forall_notMem]
  constructor
  · intro h i _ hi
    refine h i.name ⟨i, ?_, hi⟩
    cases i <;> decide
  · rintro h name ⟨i, -, hi⟩
    exact h i (Interface.mem_all i) hi

lemma fittingAttributes_eq_empty_iff :
    t.fittingAttributes n = ∅ ↔ (t (.attributes n)).isEmpty = true := by
  rw [Set.eq_empty_iff_forall_notMem, List.isEmpty_iff]
  constructor
  · intro h
    cases hown : t (.attributes n) with
    | nil => rfl
    | cons a own =>
      have fits : (⟨a.name, none⟩ : Attribute) ∈ t.fittingAttributes n :=
        ⟨[], a, own, hown, by simp, rfl, by simp⟩
      exact absurd fits (h _)
  · rintro h wanted ⟨before, a, after, hown, -⟩
    rw [h] at hown
    simp at hown

end Tree

/-! ### Rules -/

namespace Rule

variable {r : Rule} {s : Settings} {t : Tree ν} {n : ν}

lemma decides_interfacesHold : Decides (r.interfacesHold t.atRest n)
    (r.interfaceMatch.Relates {name | name ∈ r.interfaces} (t.interfaceNames n)
      (t.interfaceNames n = ∅)) := by
  refine MatchType.decides_unless_nil (MatchType.decides_holds (fun name => ?_) ?_)
  -- A name that is no interface's is asked about no object, and no object has it.
  · cases hi : Interface.ofName? name with
    | none =>
      refine (decides_pure false).congr (iff_of_false Bool.false_ne_true ?_)
      rintro ⟨i, hname, -⟩
      rw [Interface.ofName?_eq_some_iff.2 hname] at hi
      cases hi
    | some i =>
      refine ⟨t (.implements n i), says_ask rfl, fun h => ?_, ?_⟩
      · exact ⟨i, Interface.ofName?_eq_some_iff.1 hi, h⟩
      · rintro ⟨j, hname, hj⟩
        rw [Interface.ofName?_eq_some_iff.2 hname] at hi
        cases hi
        exact hj
  · rw [Tree.interfaceNames_eq_empty_iff]
    exact Decides.allOf fun i => Decides.not ⟨_, says_ask rfl, Iff.rfl⟩

/-- The listed states are looked for, or their absence is. -/
lemma decides_statesHold_wanted : Decides (r.statesHold s t.atRest n)
    (r.stateMatch.Relates {x | r.states.contains x = true}
      {x | (t (.states n)).contains x = !(r.stateMatch == .any && s.anyState == .absent)}
      (t (.states n) = .empty)) := by
  have listed : {x | x ∈ r.states.toList} = {x | r.states.contains x = true} := by simp
  refine MatchType.decides_unless_nothing (fun hl => ?_) (Decides.ask ?_)
  · rw [StateSet.isEmpty_iff.1 hl]
    simp
  · rw [← listed]
    refine MatchType.decides_holds (fun x => ?_) ?_
    · exact (decides_pure _).congr beq_iff_eq
    · exact (decides_pure _).congr StateSet.isEmpty_iff

lemma decides_statesHold : Decides (r.statesHold s t.atRest n)
    (if r.stateMatch = .any ∧ s.anyState = .absent then
      {x | r.states.contains x = true} = ∅ ∨ ¬ {x | r.states.contains x = true} ⊆ t.ownStates n
    else r.stateMatch.Relates {x | r.states.contains x = true} (t.ownStates n)
      (t (.states n) = .empty)) := by
  refine decides_statesHold_wanted.congr ?_
  split
  · rename_i legacy
    rw [legacy.1, legacy.2, Set.not_subset]
    simp [MatchType.Relates, Set.Nonempty, Tree.ownStates]
  · rename_i legacy
    have wanted : (r.stateMatch == .any && s.anyState == .absent) = false := by
      simpa using legacy
    rw [wanted]
    rfl

lemma decides_rolesHold : Decides (r.rolesHold t.atRest n)
    (r.roleMatch.Relates {x | x ∈ r.roles} {t (.role n)} (t (.role n) = .invalid)) := by
  refine MatchType.decides_unless_nil (Decides.ask (MatchType.decides_holds (fun x => ?_) ?_))
  · exact (decides_pure _).congr beq_iff_eq
  · exact (decides_pure _).congr beq_iff_eq

lemma decides_attributesHold : Decides (r.attributesHold t.atRest n)
    (r.attributeMatch.Relates {a | a ∈ r.attributes} (t.fittingAttributes n)
      (t.fittingAttributes n = ∅)) := by
  refine MatchType.decides_unless_nil (Decides.ask (MatchType.decides_holds (fun a => ?_) ?_))
  · exact (decides_pure _).congr Attribute.satisfiedBy_iff
  · exact (decides_pure _).congr Tree.fittingAttributes_eq_empty_iff.symm

/-- The four criteria are looked at one after the other. -/
lemma decides_describes : Decides (allOf [r.interfacesHold t.atRest n, r.statesHold s t.atRest n,
    r.rolesHold t.atRest n, r.attributesHold t.atRest n]) (r.Describes s t n) := by
  refine (decides_interfacesHold.allOf_cons <| decides_statesHold.allOf_cons <|
    decides_rolesHold.allOf_cons <| decides_attributesHold.allOf_cons decides_allOf_nil).congr ?_
  exact ⟨fun ⟨hi, hs, hr, ha, _⟩ => ⟨hi, hs, hr, ha⟩,
    fun hd => ⟨hd.interfaces, hd.states, hd.roles, hd.attributes, trivial⟩⟩

theorem decides_accepts : Decides (r.accepts s t.atRest n) (t.isValid n = true ∧
    if s.honorInvert = true ∧ r.invert = true then ¬ r.Describes s t n
    else r.Describes s t n) := by
  refine Decides.ask ?_
  change Decides (if t.isValid n then _ else _) _
  cases t.isValid n with
  | false => exact (decides_pure false).congr (by simp)
  | true =>
    obtain ⟨met, hmet, hiff⟩ := decides_describes (r := r) (s := s) (t := t) (n := n)
    refine ⟨met != (s.honorInvert && r.invert), hmet.bind (says_pure _), ?_⟩
    rw [← hiff]
    cases s.honorInvert <;> cases r.invert <;> simp

lemma meets_iff : t.meets r s n = true ↔ t.isValid n = true ∧
    if s.honorInvert = true ∧ r.invert = true then ¬ r.Describes s t n
    else r.Describes s t n := by
  obtain ⟨met, hmet, hiff⟩ := decides_accepts (r := r) (s := s) (t := t) (n := n)
  have heq : t.meets r s n = met := hmet _
  rw [heq, hiff]

end Rule

/-- An object meets a rule when it is there and is described by the rule, or is not described where
the rule asks for the others and may. Where the object's states are put together from states, to
have the empty set of them is to be in none. -/
theorem Rule.accepts_described (r : Rule) (s : Settings) (t : Tree ν) (n : ν) :
    (∃ met, Says (r.accepts s t.atRest n) met ∧ (met = true ↔ t.isValid n = true ∧
      if s.honorInvert = true ∧ r.invert = true then ¬ r.Describes s t n
      else r.Describes s t n)) ∧
    ∀ xs, t (.states n) = .ofList xs → (t (.states n) = .empty ↔ t.ownStates n = ∅) := by
  refine ⟨decides_accepts, fun xs hxs => ?_⟩
  rw [Set.eq_empty_iff_forall_notMem, hxs, StateSet.ofList_eq_empty_iff]
  simp [Tree.ownStates, hxs]

/-- The rule for objects that are in no state. -/
def Rule.stateless : Rule := Rule.anyObject.withStates .empty .empty

theorem Rule.accepts_described_sample :
    Says (Rule.stateless.accepts {} Tree.sample.atRest 0) false := by
  obtain ⟨⟨met, hmet, hiff⟩, hempty⟩ := Rule.accepts_described Rule.stateless {} Tree.sample 0
  have hstate : State.defunct ∈ Tree.sample.ownStates 0 := rfl
  have hnot : ¬ Rule.stateless.Describes {} Tree.sample 0 := by
    intro hd
    have hnone := (hempty [.defunct] rfl).1 (hd.states.2 (by simp [stateless, withStates]))
    rw [hnone] at hstate
    exact hstate
  cases met with
  | false => exact hmet
  | true => exact absurd (hiff.1 rfl).2 hnot

end AccessTree
