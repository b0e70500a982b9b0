import Mathlib.Data.Set.Image
import AccessTree.Proofs.RuleMeaning

/-!
Rules that are written in different ways. The order in which things are listed, their repetition
and the case of letters make no difference to what a rule is met by, and so none to what any search
for it finds.
-/

namespace AccessTree

open Inquiry

variable {α β ν : Type}

/-- An attribute up to the case of ASCII letters. -/
def Attribute.folded (a : Attribute) : List Char × Option (List Char) :=
  (Text.fold a.name, a.value?.map Text.fold)

/-- The name of an interface up to the case of ASCII letters and the blanks around it. -/
def Interface.folded (name : String) : List Char := Text.fold (.ofList (Text.trim name.toList))

/-- The rules list the same things in each of their criteria, and ask the same about them. -/
structure Rule.Respells (r r' : Rule) : Prop where
  states : {x | r.states.contains x = true} = {x | r'.states.contains x = true}
  stateMatch : r.stateMatch = r'.stateMatch
  attributes : Attribute.folded '' {a | a ∈ r.attributes} =
    Attribute.folded '' {a | a ∈ r'.attributes}
  attributeMatch : r.attributeMatch = r'.attributeMatch
  roles : {x | x ∈ r.roles} = {x | x ∈ r'.roles}
  roleMatch : r.roleMatch = r'.roleMatch
  interfaces : Interface.folded '' {name | name ∈ r.interfaces} =
    Interface.folded '' {name | name ∈ r'.interfaces}
  interfaceMatch : r.interfaceMatch = r'.interfaceMatch
  invert : r.invert = r'.invert

/-! ### Deciding whether rules list the same things -/

lemma image_mem_eq_iff {f : α → β} {l l' : List α} : f '' {a | a ∈ l} = f '' {a | a ∈ l'} ↔
    l.map f ⊆ l'.map f ∧ l'.map f ⊆ l.map f := by
  rw [Set.Subset.antisymm_iff]
  simp [List.subset_def, Set.subset_def]

lemma mem_eq_iff {l l' : List α} : {a | a ∈ l} = {a | a ∈ l'} ↔ l ⊆ l' ∧ l' ⊆ l :=
  Set.Subset.antisymm_iff

lemma Rule.respells_iff {r r' : Rule} : r.Respells r' ↔
    ({x | x ∈ r.states.toList} = {x | x ∈ r'.states.toList} ∧ r.stateMatch = r'.stateMatch) ∧
    (Attribute.folded '' {a | a ∈ r.attributes} = Attribute.folded '' {a | a ∈ r'.attributes} ∧
      r.attributeMatch = r'.attributeMatch) ∧
    ({x | x ∈ r.roles} = {x | x ∈ r'.roles} ∧ r.roleMatch = r'.roleMatch) ∧
    (Interface.folded '' {a | a ∈ r.interfaces} = Interface.folded '' {a | a ∈ r'.interfaces} ∧
      r.interfaceMatch = r'.interfaceMatch) ∧ r.invert = r'.invert := by
  simp only [StateSet.mem_toList]
  constructor
  · intro h
    exact ⟨⟨h.states, h.stateMatch⟩, ⟨h.attributes, h.attributeMatch⟩, ⟨h.roles, h.roleMatch⟩,
      ⟨h.interfaces, h.interfaceMatch⟩, h.invert⟩
  · rintro ⟨⟨hs, hsm⟩, ⟨ha, ham⟩, ⟨hr, hrm⟩, ⟨hi, him⟩, hinv⟩
    exact ⟨hs, hsm, ha, ham, hr, hrm, hi, him, hinv⟩

instance (r r' : Rule) : Decidable (r.Respells r') := decidable_of_iff _ <| by
  rw [Rule.respells_iff, mem_eq_iff, image_mem_eq_iff, mem_eq_iff, image_mem_eq_iff]

/-! ### Criteria -/

namespace MatchType

variable {m : MatchType} {listed listed' own : Set α} {nothing : Prop} {f : α → β}

lemma relates_preimage {own : Set β} :
    m.Relates listed (Set.preimage f own) nothing ↔ m.Relates (f '' listed) own nothing := by
  cases m with
  | all => exact Set.image_subset_iff.symm
  | any => rw [Relates, Relates, Set.image_eq_empty, Set.image_inter_nonempty_iff]
  | none => rw [Relates, Relates, ← Set.image_inter_preimage, Set.image_eq_empty]
  | empty => rw [Relates, Relates, Set.image_subset_iff, Set.image_nonempty, Set.image_eq_empty]
  | invalid => exact Set.image_eq_empty.symm

/-- Things that an object has or lacks together may be listed for each other. -/
lemma relates_congr (hl : f '' listed = f '' listed')
    (hown : ∀ a b, f a = f b → a ∈ own → b ∈ own) :
    m.Relates listed own nothing ↔ m.Relates listed' own nothing := by
  have hfold : own = Set.preimage f (f '' own) := by
    refine Set.Subset.antisymm (Set.subset_preimage_image f own) ?_
    rintro b ⟨a, ha, hab⟩
    exact hown a b hab ha
  rw [hfold, relates_preimage, relates_preimage, hl]

end MatchType

namespace Tree

variable {t : Tree ν} {n : ν}

lemma mem_interfaceNames_of_folded {name name' : String}
    (h : Interface.folded name = Interface.folded name') (hn : name ∈ t.interfaceNames n) :
    name' ∈ t.interfaceNames n := by
  obtain ⟨i, hname, hi⟩ := hn
  exact ⟨i, h.symm.trans hname, hi⟩

lemma mem_fittingAttributes_of_folded {a b : Attribute} (h : a.folded = b.folded)
    (ha : a ∈ t.fittingAttributes n) : b ∈ t.fittingAttributes n := by
  obtain ⟨before, own, after, hown, hbefore, hname, hvalue⟩ := ha
  obtain ⟨hn, hv⟩ := Prod.ext_iff.1 h
  change Text.fold a.name = Text.fold b.name at hn
  refine ⟨before, own, after, hown, fun c hc => hn ▸ hbefore c hc, hname.trans hn, ?_⟩
  intro v hb
  have hfold : a.value?.map Text.fold = some (Text.fold v) :=
    hv.trans (congrArg (Option.map Text.fold) hb)
  obtain ⟨u, ha, hu⟩ := Option.map_eq_some_iff.1 hfold
  obtain ⟨w, hw, hwu⟩ := hvalue u ha
  exact ⟨w, hw, hwu.trans hu⟩

end Tree

/-! ### Rules -/

namespace Rule

variable {r r' : Rule} {s : Settings} {t : Tree ν} {n : ν}

/-- Things that are given to a rule to list may be given in another order and more than once. -/
lemma Respells.given (h : r.Respells r') {states states' : List State} {roles roles' : List Role}
    (hs : {x | x ∈ states} = {x | x ∈ states'}) (hr : {x | x ∈ roles} = {x | x ∈ roles'})
    (m m' : MatchType) : ((r.withStates (.ofList states) m).withRoles roles m').Respells
      ((r'.withStates (.ofList states') m).withRoles roles' m') := by
  refine { h with states := ?_, stateMatch := rfl, roles := ?_, roleMatch := rfl }
  · simpa [withStates, withRoles] using hs
  · simpa [withStates, withRoles] using hr

lemma Respells.describes_iff (h : r.Respells r') : r.Describes s t n ↔ r'.Describes s t n := by
  have hi : r.interfaceMatch.Relates {name | name ∈ r.interfaces} (t.interfaceNames n)
      (t.interfaceNames n = ∅) ↔ r'.interfaceMatch.Relates {name | name ∈ r'.interfaces}
      (t.interfaceNames n) (t.interfaceNames n = ∅) := by
    rw [h.interfaceMatch]
    exact MatchType.relates_congr h.interfaces fun _ _ => Tree.mem_interfaceNames_of_folded
  have ha : r.attributeMatch.Relates {a | a ∈ r.attributes} (t.fittingAttributes n)
      (t.fittingAttributes n = ∅) ↔ r'.attributeMatch.Relates {a | a ∈ r'.attributes}
      (t.fittingAttributes n) (t.fittingAttributes n = ∅) := by
    rw [h.attributeMatch]
    exact MatchType.relates_congr h.attributes fun _ _ => Tree.mem_fittingAttributes_of_folded
  constructor
  · intro d
    exact ⟨hi.1 d.interfaces, h.states ▸ h.stateMatch ▸ d.states,
      h.roles ▸ h.roleMatch ▸ d.roles, ha.1 d.attributes⟩
  · intro d
    exact ⟨hi.2 d.interfaces, h.states ▸ h.stateMatch ▸ d.states,
      h.roles ▸ h.roleMatch ▸ d.roles, ha.2 d.attributes⟩

lemma Respells.meets_eq (h : r.Respells r') : t.meets r s n = t.meets r' s n := by
  rw [Bool.eq_iff_iff, meets_iff, meets_iff, h.invert, h.describes_iff]

end Rule

/-! ### Walks

A walker reads its rule in its visits and nowhere else.
-/

namespace Walker

variable {σ : Type} [DecidableEq ν] {w : Walker σ ν} {r : Rule}
  (h : ∀ n, r.accepts w.settings w.tree n = w.accepts n)
include h

lemma visit_congr (n : ν) : ({ w with rule := r } : Walker σ ν).visit n = w.visit n := by
  funext k
  rw [visit_apply, visit_apply, ← h n]
  rfl

lemma forwardFrom_congr (steps depth : Nat) (container : ν) (index : Nat) :
    ({ w with rule := r } : Walker σ ν).forwardFrom steps depth container index =
      w.forwardFrom steps depth container index := by
  induction steps generalizing depth container index with
  | zero => rfl
  | succ steps ih =>
    rw [forwardFrom_succ, forwardFrom_succ]
    refine bind_congr fun child? => ?_
    cases child? with
    | none => rfl
    | some child =>
      dsimp only
      rw [ih, ih, atChild, atChild, visit_congr h]
      rfl

lemma ascend_congr (steps : Nat) (collection : ν) (levels : Nat) (n : ν) :
    ({ w with rule := r } : Walker σ ν).ascend steps collection levels n =
      w.ascend steps collection levels n := by
  induction levels generalizing n with
  | zero =>
    unfold ascend
    rfl
  | succ levels ih =>
    unfold ascend forward
    simp only [ih, forwardFrom_congr h]
    rfl

lemma sweep_congr (steps : Nat) (collection anchor : ν) :
    ({ w with rule := r } : Walker σ ν).sweep steps collection anchor =
      w.sweep steps collection anchor := by
  have hin := w.encloses_update r w.settings w.limit collection anchor
  unfold sweep forward
  simp only [ascend_congr h, forwardFrom_congr h, hin]
  rfl

lemma backward_congr (steps : Nat) (n : ν) :
    ({ w with rule := r } : Walker σ ν).backward steps n = w.backward steps n := by
  induction steps generalizing n with
  | zero => rfl
  | succ steps ih =>
    have hprevious := w.previous_update r w.settings w.limit n
    unfold backward
    simp only [ih, visit_congr h, hprevious]

end Walker

/-! ### Searches -/

namespace Finder

variable [DecidableEq ν] {r r' : Rule} {f : Finder Unit ν} {t : Tree ν} (hf : f.tree = t.atRest)
  (h : r.Respells r')
include hf h

omit [DecidableEq ν] in
lemma accepts_walker (anchor : ν) (limit : Nat) (traverse : Bool) (n : ν) :
    r.accepts f.settings f.tree n = (f.walker r' anchor limit traverse).accepts n := by
  rw [Walker.accepts, walker, hf, Rule.accepts_atRest, Rule.accepts_atRest, h.meets_eq]

lemma forward_walker (anchor : ν) (limit : Nat) (traverse : Bool) (container : ν) (start : Nat) :
    (f.walker r anchor limit traverse).forward f.steps container start =
      (f.walker r' anchor limit traverse).forward f.steps container start :=
  Walker.forwardFrom_congr (w := f.walker r' anchor limit traverse)
    (accepts_walker hf h anchor limit traverse) f.steps 0 container start

lemma sweep_walker (anchor : ν) (limit : Nat) (traverse : Bool) (collection n : ν) :
    (f.walker r anchor limit traverse).sweep f.steps collection n =
      (f.walker r' anchor limit traverse).sweep f.steps collection n :=
  Walker.sweep_congr (w := f.walker r' anchor limit traverse)
    (accepts_walker hf h anchor limit traverse) f.steps collection n

lemma backward_walker (anchor : ν) (limit : Nat) (traverse : Bool) (n : ν) :
    (f.walker r anchor limit traverse).backward f.steps n =
      (f.walker r' anchor limit traverse).backward f.steps n :=
  Walker.backward_congr (w := f.walker r' anchor limit traverse)
    (accepts_walker hf h anchor limit traverse) f.steps n

lemma findAll_respelled (collection : ν) (sort : SortOrder) (limit : Nat) (traverse : Bool) :
    f.findAll collection r sort limit traverse = f.findAll collection r' sort limit traverse := by
  unfold findAll
  simp only [forward_walker hf h]

lemma findOnward_respelled (q : Query ν) :
    f.findOnward { q with rule := r } = f.findOnward { q with rule := r' } := by
  unfold findOnward
  simp only [forward_walker hf h, sweep_walker hf h]
  cases q.scope with
  | children => rfl
  | inorder => rfl
  | siblings =>
    dsimp only
    split
    · rfl
    · refine bind_congr fun parent? => bind_congr fun index? => ?_
      cases parent? <;> cases index? <;> rfl

lemma findBack_respelled (q : Query ν) :
    f.findBack { q with rule := r } = f.findBack { q with rule := r' } := by
  unfold findBack
  simp only [backward_walker hf h]
  split
  · refine bind_congr fun parent? => ?_
    cases parent? <;> rfl
  · rfl

lemma find_respelled (q : Query ν) :
    f.find { q with rule := r } = f.find { q with rule := r' } := by
  have inside : (f.walker r q.anchor q.limit true).encloses q.collection q.anchor =
      (f.walker r' q.anchor q.limit true).encloses q.collection q.anchor :=
    (f.walker r' q.anchor q.limit true).encloses_update r f.settings (f.settings.limit q.limit)
      q.collection q.anchor
  unfold find
  simp only [findOnward_respelled hf h, findBack_respelled hf h, inside]

end Finder

/-- Rules that list the same things in other ways have the same answer for every object of a tree
at rest, and the same is found for them. To list the same things a rule may be given states and
roles in any order, and any of them again. -/
theorem Rule.answers_respelled [DecidableEq ν] (r r' : Rule) (h : r.Respells r') (s : Settings)
    (t : Tree ν) :
    (∀ n, r.accepts s t.atRest n = r'.accepts s t.atRest n) ∧
    (∀ steps collection sort limit traverse,
      Finder.findAll ⟨t.atRest, s, steps⟩ collection r sort limit traverse =
        Finder.findAll ⟨t.atRest, s, steps⟩ collection r' sort limit traverse) ∧
    (∀ steps (q : Query ν), Finder.find ⟨t.atRest, s, steps⟩ { q with rule := r } =
      Finder.find ⟨t.atRest, s, steps⟩ { q with rule := r' }) ∧
    ∀ (states states' : List State) (roles roles' : List Role) (m m' : MatchType),
      {x | x ∈ states} = {x | x ∈ states'} → {x | x ∈ roles} = {x | x ∈ roles'} →
      ((r.withStates (.ofList states) m).withRoles roles m').Respells
        ((r'.withStates (.ofList states') m).withRoles roles' m') := by
  refine ⟨fun n => ?_, fun steps => Finder.findAll_respelled rfl h,
    fun steps => Finder.find_respelled rfl h, fun _ _ _ _ m m' hs hr => h.given hs hr m m'⟩
  rw [accepts_atRest, accepts_atRest, h.meets_eq]

/-- What is gone, has no role or the one of a label, is not tagged and is no text. -/
def Rule.terse : Rule where
  states := .ofList [.defunct]
  attributes := [⟨"tag", some "p"⟩]
  attributeMatch := .none
  roles := [.invalid, .label]
  roleMatch := .any
  interfaces := ["text"]
  interfaceMatch := .none

/-- The same again in more words. -/
def Rule.wordy : Rule :=
  anyObject.withStates (.ofList [.defunct, .defunct]) .all
    |>.withAttributes [⟨"Tag", some "p"⟩, ⟨"TAG", some "P"⟩] .none
    |>.withRoles [.label, .invalid, .label] .any
    |>.withInterfaces ["TEXT", " Text "] .none

theorem Rule.answers_respelled_sample : terse.Respells wordy ∧
    Finder.findAll ⟨Tree.sample.atRest, {}, 9⟩ 0 terse .canonical 0 true =
      Finder.findAll ⟨Tree.sample.atRest, {}, 9⟩ 0 wordy .canonical 0 true ∧
    ((terse.withStates (.ofList [.focused, .busy]) .any).withRoles [.label, .label] .all).Respells
      ((wordy.withStates (.ofList [.busy, .focused]) .any).withRoles [.label] .all) := by
  have h : terse.Respells wordy := by decide
  obtain ⟨-, hall, -, hgiven⟩ := Rule.answers_respelled terse wordy h {} Tree.sample
  refine ⟨h, hall 9 0 .canonical 0 true, hgiven _ _ _ _ .any .all ?_ ?_⟩
  · exact mem_eq_iff.2 (by decide)
  · exact mem_eq_iff.2 (by decide)

end AccessTree
