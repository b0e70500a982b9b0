import AccessTree.Proofs.MoreSteps
import AccessTree.Proofs.Tracking

/-!
Rules and limits. Neither of them steers a search of a tree at rest: what is found is chosen from
what a search for any object finds, in the order in which that search comes to it.
-/

namespace AccessTree

open WalkM

variable {ν α : Type} {t : Tree ν}

/-- The first objects, as many as a limit allows. A limit of 0 is none. -/
def cut (limit : Nat) (l : List α) : List α := if limit = 0 then l else l.take limit

lemma cut_sublist (limit : Nat) (l : List α) : (cut limit l).Sublist l := by
  unfold cut
  split
  · exact .refl l
  · exact List.take_sublist _ _

lemma cut_of_length_le {limit : Nat} {l : List α} (h : limit ≠ 0 → l.length ≤ limit) :
    cut limit l = l := by
  unfold cut
  split
  · rfl
  · rename_i hne
    exact List.take_of_length_le (h hne)

/-! ### Searches -/

/-- The objects that a search has come to, in the order asked for. A search back comes to the
nearest object first. -/
def SortOrder.arrange (sort : SortOrder) (d : Direction) (found : List ν) : List ν :=
  match sort.reversed? with
  | some reversed => if reversed != (d == .back) then found.reverse else found
  | none => []

namespace SortOrder

variable {sort : SortOrder} {reversed : Bool}

lemma arrange_onward (h : sort.reversed? = some reversed) :
    (sort.arrange .onward : List ν → List ν) = fun l => if reversed then l.reverse else l := by
  unfold arrange
  rw [h]
  cases reversed <;> rfl

lemma arrange_back (h : sort.reversed? = some reversed) :
    (sort.arrange .back : List ν → List ν) = fun l => if !reversed then l.reverse else l := by
  unfold arrange
  rw [h]
  cases reversed <;> rfl

lemma eq_nil_of_arrange (h : sort.reversed? ≠ none) (d : Direction) {l : List ν}
    (hl : sort.arrange d l = []) : l = [] := by
  obtain ⟨reversed, h⟩ := Option.ne_none_iff_exists'.1 h
  unfold arrange at hl
  rw [h] at hl
  dsimp only at hl
  split at hl
  · exact List.reverse_eq_nil_iff.1 hl
  · exact hl

lemma mem_arrange {d : Direction} {l : List ν} {y : ν} :
    y ∈ sort.arrange d l ↔ sort.reversed? ≠ none ∧ y ∈ l := by
  unfold arrange
  split
  · split <;> simp_all
  · simp_all

lemma length_arrange_le (sort : SortOrder) (d : Direction) (l : List ν) :
    (sort.arrange d l).length ≤ l.length := by
  unfold arrange
  split
  · split
    · exact Nat.le_of_eq List.length_reverse
    · exact Nat.le_refl _
  · exact Nat.zero_le _

lemma arrange_nil (sort : SortOrder) (d : Direction) : sort.arrange d ([] : List ν) = [] := by
  unfold arrange
  split
  · split <;> rfl
  · rfl

end SortOrder

namespace Search

/-- Where the second search ends with what is made of a list, the first one ends with what is made
of the same list. -/
def Follows (made made' : List ν → List ν) (x y : Search Unit ν (List ν)) : Prop :=
  ∀ asked l, (y asked).1 = some (made' l) → x.Gives (made l)

variable {made made' : List ν → List ν} {x y : Search Unit ν (List ν)}
  {f g : α → Search Unit ν (List ν)}

lemma follows_lift {q : Inquiry Unit ν α} (hq : Inquiry.Steady q)
    (h : ∀ a, Follows made made' (f a) (g a)) :
    Follows made made' (OptionT.lift q >>= f) (OptionT.lift q >>= g) := by
  obtain ⟨a, ha⟩ := hq
  intro asked l hl
  refine (gives_lift ha).bind (h a (q asked).2 l ?_)
  rw [← ha asked]
  exact hl

lemma follows_ask {q : Question ν} {f g : q.Answer → Search Unit ν (List ν)}
    (h : ∀ a, Follows made made' (f a) (g a)) :
    Follows made made' (ask t.atRest q >>= f) (ask t.atRest q >>= g) :=
  follows_lift (Inquiry.steady_ask t q) h

lemma follows_note (n : Notice ν) (h : Follows made made' x y) :
    Follows made made' (note n >>= fun _ => x) (note n >>= fun _ => y) :=
  follows_lift ⟨(), Inquiry.says_note n⟩ fun _ => h

lemma follows_nil (h : ∀ l, made' l = [] → l = []) (hnil : made [] = []) :
    Follows made made' (pure [] : Search Unit ν (List ν)) (pure []) := by
  intro asked l hl
  rw [h l (Option.some.inj hl).symm, hnil]
  exact gives_pure []

lemma follows_finish (r r' : Bool) (h : Follows made id x y) :
    Follows (fun l => if r then (made l).reverse else made l)
      (fun l => if r' then l.reverse else l) (x >>= finish r) (y >>= finish r') := by
  intro asked l hl
  rw [bind_apply] at hl
  rcases hy : y asked with ⟨_ | l', asked'⟩
  · rw [hy] at hl
    cases hl
  · rw [hy] at hl
    have hl : (if r' then l'.reverse else l') = if r' then l.reverse else l := Option.some.inj hl
    obtain rfl : l' = l := by cases r' <;> simpa using hl
    exact (h asked l' (by rw [hy]; rfl)).bind (gives_finish r _)

lemma follows_collect {w : Walker Unit ν} {x y : WalkM Unit ν Unit} (h : w.Tracks t x y)
    (stop : Option ν) :
    Follows (fun l => cut w.limit (l.filter (t.meets w.rule w.settings))) id
      (collect stop x) (collect stop y) := by
  intro asked l hl
  rw [collect_eq] at hl
  obtain ⟨e, stop', found, hy, he, rfl⟩ : ∃ e stop' found,
      outcome y ⟨asked, stop, #[]⟩ = (e, stop', found) ∧ e ≠ .error .exhausted ∧
        found.toList = l := by
    split at hl
    · exact ⟨_, _, _, ‹_›, by simp, Option.some.inj hl⟩
    · exact ⟨_, _, _, ‹_›, by simp, Option.some.inj hl⟩
    · cases hl
  obtain ⟨new, rfl, hx⟩ := h _ _ _ _ _ _ hy he
  have hempty : w.isFull #[] = false := by simp [Walker.isFull]
  refine gives_collect fun asked => ?_
  -- The limited walk either keeps pace to the end or breaks off when it has enough.
  rcases hx asked #[] hempty with ⟨hall, hx⟩ | ⟨hall, stop', hx⟩
  · refine ⟨e, stop', he, hx.trans ?_⟩
    simp only [Walker.isFull, Array.empty_append, List.size_toArray, Bool.and_eq_false_iff,
      bne_eq_false_iff_eq, decide_eq_false_iff_not] at hall
    simp only [Array.empty_append]
    rw [cut_of_length_le fun hne => by have := hall.resolve_left hne; omega]
  · refine ⟨.error .broken, stop', by simp, hx.trans ?_⟩
    have hne : w.limit ≠ 0 := by
      simp [Walker.isFull] at hall
      exact hall.1
    simp [cut, hne]

lemma Gives.extends {x y : Search Unit ν α} {a : α} (h : x.Gives a) (hxy : Extends x y) :
    y.Gives a := fun asked => by
  have hx : (x asked).1 = some a := h asked
  exact (congrArg Prod.fst (hxy.eq hx)).trans hx

end Search

namespace Tree

/-- With some number of steps the search ends with these objects. -/
def Ends (t : Tree ν) (s : Settings) (search : Finder Unit ν → Search Unit ν (List ν))
    (l : List ν) : Prop :=
  ∃ steps asked, (search ⟨t.atRest, s, steps⟩ asked).1 = some l

lemma Answers.ends {s : Settings} {search : Finder Unit ν → Search Unit ν (List ν)} {l : List ν}
    (h : t.Answers s search l) : t.Ends s search l := by
  obtain ⟨enough, h⟩ := h
  exact ⟨enough, ⟨(), #[]⟩, h enough (Nat.le_refl enough) _⟩

end Tree

open Search

namespace Finder

variable {s : Settings} {steps : Nat}

/-- What a rule and a limit leave of what is found for any object and without a limit. -/
abbrev kept (t : Tree ν) (s : Settings) (rule : Rule) (limit : Nat) (found : List ν) : List ν :=
  cut (s.limit limit) (found.filter (t.meets rule s))

@[simp] lemma kept_nil {rule : Rule} {limit : Nat} : kept t s rule limit [] = [] := by
  unfold kept cut
  split <;> simp

variable [DecidableEq ν]

lemma follows_walk (rule : Rule) (anchor : ν) (limit : Nat) (traverse : Bool)
    {walk : Walker Unit ν → WalkM Unit ν Unit}
    (h : ∀ w : Walker Unit ν, w.plain.Lockstep (fun _ x y => w.Tracks t y x) w →
      w.Tracks t (walk w) (walk w.plain))
    (stop : Option ν) : Follows (kept t s rule limit) id
      (collect stop
        (walk ((⟨t.atRest, s, steps⟩ : Finder Unit ν).walker rule anchor limit traverse)))
      (collect stop (walk ((⟨t.atRest, { s with maxResults := 0 }, steps⟩ : Finder Unit ν).walker
        .anyObject anchor 0 traverse))) :=
  follows_collect (h (walker ⟨t.atRest, s, steps⟩ rule anchor limit traverse)
    (Walker.lockstep_tracks rfl)) stop

lemma follows_findOnward (q : Query ν) (sort : SortOrder) (direction : Direction) :
    Follows (kept t s q.rule q.limit) id ((⟨t.atRest, s, steps⟩ : Finder Unit ν).findOnward q)
    ((⟨t.atRest, { s with maxResults := 0 }, steps⟩ : Finder Unit ν).findOnward
      { q with rule := .anyObject, sort, direction, limit := 0 }) := by
  unfold findOnward
  dsimp only
  cases q.scope with
  | children => exact follows_walk _ _ _ _ (fun w h => h.forward le_rfl _ _) none
  | inorder => exact follows_walk _ _ _ _ (fun w h => h.sweep le_rfl _ _) none
  | siblings =>
    dsimp only
    split
    · exact follows_nil (fun _ => id) kept_nil
    · refine follows_ask fun parent? => follows_ask fun index? => ?_
      split
      · exact follows_walk _ _ _ _ (fun w h => h.forward le_rfl _ _) none
      · exact follows_note _ (follows_nil (fun _ => id) kept_nil)

lemma follows_findBack (q : Query ν) (sort : SortOrder) (direction : Direction) :
    Follows (kept t s q.rule q.limit) id ((⟨t.atRest, s, steps⟩ : Finder Unit ν).findBack q)
    ((⟨t.atRest, { s with maxResults := 0 }, steps⟩ : Finder Unit ν).findBack
      { q with rule := .anyObject, sort, direction, limit := 0 }) := by
  unfold findBack
  dsimp only
  split
  · refine follows_ask fun parent? => ?_
    cases parent? with
    | none => exact follows_note _ (follows_nil (fun _ => id) kept_nil)
    | some parent => exact follows_walk _ _ _ _ (fun w h => h.backward le_rfl _) _
  · exact follows_walk _ _ _ _ (fun w h => h.backward le_rfl _) _

/-- A search from an anchor, made with any limit and for any rule, against the one without. -/
lemma follows_find (q : Query ν) {sort : SortOrder} (h : sort.reversed? ≠ none) :
    Follows (fun l => q.sort.arrange q.direction (kept t s q.rule q.limit l))
      (sort.arrange q.direction)
      ((⟨t.atRest, s, steps⟩ : Finder Unit ν).find q)
      ((⟨t.atRest, { s with maxResults := 0 }, steps⟩ : Finder Unit ν).find
        { q with rule := .anyObject, sort, limit := 0 }) := by
  obtain ⟨r', hr'⟩ := Option.ne_none_iff_exists'.1 h
  cases hr : q.sort.reversed? with
  | none =>
    -- An order that is not supported ends the search before anything is asked.
    intro asked l _
    unfold find sorted SortOrder.arrange
    rw [hr]
    exact (gives_note _).bind (gives_pure [])
  | some r =>
    have hnil : Follows (fun l => q.sort.arrange q.direction (kept t s q.rule q.limit l))
        (sort.arrange q.direction) (pure [] : Search Unit ν (List ν)) (pure []) :=
      follows_nil (fun l => SortOrder.eq_nil_of_arrange h q.direction)
        (by rw [kept_nil, SortOrder.arrange_nil])
    unfold find sorted
    rw [hr, hr']
    refine follows_ask fun valid => ?_
    cases valid
    · exact follows_note _ hnil
    let w := (⟨t.atRest, s, steps⟩ : Finder Unit ν).walker q.rule q.anchor q.limit true
    dsimp only
    rw [show ((⟨t.atRest, { s with maxResults := 0 }, steps⟩ : Finder Unit ν).walker
      .anyObject q.anchor 0 true) = w.plain from rfl, Walker.encloses_plain]
    refine follows_lift (w.steady_encloses rfl _ _) fun inside => ?_
    cases inside
    · exact follows_note _ hnil
    -- Either side may turn its results round, and each by its own order.
    cases q.direction with
    | onward =>
      rw [SortOrder.arrange_onward hr, SortOrder.arrange_onward hr']
      exact follows_finish r r' (follows_findOnward q _ _)
    | back =>
      rw [SortOrder.arrange_back hr, SortOrder.arrange_back hr']
      exact follows_finish (!r) (!r') (follows_findBack q _ _)

lemma follows_findAll (collection : ν) (rule : Rule) (sort : SortOrder) (limit : Nat)
    (traverse : Bool) {sort' : SortOrder} (h : sort'.reversed? ≠ none) :
    Follows (fun l => sort.arrange .onward (kept t s rule limit l)) (sort'.arrange .onward)
      ((⟨t.atRest, s, steps⟩ : Finder Unit ν).findAll collection rule sort limit traverse)
      ((⟨t.atRest, { s with maxResults := 0 }, steps⟩ : Finder Unit ν).findAll collection
        .anyObject sort' 0 traverse) := by
  obtain ⟨r', hr'⟩ := Option.ne_none_iff_exists'.1 h
  unfold findAll sorted
  rw [hr', SortOrder.arrange_onward hr']
  cases hr : sort.reversed? with
  | none =>
    intro asked l _
    unfold SortOrder.arrange
    rw [hr]
    exact (gives_note _).bind (gives_pure [])
  | some r =>
    rw [SortOrder.arrange_onward hr]
    exact follows_finish r r'
      (follows_walk _ _ _ _ (fun w h => h.forward le_rfl _ _) none)

omit [DecidableEq ν] in
lemma answers_of_ends {search search' : Finder Unit ν → Search Unit ν (List ν)} {l l' : List ν}
    (hl : t.Ends { s with maxResults := 0 } search' l')
    (h : ∀ steps asked, (search' ⟨t.atRest, { s with maxResults := 0 }, steps⟩ asked).1 = some l' →
      (search ⟨t.atRest, s, steps⟩).Gives l)
    (hmore : ∀ f : Finder Unit ν, ∀ steps ≥ f.steps,
      Search.Extends (search f) (search { f with steps })) : t.Answers s search l := by
  obtain ⟨enough, asked, hl⟩ := hl
  exact ⟨enough, fun steps hs => (h enough asked hl).extends (hmore _ steps hs)⟩

lemma answers_findAll_of_ends (collection : ν) (rule : Rule) (limit : Nat) (traverse : Bool)
    {found : List ν} {sort' : SortOrder} (h : sort'.reversed? ≠ none)
    (hf : t.Ends { s with maxResults := 0 } (·.findAll collection .anyObject sort' 0 traverse)
      (sort'.arrange .onward found)) (sort : SortOrder) :
    t.Answers s (·.findAll collection rule sort limit traverse)
      (sort.arrange .onward (kept t s rule limit found)) :=
  answers_of_ends hf
    (fun _ asked => follows_findAll collection rule sort limit traverse h asked found)
    fun _ _ hs => extends_findAll hs _ _ _ _ _

lemma answers_find_of_ends (q : Query ν) {found : List ν} {sort' : SortOrder}
    (h : sort'.reversed? ≠ none)
    (hf : t.Ends { s with maxResults := 0 }
      (·.find { q with rule := .anyObject, sort := sort', limit := 0 })
      (sort'.arrange q.direction found)) :
    t.Answers s (·.find q) (q.sort.arrange q.direction (kept t s q.rule q.limit found)) :=
  answers_of_ends hf (fun _ asked => follows_find q h asked found) fun _ _ hs => extends_find hs q

/-- A rule and a limit only choose from what a search comes to. In the order in which a search for
any object and without a limit comes to its objects, the objects found are the first ones that
meet the rule, as many as the limit allows. They are given in this order where the sort
asked for goes the way of the search, and the other way round otherwise. -/
theorem answers_cut (t : Tree ν) (s : Settings) :
    (∀ collection rule limit traverse found sort', sort'.reversed? ≠ none →
      t.Ends { s with maxResults := 0 } (·.findAll collection .anyObject sort' 0 traverse)
        (sort'.arrange .onward found) →
      ∀ sort, t.Answers s (·.findAll collection rule sort limit traverse)
        (sort.arrange .onward (cut (s.limit limit) (found.filter (t.meets rule s))))) ∧
    ∀ (q : Query ν) found sort', sort'.reversed? ≠ none →
      t.Ends { s with maxResults := 0 }
        (·.find { q with rule := .anyObject, sort := sort', limit := 0 })
        (sort'.arrange q.direction found) →
      t.Answers s (·.find q)
        (q.sort.arrange q.direction (cut (s.limit q.limit) (found.filter (t.meets q.rule s)))) :=
  ⟨fun collection rule limit traverse _ _ h hf sort =>
    answers_findAll_of_ends collection rule limit traverse h hf sort,
    fun q _ _ h hf => answers_find_of_ends q h hf⟩

theorem answers_cut_sample :
    let q : Query (Fin 4) := { collection := 0, anchor := 3, direction := .back, limit := 1 }
    SortOrder.canonical.reversed? ≠ none ∧ SortOrder.reverseCanonical.reversed? ≠ none ∧
      Tree.sample.Ends {} (·.findAll 0 .anyObject .canonical 0 true) [1, 2, 3] ∧
      Tree.sample.Answers {} (·.findAll 0 .anyObject .reverseCanonical 2 true) [2, 1] ∧
      Tree.sample.Ends {} (·.find { q with limit := 0, sort := .reverseCanonical }) [2, 1] ∧
      Tree.sample.Answers {} (·.find q) [2] := by
  intro q
  have hall : Tree.sample.Ends {} (·.findAll 0 .anyObject .canonical 0 true) [1, 2, 3] :=
    ⟨9, ⟨(), #[]⟩, by decide +kernel⟩
  have hback : Tree.sample.Ends {} (·.find { q with limit := 0, sort := .reverseCanonical })
      [2, 1] := ⟨9, ⟨(), #[]⟩, by decide +kernel⟩
  refine ⟨by decide, by decide, hall, ?_, hback, ?_⟩
  · exact (answers_cut Tree.sample {}).1 0 .anyObject 2 true [1, 2, 3] .canonical (by decide) hall
      .reverseCanonical
  · exact (answers_cut Tree.sample {}).2 q [2, 1] .reverseCanonical (by decide) hback

end Finder

end AccessTree
