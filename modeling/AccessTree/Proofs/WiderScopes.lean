import AccessTree.Proofs.Limits
import AccessTree.Proofs.SweepSearch

/-!
Wider scopes. A search of a whole collection finds what the narrower searches from the same anchor
find. Of these, the search of the anchor's siblings asks whether the anchor may be entered, and the
search of what is below the anchor does not, so that the one need not find what the other finds.
-/

namespace AccessTree

open AccessTree.Tree

variable {ν : Type} {t : Tree ν}

namespace Tree

/-- What lies in the scope of a search onward. -/
def InScope (t : Tree ν) (s : Settings) (q : Query ν) (y : ν) : Prop :=
  match q.scope with
  | .children => t.Ahead (t.mayEnter q.traverse) s.maxDepth q.anchor 0 y
  | .siblings => ∃ p i, t.childAt p i = some q.anchor ∧
      t.Ahead (t.mayEnter q.traverse) s.maxDepth p i y
  | .inorder => t.Below q.collection y

section
variable {opens : ν → Bool} {levels i : Nat} {collection p x y : ν}

/-- What lies ahead of an object that is entered lies ahead of its own place as well. -/
lemma IsForest.ahead_of_child (ht : t.IsForest) (hc : t.childAt p i = some x)
    (hw : t.Within p (levels + 1)) (hx : opens x = true) (h : t.Ahead opens levels x 0 y) :
    t.Ahead opens levels p i y := by
  obtain ⟨j, ps, -, hy, -, hopen⟩ := h
  have hpath : t.follow p (i :: j :: ps) = some y := follow_cons.2 ⟨x, hc, hy⟩
  have hlength := hw _ _ hpath
  simp only [List.length_cons] at hlength
  refine ⟨i, j :: ps, le_rfl, hpath, by simpa using hlength, fun a ha hay => ?_⟩
  rcases (ht.reaches_between hc ⟨_, hy⟩ ha hay).eq_or_below with rfl | hxa
  · exact hx
  · exact hopen a hxa hay

/-- What is below an object that is not entered does not lie ahead of its place. -/
lemma not_ahead_of_closed (hc : t.childAt p i = some x) (hx : opens x = false)
    (hy : t.Below x y) : ¬ t.Ahead opens levels p i y := by
  rintro ⟨-, -, -, -, -, hopen⟩
  exact absurd (hopen x (below_of_childAt hc) hy) (by simp [hx])

end

end Tree

namespace Finder

open Search

variable [DecidableEq ν] {s : Settings} {q : Query ν}

/-- Where nothing lies too deep, a search onward from below its collection comes to what lies in
its scope. -/
lemma exists_find_scope (ht : t.IsForest) (hl : s.limit q.limit = 0) (hd : q.direction = .onward)
    (hs : q.sort = .canonical) (hw : t.Within q.collection s.maxDepth)
    (hx : t.Below q.collection q.anchor) : ∃ l, t.Answers s (·.find q) l ∧
      ∀ y, y ∈ l ↔ y ≠ q.anchor ∧ t.meets q.rule s y = true ∧ t.InScope s q y := by
  have ha := anchors_of_reaches (hw.mono (Nat.le_succ _)) (ht.valid_of_below hx).2 hx.reaches
  unfold InScope
  cases hscope : q.scope with
  | children =>
    obtain ⟨l, hanswer, hlist⟩ := exists_find_children ht ha hl hd hs hscope
    exact ⟨l, hanswer, hlist.mem_iff⟩
  | siblings =>
    have hne : q.anchor ≠ q.collection := fun he => ht.below_irrefl (he ▸ hx)
    obtain ⟨p, i, hc, l, hanswer, hlist⟩ := exists_find_siblings ht ha hl hd hs hscope hne
    refine ⟨l, hanswer, fun y => (hlist.mem_iff y).trans (and_congr_right fun _ =>
      and_congr_right fun _ => ⟨fun hy => ⟨p, i, hc, hy⟩, ?_⟩)⟩
    -- A forest has one place for the anchor.
    rintro ⟨p', i', hc', hy⟩
    obtain ⟨-, hp, hi⟩ := ht.of_childAt hc
    obtain ⟨-, hp', hi'⟩ := ht.of_childAt hc'
    cases hp.symm.trans hp'
    cases hi.symm.trans hi'
    exact hy
  | inorder =>
    let w := (⟨t.atRest, s, 0⟩ : Finder Unit ν).walker q.rule q.anchor q.limit true
    obtain ⟨before, after, hlist, hsweep⟩ :=
      w.exists_sweep rfl ht hl (fun _ => mayEnter_true) hw hx
    refine ⟨_, answers_sweep ht ha hd hs hscope hsweep, fun y => ?_⟩
    obtain ⟨hbefore, hafter⟩ := ht.lists_split hlist
    have hrotated := ht.rotate_lists (Q := True) hlist (by simp)
      (fun z hz => ((hbefore.mem_iff z).1 hz).2) fun z hz => ((hafter.mem_iff z).1 hz).2
    rw [List.mem_filter, hrotated.2 y]
    exact ⟨fun hy => ⟨hy.1.2, hy.2, hy.1.1⟩, fun hy => ⟨⟨hy.2.2, hy.1⟩, hy.2.1⟩⟩

/-- The order asked for does not matter unless it is one that cannot be given. -/
lemma exists_answers_scope (ht : t.IsForest) (hl : s.limit q.limit = 0)
    (hd : q.direction = .onward) (hw : t.Within q.collection s.maxDepth)
    (hx : t.Below q.collection q.anchor) : ∃ l, t.Answers s (·.find q) l ∧
      ∀ y, y ∈ l ↔ q.sort.reversed? ≠ none ∧
        (y ≠ q.anchor ∧ t.meets q.rule s y = true) ∧ t.InScope s q y := by
  have hcanonical : SortOrder.canonical.reversed? ≠ none := by decide
  -- Found for any object and without a limit, then cut down to the rule.
  obtain ⟨l, hanswer, hmem⟩ := exists_find_scope (s := { s with maxResults := 0 })
    (q := { q with rule := .anyObject, sort := .canonical, limit := 0 })
    ht (Settings.limit_eq_zero_iff.2 ⟨rfl, rfl⟩) hd rfl hw hx
  have harrange : SortOrder.canonical.arrange q.direction l = l := by rw [hd]; rfl
  refine ⟨_, answers_find_of_ends q hcanonical (harrange.symm ▸ hanswer.ends), fun y => ?_⟩
  rw [SortOrder.mem_arrange, kept, cut, if_pos hl, List.mem_filter, hmem]
  refine and_congr_right fun _ => ⟨?_, ?_⟩
  · rintro ⟨⟨hne, -, hscope⟩, hm⟩
    exact ⟨⟨hne, hm⟩, hscope⟩
  · rintro ⟨⟨hne, hm⟩, hscope⟩
    exact ⟨⟨hne, (meets_anyObject ..).trans (isValid_of_meets hm), hscope⟩, hm⟩

/-- Where nothing lies too deep and nothing limits the searches, a search onward finds what lies in
its scope and meets the rule. The whole collection has whatever lies beside the anchor or below
it. Of what is found below the anchor, a search of the siblings finds everything where the anchor
may be entered, and nothing otherwise. -/
theorem answers_in_wider_scopes (ht : t.IsForest) {collection x : ν} {limit : Nat}
    (hl : s.limit limit = 0) (hw : t.Within collection s.maxDepth) (hx : t.Below collection x)
    (rule : Rule) (sort : SortOrder) (recurse traverse : Bool) :
    let q : Scope → Query ν := fun scope =>
      { collection, anchor := x, rule, sort, scope, limit, recurse, traverse }
    ∃ found : Scope → List ν,
      (∀ scope, t.Answers s (·.find (q scope)) (found scope) ∧ ∀ y, y ∈ found scope ↔
        sort.reversed? ≠ none ∧ (y ≠ x ∧ t.meets rule s y = true) ∧ t.InScope s (q scope) y) ∧
      found .children ⊆ found .inorder ∧ found .siblings ⊆ found .inorder ∧
      (t.mayEnter traverse x = true → found .children ⊆ found .siblings) ∧
      (t.mayEnter traverse x = false → ∀ y ∈ found .children, y ∉ found .siblings) := by
  intro q
  have hscopes : ∀ scope, ∃ found, t.Answers s (·.find (q scope)) found ∧ ∀ y, y ∈ found ↔ _ :=
    fun scope => exists_answers_scope (q := q scope) ht hl rfl hw hx
  -- One list for each scope, so that the scopes can be compared.
  choose found hanswer hmem using hscopes
  obtain ⟨p, i, hp, hc⟩ := hx.exists_childAt
  have hlevels : t.Within p (s.maxDepth + 1) := by
    obtain ⟨ps, hps⟩ := hp
    exact (hw.follow hps).mono (by omega)
  refine ⟨found, fun scope => ⟨hanswer scope, hmem scope⟩, fun y hy => ?_, fun y hy => ?_,
    fun hopen y hy => ?_, fun hclosed y hy hy' => ?_⟩
  · obtain ⟨hsort, hmeets, hy⟩ := (hmem .children y).1 hy
    exact (hmem .inorder y).2 ⟨hsort, hmeets, hx.trans_reaches (Ahead.below hy).reaches⟩
  · obtain ⟨hsort, hmeets, p', i', hc', hy⟩ := (hmem .siblings y).1 hy
    have hp' : t.Reaches collection p' := (ht.below_childAt_iff hc').1 hx
    exact (hmem .inorder y).2 ⟨hsort, hmeets, hp'.trans_below (Ahead.below hy)⟩
  · obtain ⟨hsort, hmeets, hy⟩ := (hmem .children y).1 hy
    exact (hmem .siblings y).2
      ⟨hsort, hmeets, p, i, hc, ht.ahead_of_child hc hlevels hopen hy⟩
  · obtain ⟨-, -, hy⟩ := (hmem .children y).1 hy
    obtain ⟨-, -, p', i', hc', hy'⟩ := (hmem .siblings y).1 hy'
    exact not_ahead_of_closed hc' hclosed (Ahead.below hy) hy'

theorem answers_in_wider_scopes_sample :
    let q : Scope → Query (Fin 4) := fun scope =>
      { collection := 0, anchor := 1, scope, traverse := false }
    sample.IsForest ∧ ({} : Settings).limit 0 = 0 ∧ sample.Within 0 4096 ∧ sample.Below 0 1 ∧
    ∃ found : Scope → List (Fin 4),
      (∀ scope, sample.Answers {} (·.find (q scope)) (found scope) ∧ ∀ y, y ∈ found scope ↔
        SortOrder.canonical.reversed? ≠ none ∧
          (y ≠ 1 ∧ sample.meets .anyObject {} y = true) ∧ sample.InScope {} (q scope) y) ∧
      found .children ⊆ found .inorder ∧ found .siblings ⊆ found .inorder ∧
      (sample.mayEnter false 1 = true → found .children ⊆ found .siblings) ∧
      (sample.mayEnter false 1 = false → ∀ y ∈ found .children, y ∉ found .siblings) := by
  intro q
  have hw : sample.Within 0 4096 := (sample_isForest.within_card).mono (by decide)
  have hx : sample.Below 0 1 := ⟨0, [], rfl⟩
  have hl : Settings.limit {} 0 = 0 := rfl
  exact ⟨sample_isForest, hl, hw, hx,
    answers_in_wider_scopes sample_isForest hl hw hx .anyObject .canonical false false⟩

theorem not_subset_siblings_sample :
    let q : Scope → Query (Fin 4) := fun scope =>
      { collection := 0, anchor := 1, scope, traverse := false }
    sample.IsForest ∧ sample.Within 0 4096 ∧ sample.Below 0 1 ∧
      (Finder.find ⟨sample.atRest, {}, 9⟩ (q .children) ⟨(), #[]⟩).1 = some [2] ∧
      (Finder.find ⟨sample.atRest, {}, 9⟩ (q .siblings) ⟨(), #[]⟩).1 = some [3] ∧
      ¬ ([2] : List (Fin 4)) ⊆ [3] :=
  ⟨sample_isForest, (sample_isForest.within_card).mono (by decide), ⟨0, [], rfl⟩,
    by decide +kernel, by decide +kernel, by decide⟩

end Finder

end AccessTree
