import AccessTree.LiveTree
import AccessTree.Proofs.RegistryUpkeep

/-!
Registries that shrink. Destroying an object, making it a root and setting its data take members
out of the lists of children and do nothing else to them, whether such an edit fails or not.
-/

namespace AccessTree.Registry

/-- Whether an edit brings no object to a new place. -/
def Edit.shrinks : Edit → Bool
  | destroy _ | setParent _ none => true
  | setName .. | setRole .. | setStates .. | setState .. | setAttributes .. | setInterfaces .. |
    setData .. => true
  | register _ | registerChild .. | setParent _ (some _) | insertChild .. => false

/-- The lists of children have at most lost members. -/
def Shrinks (r r' : Registry) : Prop := ∀ n, (r'.childrenOf n).Sublist (r.childrenOf n)

variable {r r' r'' : Registry} {i : ObjectId} {s : Logged Registry (Change ObjectId)}

lemma Shrinks.refl (r : Registry) : r.Shrinks r := fun _ => .refl _

lemma Shrinks.trans (h : r.Shrinks r') (h' : r'.Shrinks r'') : r.Shrinks r'' := fun n =>
  (h' n).trans (h n)

/-- What still comes after the next child is part of what came after it on a list before. -/
lemma Shrinks.exists_rest {n child : ObjectId} {index : Nat} {rest : List ObjectId}
    (h : r.Shrinks r') (hrest : ((r.childrenOf n).drop index).Sublist rest)
    (hplace : (r'.childrenOf n)[index]? = some child) :
    ∃ before after, rest = before ++ child :: after ∧
      ((r'.childrenOf n).drop (index + 1)).Sublist after := by
  obtain ⟨hi, hchild⟩ := List.getElem?_eq_some_iff.1 hplace
  have hcons : (child :: (r'.childrenOf n).drop (index + 1)).Sublist rest := by
    have hdrop : ((r'.childrenOf n).drop index).Sublist ((r.childrenOf n).drop index) :=
      (h n).drop index
    rw [List.drop_eq_getElem_cons hi, hchild] at hdrop
    exact hdrop.trans hrest
  obtain ⟨front, back, rfl, hmem, hback⟩ := List.cons_sublist_iff.1 hcons
  obtain ⟨before, between, rfl⟩ := List.append_of_mem hmem
  refine ⟨before, between ++ back, by simp, hback.trans ?_⟩
  exact List.sublist_append_right between back

lemma shrinks_modify {f : Entry → Entry} (hf : ∀ e, (f e).children.Sublist e.children) :
    r.Shrinks ⟨r.objects.modify i f⟩ := by
  intro n
  unfold childrenOf
  rw [Arena.get?_modify]
  by_cases hn : i = n
  · rw [if_pos hn, ← hn]
    cases r.objects.get? i with
    | none => exact .refl _
    | some e => exact hf e
  · rw [if_neg hn]

lemma shrinks_detached : r.Shrinks (r.detached i) := by
  unfold detached
  split
  · exact .refl r
  · have hcut : r.Shrinks ⟨r.objects.modify i fun e => { e with parent? := none }⟩ :=
      shrinks_modify fun e => .refl e.children
    exact hcut.trans (shrinks_modify fun e => List.filter_sublist)

lemma shrinks_without (is : List ObjectId) : r.Shrinks (r.without is) := by
  intro n
  rw [childrenOf_without]
  split
  · exact List.nil_sublist _
  · exact .refl _

lemma shrinks_destroy : s.state.Shrinks (after (destroy i) s) := by
  unfold after
  by_cases hi : s.state.contains i = true
  · rw [destroy_eq hi]
    exact shrinks_detached.trans (shrinks_without _)
  · rw [destroy_eq_error (by simpa using hi)]
    exact .refl _

lemma shrinks_setParent_none : s.state.Shrinks (after (setParent i none) s) := by
  unfold after
  rw [setParent_none_eq]
  by_cases hi : s.state.contains i = true
  · rw [if_pos hi]
    exact shrinks_detached
  · rw [if_neg hi]
    exact .refl _

lemma shrinks_setData {f : ObjectData → ObjectData} :
    s.state.Shrinks (after (setData i f) s) := by
  unfold after
  rw [setData_eq]
  by_cases hi : s.state.contains i = true
  · rw [if_pos hi]
    exact shrinks_modify fun e => .refl e.children
  · rw [if_neg hi]
    exact .refl _

/-- What one such edit does only takes members out of lists. -/
theorem shrinks_edit {e : Edit} (h : e.shrinks = true) : s.state.Shrinks (after e.run s) := by
  cases e with
  | register d => cases h
  | registerChild p d => cases h
  | insertChild p index c => cases h
  | destroy i =>
    rw [Edit.run, Edit.silent, after_bind_pure]
    exact shrinks_destroy
  | setParent i p =>
    cases p with
    | some p => cases h
    | none =>
      rw [Edit.run, Edit.silent, after_bind_pure]
      exact shrinks_setParent_none
  | setName i _ | setRole i _ | setStates i _ | setState i _ _ | setAttributes i _
  | setInterfaces i _ | setData i _ =>
    rw [Edit.run, Edit.silent, after_bind_pure]
    exact shrinks_setData

/-! ### Edits between questions -/

/-- The registry after some edits, the failing ones passed over, and what they reported. -/
def edited (r : Registry) (edits : List Edit) : Logged Registry (Change ObjectId) :=
  edits.foldl (fun s e => ⟨(s.state.apply e).2.state, s.log ++ (s.state.apply e).2.log⟩) ⟨r, #[]⟩

theorem shrinks_edited {edits : List Edit} (h : ∀ e ∈ edits, e.shrinks = true) :
    r.Shrinks (r.edited edits).state := by
  induction edits using List.reverseRecOn with
  | nil => exact .refl r
  | append_singleton edits e ih =>
    have hbefore : r.Shrinks (r.edited edits).state :=
      ih fun e' he' => h e' (List.mem_append_left _ he')
    have hlast : e.shrinks = true := h e (by simp)
    have hstep : (r.edited (edits ++ [e])).state = ((r.edited edits).state.apply e).2.state := by
      simp only [edited, List.foldl_append, List.foldl_cons, List.foldl_nil]
    rw [hstep, apply_state]
    exact hbefore.trans (shrinks_edit (s := ⟨(r.edited edits).state, #[]⟩) hlast)

/-- A registry that is edited while it is asked, with the number of questions that were answered.
Before each question come the edits that the schedule has for it. -/
def live (schedule : Nat → List Edit) : LiveTree (Registry × Nat) ObjectId :=
  (LiveTree.ofView fun s => s.1.tree).disturb fun _ s =>
    let e := s.1.edited (schedule s.2)
    ((e.state, s.2 + 1), e.log.toList)

/-- A root with three children. -/
def family : List Edit :=
  [.register {}, .registerChild ⟨1, 1⟩ {}, .registerChild ⟨1, 1⟩ {}, .registerChild ⟨1, 1⟩ {}]

/-- The first child goes when a search has visited it. -/
def loss (k : Nat) : List Edit := if k = 4 then [.destroy ⟨2, 1⟩] else []

end AccessTree.Registry
