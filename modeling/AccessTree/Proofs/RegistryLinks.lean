import AccessTree.Proofs.Counting
import AccessTree.Proofs.Kinship
import AccessTree.Registry.View

/-!
The links between the objects of a registry. A registry is sound when its parents and its lists of
children belong together, and then it answers as a forest does.
-/

namespace AccessTree.Registry

def parentOf (r : Registry) (i : ObjectId) : Option ObjectId :=
  (r.objects.get? i).bind (·.parent?)

def childrenOf (r : Registry) (i : ObjectId) : List ObjectId :=
  ((r.objects.get? i).map (·.children)).getD []

/-- An object that is there and has no parent. -/
def IsRoot (r : Registry) (i : ObjectId) : Prop := r.contains i = true ∧ r.parentOf i = none

structure Sound (r : Registry) : Prop where
  arena : r.objects.Sound
  kin : Kinship r.parentOf r.childrenOf

variable {r : Registry} {i c p : ObjectId} {e : Entry}

lemma childrenOf_eq (h : r.objects.get? i = some e) : r.childrenOf i = e.children := by
  rw [childrenOf, h]; rfl

lemma contains_eq (h : r.objects.get? i = some e) : r.contains i = true := by
  rw [contains, Arena.contains, h]; rfl

lemma exists_entry (h : r.contains i = true) : ∃ e, r.objects.get? i = some e :=
  Option.isSome_iff_exists.1 h

lemma get?_eq_none (h : r.contains i = false) : r.objects.get? i = none := by
  rwa [contains, Arena.contains, Option.isSome_eq_false_iff, Option.isNone_iff_eq_none] at h

lemma entry_eq (h : r.objects.get? i = some e) : r.entry i = .ok e := by rw [entry, h]

lemma entry_eq_error (h : r.contains i = false) : r.entry i = .error .invalidObjectId := by
  rw [entry, get?_eq_none h]

lemma children_eq (h : r.contains p = true) : r.children p = .ok (r.childrenOf p) := by
  obtain ⟨e, he⟩ := exists_entry h
  rw [children, entry_eq he, childrenOf_eq he]
  rfl

lemma parent_eq (h : r.contains c = true) : r.parent c = .ok (r.parentOf c) := by
  obtain ⟨e, he⟩ := exists_entry h
  rw [parent, entry_eq he, parentOf, he]
  rfl

/-- What is read from an entry is read from what has become of it. -/
lemma entry_of_get? {r' : Registry} {f : Entry → Entry}
    (h : r'.objects.get? i = (r.objects.get? i).map f) : r'.entry i = f <$> r.entry i := by
  rw [entry, entry, h]
  cases r.objects.get? i <;> rfl

lemma contains_of_parentOf (h : r.parentOf c = some p) : r.contains c = true := by
  obtain ⟨e, he, -⟩ := Option.bind_eq_some_iff.1 h
  exact contains_eq he

lemma contains_of_mem_childrenOf (h : c ∈ r.childrenOf p) : r.contains p = true := by
  by_contra hp
  rw [childrenOf, get?_eq_none (by simpa using hp)] at h
  cases h

lemma place?_eq : r.place? p i = (r.childrenOf p).idxOf? i := by
  rw [place?, childrenOf]
  cases r.objects.get? p <;> rfl

lemma mem_roots (hb : r.objects.bound ≤ UInt32.size) : i ∈ r.roots ↔ r.IsRoot i := by
  rw [roots, List.mem_map, IsRoot]
  constructor
  · rintro ⟨⟨j, e⟩, hmem, rfl⟩
    obtain ⟨hmem, hp⟩ := List.mem_filter.1 hmem
    have he := (Arena.mem_toList hb).1 hmem
    refine ⟨contains_eq he, ?_⟩
    rw [parentOf, he]
    exact Option.isNone_iff_eq_none.1 hp
  · rintro ⟨hi, hp⟩
    obtain ⟨e, he⟩ := exists_entry hi
    rw [parentOf, he] at hp
    exact ⟨(i, e), List.mem_filter.2
      ⟨(Arena.mem_toList hb).2 he, Option.isNone_iff_eq_none.2 hp⟩, rfl⟩

/-! ### Answers -/

lemma tree_isValid : r.tree.isValid i = r.contains i := by
  unfold Tree.isValid tree contains Arena.contains
  cases h : r.objects.get? i <;> simp [Question.node, h, Question.absent, Entry.answer]

lemma tree_parent : r.tree.parent i = r.parentOf i := by
  unfold Tree.parent tree parentOf
  cases h : r.objects.get? i <;> simp [Question.node, h, Question.absent, Entry.answer]

lemma tree_childCount : r.tree.childCount i = (r.childrenOf i).length := by
  unfold Tree.childCount tree childrenOf
  cases h : r.objects.get? i <;> simp [Question.node, h, Question.absent, Entry.answer]

lemma tree_childAt {index : Nat} : r.tree.childAt i index = (r.childrenOf i)[index]? := by
  unfold Tree.childAt tree childrenOf
  cases h : r.objects.get? i <;> simp [Question.node, h, Question.absent, Entry.answer]

lemma tree_indexInParent :
    r.tree.indexInParent i = (r.parentOf i).bind fun p => (r.childrenOf p).idxOf? i := by
  simp only [← place?_eq]
  unfold Tree.indexInParent tree parentOf
  cases h : r.objects.get? i <;> simp [Question.node, h, Question.absent, Entry.answer]

lemma siblingIndex_eq (h : r.contains i = true) :
    r.siblingIndex i = .ok (r.tree.indexInParent i) := by
  obtain ⟨e, he⟩ := exists_entry h
  have hp : r.parentOf i = e.parent? := by rw [parentOf, he]; rfl
  simp only [siblingIndex, entry_eq he, tree_indexInParent, hp, ← place?_eq]
  rfl

lemma tree_isCollection : r.tree.isCollection i = true := by
  unfold Tree.isCollection tree
  cases h : r.objects.get? i <;> simp [Question.node, h, Question.absent, Entry.answer]

/-! ### Soundness -/

lemma sound_empty : empty.Sound where
  arena := Arena.sound_empty
  kin := by
    have hp : empty.parentOf = fun _ => none := funext fun i => by
      rw [parentOf, empty, Arena.get?_empty]; rfl
    have hc : empty.childrenOf = fun _ => [] := funext fun i => by
      rw [childrenOf, empty, Arena.get?_empty]; rfl
    rw [hp, hc]
    exact ⟨by simp, fun _ => List.nodup_nil, fun _ => Rooted.root rfl⟩

namespace Sound

variable (h : r.Sound)
include h

lemma mem_childrenOf_iff : c ∈ r.childrenOf p ↔ r.parentOf c = some p := h.kin.mem_iff c p

lemma contains_parent (hp : r.parentOf c = some p) : r.contains p = true :=
  contains_of_mem_childrenOf (h.mem_childrenOf_iff.2 hp)

/-- A sound registry answers as a forest does. -/
theorem isForest : r.tree.IsForest where
  finite := by
    simp only [tree_isValid]
    exact Arena.finite_contains _
  outside i hi := by
    rw [tree_isValid] at hi
    have := get?_eq_none hi
    rw [tree_parent, tree_childCount, parentOf, childrenOf, this]
    exact ⟨rfl, rfl⟩
  child p index hi := by
    rw [tree_childCount] at hi
    have hc : (r.childrenOf p)[index] ∈ r.childrenOf p := List.getElem_mem hi
    have hp := h.mem_childrenOf_iff.1 hc
    refine ⟨(r.childrenOf p)[index], ?_, ?_, ?_, ?_⟩
    · rw [tree_childAt, List.getElem?_eq_getElem hi]
    · rw [tree_isValid]
      exact contains_of_parentOf hp
    · rw [tree_parent, hp]
    · -- A list without repetitions has an object first where it has it at all.
      rw [tree_indexInParent, hp, Option.bind_some, List.idxOf?_eq_some_iff]
      refine ⟨hi, rfl, fun j hj he => ?_⟩
      have := (h.kin.nodup p).getElem_inj_iff.1 he
      omega
  noChild p index hi := by
    rw [tree_childCount] at hi
    rw [tree_childAt, List.getElem?_eq_none hi]
  parent c p hp := by
    rw [tree_parent] at hp
    obtain ⟨index, hi⟩ := List.mem_iff_getElem?.1 (h.mem_childrenOf_iff.2 hp)
    exact ⟨index, by rw [tree_childAt, hi]⟩
  root i hi := by
    rw [tree_parent] at hi
    rw [tree_indexInParent, hi]; rfl
  ends i := by
    -- A climb that comes to a root ends with its next step.
    obtain ⟨k, -, -, -, hk⟩ := (h.kin.rooted i).exists_climb
    rw [show r.tree.parent = r.parentOf from funext fun i => tree_parent]
    exact ⟨k + 1, hk⟩

end Sound

end AccessTree.Registry
