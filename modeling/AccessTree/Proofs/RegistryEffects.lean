import AccessTree.Proofs.RegistryLinks
import AccessTree.Registry.Update

/-!
What the changes of a registry do. Each change either fails, and then it leaves the registry alone
and reports nothing, or does what one of a few plain operations does.
-/

namespace AccessTree.Registry

/-- An object and its parent part. -/
def detached (r : Registry) (i : ObjectId) : Registry :=
  match r.parentOf i with
  | none => r
  | some p => ⟨(r.objects.modify i fun e => { e with parent? := none }).modify p fun e =>
      { e with children := e.children.filter (· != i) }⟩

/-- A child is put among the children of a parent. -/
def attached (r : Registry) (p : ObjectId) (index : Nat) (c : ObjectId) : Registry :=
  ⟨(r.objects.modify p fun e => { e with children := e.children.insertIdx index c }).modify c
    fun e => { e with parent? := some p }⟩

/-- A new object joins, alone. -/
def added (r : Registry) (d : ObjectData) : Registry := ⟨(r.objects.insert { data := d }).2⟩

/-- Some objects are gone. -/
def without (r : Registry) (is : List ObjectId) : Registry := ⟨is.foldl (·.erase ·) r.objects⟩

/-- What goes when an object is destroyed, in the order in which it goes. -/
def gone (r : Registry) (i : ObjectId) : List ObjectId :=
  r.belowFrom r.objects.bound (r.childrenOf i).reverse ++ [i]

/-- An object has been destroyed. -/
def destroyed (r : Registry) (i : ObjectId) : Registry := (r.detached i).without (r.gone i)

variable {r : Registry} {i c p : ObjectId} {index : Nat} {log : Array (Change ObjectId)}
  {s : Logged Registry (Change ObjectId)} {α β : Type}

/-! ### Steps -/

lemma bind_apply (x : Update α) (f : α → Update β) : (x >>= f) s =
    match x s with
    | .ok a s => f a s
    | .error e s => .error e s := by
  show EStateM.bind x f s = _
  unfold EStateM.bind
  cases x s <;> rfl

lemma pure_apply (a : α) : (pure a : Update α) s = .ok a s := rfl

lemma throw_apply (e : Error) : (throw e : Update α) s = .error e s := rfl

lemma current_apply : current s = .ok s.state s := rfl

lemma report_apply (e : Change ObjectId) : report e s = .ok () (s.report e) := rfl

lemma modifyEntry_apply (f : Entry → Entry) :
    modifyEntry i f s = .ok () { s with state := ⟨s.state.objects.modify i f⟩ } := rfl

/-! ### Changes -/

lemma detach_eq : detach i ⟨r, log⟩ = .ok () ⟨r.detached i, log⟩ := by
  unfold detach detached parentOf
  rw [bind_apply, current_apply]
  simp only
  split
  · rename_i h
    simp [h, pure_apply]
  · rename_i p h
    simp only [h, bind_apply, modifyEntry_apply]

lemma insertChild_eq : insertChild p index c ⟨r, log⟩ =
    if r.contains c = true ∧ r.contains p = true then
      if r.isAncestor c p = true then .error .circularParentage ⟨r, log⟩
      else if (r.childrenOf p).countP (· != c) < index then
        .error (.childIndexOutOfRange index ((r.childrenOf p).countP (· != c))) ⟨r, log⟩
      else .ok () ⟨(r.detached c).attached p index c, log.push (.reparented c p index)⟩
    else .error .invalidObjectId ⟨r, log⟩ := by
  unfold insertChild
  rw [bind_apply, current_apply]
  -- The checks come one after the other: child, parent, circle, place.
  by_cases hc : r.contains c = true
  · by_cases hp : r.contains p = true
    · obtain ⟨e, he⟩ := exists_entry hp
      have hentry : r.entry p = .ok e := entry_eq he
      by_cases ha : r.isAncestor c p = true
      · simp [hc, hp, ha, hentry, check, throw_apply, pure_apply, bind_apply]
      by_cases hi : e.children.countP (· != c) < index
      · simp [hc, hp, ha, hi, hentry, check, throw_apply, pure_apply, bind_apply, childrenOf_eq he]
      · simp [hc, hp, ha, hi, hentry, check, pure_apply, bind_apply, detach_eq, modifyEntry_apply,
          report_apply, childrenOf_eq he, Logged.report, attached]
    · have hentry : r.entry p = .error .invalidObjectId := entry_eq_error (by simpa using hp)
      simp [hc, hp, hentry, check, throw_apply, bind_apply]
  · simp [hc, bind_apply, throw_apply]

lemma setParent_some_eq : setParent i (some p) ⟨r, log⟩ =
    insertChild p ((r.childrenOf p).countP (· != i)) i ⟨r, log⟩ := by
  unfold setParent
  rw [bind_apply, current_apply]
  simp only
  by_cases hp : r.contains p = true
  · simp [children_eq hp, check, bind_apply, pure_apply]
  · have : r.children p = .error .invalidObjectId := by
      rw [children, entry_eq_error (by simpa using hp)]
      rfl
    rw [insertChild_eq, if_neg fun h => hp h.2]
    simp [this, check, bind_apply, throw_apply]

lemma setParent_none_eq : setParent i none ⟨r, log⟩ =
    if r.contains i = true then .ok () ⟨r.detached i, log⟩
    else .error .invalidObjectId ⟨r, log⟩ := by
  unfold setParent
  rw [bind_apply, current_apply]
  by_cases hi : r.contains i = true
  · simp [hi, detach_eq]
  · simp [hi, throw_apply, bind_apply]

lemma forM_erase_eq (is : List ObjectId) :
    (is.forM fun j => modifyObjects (·.erase j)) ⟨r, log⟩ = .ok () ⟨r.without is, log⟩ := by
  induction is generalizing r with
  | nil => rfl
  | cons i is ih => exact ih (r := ⟨r.objects.erase i⟩)

lemma below_eq (hi : r.contains i = true) :
    r.below i = .ok (r.belowFrom r.objects.bound (r.childrenOf i).reverse) := by
  obtain ⟨e, he⟩ := exists_entry hi
  rw [below, entry_eq he, childrenOf_eq he]
  rfl

lemma destroy_eq (hi : r.contains i = true) : destroy i ⟨r, log⟩ =
    .ok () ⟨r.destroyed i,
      log.push (.destroying i (r.belowFrom r.objects.bound (r.childrenOf i).reverse).length)⟩ := by
  unfold destroy
  simp only [bind_apply, current_apply, below_eq hi, check, pure_apply, report_apply,
    Logged.report, detach_eq, forM_erase_eq]
  simp only [modifyObjects, destroyed, without, gone, List.foldl_append]
  rfl

lemma destroy_eq_error (h : r.contains i = false) :
    destroy i ⟨r, log⟩ = .error .invalidObjectId ⟨r, log⟩ := by
  have hb : r.below i = .error .invalidObjectId := by
    rw [below, entry, get?_eq_none h]; rfl
  unfold destroy
  simp [bind_apply, current_apply, hb, check, throw_apply]

lemma registerChild_eq {d : ObjectData} : registerChild p d ⟨r, log⟩ =
    if r.contains p = true then
      (do setParent (r.objects.insert { data := d }).1 (some p)
          return (r.objects.insert { data := d }).1 : Update ObjectId)
        ⟨r.added d, log.push (.registered (r.objects.insert { data := d }).1 d.role)⟩
    else .error .invalidObjectId ⟨r, log⟩ := by
  unfold registerChild
  rw [bind_apply, current_apply]
  by_cases hp : r.contains p = true
  · rw [if_pos hp]
    simp only [hp]
    rfl
  · simp [hp, throw_apply, bind_apply]

lemma setData_eq {f : ObjectData → ObjectData} : setData i f ⟨r, log⟩ =
    if r.contains i = true then
      .ok () ⟨⟨r.objects.modify i fun e => { e with data := f e.data }⟩, log⟩
    else .error .invalidObjectId ⟨r, log⟩ := by
  unfold setData
  rw [bind_apply, current_apply]
  by_cases hi : r.contains i = true
  · simp [hi, modifyEntry_apply]
  · simp [hi, throw_apply, bind_apply]

/-! ### Links after a change -/

lemma parentOf_modify {e : Entry} (he : r.objects.get? i = some e) (f : Entry → Entry)
    (n : ObjectId) : parentOf ⟨r.objects.modify i f⟩ n =
      if n = i then (f e).parent? else r.parentOf n := by
  simp only [parentOf, Arena.get?_modify]
  by_cases hn : n = i
  · subst hn
    rw [if_pos rfl, if_pos rfl, he]; rfl
  · rw [if_neg hn, if_neg (Ne.symm hn)]

lemma childrenOf_modify {e : Entry} (he : r.objects.get? i = some e) (f : Entry → Entry)
    (n : ObjectId) : childrenOf ⟨r.objects.modify i f⟩ n =
      if n = i then (f e).children else r.childrenOf n := by
  simp only [childrenOf, Arena.get?_modify]
  by_cases hn : n = i
  · subst hn
    rw [if_pos rfl, if_pos rfl, he]; rfl
  · rw [if_neg hn, if_neg (Ne.symm hn)]

/-- A change that leaves the parent of an object alone leaves all parents alone. -/
lemma parentOf_modify_of_eq {f : Entry → Entry} (hf : ∀ e, (f e).parent? = e.parent?)
    (n : ObjectId) : parentOf ⟨r.objects.modify i f⟩ n = r.parentOf n := by
  simp only [parentOf, Arena.get?_modify]
  by_cases hn : i = n
  · subst hn
    rw [if_pos rfl]
    cases r.objects.get? i with
    | none => rfl
    | some e => exact hf e
  · rw [if_neg hn]

lemma childrenOf_modify_of_eq {f : Entry → Entry} (hf : ∀ e, (f e).children = e.children)
    (n : ObjectId) : childrenOf ⟨r.objects.modify i f⟩ n = r.childrenOf n := by
  simp only [childrenOf, Arena.get?_modify]
  by_cases hn : i = n
  · subst hn
    rw [if_pos rfl]
    cases r.objects.get? i with
    | none => rfl
    | some e => exact hf e
  · rw [if_neg hn]

lemma contains_modify (f : Entry → Entry) (n : ObjectId) :
    contains ⟨r.objects.modify i f⟩ n = r.contains n := Arena.contains_modify _ _ _ _

lemma detached_of_root (h : r.parentOf i = none) : r.detached i = r := by
  rw [detached, h]

lemma parentOf_detached (n : ObjectId) :
    (r.detached i).parentOf n = if n = i then none else r.parentOf n := by
  unfold detached
  split
  · rename_i h
    split
    · rename_i hn
      rw [hn, h]
    · rfl
  · rename_i p h
    obtain ⟨e, he, -⟩ := Option.bind_eq_some_iff.1 h
    have same := parentOf_modify_of_eq (i := p)
      (r := ⟨r.objects.modify i fun e => { e with parent? := none }⟩)
      (f := fun e => { e with children := e.children.filter (· != i) }) (fun _ => rfl) n
    exact same.trans (parentOf_modify he (fun e => { e with parent? := none }) n)

lemma childrenOf_detached (hp : r.parentOf i = some p) (hc : r.contains p = true) (n : ObjectId) :
    (r.detached i).childrenOf n =
      if n = p then (r.childrenOf p).filter (· != i) else r.childrenOf n := by
  have same := childrenOf_modify_of_eq (r := r) (i := i)
    (f := fun e : Entry => { e with parent? := none }) fun _ => rfl
  rw [← contains_modify (i := i) fun e => { e with parent? := none }] at hc
  obtain ⟨e, he⟩ := exists_entry hc
  have h := childrenOf_modify he (fun e => { e with children := e.children.filter (· != i) }) n
  rw [same n] at h
  rw [detached, hp, ← same p, childrenOf_eq he]
  exact h

lemma contains_detached (n : ObjectId) : (r.detached i).contains n = r.contains n := by
  unfold detached
  split
  · rfl
  · exact (contains_modify (r := ⟨r.objects.modify i _⟩) _ n).trans (contains_modify _ n)

lemma parentOf_attached (hc : r.contains c = true) (n : ObjectId) :
    (r.attached p index c).parentOf n = if n = c then some p else r.parentOf n := by
  have same := parentOf_modify_of_eq (r := r) (i := p)
    (f := fun e : Entry => { e with children := e.children.insertIdx index c }) fun _ => rfl
  rw [← contains_modify (i := p) fun e => { e with children := e.children.insertIdx index c }] at hc
  obtain ⟨e, he⟩ := exists_entry hc
  have h := parentOf_modify he (fun e => { e with parent? := some p }) n
  rw [same n] at h
  exact h

lemma contains_attached (n : ObjectId) :
    (r.attached p index c).contains n = r.contains n :=
  (contains_modify (r := ⟨r.objects.modify p _⟩) _ n).trans (contains_modify _ n)

lemma childrenOf_attached (hp : r.contains p = true) (n : ObjectId) :
    (r.attached p index c).childrenOf n =
      if n = p then (r.childrenOf p).insertIdx index c else r.childrenOf n := by
  obtain ⟨e, he⟩ := exists_entry hp
  have same := childrenOf_modify_of_eq (i := c)
    (r := ⟨r.objects.modify p fun e => { e with children := e.children.insertIdx index c }⟩)
    (f := fun e => { e with parent? := some p }) (fun _ => rfl) n
  rw [childrenOf_eq he]
  exact same.trans
    (childrenOf_modify he (fun e => { e with children := e.children.insertIdx index c }) n)

lemma get?_added (hs : r.objects.Sound) {d : ObjectData} (n : ObjectId) :
    (r.added d).objects.get? n = r.objects.get? n ∨
      r.objects.get? n = none ∧ (r.added d).objects.get? n = some { data := d } := by
  by_cases hr : r.objects.HasRoom
  · obtain ⟨new, hn⟩ := hs.get?_insert hr { data := d } n
    by_cases he : (r.objects.insert { data := d }).1 = n
    · rw [if_pos he] at hn
      exact Or.inr ⟨he ▸ new, hn⟩
    · rw [if_neg he] at hn
      exact Or.inl hn
  · exact Or.inl (Arena.get?_insert_of_full hr _ n)

lemma parentOf_added (hs : r.objects.Sound) {d : ObjectData} (n : ObjectId) :
    (r.added d).parentOf n = r.parentOf n := by
  unfold parentOf
  rcases get?_added hs n with h | ⟨h, h'⟩
  · rw [h]
  · rw [h, h']; rfl

lemma childrenOf_added (hs : r.objects.Sound) {d : ObjectData} (n : ObjectId) :
    (r.added d).childrenOf n = r.childrenOf n := by
  unfold childrenOf
  rcases get?_added hs n with h | ⟨h, h'⟩
  · rw [h]
  · rw [h, h']; rfl

lemma get?_without (is : List ObjectId) (n : ObjectId) :
    (r.without is).objects.get? n = if n ∈ is then none else r.objects.get? n := by
  induction is generalizing r with
  | nil => rfl
  | cons i is ih =>
    have h := ih (r := ⟨r.objects.erase i⟩)
    rw [Arena.get?_erase] at h
    refine h.trans ?_
    by_cases hi : i = n
    · simp [hi]
    · simp [hi, Ne.symm hi]

lemma parentOf_without (is : List ObjectId) (n : ObjectId) :
    (r.without is).parentOf n = if n ∈ is then none else r.parentOf n := by
  rw [parentOf, get?_without]
  split <;> rfl

lemma childrenOf_without (is : List ObjectId) (n : ObjectId) :
    (r.without is).childrenOf n = if n ∈ is then [] else r.childrenOf n := by
  rw [childrenOf, get?_without]
  split <;> rfl

end AccessTree.Registry
