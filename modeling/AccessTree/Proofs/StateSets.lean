import AccessTree.Proofs.BitArrays
import AccessTree.State.Set

/-!
Sets of states as sets. However a set is come by, each of its bits stands for a state, and so what
is counted, compared or sent bit by bit is what the set lists.
-/

namespace AccessTree.StateSet

variable {s t : StateSet} {x : State} {xs : List State} {ws : List UInt32}

/-- The sets that can be put together, taken apart and read. -/
inductive Made : StateSet → Prop
  | empty : Made .empty
  | defunct : Made .defunct
  | ofList (xs : List State) : Made (.ofList xs)
  | ofBits (ws : List UInt32) : Made (ofBits ws).1
  | insert {s : StateSet} (h : Made s) (x : State) : Made (s.insert x)
  | insertNew {s : StateSet} (h : Made s) (x : State) : Made (s.insertNew x).2
  | eraseOld {s : StateSet} (h : Made s) (x : State) : Made (s.eraseOld x).2
  | insertMany {s : StateSet} (h : Made s) (xs : List State) : Made (s.insertMany xs)

/-- Every bit that is set stands for a state. -/
def Proper (s : StateSet) : Prop := ∀ p, s.bits.toNat.testBit p = true → p < 41

/-! ### Bits -/

lemma contains_eq_testBit (s : StateSet) (x : State) :
    s.contains x = s.bits.toNat.testBit x.code := by
  rw [contains_eq_getLsbD, ← BitVec.testBit_toNat]
  rfl

lemma testBit_insert (s : StateSet) (x : State) (p : Nat) :
    (s.insert x).bits.toNat.testBit p = (s.bits.toNat.testBit p || decide (x.code = p)) := by
  have hmask : (mask x).toNat = 2 ^ x.code := by cases x <;> rfl
  rw [insert, UInt64.toNat_or, Nat.testBit_or, hmask, Nat.testBit_two_pow]

lemma proper_empty : Proper .empty := fun p h => by simp [empty] at h

lemma Proper.insert (h : s.Proper) (x : State) : (s.insert x).Proper := by
  intro p hp
  rw [testBit_insert, Bool.or_eq_true, decide_eq_true_eq] at hp
  rcases hp with hp | rfl
  · exact h p hp
  · exact State.code_lt x

lemma Proper.erase (h : s.Proper) (x : State) : (s.erase x).Proper := by
  intro p hp
  rw [StateSet.erase, UInt64.toNat_and, Nat.testBit_and, Bool.and_eq_true] at hp
  exact h p hp.1

lemma Proper.insertMany (h : s.Proper) (xs : List State) : (s.insertMany xs).Proper := by
  induction xs generalizing s with
  | nil => exact h
  | cons x xs ih => exact ih (h.insert x)

lemma proper_ofList (xs : List State) : Proper (.ofList xs) := proper_empty.insertMany xs

lemma Made.proper (h : Made s) : s.Proper := by
  induction h with
  | empty => exact proper_empty
  | defunct => exact proper_ofList [.defunct]
  | ofList xs => exact proper_ofList xs
  | ofBits ws => exact proper_ofList _
  | insert _ x ih => exact ih.insert x
  | insertNew _ x ih => exact ih.insert x
  | eraseOld _ x ih => exact ih.erase x
  | insertMany _ xs ih => exact ih.insertMany xs

lemma exists_code_eq {p : Nat} (hp : p < 41) : ∃ x : State, x.code = p := by
  have hknown : State.ofCode? p ≠ none := fun h =>
    Nat.not_le_of_lt hp (State.ofCode?_eq_none_iff.1 h)
  obtain ⟨x, hx⟩ := Option.ne_none_iff_exists'.1 hknown
  exact ⟨x, State.ofCode?_eq_some_iff.1 hx⟩

lemma exists_contains (h : s.Proper) {p : Nat} (hp : s.bits.toNat.testBit p = true) :
    ∃ x : State, x.code = p ∧ s.contains x = true := by
  obtain ⟨x, rfl⟩ := exists_code_eq (h p hp)
  exact ⟨x, rfl, by rw [contains_eq_testBit, hp]⟩

lemma eq_of_contains (hs : s.Proper) (ht : t.Proper) (h : ∀ x, s.contains x = t.contains x) :
    s = t := by
  refine StateSet.ext (UInt64.toNat_inj.1 (Nat.eq_of_testBit_eq fun p => ?_))
  rw [Bool.eq_iff_iff]
  constructor
  · intro hp
    obtain ⟨x, rfl, hx⟩ := exists_contains hs hp
    rw [← contains_eq_testBit, ← h, hx]
  · intro hp
    obtain ⟨x, rfl, hx⟩ := exists_contains ht hp
    rw [← contains_eq_testBit, h, hx]

/-! ### What a set lists -/

lemma pairwise_toList (s : StateSet) : s.toList.Pairwise fun x y => x.code < y.code := by
  have hall : State.all.Pairwise fun x y => x.code < y.code := by decide
  exact hall.filter _

/-- Beyond the codes of the states there is no bit to be counted. -/
lemma size_eq (h : s.Proper) : s.size = s.toList.length := by
  have hcodes : State.all.map State.code = List.range 41 := rfl
  have hlisted : s.toList.length = (List.range 41).countP s.bits.toNat.testBit := by
    rw [toList, ← List.countP_eq_length_filter, ← hcodes, List.countP_map]
    exact List.countP_congr fun x _ => by rw [contains_eq_testBit]; rfl
  have hbeyond : ((List.range 23).map (41 + ·)).countP s.bits.toNat.testBit = 0 := by
    rw [List.countP_eq_zero]
    intro p hp hbit
    obtain ⟨q, -, rfl⟩ := List.mem_map.1 hp
    have := h _ hbit
    omega
  rw [size, hlisted, show 64 = 41 + 23 from rfl, List.range_add, List.countP_append, hbeyond]
  rfl

lemma isEmpty_iff_toList (h : s.Proper) : s.isEmpty = true ↔ s.toList = [] := by
  rw [isEmpty_iff, List.eq_nil_iff_forall_not_mem]
  constructor
  · rintro rfl x
    simp
  · intro hnone
    refine eq_of_contains h proper_empty fun x => ?_
    simpa using hnone x

lemma containsAll_iff (ht : t.Proper) :
    s.containsAll t = true ↔ ∀ x ∈ t.toList, s.contains x = true := by
  rw [containsAll, beq_iff_eq, ← UInt64.toNat_inj, UInt64.toNat_and]
  constructor
  · intro h x hx
    rw [mem_toList, contains_eq_testBit, ← h, Nat.testBit_and, Bool.and_eq_true] at hx
    rw [contains_eq_testBit, hx.1]
  · intro h
    refine Nat.eq_of_testBit_eq fun p => ?_
    rw [Nat.testBit_and, Bool.and_eq_right_iff_imp]
    intro hp
    obtain ⟨x, rfl, hx⟩ := exists_contains ht hp
    rw [← contains_eq_testBit, h x (mem_toList.2 hx)]

lemma containsAny_iff (ht : t.Proper) :
    s.containsAny t = true ↔ ∃ x ∈ t.toList, s.contains x = true := by
  rw [containsAny, bne_iff_ne, Ne, ← UInt64.toNat_inj, UInt64.toNat_and]
  constructor
  · intro h
    obtain ⟨p, hp⟩ := Nat.exists_testBit_of_ne_zero h
    rw [Nat.testBit_and, Bool.and_eq_true] at hp
    obtain ⟨x, rfl, hx⟩ := exists_contains ht hp.2
    exact ⟨x, mem_toList.2 hx, by rw [contains_eq_testBit, hp.1]⟩
  · rintro ⟨x, hx, hs⟩ hzero
    rw [mem_toList, contains_eq_testBit] at hx
    rw [contains_eq_testBit] at hs
    have hboth : (s.bits.toNat &&& t.bits.toNat).testBit x.code = true := by
      rw [Nat.testBit_and, hs, hx]
      rfl
    rw [hzero] at hboth
    simp at hboth

/-! ### What is sent -/

/-- The two words of a set are the two halves of its bits. -/
lemma isSet_toBits (s : StateSet) (p : Nat) :
    Bits.isSet s.toBits p = s.bits.toNat.testBit p := by
  rw [toBits]
  by_cases hlow : p < 32
  · rw [Bits.isSet_cons_of_lt hlow, UInt64.toNat_toUInt32, Nat.testBit_mod_two_pow]
    simp [hlow]
  obtain ⟨q, rfl⟩ := Nat.exists_eq_add_of_le (Nat.le_of_not_lt hlow)
  rw [Bits.isSet_cons_add]
  by_cases hhigh : q < 32
  · rw [Bits.isSet_cons_of_lt hhigh, UInt64.toNat_toUInt32, Nat.testBit_mod_two_pow,
      UInt64.toNat_shiftRight]
    simp [hhigh, Nat.testBit_shiftRight]
  · have hsmall : s.bits.toNat < 2 ^ (32 + q) :=
      s.bits.toNat_lt.trans_le (Nat.pow_le_pow_right (by omega) (by omega))
    obtain ⟨r, rfl⟩ := Nat.exists_eq_add_of_le (Nat.le_of_not_lt hhigh)
    rw [Bits.isSet_cons_add, Nat.testBit_lt_two_pow hsmall]
    rfl

lemma snd_ofBits (ws : List UInt32) : (ofBits ws).2 = Bits.firstFrom 41 ws := by
  have hunknown : ∀ p : UInt32,
      (State.ofCode? p.toNat).isNone = decide (41 ≤ p.toNat) := fun p => by
    rw [Bool.eq_iff_iff, Option.isNone_iff_eq_none, State.ofCode?_eq_none_iff, decide_eq_true_eq]
  change (Bits.positions ws).find? (fun p => (State.ofCode? p.toNat).isNone) = _
  simp only [hunknown]
  rfl

lemma contains_ofBits_iff (ws : List UInt32) (x : State) :
    (ofBits ws).1.contains x = true ↔ x.code ∈ (Bits.positions ws).map UInt32.toNat := by
  change (ofList ((Bits.positions ws).filterMap fun p => State.ofCode? p.toNat)).contains x = true
    ↔ _
  rw [contains_ofList, List.contains_iff_mem, List.mem_filterMap, List.mem_map]
  refine exists_congr fun p => and_congr_right fun _ => ?_
  rw [State.ofCode?_eq_some_iff, eq_comm]

lemma contains_ofBits (h : ws.length ≤ 2 ^ 27) (x : State) :
    (ofBits ws).1.contains x = true ↔ Bits.isSet ws x.code = true := by
  rw [contains_ofBits_iff, Bits.mem_map_positions_iff_isSet h]

lemma testBit_ofBits (h : ws.length ≤ 2 ^ 27) (p : Nat) :
    (ofBits ws).1.bits.toNat.testBit p = true ↔ p < 41 ∧ Bits.isSet ws p = true := by
  constructor
  · intro hp
    obtain ⟨x, rfl, hx⟩ := exists_contains (proper_ofList _) hp
    exact ⟨State.code_lt x, (contains_ofBits h x).1 hx⟩
  · rintro ⟨hp, hset⟩
    obtain ⟨x, rfl⟩ := exists_code_eq hp
    rw [← contains_eq_testBit, contains_ofBits h, hset]

lemma ofBits_toBits (h : s.Proper) : ofBits s.toBits = (s, none) := by
  have hlength : s.toBits.length ≤ 2 ^ 27 := by simp [toBits]
  refine Prod.ext (eq_of_contains (proper_ofList _) h fun x => ?_) ?_
  · rw [Bool.eq_iff_iff, contains_ofBits hlength, isSet_toBits, contains_eq_testBit]
  · rw [snd_ofBits, Bits.firstFrom_eq_none_iff hlength]
    intro p hp
    exact h p (isSet_toBits s p ▸ hp)

/-- What holds of a set that stands for the states it lists. -/
structure Faithful (s : StateSet) : Prop where
  proper : ∀ p, 41 ≤ p → s.bits.toNat.testBit p = false
  mem_toList : ∀ x, x ∈ s.toList ↔ s.contains x = true
  ascending : s.toList.Pairwise fun x y => x.code < y.code
  size : s.size = s.toList.length
  isEmpty : s.isEmpty = true ↔ s.toList = []
  insertNew : ∀ x, (s.insertNew x).1 = !s.contains x ∧
    ∀ y, (s.insertNew x).2.contains y = (x == y || s.contains y)
  eraseOld : ∀ x, (s.eraseOld x).1 = s.contains x ∧
    ∀ y, (s.eraseOld x).2.contains y = (x != y && s.contains y)
  read_back : ofBits s.toBits = (s, none)

/-- A set that is made in whatever way stands for the states it lists, also where it is compared
with another one. What is read from words are the states whose bits are set, and the lowest
position of a bit that is set for none. -/
theorem faithful_of_made :
    (∀ s, Made s → s.Faithful ∧ ∀ t, Made t →
      (s.containsAll t = true ↔ ∀ x ∈ t.toList, s.contains x = true) ∧
      (s.containsAny t = true ↔ ∃ x ∈ t.toList, s.contains x = true) ∧
      (s.containsNone t = true ↔ ¬ ∃ x ∈ t.toList, s.contains x = true)) ∧
    ∀ ws : List UInt32, ws.length < 2 ^ 27 →
      (∀ p, (ofBits ws).1.bits.toNat.testBit p = true ↔ p < 41 ∧ Bits.isSet ws p = true) ∧
      (∀ p, (ofBits ws).2 = some p ↔ IsLeast {q | Bits.isSet ws q = true ∧ 41 ≤ q} p.toNat) ∧
      ((ofBits ws).2 = none ↔ ∀ q, Bits.isSet ws q = true → q < 41) := by
  constructor
  · intro s hs
    have hproper := hs.proper
    refine ⟨⟨?_, fun x => mem_toList, pairwise_toList s, size_eq hproper,
      isEmpty_iff_toList hproper, ?_, ?_, ofBits_toBits hproper⟩, fun t ht => ?_⟩
    · intro p hp
      by_contra hbit
      exact Nat.not_le_of_lt (hproper p (by simpa using hbit)) hp
    · exact fun x => ⟨rfl, contains_insert s x⟩
    · exact fun x => ⟨rfl, contains_erase s x⟩
    · refine ⟨containsAll_iff ht.proper, containsAny_iff ht.proper, ?_⟩
      rw [containsNone, Bool.not_eq_true', ← Bool.not_eq_true, containsAny_iff ht.proper]
  · intro ws hlength
    refine ⟨testBit_ofBits hlength.le, fun p => ?_, ?_⟩
    · rw [snd_ofBits, Bits.firstFrom_eq_some_iff hlength.le]
    · rw [snd_ofBits, Bits.firstFrom_eq_none_iff hlength.le]

theorem faithful_of_made_sample :
    let ws : List UInt32 := [0x40000000, 0x80000100]
    let s := ((ofBits ws).1.insertNew .active).2
    Made s ∧ s.Faithful ∧ Made .defunct ∧ s.containsNone .defunct = true ∧
      ws.length < 2 ^ 27 ∧ (ofBits ws).2 = some 63 := by
  intro ws s
  have hs : Made s := (Made.ofBits ws).insertNew .active
  have hlength : ws.length < 2 ^ 27 := by simp [ws]
  have hleast : ∀ q < 64, Bits.isSet ws q = true ∧ 41 ≤ q → 63 ≤ q := by decide
  refine ⟨hs, (faithful_of_made.1 s hs).1, .defunct, ?_, hlength, ?_⟩
  · exact ((faithful_of_made.1 s hs).2 .defunct .defunct).2.2.2 (by decide)
  · refine ((faithful_of_made.2 ws hlength).2.1 63).2 ⟨by decide, fun q hq => ?_⟩
    exact hleast q (Bits.lt_of_isSet hq.1) hq

end AccessTree.StateSet
