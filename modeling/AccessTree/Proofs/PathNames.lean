import Mathlib.Data.List.Basic
import AccessTree.Registry.Path

/-!
Paths as names of objects. The text after the head of a path writes a number, and a number stands
for one handle. Different handles have different paths, and the path of a handle with an odd
version leads back to it.
-/

namespace AccessTree

namespace Text

variable {c : Char} {cs : List Char} {d m n : Nat} {w : UInt64}

/-- The text writes the number: one digit or more, with at most one plus sign before them. -/
def Writes (cs : List Char) (n : Nat) : Prop :=
  ∃ sign digits, cs = sign ++ digits ∧ (sign = [] ∨ sign = ['+']) ∧ digits ≠ [] ∧
    (∀ c ∈ digits, c.isDigit = true) ∧ Nat.ofDigitChars 10 digits 0 = n

lemma digit?_eq_some_iff : digit? c = some d ↔ c.isDigit = true ∧ c.toNat - '0'.toNat = d := by
  have hc : ('0' ≤ c ∧ c ≤ '9') ↔ c.isDigit = true := by
    simp [Char.isDigit, Char.le_def]
  rw [digit?, Option.ite_none_right_eq_some, hc, Option.some.injEq]

lemma digitsFrom?_eq_some_iff : digitsFrom? n cs = some m ↔
    (∀ c ∈ cs, c.isDigit = true) ∧ Nat.ofDigitChars 10 cs n = m := by
  induction cs generalizing n with
  | nil => simp [digitsFrom?]
  | cons c cs ih =>
    rw [digitsFrom?, Option.bind_eq_some_iff, Nat.ofDigitChars_cons, Nat.mul_comm 10 n]
    constructor
    · rintro ⟨d, hd, h⟩
      obtain ⟨hc, rfl⟩ := digit?_eq_some_iff.1 hd
      obtain ⟨hcs, h⟩ := ih.1 h
      exact ⟨List.forall_mem_cons.2 ⟨hc, hcs⟩, h⟩
    · rintro ⟨hcs, h⟩
      obtain ⟨hc, hcs⟩ := List.forall_mem_cons.1 hcs
      exact ⟨_, digit?_eq_some_iff.2 ⟨hc, rfl⟩, ih.2 ⟨hcs, h⟩⟩

lemma natural?_eq_some_iff : natural? cs = some n ↔
    cs ≠ [] ∧ (∀ c ∈ cs, c.isDigit = true) ∧ Nat.ofDigitChars 10 cs 0 = n := by
  cases cs with
  | nil => simp [natural?]
  | cons c cs => simp [natural?, digitsFrom?_eq_some_iff]

/-- A word is read where its number is written, whatever zeros and sign come first. -/
theorem word64?_eq_some_iff : word64? cs = some w ↔ Writes cs w.toNat := by
  -- Without a sign first: digits, and their number fits.
  have word : ∀ digits, ((natural? digits).bind fun n =>
      if n < UInt64.size then some (UInt64.ofNat n) else none) = some w ↔
      digits ≠ [] ∧ (∀ c ∈ digits, c.isDigit = true) ∧ Nat.ofDigitChars 10 digits 0 = w.toNat := by
    intro digits
    rw [Option.bind_eq_some_iff]
    constructor
    · rintro ⟨n, hn, h⟩
      obtain ⟨hlt, h⟩ := Option.ite_none_right_eq_some.1 h
      obtain rfl := Option.some.inj h
      rw [UInt64.toNat_ofNat_of_lt' hlt]
      exact natural?_eq_some_iff.1 hn
    · intro h
      refine ⟨_, natural?_eq_some_iff.2 h, ?_⟩
      rw [if_pos w.toNat_lt_size, UInt64.ofNat_toNat]
  unfold word64?
  rw [word]
  split
  · rename_i rest
    constructor
    · rintro ⟨hne, hd, hn⟩
      exact ⟨['+'], rest, rfl, Or.inr rfl, hne, hd, hn⟩
    · rintro ⟨sign, digits, hcs, rfl | rfl, hne, hd, hn⟩
      · rw [List.nil_append] at hcs
        -- A sign is no digit, so it cannot be read as the first of them.
        subst hcs
        cases hd '+' (List.mem_cons_self ..)
      · obtain rfl : rest = digits := by simpa using hcs
        exact ⟨hne, hd, hn⟩
  · rename_i hcs
    constructor
    · rintro ⟨hne, hd, hn⟩
      exact ⟨[], cs, rfl, Or.inl rfl, hne, hd, hn⟩
    · rintro ⟨sign, digits, rfl, rfl | rfl, hne, hd, hn⟩
      · exact ⟨hne, hd, hn⟩
      · exact absurd rfl (hcs digits)

lemma writes_repr (n : Nat) : Writes n.repr.toList n := by
  refine ⟨[], Nat.toDigits 10 n, ?_, Or.inl rfl, Nat.toDigits_ne_nil, fun c hc => ?_, ?_⟩
  · rw [Nat.toList_repr, List.nil_append]
  · exact Nat.isDigit_of_mem_toDigits (by decide) (by decide) hc
  · exact Nat.ofDigitChars_ten_toDigits

end Text

namespace Registry

variable {r : Registry} {i j : ObjectId} {p : String}

lemma toList_pathOf : (pathOf i).toList = pathHead.toList ++ i.raw.toNat.repr.toList := by
  rw [pathOf, String.toList_append, Nat.toString_eq_repr]

theorem handleOfPath?_eq_some_iff : handleOfPath? p = some i ↔
    ∃ cs w, p.toList = pathHead.toList ++ cs ∧ Text.Writes cs w.toNat ∧ ObjectId.ofRaw w = i := by
  unfold handleOfPath?
  simp [Option.bind_eq_some_iff, Text.after?_eq_some_iff, Text.word64?_eq_some_iff]

lemma handleOfPath?_pathOf (odd : i.version ||| 1 = i.version) :
    handleOfPath? (pathOf i) = some i :=
  handleOfPath?_eq_some_iff.2
    ⟨_, i.raw, toList_pathOf, Text.writes_repr _, ObjectId.ofRaw_raw odd⟩

/-- No two handles share a path. -/
theorem pathOf_inj : pathOf i = pathOf j ↔ i = j := by
  refine ⟨fun h => ?_, fun h => h ▸ rfl⟩
  have h := congrArg String.toList h
  rw [toList_pathOf, toList_pathOf, List.append_cancel_left_eq, Nat.toList_repr,
    Nat.toList_repr] at h
  have hn : i.raw.toNat = j.raw.toNat := by
    calc i.raw.toNat
      _ = Nat.ofDigitChars 10 (Nat.toDigits 10 i.raw.toNat) 0 :=
        Nat.ofDigitChars_ten_toDigits.symm
      _ = Nat.ofDigitChars 10 (Nat.toDigits 10 j.raw.toNat) 0 := by rw [h]
      _ = j.raw.toNat := Nat.ofDigitChars_ten_toDigits
  exact ObjectId.raw_inj.1 (UInt64.toNat_inj.1 hn)

/-- The path that stands for the first root is no object's own. -/
lemma pathOf_ne_rootPath : pathOf i ≠ rootPath := by
  intro h
  have h := congrArg String.toList h
  have hroot : rootPath.toList = pathHead.toList ++ ['r', 'o', 'o', 't'] := by decide
  rw [toList_pathOf, hroot, List.append_cancel_left_eq, Nat.toList_repr] at h
  have hr : 'r' ∈ Nat.toDigits 10 i.raw.toNat := by rw [h]; exact List.mem_cons_self ..
  cases Nat.isDigit_of_mem_toDigits (by decide) (by decide) hr

lemma resolve_pathOf (odd : i.version ||| 1 = i.version) :
    r.resolve (pathOf i) = if r.contains i = true then some i else none := by
  rw [resolve, if_neg pathOf_ne_rootPath, handleOfPath?_pathOf odd, Option.filter_some]

/-- Which paths lead to an object: the cell is the low half of the number that is written, and the
version is the high half, or the next one up if that is even. -/
theorem resolve_eq_some_iff (hp : p ≠ rootPath) : r.resolve p = some i ↔
    r.contains i = true ∧ ∃ cs n, p.toList = pathHead.toList ++ cs ∧ Text.Writes cs n ∧
      n < UInt64.size ∧ i.cell.toNat = n % UInt32.size ∧
      i.version.toNat = n / UInt32.size ||| 1 := by
  rw [resolve, if_neg hp, Option.filter_eq_some_iff, handleOfPath?_eq_some_iff, and_comm]
  -- Reading a handle splits a word at 32 bits, where nothing is lost on either side.
  have halves : ∀ w : UInt64, ObjectId.ofRaw w = i ↔
      i.cell.toNat = w.toNat % UInt32.size ∧ i.version.toNat = w.toNat / UInt32.size ||| 1 := by
    intro w
    have hw := w.toNat_lt
    obtain ⟨c, v⟩ := i
    have hc : (UInt32.ofNat (w.toNat % UInt32.size)).toNat = w.toNat % UInt32.size :=
      UInt32.toNat_ofNat_of_lt' (Nat.mod_lt _ (by decide))
    have hv : (UInt32.ofNat (w.toNat / UInt32.size)).toNat = w.toNat / UInt32.size :=
      UInt32.toNat_ofNat_of_lt' (by simp only [UInt32.size]; omega)
    have one : (1 : UInt32).toNat = 1 := rfl
    rw [← hc, ← hv, ← one, ← UInt32.toNat_or, UInt32.toNat_inj, UInt32.toNat_inj,
      ObjectId.mk.injEq, eq_comm, eq_comm (a := v)]
    rfl
  refine and_congr_right fun _ => exists_congr fun cs => ?_
  constructor
  · rintro ⟨w, hcs, hn, hi⟩
    exact ⟨w.toNat, hcs, hn, w.toNat_lt_size, (halves w).1 hi⟩
  · rintro ⟨n, hcs, hn, hlt, hi⟩
    have hw : (UInt64.ofNat n).toNat = n := UInt64.toNat_ofNat_of_lt' hlt
    exact ⟨.ofNat n, hcs, by rwa [hw], (halves _).2 (by rwa [hw])⟩

end Registry

end AccessTree
