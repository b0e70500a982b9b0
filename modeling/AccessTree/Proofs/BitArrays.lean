import Mathlib.Algebra.Ring.Nat
import Mathlib.Data.List.Basic
import Mathlib.Order.Bounds.Basic
import AccessTree.Bits

/-!
Bit arrays. The positions that are listed are those of the bits that are set, in their order and
up to multiples of 2 ^ 32. In an array that is as short as those of a message no position has to
wrap, so that the positions are listed as they are and in ascending order.
-/

namespace AccessTree.Bits

variable {ws : List UInt32} {p : UInt32}

/-- Whether the bit at a position is set. -/
def isSet (ws : List UInt32) (p : Nat) : Bool :=
  ws[p / 32]?.any fun w => w.toNat.testBit (p % 32)

lemma toNat_position (word bit : Nat) : (position word bit).toNat = (32 * word + bit) % 2 ^ 32 := by
  simp [position]
  omega

lemma isSet_cons_of_lt {w : UInt32} {p : Nat} (h : p < 32) :
    isSet (w :: ws) p = w.toNat.testBit p := by
  simp [isSet, Nat.div_eq_of_lt h, Nat.mod_eq_of_lt h]

lemma isSet_cons_add (w : UInt32) (p : Nat) : isSet (w :: ws) (32 + p) = isSet ws p := by
  simp [isSet, Nat.add_comm 32 p]

lemma lt_of_isSet {p : Nat} (h : isSet ws p = true) : p < 32 * ws.length := by
  rw [isSet, Option.any_eq_true] at h
  obtain ⟨w, hw, -⟩ := h
  have := (List.getElem?_eq_some_iff.1 hw).1
  omega

lemma map_toNat_inWord (i : Nat) (w : UInt32) : (inWord i w).map UInt32.toNat =
    ((List.range 32).filter w.toNat.testBit).map fun bit => (32 * i + bit) % 2 ^ 32 := by
  rw [inWord, List.map_map]
  exact List.map_congr_left fun bit _ => toNat_position i bit

/-- The positions of the first word come first, and those of the others are 32 higher. -/
lemma filter_isSet_cons (w : UInt32) (ws : List UInt32) :
    (List.range (32 * (ws.length + 1))).filter (isSet (w :: ws)) =
      (List.range 32).filter w.toNat.testBit ++
        ((List.range (32 * ws.length)).filter (isSet ws)).map (32 + ·) := by
  have hword : (List.range 32).filter (isSet (w :: ws)) = (List.range 32).filter w.toNat.testBit :=
    List.filter_congr fun p hp => isSet_cons_of_lt (List.mem_range.1 hp)
  have hrest : isSet (w :: ws) ∘ (32 + ·) = isSet ws := funext fun p => isSet_cons_add w p
  rw [Nat.mul_succ, Nat.add_comm _ 32, List.range_add, List.filter_append, List.filter_map, hword,
    hrest]

lemma map_toNat_positionsFrom (i : Nat) (ws : List UInt32) :
    (positionsFrom i ws).map UInt32.toNat =
      ((List.range (32 * ws.length)).filter (isSet ws)).map fun p => (32 * i + p) % 2 ^ 32 := by
  induction ws generalizing i with
  | nil => simp [positionsFrom]
  | cons w ws ih =>
    rw [positionsFrom, List.map_append, map_toNat_inWord, ih, List.length_cons,
      filter_isSet_cons, List.map_append, List.map_map]
    congr 2
    funext p
    rw [Function.comp_apply, Nat.mul_succ, Nat.add_assoc]

/-- The positions are those of the set bits, in their order, and begin anew at 2 ^ 32. -/
theorem map_toNat_positions_mod (ws : List UInt32) : (positions ws).map UInt32.toNat =
    ((List.range (32 * ws.length)).filter (isSet ws)).map (· % 2 ^ 32) := by
  simpa [positions] using map_toNat_positionsFrom 0 ws

/-- In a short array the positions are those of the set bits. -/
theorem map_toNat_positions (h : ws.length ≤ 2 ^ 27) : (positions ws).map UInt32.toNat =
    (List.range (32 * ws.length)).filter (isSet ws) := by
  rw [map_toNat_positions_mod]
  refine (List.map_congr_left fun p hp => ?_).trans (List.map_id _)
  have hlt := List.mem_range.1 (List.mem_filter.1 hp).1
  exact Nat.mod_eq_of_lt (by omega)

lemma mem_filter_isSet {p : Nat} :
    p ∈ (List.range (32 * ws.length)).filter (isSet ws) ↔ isSet ws p = true := by
  rw [List.mem_filter, List.mem_range]
  exact and_iff_right_of_imp lt_of_isSet

lemma mem_map_positions_iff {q : Nat} : q ∈ (positions ws).map UInt32.toNat ↔
    ∃ p, isSet ws p = true ∧ p % 2 ^ 32 = q := by
  rw [map_toNat_positions_mod, List.mem_map]
  exact exists_congr fun p => and_congr_left fun _ => mem_filter_isSet

lemma mem_map_positions_iff_isSet (h : ws.length ≤ 2 ^ 27) {q : Nat} :
    q ∈ (positions ws).map UInt32.toNat ↔ isSet ws q = true := by
  rw [map_toNat_positions h, mem_filter_isSet]

/-- The first position that is listed and not below a bound. -/
def firstFrom (n : Nat) (ws : List UInt32) : Option UInt32 :=
  (positions ws).find? fun p => n ≤ p.toNat

variable {n : Nat}

lemma map_toNat_firstFrom (h : ws.length ≤ 2 ^ 27) : (firstFrom n ws).map UInt32.toNat =
    (List.range (32 * ws.length)).find? fun p => isSet ws p ∧ n ≤ p := by
  have hmap : (firstFrom n ws).map UInt32.toNat =
      ((positions ws).map UInt32.toNat).find? fun p => n ≤ p := by
    rw [List.find?_map]
    rfl
  rw [hmap, map_toNat_positions h, List.find?_filter]
  simp

theorem firstFrom_eq_some_iff (h : ws.length ≤ 2 ^ 27) :
    firstFrom n ws = some p ↔ IsLeast {q | isSet ws q = true ∧ n ≤ q} p.toNat := by
  have hinj : (firstFrom n ws).map UInt32.toNat = some p.toNat ↔ firstFrom n ws = some p :=
    (Option.map_injective fun _ _ => UInt32.toNat_inj.1).eq_iff (b := some p)
  rw [← hinj, map_toNat_firstFrom h, List.find?_range_eq_some]
  simp only [decide_eq_true_eq, List.mem_range, Bool.not_eq_true', decide_eq_false_iff_not]
  constructor
  · rintro ⟨hp, -, hleast⟩
    exact ⟨hp, fun q hq => Nat.le_of_not_lt fun hlt => hleast q hlt hq⟩
  · rintro ⟨hp, hleast⟩
    exact ⟨hp, lt_of_isSet hp.1, fun q hlt hq => Nat.not_le_of_lt hlt (hleast hq)⟩

lemma firstFrom_eq_none_iff_mod :
    firstFrom n ws = none ↔ ∀ p, isSet ws p = true → p % 2 ^ 32 < n := by
  have hlisted : firstFrom n ws = none ↔ ∀ q ∈ (positions ws).map UInt32.toNat, q < n := by
    simp [firstFrom]
  rw [hlisted]
  simp only [mem_map_positions_iff, forall_exists_index, and_imp, forall_apply_eq_imp_iff₂]

theorem firstFrom_eq_none_iff (h : ws.length ≤ 2 ^ 27) :
    firstFrom n ws = none ↔ ∀ q, isSet ws q = true → q < n := by
  rw [firstFrom_eq_none_iff_mod]
  refine forall₂_congr fun q hq => ?_
  have hlt := lt_of_isSet hq
  rw [Nat.mod_eq_of_lt (by omega)]

end AccessTree.Bits
