import AccessTree.Proofs.RuleArguments

/-!
Bit arrays of any length. A position is a word of 32 bits, so from the word at place 2 ^ 27 on the
positions begin anew, and a bit there is read as one of the first bits of the array. Which bits are
taken for unknown ones can be told for every array.
-/

namespace AccessTree

open Bits

namespace Bits

/-- Positions are as they should be up to a length of 2 ^ 27 words. -/
lemma forall_toNat_position_iff {length : Nat} :
    (∀ word < length, ∀ bit < 32, (position word bit).toNat = 32 * word + bit) ↔
      length ≤ 2 ^ 27 := by
  simp only [toNat_position]
  constructor
  · intro h
    by_contra hlong
    have hwrapped := h (2 ^ 27) (by omega) 0 (by decide)
    omega
  · intro h word hword bit hbit
    exact Nat.mod_eq_of_lt (by omega)

/-- Only the first bit after so many empty words is set. -/
lemma isSet_replicate_append (n p : Nat) :
    isSet (List.replicate n 0 ++ [1]) p = true ↔ p = 32 * n := by
  induction n generalizing p with
  | zero =>
    by_cases hp : p < 32
    · rw [List.replicate_zero, List.nil_append, isSet_cons_of_lt hp]
      exact Nat.testBit_one_eq_true_iff_self_eq_zero
    · have hnone : isSet [1] p = false :=
        Bool.eq_false_iff.2 fun h => hp (by simpa using lt_of_isSet h)
      simp [hnone]
      omega
  | succ n ih =>
    rw [List.replicate_succ, List.cons_append]
    by_cases hp : p < 32
    · rw [isSet_cons_of_lt hp]
      simp
      omega
    · obtain ⟨q, rfl⟩ := Nat.exists_eq_add_of_le (Nat.le_of_not_lt hp)
      rw [isSet_cons_add, ih]
      omega

end Bits

namespace MatchArgs

variable {words : List Int32}

lemma exists_roleList_eq_ok_iff :
    (∃ rs, roleList words = .ok rs) ↔ firstFrom 90 (words.map (·.toUInt32)) = none := by
  have hrefused : ∀ e, roleList words = .error e ↔ _ := fun e => mapM_role_eq_error_iff
  cases hroles : roleList words with
  | ok rs =>
    refine iff_of_true ⟨rs, rfl⟩ (Option.eq_none_iff_forall_not_mem.2 fun p hp => ?_)
    have herror := (hrefused (.unknownRole p)).2 ⟨p, hp, rfl⟩
    rw [hroles] at herror
    cases herror
  | error e =>
    obtain ⟨p, hp, -⟩ := (hrefused e).1 hroles
    refine iff_of_false (fun ⟨rs, h⟩ => by cases h) fun hnone => ?_
    rw [firstFrom, hp] at hnone
    cases hnone

/-- An array of any length is read as if 2 ^ 32 were taken off its positions again and again. The
positions are as they should be just up to a length of 2 ^ 27 words. -/
theorem words_read_mod (words : List Int32) :
    ((∀ word < words.length, ∀ bit < 32, (position word bit).toNat = 32 * word + bit) ↔
      words.length ≤ 2 ^ 27) ∧
    (∀ x, (StateSet.ofBits (words.map (·.toUInt32))).1.contains x = true ↔
      ∃ p, Sends words p ∧ p % 2 ^ 32 = x.code) ∧
    ((StateSet.ofBits (words.map (·.toUInt32))).2 = none ↔
      ∀ p, Sends words p → p % 2 ^ 32 < 41) ∧
    ((∃ rs, roleList words = .ok rs) ↔ ∀ p, Sends words p → p % 2 ^ 32 < 90) := by
  simp only [sends_iff]
  refine ⟨forall_toNat_position_iff, fun x => ?_, ?_, ?_⟩
  · rw [StateSet.contains_ofBits_iff, mem_map_positions_iff]
  · rw [StateSet.snd_ofBits, firstFrom_eq_none_iff_mod]
  · rw [exists_roleList_eq_ok_iff, firstFrom_eq_none_iff_mod]

end MatchArgs

/-- The only bit that is set lies one word too far, and is read as the first state. -/
theorem StateSet.ofBits_too_long : ∃ ws : List UInt32, ws.length = 2 ^ 27 + 1 ∧
    (∀ p, isSet ws p = true ↔ p = 2 ^ 32) ∧ (ofBits ws).1.contains .invalid = true ∧
      (ofBits ws).2 = none := by
  have hset : ∀ p, isSet (List.replicate (2 ^ 27) 0 ++ [1]) p = true ↔ p = 2 ^ 32 :=
    isSet_replicate_append (2 ^ 27)
  refine ⟨List.replicate (2 ^ 27) 0 ++ [1], ?_, hset, ?_, ?_⟩
  · rw [List.length_append, List.length_replicate, List.length_singleton]
  · rw [contains_ofBits_iff, mem_map_positions_iff]
    exact ⟨2 ^ 32, (hset _).2 rfl, rfl⟩
  · rw [snd_ofBits, firstFrom_eq_none_iff_mod]
    intro p hp
    rw [(hset p).1 hp]
    decide

end AccessTree
