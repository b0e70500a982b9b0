import Mathlib.Data.List.Basic
import AccessTree.Text.Split

/-!
Cutting and joining. Joined by the separator the segments of a text are the text again, and none of
them has the separator in it. There is one list of this kind for each text, and cutting the text
gives it.
-/

namespace AccessTree.Text

variable {sep : Char} {s : String} {l : List String}

lemma pieces_eq_splitOn (cs : List Char) : pieces sep cs = cs.splitOn sep := by
  induction cs with
  | nil => rfl
  | cons c cs ih =>
    rw [pieces, List.splitOn_cons_eq_if_modifyHead, ← ih]
    by_cases h : c = sep
    · simp [h]
    · have hne : pieces sep cs ≠ [] := ih ▸ List.splitOn_ne_nil sep cs
      obtain ⟨p, ps, hp⟩ := List.exists_cons_of_ne_nil hne
      simp [h, hp]

lemma notMem_of_mem_pieces {cs p : List Char} (h : p ∈ pieces sep cs) : sep ∉ p := by
  induction cs generalizing p with
  | nil => simp [List.mem_singleton.1 h]
  | cons c cs ih =>
    rw [pieces] at h
    -- A separator begins a new piece, which is empty so far, and any other character joins the
    -- first one.
    split at h
    · rcases List.mem_cons.1 h with rfl | h
      · exact List.not_mem_nil
      · exact ih h
    · rename_i hc
      split at h
      · rw [List.mem_singleton.1 h]
        simpa using Ne.symm hc
      · rename_i q qs hq
        rw [hq] at ih
        rcases List.mem_cons.1 h with rfl | h
        · have hq := ih List.mem_cons_self
          simp [Ne.symm hc, hq]
        · exact ih (List.mem_cons_of_mem _ h)

structure Segments (sep : Char) (s : String) (l : List String) : Prop where
  joined : (String.singleton sep).intercalate l = s
  apart : ∀ segment ∈ l, sep ∉ segment.toList
  ne_nil : l ≠ []

lemma segments_splitAll (sep : Char) (s : String) : Segments sep s (splitAll sep s) where
  joined := by
    rw [← String.toList_inj, String.toList_intercalate, splitAll, List.map_map,
      pieces_eq_splitOn]
    simp [Function.comp_def, List.intercalate_splitOn]
  apart := by
    intro segment hs
    obtain ⟨p, hp, rfl⟩ := List.mem_map.1 hs
    rw [String.toList_ofList]
    exact notMem_of_mem_pieces hp
  ne_nil := by
    rw [splitAll, pieces_eq_splitOn]
    simp

/-- Cutting finds the segments, and there are no others. -/
theorem segments_iff : Segments sep s l ↔ splitAll sep s = l := by
  constructor
  · intro h
    have hcut : ([sep].intercalate (l.map String.toList)).splitOn sep = l.map String.toList := by
      refine List.splitOn_intercalate sep ?_ (by simpa using h.ne_nil)
      simpa using h.apart
    rw [splitAll, pieces_eq_splitOn, ← h.joined, String.toList_intercalate]
    simp [hcut, Function.comp_def]
  · rintro rfl
    exact segments_splitAll sep s

/-- Texts without the separator are what their join is cut into. -/
lemma splitAll_join (h : ∀ segment ∈ l, sep ∉ segment.toList) (hne : l ≠ []) :
    splitAll sep ((String.singleton sep).intercalate l) = l :=
  segments_iff.1 ⟨rfl, h, hne⟩

end AccessTree.Text
