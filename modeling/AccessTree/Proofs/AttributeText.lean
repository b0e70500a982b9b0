import AccessTree.MatchArgs
import AccessTree.Proofs.Segments

/-!
Attributes as text. An attribute is read back from its text unless its name has a colon in it or its
value begins with a space, which is then taken for the one after the colon. Lists of attributes
travel in two forms, and what is read from them is the same in both.
-/

namespace AccessTree

namespace Attribute

variable {a : Attribute}

/-- The first colon of the text ends the name, and no space after it gets lost. -/
def Readable (a : Attribute) : Prop :=
  ':' ∉ a.name.toList ∧ ∀ v ∈ a.value?, v.toList.head? ≠ some ' '

/-- The text is one line, which is not empty. -/
def IsLine (a : Attribute) : Prop :=
  '\n' ∉ a.name.toList ∧ (∀ v ∈ a.value?, '\n' ∉ v.toList) ∧ (a.name ≠ "" ∨ a.value? ≠ none)

instance (a : Attribute) : Decidable a.Readable := inferInstanceAs (Decidable (_ ∧ _))

instance (a : Attribute) : Decidable a.IsLine := inferInstanceAs (Decidable (_ ∧ _))

/-- What is left of a value without the space that may stand before it. -/
def unspaced (value : List Char) : List Char := (Text.after? [' '] value).getD value

lemma unspaced_eq_self_iff {value : List Char} :
    unspaced value = value ↔ value.head? ≠ some ' ' := by
  cases value with
  | nil => simp [unspaced, Text.after?]
  | cons c value =>
    by_cases hc : ' ' = c
    · simp [unspaced, Text.after?, ← hc]
    · simp [unspaced, Text.after?, hc, Ne.symm hc]

lemma parse_of_notMem {s : String} (h : ':' ∉ s.toList) : parse s = ⟨s, none⟩ := by
  rw [parse, Text.cut?_eq_none_iff.2 h]

lemma parse_of_eq {s : String} {name value : List Char} (h : s.toList = name ++ ':' :: value)
    (hname : ':' ∉ name) : parse s = ⟨.ofList name, some (.ofList (unspaced value))⟩ := by
  rw [parse, Text.cut?_eq_some_iff.2 ⟨h, hname⟩]
  rcases value with _ | ⟨c, value⟩
  · rfl
  · by_cases hc : ' ' = c
    · subst hc
      rfl
    · rw [unspaced_eq_self_iff.2 (by simpa using Ne.symm hc)]
      simp [Ne.symm hc]

lemma toList_text_of_none (h : a.value? = none) : a.text.toList = a.name.toList := by
  rw [text, h]

lemma toList_text_of_some {v : String} (h : a.value? = some v) :
    a.text.toList = a.name.toList ++ ':' :: v.toList := by
  rw [text, h]
  simp

lemma parse_text_of_readable (h : a.Readable) : parse a.text = a := by
  obtain ⟨hname, hvalue⟩ := h
  cases hv : a.value? with
  | none =>
    have htext : a.text = a.name := String.toList_inj.1 (toList_text_of_none hv)
    rw [htext, parse_of_notMem hname, ← hv]
  | some v =>
    rw [parse_of_eq (toList_text_of_some hv) hname, unspaced_eq_self_iff.2 (hvalue v hv)]
    simp [← hv]

lemma exists_cut {cs : List Char} (h : ':' ∈ cs) :
    ∃ name value, cs = name ++ ':' :: value ∧ ':' ∉ name := by
  cases hcut : Text.cut? ':' cs with
  | none => exact absurd h (Text.cut?_eq_none_iff.1 hcut)
  | some cut => exact ⟨cut.1, cut.2, Text.cut?_eq_some_iff.1 hcut⟩

theorem parse_text_iff : parse a.text = a ↔ a.Readable := by
  refine ⟨fun h => ?_, parse_text_of_readable⟩
  cases hv : a.value? with
  | none =>
    -- The text is the name alone, and with a colon in it a value would be read.
    refine ⟨fun hcolon => ?_, by simp [hv]⟩
    rw [← toList_text_of_none hv] at hcolon
    obtain ⟨name, value, hcut, hname⟩ := exists_cut hcolon
    have hread := congrArg value? ((parse_of_eq hcut hname).symm.trans h)
    rw [hv] at hread
    cases hread
  | some v =>
    -- Reading cuts at the first colon. What comes before it is the name only if the name has none.
    have htext := toList_text_of_some hv
    have hcolon : ':' ∈ a.text.toList := by simp [htext]
    obtain ⟨name, value, hcut, hname⟩ := exists_cut hcolon
    have hread := (parse_of_eq hcut hname).symm.trans h
    have hn : name = a.name.toList := by simp [← hread]
    have hu : String.ofList (unspaced value) = v := by simpa [hv] using congrArg value? hread
    rw [← String.toList_inj, String.toList_ofList] at hu
    subst hn
    obtain rfl : value = v.toList := by simpa [htext] using hcut.symm
    refine ⟨hname, fun w hw => ?_⟩
    cases hv.symm.trans hw
    exact unspaced_eq_self_iff.1 hu

lemma IsLine.text_ne_empty (h : a.IsLine) : a.text ≠ "" := by
  intro he
  cases hv : a.value? with
  | none =>
    have hname : a.name ≠ "" := h.2.2.resolve_right (not_not_intro hv)
    rw [text, hv] at he
    exact hname he
  | some v =>
    have htext := toList_text_of_some hv
    simp [he] at htext

lemma IsLine.notMem_text (h : a.IsLine) : '\n' ∉ a.text.toList := by
  cases hv : a.value? with
  | none =>
    rw [toList_text_of_none hv]
    exact h.1
  | some v =>
    rw [toList_text_of_some hv]
    simpa using ⟨h.1, h.2.1 v hv⟩

end Attribute

namespace AttributeArgs

lemma attributes_list_text {as : List Attribute} (h : ∀ a ∈ as, a.Readable ∧ a.IsLine) :
    (list (as.map Attribute.text)).attributes = as := by
  have hkept : (as.map Attribute.text).filter (!·.isEmpty) = as.map Attribute.text := by
    refine List.filter_eq_self.2 fun s hs => ?_
    obtain ⟨a, ha, rfl⟩ := List.mem_map.1 hs
    simpa using (h a ha).2.text_ne_empty
  have hread : as.map (Attribute.parse ∘ Attribute.text) = as.map id :=
    List.map_congr_left fun a ha => Attribute.parse_text_of_readable (h a ha).1
  rw [attributes, entries, hkept, List.map_map, hread, List.map_id]

/-- No lines at all make one empty line, which is no attribute. -/
lemma attributes_join {ss : List String} (h : ∀ s ∈ ss, '\n' ∉ s.toList) :
    (text ("\n".intercalate ss)).attributes = (list ss).attributes := by
  cases ss with
  | nil => rfl
  | cons s ss =>
    have hcut : Text.splitAll '\n' ("\n".intercalate (s :: ss)) = s :: ss :=
      Text.splitAll_join h (List.cons_ne_nil s ss)
    rw [attributes, entries, hcut]
    rfl

end AttributeArgs

/-- The attributes that are read back from their text are those without a colon in the name and
without a space at the beginning of the value. Lists of them are read back from both forms in which
lists travel, and whatever the lines are, both forms are read alike. -/
theorem Attribute.text_read_back :
    (∀ a : Attribute, parse a.text = a ↔ a.Readable) ∧
    (∀ as : List Attribute, (∀ a ∈ as, a.Readable ∧ a.IsLine) →
      (AttributeArgs.list (as.map text)).attributes = as ∧
      (AttributeArgs.text ("\n".intercalate (as.map text))).attributes = as) ∧
    ∀ ss : List String, (∀ s ∈ ss, '\n' ∉ s.toList) →
      (AttributeArgs.text ("\n".intercalate ss)).attributes =
        (AttributeArgs.list ss).attributes := by
  refine ⟨fun a => parse_text_iff, fun as h => ?_, fun ss h => AttributeArgs.attributes_join h⟩
  have hlist := AttributeArgs.attributes_list_text h
  refine ⟨hlist, ?_⟩
  rw [AttributeArgs.attributes_join, hlist]
  intro s hs
  obtain ⟨a, ha, rfl⟩ := List.mem_map.1 hs
  exact (h a ha).2.notMem_text

theorem Attribute.text_read_back_sample :
    let as : List Attribute := [⟨"url", some "http://x"⟩, ⟨"live", none⟩, ⟨"", some ""⟩]
    (∀ a ∈ as, a.Readable ∧ a.IsLine) ∧
      (AttributeArgs.text "url:http://x\nlive\n:").attributes = as ∧
      (∀ s ∈ ["", "tag:  h1", "::"], '\n' ∉ s.toList) ∧
      (AttributeArgs.text "\ntag:  h1\n::").attributes =
        (AttributeArgs.list ["", "tag:  h1", "::"]).attributes := by
  intro as
  have has : ∀ a ∈ as, a.Readable ∧ a.IsLine := by decide
  have hss : ∀ s ∈ ["", "tag:  h1", "::"], '\n' ∉ s.toList := by decide
  exact ⟨has, (text_read_back.2.1 as has).2, hss, text_read_back.2.2 _ hss⟩

end AccessTree
