/-!
Text compared without regard to the case of the ASCII letters. All other characters stand for
themselves, so that "É" and "é" differ.
-/

namespace AccessTree.Text

/-- The text with its ASCII letters in lower case. -/
def fold (s : String) : List Char := s.toList.map Char.toLower

/-- Equality up to the case of ASCII letters. -/
def alike (a b : String) : Bool := fold a == fold b

theorem alike_iff {a b : String} : alike a b = true ↔ fold a = fold b := by simp [alike]

theorem alike_eq_false_iff {a b : String} : alike a b = false ↔ fold a ≠ fold b := by
  simp [alike]

@[simp] theorem alike_self (a : String) : alike a a = true := by simp [alike]

end AccessTree.Text
