/-!
Cutting text at a separator. The pieces joined by the separator give the text back, so a text
without the separator is its only piece, and the empty text is one empty piece.
-/

namespace AccessTree.Text

/-- The pieces between the separators. -/
def pieces (sep : Char) : List Char → List (List Char)
  | [] => [[]]
  | c :: cs =>
    if c = sep then [] :: pieces sep cs
    else
      match pieces sep cs with
      | [] => [[c]]
      | p :: ps => (c :: p) :: ps

/-- The text before the first separator and the text after it. -/
def cut? (sep : Char) : List Char → Option (List Char × List Char)
  | [] => none
  | c :: cs =>
    if c = sep then some ([], cs)
    else (cut? sep cs).map fun (before, after) => (c :: before, after)

/-- The text after a given beginning. -/
def after? : List Char → List Char → Option (List Char)
  | [], cs => some cs
  | _ :: _, [] => none
  | b :: bs, c :: cs => if b = c then after? bs cs else none

def splitAll (sep : Char) (s : String) : List String := (pieces sep s.toList).map String.ofList

theorem after?_eq_some_iff {bs cs rest : List Char} :
    after? bs cs = some rest ↔ cs = bs ++ rest := by
  fun_induction after? bs cs <;> simp_all
  all_goals grind

theorem cut?_eq_none_iff {sep : Char} {cs : List Char} : cut? sep cs = none ↔ sep ∉ cs := by
  induction cs with
  | nil => simp [cut?]
  | cons c cs ih =>
    by_cases h : c = sep <;> simp_all [cut?]
    grind

theorem cut?_eq_some_iff {sep : Char} {cs before after : List Char} :
    cut? sep cs = some (before, after) ↔ cs = before ++ sep :: after ∧ sep ∉ before := by
  induction cs generalizing before with
  | nil => simp [cut?]
  | cons c cs ih =>
    by_cases h : c = sep
    · cases before with
      | nil => simp [cut?, h]
      | cons b before => grind [cut?]
    · cases before with
      | nil => simp [cut?, h]
      | cons b before =>
        simp [cut?, h, ih]
        grind

end AccessTree.Text
