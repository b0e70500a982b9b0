import AccessTree.Text.Split

/-!
Readers. A reader takes characters off the front of a text and answers, or refuses; after a
refusal the text is where it was, so the next reader can be tried.
-/

namespace AccessTree.Text

abbrev Reader (α : Type) := StateT (List Char) Option α

namespace Reader

variable {α β : Type}

/-- The next character, which stays in the text. -/
def ahead : Reader (Option Char) := fun cs => some (cs.head?, cs)

def next : Reader Char
  | [] => none
  | c :: cs => some (c, cs)

def satisfy (p : Char → Bool) : Reader Char
  | [] => none
  | c :: cs => if p c then some (c, cs) else none

def char (c : Char) : Reader Unit := (fun _ => ()) <$> satisfy (· == c)

def word (w : String) : Reader Unit := fun cs => (after? w.toList cs).map ((), ·)

/-- The longest run of characters with a property, which may be empty. -/
def span (p : Char → Bool) : Reader (List Char) := fun cs => some (cs.span p)

/-- A run of at least one character. -/
def span1 (p : Char → Bool) : Reader (List Char) := do
  let c ← satisfy p
  return c :: (← span p)

def maybe (r : Reader α) : Reader (Option α) := some <$> r <|> pure none

def manyUpTo (r : Reader α) : Nat → Reader (List α)
  | 0 => pure []
  | n + 1 => do
    match ← maybe r with
    | none => pure []
    | some a => return a :: (← manyUpTo r n)

/-- As many readings as there are. A reading that takes nothing is not counted on, so the length
of the text bounds their number. -/
def many (r : Reader α) : Reader (List α) := fun cs => manyUpTo r cs.length cs

/-- Readings with a separator between them: none, one or more. -/
def separated (r : Reader α) (sep : Reader Unit) : Reader (List α) := do
  match ← maybe r with
  | none => pure []
  | some a => return a :: (← many (sep *> r))

/-- The end of the text. -/
def done : Reader Unit
  | [] => some ((), [])
  | _ :: _ => none

/-- The reading of a whole text. -/
def whole? (r : Reader α) (s : String) : Option α := ((r <* done) s.toList).map (·.1)

end Reader

end AccessTree.Text
