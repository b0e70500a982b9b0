import AccessTree.Text.Decimal
import AccessTree.Text.Reader

/-!
JSON documents as RFC 8259 has them. Numbers keep their spelling, since an integer is told from
a real by how it is written, and objects keep their fields in order and repeated names with them.
-/

namespace AccessTree

open Text (Reader)

inductive Json where
  | null
  | bool (b : Bool)
  | number (spelling : String)
  | text (s : String)
  | array (items : List Json)
  | object (fields : List (String × Json))
  /-- A string whose escapes leave half of a surrogate pair alone, or an object with such a name:
  it is well formed but stands for no data. -/
  | broken

namespace Json

/-- What a string literal holds: characters as they stand, and code units that were escaped. -/
inductive Piece where
  | plain (c : Char)
  | unit (n : Nat)

def isLead (n : Nat) : Bool := 0xD800 ≤ n && n < 0xDC00

def isTrail (n : Nat) : Bool := 0xDC00 ≤ n && n < 0xE000

/-- Escaped code units as characters. A lead and the trail right after it are one character, and
neither stands alone. -/
def join : List Piece → Option (List Char)
  | [] => some []
  | .plain c :: ps => (c :: ·) <$> join ps
  | .unit n :: ps =>
    if isLead n then
      match ps with
      | .unit m :: ps =>
        if isTrail m then
          (Char.ofNat (0x10000 + (n - 0xD800) * 0x400 + (m - 0xDC00)) :: ·) <$> join ps
        else none
      | _ => none
    else if isTrail n then none
    else (Char.ofNat n :: ·) <$> join ps

def hex? (c : Char) : Option Nat :=
  if '0' ≤ c ∧ c ≤ '9' then some (c.toNat - '0'.toNat)
  else if 'a' ≤ c ∧ c ≤ 'f' then some (c.toNat - 'a'.toNat + 10)
  else if 'A' ≤ c ∧ c ≤ 'F' then some (c.toNat - 'A'.toNat + 10)
  else none

def hex4? (a b c d : Char) : Option Nat := do
  return (((← hex? a) * 16 + (← hex? b)) * 16 + (← hex? c)) * 16 + (← hex? d)

def escape? : Char → Option Char
  | '\x22' => some '\x22'
  | '\\' => some '\\'
  | '/' => some '/'
  | 'b' => some '\x08'
  | 'f' => some '\x0c'
  | 'n' => some '\n'
  | 'r' => some '\r'
  | 't' => some '\t'
  | _ => none

/-- The pieces up to the closing quote, last first. Control characters have to be escaped. -/
def pieces (acc : List Piece) : List Char → Option (List Piece × List Char)
  | '\x22' :: cs => some (acc, cs)
  | '\\' :: 'u' :: a :: b :: c :: d :: cs =>
    (hex4? a b c d).bind fun n => pieces (.unit n :: acc) cs
  | '\\' :: c :: cs => (escape? c).bind fun c => pieces (.plain c :: acc) cs
  | c :: cs => if c.toNat < 0x20 || c == '\\' then none else pieces (.plain c :: acc) cs
  | [] => none

/-- A string literal; no text when its escapes do not pair. -/
def literal : Reader (Option String) := do
  Reader.char '\x22'
  let ps ← pieces []
  return (join ps.reverse).map String.ofList

def isDigit (c : Char) : Bool := '0' ≤ c && c ≤ '9'

def sign (cs : List Char) : Reader (List Char) := do
  match ← Reader.maybe (Reader.satisfy cs.contains) with
  | none => pure []
  | some c => pure [c]

/-- Digits without a leading zero. -/
def whole : Reader (List Char) := do
  let c ← Reader.satisfy isDigit
  if c == '0' then pure [c] else return c :: (← Reader.span isDigit)

def fraction : Reader (List Char) := do
  Reader.char '.'
  return '.' :: (← Reader.span1 isDigit)

def exponent : Reader (List Char) := do
  let e ← Reader.satisfy fun c => c == 'e' || c == 'E'
  return e :: (← sign ['+', '-']) ++ (← Reader.span1 isDigit)

def spelling : Reader String := do
  let minus ← sign ['-']
  let n ← whole
  let f ← Reader.maybe fraction
  let e ← Reader.maybe exponent
  return String.ofList (minus ++ n ++ f.getD [] ++ e.getD [])

def blank : Reader Unit := fun cs =>
  some ((), cs.dropWhile fun c => c == ' ' || c == '\t' || c == '\n' || c == '\r')

def comma : Reader Unit := blank *> Reader.char ','

def field (item : Reader Json) : Reader (Option String × Json) := do
  blank
  let name ← literal
  blank
  Reader.char ':'
  return (name, ← item)

def ofFields (fields : List (Option String × Json)) : Json :=
  match fields.mapM fun (name, j) => (·, j) <$> name with
  | none => .broken
  | some fields => .object fields

/-- A value nested at most so deep, with the blanks before it. -/
def value : Nat → Reader Json
  | 0 => failure
  | depth + 1 => do
    blank
    match ← Reader.ahead with
    | some 'n' => Reader.word "null" *> pure .null
    | some 't' => Reader.word "true" *> pure (.bool true)
    | some 'f' => Reader.word "false" *> pure (.bool false)
    | some '\x22' => return ((← literal).map Json.text).getD .broken
    | some '[' => do
      Reader.char '['
      let items ← Reader.separated (value depth) comma
      blank
      Reader.char ']'
      return .array items
    | some '\x7b' => do
      Reader.char '\x7b'
      let fields ← Reader.separated (field (value depth)) comma
      blank
      Reader.char '\x7d'
      return ofFields fields
    | _ => .number <$> spelling

/-- The document that a text is, if it is one. -/
def parse? (s : String) : Option Json := Reader.whole? (value (s.length + 1) <* blank) s

/-! ### Reading a document as data -/

/-- An integer is written without fraction and exponent; minus zero is a real. -/
def int? : Json → Option Int
  | .number s =>
    match s.toList with
    | '-' :: ds => (Text.natural? ds).bind fun n => if n = 0 then none else some (-n)
    | ds => (Text.natural? ds).map Int.ofNat
  | _ => none

def text? : Json → Option String
  | .text s => some s
  | _ => none

def bool? : Json → Option Bool
  | .bool b => some b
  | _ => none

def items? : Json → Option (List Json)
  | .array js => some js
  | _ => none

def fields? : Json → Option (List (String × Json))
  | .object fs => some fs
  | _ => none

/-- The first field of a name; a null field counts as missing. -/
def field? (j : Json) (name : String) : Option Json :=
  match j.fields?.bind (·.lookup name) with
  | some .null => none
  | found => found

end Json

end AccessTree
