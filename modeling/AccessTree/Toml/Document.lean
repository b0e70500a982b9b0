import AccessTree.Toml.Number
import AccessTree.Toml.Quoted

/-!
TOML documents. A document is read line by line into what each line says, and the lines are then
carried out one after the other on the table that the document is.
-/

namespace AccessTree.Toml

open Text (Reader)

/-- What a line says. -/
inductive Line where
  | nothing
  | pair (path : List String) (key : String) (v : Value)
  | table (path : List String) (key : String)
  | element (path : List String) (key : String)

namespace Document

def blanks : Reader Unit := (fun _ => ()) <$> Reader.span isBlank

def comment : Reader Unit := do
  Reader.char '#'
  let _ ← Reader.span fun c => !isControl c

def lineEnd : Reader Unit := do
  blanks
  let _ ← Reader.maybe comment
  newline <|> Reader.done

/-- What may stand between the values of an array. -/
def gap : Reader Unit := do
  let _ ← Reader.many ((fun _ => ()) <$> Reader.satisfy isBlank <|> newline <|> comment *> newline)

def isBare (c : Char) : Bool :=
  'a' ≤ c && c ≤ 'z' || 'A' ≤ c && c ≤ 'Z' || '0' ≤ c && c ≤ '9' || c == '_' || c == '-'

def simpleKey : Reader String := do
  blanks
  let key ← Quoted.onLine <|> String.ofList <$> Reader.span1 isBare
  blanks
  return key

/-- A key of fewer than 80 parts: the parts before the last one, and that one. -/
def key : Reader (List String × String) := do
  let parts ← Reader.separated simpleKey (Reader.char '.')
  match parts.getLast? with
  | some last => if parts.length < 80 then pure (parts.dropLast, last) else failure
  | none => failure

def pair (value : Reader Value) : Reader (List String × String × Value) := do
  let (path, last) ← key
  Reader.char '='
  blanks
  return (path, last, ← value)

def array (value : Reader Value) : Reader Value := do
  Reader.char '['
  gap
  let items ← Reader.separated (value <* gap) (Reader.char ',' *> gap)
  if !items.isEmpty then
    let _ ← Reader.maybe (Reader.char ',' *> gap)
  Reader.char ']'
  return .array items

def inlineTable (value : Reader Value) : Reader Value := do
  Reader.char '\x7b'
  let pairs ← Reader.separated (pair value <* blanks) (Reader.char ',')
  blanks
  Reader.char '\x7d'
  match pairs.foldlM (fun es (path, key, v) => Entries.add path key v .inline es) [] with
  | some es => return .table .inline es
  | none => failure

def scalar : Reader Value := do
  match ← Reader.ahead with
  | some '\x22' | some '\x27' => .text <$> Quoted.any
  | some 't' => Reader.word "true" *> pure (.bool true)
  | some 'f' => Reader.word "false" *> pure (.bool false)
  | _ => number

/-- A value in which arrays and tables are nested at most so deep. -/
def value : Nat → Reader Value
  | 0 => scalar
  | depth + 1 => do
    match ← Reader.ahead with
    | some '[' => array (value depth)
    | some '\x7b' => inlineTable (value depth)
    | _ => scalar

def header : Reader Line := do
  if (← Reader.maybe (Reader.word "[[")).isSome then
    let (path, last) ← key
    Reader.word "]]"
    lineEnd
    return .element path last
  else
    Reader.char '['
    let (path, last) ← key
    Reader.char ']'
    lineEnd
    return .table path last

def line : Reader Line := do
  match ← Reader.ahead with
  | some '#' => comment *> (newline <|> Reader.done) *> pure .nothing
  | some '[' => header
  | some '\n' | some '\r' => newline *> pure .nothing
  | some _ => do
    let (path, last, v) ← pair (value 79)
    lineEnd
    return .pair path last v
  | none => failure

def lines : Reader (List Line) := do
  let _ ← Reader.maybe (Reader.char '\uFEFF')
  blanks
  Reader.many (line <* blanks)

end Document

/-- A document as far as it is read, and the path of the table that its last header opened. -/
structure Draft where
  root : Entries := []
  path : List String := []

namespace Draft

/-- Carries out what a line says. -/
def extend (d : Draft) : Line → Option Draft
  | .nothing => some d
  | .pair path key v => do
    return { d with root := ← Entries.change false (Entries.add path key v) d.path .header d.root }
  | .table path key => do
    return ⟨← Entries.openTable path key d.root, path ++ [key]⟩
  | .element path key => do
    return ⟨← Entries.openElement path key d.root, path ++ [key]⟩

end Draft

/-- The table that a document is, if it is one. -/
def parse? (s : String) : Option Entries := do
  let lines ← Reader.whole? Document.lines s
  return (← lines.foldlM Draft.extend {}).root

end AccessTree.Toml
