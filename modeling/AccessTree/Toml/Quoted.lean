import AccessTree.Json
import AccessTree.Text.Reader

/-!
Strings of TOML: basic ones with escapes and literal ones without, each on one line or on several.
Control characters other than the tab are not allowed in any of them.
-/

namespace AccessTree.Toml

open Text (Reader)

def isControl (c : Char) : Bool := c != '\t' && (c.toNat < 0x20 || c.toNat == 0x7F)

def isBlank (c : Char) : Bool := c == ' ' || c == '\t'

def newline : Reader Unit := Reader.char '\n' <|> Reader.word "\r\n"

namespace Quoted

def scalar? (digits : List Char) : Option Char := do
  let n ← digits.foldlM (fun n c => (n * 16 + ·) <$> Json.hex? c) 0
  if n < 0xD800 ∨ 0xE000 ≤ n ∧ n < 0x110000 then some (Char.ofNat n) else none

def escape? : Char → Option Char
  | 'b' => some '\x08'
  | 't' => some '\t'
  | 'n' => some '\n'
  | 'f' => some '\x0c'
  | 'r' => some '\r'
  | '\x22' => some '\x22'
  | '\\' => some '\\'
  | _ => none

/-- The characters up to the closing quote of a line, last first. -/
def line (acc : List Char) : List Char → Option (List Char × List Char)
  | '\x22' :: cs => some (acc, cs)
  | '\\' :: 'u' :: a :: b :: c :: d :: cs =>
    (scalar? [a, b, c, d]).bind fun x => line (x :: acc) cs
  | '\\' :: 'U' :: a :: b :: c :: d :: e :: f :: g :: h :: cs =>
    (scalar? [a, b, c, d, e, f, g, h]).bind fun x => line (x :: acc) cs
  | '\\' :: c :: cs => (escape? c).bind fun x => line (x :: acc) cs
  | c :: cs => if isControl c || c == '\\' then none else line (c :: acc) cs
  | [] => none

/-- Nothing but blanks is left on the line. -/
def endsLine (cs : List Char) : Bool :=
  match cs.dropWhile isBlank with
  | '\n' :: _ | '\r' :: '\n' :: _ => true
  | _ => false

/-- The characters of a block up to its three closing quotes, last first. Two more quotes may
stand before those. A backslash at the end of a line takes with it all blanks and line ends up to
the next character; `skip` tells that this is going on. -/
def block (skip : Bool) (acc : List Char) : List Char → Option (List Char × List Char)
  | '\x22' :: '\x22' :: '\x22' :: '\x22' :: '\x22' :: cs =>
    if cs.head? = some '\x22' then none else some ('\x22' :: '\x22' :: acc, cs)
  | '\x22' :: '\x22' :: '\x22' :: '\x22' :: cs => some ('\x22' :: acc, cs)
  | '\x22' :: '\x22' :: '\x22' :: cs => some (acc, cs)
  | '\r' :: '\n' :: cs => block skip (if skip then acc else '\n' :: acc) cs
  | '\n' :: cs => block skip (if skip then acc else '\n' :: acc) cs
  | '\\' :: 'u' :: a :: b :: c :: d :: cs =>
    (scalar? [a, b, c, d]).bind fun x => block false (x :: acc) cs
  | '\\' :: 'U' :: a :: b :: c :: d :: e :: f :: g :: h :: cs =>
    (scalar? [a, b, c, d, e, f, g, h]).bind fun x => block false (x :: acc) cs
  | '\\' :: c :: cs =>
    if endsLine (c :: cs) then block true acc (c :: cs)
    else (escape? c).bind fun x => block false (x :: acc) cs
  | c :: cs =>
    if skip && isBlank c then block true acc cs
    else if isControl c || c == '\\' then none
    else block false (c :: acc) cs
  | [] => none

/-- The same for a block without escapes. -/
def literalBlock (acc : List Char) : List Char → Option (List Char × List Char)
  | '\x27' :: '\x27' :: '\x27' :: '\x27' :: '\x27' :: cs =>
    if cs.head? = some '\x27' then none else some ('\x27' :: '\x27' :: acc, cs)
  | '\x27' :: '\x27' :: '\x27' :: '\x27' :: cs => some ('\x27' :: acc, cs)
  | '\x27' :: '\x27' :: '\x27' :: cs => some (acc, cs)
  | '\r' :: '\n' :: cs => literalBlock ('\n' :: acc) cs
  | '\n' :: cs => literalBlock ('\n' :: acc) cs
  | c :: cs => if isControl c then none else literalBlock (c :: acc) cs
  | [] => none

def reversed (r : Reader (List Char)) : Reader String := (String.ofList ·.reverse) <$> r

/-- A string on one line, as keys have them too. -/
def onLine : Reader String := do
  match ← Reader.next with
  | '\x22' => reversed (line [])
  | '\x27' => do
    let cs ← Reader.span fun c => c != '\x27' && !isControl c
    Reader.char '\x27'
    return String.ofList cs
  | _ => failure

/-- A string of any kind. A line end right after the opening of a block is not part of it. -/
def any : Reader String := do
  if (← Reader.maybe (Reader.word "\x22\x22\x22")).isSome then
    let _ ← Reader.maybe newline
    reversed (block false [])
  else if (← Reader.maybe (Reader.word "\x27\x27\x27")).isSome then
    let _ ← Reader.maybe newline
    reversed (literalBlock [])
  else onLine

end Quoted

end AccessTree.Toml
