import AccessTree.Json
import AccessTree.Text.Decimal
import AccessTree.Text.Reader
import AccessTree.Toml.Table

/-!
Numbers, dates and times of TOML. Integers have 64 bits with a sign; of the others it only matters
whether they are well formed and name something that exists.
-/

namespace AccessTree.Toml

open Text (Reader)

namespace Number

def isDigit (c : Char) : Bool := '0' ≤ c && c ≤ '9'

/-- Digits with single underscores between them, which are left out. -/
def digits (isDigit : Char → Bool) : Reader (List Char) := do
  let d ← Reader.satisfy isDigit
  let rest ← Reader.many (Reader.maybe (Reader.char '_') *> Reader.satisfy isDigit)
  return d :: rest

/-- Whether there is a minus sign; a plus sign may be there too. -/
def minus : Reader Bool := do
  match ← Reader.maybe (Reader.satisfy fun c => c == '+' || c == '-') with
  | some '-' => pure true
  | _ => pure false

/-- Digits that begin with zero only if that is all. -/
def whole : Reader (List Char) := do
  if (← Reader.ahead) = some '0' then
    Reader.char '0'
    return ['0']
  else digits isDigit

def valueOf (base : Nat) (ds : List Char) : Nat :=
  ds.foldl (fun n d => n * base + (Json.hex? d).getD 0) 0

/-! ### Integers -/

/-- An integer with a sign, or one in base 16, 8 or 2 without. -/
def integer : Reader Int := do
  let inBase (start : String) (base : Nat) (isDigit : Char → Bool) : Reader Int := do
    Reader.word start
    return valueOf base (← digits isDigit)
  let decimal : Reader Int := do
    let negative ← minus
    let n := valueOf 10 (← whole)
    return if negative then -n else n
  let n ← inBase "0x" 16 (fun c => (Json.hex? c).isSome) <|>
    inBase "0o" 8 (fun c => '0' ≤ c && c ≤ '7') <|>
    inBase "0b" 2 (fun c => c == '0' || c == '1') <|> decimal
  if Int64.minValue.toInt ≤ n ∧ n ≤ Int64.maxValue.toInt then pure n else failure

/-! ### Numbers with a fraction -/

/-- The least number that is as near to 2 ^ 1024 as to the greatest double. -/
def tooGreat : Nat := 1 <<< 1024 - 1 <<< 970

/-- Whether m · 10 ^ e rounds to infinity. The magnitude decides unless it is close. -/
def overflows (m : Nat) (e : Int) : Bool :=
  let magnitude : Int := (toString m).length + e
  if m = 0 || magnitude < 309 then false
  else if 310 < magnitude then true
  else if 0 ≤ e then tooGreat ≤ m * Nat.pow 10 e.toNat
  else tooGreat * Nat.pow 10 (-e).toNat ≤ m

def fraction : Reader (List Char) := Reader.char '.' *> digits isDigit

def exponent : Reader Int := do
  let _ ← Reader.satisfy fun c => c == 'e' || c == 'E'
  let negative ← minus
  let n := valueOf 10 (← digits isDigit)
  return if negative then -n else n

/-- A number with a fraction, an exponent or both. Its value may be minus infinity but not plus
infinity, unless that is written as such. -/
def real : Reader Unit := do
  let negative ← minus
  let special := Reader.word "inf" <|> Reader.word "nan"
  let finite : Reader Unit := do
    let n ← whole
    let f ← Reader.maybe fraction
    let e ← Reader.maybe exponent
    if f.isNone && e.isNone then failure
    let places := (f.getD []).length
    if !negative && overflows (valueOf 10 (n ++ f.getD [])) (e.getD 0 - places) then failure
  special <|> finite

/-! ### Dates and times -/

/-- A number of so many digits between two bounds. -/
def field (width low high : Nat) : Reader Nat := do
  let n := valueOf 10 (← (List.replicate width ()).mapM fun _ => Reader.satisfy isDigit)
  if low ≤ n ∧ n ≤ high then pure n else failure

def isLeap (year : Nat) : Bool := year % 4 == 0 && (year % 100 != 0 || year % 400 == 0)

def daysOf (year month : Nat) : Nat :=
  if month = 2 then if isLeap year then 29 else 28
  else if month = 4 ∨ month = 6 ∨ month = 9 ∨ month = 11 then 30
  else 31

def date : Reader Unit := do
  let year ← field 4 0 9999
  Reader.char '-'
  let month ← field 2 1 12
  Reader.char '-'
  let _ ← field 2 1 (daysOf year month)

/-- A time of day, which may fall into a leap second. -/
def time : Reader Unit := do
  let _ ← field 2 0 23
  Reader.char ':'
  let _ ← field 2 0 59
  Reader.char ':'
  let _ ← field 2 0 60
  let _ ← Reader.maybe (Reader.char '.' *> Reader.span1 isDigit)

def offset : Reader Unit := do
  match ← Reader.next with
  | 'Z' | 'z' => pure ()
  | '+' | '-' =>
    let _ ← field 2 0 23
    Reader.char ':'
    let _ ← field 2 0 59
  | _ => failure

def moment : Reader Unit := do
  let onDate : Reader Unit := do
    date
    let _ ← Reader.maybe do
      let _ ← Reader.satisfy fun c => c == 'T' || c == 't' || c == ' '
      time
      let _ ← Reader.maybe offset
  onDate <|> time

end Number

/-- A number, date or time. The forms that begin with others are tried first. -/
def number : Reader Value :=
  (Number.moment *> pure .other) <|> (Number.real *> pure .other) <|>
    (Value.integer <$> Number.integer)

end AccessTree.Toml
