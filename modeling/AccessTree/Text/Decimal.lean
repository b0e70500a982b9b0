/-!
Natural numbers written with ASCII digits, and the reading of machine words from them.
-/

namespace AccessTree.Text

def digit? (c : Char) : Option Nat :=
  if '0' ≤ c ∧ c ≤ '9' then some (c.toNat - '0'.toNat) else none

/-- The number that a run of digits writes after the digits of `n`. -/
def digitsFrom? (n : Nat) : List Char → Option Nat
  | [] => some n
  | c :: cs => (digit? c).bind fun d => digitsFrom? (n * 10 + d) cs

/-- The number that one digit or more write; leading zeros are allowed. -/
def natural? : List Char → Option Nat
  | [] => none
  | c :: cs => digitsFrom? 0 (c :: cs)

/-- A 64-bit word: one digit or more, with at most one plus sign before them, and in range. -/
def word64? (cs : List Char) : Option UInt64 :=
  let digits := match cs with
    | '+' :: rest => rest
    | _ => cs
  (natural? digits).bind fun n => if n < UInt64.size then some (.ofNat n) else none

end AccessTree.Text
