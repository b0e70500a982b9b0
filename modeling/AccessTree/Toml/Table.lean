/-!
The tables of a TOML document and the rules by which they grow. A table is defined once: which
later lines may still add to it depends on how it came about.
-/

namespace AccessTree.Toml

/-- How a table came about. -/
inductive Kind where
  /-- By a header of its own, or as the document. -/
  | header
  /-- On the way to the table of another header. -/
  | implied
  /-- On the way to a dotted key. -/
  | dotted
  /-- As a value, which is complete as it stands. -/
  | inline
  deriving DecidableEq

inductive Value where
  | integer (n : Int)
  | text (s : String)
  | bool (b : Bool)
  /-- A number with a fraction, or a date or time. -/
  | other
  | array (items : List Value)
  | table (kind : Kind) (entries : List (String × Value))
  /-- The tables of one name whose headers have double brackets. -/
  | tables (elements : List (List (String × Value)))

/-- A whole number below a bound. -/
def Value.natBelow? (bound : Nat) : Value → Option Nat
  | integer n => if 0 ≤ n ∧ n < bound then some n.toNat else none
  | _ => none

def Value.bool? : Value → Option Bool
  | bool b => some b
  | _ => none

abbrev Entries := List (String × Value)

namespace Entries

def set (es : Entries) (key : String) (v : Value) : Entries :=
  es.map fun e => if e.1 == key then (key, v) else e

def drop (es : Entries) (key : String) : Entries := es.filter (·.1 != key)

/-- Changes the table at the end of a path, making the tables on the way that are missing. The
path of a header goes on in the last table of several; that of a dotted key may not pass through
a table that has a header. -/
def change (dotted : Bool) (f : Kind → Entries → Option Entries) :
    List String → Kind → Entries → Option Entries
  | [], kind, es => f kind es
  | key :: path, _, es =>
    match es.lookup key with
    | none => do
      let kind := if dotted then .dotted else .implied
      return es ++ [(key, .table kind (← change dotted f path kind []))]
    | some (.table kind inner) =>
      if kind = .inline ∨ dotted ∧ kind = .header then none
      else do return es.set key (.table kind (← change dotted f path kind inner))
    | some (.tables elements) => do
      let last ← elements.getLast?
      return es.set key (.tables (elements.dropLast ++ [← change dotted f path .header last]))
    | some _ => none

/-- Adds a key that is not there yet, at the end of a dotted path. -/
def add (path : List String) (key : String) (v : Value) (kind : Kind) (es : Entries) :
    Option Entries :=
  change true (fun kind es =>
    if (kind == .dotted) == path.isEmpty || (es.lookup key).isSome then none
    else some (es ++ [(key, v)])) path kind es

/-- Opens the table of a header: a new one, or one that other headers have implied. -/
def openTable (path : List String) (key : String) : Entries → Option Entries :=
  change false (fun _ es =>
    match es.lookup key with
    | none => some (es ++ [(key, .table .header [])])
    | some (.table .implied inner) => some (es.drop key ++ [(key, .table .header inner)])
    | some _ => none) path .header

/-- Opens one more of the tables of a name. -/
def openElement (path : List String) (key : String) : Entries → Option Entries :=
  change false (fun _ es =>
    match es.lookup key with
    | none => some (es ++ [(key, .tables [[]])])
    | some (.tables elements) => some (es.set key (.tables (elements ++ [[]])))
    | some _ => none) path .header

end Entries

end AccessTree.Toml
