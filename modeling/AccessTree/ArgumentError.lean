/-!
What can be wrong with the arguments of a request.
-/

namespace AccessTree

/-- The part of a rule that a match type belongs to. -/
inductive Criterion where
  | states | attributes | roles | interfaces
  deriving DecidableEq, Repr

def Criterion.label : Criterion → String
  | states => "state"
  | attributes => "attribute"
  | roles => "role"
  | interfaces => "interface"

inductive ArgumentError where
  | unknownStateBit (position : UInt32)
  | unknownRole (code : UInt32)
  | unknownMatchType (c : Criterion) (code : Int32)
  | unknownScope (code : UInt32)
  | negativeCount (count : Int32)
  deriving DecidableEq

def ArgumentError.reason : ArgumentError → String
  | unknownStateBit position => "unknown state bit " ++ toString position.toNat
  | unknownRole code => "unknown role " ++ toString code.toNat
  | unknownMatchType c code =>
    "unknown " ++ c.label ++ " match type " ++ toString code.toInt
  | unknownScope code => "unknown tree traversal " ++ toString code.toNat
  | negativeCount count => "negative result count " ++ toString count.toInt

end AccessTree
