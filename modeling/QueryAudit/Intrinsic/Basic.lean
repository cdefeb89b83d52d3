/-
  QueryAudit.Intrinsic.Basic — arguments and numbers of built-in functions

  Built-in functions of PHP are applied to texts and to arrays of texts. This module has their
  arguments, the ways a call can fail with its message, and how texts are read as numbers.
-/

import QueryAudit.Decimal.Print

namespace QueryAudit.Intrinsic

open Text Decimal

/-! ## Arguments and failures. -/

/-- An argument of a built-in function. -/
inductive Argument where
  | text (value : String)
  | list (items : List String)
  deriving DecidableEq, Repr

/-- Why a built-in function turns its arguments down. -/
inductive Rejection where
  | unknown (name : String)
  | noArguments (name : String)
  | arrayGiven (name : String)
  | tooFewValues
  | replaceArity
  | notAnArray
  deriving DecidableEq, Repr

def Rejection.message : Rejection → String
  | .unknown name => name ++ "() is not emulated"
  | .noArguments name => name ++ "() expects at least 1 argument"
  | .arrayGiven name => name ++ "() expects a string, array given"
  | .tooFewValues => "sprintf(): too few arguments"
  | .replaceArity => "str_replace() expects 3 arguments"
  | .notAnArray => "implode() expects an array"

inductive Fault where
  | rejected (why : Rejection)
  | overflow
  | precision
  | digits
  deriving DecidableEq, Repr

/-- The text of an argument; an array is turned down in the name of a function. -/
def Argument.scalar (name : String) : Argument → Except Fault String
  | .text value => .ok value
  | .list _ => .error (.rejected (.arrayGiven name))

/-! ## Numbers. -/

/-- The whole number at the start of a text; zero when there is none or it is infinite. -/
def intval (text : String) : Int := ((leadingDouble text).truncate?).getD 0

/-- A double as text: without a point when it is whole and below `1e15`. An infinite one has no
whole part to compare with. -/
def doubleText (x : Double) : Except Fault String :=
  match x.magnitude, x.truncate? with
  | .finite v, some n =>
    let (a, b) := v.fraction
    if a % b = 0 && n.natAbs < tenTo 15 then .ok (toString n) else .ok x.shortest
  | _, _ => .error .overflow

/-- A whole number in a base, with a minus sign when it is negative. -/
def inBase (base : Nat) (n : Int) : String :=
  signed (n < 0) (String.ofList (Nat.toDigits base n.natAbs))

end QueryAudit.Intrinsic
