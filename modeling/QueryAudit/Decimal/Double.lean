/-
  QueryAudit.Decimal.Double — numbers of double precision

  A double is a sign and a whole number times a power of two, or infinite. Decimal numbers are
  rounded to the nearest double in exact arithmetic, a tie going to the even neighbour.
-/

import QueryAudit.Text.Digit

namespace QueryAudit.Decimal

open Text

/-! ## Doubles. -/

def twoTo (n : Nat) : Nat := Nat.pow 2 n

def tenTo (n : Nat) : Nat := Nat.pow 10 n

/-- A whole number times a power of two. -/
structure Dyadic where
  mantissa : Nat
  exponent : Int
  deriving DecidableEq, Repr

inductive Magnitude where
  | finite (value : Dyadic)
  | infinite
  deriving DecidableEq, Repr

/-- A double: a size and a sign, which zero has too. -/
structure Double where
  negative : Bool
  magnitude : Magnitude
  deriving DecidableEq, Repr

def leastExponent : Int := -1074

def greatestExponent : Int := 971

def mantissaBound : Nat := twoTo 53

def Dyadic.zero : Dyadic := ⟨0, leastExponent⟩

def Double.zero : Double := ⟨false, .finite .zero⟩

def Dyadic.fraction (v : Dyadic) : Nat × Nat :=
  if 0 ≤ v.exponent then (v.mantissa * twoTo v.exponent.toNat, 1)
  else (v.mantissa, twoTo (-v.exponent).toNat)

def Dyadic.floor (v : Dyadic) : Nat :=
  let (n, d) := v.fraction
  n / d

def Double.truncate? (x : Double) : Option Int :=
  match x.magnitude with
  | .infinite => none
  | .finite v => some (if x.negative then -(v.floor : Int) else v.floor)

/-! ## Rounding. -/

/-- A quotient rounded to the nearest whole number, a tie going to the even one. -/
def roundDiv (n d : Nat) : Nat :=
  let q := n / d
  let r := n % d
  if 2 * r < d then q
  else if d < 2 * r then q + 1
  else if q % 2 = 0 then q else q + 1

def shiftDown (n d : Nat) (exponent : Int) : Nat × Nat :=
  if 0 ≤ exponent then (n, d * twoTo exponent.toNat) else (n * twoTo (-exponent).toNat, d)

/-- The exponent that gives a positive fraction a mantissa of full length, or the least one. -/
def mantissaExponent (n d : Nat) : Int :=
  let guess : Int := (n.log2 : Int) - d.log2 - 52
  let (a, b) := shiftDown n d guess
  let full := if a / b < twoTo 52 then guess - 1 else guess
  max full leastExponent

def nearest (n d : Nat) : Magnitude :=
  if n = 0 then .finite .zero
  else
    let exponent := mantissaExponent n d
    let (a, b) := shiftDown n d exponent
    let mantissa := roundDiv a b
    let v : Dyadic := if mantissa = mantissaBound then ⟨mantissaBound / 2, exponent + 1⟩
      else ⟨mantissa, exponent⟩
    if v.exponent > greatestExponent then .infinite else .finite v

def digitCount (n : Nat) : Nat := (Nat.toDigits 10 n).length

/-- The double nearest to digits times a power of ten. Powers far outside the range of doubles are
not computed. -/
def nearestDecimal (digits : Nat) (exponent : Int) : Magnitude :=
  if digits = 0 then .finite .zero
  else
    let size := (digitCount digits : Int) + exponent
    if size > 400 then .infinite
    else if size < -400 then .finite .zero
    else if 0 ≤ exponent then nearest (digits * tenTo exponent.toNat) 1
    else nearest digits (tenTo (-exponent).toNat)

/-! ## Reading. -/

/-- Digits and a power of ten with a sign, as written. -/
structure Written where
  negative : Bool
  digits : Nat
  exponent : Int
  deriving DecidableEq, Repr

def Written.toDouble (w : Written) : Double := ⟨w.negative, nearestDecimal w.digits w.exponent⟩

def takeDecimals (cs : List Char) : List Char × List Char :=
  (cs.takeWhile isDecimal, cs.dropWhile isDecimal)

/-- A sign, if there is one: whether it is a minus, and what follows it. -/
def takeSign : List Char → Bool × List Char
  | '-' :: rest => (true, rest)
  | '+' :: rest => (false, rest)
  | cs => (false, cs)

/-- The value of an exponent at the start and what follows it; zero when there is none. -/
def takeExponent (cs : List Char) : Int × List Char :=
  match cs with
  | e :: rest =>
    if e = 'e' || e = 'E' then
      let (negative, rest) := takeSign rest
      let (digits, rest) := takeDecimals rest
      if digits.isEmpty then (0, cs)
      else
        let n : Int := decimalNumber digits
        (if negative then -n else n, rest)
    else (0, cs)
  | [] => (0, [])

/-- The number at the start of a text, after white space, and what follows it. -/
def takeNumber? (cs : List Char) : Option (Written × List Char) :=
  let (negative, cs) := takeSign (cs.dropWhile isBlank)
  let (whole, rest) := takeDecimals cs
  let (part, rest) := match rest with
    | '.' :: after => if whole.isEmpty && !(after.head?.map isDecimal).getD false then ([], rest)
        else takeDecimals after
    | _ => ([], rest)
  if whole.isEmpty && part.isEmpty then none
  else
    let (power, rest) := takeExponent rest
    some (⟨negative, decimalNumber (whole ++ part), power - part.length⟩, rest)

/-- The number at the start of a text as a double; zero when there is none. -/
def leadingDouble (text : String) : Double :=
  match takeNumber? text.toList with
  | some (w, _) => w.toDouble
  | none => .zero

end QueryAudit.Decimal
