/-
  QueryAudit.Decimal.Print — doubles as decimal text

  Four layouts of a double: the fewest digits that read back as the same double, a fixed number of
  places, a fixed number of digits with an exponent, and the shorter of the two. Digits are found
  in exact arithmetic.
-/

import QueryAudit.Decimal.Double
import QueryAudit.Text.Case

namespace QueryAudit.Decimal

open Text

/-! ## Digits. -/

/-- Digits with the power of ten of the first one: `digits` is read with a point after its first
digit. -/
structure Digits where
  digits : List Char
  exponent : Int
  deriving DecidableEq, Repr

def leadingPower (n d : Nat) : Int :=
  if d ≤ n then (digitCount (n / d) : Int) - 1 else -(digitCount ((d - 1) / n) : Int)

def scaleTen (n d : Nat) (power : Int) : Nat × Nat :=
  if 0 ≤ power then (n * tenTo power.toNat, d) else (n, d * tenTo (-power).toNat)

def roundedDigits (count n d : Nat) : Digits :=
  let power := leadingPower n d
  let (a, b) := scaleTen n d (count - 1 - power)
  let rounded := roundDiv a b
  if rounded = tenTo count then ⟨Nat.toDigits 10 (tenTo (count - 1)), power + 1⟩
  else ⟨Nat.toDigits 10 rounded, power⟩

def dropZeros (cs : List Char) : List Char :=
  match (cs.reverse.dropWhile (· = '0')).reverse with
  | [] => ['0']
  | kept => kept

/-- Whether a fraction lies in the interval of numbers that round to a double. The ends belong to
it when the mantissa is even. -/
def readsBack (v : Dyadic) (n d : Nat) : Bool :=
  let below := if v.mantissa = mantissaBound / 2 && v.exponent > leastExponent then 1 else 2
  let (low, unit) := Dyadic.fraction ⟨4 * v.mantissa - below, v.exponent - 2⟩
  let (high, _) := Dyadic.fraction ⟨4 * v.mantissa + 2, v.exponent - 2⟩
  if v.mantissa % 2 = 0 then low * d ≤ n * unit && n * unit ≤ high * d
  else low * d < n * unit && n * unit < high * d

/-- The number of a given count of digits that reads back as a double, the nearer one of two. -/
def digitsReadingBack? (v : Dyadic) (count : Nat) : Option Digits :=
  let (n, d) := v.fraction
  let power := leadingPower n d
  let (a, b) := scaleTen n d (count - 1 - power)
  let low := a / b
  let fits (c : Nat) : Bool :=
    let (p, q) := scaleTen c 1 (power - (count - 1))
    readsBack v p q
  let give (c : Nat) : Digits :=
    if c = tenTo count then ⟨['1'], power + 1⟩ else ⟨Nat.toDigits 10 c, power⟩
  if fits low then
    if fits (low + 1) && 2 * (a % b) > b then some (give (low + 1)) else some (give low)
  else if fits (low + 1) then some (give (low + 1))
  else none

/-- The fewest digits that read back as a positive double. Seventeen always do. -/
def shortestDigits (v : Dyadic) : Digits :=
  let (n, d) := v.fraction
  let found := ((List.range' 1 17).findSome? (digitsReadingBack? v)).getD (roundedDigits 17 n d)
  { found with digits := dropZeros found.digits }

/-! ## Layouts. -/

def exponentText (mark : String) (e : Int) : String :=
  mark ++ (if e < 0 then "-" else "+") ++ padLeft '0' 2 (toString e.natAbs)

def pointed : List Char → String
  | [] => ""
  | [c] => String.singleton c
  | c :: rest => String.ofList (c :: '.' :: rest)

def Digits.scientific (x : Digits) (mark : String) : String :=
  pointed x.digits ++ exponentText mark x.exponent

/-- Digits in full, with zeros up to the point where needed. The text has no point when no digit
follows it. -/
def Digits.positional (x : Digits) : String :=
  if x.exponent < 0 then
    "0." ++ String.ofList (List.replicate (-x.exponent - 1).toNat '0' ++ x.digits)
  else
    let whole := x.exponent.toNat + 1
    let filled := x.digits ++ List.replicate (whole - x.digits.length) '0'
    match filled.drop whole with
    | [] => String.ofList filled
    | part => String.ofList (filled.take whole ++ '.' :: part)

def signed (negative : Bool) (text : String) : String := if negative then "-" ++ text else text

/-- The fewest digits that read back: in full from `1e-4` up to below `1e16`, with a fraction part
always, otherwise with an exponent. -/
def Double.shortest (x : Double) : String :=
  signed x.negative <| match x.magnitude with
  | .infinite => "inf"
  | .finite v =>
    if v.mantissa = 0 then "0.0"
    else
      let found := shortestDigits v
      if found.exponent < -4 || found.exponent ≥ 16 then found.scientific "e"
      else
        let text := found.positional
        if text.toList.contains '.' then text else text ++ ".0"

def fixedText (v : Dyadic) (places : Nat) : String :=
  let (n, d) := v.fraction
  let digits := Nat.toDigits 10 (roundDiv (n * tenTo places) d)
  let filled := List.replicate (places + 1 - digits.length) '0' ++ digits
  let whole := filled.length - places
  if places = 0 then String.ofList filled
  else String.ofList (filled.take whole ++ '.' :: filled.drop whole)

def digitsAt (v : Dyadic) (count : Nat) : Digits :=
  if v.mantissa = 0 then ⟨List.replicate count '0', 0⟩
  else
    let (n, d) := v.fraction
    roundedDigits count n d

def generalText (v : Dyadic) (precision : Nat) : String :=
  let count := max precision 1
  let found := digitsAt v count
  let kept : Digits := { found with digits := dropZeros found.digits }
  if found.exponent < -4 || found.exponent ≥ count then kept.scientific "e" else kept.positional

inductive Layout where
  | fixed
  | scientific
  | general
  deriving DecidableEq, Repr

def Double.format (x : Double) (layout : Layout) (precision : Nat) : String :=
  signed x.negative <| match x.magnitude with
  | .infinite => "inf"
  | .finite v => match layout with
    | .fixed => fixedText v precision
    | .scientific => (digitsAt v (precision + 1)).scientific "e"
    | .general => generalText v precision

end QueryAudit.Decimal
