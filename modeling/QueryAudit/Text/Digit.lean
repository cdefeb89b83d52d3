/-
  QueryAudit.Text.Digit — digits and whole numbers

  Decimal digits of every script with their values, and the reading of whole numbers in a base:
  white space at the ends, a sign, a base mark and single underscores between digits are allowed.
-/

import QueryAudit.Text.Blank

namespace QueryAudit.Text

/-! ## Digit classes. -/

/-- The zeros of every script, each followed by the other digits. -/
def decimalZeros : List Nat :=
  [48, 1632, 1776, 1984, 2406, 2534, 2662, 2790, 2918, 3046, 3174, 3302, 3430, 3558, 3664, 3792,
   3872, 4160, 4240, 6112, 6160, 6470, 6608, 6784, 6800, 6992, 7088, 7232, 7248, 42528, 43216,
   43264, 43472, 43504, 43600, 44016, 65296, 66720, 68912, 69734, 69872, 69942, 70096, 70384, 70736,
   70864, 71248, 71360, 71472, 71904, 72016, 72784, 73040, 73120, 92768, 92864, 93008, 120782,
   120792, 120802, 120812, 120822, 123200, 123632, 125264, 130032]

/-- Digits that are no decimal digits: raised, lowered, circled and the like. -/
def otherDigitRanges : List (Nat × Nat) := stretches 0
  [178, 2, 5, 1, 4783, 9, 1640, 1, 1685, 1, 3, 6, 6, 10, 982, 9, 11, 9, 11, 9, 89, 1, 10, 9, 1, 1,
   630, 9, 1, 9, 1, 9, 58029, 4, 1052, 9, 489, 9, 57509, 11]

def decimalValue? (c : Char) : Option Nat :=
  (decimalZeros.find? fun first => first ≤ c.toNat && c.toNat ≤ first + 9).map (c.toNat - ·)

def isDecimal (c : Char) : Bool := (decimalValue? c).isSome

def isDigit (c : Char) : Bool := isDecimal c || inRanges otherDigitRanges c.toNat

def digitValue? (c : Char) : Option Nat :=
  if 'a' ≤ c && c ≤ 'f' then some (c.toNat - 'a'.toNat + 10)
  else if 'A' ≤ c && c ≤ 'F' then some (c.toNat - 'A'.toNat + 10)
  else decimalValue? c

/-! ## Whole numbers. -/

/-- The number written by decimal digits, other characters counting as zero. -/
def decimalNumber (cs : List Char) : Nat :=
  cs.foldl (fun n c => n * 10 + (decimalValue? c).getD 0) 0

/-- Digits in a base, with single underscores between them. The flag says that the character
before was a digit. -/
def digitsFrom (base : Nat) : Nat → Bool → List Char → Option Nat
  | n, afterDigit, [] => if afterDigit then some n else none
  | n, afterDigit, c :: rest =>
    if c = '_' then if afterDigit then digitsFrom base n false rest else none
    else match digitValue? c with
      | some d => if d < base then digitsFrom base (n * base + d) true rest else none
      | none => none

/-- The text after a base mark such as `0x`, when the base has one and the text starts with it. -/
def dropBaseMark (base : Nat) (cs : List Char) : List Char :=
  match base, cs with
  | 16, '0' :: 'x' :: rest | 16, '0' :: 'X' :: rest
  | 8, '0' :: 'o' :: rest | 8, '0' :: 'O' :: rest
  | 2, '0' :: 'b' :: rest | 2, '0' :: 'B' :: rest =>
    match rest with
    | '_' :: digits => digits
    | digits => digits
  | _, cs => cs

def readInt? (base : Nat) (text : String) : Option Int :=
  match trimList isBlank text.toList with
  | '-' :: cs => (digitsFrom base 0 false (dropBaseMark base cs)).map fun n => -(n : Int)
  | '+' :: cs => (digitsFrom base 0 false (dropBaseMark base cs)).map Int.ofNat
  | cs => (digitsFrom base 0 false (dropBaseMark base cs)).map Int.ofNat

end QueryAudit.Text
