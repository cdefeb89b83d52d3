/-
  QueryAudit.Intrinsic.Format — printing by a format

  A format is literal text with directives in it. A directive takes the next value or a value by
  its number, converts it and pads it to a width. The format is cut into pieces first and then
  filled in, so values are never read as formats.
-/

import QueryAudit.Intrinsic.Basic

namespace QueryAudit.Intrinsic

open Text Decimal

/-! ## Directives. -/

/-- A directive with its numbers as they are written; they are read when they are needed. -/
structure Directive where
  /-- The number of the value to print, counted from one; the next value when there is none. -/
  position : List Char := []
  flags : List Char := []
  width : List Char := []
  precision : List Char := []
  conversion : Char
  deriving DecidableEq, Repr

inductive Piece where
  | literal (c : Char)
  | directive (d : Directive)
  deriving DecidableEq, Repr

def conversions : List Char :=
  ['b', 'c', 'd', 'e', 'E', 'f', 'F', 'g', 'G', 'o', 's', 'u', 'x', 'X', '%']

/-- Flags at the start: sign, alignment and zero characters, and quotes with a fill character. -/
def takeFlags : List Char → List Char
  | '\'' :: c :: rest => if c = '\n' then [] else '\'' :: c :: takeFlags rest
  | c :: rest => if ['-', '+', ' ', '0'].contains c then c :: takeFlags rest else []
  | [] => []

/-- The directive after a percent sign and how many characters it takes. -/
def directive? (cs : List Char) : Option (Directive × Nat) :=
  let numbered := cs.takeWhile isDecimal
  let isNumbered := !numbered.isEmpty && (cs.drop numbered.length).head? = some '$'
  let start := if isNumbered then numbered.length + 1 else 0
  let flags := takeFlags (cs.drop start)
  let afterFlags := start + flags.length
  let width := (cs.drop afterFlags).takeWhile isDecimal
  let afterWidth := afterFlags + width.length
  let places := match cs.drop afterWidth with
    | '.' :: rest => rest.takeWhile isDecimal
    | _ => []
  let afterPlaces := if places.isEmpty then afterWidth else afterWidth + 1 + places.length
  match cs.drop afterPlaces with
  | c :: _ =>
    if conversions.contains c then
      some ({ position := if isNumbered then numbered else []
              flags, width, precision := places, conversion := c }, afterPlaces + 1)
    else none
  | [] => none

def pieces : List Char → List Piece
  | [] => []
  | c :: cs =>
    if c = '%' then
      match directive? cs with
      | some (d, n) => .directive d :: pieces (cs.drop n)
      | none => .literal c :: pieces cs
    else .literal c :: pieces cs
termination_by cs => cs.length
decreasing_by all_goals simp only [List.length_drop, List.length_cons]; omega

/-! ## Conversion. -/

def precisionLimit : Nat := twoTo 31 - 1

def widthLimit : Nat := twoTo 63 - 1

def digitLimit : Nat := 4300

/-- The number that digits stand for. Only so many digits are read. -/
def readDigits (digits : List Char) : Except Fault Nat :=
  if digits.length > digitLimit then .error .digits else .ok (decimalNumber digits)

def doubleDirective (value : String) (layout : Layout) (precision : List Char) :
    Except Fault String := do
  let precision ← if precision.isEmpty then pure 6 else readDigits precision
  if precision > precisionLimit then .error .precision
  else .ok ((leadingDouble value).format layout precision)

def convert (value : String) (d : Directive) : Except Fault String :=
  match d.conversion with
  | 'd' | 'u' =>
    let n := intval value
    .ok (if d.flags.contains '+' && 0 ≤ n then "+" ++ toString n else toString n)
  | 'f' | 'F' => doubleDirective value .fixed d.precision
  | 'e' => doubleDirective value .scientific d.precision
  | 'E' => (doubleDirective value .scientific d.precision).map upper
  | 'g' => doubleDirective value .general d.precision
  | 'G' => (doubleDirective value .general d.precision).map upper
  | 'x' => .ok (inBase 16 (intval value))
  | 'X' => .ok (upper (inBase 16 (intval value)))
  | 'o' => .ok (inBase 8 (intval value))
  | 'b' => .ok (inBase 2 (intval value))
  | 'c' => .ok (String.singleton (Char.ofNat (intval value % 256).toNat))
  | _ =>
    if d.precision.isEmpty then .ok value
    else do return String.ofList (value.toList.take (← readDigits d.precision))

def fillOf (flags : List Char) : Char :=
  match flags.dropWhile (· ≠ '\'') with
  | _ :: c :: _ => c
  | _ => if flags.contains '0' then '0' else ' '

/-- A converted value padded to the width of a directive. Zeros never stand on the right. -/
def pad (text : String) (d : Directive) : Except Fault String :=
  if d.width.isEmpty then .ok text
  else do
    let width ← readDigits d.width
    let fill := fillOf d.flags
    if width > widthLimit then .error .overflow
    else if d.flags.contains '-' then .ok (padRight (if fill = '0' then ' ' else fill) width text)
    else .ok (padLeft fill width text)

/-! ## Filling in. -/

/-- The value of a number, counted from one. -/
def valueNumbered (values : List String) (number : Nat) : Except Fault String :=
  (if number = 0 then none else values[number - 1]?).elim (.error (.rejected .tooFewValues)) .ok

/-- The value a directive prints, given how many values were taken in turn. -/
def valueFor (values : List String) (taken : Nat) (d : Directive) : Except Fault String :=
  if d.position.isEmpty then valueNumbered values (taken + 1)
  else do valueNumbered values (← readDigits d.position)

/-- Fill the pieces of a format with values, given how many were taken in turn. -/
def fill (values : List String) : Nat → List Piece → Except Fault String
  | _, [] => .ok ""
  | taken, .literal c :: rest => do return String.singleton c ++ (← fill values taken rest)
  | taken, .directive d :: rest =>
    if d.conversion = '%' then do return "%" ++ (← fill values taken rest)
    else do
      let text ← pad (← convert (← valueFor values taken d) d) d
      return text ++ (← fill values (if d.position.isEmpty then taken + 1 else taken) rest)

def sprintf (format : String) (values : List String) : Except Fault String :=
  fill values 0 (pieces format.toList)

end QueryAudit.Intrinsic
