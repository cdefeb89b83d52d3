/-
  QueryAudit.Intrinsic.Call — built-in functions

  The functions of PHP that are applied to known texts: case, trimming, replacement, joining,
  printing by a format, dates of a fixed moment, numbers, counting and quoting.
-/

import QueryAudit.Intrinsic.Format

namespace QueryAudit.Intrinsic

open Text Decimal

/-! ## Texts. -/

def trimmedByDefault : List Char := [' ', '\t', '\n', '\r', '\x00', '\x0b']

/-- Trim a text of given or usual characters, at the ends that `cut` works on. -/
def trimWith (cut : (Char → Bool) → String → String) (first : Argument) (rest : List Argument) :
    Except Fault String := do
  let drop ← match rest with
    | [] => pure trimmedByDefault
    | chars :: _ => do pure (← chars.scalar "trim").toList
  return cut drop.contains (← first.scalar "trim")

def changeFirst (change : String → String) (text : String) : String :=
  change (String.ofList (text.toList.take 1)) ++ String.ofList (text.toList.drop 1)

/-- A text with a backslash before quotes and backslashes, and a zero for the null character. -/
def addSlashes (text : String) : String :=
  String.ofList (text.toList.flatMap fun c =>
    if c = '\x00' then ['\\', '0']
    else if c = '\'' || c = '"' || c = '\\' then ['\\', c]
    else [c])

def replaceEach : List (String × String) → String → String
  | [], subject => subject
  | (needle, replacement) :: rest, subject =>
    replaceEach rest (replaceAll needle replacement subject)

/-- Replace one or several texts in a subject. Missing replacements are empty. -/
def strReplace : List Argument → Except Fault String
  | search :: replacement :: subject :: _ => do
    let subject ← subject.scalar "str_replace"
    let searches := match search with
      | .list items => items
      | .text one => [one]
    let replacements := match replacement with
      | .list items => items ++ List.replicate (searches.length - items.length) ""
      | .text one => List.replicate searches.length one
    return replaceEach (searches.zip replacements) subject
  | _ => .error (.rejected .replaceArity)

/-- Join texts with glue between them; glue and array may come in either order. -/
def implode : List Argument → Except Fault String
  | [.list items] => .ok (joinWith "" items)
  | .list items :: glue :: _ => do return joinWith (← glue.scalar "implode") items
  | .text glue :: .list items :: _ => .ok (joinWith glue items)
  | _ => .error (.rejected .notAnArray)

/-! ## Dates. -/

/-- What the letters of a date format stand for on the first of January 2000, a Saturday, at
midnight. -/
def dateField? : Char → Option String
  | 'd' | 'm' => some "01"
  | 'D' => some "Sat"
  | 'j' | 'n' | 'L' => some "1"
  | 'l' => some "Saturday"
  | 'N' | 'w' => some "6"
  | 'z' | 'G' | 'Z' => some "0"
  | 'W' => some "52"
  | 'F' => some "January"
  | 'M' => some "Jan"
  | 't' => some "31"
  | 'Y' => some "2000"
  | 'y' | 'H' | 'i' | 's' => some "00"
  | 'a' => some "am"
  | 'A' => some "AM"
  | 'g' | 'h' => some "12"
  | 'u' => some "000000"
  | 'v' => some "000"
  | 'e' | 'T' => some "UTC"
  | 'P' => some "+00:00"
  | 'O' => some "+0000"
  | 'U' => some "946684800"
  | _ => none

/-- A date by a format. A backslash makes the next character stand for itself. -/
def dateFrom : List Char → String
  | [] => ""
  | ['\\'] => ""
  | '\\' :: c :: rest => String.singleton c ++ dateFrom rest
  | c :: rest => (dateField? c).getD (String.singleton c) ++ dateFrom rest

def date (format : String) : String := dateFrom format.toList

/-! ## Calls. -/

/-- A function on a first argument and further ones. -/
abbrev Function := Argument → List Argument → Except Fault String

def function? : String → Option Function
  | "strtolower" => some fun first _ => do return lower (← first.scalar "strtolower")
  | "strtoupper" => some fun first _ => do return upper (← first.scalar "strtoupper")
  | "ucfirst" => some fun first _ => do return changeFirst upper (← first.scalar "ucfirst")
  | "lcfirst" => some fun first _ => do return changeFirst lower (← first.scalar "lcfirst")
  | "trim" => some (trimWith trimBoth)
  | "ltrim" => some (trimWith trimStart)
  | "rtrim" => some (trimWith trimEnd)
  | "str_replace" => some fun first rest => strReplace (first :: rest)
  | "sprintf" => some fun first rest => do
      sprintf (← first.scalar "sprintf") (← rest.mapM (·.scalar "sprintf"))
  | "implode" | "join" => some fun first rest => implode (first :: rest)
  | "date" => some fun first _ => do return date (← first.scalar "date")
  | "intval" => some fun first _ => do return toString (intval (← first.scalar "intval"))
  | "floatval" => some fun first _ => do doubleText (leadingDouble (← first.scalar "floatval"))
  | "count" => some fun first _ => .ok (match first with
      | .list items => toString items.length
      | .text _ => "1")
  | "addslashes" => some fun first _ => do return addSlashes (← first.scalar "addslashes")
  | _ => none

def isKnown (name : String) : Bool := (function? (lower name)).isSome

/-- The functions that may stand in the literal value of an accessor. -/
def literalFunctions : List String :=
  ["strtolower", "strtoupper", "trim", "ltrim", "rtrim", "ucfirst", "lcfirst", "str_replace",
   "sprintf", "implode"]

def call (name : String) (args : List Argument) : Except Fault String :=
  match function? (lower name), args with
  | none, _ => .error (.rejected (.unknown name))
  | some _, [] => .error (.rejected (.noArguments name))
  | some f, first :: rest => f first rest

end QueryAudit.Intrinsic
