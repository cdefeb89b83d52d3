/-
  QueryAudit.Json — JSON text

  Values with ordered members, their layout over several lines in ASCII, and the reader back.
-/

import QueryAudit.Text.Digit

namespace QueryAudit

open Text

/-- A JSON value. Members of an object keep their order. -/
inductive Json where
  | null
  | bool (b : Bool)
  | number (n : Int)
  | decimal (spelling : String)
  | text (s : String)
  | list (items : List Json)
  | object (members : List (String × Json))
  deriving Repr, Inhabited

namespace Json

/-! ## Writing. -/

def hexQuad (n : Nat) : String := padLeft '0' 4 (String.ofList (Nat.toDigits 16 n))

/-- A character inside quotes. Beyond ASCII it is written by its code units. -/
def escapeChar (c : Char) : String :=
  if c = '"' then "\\\""
  else if c = '\\' then "\\\\"
  else if c = '\n' then "\\n"
  else if c = '\r' then "\\r"
  else if c = '\t' then "\\t"
  else if c = '\x08' then "\\b"
  else if c = '\x0c' then "\\f"
  else if c.toNat < 32 || (127 ≤ c.toNat && c.toNat < 0x10000) then "\\u" ++ hexQuad c.toNat
  else if c.toNat < 127 then String.singleton c
  else
    let n := c.toNat - 0x10000
    "\\u" ++ hexQuad (0xD800 + n / 1024) ++ "\\u" ++ hexQuad (0xDC00 + n % 1024)

def quote (s : String) : String := "\"" ++ String.join (s.toList.map escapeChar) ++ "\""

def indentation (depth : Nat) : String := "\n" ++ String.ofList (List.replicate (2 * depth) ' ')

mutual

/-- A value over several lines, its inner lines indented from a depth on. -/
def layout (depth : Nat) : Json → String
  | .null => "null"
  | .bool b => if b then "true" else "false"
  | .number n => toString n
  | .decimal spelling => spelling
  | .text s => quote s
  | .list [] => "[]"
  | .list (item :: rest) =>
    "[" ++ layoutItems (depth + 1) true (item :: rest) ++ indentation depth ++ "]"
  | .object [] => "\x7b\x7d"
  | .object (member :: rest) =>
    "\x7b" ++ layoutMembers (depth + 1) true (member :: rest) ++ indentation depth ++ "\x7d"

def layoutItems (depth : Nat) (first : Bool) : List Json → String
  | [] => ""
  | item :: rest =>
    (if first then "" else ",") ++ indentation depth ++ layout depth item ++
      layoutItems depth false rest

def layoutMembers (depth : Nat) (first : Bool) : List (String × Json) → String
  | [] => ""
  | (name, value) :: rest =>
    (if first then "" else ",") ++ indentation depth ++ quote name ++ ": " ++ layout depth value ++
      layoutMembers depth false rest

end

def pretty (value : Json) : String := value.layout 0

/-! ## Reading. -/

def skipBlanks (cs : List Char) : List Char :=
  cs.dropWhile fun c => c = ' ' || c = '\t' || c = '\n' || c = '\r'

def hexDigit? (c : Char) : Option Nat :=
  if c.isDigit then some (c.toNat - 48)
  else if 'a' ≤ c.toLower && c.toLower ≤ 'f' then some (c.toLower.toNat - 87)
  else none

def hexQuad? (a b c d : Char) : Option Nat := do
  return (((← hexDigit? a) * 16 + (← hexDigit? b)) * 16 + (← hexDigit? c)) * 16 + (← hexDigit? d)

/-- The character that stands for half of a pair without the other half. -/
def lone (high : Option Nat) : List Char := if high.isSome then ['\uFFFD'] else []

/-- What a code unit adds to a text after the first half of a pair or without one: the characters
that are complete, and the first half that still waits. -/
def addUnit (high : Option Nat) (unit : Nat) : List Char × Option Nat :=
  if 0xD800 ≤ unit && unit < 0xDC00 then (lone high, some unit)
  else if 0xDC00 ≤ unit && unit < 0xE000 then
    match high with
    | some h => ([Char.ofNat (0x10000 + (h - 0xD800) * 1024 + (unit - 0xDC00))], none)
    | none => (['\uFFFD'], none)
  else (lone high ++ [Char.ofNat unit], none)

def escaped? (c : Char) : Option Char :=
  if ['"', '\\', '/'].contains c then some c
  else if c = 'b' then some '\x08'
  else if c = 'f' then some '\x0c'
  else if c = 'n' then some '\n'
  else if c = 'r' then some '\r'
  else if c = 't' then some '\t'
  else none

/-- A text in quotes after its opening quote, and the rest. The first half of a pair of code units
may be waiting for the second. -/
def textFrom? : Option Nat → List Char → Option (List Char × List Char)
  | _, [] => none
  | high, '"' :: rest => some (lone high, rest)
  | high, '\\' :: 'u' :: a :: b :: c :: d :: rest => do
    let (done, waiting) := addUnit high (← hexQuad? a b c d)
    let (others, rest) ← textFrom? waiting rest
    return (done ++ others, rest)
  | high, '\\' :: c :: rest => do
    let c ← escaped? c
    let (others, rest) ← textFrom? none rest
    return (lone high ++ c :: others, rest)
  | high, c :: rest =>
    if c.toNat < 32 then none
    else do
      let (others, rest) ← textFrom? none rest
      return (lone high ++ c :: others, rest)

def afterExponent (cs : List Char) : List Char :=
  match cs with
  | e :: rest =>
    if e = 'e' || e = 'E' then
      let digits := match rest with
        | '+' :: more | '-' :: more => more
        | _ => rest
      if (digits.head?.map Char.isDigit).getD false then digits.dropWhile Char.isDigit else cs
    else cs
  | [] => []

def afterNumber? (cs : List Char) : Option (List Char) :=
  let cs := if cs.head? = some '-' then cs.tail else cs
  let whole := match cs with
    | '0' :: rest => some rest
    | c :: _ => if c.isDigit then some (cs.dropWhile Char.isDigit) else none
    | [] => none
  whole.map fun rest =>
    match rest with
    | '.' :: d :: more => if d.isDigit then afterExponent (more.dropWhile Char.isDigit) else rest
    | _ => afterExponent rest

def digitsValue (cs : List Char) : Nat := cs.foldl (fun n c => 10 * n + (c.toNat - 48)) 0

/-- A number and the rest; one that is not whole is kept as written. -/
def numberFrom? (cs : List Char) : Option (Json × List Char) :=
  (afterNumber? cs).map fun rest =>
    let spelling := cs.take (cs.length - rest.length)
    let digits := if spelling.head? = some '-' then spelling.tail else spelling
    if digits.all Char.isDigit then
      let n : Int := digitsValue digits
      (.number (if spelling.head? = some '-' then -n else n), rest)
    else (.decimal (String.ofList spelling), rest)

def wordValues : List (String × Json) :=
  [("null", .null), ("true", .bool true), ("false", .bool false), ("NaN", .decimal "NaN"),
   ("Infinity", .decimal "Infinity"), ("-Infinity", .decimal "-Infinity")]

def wordFrom? (cs : List Char) : Option (Json × List Char) :=
  wordValues.findSome? fun (word, value) => (after? word.toList cs).map fun rest => (value, rest)

/-- A member added to those before it; a name that is there already gets the new value. -/
def addMember (members : List (String × Json)) (name : String) (value : Json) :
    List (String × Json) :=
  if members.any (·.1 = name) then
    members.map fun (n, v) => if n = name then (n, value) else (n, v)
  else members ++ [(name, value)]

mutual

/-- A value and the rest. The count bounds the depth and the number of items. -/
def valueFrom? : Nat → List Char → Option (Json × List Char)
  | 0, _ => none
  | n + 1, cs =>
    match cs with
    | '"' :: rest => (textFrom? none rest).map fun (cs, rest) => (.text (String.ofList cs), rest)
    | '\x7b' :: rest =>
      match skipBlanks rest with
      | '\x7d' :: more => some (.object [], more)
      | more => membersFrom? n [] more
    | '[' :: rest =>
      match skipBlanks rest with
      | ']' :: more => some (.list [], more)
      | more => itemsFrom? n [] more
    | _ =>
      match wordFrom? cs with
      | some found => some found
      | none => numberFrom? cs

/-- The items of a list behind those found, last one first, and the rest. -/
def itemsFrom? : Nat → List Json → List Char → Option (Json × List Char)
  | 0, _, _ => none
  | n + 1, found, cs => do
    let (value, rest) ← valueFrom? n cs
    match skipBlanks rest with
    | ',' :: more => itemsFrom? n (value :: found) (skipBlanks more)
    | ']' :: more => some (.list (value :: found).reverse, more)
    | _ => none

def membersFrom? : Nat → List (String × Json) → List Char → Option (Json × List Char)
  | 0, _, _ => none
  | n + 1, found, cs =>
    match cs with
    | '"' :: rest => do
      let (name, rest) ← textFrom? none rest
      match skipBlanks rest with
      | ':' :: more => do
        let (value, rest) ← valueFrom? n (skipBlanks more)
        let found := addMember found (String.ofList name) value
        match skipBlanks rest with
        | ',' :: more => membersFrom? n found (skipBlanks more)
        | '\x7d' :: more => some (.object found, more)
        | _ => none
      | _ => none
    | _ => none

end

def read? (text : String) : Option Json :=
  let cs := skipBlanks text.toList
  match valueFrom? (2 * cs.length + 2) cs with
  | some (value, rest) => if (skipBlanks rest).isEmpty then some value else none
  | none => none

def member? (name : String) : Json → Option Json
  | .object members => (members.find? (·.1 = name)).map (·.2)
  | _ => none

end Json

end QueryAudit
