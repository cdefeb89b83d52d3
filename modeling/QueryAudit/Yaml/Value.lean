/-
  QueryAudit.Yaml.Value — values of YAML documents

  Scalars, lists and mappings; which scalar a plain word is; and the text of a value when it stands
  where a text is expected.
-/

import QueryAudit.Decimal.Print

namespace QueryAudit.Yaml

open Text Decimal

/-! ## Values. -/

inductive Value where
  | null
  | bool (b : Bool)
  | int (n : Int)
  | float (x : Double)
  | nan
  | text (s : String)
  | list (items : List Value)
  | mapping (entries : List (Value × Value))
  deriving Repr, Inhabited

/-- Whether two scalars are the same key. Lists and mappings are no keys. -/
def Value.sameKey : Value → Value → Bool
  | .null, .null => true
  | .bool a, .bool b => a = b
  | .int a, .int b => a = b
  | .float a, .float b => a = b
  | .text a, .text b => a = b
  | _, _ => false

/-- Put a value under a key: in place when the key is present, at the end otherwise. -/
def setEntry (key value : Value) : List (Value × Value) → List (Value × Value)
  | [] => [(key, value)]
  | (k, v) :: rest => if k.sameKey key then (k, value) :: rest else (k, v) :: setEntry key value rest

def mappingOf (entries : List (Value × Value)) : Value :=
  .mapping (entries.foldl (fun found (k, v) => setEntry k v found) [])

def entry? (entries : List (Value × Value)) (name : String) : Option Value :=
  (entries.find? fun (k, _) => k.sameKey (.text name)).map Prod.snd

def Value.isEmpty : Value → Bool
  | .null => true
  | .bool b => !b
  | .int n => n = 0
  | .float x => match x.magnitude with
    | .finite v => v.mantissa = 0
    | .infinite => false
  | .nan => false
  | .text s => s = ""
  | .list items => items.isEmpty
  | .mapping entries => entries.isEmpty

/-! ## Plain scalars. -/

/-- Whether a text is one of several words in small letters, with a capital or in capitals. -/
def spells (words : List String) (text : String) : Bool :=
  words.any fun w =>
    let capital := String.ofList (match w.toList with
      | c :: rest => c.toUpper :: rest
      | [] => [])
    text = w || text = capital || text = upper w

def allOf (p : Char → Bool) (cs : List Char) : Bool := !cs.isEmpty && cs.all p

/-- Whether a text is made of decimal digits and underscores, the first one a digit. -/
def digitsAndMarks (cs : List Char) : Bool :=
  (cs.head?.map Char.isDigit).getD false && cs.all fun c => c.isDigit || c = '_'

def plainNumber (base : Nat) (cs : List Char) : Nat :=
  cs.foldl (fun n c => if c = '_' then n else n * base + (digitValue? c).getD 0) 0

/-- Segments after the first of a number in base sixty: one digit, or two of which the first is
below six. -/
def isSixtieth : List Char → Bool
  | [c] => c.isDigit
  | [a, b] => '0' ≤ a && a ≤ '5' && b.isDigit
  | _ => false

def wholeNumber? (cs : List Char) : Option Nat :=
  match cs with
  | '0' :: 'b' :: rest =>
    if allOf (fun c => c = '0' || c = '1' || c = '_') rest then some (plainNumber 2 rest) else none
  | '0' :: 'x' :: rest =>
    if allOf (fun c => c.isDigit || ('a' ≤ c && c ≤ 'f') || ('A' ≤ c && c ≤ 'F') || c = '_') rest
    then some (plainNumber 16 rest) else none
  | ['0'] => some 0
  | '0' :: rest =>
    if allOf (fun c => ('0' ≤ c && c ≤ '7') || c = '_') rest then some (plainNumber 8 rest) else none
  | _ =>
    match pieces ':' cs with
    | first :: rest =>
      if digitsAndMarks first && rest.all isSixtieth then
        some (rest.foldl (fun n segment => n * 60 + plainNumber 10 segment) (plainNumber 10 first))
      else none
    | [] => none

/-- Whether an exponent follows a fraction: nothing, or a mark, a sign and digits. -/
def isExponent : List Char → Bool
  | [] => true
  | e :: sign :: digits =>
    (e = 'e' || e = 'E') && (sign = '+' || sign = '-') && allOf Char.isDigit digits
  | _ => false

def pointNumber? (cs : List Char) : Option Magnitude :=
  let whole := cs.takeWhile (· ≠ '.')
  match cs.dropWhile (· ≠ '.') with
  | '.' :: after =>
    let part := after.takeWhile fun c => c.isDigit || c = '_'
    let tail := after.drop part.length
    let wholeFits := if whole.isEmpty then (part.head?.map Char.isDigit).getD false
      else digitsAndMarks whole
    if wholeFits && isExponent tail then
      let (power, _) := takeExponent tail
      let digits := (part.filter (· ≠ '_')).length
      some (nearestDecimal (plainNumber 10 (whole ++ part)) (power - digits))
    else none
  | _ => none

def signedNumber? (read : List Char → Option α) (cs : List Char) : Option (Bool × α) :=
  match cs with
  | '-' :: rest => (read rest).map fun n => (true, n)
  | '+' :: rest => (read rest).map fun n => (false, n)
  | _ => (read cs).map fun n => (false, n)

def plainValue (text : String) : Value :=
  let cs := text.toList
  if text = "" || text = "~" || spells ["null"] text then .null
  else if spells ["yes", "true", "on"] text then .bool true
  else if spells ["no", "false", "off"] text then .bool false
  else match signedNumber? wholeNumber? cs with
    | some (negative, n) => .int (if negative then -(n : Int) else n)
    | none =>
      let (negative, size) := takeSign cs
      if [".inf", ".Inf", ".INF"].contains (String.ofList size) then .float ⟨negative, .infinite⟩
      else if [".nan", ".NaN", ".NAN"].contains text then .nan
      else if size.head? = some '.' && size.length ≠ cs.length then .text text
      else match signedNumber? pointNumber? cs with
        | some (negative, size) => .float ⟨negative, size⟩
        | none => .text text

/-! ## Values as texts. -/

def hexPair (n : Nat) : String := padLeft '0' 2 (String.ofList (Nat.toDigits 16 n))

def quotedChar (quote c : Char) : String :=
  if c = quote || c = '\\' then String.ofList ['\\', c]
  else if c = '\n' then "\\n"
  else if c = '\r' then "\\r"
  else if c = '\t' then "\\t"
  else if c.toNat < 32 || (127 ≤ c.toNat && c.toNat ≤ 160) || c.toNat = 173 then "\\x" ++ hexPair c.toNat
  else String.singleton c

/-- A text between quotes: double ones when it has single quotes only. -/
def quoted (text : String) : String :=
  let cs := text.toList
  let quote := if cs.contains '\'' && !cs.contains '"' then '"' else '\''
  String.singleton quote ++ String.join (cs.map (quotedChar quote)) ++ String.singleton quote

mutual

def Value.inner : Value → String
  | .null => "None"
  | .bool b => if b then "True" else "False"
  | .int n => toString n
  | .float x => x.shortest
  | .nan => "nan"
  | .text s => quoted s
  | .list items => "[" ++ joinWith ", " (innerAll items) ++ "]"
  | .mapping entries => "\x7b" ++ joinWith ", " (innerEntries entries) ++ "\x7d"

def innerAll : List Value → List String
  | [] => []
  | v :: rest => v.inner :: innerAll rest

def innerEntries : List (Value × Value) → List String
  | [] => []
  | (k, v) :: rest => (k.inner ++ ": " ++ v.inner) :: innerEntries rest

end

def Value.toText : Value → String
  | .text s => s
  | v => v.inner

end QueryAudit.Yaml
