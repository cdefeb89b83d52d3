/-
  QueryAudit.Sql.Token — the words and marks of SQL

  A text is cut into words, quoted names, strings, numbers and marks; white space and comments
  are passed over. What quotes a name, what quotes a string and where a comment starts is told by
  the dialect. An open quote makes the whole text unreadable.
-/

import QueryAudit.Text.Case

namespace QueryAudit.Sql

/-! ## Dialects. -/

/-- The rules of writing that differ between dialects. -/
structure Dialect where
  stringQuotes : List Char
  nameQuotes : List (Char × Char)
  backslashEscapes : Bool
  hashComments : Bool
  digitsStartWords : Bool
  deriving DecidableEq, Repr

namespace Dialect

def standard : Dialect := ⟨['\''], [('"', '"')], false, false, false⟩

def mysql : Dialect := ⟨['\'', '"'], [('\x60', '\x60')], true, true, true⟩

def sqlite : Dialect := { standard with nameQuotes := [('"', '"'), ('[', ']'), ('\x60', '\x60')] }

def mysqlFamily : List String := ["mysql", "doris", "singlestore", "starrocks"]

def backquoted : List String := ["bigquery", "databricks", "hive", "spark", "spark2"]

def plain : List String :=
  ["", "athena", "clickhouse", "dremio", "drill", "druid", "duckdb", "dune", "exasol", "fabric",
   "materialize", "oracle", "postgres", "presto", "prql", "redshift", "risingwave", "snowflake",
   "solr", "tableau", "teradata", "trino", "tsql"]

def named? (name : String) : Option Dialect :=
  if mysqlFamily.contains name then some mysql
  else if backquoted.contains name then some { mysql with hashComments := name = "bigquery" }
  else if name = "sqlite" then some sqlite
  else if plain.contains name then some standard
  else none

def nameEnd? (d : Dialect) (opening : Char) : Option Char :=
  (d.nameQuotes.find? (·.1 = opening)).map (·.2)

end Dialect

/-! ## Tokens. -/

inductive Token where
  | word (text : String)
  | name (text : String)
  | string (text : String)
  | number
  | mark (text : String)
  deriving DecidableEq, Repr, Inhabited

def Token.keyword : Token → String
  | .word text => Text.upper text
  | _ => ""

def isMarkChar (c : Char) : Bool :=
  "()[]\x7b\x7d&^:,-.=><%!/\\+;*~|?@#'\x60\"".toList.contains c

def isWordChar (c : Char) : Bool := !Text.isBlank c && !isMarkChar c

def longMarks : List (List Char) :=
  ["<=>", "->>", "||", "&&", "<<", ">>", "<>", "<=", ">=", "!=", "==", ":=", "->", "::"].map
    String.toList

def markOf (cs : List Char) : List Char :=
  (longMarks.find? (Text.startsWith · cs)).getD (cs.take 1)

/-! ## Quotes, comments and numbers. -/

/-- The content of a quoted part and how many characters it takes with its closing quote. A
doubled closing quote stands for itself, and so does a quote after a backslash where that
escapes; `none` when the quote stays open. -/
def quoted? (closing : Char) (escapes : Bool) : List Char → Option (List Char × Nat)
  | [] => none
  | [c] => if c = closing then some ([], 1) else none
  | c :: d :: rest =>
    if c = closing then
      if d = closing then (quoted? closing escapes rest).map fun (text, n) => (d :: text, n + 2)
      else some ([], 1)
    else if escapes && c = '\\' && d = closing then
      (quoted? closing escapes rest).map fun (text, n) => (d :: text, n + 2)
    else if escapes && c = '\\' && ['\\', '\'', '"'].contains d then
      (quoted? closing escapes rest).map fun (text, n) => (c :: d :: text, n + 2)
    else (quoted? closing escapes (d :: rest)).map fun (text, n) => (c :: text, n + 1)

/-- How many characters a comment up to its closing mark takes; an open one takes all. -/
def blockCommentLength : List Char → Nat
  | '*' :: '/' :: _ => 2
  | _ :: rest => blockCommentLength rest + 1
  | [] => 0

def lineCommentLength (cs : List Char) : Nat := (cs.takeWhile (· ≠ '\n')).length

def commentLength? (d : Dialect) : List Char → Option Nat
  | '-' :: '-' :: rest => some (lineCommentLength rest + 2)
  | '/' :: '*' :: rest => some (blockCommentLength rest + 2)
  | '#' :: rest => if d.hashComments then some (lineCommentLength rest + 1) else none
  | _ => none

/-- How many characters an exponent takes: a letter, maybe a sign, and digits. -/
def exponentLength : List Char → Nat
  | e :: s :: rest =>
    if e = 'e' || e = 'E' then
      let digits := if s = '+' || s = '-' then rest else s :: rest
      let n := (digits.takeWhile Char.isDigit).length
      if n = 0 then 0 else n + 1 + ((s :: rest).length - digits.length)
    else 0
  | _ => 0

def numberLength (cs : List Char) : Nat :=
  let whole := (cs.takeWhile Char.isDigit).length
  let fraction := match cs.drop whole with
    | '.' :: rest => (rest.takeWhile Char.isDigit).length + 1
    | _ => 0
  whole + fraction + exponentLength (cs.drop (whole + fraction))

/-- A number, or a word that starts like one, and how many characters it takes. -/
def numeral (d : Dialect) (cs : List Char) : Token × Nat :=
  let n := numberLength cs
  let tail := ((cs.drop n).takeWhile isWordChar).length
  match cs with
  | '0' :: x :: _ =>
    if x = 'x' || x = 'X' || x = 'b' || x = 'B' then (.number, n + tail) else shape n tail
  | _ => shape n tail
where
  /-- The token of a number of some length with a run of word characters behind it. -/
  shape (n tail : Nat) : Token × Nat :=
    if tail > 0 && d.digitsStartWords then (.word (String.ofList (cs.take (n + tail))), n + tail)
    else (.number, n)

/-- A letter right before a single quote marks a hexadecimal, binary or national string; the
inner result is how many characters follow the opening quote, `none` when it stays open. -/
def markedString? (d : Dialect) (letter : Char) : List Char → Option (Option Nat)
  | '\'' :: rest =>
    if ['x', 'X', 'b', 'B', 'n', 'N'].contains letter then
      some ((quoted? '\'' d.backslashEscapes rest).map (·.2))
    else none
  | _ => none

/-! ## Cutting. -/

/-- The token at the front of a text that starts with neither white space nor a comment, and how
many characters it takes; `none` for an open quote. -/
def tokenAt? (d : Dialect) : List Char → Option (Token × Nat)
  | [] => none
  | c :: rest =>
    if d.stringQuotes.contains c then
      (quoted? c d.backslashEscapes rest).map fun (text, n) =>
        (.string (String.ofList text), n + 1)
    else match d.nameEnd? c with
      | some closing =>
        (quoted? closing false rest).map fun (text, n) => (.name (String.ofList text), n + 1)
      | none =>
        if c.isDigit then some (numeral d (c :: rest))
        else if isMarkChar c then
          let text := markOf (c :: rest)
          some (.mark (String.ofList text), text.length)
        else match markedString? d c rest with
          | some inner => inner.map fun n => (.number, n + 2)
          | none =>
            let text := c :: rest.takeWhile isWordChar
            some (.word (String.ofList text), text.length)

def tokensIn? (d : Dialect) (cs : List Char) : Option (List Token) :=
  match cs with
  | [] => some []
  | c :: rest =>
    if Text.isBlank c then tokensIn? d rest
    else match commentLength? d (c :: rest) with
      | some n => tokensIn? d (rest.drop (n - 1))
      | none => do
        let (token, n) ← tokenAt? d (c :: rest)
        let others ← tokensIn? d (rest.drop (n - 1))
        return token :: others
termination_by cs.length
decreasing_by all_goals simp only [List.length_drop, List.length_cons]; omega

def tokens? (d : Dialect) (text : String) : Option (List Token) := tokensIn? d text.toList

end QueryAudit.Sql
