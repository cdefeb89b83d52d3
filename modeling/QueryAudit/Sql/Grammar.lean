/-
  QueryAudit.Sql.Grammar — reading tokens of SQL

  A reader takes tokens from the front, and a token out of place makes the whole text unreadable.
  Expressions, queries and tables nest in each other; a `Grammar` holds the readers for nested
  ones, so that each rule stands by itself and the knot is tied once, by depth.
-/

import QueryAudit.Sql.Statement
import QueryAudit.Sql.Token

namespace QueryAudit.Sql

/-! ## Readers. -/

/-- A reader takes tokens from the front and builds a result, or finds them unreadable. -/
abbrev Reader (α : Type) := StateT (List Token) Option α

/-- What an expression reads as: a query in parentheses, or a statement of the expression's own
kind; `none` where no expression starts. -/
abbrev Reading := Reader (Option Statement)

def expressionOf (kind : String) : Option Statement := some (.other kind)

def remaining : Reader Nat := do return (← get).length

/-- The word some places ahead in capital letters, empty when there is none. -/
def keywordAhead (n : Nat) : Reader String := do
  return (((← get)[n]?).map Token.keyword).getD ""

def atWord (word : String) : Reader Bool := do return (← keywordAhead 0) = word

def markAhead (n : Nat) (text : String) : Reader Bool := do
  return (← get)[n]? = some (.mark text)

def atMark (text : String) : Reader Bool := markAhead 0 text

def pass (n : Nat) : Reader Unit := modify (·.drop n)

def word? (word : String) : Reader Bool := do
  if ← atWord word then pass 1; return true else return false

def mark? (text : String) : Reader Bool := do
  if ← atMark text then pass 1; return true else return false

def oneOf? (words : List String) : Reader (Option String) := do
  let word ← keywordAhead 0
  if words.contains word then pass 1; return some word else return none

def words? (words : List String) : Reader Bool := do
  if ((← get).take words.length).map Token.keyword = words then
    pass words.length
    return true
  else return false

def mark (text : String) : Reader Unit := do
  if !(← mark? text) then failure

def finished : Reader Bool := do return (← get).isEmpty

def required (reading : Reader (Option α)) : Reader α := do
  match ← reading with
  | some found => return found
  | none => failure

def couldRead (reader : Reader α) : Reader Bool := do
  return (reader.run (← get)).isSome

/-- Items with commas between them; a place without an item is passed over. -/
def commaSeparated (item : Reader (Option α)) : Reader (List α) := do
  go ((← remaining) + 1)
where
  go : Nat → Reader (List α)
    | 0 => failure
    | n + 1 => do
      let first ← item
      if ← mark? "," then return first.toList ++ (← go n) else return first.toList

/-- Pass over everything up to the bracket that closes an open one, and over that bracket. -/
def passBracket : Reader Unit := do
  set (← rest? 0 (← get))
where
  /-- What follows the closing bracket, where some more brackets are open. -/
  rest? : Nat → List Token → Option (List Token)
    | _, [] => none
    | depth, t :: rest =>
      if t = .mark "(" then rest? (depth + 1) rest
      else if t = .mark ")" then
        match depth with
        | 0 => some rest
        | d + 1 => rest? d rest
      else rest? depth rest

def balanced : Nat → List Token → Bool
  | depth, [] => depth = 0
  | depth, t :: rest =>
    if t = .mark "(" then balanced (depth + 1) rest
    else if t = .mark ")" then depth > 0 && balanced (depth - 1) rest
    else balanced depth rest

/-- Pass over the rest of the statement, whose brackets have to fit together. -/
def passAll : Reader Unit := do
  if balanced 0 (← get) then set ([] : List Token) else failure

/-! ## The knot. -/

structure Grammar where
  expression : Reading
  disjunction : Reading
  /-- An expression whose operators bind at least as tightly as equality. -/
  equality : Reading
  unary : Reading
  statement : Reading
  query : Reading
  operand : Reading
  table : Reader Source
  joins : Reader (List Source)

def Grammar.exhausted : Grammar :=
  ⟨failure, failure, failure, failure, failure, failure, failure, failure, failure⟩

/-! ## Names. -/

def reservedWords : List String :=
  ["ALTER", "AND", "AS", "BETWEEN", "CREATE", "CROSS", "DISTINCT", "DROP", "ELSE", "EXCEPT",
   "EXISTS", "FETCH", "FOR", "FROM", "GLOB", "GRANT", "HAVING", "ILIKE", "IN", "INNER", "INSERT",
   "INTERSECT", "INTO", "JOIN", "LATERAL", "LIKE", "NOT", "NULL", "ON", "OR", "OUTER", "QUALIFY",
   "REGEXP", "RETURNING", "RLIKE", "SELECT", "STRAIGHT_JOIN", "THEN", "UNION", "USING", "VALUES",
   "WHEN", "WHERE", "WITH", "XOR"]

/-- Words that are no alias of a table, since they start what follows it. -/
def afterTableWords : List String :=
  ["ANTI", "ASOF", "FORCE", "FULL", "IGNORE", "LEFT", "LOCK", "NATURAL", "RIGHT", "SEMI", "USE",
   "WINDOW"]

/-- Whether the tokens start with a word that names something: a word that is not reserved and
not the first half of GROUP BY or ORDER BY. -/
def startsName : List Token → Bool
  | .word text :: rest =>
    let word := Text.upper text
    let next := ((rest.head?).map Token.keyword).getD ""
    !reservedWords.contains word && !((word = "GROUP" || word = "ORDER") && next = "BY")
  | _ => false

def name? : Reader (Option String) := do
  match ← get with
  | .name text :: rest => set rest; return some text
  | .word text :: rest =>
    if startsName (.word text :: rest) then set rest; return some text else return none
  | _ => return none

def anyName? : Reader Bool := do
  match ← get with
  | .name _ :: rest => set rest; return true
  | .string _ :: rest => set rest; return true
  | .number :: rest => set rest; return true
  | .word text :: rest =>
    if Text.upper text = "SELECT" then return false else set rest; return true
  | _ => return false

end QueryAudit.Sql
