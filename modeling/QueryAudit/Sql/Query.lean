/-
  QueryAudit.Sql.Query — queries

  SELECT with its sources, WITH clauses, parentheses and set operations. A `Layer` is what the
  rules of one depth have in common, built over the readers of the next depth.
-/

import QueryAudit.Sql.Source

namespace QueryAudit.Sql

/-! ## Layers. -/

/-- The readers of one depth, put together from those of the next. -/
structure Layer where
  nested : Grammar
  setOperations : Statement → Reader Statement
  unary : Reading
  table : Reader Source

def setOperationsFrom (g : Grammar) : Nat → Statement → Reader Statement
  | 0, left => return left
  | n + 1, left => do
    match ← oneOf? ["UNION", "EXCEPT", "INTERSECT"] with
    | none => return left
    | some word =>
      let _ ← oneOf? ["ALL", "DISTINCT"]
      let right ← required g.operand
      let operator := if word = "UNION" then SetOperator.union
        else if word = "EXCEPT" then .difference else .intersection
      setOperationsFrom g n (.combined operator left right)

def Layer.above (g : Grammar) : Layer :=
  let setOperations := fun left => do setOperationsFrom g (← remaining) left
  let clausesBehind : Reader Unit := do
    let _ ← g.joins
    allClauses g g.unary
  let signed := Sql.unary g (Sql.operand g setOperations clausesBehind)
  ⟨g, setOperations, signed, source g signed setOperations afterTableWords⟩

/-! ## Queries. -/

def selectWords : List String :=
  ["ALL", "DISTINCT", "DISTINCTROW", "HIGH_PRIORITY", "SQL_BIG_RESULT", "SQL_BUFFER_RESULT",
   "SQL_CALC_FOUND_ROWS", "SQL_NO_CACHE", "SQL_SMALL_RESULT", "STRAIGHT_JOIN"]

def passSelectWords : Nat → Reader Unit
  | 0 => return
  | n + 1 => do
    if (← oneOf? selectWords).isSome then passSelectWords n

namespace Layer

def fromSource (l : Layer) : Reader (List Source) := do
  if ← word? "FROM" then return [← l.table] else return []

/-- A SELECT behind its first word, with the source named before it. -/
def select (l : Layer) (before : List Source) : Reader Statement := do
  passSelectWords (← remaining)
  let _ ← commaSeparated (aliased l.nested l.unary)
  if ← word? "INTO" then
    let _ ← l.table
  let own ← l.fromSource
  let joins ← allJoins l.nested l.table
  allClauses l.nested l.unary
  return .select ((if own.isEmpty then before else own) ++ joins)

def definition (l : Layer) : Reader (Option Definition) := do
  let name ← required name?
  if ← mark? "(" then passBracket
  let _ ← word? "AS"
  let _ ← word? "NOT"
  let _ ← word? "MATERIALIZED"
  mark "("
  let body ← required l.nested.statement
  mark ")"
  return some (.named name body)

def takesBindings : Statement → Bool
  | .other kind => kind = "CREATE"
  | _ => true

/-- A WITH clause behind its first word, and the statement it stands before. -/
def binding (l : Layer) : Reader Statement := do
  let isRecursive ← word? "RECURSIVE"
  let definitions ← commaSeparated l.definition
  let body ← required l.nested.statement
  if takesBindings body then return .binding isRecursive definitions body else failure

def bracketed (l : Layer) : Reader Statement := do
  let inner ← required l.nested.operand
  let whole ← l.setOperations inner
  let _ ← l.nested.joins
  allClauses l.nested l.unary
  mark ")"
  return .wrapped whole

def query (l : Layer) : Reading := do
  if ← word? "WITH" then return some (← l.binding)
  else if ← word? "SELECT" then return some (← l.select [])
  else if ← word? "FROM" then
    let before ← l.table
    if ← word? "SELECT" then return some (← l.select [before])
    else
      let joins ← allJoins l.nested l.table
      allClauses l.nested l.unary
      return some (.select (before :: joins))
  else if ← word? "VALUES" then
    valueRows l.nested
    return expressionOf "VALUES"
  else return none

def queryChain (l : Layer) : Reading := do
  match ← l.query with
  | some left => return some (← l.setOperations left)
  | none => return none

def queryOperand (l : Layer) : Reading := do
  if ← mark? "(" then
    let found ← l.bracketed
    tableAlias l.unary afterTableWords
    return some found
  else l.query

end Layer

end QueryAudit.Sql
