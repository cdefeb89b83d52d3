/-
  QueryAudit.Sql.Source — clauses, tables and joins

  What stands behind a query: its clauses, each at most once, and the sources it reads from with
  their aliases, hints and join conditions.
-/

import QueryAudit.Sql.Expression

namespace QueryAudit.Sql

/-! ## Clauses behind a query. -/

/-- The clauses a query may have once each. -/
inductive ClauseKind where
  | filter
  | grouping
  | groupFilter
  | ordering
  | limit
  | offset
  deriving DecidableEq, Repr

def orderItem (g : Grammar) : Reading := do
  let item ← g.disjunction
  let _ ← oneOf? ["ASC", "DESC"]
  if ← word? "NULLS" then pass 1
  return item

def orderItems (g : Grammar) : Reader Unit := do
  if (← commaSeparated (orderItem g)).isEmpty then failure

def lock? : Reader Bool := do
  let found ← if ← words? ["LOCK", "IN", "SHARE", "MODE"] then pure true
    else if ← words? ["FOR", "UPDATE"] then pure true
    else words? ["FOR", "SHARE"]
  if found then
    if ← word? "OF" then
      let _ ← commaSeparated name?
    if !(← word? "NOWAIT") then
      let _ ← words? ["SKIP", "LOCKED"]
  return found

def clause? (g : Grammar) (unary : Reading) : Reader (Option (List ClauseKind)) := do
  if ← word? "WHERE" then
    let _ ← required g.disjunction
    return some [.filter]
  else if ← words? ["GROUP", "BY"] then
    let _ ← commaSeparated (orderItem g)
    let _ ← words? ["WITH", "ROLLUP"]
    return some [.grouping]
  else if ← word? "HAVING" then
    let _ ← required g.disjunction
    return some [.groupFilter]
  else if ← words? ["ORDER", "BY"] then
    orderItems g
    return some [.ordering]
  else if ← atWord "LIMIT" then
    pass 1
    let _ ← required (term unary)
    if ← mark? "," then
      let _ ← required (term unary)
      return some [.limit, .offset]
    else return some [.limit]
  else if ← word? "OFFSET" then
    let _ ← required (term unary)
    let _ ← oneOf? ["ROW", "ROWS"]
    return some [.offset]
  else if ← lock? then return some []
  else return none

def clauses (g : Grammar) (unary : Reading) : Nat → List ClauseKind → Reader Unit
  | 0, _ => return
  | n + 1, seen => do
    match ← clause? g unary with
    | none => return
    | some kinds =>
      if kinds.any seen.contains then failure
      clauses g unary n (kinds ++ seen)

def allClauses (g : Grammar) (unary : Reading) : Reader Unit := do
  clauses g unary (← remaining) []

/-! ## Tables. -/

def tableAlias (unary : Reading) (excluded : List String) : Reader Unit := do
  if ← atLimit unary then return
  let found ← if ← word? "AS" then anyName?
    else if excluded.contains (← keywordAhead 0) then pure false
    else match ← get with
      | .string _ :: rest => do set rest; pure true
      | _ => do pure (← name?).isSome
  if found && (← mark? "(") then passBracket

def indexHints : Nat → Reader Unit
  | 0 => return
  | n + 1 => do
    let use ← keywordAhead 0
    let what ← keywordAhead 1
    if ["FORCE", "IGNORE", "USE"].contains use && ["INDEX", "KEY"].contains what then
      pass 2
      if ← word? "FOR" then
        if !(← word? "JOIN") then pass 2
      mark "("
      passBracket
      indexHints n

/-- One part of a table's name: bare, quoted, a string or a placeholder. -/
def tablePart? : Reader (Option String) := do
  match ← get with
  | .string text :: rest => set rest; return some text
  | .mark "?" :: rest => set rest; return some "?"
  | .mark ":" :: .word text :: rest => set rest; return some text
  | .mark "@" :: .word text :: rest => set rest; return some text
  | _ => name?

/-- The further parts of a table's name behind dots: the last part but one is the database. -/
def tableParts : Nat → Option String → String → Reader Source
  | 0, _, _ => failure
  | n + 1, database, name => do
    if ← mark? "." then tableParts n (some name) (← required tablePart?)
    else return .table (database.filter (!·.isEmpty)) name

def namedTable : Reader Source := do
  tableParts ((← remaining) + 1) none (← required tablePart?)

def Statement.kind : Statement → String
  | .select _ => "SELECT"
  | .combined .union _ _ => "UNION"
  | .combined .intersection _ _ => "INTERSECT"
  | .combined .difference _ _ => "EXCEPT"
  | .wrapped _ => "SUBQUERY"
  | .binding _ _ body => body.kind
  | .change .insert _ _ _ => "INSERT"
  | .change .update _ _ _ => "UPDATE"
  | .change .delete _ _ _ => "DELETE"
  | .other kind => kind

def Source.asStatement : Source → Statement
  | .table _ _ => .other "TABLE"
  | .derived query => .wrapped query
  | .other kind => .other kind
  | .missing => .other ""

def valueRows (g : Grammar) : Reader Unit := do
  let _ ← commaSeparated do
    let _ ← word? "ROW"
    g.disjunction

/-- What stands in parentheses in the place of a table; the opening one is taken. -/
def bracketedSource (g : Grammar) (unary : Reading)
    (setOperations : Statement → Reader Statement) : Reader Source := do
  if ← word? "VALUES" then
    valueRows g
    mark ")"
    return .other "VALUES"
  else
    let inner ← match ← g.query with
      | some query => pure query
      | none => do pure (← g.table).asStatement
    let _ ← g.joins
    let whole ← setOperations inner
    allClauses g unary
    mark ")"
    return .derived whole

/-- A source that sees the sources before it: a query, a call or a name, whose word LATERAL is
taken. -/
def lateralSource (g : Grammar) (unary : Reading)
    (setOperations : Statement → Reader Statement) : Reader Source := do
  let word ← keywordAhead 0
  if ← mark? "(" then
    let _ ← bracketedSource g unary setOperations
  else if ["SELECT", "WITH", "FROM"].contains word then
    let _ ← required g.query
  else if ← atCall then
    let _ ← call g
  else
    let _ ← required name?
  return .other "LATERAL"

def source (g : Grammar) (unary : Reading) (setOperations : Statement → Reader Statement)
    (excluded : List String) : Reader Source := do
  let word ← keywordAhead 0
  if ← word? "LATERAL" then
    let found ← lateralSource g unary setOperations
    tableAlias unary excluded
    return found
  else if ← mark? "(" then
    let found ← bracketedSource g unary setOperations
    tableAlias unary excluded
    return found
  else if ["SELECT", "WITH", "FROM"].contains word then
    return .other (← required g.query).kind
  else if ← word? "VALUES" then
    valueRows g
    tableAlias unary excluded
    return .other "VALUES"
  else if ← atCall then
    let _ ← call g
    tableAlias unary excluded
    return .table none ""
  else
    let found ← namedTable
    tableAlias unary excluded
    indexHints (← remaining)
    return found

/-! ## Joins. -/

def joinWords? : Reader Bool := do
  let before ← get
  let _ ← oneOf? ["NATURAL", "ASOF"]
  let _ ← oneOf? ["LEFT", "RIGHT", "FULL"]
  let kind ← oneOf? ["ANTI", "CROSS", "INNER", "OUTER", "SEMI", "STRAIGHT_JOIN"]
  if ← word? "JOIN" then return true
  else if kind = some "STRAIGHT_JOIN" then return true
  else set before; return false

def joinCondition? (g : Grammar) : Reader Bool := do
  if ← word? "ON" then
    let _ ← g.disjunction
    return true
  else if ← word? "USING" then
    mark "("
    passBracket
    return true
  else return false

/-- A join behind a source, if there is one. Without a condition of its own, a join takes the
joins behind it to itself where a condition follows those. A comma without a table behind it is
passed over. -/
def join? (g : Grammar) (table : Reader Source) : Reader (Option Source) := do
  if ← mark? "," then
    if ← couldRead table then return some (← table) else return none
  else if ← joinWords? then
    let found ← table
    if !(← joinCondition? g) then
      let before ← get
      let nested ← g.joins
      if nested.isEmpty || !(← joinCondition? g) then set before
    return some found
  else return none

def joinsFrom (g : Grammar) (table : Reader Source) : Nat → Reader (List Source)
  | 0 => return []
  | n + 1 => do
    match ← join? g table with
    | some found => return found :: (← joinsFrom g table n)
    | none => return []

def allJoins (g : Grammar) (table : Reader Source) : Reader (List Source) := do
  joinsFrom g table (← remaining)

end QueryAudit.Sql
