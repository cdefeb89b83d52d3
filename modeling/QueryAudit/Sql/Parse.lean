/-
  QueryAudit.Sql.Parse — from text to statement

  Changes of tables and the statements of other kinds complete the rules. `tables` is the whole
  way: cut the text into tokens, read the one statement in it, and walk its tree.
-/

import QueryAudit.Sql.Query

namespace QueryAudit.Sql

namespace Layer

/-! ## Changes. -/

def onConflict (l : Layer) : Reader Unit := do
  if ← words? ["ON", "DUPLICATE", "KEY", "UPDATE"] then
    let _ ← commaSeparated (equality l.nested l.unary)
  else if ← words? ["ON", "CONFLICT"] then passAll

def returning (l : Layer) : Reader Unit := do
  if ← word? "RETURNING" then
    let _ ← commaSeparated (aliased l.nested l.unary)

def atQueryBracket : Reader Bool := do
  return (← atMark "(") && (["SELECT", "WITH"].contains (← keywordAhead 1) || (← markAhead 1 "("))

def insert (l : Layer) : Reader Statement := do
  let _ ← word? "IGNORE"
  let _ ← word? "OVERWRITE"
  let _ ← word? "INTO"
  if (← atWord "TABLE") && !(← markAhead 1 "(") then pass 1
  let target ← namedTable
  if (← atMark "(") && !(← atQueryBracket) then
    pass 1
    passBracket
  if ← word? "AS" then
    let _ ← anyName?
  let query ← if ← words? ["DEFAULT", "VALUES"] then pure none
    else if ← word? "VALUES" then do
      valueRows l.nested
      tableAlias l.unary ("ON" :: afterTableWords)
      pure none
    else match ← l.queryOperand with
      | some first => do
        let whole ← l.setOperations first
        allClauses l.nested l.unary
        pure (some whole)
      | none => pure none
  l.onConflict
  l.returning
  return .change .insert target query []

def updateClauses (l : Layer) : Nat → List Source → Reader (List Source)
  | 0, sources => return sources
  | n + 1, sources => do
    if ← word? "SET" then
      let _ ← commaSeparated (equality l.nested l.unary)
      l.updateClauses n sources
    else if ← word? "FROM" then
      let found ← l.table
      let _ ← allJoins l.nested l.table
      l.updateClauses n [found]
    else if ← atWord "RETURNING" then
      l.returning
      l.updateClauses n sources
    else match ← clause? l.nested l.unary with
      | some _ => l.updateClauses n sources
      | none => return sources

def update (l : Layer) : Reader Statement := do
  let target ← source l.nested l.unary l.setOperations ("SET" :: afterTableWords)
  let _ ← allJoins l.nested
    (source l.nested l.unary l.setOperations ("SET" :: afterTableWords))
  return .change .update target none (← l.updateClauses (← remaining) [])

def delete (l : Layer) : Reader Statement := do
  if !(← atWord "FROM") then
    let _ ← commaSeparated do return some (← l.table)
  l.returning
  let target ← if ← word? "FROM" then l.table else pure .missing
  let _ ← allJoins l.nested l.table
  if ← word? "USING" then
    let _ ← commaSeparated do
      let found ← l.table
      let _ ← allJoins l.nested l.table
      return some found
  allClauses l.nested l.unary
  l.returning
  return .change .delete target none []

/-! ## Statements of other kinds. -/

def creatable : List String :=
  ["COLUMN", "CONSTRAINT", "DATABASE", "FUNCTION", "INDEX", "PROCEDURE", "SCHEMA", "SEQUENCE",
   "TABLE", "TRIGGER", "USER", "VIEW"]

/-- Words that may stand between CREATE or DROP and what is created or dropped. -/
def creationWords : List String :=
  ["EXTERNAL", "GLOBAL", "LOCAL", "MATERIALIZED", "OR", "REPLACE", "TEMP", "TEMPORARY", "UNIQUE"]

def showable : List String :=
  ["BINARY", "BINLOG", "CHARACTER", "CHARSET", "COLLATION", "COLUMNS", "CREATE", "DATABASES",
   "ENGINE", "ENGINES", "ERRORS", "EVENTS", "FULL", "FUNCTION", "GLOBAL", "GRANTS", "INDEX",
   "MASTER", "OPEN", "PLUGINS", "PRIVILEGES", "PROCEDURE", "PROCESSLIST", "PROFILE", "PROFILES",
   "RELAYLOG", "REPLICA", "REPLICAS", "SCHEMAS", "SESSION", "SLAVE", "STATUS", "STORAGE", "TABLE",
   "TABLES", "TRIGGERS", "VARIABLES", "WARNINGS"]

def commandWords : List String :=
  ["CALL", "EXECUTE", "FETCH", "GRANT", "LOAD", "OPTIMIZE", "PREPARE", "RENAME", "REPLACE",
   "REVOKE", "VACUUM"]

def command : Reading := do
  set ([] : List Token)
  return expressionOf "COMMAND"

def whole (kind : String) : Reading := do
  passAll
  return expressionOf kind

/-- Pass over the words between CREATE or DROP and what is created or dropped. -/
def passCreationWords : Nat → Reader Unit
  | 0 => return
  | n + 1 => do
    if (← oneOf? creationWords).isSome then passCreationWords n

def create : Reading := do
  passCreationWords (← remaining)
  if creatable.contains (← keywordAhead 0) then whole "CREATE" else command

def drop : Reading := do
  passCreationWords (← remaining)
  if (← oneOf? creatable).isSome then
    let _ ← words? ["IF", "EXISTS"]
    let _ ← namedTable
    let _ ← oneOf? ["CASCADE", "RESTRICT"]
    return expressionOf "DROP"
  else command

def alter : Reading := do
  if ← word? "TABLE" then
    let _ ← namedTable
    if ["ADD", "ALTER", "CHANGE", "DROP", "MODIFY", "RENAME", "SET"].contains (← keywordAhead 0)
    then whole "ALTER" else command
  else command

def setting : Reading := do
  let ranged := ["CHARACTER", "CHARSET", "GLOBAL", "LOCAL", "NAMES", "PERSIST", "SESSION",
    "TRANSACTION"].contains (← keywordAhead 0)
  let assigned := (← get).any fun t => t = .mark "=" || t = .mark ":=" || t.keyword = "TO"
  if ranged || assigned || (← finished) then whole "SET" else command

def truncate (l : Layer) : Reading := do
  let _ ← oneOf? ["DATABASE", "TABLE"]
  let _ ← words? ["IF", "EXISTS"]
  let _ ← commaSeparated do return some (← l.table)
  return expressionOf "TRUNCATETABLE"

def transactionEnd (kind : String) : Reading := do
  let _ ← oneOf? ["TRANSACTION", "WORK"]
  if ← word? "TO" then
    let _ ← word? "SAVEPOINT"
    let _ ← name?
  if ← word? "AND" then
    let _ ← word? "NO"
    let _ ← word? "CHAIN"
  return expressionOf kind

def transactionStart : Reading := do
  let _ ← oneOf? ["TRANSACTION", "WORK"]
  let _ ← commaSeparated do
    if ← words? ["READ", "ONLY"] then return some ()
    else if ← words? ["READ", "WRITE"] then return some ()
    else return none
  return expressionOf "TRANSACTION"

def plain (l : Layer) : Reading := do
  let found ← match ← aliased l.nested l.unary with
    | some found => do pure (some (← l.setOperations found))
    | none => l.queryChain
  match found with
  | some (.other kind) => return expressionOf kind
  | some query =>
    let _ ← allJoins l.nested l.table
    allClauses l.nested l.unary
    return some query
  | none => return none

def statement (l : Layer) : Reading := do
  let word ← keywordAhead 0
  let isCall ← markAhead 1 "("
  if word = "INSERT" then pass 1; return some (← l.insert)
  else if word = "UPDATE" then pass 1; return some (← l.update)
  else if word = "DELETE" then pass 1; return some (← l.delete)
  else if word = "CREATE" then pass 1; create
  else if word = "DROP" then pass 1; drop
  else if word = "ALTER" then pass 1; alter
  else if word = "TRUNCATE" && !isCall then pass 1; l.truncate
  else if word = "SET" then pass 1; setting
  else if word = "SHOW" then
    pass 1
    if showable.contains (← keywordAhead 0) then whole "SHOW" else command
  else if word = "DESCRIBE" || word = "DESC" || word = "EXPLAIN" then
    pass 1
    if ← finished then failure else whole "DESCRIBE"
  else if word = "BEGIN" || word = "START" then pass 1; transactionStart
  else if word = "COMMIT" then pass 1; transactionEnd "COMMIT"
  else if word = "ROLLBACK" then pass 1; transactionEnd "ROLLBACK"
  else if word = "USE" then
    pass 1
    let _ ← namedTable
    return expressionOf "USE"
  else if word = "PRAGMA" then
    pass 1
    let _ ← aliased l.nested l.unary
    return expressionOf "PRAGMA"
  else if word = "KILL" then pass 1; whole "KILL"
  else if word = "ANALYZE" then pass 1; whole "ANALYZE"
  else if commandWords.contains word then command
  else if (word = "LOCK" || word = "UNLOCK") && (← keywordAhead 1) = "TABLES" then command
  else if word = "IF" && !isCall then command
  else l.plain

end Layer

/-! ## The whole text. -/

def grammarAt : Nat → Grammar
  | 0 => .exhausted
  | n + 1 =>
    let g := grammarAt n
    let l := Layer.above g
    { expression := aliased g l.unary
      disjunction := disjunction g l.unary
      equality := equality g l.unary
      unary := l.unary
      statement := l.statement
      query := l.queryChain
      operand := l.queryOperand
      table := l.table
      joins := allJoins g l.table }

/-- The one statement that some tokens make up; each nested part takes a token at least. -/
def readStatement (tokens : List Token) : Option Statement :=
  match (grammarAt (tokens.length + 1)).statement.run tokens with
  | some (some found, []) => some found
  | _ => none

/-- The tokens of several statements, cut at semicolons; one at the end opens no statement. -/
def cut : List Token → List (List Token)
  | [] => [[]]
  | .mark ";" :: [] => [[]]
  | t :: rest =>
    match cut rest with
    | [] => [[t]]
    | first :: others =>
      if t = .mark ";" then [] :: first :: others else (t :: first) :: others

def parse? (d : Dialect) (text : String) : Option Statement := do
  match cut (← tokens? d text) with
  | [single] => readStatement single
  | several =>
    let found ← several.filter (!·.isEmpty) |>.mapM readStatement
    if found.isEmpty then none else some (.other "BLOCK")

/-- The tables a text reaches, each once, in the order of first occurrence. -/
def tables (d : Dialect) (text : String) : Except Issue (List TableName) :=
  match parse? d text with
  | some statement => statement.tables
  | none => .error .unreadable

end QueryAudit.Sql
