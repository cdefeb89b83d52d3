/-
  QueryAudit.Sql.Expression — expressions of SQL

  Expressions are read for their extent and their outermost kind only. Each level of operators is
  one rule over the next tighter level; an operator without an operand is unreadable.
-/

import QueryAudit.Sql.Grammar

namespace QueryAudit.Sql

/-! ## Operands. -/

def functionKinds : List (String × String) :=
  [("ABS", "ABS"), ("AVG", "AVG"), ("COALESCE", "COALESCE"), ("CONCAT", "CONCAT"),
   ("COUNT", "COUNT"), ("IF", "IF"), ("IFNULL", "COALESCE"), ("LCASE", "LOWER"),
   ("LENGTH", "LENGTH"), ("LOWER", "LOWER"), ("MATCH", "MATCHAGAINST"), ("MAX", "MAX"),
   ("MIN", "MIN"), ("NOW", "CURRENTTIMESTAMP"), ("ROUND", "ROUND"), ("SUM", "SUM"),
   ("UCASE", "UPPER"), ("UPPER", "UPPER")]

def functionKind (word : String) : String :=
  ((functionKinds.find? (·.1 = word)).map (·.2)).getD "ANONYMOUS"

def wordyFunctions : List String :=
  ["CAST", "CHAR", "CONVERT", "EXTRACT", "GROUP_CONCAT", "JSON_TABLE", "MATCH", "POSITION",
   "SUBSTR", "SUBSTRING", "TRIM", "TRY_CAST"]

/-- Reserved words that may stand before the arguments of a function. -/
def reservedFunctions : List String :=
  ["GLOB", "ILIKE", "INSERT", "LIKE", "RLIKE", "VALUES", "XOR"]

def atCall : Reader Bool := do
  match ← get with
  | .word text :: .mark m :: rest =>
    return m = "(" && (startsName (.word text :: .mark m :: rest)
      || reservedFunctions.contains (Text.upper text))
  | .name _ :: .mark m :: _ => return m = "("
  | _ => return false

/-- One argument of a function: a query or an expression, maybe distinct, maybe ordered. -/
def argument (g : Grammar) : Reading := do
  let _ ← word? "DISTINCT"
  let found ← g.query
  let found ← if found.isSome then pure found else g.expression
  if ← words? ["ORDER", "BY"] then
    let _ ← commaSeparated do
      let item ← g.disjunction
      let _ ← oneOf? ["ASC", "DESC"]
      return item
  return found

def window : Reader Unit := do
  if ← word? "OVER" then
    if ← mark? "(" then passBracket else pass 1

/-- A function call from its name on. What a full-text search looks for stands in brackets of
its own. -/
def call (g : Grammar) : Reading := do
  let word ← keywordAhead 0
  pass 2
  if wordyFunctions.contains word then
    passBracket
    if word = "MATCH" && (← markAhead 1 "(") && (← word? "AGAINST") then
      pass 1
      passBracket
  else
    let _ ← commaSeparated (argument g)
    mark ")"
  window
  return expressionOf (functionKind word)

def branches (g : Grammar) : Nat → Reader Unit
  | 0 => return
  | n + 1 => do
    if ← word? "WHEN" then
      let _ ← required g.disjunction
      let _ ← word? "THEN"
      let _ ← required g.disjunction
      branches g n

def caseExpression (g : Grammar) : Reading := do
  pass 1
  if !(← atWord "WHEN") then
    let _ ← g.disjunction
  branches g (← remaining)
  if ← word? "ELSE" then
    let _ ← g.disjunction
  if !(← word? "END") then failure
  return expressionOf "CASE"

/-- What stands in parentheses: a query, or expressions; the opening one is taken. -/
def parenthesized (g : Grammar) (setOperations : Statement → Reader Statement)
    (modifiers : Reader Unit) : Reading := do
  match ← g.query with
  | some query =>
    modifiers
    mark ")"
    return some (.wrapped query)
  | none =>
    match ← commaSeparated g.expression with
    | [.wrapped query] =>
      modifiers
      let whole ← setOperations (.wrapped query)
      mark ")"
      return some (.wrapped whole)
    | found =>
      mark ")"
      return expressionOf (if found.length = 1 then "PAREN" else "TUPLE")

def Token.isString : Token → Bool
  | .string _ => true
  | _ => false

def timeWords : List String := ["DATE", "DATETIME", "TIME", "TIMESTAMP"]

/-- Words that say what characters a string behind them is made of. -/
def introducers : List String :=
  ["_ASCII", "_BIG5", "_BINARY", "_GB2312", "_GBK", "_KOI8R", "_LATIN1", "_UCS2", "_UTF16",
   "_UTF32", "_UTF8", "_UTF8MB3", "_UTF8MB4"]

def primary (g : Grammar) (setOperations : Statement → Reader Statement)
    (modifiers : Reader Unit) : Reading := do
  match ← get with
  | .string _ :: rest =>
    set (rest.dropWhile Token.isString)
    return expressionOf (if (rest.head?).any Token.isString then "CONCAT" else "LITERAL")
  | .number :: rest => set rest; return expressionOf "LITERAL"
  | .name _ :: rest =>
    if ← atCall then call g
    else set rest; return expressionOf "COLUMN"
  | .mark "*" :: rest => set rest; return expressionOf "STAR"
  | .mark "?" :: rest => set rest; return expressionOf "PLACEHOLDER"
  | .mark ":" :: .word _ :: rest => set rest; return expressionOf "PLACEHOLDER"
  | .mark ":" :: .number :: rest => set rest; return expressionOf "PLACEHOLDER"
  | .mark "@" :: .mark "@" :: .word _ :: rest => set rest; return expressionOf "SESSIONPARAMETER"
  | .mark "@" :: .word _ :: rest => set rest; return expressionOf "PARAMETER"
  | .mark "@" :: .name _ :: rest => set rest; return expressionOf "PARAMETER"
  | .mark "@" :: .string _ :: rest => set rest; return expressionOf "PARAMETER"
  | .mark "." :: .number :: rest => set rest; return expressionOf "LITERAL"
  | .mark "(" :: rest => set rest; parenthesized g setOperations modifiers
  | .mark "[" :: rest =>
    set rest
    let _ ← commaSeparated g.expression
    mark "]"
    return expressionOf "ARRAY"
  | .mark "\x7b" :: rest =>
    set rest
    let _ ← commaSeparated g.expression
    mark "\x7d"
    return expressionOf "STRUCT"
  | .word text :: rest =>
    let word := Text.upper text
    if word = "NULL" then set rest; return expressionOf "NULL"
    else if word = "TRUE" || word = "FALSE" then set rest; return expressionOf "BOOLEAN"
    else if word = "CASE" then caseExpression g
    else if word = "EXISTS" && rest.head? = some (.mark "(") then
      pass 2
      let _ ← argument g
      mark ")"
      return expressionOf "EXISTS"
    else if word = "INTERVAL" && startsAmount rest then
      set rest
      let _ ← required g.unary
      if startsName (← get) then pass 1
      return expressionOf "INTERVAL"
    else if timeWords.contains word && (rest.head?).any Token.isString then
      pass 2
      return expressionOf "CAST"
    else if introducers.contains word && (rest.head?).any Token.isString then
      pass 2
      return expressionOf "INTRODUCER"
    else if ← atCall then call g
    else if word = "BINARY" then
      set rest
      let _ ← required g.unary
      return expressionOf "CAST"
    else if startsName (.word text :: rest) then set rest; return expressionOf "COLUMN"
    else return none
  | _ => return none
where
  startsAmount : List Token → Bool
    | .string _ :: _ | .number :: _ => true
    | .mark m :: _ => ["(", "?", ":", "-"].contains m
    | _ => false

/-- What follows the first part of an operand: members, elements, paths and casts. -/
def accesses (g : Grammar) : Nat → String → Nat → Reader String
  | 0, kind, _ => return kind
  | n + 1, kind, parts => do
    match ← get with
    | .mark "." :: .mark "*" :: rest => set rest; accesses g n kind (parts + 1)
    | .mark "." :: rest =>
      set rest
      if ← atCall then
        let _ ← call g
        accesses g n "DOT" parts
      else if ← anyName? then
        accesses g n (if kind = "COLUMN" && parts < 4 then "COLUMN" else "DOT") (parts + 1)
      else failure
    | .mark "[" :: rest =>
      set rest
      let _ ← commaSeparated g.expression
      mark "]"
      accesses g n "BRACKET" parts
    | .mark "->" :: rest =>
      set rest
      let _ ← required g.unary
      accesses g n "JSONEXTRACT" parts
    | .mark "->>" :: rest =>
      set rest
      let _ ← required g.unary
      accesses g n "JSONEXTRACTSCALAR" parts
    | .mark "::" :: .word _ :: rest =>
      set rest
      if ← mark? "(" then passBracket
      accesses g n "CAST" parts
    | _ => return kind

def operand (g : Grammar) (setOperations : Statement → Reader Statement)
    (modifiers : Reader Unit) : Reading := do
  match ← primary g setOperations modifiers with
  | some (.other kind) => return expressionOf (← accesses g (← remaining) kind 1)
  | found => return found

def unary (g : Grammar) (operand : Reading) : Reading := do
  if ← mark? "-" then
    let _ ← required g.unary
    return expressionOf "NEG"
  else if ← mark? "+" then return some (← required g.unary)
  else if ← mark? "~" then
    let _ ← required g.unary
    return expressionOf "BITWISENOT"
  else if ← (do if ← mark? "!" then pure true else word? "NOT") then
    let _ ← required g.equality
    return expressionOf "NOT"
  else operand

/-! ## Levels of operators. -/

/-- A level of operators that bind to the left: an operator needs an operand on both sides. -/
def level (operator? : Token → Option String) (operand : Reading) : Reading := do
  go (← remaining) (← operand)
where
  go : Nat → Option Statement → Reading
    | 0, left => return left
    | n + 1, left => do
      match ← get with
      | [] => return left
      | t :: rest =>
        match operator? t with
        | none => return left
        | some kind =>
          set rest
          let _ ← required (pure left)
          let _ ← required operand
          go n (expressionOf kind)

def kindIn (marks words : List (String × String)) : Token → Option String
  | .mark text => (marks.find? (·.1 = text)).map (·.2)
  | .word text => (words.find? (·.1 = Text.upper text)).map (·.2)
  | _ => none

def factor (unary : Reading) : Reading :=
  level (kindIn [("*", "MUL"), ("/", "DIV")] [("DIV", "INTDIV")]) unary

def term (unary : Reading) : Reading :=
  level (kindIn [("+", "ADD"), ("-", "SUB"), ("%", "MOD")] [("COLLATE", "COLLATE"), ("MOD", "MOD")])
    (factor unary)

def bitwise (unary : Reading) : Reading :=
  level (kindIn [("&", "BITWISEAND"), ("|", "BITWISEOR"), ("^", "BITWISEXOR"),
    ("<<", "BITWISELEFTSHIFT"), (">>", "BITWISERIGHTSHIFT")] []) (term unary)

def patternKinds : List (String × String) :=
  [("GLOB", "GLOB"), ("ILIKE", "ILIKE"), ("LIKE", "LIKE"), ("REGEXP", "REGEXPLIKE"),
   ("RLIKE", "REGEXPLIKE")]

def members (g : Grammar) (unary : Reading) : Reader Unit := do
  if ← mark? "(" then
    let _ ← commaSeparated do
      match ← g.query with
      | some query => return some query
      | none => g.expression
    mark ")"
  else
    let _ ← unary

def isTest? (unary : Reading) : Reader Bool := do
  let before ← get
  pass 1
  let _ ← word? "NOT"
  let _ ← words? ["DISTINCT", "FROM"]
  match ← bitwise unary with
  | some _ => return true
  | none => set before; return false

def rangeTest? (g : Grammar) (unary : Reading) : Reader (Option String) := do
  let word ← keywordAhead 0
  if word = "BETWEEN" then
    pass 1
    let _ ← required (bitwise unary)
    let _ ← word? "AND"
    let _ ← required (bitwise unary)
    return some "BETWEEN"
  else if word = "IN" then
    pass 1
    members g unary
    return some "IN"
  else if ← words? ["SOUNDS", "LIKE"] then
    let _ ← required (bitwise unary)
    return some "EQ"
  else match patternKinds.find? (·.1 = word) with
    | some (_, kind) =>
      pass 1
      let _ ← required (bitwise unary)
      if ← word? "ESCAPE" then
        match ← get with
        | .string _ :: rest => set rest
        | _ => failure
      return some kind
    | none =>
      if word = "IS" then return if ← isTest? unary then some "IS" else none
      else if word = "ISNULL" then pass 1; return some "IS"
      else return none

/-- Range tests: BETWEEN, IN, LIKE, IS and their like, and their negations. -/
def range (g : Grammar) (unary : Reading) : Reading := do
  let left ← bitwise unary
  let negated ← if left.isSome then word? "NOT" else pure false
  let tested ← rangeTest? g unary
  let tested ← if tested.isNone && negated && (← word? "NULL") then pure (some "IS")
    else pure tested
  if tested.isSome && left.isNone then failure
  let whole := match tested with
    | some kind => expressionOf (if negated then "NOT" else kind)
    | none => if negated then expressionOf "NOT" else left
  if tested.isSome && (← atWord "IS") then
    if ← isTest? unary then return expressionOf "IS"
  return whole

def comparison (g : Grammar) (unary : Reading) : Reading :=
  level (kindIn [(">", "GT"), (">=", "GTE"), ("<", "LT"), ("<=", "LTE")] []) (range g unary)

def equality (g : Grammar) (unary : Reading) : Reading :=
  level (kindIn [("=", "EQ"), ("==", "EQ"), ("<>", "NEQ"), ("!=", "NEQ"),
    ("<=>", "NULLSAFEEQ")] []) (comparison g unary)

def conjunction (g : Grammar) (unary : Reading) : Reading :=
  level (kindIn [("&&", "AND")] [("AND", "AND"), ("XOR", "XOR")]) (equality g unary)

def disjunction (g : Grammar) (unary : Reading) : Reading :=
  level (kindIn [("||", "OR")] [("OR", "OR")]) (conjunction g unary)

def assignment (g : Grammar) (unary : Reading) : Reading :=
  level (kindIn [(":=", "PROPERTYEQ")] []) (disjunction g unary)

/-! ## Limits and aliases. -/

def limit? (unary : Reading) : Reader Bool := do
  if ← word? "LIMIT" then
    let _ ← required (term unary)
    if ← mark? "," then
      let _ ← required (term unary)
    return true
  else if ← word? "OFFSET" then
    let _ ← required (term unary)
    return true
  else return false

def atLimit (unary : Reading) : Reader Bool := do
  if (← atWord "LIMIT") || (← atWord "OFFSET") then couldRead (limit? unary) else return false

def alias? (unary : Reading) : Reader Bool := do
  if ← atLimit unary then return false
  if ← word? "AS" then
    if ← mark? "(" then passBracket; return true
    else anyName?
  else
    match ← get with
    | .string _ :: rest => set rest; return true
    | _ => return (← name?).isSome

def aliased (g : Grammar) (unary : Reading) : Reading := do
  let found ← assignment g unary
  match found with
  | none => if ← atWord "AS" then failure else return none
  | some _ => if ← alias? unary then return expressionOf "ALIAS" else return found

end QueryAudit.Sql
