/-
  QueryAudit.Php.Statement — reading statements and declarations

  Statements by the word they start with, the members of classes, and whole programs. Where a
  target or a name is left out, a node without text stands in its place.
-/

import QueryAudit.Php.Expression

namespace QueryAudit.Php

open Reader

/-! ## Blocks. -/

/-- Read statements until a condition holds. Leaving PHP code between statements ends none. -/
def statementsUntil (g : Grammar) (stop : Token → Bool) : Reader (List Draft) :=
  repeatUntil stop do
    if (← peek).lexeme = .gap then
      let _ ← take
      return []
    else return [← g.statement]

def compound (g : Grammar) : Reader Draft := do
  let opening ← takeMark
  let inner ← statementsUntil g (·.isMark "\x7d")
  return .node .compoundStatement ([opening] ++ inner ++ (← mark? "\x7d"))

def colonEnds : List String :=
  ["endif", "else", "elseif", "endforeach", "endwhile", "endfor", "endswitch"]

def colonBlock (g : Grammar) : Reader Draft := do
  let colon ← takeMark
  let inner ← statementsUntil g fun t => colonEnds.contains t.keyword
  return .node .colonBlock (colon :: inner)

/-- The body of a loop: a statement, or a block after a colon and the word that ends it. -/
def loopBody (g : Grammar) (ending : String) : Reader (List Draft) := do
  if ← atMark ":" then
    let body := (← colonBlock g).playing "body"
    return [body] ++ (← keyword? ending) ++ (← semicolon)
  else return [(← g.statement).playing "body"]

/-! ## Branches. -/

def branch (g : Grammar) : Reader Draft := do
  let isElse ← atKeyword "else"
  let word ← takeKeyword
  let condition ← if isElse then pure [] else do pure [(← parenthesized g).playing "condition"]
  let body := (← if ← atMark ":" then colonBlock g else g.statement).playing "body"
  return (Draft.node (if isElse then .elseClause else .elseIfClause)
    ([word] ++ condition ++ [body])).playing "alternative"

def ifStatement (g : Grammar) : Reader Draft := do
  let word ← takeKeyword
  let condition := (← parenthesized g).playing "condition"
  let colon ← atMark ":"
  let body := (← if colon then colonBlock g else g.statement).playing "body"
  let others ← repeatUntil (fun t => !t.isKeyword "elseif" && !t.isKeyword "else") do
    return [← branch g]
  let ending ← if colon then do pure ((← keyword? "endif") ++ (← semicolon)) else pure []
  return .node .ifStatement ([word, condition, body] ++ others ++ ending)

def switchCase (g : Grammar) : Reader (List Draft) := do
  let isDefault ← atKeyword "default"
  let word ← takeKeyword
  let value ← if isDefault then pure [] else do pure [(← g.expression 0).playing "value"]
  let colon ← if ← atMark ":" then mark? ":" else mark? ";"
  let inner ← statementsUntil g fun t =>
    t.isMark "\x7d" || ["case", "default", "endswitch"].contains t.keyword
  return [.node (if isDefault then .defaultStatement else .caseStatement)
    ([word] ++ value ++ colon ++ inner)]

def switchStatement (g : Grammar) : Reader Draft := do
  let word ← takeKeyword
  let condition := (← parenthesized g).playing "condition"
  let colon ← atMark ":"
  let opening ← takeMark
  let cases ← repeatUntil (fun t => t.isMark "\x7d" || t.isKeyword "endswitch") do
    if (← peek).lexeme = .gap then
      let _ ← take
      return []
    else switchCase g
  let ending ← if colon then do pure ((← keyword? "endswitch") ++ (← semicolon)) else mark? "\x7d"
  let block := Draft.node .switchBlock ([opening] ++ cases ++ ending)
  return .node .switchStatement [word, condition, block.playing "body"]

def catchClause (g : Grammar) : Reader Draft := do
  let word ← takeKeyword
  let opening ← takeMark
  let types ← repeatUntil (fun t => t.lexeme = .variable || t.isMark ")") do
    if ← atMark "|" then return [← takeMark] else return [← simpleType]
  let type := (Draft.node .typeList types).playing "type"
  let name ← if (← peek).lexeme = .variable then do pure [(← takeVariable).playing "name"]
    else pure []
  let closing ← mark? ")"
  let body := (← g.block).playing "body"
  return .node .catchClause ([word, opening, type] ++ name ++ closing ++ [body])

def tryStatement (g : Grammar) : Reader Draft := do
  let word ← takeKeyword
  let body := (← g.block).playing "body"
  let handlers ← repeatUntil (fun t => !t.isKeyword "catch" && !t.isKeyword "finally") do
    if ← atKeyword "catch" then return [← catchClause g]
    let last ← takeKeyword
    return [.node .finallyClause [last, (← g.block).playing "body"]]
  return .node .tryStatement ([word, body] ++ handlers)

/-! ## Loops. -/

def loopTarget (g : Grammar) : Reader Draft := do
  let t ← peek
  if t.isMark "&" then byReference g
  else if t.isMark "[" || (t.isKeyword "list" && (← ahead 1).isMark "(") then
    pattern g (← remaining)
  else g.expression 0

/-- A loop over a collection. A missing target is a name without text. -/
def foreachStatement (g : Grammar) : Reader Draft := do
  let word ← takeKeyword
  let opening ← takeMark
  let source ← g.expression 0
  let asWord ← takeKeyword
  let target ← if ← atMark ")" then pure (Draft.missing .name true asWord.stop) else do
    let first ← loopTarget g
    if ← atMark "=>" then
      let arrow ← takeMark
      pure (Draft.node .pair [first, arrow, ← loopTarget g])
    else pure first
  let closing ← mark? ")"
  let body ← loopBody g "endforeach"
  return .node .foreachStatement ([word, opening, source, asWord, target] ++ closing ++ body)

def loopHead (g : Grammar) (close role : String) : Reader (List Draft) := do
  let inner ← if ← atMark close then pure [] else do pure [(← expressions g).playing role]
  return inner ++ (← mark? close)

def forStatement (g : Grammar) : Reader Draft := do
  let word ← takeKeyword
  let opening ← takeMark
  let start ← loopHead g ";" "initialize"
  let condition ← loopHead g ";" "condition"
  let update ← loopHead g ")" "update"
  let body ← if ← atMark ":" then do
      let colon ← takeMark
      let inner ← statementsUntil g (·.isKeyword "endfor")
      pure ([colon] ++ inner.map (·.playing "body") ++ (← keyword? "endfor") ++ (← semicolon))
    else do pure [(← g.statement).playing "body"]
  return .node .forStatement ([word, opening] ++ start ++ condition ++ update ++ body)

def whileStatement (g : Grammar) : Reader Draft := do
  let word ← takeKeyword
  let condition := (← parenthesized g).playing "condition"
  let body ← loopBody g "endwhile"
  return .node .whileStatement ([word, condition] ++ body)

def doStatement (g : Grammar) : Reader Draft := do
  let word ← takeKeyword
  let body := (← g.statement).playing "body"
  let ending ← keyword? "while"
  let condition := (← parenthesized g).playing "condition"
  return .node .doStatement ([word, body] ++ ending ++ [condition] ++ (← semicolon))

/-! ## Plain statements. -/

def wordStatement (g : Grammar) (kind : Kind) : Reader Draft := do
  let word ← takeKeyword
  let t ← peek
  let value ← if t.isMark ";" || t.lexeme = .gap || t.isMark "\x7d" || t.lexeme = .finish
    then pure [] else do pure [← expressions g]
  return .node kind ([word] ++ value ++ (← semicolon))

def globalDeclaration (g : Grammar) : Reader Draft := do
  let word ← takeKeyword
  let names ← commaList ";" do return [← g.expression operandLevel]
  return .node .globalDeclaration ([word] ++ names ++ (← semicolon))

def staticDeclaration (g : Grammar) : Reader Draft := do
  let word ← takeKeyword
  let names ← commaList ";" do
    let name := (← takeVariable).playing "name"
    return [.node .staticVariableDeclaration ([name] ++ (← initializer g "value"))]
  return .node .functionStaticDeclaration ([word] ++ names ++ (← semicolon))

def unsetStatement (g : Grammar) : Reader Draft := do
  let word ← takeKeyword
  let opening ← takeMark
  let names ← commaList ")" do return [← g.expression operandLevel]
  return .node .unsetStatement ([word, opening] ++ names ++ (← mark? ")") ++ (← semicolon))

def exitStatement (g : Grammar) : Reader Draft := do
  let word ← takeKeyword
  let status ← if ← atMark "(" then do
      let opening ← takeMark
      let inner ← if ← atMark ")" then pure [] else do pure [← g.expression 0]
      pure ([opening] ++ inner ++ (← mark? ")"))
    else pure []
  return .node .exitStatement ([word] ++ status ++ (← semicolon))

def expressionStatement (g : Grammar) : Reader Draft := do
  let inner ← expressions g
  return .node .expressionStatement ([inner] ++ (← semicolon))

/-! ## Declarations. -/

def constDeclaration (g : Grammar) (modifiers : List Draft) : Reader Draft := do
  let word ← takeKeyword
  let type ← if (← ahead 1).isMark "=" then pure [] else do pure [(← typeName).playing "type"]
  let elements ← commaList ";" do
    let name ← takeName
    return [.node .constElement ([name] ++ (← initializer g "").map fun d => { d with role := none })]
  return .node .constDeclaration (modifiers ++ [word] ++ type ++ elements ++ (← semicolon))

/-- The parts of a function after its keyword: a reference mark, a name, parameters and a result
type. -/
def signature (g : Grammar) : Reader (List Draft) := do
  let reference ← referenceModifier
  let name := (← takeName).playing "name"
  let params := (← parameters g).playing "parameters"
  return reference ++ [name, params] ++ (← resultType)

def functionDefinition (g : Grammar) (about : List Draft) : Reader Draft := do
  let word ← takeKeyword
  let parts ← signature g
  return .node .functionDefinition (about ++ [word] ++ parts ++ [(← g.block).playing "body"])

def modifiers : Nat → Reader (List Draft)
  | 0 => return []
  | n + 1 => do
    let t ← peek
    let kind := match t.keyword with
      | "public" | "protected" | "private" => some Kind.visibilityModifier
      | "static" => some .staticModifier
      | "abstract" => some .abstractModifier
      | "final" => some .finalModifier
      | "readonly" => some .readonlyModifier
      | _ => none
    match kind with
    | some kind =>
      let modifier := Draft.node kind [← takeKeyword]
      return modifier :: (← modifiers n)
    | none =>
      if t.keyword = "var" then
        let modifier := Draft.leaf .varModifier (← take)
        return modifier :: (← modifiers n)
      else return []

def methodDeclaration (g : Grammar) (before : List Draft) : Reader Draft := do
  let word ← takeKeyword
  let parts ← signature g
  let body ← if ← atMark "\x7b" then do pure [(← g.block).playing "body"] else semicolon
  return .node .methodDeclaration (before ++ [word] ++ parts ++ body)

def propertyDeclaration (g : Grammar) (before : List Draft) : Reader Draft := do
  let type ← if ← atType then do pure [(← typeName).playing "type"] else pure []
  let elements ← commaList ";" do
    let name := (← takeVariable).playing "name"
    return [.node .propertyElement ([name] ++ (← initializer g "default_value"))]
  return .node .propertyDeclaration (before ++ type ++ elements ++ (← semicolon))

def useDeclaration : Reader Draft := do
  let word ← takeKeyword
  let names ← repeatUntil (fun t => t.isMark ";" || t.isMark "\x7b") do
    if ← atMark "," then return [← takeMark] else return [← qualifiedName]
  if ← atMark "\x7b" then
    let opening ← takeMark
    let rules ← repeatUntil (·.isMark "\x7d") do return [← takeMark]
    return .node .useDeclaration
      ([word] ++ names ++ [.node .useList ([opening] ++ rules ++ (← mark? "\x7d"))])
  return .node .useDeclaration ([word] ++ names ++ (← semicolon))

def enumCase (g : Grammar) (about : List Draft) : Reader Draft := do
  let word ← takeKeyword
  let name := (← takeName).playing "name"
  return .node .enumCase (about ++ [word, name] ++ (← initializer g "value") ++ (← semicolon))

def member (g : Grammar) : Reader Draft := do
  let about ← attributeGroups g
  let before := about ++ (← modifiers (← remaining))
  let t ← peek
  match t.keyword with
  | "function" => methodDeclaration g before
  | "const" => constDeclaration g before
  | "use" => useDeclaration
  | "case" => enumCase g before
  | _ =>
    if t.lexeme = .variable || t.lexeme = .word || t.isMark "?" || t.isMark "\\" then
      propertyDeclaration g before
    else return .node .error (before ++ [← takeMark])

def memberList (g : Grammar) (kind : Kind) : Reader Draft := do
  let opening ← takeMark
  let inner ← repeatUntil (·.isMark "\x7d") do return [← member g]
  return .node kind ([opening] ++ inner ++ (← mark? "\x7d"))

def classDeclaration (g : Grammar) (before : List Draft) : Reader Draft := do
  let t ← peek
  let word ← takeKeyword
  let name := (← takeName).playing "name"
  let backing ← if ← atMark ":" then do
      let colon ← takeMark
      pure [colon, { ← simpleType with children := [] }]
    else pure []
  let base ← baseClause
  let interfaces ← interfaceClause
  let (kind, list) := match t.keyword with
    | "interface" => (Kind.interfaceDeclaration, Kind.declarationList)
    | "trait" => (.traitDeclaration, .declarationList)
    | "enum" => (.enumDeclaration, .enumDeclarationList)
    | _ => (.classDeclaration, .declarationList)
  let body := (← memberList g list).playing "body"
  return .node kind (before ++ [word, name] ++ backing ++ base ++ interfaces ++ [body])

def namespaceDefinition (g : Grammar) : Reader Draft := do
  let word ← takeKeyword
  let segments ← repeatUntil (fun t => t.lexeme ≠ .word && !t.isMark "\\") do
    if ← atMark "\\" then return [← takeMark] else return [← takeName]
  let name := if segments.isEmpty then []
    else [(Draft.node .namespaceName segments).playing "name"]
  let ending ← if ← atMark "\x7b" then do pure [(← g.block).playing "body"] else semicolon
  return .node .namespaceDefinition ([word] ++ name ++ ending)

def useType : Reader (List Draft) := do
  if (← ahead 1).lexeme = .word && ((← atKeyword "function") || (← atKeyword "const")) then
    return [(← takeKeyword).playing "type"]
  else return []

def useClause : Reader (List Draft) := do
  let type ← useType
  let name ← qualifiedName
  let other ← if ← atKeyword "as" then do
      let asWord ← takeKeyword
      pure [asWord, (← takeName).playing "alias"]
    else pure []
  return [.node .namespaceUseClause (type ++ [name] ++ other)]

/-- Whether the names of one namespace are taken over between braces. -/
def atUseGroup : Reader Bool := do
  let after := (← get).dropWhile fun t => t.lexeme = .word || t.isMark "\\"
  return (after.head?.map (·.isMark "\x7b")).getD false

def useGroup : Reader (List Draft) := do
  let leading ← mark? "\\"
  let path ← repeatUntil (·.isMark "\x7b") do
    if ← atMark "\\" then return [← takeMark] else return [← takeName]
  let opening ← takeMark
  let clauses ← commaList "\x7d" useClause
  let group := Draft.node .namespaceUseGroup ([opening] ++ clauses ++ (← mark? "\x7d"))
  return leading ++ [.node .namespaceName path.dropLast] ++ path.getLast?.toList ++
    [group.playing "body"]

def namespaceUse : Reader Draft := do
  let word ← takeKeyword
  let type ← useType
  let clauses ← if ← atUseGroup then useGroup else commaList ";" useClause
  return .node .namespaceUseDeclaration ([word] ++ type ++ clauses ++ (← semicolon))

/-- Directives for the compiler, for the rest of the file or for one statement. -/
def declareStatement (g : Grammar) : Reader Draft := do
  let word ← takeKeyword
  let opening ← takeMark
  let directive ← takeKeyword
  let value ← initializer g ""
  let closing ← mark? ")"
  let inner := Draft.node .declareDirective (directive :: value.map fun d => { d with role := none })
  let t ← peek
  let body ← if t.isMark ";" || t.lexeme = .gap || t.lexeme = .finish then semicolon
    else do pure [← g.statement]
  return .node .declareStatement ([word, opening, inner] ++ closing ++ body)

/-! ## Statements. -/

/-- Whether a declaration with modifiers is next: a class after words such as `abstract`. -/
def atModifiedClass : Reader Bool := do
  let after := (← get).dropWhile fun t => ["abstract", "final", "readonly"].contains t.keyword
  return (after.head?.map (·.isKeyword "class")).getD false

def keywordStatement (g : Grammar) : Reader Draft := do
  let next ← ahead 1
  let named := next.lexeme = .word
  match (← peek).keyword with
  | "if" => ifStatement g
  | "while" => whileStatement g
  | "do" => doStatement g
  | "for" => forStatement g
  | "foreach" => foreachStatement g
  | "switch" => switchStatement g
  | "try" => tryStatement g
  | "return" => wordStatement g .returnStatement
  | "break" => wordStatement g .breakStatement
  | "continue" => wordStatement g .continueStatement
  | "echo" => wordStatement g .echoStatement
  | "goto" => wordStatement g .gotoStatement
  | "exit" => exitStatement g
  | "unset" => if next.isMark "(" then unsetStatement g else expressionStatement g
  | "global" => globalDeclaration g
  | "static" => if next.lexeme = .variable then staticDeclaration g else expressionStatement g
  | "const" => constDeclaration g []
  | "declare" => declareStatement g
  | "namespace" => if next.isMark "\\" then expressionStatement g else namespaceDefinition g
  | "use" => namespaceUse
  | "function" =>
    if named || (next.isMark "&" && (← ahead 2).lexeme = .word) then functionDefinition g []
    else expressionStatement g
  | "abstract" | "final" | "readonly" =>
    if ← atModifiedClass then do classDeclaration g (← modifiers (← remaining))
    else expressionStatement g
  | "class" | "interface" | "trait" | "enum" =>
    if named then classDeclaration g [] else expressionStatement g
  | _ => expressionStatement g

def attributedStatement (g : Grammar) : Reader Draft := do
  let about ← attributeGroups g
  if (← atKeyword "function") && !(← ahead 1).isMark "(" then functionDefinition g about
  else if (← atKeyword "function") || (← atKeyword "fn") || (← atKeyword "static") then
    let inner ← functionExpression g about
    return .node .expressionStatement ([inner] ++ (← semicolon))
  else do classDeclaration g (about ++ (← modifiers (← remaining)))

def statement (g : Grammar) : Reader Draft := do
  let t ← peek
  if t.isMark "\x7b" then compound g
  else if t.isMark "#[" then attributedStatement g
  else if t.lexeme = .word && (← ahead 1).isMark ":" then
    return .node .namedLabelStatement [← takeName, ← takeMark]
  else if t.isMark ";" then return .node .emptyStatement [← takeMark]
  else if t.lexeme = .word then keywordStatement g
  else expressionStatement g

def grammar : Nat → Grammar
  | 0 => .exhausted
  | n + 1 =>
    let g := grammar n
    { expression := expression g
      statement := statement g
      block := compound g
      members := memberList g .declarationList }

end QueryAudit.Php
