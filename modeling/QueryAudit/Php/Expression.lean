/-
  QueryAudit.Php.Expression — reading expressions

  Operators by level, literals with interpolation, arrays and patterns, calls and member accesses.
  An assignment binds its target whatever operator stands before it. A few malformed shapes are
  read as well: an operand that is not there leaves its operator as an error.
-/

import QueryAudit.Php.Grammar

namespace QueryAudit.Php

open Reader

/-! ## Operators. -/

def assignmentLevel : Nat := 4

def conditionalLevel : Nat := 5

def negationLevel : Nat := 19

def tightLevel : Nat := 21

def operandLevel : Nat := 30

/-- The level of a binary operator, and whether it groups to the right. -/
def binaryLevel? (t : Token) : Option (Nat × Bool) :=
  match t.lexeme with
  | .word =>
    match t.keyword with
    | "or" => some (1, false)
    | "xor" => some (2, false)
    | "and" => some (3, false)
    | "instanceof" => some (20, false)
    | _ => none
  | .mark =>
    match t.text with
    | "??" => some (6, true)
    | "||" => some (7, false)
    | "&&" => some (8, false)
    | "|" => some (9, false)
    | "^" => some (10, false)
    | "&" => some (11, false)
    | "==" | "!=" | "<>" | "===" | "!==" | "<=>" => some (12, false)
    | "<" | ">" | "<=" | ">=" => some (13, false)
    | "." => some (14, false)
    | "<<" | ">>" => some (15, false)
    | "+" | "-" => some (16, false)
    | "*" | "/" | "%" => some (17, false)
    | "**" => some (18, true)
    | _ => none
  | _ => none

def isAugmented (t : Token) : Bool :=
  t.lexeme = .mark &&
    ["**=", "*=", "/=", "%=", "+=", "-=", ".=", "<<=", ">>=", "&=", "^=", "|=", "??="].contains t.text

def castTypes : List String :=
  ["array", "binary", "bool", "boolean", "double", "int", "integer", "float", "object", "real",
   "string", "unset"]

def isTarget : Kind → Bool
  | .variableName | .dynamicVariableName | .subscriptExpression | .memberAccessExpression
  | .nullsafeMemberAccessExpression | .scopedPropertyAccessExpression | .functionCallExpression
  | .memberCallExpression | .nullsafeMemberCallExpression | .scopedCallExpression
  | .listLiteral => true
  | _ => false

def isAtom : Kind → Bool
  | .integer | .float | .boolean | .null | .heredoc | .nowdoc | .updateExpression => true
  | _ => false

/-! ## String literals. -/

/-- A variable whose name is computed: an expression between braces after a dollar sign, or a
variable after it. -/
def dynamicVariable (g : Grammar) : Reader Draft := do
  go (← remaining)
where
  go : Nat → Reader Draft
    | 0 => do return .node .error [← takeMark]
    | n + 1 => do
      let dollar ← takeMark
      if ← atMark "\x7b" then
        let opening ← takeMark
        let inner ← g.expression 0
        return .node .dynamicVariableName ([dollar, opening, inner] ++ (← mark? "\x7d"))
      else if ← atMark "$" then return .node .dynamicVariableName [dollar, ← go n]
      else if (← peek).lexeme = .variable then
        return .node .dynamicVariableName [dollar, ← takeVariable]
      else return .node .error [dollar]

def simpleIndex : Reader Draft := do
  let t ← peek
  match t.lexeme with
  | .variable => takeVariable
  | .integer => return .leaf .integer (← take)
  | .mark =>
    let sign ← takeMark
    return .node .unaryOpExpression [sign, .leaf .integer (← take)]
  | _ => takeName

/-- A variable inside a string with the one index or property it may have. -/
def simpleInterpolation : Reader Draft := do
  let base ← takeVariable
  let t ← peek
  if t.isMark "[" then
    let opening ← takeMark
    let index ← simpleIndex
    return .node .subscriptExpression ([base, opening, index] ++ (← mark? "]"))
  else if t.isMark "->" || t.isMark "?->" then
    let arrow ← takeMark
    let name ← takeName
    return .node (if t.isMark "->" then .memberAccessExpression else .nullsafeMemberAccessExpression)
      [base.playing "object", arrow, name.playing "name"]
  else return base

def stringPiece (g : Grammar) : Reader (List Draft) := do
  let t ← peek
  match t.lexeme with
  | .content => return [.leaf .stringContent (← take)]
  | .escape => return [.leaf .escapeSequence (← take)]
  | .nowdocLine => return [.leaf .nowdocString (← take)]
  | .variable => return [← simpleInterpolation]
  | .mark =>
    if t.text = "$" then return [← dynamicVariable g]
    else
      let opening ← takeMark
      let inner ← g.expression 0
      return [opening, inner] ++ (← mark? "\x7d")
  | _ => return [.mark (← take)]

/-- A string between quotes. An opening quote with a binary marker has no node of its own. -/
def quotedString (g : Grammar) : Reader Draft := do
  let opening ← take
  let pieces ← repeatUntil (·.lexeme = .quote) (stringPiece g)
  let closing ← take
  let kind := match opening.text.toList.getLast? with
    | some '\'' => Kind.string
    | some '\x60' => .shellCommandExpression
    | _ => .encapsedString
  let shown := if opening.lexeme = .quote then [Draft.mark opening] else []
  return { Draft.node kind (shown ++ pieces ++ [Draft.mark closing]) with start := opening.start }

def heredocString (g : Grammar) : Reader Draft := do
  let opening ← takeMark
  let t ← peek
  let before ← if t.lexeme = .mark then do pure [← takeMark] else pure []
  let label := (Draft.leaf .heredocStart (← take)).playing "identifier"
  let after ← if t.lexeme = .mark then do pure [← takeMark] else pure []
  let pieces ← repeatUntil (·.lexeme = .heredocEnd) (stringPiece g)
  let closing := (Draft.leaf .heredocEnd (← take)).playing "end_tag"
  let plain := t.isMark "'"
  let body := if pieces.isEmpty then []
    else [(Draft.node (if plain then .nowdocBody else .heredocBody) pieces).playing "value"]
  return .node (if plain then .nowdoc else .heredoc)
    ([opening] ++ before ++ [label] ++ after ++ body ++ [closing])

/-! ## Arrays and patterns. -/

def byReference (g : Grammar) : Reader Draft := do
  let ampersand ← takeMark
  return .node .byRef [ampersand, ← g.expression operandLevel]

def arrayValue (g : Grammar) : Reader Draft := do
  if ← atMark "&" then byReference g else g.expression 0

def arrayElement (g : Grammar) : Reader Draft := do
  if ← atMark "..." then
    let dots ← takeMark
    return .node .arrayElementInitializer [.node .variadicUnpacking [dots, ← g.expression 0]]
  let first ← arrayValue g
  if ← atMark "=>" then
    let arrow ← takeMark
    return .node .arrayElementInitializer [first, arrow, ← arrayValue g]
  else return .node .arrayElementInitializer [first]

/-- The tokens after the mark that closes the brackets open at the start. -/
def afterClosing : Nat → List Token → List Token
  | _, [] => []
  | depth, t :: rest =>
    if t.lexeme = .mark && ["(", "[", "\x7b"].contains t.text then afterClosing (depth + 1) rest
    else if t.lexeme = .mark && [")", "]", "\x7d"].contains t.text then
      if depth ≤ 1 then rest else afterClosing (depth - 1) rest
    else afterClosing depth rest

/-- Whether the brackets that open next are a pattern, which has a single equals sign after it. -/
def atPattern : Reader Bool := do
  return (((afterClosing 0 (← get)).head?.map (·.isMark "=")).getD false)

def patternTarget (g : Grammar) (nested : Reader Draft) : Reader Draft := do
  let t ← peek
  if t.isMark "&" then byReference g
  else if t.isMark "[" || (t.isKeyword "list" && (← ahead 1).isMark "(") then nested
  else g.expression operandLevel

/-- One slot of a pattern: a target, or a key, an arrow and a target. -/
def patternSlot (g : Grammar) (nested : Reader Draft) : Reader (List Draft) := do
  let t ← peek
  let first ← if t.isMark "&" || t.isMark "[" || t.isKeyword "list" then patternTarget g nested
    else g.expression 0
  if ← atMark "=>" then
    let arrow ← takeMark
    return [first, arrow, ← patternTarget g nested]
  else return [first]

/-- A pattern that takes an array apart, nested at most as deep as the count. -/
def pattern (g : Grammar) : Nat → Reader Draft
  | 0 => do return .node .error [← takeMark]
  | n + 1 => do
    let word ← keyword? "list"
    let opening ← takeMark
    let close := if word.isEmpty then "]" else ")"
    let slots ← commaList close (patternSlot g (pattern g n))
    return .node .listLiteral (word ++ [opening] ++ slots ++ (← mark? close))

def arrayLiteral (g : Grammar) : Reader Draft := do
  let word ← keyword? "array"
  let opening ← takeMark
  let close := if word.isEmpty then "]" else ")"
  let elements ← commaList close do return [← arrayElement g]
  return .node .arrayCreationExpression (word ++ [opening] ++ elements ++ (← mark? close))

/-! ## Arguments and parameters. -/

/-- One argument of a call. A bracket that nothing follows, and a token that continues no
argument, are errors. -/
def argument (g : Grammar) : Reader (List Draft) := do
  let t ← peek
  let next ← ahead 1
  if t.isMark "..." then
    if next.isMark ")" then return [.node .variadicPlaceholder [← takeMark]]
    let dots ← takeMark
    return [.node .argument [.node .variadicUnpacking [dots, ← g.expression 0]]]
  if t.isMark "[" && next.isMark ")" then return [.node .error [← takeMark]]
  let name ← if t.lexeme = .word && next.isMark ":" then do
      let name ← takeName
      pure [name.playing "name", ← takeMark]
    else pure []
  let value ← arrayValue g
  let found := Draft.node .argument (name ++ [value])
  let after ← peek
  if after.isMark "," || after.isMark ")" || after.lexeme = .finish then return [found]
  else return [found, .node .error [← takeMark]]

def arguments (g : Grammar) : Reader Draft := do
  let opening ← takeMark
  let items ← commaList ")" (argument g)
  return .node .arguments ([opening] ++ items ++ (← mark? ")"))

def initializer (g : Grammar) (role : String) : Reader (List Draft) := do
  if ← atMark "=" then
    let equals ← takeMark
    return [equals, (← g.expression assignmentLevel).playing role]
  else return []

def referenceModifier : Reader (List Draft) := do
  if ← atMark "&" then return [.node .referenceModifier [← takeMark]] else return []

def promotion : Nat → Reader (List Draft)
  | 0 => return []
  | n + 1 => do
    let t ← peek
    if ["public", "protected", "private"].contains t.keyword then
      let modifier := (Draft.node .visibilityModifier [← takeKeyword]).playing "visibility"
      return modifier :: (← promotion n)
    else if t.keyword = "readonly" then
      let modifier := (Draft.node .readonlyModifier [← takeKeyword]).playing "readonly"
      return modifier :: (← promotion n)
    else return []

/-- One attribute of a declaration: a name, with or without arguments. -/
def attributeItem (g : Grammar) : Reader (List Draft) := do
  let name ← qualifiedName
  let args ← if ← atMark "(" then do pure [(← arguments g).playing "parameters"] else pure []
  return [.node .attributeItem (name :: args)]

def attributeGroups (g : Grammar) : Reader (List Draft) := do
  let groups ← repeatUntil (fun t => !t.isMark "#[") do
    let opening ← takeMark
    let items ← commaList "]" (attributeItem g)
    return [.node .attributeGroup ([opening] ++ items ++ (← mark? "]"))]
  return if groups.isEmpty then [] else [(Draft.node .attributeList groups).playing "attributes"]

def parameter (g : Grammar) : Reader (List Draft) := do
  let about ← attributeGroups g
  let promoted ← promotion 3
  let type ← if ← atType then do pure [(← typeName).playing "type"] else pure []
  let reference := (← referenceModifier).map (·.playing "reference_modifier")
  let dots ← mark? "..."
  let name := (← takeVariable).playing "name"
  let start ← initializer g "default_value"
  let kind := if !promoted.isEmpty then Kind.propertyPromotionParameter
    else if !dots.isEmpty then .variadicParameter else .simpleParameter
  return [.node kind (about ++ promoted ++ type ++ reference ++ dots ++ [name] ++ start)]

def parameters (g : Grammar) : Reader Draft := do
  let opening ← takeMark
  let items ← commaList ")" (parameter g)
  return .node .formalParameters ([opening] ++ items ++ (← mark? ")"))

def resultType : Reader (List Draft) := do
  if ← atMark ":" then
    let colon ← takeMark
    return [colon, (← typeName).playing "return_type"]
  else return []

/-! ## Functions without names, and selections. -/

def anonymousFunction (g : Grammar) (modifiers : List Draft) : Reader Draft := do
  let word ← takeKeyword
  let reference ← referenceModifier
  let params := (← parameters g).playing "parameters"
  let captured ← if ← atKeyword "use" then do
      let useWord ← takeKeyword
      let opening ← takeMark
      let items ← commaList ")" do
        if ← atMark "&" then return [← byReference g] else return [← takeVariable]
      pure [Draft.node .anonymousFunctionUseClause ([useWord, opening] ++ items ++ (← mark? ")"))]
    else pure []
  let result ← resultType
  let body := (← g.block).playing "body"
  return .node .anonymousFunction
    (modifiers ++ [word] ++ reference ++ [params] ++ captured ++ result ++ [body])

def arrowFunction (g : Grammar) (modifiers : List Draft) : Reader Draft := do
  let word ← takeKeyword
  let reference ← referenceModifier
  let params := (← parameters g).playing "parameters"
  let result ← resultType
  let arrow ← mark? "=>"
  let body := (← g.expression 0).playing "body"
  return .node .arrowFunction (modifiers ++ [word] ++ reference ++ [params] ++ result ++ arrow ++ [body])

def functionExpression (g : Grammar) (about : List Draft) : Reader Draft := do
  let fixed ← if ← atKeyword "static" then do
      pure [(Draft.node .staticModifier [← takeKeyword]).playing "static_modifier"]
    else pure []
  if ← atKeyword "fn" then arrowFunction g (about ++ fixed)
  else anonymousFunction g (about ++ fixed)

def parenthesized (g : Grammar) : Reader Draft := do
  let opening ← takeMark
  let inner ← g.expression 0
  return .node .parenthesizedExpression ([opening, inner] ++ (← mark? ")"))

def matchArm (g : Grammar) : Reader (List Draft) := do
  if ← atKeyword "default" then
    let word ← takeKeyword
    let arrow ← mark? "=>"
    return [.node .matchDefaultExpression ([word] ++ arrow ++ [(← g.expression 0).playing "return_expression"])]
  let conditions ← commaList "=>" do return [← g.expression 0]
  let arrow ← mark? "=>"
  return [.node .matchConditionalExpression
    ([(Draft.node .matchConditionList conditions).playing "conditional_expressions"] ++ arrow ++
      [(← g.expression 0).playing "return_expression"])]

def matchSelection (g : Grammar) : Reader Draft := do
  let word ← takeKeyword
  let condition := (← parenthesized g).playing "condition"
  let opening ← takeMark
  let arms ← commaList "\x7d" (matchArm g)
  let block := Draft.node .matchBlock ([opening] ++ arms ++ (← mark? "\x7d"))
  return .node .matchExpression [word, condition, block.playing "body"]

/-! ## Objects. -/

def baseClause : Reader (List Draft) := do
  if ← atKeyword "extends" then
    let word ← takeKeyword
    if ← atMark "\x7b" then return [.node .error [word]]
    let names ← repeatUntil (fun t => !(t.lexeme = .word && t.keyword ≠ "implements")
        && !t.isMark "\\" && !t.isMark ",") do
      if ← atMark "," then return [← takeMark] else return [← qualifiedName]
    return [.node .baseClause (word :: names)]
  else return []

def interfaceClause : Reader (List Draft) := do
  if ← atKeyword "implements" then
    let word ← takeKeyword
    let names ← repeatUntil (·.isMark "\x7b") do
      if ← atMark "," then return [← takeMark] else return [← qualifiedName]
    return [.node .classInterfaceClause (word :: names)]
  else return []

/-- The class of a new object: a name, a variable with properties, or an expression. -/
def classReference (g : Grammar) : Nat → Draft → Reader Draft
  | 0, base => return base
  | n + 1, base => do
    let t ← peek
    if (t.isMark "->" || t.isMark "?->") && (← ahead 1).lexeme = .word then
      let arrow ← takeMark
      let name := (← takeName).playing "name"
      let kind := if t.isMark "->" then Kind.memberAccessExpression
        else .nullsafeMemberAccessExpression
      classReference g n (.node kind [base.playing "object", arrow, name])
    else if t.isMark "::" && (← ahead 1).lexeme = .variable then
      let colons ← takeMark
      let name := (← takeVariable).playing "name"
      classReference g n (.node .scopedPropertyAccessExpression [base.playing "scope", colons, name])
    else if t.isMark "[" then
      let opening ← takeMark
      let index ← g.expression 0
      classReference g n (.node .subscriptExpression ([base, opening, index] ++ (← mark? "]")))
    else return base

def arguments? (g : Grammar) : Reader (List Draft) := do
  if ← atMark "(" then return [← arguments g] else return []

/-- A class without a name, written where an object of it is created. -/
def anonymousClass (g : Grammar) : Reader Draft := do
  let word ← takeKeyword
  let args ← arguments? g
  let base ← baseClause
  let interfaces ← interfaceClause
  let body := (← g.members).playing "body"
  return .node .anonymousClass ([word] ++ args ++ base ++ interfaces ++ [body])

def createdClass (g : Grammar) : Reader Draft := do
  let t ← peek
  if t.lexeme = .variable then
    let base ← takeVariable
    classReference g (← remaining) base
  else if t.lexeme = .word || t.isMark "\\" then qualifiedName
  else if t.isMark "(" then parenthesized g
  else dynamicVariable g

def objectCreation (g : Grammar) : Reader Draft := do
  let word ← takeKeyword
  if ← atKeyword "class" then return .node .objectCreationExpression [word, ← anonymousClass g]
  let target ← createdClass g
  return .node .objectCreationExpression ([word, target] ++ (← arguments? g))

def memberName (g : Grammar) : Reader (List Draft) := do
  let t ← peek
  match t.lexeme with
  | .variable => return [(← takeVariable).playing "name"]
  | .word => return [(← takeName).playing "name"]
  | _ =>
    if t.isMark "\x7b" then
      let opening ← takeMark
      let name := (← g.expression 0).playing "name"
      return [opening, name] ++ (← mark? "\x7d")
    else if t.isMark "$" then return [(← dynamicVariable g).playing "name"]
    else return []

def objectMember (g : Grammar) (base : Draft) : Reader Draft := do
  let nullsafe ← atMark "?->"
  let arrow ← takeMark
  let name ← memberName g
  let front := [base.playing "object", arrow] ++ name
  if ← atMark "(" then
    let args := (← arguments g).playing "arguments"
    return .node (if nullsafe then .nullsafeMemberCallExpression else .memberCallExpression)
      (front ++ [args])
  else return .node (if nullsafe then .nullsafeMemberAccessExpression else .memberAccessExpression) front

/-- A member of a class after two colons: called, a property, or a constant. A constant without a
name lacks it. -/
def classMember (g : Grammar) (base : Draft) : Reader Draft := do
  let colons ← takeMark
  let t ← peek
  let name ← memberName g
  if name.isEmpty then
    return .node .classConstantAccessExpression [base, colons, .missing .name true colons.stop]
  if ← atMark "(" then
    let args := (← arguments g).playing "arguments"
    return .node .scopedCallExpression ([base.playing "scope", colons] ++ name ++ [args])
  if t.lexeme = .variable || t.isMark "$" then
    return .node .scopedPropertyAccessExpression ([base.playing "scope", colons] ++ name)
  return .node .classConstantAccessExpression
    ([base, colons] ++ name.map fun d => { d with role := none })

/-! ## Operands. -/

def wordOperand (g : Grammar) : Reader Draft := do
  let t ← peek
  let next ← ahead 1
  let plain := !next.isMark "(" && !next.isMark "::" && !next.isMark "\\"
  match t.keyword with
  | "true" | "false" => if plain then return .leaf .boolean (← take) else qualifiedName
  | "null" => if plain then return .leaf .null (← take) else qualifiedName
  | "new" => objectCreation g
  | "clone" => do
    let word ← takeKeyword
    return .node .cloneExpression [word, ← g.expression operandLevel]
  | "print" => do
    let word ← takeKeyword
    return .node .printIntrinsic [word, ← g.expression 0]
  | "include" => prefixed .includeExpression
  | "include_once" => prefixed .includeOnceExpression
  | "require" => prefixed .requireExpression
  | "require_once" => prefixed .requireOnceExpression
  | "throw" => prefixed .throwExpression
  | "yield" => do
    let word ← takeKeyword
    let after ← peek
    if after.isKeyword "from" then
      let source ← takeKeyword
      return .node .yieldExpression [word, source, ← g.expression 0]
    if [";", ")", ",", "]"].any after.isMark then return .node .yieldExpression [word]
    return .node .yieldExpression [word, ← arrayElement g]
  | "function" => anonymousFunction g []
  | "fn" => if next.isMark "(" || next.isMark "&" then arrowFunction g [] else qualifiedName
  | "static" =>
    if next.isKeyword "function" || next.isKeyword "fn" then functionExpression g []
    else if next.isMark "::" then return .node .relativeScope [← takeKeyword]
    else qualifiedName
  | "self" | "parent" =>
    if next.isMark "::" then return .node .relativeScope [← takeKeyword] else qualifiedName
  | "array" => if next.isMark "(" then arrayLiteral g else qualifiedName
  | "list" => if next.isMark "(" then do pattern g (← remaining) else qualifiedName
  | "match" => if next.isMark "(" then matchSelection g else qualifiedName
  | _ => qualifiedName
where
  prefixed (kind : Kind) : Reader Draft := do
    let word ← takeKeyword
    return .node kind [word, ← g.expression 0]

def operand (g : Grammar) : Reader Draft := do
  let t ← peek
  match t.lexeme with
  | .variable => takeVariable
  | .integer => return .leaf .integer (← take)
  | .float => return .leaf .float (← take)
  | .word => wordOperand g
  | .quote | .binaryQuote => quotedString g
  | .mark =>
    match t.text with
    | "(" => parenthesized g
    | "[" => if ← atPattern then do pattern g (← remaining) else arrayLiteral g
    | "$" => dynamicVariable g
    | "\\" => qualifiedName
    | "<<<" => heredocString g
    | "&" => byReference g
    | "#[" => do functionExpression g (← attributeGroups g)
    | _ => return .node .error [← takeMark]
  | _ => return .node .error [← takeMark]

/-- Store a value into a target. A semicolon in place of the value is an error before it. -/
def assignment (g : Grammar) (target : Draft) : Reader Draft := do
  let left := target.playing "left"
  let t ← peek
  if t.isMark "=" then
    let equals ← takeMark
    if ← atMark "&" then
      let ampersand ← takeMark
      let right := (← g.expression assignmentLevel).playing "right"
      return .node .referenceAssignmentExpression [left, equals, ampersand, right]
    let stray ← mark? ";"
    let stray := if stray.isEmpty then [] else [Draft.node .error stray]
    let right := (← g.expression assignmentLevel).playing "right"
    return .node .assignmentExpression ([left, equals] ++ stray ++ [right])
  let operator := (← takeMark).playing "operator"
  let right := (← g.expression assignmentLevel).playing "right"
  return .node .augmentedAssignmentExpression [left, operator, right]

/-- Indexes, calls, members, counters and assignments after an operand. -/
def suffixes (g : Grammar) : Nat → Draft → Reader Draft
  | 0, base => return base
  | n + 1, base => do
    let t ← peek
    if t.lexeme ≠ .mark then return base
    if isTarget base.kind && (t.text = "=" || isAugmented t) then assignment g base
    else if isAtom base.kind then return base
    else match t.text with
      | "[" =>
        let opening ← takeMark
        let after ← peek
        if after.isMark "]" then
          suffixes g n (.node .subscriptExpression [base, opening, ← takeMark])
        else if after.isMark ")" then
          suffixes g n (.node .subscriptExpression
            [base, opening, .missing (.token "]") false opening.stop])
        else
          let index ← g.expression 0
          suffixes g n (.node .subscriptExpression ([base, opening, index] ++ (← mark? "]")))
      | "\x7b" =>
        let opening ← takeMark
        let index ← g.expression 0
        suffixes g n (.node .subscriptExpression ([base, opening, index] ++ (← mark? "\x7d")))
      | "->" | "?->" => do suffixes g n (← objectMember g base)
      | "::" => do suffixes g n (← classMember g base)
      | "(" =>
        let args := (← arguments g).playing "arguments"
        suffixes g n (.node .functionCallExpression [base.playing "function", args])
      | "++" | "--" =>
        if isTarget base.kind then
          return .node .updateExpression [base.playing "argument", (← takeMark).playing "operator"]
        else return base
      | _ => return base

/-- An operand with everything before and after it that binds tighter than any binary
operator. -/
def unary (g : Grammar) : Reader Draft := do
  let t ← peek
  if t.lexeme = .mark then
    match t.text with
    | "!" | "+" | "-" | "~" =>
      let operator := (← takeMark).playing "operator"
      return .node .unaryOpExpression [operator, (← g.expression negationLevel).playing "argument"]
    | "@" =>
      let sign ← takeMark
      return .node .errorSuppressionExpression [sign, ← g.expression tightLevel]
    | "++" | "--" =>
      let operator := (← takeMark).playing "operator"
      return .node .updateExpression [operator, (← g.expression operandLevel).playing "argument"]
    | "(" =>
      if castTypes.contains (← ahead 1).keyword && (← ahead 2).isMark ")" then
        let opening ← takeMark
        let type := (Draft.leaf .castType (← take)).playing "type"
        let closing ← takeMark
        let value := (← g.expression operandLevel).playing "value"
        return .node .castExpression [opening, type, closing, value]
      else suffixes g (← remaining) (← operand g)
    | _ => suffixes g (← remaining) (← operand g)
  else suffixes g (← remaining) (← operand g)

/-! ## Binary and conditional operators. -/

/-- Operators of at least a level after an expression. An operator that a closing parenthesis
follows is left where it is. -/
def operators (g : Grammar) (level : Nat) : Nat → Draft → Reader Draft
  | 0, left => return left
  | n + 1, left => do
    let t ← peek
    if t.isMark "?" && level ≤ conditionalLevel then
      let question ← takeMark
      let body ← if ← atMark ":" then pure [] else do pure [(← g.expression 0).playing "body"]
      let colon ← mark? ":"
      let other := (← g.expression (conditionalLevel + 1)).playing "alternative"
      operators g level n (.node .conditionalExpression
        ([left.playing "condition", question] ++ body ++ colon ++ [other]))
    else match binaryLevel? t with
      | none => return left
      | some (own, toRight) =>
        if own < level || (← ahead 1).isMark ")" then return left
        let operator ← if t.lexeme = .word then takeKeyword else takeMark
        let right := (← g.expression (if toRight then own else own + 1)).playing "right"
        operators g level n (.node .binaryExpression
          [left.playing "left", operator.playing "operator", right])

/-- An expression whose operators bind at least as tightly as a level. -/
def expression (g : Grammar) (level : Nat) : Reader Draft := do
  let first ← unary g
  operators g level (← remaining) first

def expressions (g : Grammar) : Reader Draft := do
  let first ← expression g 0
  let others ← more (← remaining)
  return if others.isEmpty then first else .node .sequenceExpression (first :: others)
where
  more : Nat → Reader (List Draft)
    | 0 => return []
    | n + 1 => do
      if ← atMark "," then
        let comma ← takeMark
        let next ← expression g 0
        return comma :: next :: (← more n)
      else return []

end QueryAudit.Php
