/-
  QueryAudit.Php.Grammar — reading tokens into trees

  The means of a reader that never fails: looking at the next tokens, taking them, and repeating.
  Expressions and statements nest in each other; a `Grammar` holds the readers for nested ones, so
  that each rule can be written down by itself and the knot is tied once, by depth.
-/

import QueryAudit.Php.Draft
import QueryAudit.Text.Case

namespace QueryAudit.Php

/-! ## Readers. -/

/-- A reader takes tokens from the front and builds a result. -/
abbrev Reader (α : Type) := StateM (List Token) α

def endToken : Token := ⟨.finish, "", 0, 0⟩

namespace Reader

def ahead (n : Nat) : Reader Token := do return (← get).getD n endToken

def peek : Reader Token := ahead 0

def take : Reader Token := do
  let t ← peek
  modify List.tail
  return t

def remaining : Reader Nat := do return (← get).length

end Reader

namespace Token

def isMark (t : Token) (text : String) : Bool := t.lexeme = .mark && t.text = text

/-- The spelling of a word in small letters, empty for other tokens. -/
def keyword (t : Token) : String := if t.lexeme = .word then Text.lower t.text else ""

def isKeyword (t : Token) (word : String) : Bool := t.lexeme = .word && t.keyword = word

end Token

open Reader

def atMark (text : String) : Reader Bool := do return (← peek).isMark text

def atKeyword (word : String) : Reader Bool := do return (← peek).isKeyword word

def takeMark : Reader Draft := do return .mark (← take)

def takeKeyword : Reader Draft := do
  let t ← take
  return .keyword t.keyword t

def mark? (text : String) : Reader (List Draft) := do
  if ← atMark text then return [← takeMark] else return []

def keyword? (word : String) : Reader (List Draft) := do
  if ← atKeyword word then return [← takeKeyword] else return []

def takeName : Reader Draft := do return .leaf .name (← take)

/-- Read items until a condition holds or the tokens end; every round takes a token at least. -/
def repeatUntil (stop : Token → Bool) (item : Reader (List Draft)) : Reader (List Draft) := do
  go (← remaining)
where
  go : Nat → Reader (List Draft)
    | 0 => return []
    | n + 1 => do
      let t ← peek
      if t.lexeme = .finish || stop t then return []
      let before ← remaining
      let found ← item
      let found ← if (← remaining) < before then pure found
        else do return found ++ [.node .error [← takeMark]]
      return found ++ (← go n)

/-- Read items with commas between them, the last comma optional, up to a closing mark. -/
def commaList (close : String) (item : Reader (List Draft)) : Reader (List Draft) :=
  repeatUntil (·.isMark close) do
    if ← atMark "," then return [← takeMark] else item

/-- What ends a statement: a semicolon, or leaving PHP code, which has no text. -/
def semicolon : Reader (List Draft) := do
  let t ← peek
  if t.isMark ";" then return [← takeMark]
  if t.lexeme = .gap then
    let _ ← take
  return []

/-! ## The knot. -/

structure Grammar where
  /-- An expression whose operators bind at least as tightly as a level. -/
  expression : Nat → Reader Draft
  statement : Reader Draft
  block : Reader Draft
  members : Reader Draft

def Grammar.exhausted : Grammar :=
  let stray : Reader Draft := do return .node .error [← takeMark]
  ⟨fun _ => stray, stray, stray, stray⟩

/-! ## Names, variables and types. -/

def variableOf (t : Token) : Draft :=
  .node .variableName
    [⟨.token "$", false, none, t.start, t.start + 1, []⟩,
     ⟨.name, true, none, t.start + 1, t.stop, []⟩]

def takeVariable : Reader Draft := do return variableOf (← take)

/-- A name with its namespace from the words and separators it is made of. -/
def qualified (leading : List Draft) (words : List (Draft × Draft)) (last : Draft) : Draft :=
  let path := words.flatMap fun (word, separator) => [word, separator]
  let space := if path.isEmpty then []
    else [(Draft.node .namespaceName path.dropLast).playing "prefix",
      (path.getLast?.getD last).playing "prefix"]
  match leading ++ space with
  | [] => last
  | before => .node .qualifiedName (before ++ [last])

def nameSegments : Nat → List (Draft × Draft) → Draft → Reader (List (Draft × Draft) × Draft)
  | 0, words, last => return (words, last)
  | n + 1, words, last => do
    if (← peek).isMark "\\" && (← ahead 1).lexeme = .word then
      let separator ← takeMark
      nameSegments n (words ++ [(last, separator)]) (← takeName)
    else return (words, last)

def qualifiedName : Reader Draft := do
  let leading := (← mark? "\\").map (·.playing "prefix")
  let first ← takeName
  let (words, last) ← nameSegments (← remaining) [] first
  return qualified leading words last

def primitiveTypes : List String :=
  ["array", "bool", "callable", "false", "float", "int", "iterable", "mixed", "never", "null",
   "string", "true", "void"]

def simpleType : Reader Draft := do
  let t ← peek
  if primitiveTypes.contains t.keyword then return .node .primitiveType [← takeKeyword]
  else return .node .namedType [← qualifiedName]

def typeMembers (between : String) : Nat → Reader (List Draft)
  | 0 => return []
  | n + 1 => do
    let next ← ahead 1
    if (← atMark between) && (next.lexeme = .word || next.isMark "\\") then
      let separator ← takeMark
      let member ← simpleType
      return separator :: member :: (← typeMembers between n)
    else return []

def typeName : Reader Draft := do
  if ← atMark "?" then
    let question ← takeMark
    return .node .optionalType [question, ← simpleType]
  let first ← simpleType
  let n ← remaining
  let union ← typeMembers "|" n
  if !union.isEmpty then return .node .unionType (first :: union)
  let both ← typeMembers "&" n
  if !both.isEmpty then return .node .intersectionType (first :: both)
  return first

def atType : Reader Bool := do
  let t ← peek
  return t.lexeme = .word || t.isMark "?" || t.isMark "\\"

end QueryAudit.Php
