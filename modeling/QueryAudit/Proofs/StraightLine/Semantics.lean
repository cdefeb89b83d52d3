/-
  QueryAudit.Proofs.StraightLine.Semantics — running straight-line code

  Functions whose code only stores texts into variables, run forwards on the trees that the parser
  gives; nothing here knows of scopes, bindings or samples. Every statement stands on lines of its
  own. Parameters hold the texts that stand for unknown arguments.

  Main results: the definitions `Evaluates`, `Runs` and `Program`.
-/

import Mathlib.Data.List.Forall2
import QueryAudit.Proofs.Php.Escape
import QueryAudit.Proofs.Php.Tree
import QueryAudit.Sample.Taint
import QueryAudit.Text.Case

namespace QueryAudit.StraightLine

open Php Sample Text

/-! ## Expressions. -/

/-- What variables hold, the latest assignment first. -/
abbrev Memory := List (String × String)

/-- The text that a piece of a double-quoted string gives. -/
inductive PieceValue (memory : Memory) : Node → String → Prop
  | content {n : Node} : n.kind = .stringContent → n.named = true → PieceValue memory n n.text
  | escape {n : Node} {c : Char} : n.kind = .escapeSequence → n.named = true →
      EscapeValue n.text.toList c → PieceValue memory n (String.singleton c)
  | read {n : Node} {value : String} : n.kind = .variableName → n.named = true →
      memory.lookup n.text = some value → PieceValue memory n value
  | mark {n : Node} {mark : String} : n.kind = .token mark → n.named = false →
      PieceValue memory n ""

inductive Evaluates (memory : Memory) : Node → String → Prop
  /-- A single-quoted string, which may have a mark for binary strings in front. -/
  | quoted {n : Node} {mark body : List Char} : n.kind = .string → mark ∈ [[], ['b'], ['B']] →
      n.text.toList = mark ++ '\'' :: body ++ ['\''] → '\x00' ∉ body →
      Evaluates memory n (String.ofList (unquote body))
  | template {n : Node} {values : List String} : n.kind = .encapsedString →
      List.Forall₂ (PieceValue memory) n.children values →
      Evaluates memory n (joinWith "" values)
  | read {n : Node} {value : String} : n.kind = .variableName → n.named = true →
      memory.lookup n.text = some value → Evaluates memory n value
  | parenthesized {n inner : Node} {value : String} : n.kind = .parenthesizedExpression →
      n.parts.getLast? = some inner → Evaluates memory inner value → Evaluates memory n value
  | concat {n operator left right : Node} {a b : String} : n.kind = .binaryExpression →
      n.inRole? "operator" = some operator → operator.text = "." →
      n.inRole? "left" = some left → n.inRole? "right" = some right →
      Evaluates memory left a → Evaluates memory right b → Evaluates memory n (a ++ b)

/-! ## Statements. -/

def isPlain (n : Node) : Bool :=
  match n.kind with
  | .classDeclaration | .traitDeclaration | .interfaceDeclaration | .methodDeclaration
  | .functionDefinition | .assignmentExpression | .referenceAssignmentExpression
  | .augmentedAssignmentExpression | .foreachStatement | .constDeclaration
  | .propertyDeclaration => false
  | .functionCallExpression => (n.inRole? "function").all fun f => lower f.text ≠ "define"
  | _ => true

def Plain (n : Node) : Prop := n.all isPlain = true

def onLines (first next : Nat) (n : Node) : Bool := first ≤ n.line && n.line < next

/-- A statement stores the value of an expression into a variable, in place of what the variable
held or after it. -/
structure Stores (statement store : Node) (appends : Bool) (name : String) (value : Node) :
    Prop where
  statement_named : statement.named = true
  statement_plain : isPlain statement = true
  statement_children : ∃ before after, statement.children = before ++ store :: after
    ∧ ∀ n ∈ before ++ after, Plain n
  named : store.named = true
  kind : store.kind = if appends then .augmentedAssignmentExpression else .assignmentExpression
  operator : appends = true → ∃ operator, store.inRole? "operator" = some operator
    ∧ operator.text = ".="
  left : ∃ target, store.inRole? "left" = some target ∧ target.kind = .variableName
    ∧ target.text = name
  right : store.inRole? "right" = some value
  plain : ∀ n ∈ store.children, Plain n

def stored (memory : Memory) (appends : Bool) (name value : String) : String :=
  if appends then (memory.lookup name).getD "" ++ value else value

/-- What variables hold after a list of statements that start on a line or below it, and the line
from which on the code after them stands. -/
inductive Runs : Memory → Nat → List Node → Memory → Nat → Prop
  | done {memory : Memory} {line : Nat} : Runs memory line [] memory line
  | skip {memory after : Memory} {line last : Nat} {n : Node} {rest : List Node} : Plain n →
      Runs memory line rest after last → Runs memory line (n :: rest) after last
  /-- A statement that stores, with its expression above the lines of what follows. -/
  | store {memory after : Memory} {line next last : Nat} {n assignment expr : Node}
      {appends : Bool} {name value : String} {rest : List Node} :
      Stores n assignment appends name expr → line ≤ assignment.line →
      assignment.line < next → expr.all (onLines assignment.line next) = true →
      Evaluates memory expr value →
      Runs ((name, stored memory appends name value) :: memory) next rest after last →
      Runs memory line (n :: rest) after last

/-! ## Functions. -/

def parameterName? (parameter : Node) : Option String :=
  if parameter.kind = .simpleParameter ∨ parameter.kind = .variadicParameter then
    ((parameter.inRole? "name").or (parameter.ofKind? .variableName)).map Node.text
  else none

def parameterNames? (function : Node) : Option (List String) :=
  match (function.inRole? "parameters").or (function.ofKind? .formalParameters) with
  | none => some []
  | some list => list.parts.mapM parameterName?

/-- What variables hold when a function is called: the text of an unknown argument in each
parameter. -/
def initialMemory (parameters : List String) : Memory :=
  (parameters.map fun parameter => (parameter, tainted .param parameter)).reverse

/-- A file whose only code is a function that stores into variables and ends in a call. -/
structure Program where
  root : Node
  leading : List Node
  function : Node
  trailing : List Node
  heading : List Node
  body : Node
  ending : List Node
  code : List Node
  call : Node
  rest : List Node
  parameters : List String
  memory : Memory
  line : Nat
  root_kind : root.kind = .program
  root_children : root.children = leading ++ function :: trailing
  function_kind : function.kind = .functionDefinition
  function_named : function.named = true
  function_children : function.children = heading ++ body :: ending
  body_named : body.named = true
  body_plain : isPlain body = true
  body_children : body.children = code ++ call :: rest
  call_named : call.named = true
  call_below : call.all (fun n => line ≤ n.line) = true
  plain : ∀ n ∈ leading ++ trailing ++ (heading ++ ending) ++ call :: rest, Plain n
  declares : parameterNames? function = some parameters
  runs : Runs (initialMemory parameters) function.line code memory line

def Program.name (p : Program) : String := p.function.nameText

def Program.scope (p : Program) : List (Nat × Node) :=
  [(p.heading.length, p.function), (p.leading.length, p.root)]

def Program.place (p : Program) : List (Nat × Node) := (p.code.length, p.body) :: p.scope

end QueryAudit.StraightLine
