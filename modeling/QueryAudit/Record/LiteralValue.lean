/-
  QueryAudit.Record.LiteralValue — literal values of accessors

  The value of an expression that is made of literals, concatenation, some built-in functions and
  constants of classes. Anything else has no literal value; code is never run.
-/

import QueryAudit.Intrinsic.Call
import QueryAudit.Record.Locator

namespace QueryAudit.Record

open Php Text

/-! ## Return statements. -/

/-- The return statements of a body, those in bodies of conditionals included and those in other
branches not. The count bounds the nesting. -/
def returnsIn : Nat → Cursor → List Cursor
  | 0, _ => []
  | n + 1, body => body.parts.flatMap fun child =>
    if child.kind = .returnStatement then [child]
    else if child.kind.isBlock then returnsIn n child
    else if child.kind = .ifStatement then
      match child.inRole? "body" with
      | none => []
      | some inner =>
        if inner.kind = .returnStatement then [inner]
        else if inner.kind.isBlock then returnsIn n inner
        else []
    else []

def collectReturns (body : Cursor) : List Cursor := returnsIn body.node.size body

/-! ## Values. -/

/-- What an expression is evaluated in: its class, whether application components count, and the
constants being evaluated. -/
structure LiteralContext where
  owner : ClassDecl
  app : Bool := false
  pending : List (String × String) := []

/-- An evaluator of nested expressions. -/
abbrev Evaluator := LiteralContext → Cursor → Audit (Option String)

def allValues (value : Cursor → Audit (Option String)) : List Cursor → Audit (Option (List String))
  | [] => return some []
  | node :: rest => do
    match ← value node with
    | none => return none
    | some first => return (← allValues value rest).map (first :: ·)

/-- The values of an expression: one for each element of an array literal, one for the rest. -/
def valuesWith (value : Cursor → Audit (Option String)) (node : Cursor) :
    Audit (Option (List String)) := do
  if node.kind = .arrayCreationExpression then allValues value ((arrayElements node).map Prod.snd)
  else return (← value node).map ([·])

def argumentsWith (value : Cursor → Audit (Option String)) :
    List Cursor → Audit (Option (List Intrinsic.Argument))
  | [] => return some []
  | node :: rest => do
    match ← valuesWith value node with
    | none => return none
    | some found =>
      let first := if node.kind = .arrayCreationExpression then Intrinsic.Argument.list found
        else .text (found.head?.getD "")
      return (← argumentsWith value rest).map (first :: ·)

def functionWith (value : Cursor → Audit (Option String)) (node : Cursor) :
    Audit (Option String) := do
  let name := ((node.inRole? "function").map fun f => lower (shortClassName f.text)).getD ""
  if !Intrinsic.literalFunctions.contains name then return none
  match ← argumentsWith value (callArguments node) with
  | none => return none
  | some args =>
    match Intrinsic.call name args with
    | .ok text => return some text
    | .error (.rejected _) => return none
    | .error fault => throw (.intrinsic fault)

def classNamed? (name : Option String) (file : String) : Audit (Option ClassDecl) :=
  match name.filter (· ≠ "") with
  | none => return none
  | some name => Audit.findClass name file

def constantOwner? (context : LiteralContext) (scope : String) : Audit (Option ClassDecl) :=
  match lower scope with
  | "self" | "static" => return some context.owner
  | "parent" => classNamed? context.owner.parentName context.owner.file
  | _ => classNamed? (some scope) context.owner.file

/-- The nearest class from a class upwards that declares a constant, with its expression. The keys
of classes passed so far are given, and the count bounds the walk. -/
def declaringClass? (name : String) :
    Nat → List String → Option ClassDecl → Audit (Option (ClassDecl × Cursor))
  | 0, _, _ => return none
  | _, _, none => return none
  | n + 1, seen, some d => do
    if seen.contains d.key then return none
    match d.constants.get? name with
    | some node => return some (d, node)
    | none => declaringClass? name n (d.key :: seen) (← classNamed? d.parentName d.file)

/-- The value of a class constant. A constant that depends on itself has none. -/
def constantWith (value : Evaluator) (context : LiteralContext) (node : Cursor) :
    Audit (Option String) := do
  match node.parts with
  | first :: second :: rest =>
    let name := ((rest.getLast?).getD second).text
    if name = "class" then return none
    let owner ← constantOwner? context first.text
    match ← declaringClass? name (← get).ancestry [] owner with
    | none => return none
    | some (d, expr) =>
      let mark := (d.key, name)
      if context.pending.contains mark then return none
      value { owner := d, pending := mark :: context.pending } expr
  | _ => return none

def appComponent? (node : Cursor) : Option String :=
  match node.inRole? "object", node.inRole? "name" with
  | some object, some name =>
    if object.kind ≠ .scopedCallExpression then none
    else match object.inRole? "scope", object.inRole? "name" with
      | some scope, some method =>
        if lower (shortClassName scope.text) = "yii" && lower method.text = "app" then some name.text
        else none
      | _, _ => none
  | _, _ => none

def operandWith (value : Cursor → Audit (Option String)) (node : Cursor) (role : String) :
    Audit (Option String) :=
  match node.inRole? role with
  | some inner => value inner
  | none => throw .absent

/-- The literal value of an expression, if it has one. The count bounds the depth. -/
def literalFrom : Nat → Evaluator
  | 0, _, _ => throw .endless
  | n + 1, context, node => do
    match ← Audit.unescaped (literalValue? node) with
    | some text => return some text
    | none =>
      match node.kind with
      | .integer | .float => return some node.text
      | .parenthesizedExpression =>
        match node.parts.head? with
        | some inner => literalFrom n context inner
        | none => return none
      | .binaryExpression =>
        if ((node.inRole? "operator").map Cursor.text) ≠ some "." then return none
        let left ← operandWith (literalFrom n context) node "left"
        let right ← operandWith (literalFrom n context) node "right"
        match left, right with
        | some a, some b => return some (a ++ b)
        | _, _ => return none
      | .functionCallExpression => functionWith (literalFrom n context) node
      | .classConstantAccessExpression => constantWith (literalFrom n) context node
      | .memberAccessExpression => return if context.app then appComponent? node else none
      | _ => return none

/-- A bound on the depth of an evaluation: every constant is entered once, and an expression is no
deeper than its file is long. -/
def literalDepth (extent : Nat) : Nat := (4 * extent + 4) * (4 * extent + 4)

def literalOf (context : LiteralContext) (node : Cursor) : Audit (Option String) := do
  literalFrom (literalDepth (← get).extent) context node

def literalValues (context : LiteralContext) (node : Cursor) : Audit (Option (List String)) :=
  valuesWith (literalOf context) node

end QueryAudit.Record
