/-
  QueryAudit.Query.Receiver — what a call is made on

  A query call is made on a database component, or on something that stands for a record class.
  Both are followed through parentheses, chained calls and definitions, to a fixed depth.
-/

import QueryAudit.Record.Hierarchy
import QueryAudit.Scope.Store

namespace QueryAudit.Query

open Php Record Scope Text

/-! ## Record classes. -/

/-- How many steps are taken from a receiver to what it stands for. -/
def receiverSteps : Nat := 9

/-- The definition behind an expression, unless it is a parameter or has no value. -/
def definedBy? (node : Cursor) (path : String) : Audit (Option (Cursor × String)) := do
  match ← Audit.resolve path node none with
  | none => return none
  | some b => return if b.isParameter then none else b.node.map fun value => (value, b.path)

def classAround (node : Cursor) (path : String) : Audit String := do
  return (enclosingNames (← Audit.above path node) "").1

/-- The class that a word names at a place; `self`, `static` and `parent` depend on the place. -/
def classNamedBy? (text : String) (node : Cursor) (path : String) : Audit (Option String) := do
  let word := lower text
  if word = "self" || word = "static" then return some (← classAround node path)
  else if word = "parent" then
    let around ← classAround node path
    if around.isEmpty then return none
    return ((← get).classes.get? (lower around)).bind ClassDecl.parentName
  else return some (shortClassName text)

/-- The name of the class that a receiver stands for, in a number of steps: a model call or a new
object names it, `$this` is the class around it, chained calls hand their receiver on, and all
else is followed to its definition. -/
def receiverClass? : Nat → Cursor → String → Audit (Option String)
  | 0, _, _ => return none
  | n + 1, receiver, path => do
    if receiver.kind = .scopedCallExpression && lower receiver.nameText = "model" then
      let scope := ((receiver.inRole? "scope").map Cursor.text).getD ""
      return (← classNamedBy? scope receiver path).filter (· ≠ "")
    else if receiver.kind = .objectCreationExpression then
      match receiver.parts with
      | first :: _ =>
        if first.kind = .name || first.kind = .qualifiedName then
          return (← classNamedBy? first.text receiver path).filter (· ≠ "")
        else return none
      | [] => return none
    else if receiver.kind = .variableName && receiver.text = "$this" then
      return (some (← classAround receiver path)).filter (· ≠ "")
    else if receiver.kind = .parenthesizedExpression then
      match receiver.parts.getLast? with
      | some inner => receiverClass? n inner path
      | none => return none
    else if receiver.kind.isMethodCall then
      match receiver.inRole? "object" with
      | some object => receiverClass? n object path
      | none => return none
    else
      match ← definedBy? receiver path with
      | some (value, file) => receiverClass? n value file
      | none => return none

def knownRecord? (name path : String) : Audit (Option ClassDecl) := do
  if (← get).hierarchy.isNone then return none else recordClass? name path

/-! ## Databases. -/

def isAppCall (node : Cursor) : Bool :=
  node.kind = .scopedCallExpression && lower node.nameText = "app" &&
    (node.inRole? "scope").any fun scope => lower (shortClassName scope.text) = "yii"

/-- The first database of the record class that a receiver stands for, the usual one standing in
for none. -/
def recordDatabase? (receiver : Cursor) (path : String) : Audit (Option String) := do
  match ← receiverClass? receiverSteps receiver path with
  | none => return none
  | some name =>
    let usual := (← get).settings.defaultDbName
    return (← knownRecord? name path).map fun d => (d.dbNames.head?).getD usual

/-- The name of the database that an expression stands for, in a number of steps: a component of
the application is named by itself, an accessor call by its record class, and all else is followed
to its definition. -/
def databaseOf? : Nat → Cursor → String → Audit (Option String)
  | 0, _, _ => return none
  | n + 1, expr, path => do
    if expr.kind.isMemberAccess && (expr.inRole? "object").any isAppCall then
      return some expr.nameText
    else if expr.kind.isMethodCall then
      if sameIgnoringCase expr.nameText (← get).settings.dbAccessor then
        match expr.inRole? "object" with
        | some object => recordDatabase? object path
        | none => return none
      else return none
    else if expr.kind = .parenthesizedExpression then
      match expr.parts.getLast? with
      | some inner => databaseOf? n inner path
      | none => return none
    else
      match ← definedBy? expr path with
      | some (value, file) => databaseOf? n value file
      | none => return none

end QueryAudit.Query
