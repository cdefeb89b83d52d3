/-
  QueryAudit.Query.Criteria — what a finder is asked for

  A finder takes a condition text, an array of criteria, or a criteria object that was made and
  filled before the call. Three keys decide the query: the columns, the condition and the
  parameters. From them come the SQL texts of the call, one for each combination of samples.
-/

import QueryAudit.Query.Clause
import QueryAudit.Sample.Evaluator

namespace QueryAudit.Query

open Php Sample Scope Text

/-! ## Criteria. -/

/-- An expression with the file it stands in. -/
abbrev Placed := Cursor × String

structure Criteria where
  columns : Option Placed := none
  condition : Option Placed := none
  params : Option Placed := none

namespace Criteria

def updatedBy (old new : Criteria) : Criteria :=
  ⟨new.columns <|> old.columns, new.condition <|> old.condition, new.params <|> old.params⟩

def set? (c : Criteria) (key : String) (value : Placed) : Option Criteria :=
  if key = "select" then some { c with columns := some value }
  else if key = "condition" then some { c with condition := some value }
  else if key = "params" then some { c with params := some value }
  else none

end Criteria

def harmlessKeys : List String := ["order", "limit"]

/-- The criteria of an array; a key that is not understood is warned about. -/
def criteriaOfItems : Criteria → List Item → Audit Criteria
  | found, [] => return found
  | found, item :: rest => do
    let names ← match item.key with
      | some key => samples key item.path
      | none => pure []
    match names with
    | [] =>
      Audit.warn (.at "criteria element without a key" item.value item.path "criteria-key")
      criteriaOfItems found rest
    | name :: _ =>
      match found.set? name (item.value, item.path) with
      | some found => criteriaOfItems found rest
      | none =>
        if !harmlessKeys.contains name then
          Audit.warn (.at ("unsupported criteria key '" ++ name ++ "'") item.value item.path
            "criteria-key" name)
        criteriaOfItems found rest

def criteriaClass : String := "cdbcriteria"

/-- Where a variable was given a new criteria object: the definition and the creation. -/
def criteriaCreation? (arg : Cursor) (path : String) : Audit (Option (Binding × Cursor)) := do
  if arg.kind ≠ .variableName then return none
  match ← Audit.resolve path arg none with
  | none => return none
  | some b =>
    match b.node with
    | none => return none
    | some made =>
      if made.kind ≠ .objectCreationExpression then return none
      match made.parts with
      | [] => return none
      | first :: _ =>
        return if lower (shortClassName first.text) = criteriaClass then some (b, made) else none

/-- Criteria set on the properties of an object since it was made, as seen by a call. -/
def criteriaOfProperties (object : String) (made : Binding) (path : String) (call : Cursor)
    (found : Criteria) : Audit Criteria := do
  let scopes ← Audit.scopesOf path
  let owner ← Audit.closureOf path call
  return ["condition", "params", "select"].foldl (fun found key =>
    match scopes.lookup owner (object ++ "->" ++ key) (some call.line) with
    | some property =>
      match property.node with
      | some value =>
        if made.line ≤ property.line then (found.set? key (value, property.path)).getD found
        else found
      | none => found
    | none => found) found

/-- The criteria an argument stands for, or nothing for a condition text. An object may be made
from further criteria; the count bounds how often. -/
def criteriaFrom : Nat → Cursor → String → Cursor → Audit (Option Criteria)
  | 0, _, _, _ => throw .endless
  | n + 1, arg, path, call => do
    match ← arrayItems arg path with
    | some items => return some (← criteriaOfItems {} items)
    | none =>
      match ← criteriaCreation? arg path with
      | none => return none
      | some (b, made) =>
        let given ← match callArguments made with
          | first :: _ => criteriaFrom n first b.path call
          | [] => pure none
        return some (← criteriaOfProperties arg.text b path call (given.getD {}))

/-- The criteria an argument of a call stands for. Objects are made from each other at most once
for each of them, unless one is made from itself. -/
def criteriaOf (arg : Cursor) (path : String) (call : Cursor) : Audit (Option Criteria) := do
  criteriaFrom (← get).extent arg path call

/-! ## Parameters. -/

def placeholder (name : String) : String :=
  if startsWith [':'] name.toList then name else ":" ++ name

/-- The placeholders that the keys of some items name; tainted names are left out. -/
def placeholdersOf : Catalog String → List Item → Audit (Catalog String)
  | found, [] => return found
  | found, item :: rest => do
    let names ← match item.key with
      | some key => samples key item.path
      | none => pure []
    let plain := names.filter fun name => (taintOf name).isNone
    placeholdersOf (plain.foldl (fun found name => found.set (placeholder name) "?") found) rest

def paramsOf (arg : Cursor) (path : String) : Audit (Catalog String) := do
  match ← arrayItems arg path with
  | some items => placeholdersOf .empty items
  | none =>
    Audit.warn (.at "params is not an array" arg path "criteria-params")
    return .empty

/-! ## SQL texts. -/

/-- The samples of the columns: those of an array are listed with commas. -/
def columnSamples (criteria : Criteria) : Audit (List String) := do
  match criteria.columns with
  | none => return []
  | some (value, path) =>
    match ← arrayItems value path with
    | some items =>
      let columns ← items.mapM fun item => samples item.value item.path
      joined columns ", " value path
    | none => samples value path

def conditionSamples (criteria : Criteria) : Audit (List String) := do
  match criteria.condition with
  | none => return []
  | some (value, path) =>
    let _ ← arrayItems value path
    samples value path

def criteriaText (params : Catalog String) (table columns condition : String) : String :=
  let head := "SELECT " ++ columns ++ " FROM " ++ table
  if (trim condition).isEmpty then head else head ++ " WHERE " ++ applyParams condition params

def replacementsWith (criteria : Criteria) (params : Catalog String) : Audit (Catalog String) := do
  match criteria.params with
  | some (value, path) =>
    return (← paramsOf value path).entries.foldl (fun all (name, mark) => all.set name mark) params
  | none => return params

def criteriaTexts (criteria : Criteria) (table : String) (params : Catalog String) :
    Audit (List String) := do
  let params ← replacementsWith criteria params
  let columns ← columnSamples criteria
  let conditions ← conditionSamples criteria
  let columns := if columns.isEmpty then ["*"] else columns
  let conditions := if conditions.isEmpty then [""] else conditions
  return columns.flatMap fun c => conditions.map (criteriaText params table c)

/-- A query on a table with a condition text, which may be a clause of its own. -/
def conditionText (params : Catalog String) (table sample : String) : String :=
  let clause := trim sample
  let clause := if !clause.isEmpty && !startsClause clause then "WHERE " ++ clause else clause
  trimEnd isBlank ("SELECT * FROM " ++ table ++ " " ++ applyParams clause params)

def conditionTexts (arg : Cursor) (path table : String) (params : Catalog String) :
    Audit (List String) := do
  return (← samples arg path).map (conditionText params table)

end QueryAudit.Query
