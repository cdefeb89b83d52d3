/-
  QueryAudit.Record.Hierarchy — record classes and their tables

  A class is a record class when the classes it descends from lead to the base class of records. The
  tables, database and primary key of a record class come from its accessors or from those of the
  nearest class it descends from.
-/

import QueryAudit.Record.LiteralValue
import QueryAudit.Record.TableName

namespace QueryAudit.Record

open Php Text

/-! ## Descent. -/

def declared? (classes : Catalog ClassDecl) (name : Option String) : Option ClassDecl :=
  (name.filter (· ≠ "")).bind fun name => classes.get? (lower (shortClassName name))

/-- A walk from a class to the classes it descends from. -/
structure Ascent where
  chain : List ClassDecl
  beyond : List String := []
  isRecord : Bool := false
  cycle : List ClassDecl := []

/-- Walk on from the last class of a chain, which is given. A class whose place is known ends the
walk. The count bounds it. -/
def ascend (base : String) (classes : Catalog ClassDecl) :
    Nat → List ClassDecl → ClassDecl → Ascent
  | 0, chain, _ => { chain }
  | n + 1, chain, current =>
    match current.parentName.filter (· ≠ "") with
    | none => { chain }
    | some name =>
      if lower (shortClassName name) = base then
        { chain, beyond := [shortClassName name], isRecord := true }
      else match declared? classes (some name) with
        | none => { chain }
        | some parent =>
          if chain.any (·.key = parent.key) then
            { chain, cycle := chain.dropWhile (·.key ≠ parent.key) }
          else match parent.isRecord with
            | some known => { chain, beyond := parent.name :: parent.ancestors, isRecord := known }
            | none => ascend base classes n (chain ++ [parent]) parent

def markCyclic (classes : Catalog ClassDecl) (cycle : List ClassDecl) : Catalog ClassDecl :=
  cycle.foldl (fun classes d => classes.modify d.key fun d => { d with cyclic := true }) classes

/-- Give the classes of a walk their place: what they descend from, and whether they are record
classes. -/
def settle (beyond : List String) (isRecord : Bool) :
    List ClassDecl → Catalog ClassDecl → Catalog ClassDecl
  | [], classes => classes
  | d :: rest, classes =>
    settle beyond isRecord rest (classes.modify d.key fun d =>
      { d with ancestors := rest.map ClassDecl.name ++ beyond, isRecord := some isRecord })

/-- The warning about a cycle, with the key it is given once under. -/
def cycleWarning? (cycle : List ClassDecl) : Option (String × Warning) :=
  match cycle with
  | [] => none
  | first :: _ =>
    let names := cycle.map ClassDecl.name
    let sorted := (names.map lower).mergeSort fun a b => !(b < a)
    some ("cycle:" ++ joinWith "," sorted,
      { message := "cyclic class hierarchy: " ++ joinWith " -> " (names ++ [first.name])
        file := first.file, line := first.line, code := "cyclic-hierarchy", subject := first.name })

def classify (d : ClassDecl) : Audit Bool := do
  let r ← get
  match (r.classes.get? d.key).bind ClassDecl.isRecord with
  | some known => return known
  | none =>
    let walk := ascend (lower r.settings.recordBaseClass) r.classes (r.classes.size + 1) [d] d
    set { r with classes := markCyclic r.classes walk.cycle }
    match cycleWarning? walk.cycle with
    | some (key, warning) => Audit.warnOnce key warning
    | none => pure ()
    modify fun r => { r with classes := settle walk.beyond walk.isRecord walk.chain r.classes }
    return walk.isRecord

/-! ## Accessors. -/

def knownAccessor? (key : String × String) : Audit (Option (List String)) := do
  return ((← get).hierarchy.bind fun h => h.accessors.lookup key)

def addValues (values found : List String) : List String :=
  found.foldl (fun values v => if v = "" || values.contains v then values else values ++ [v]) values

def returnValues (d : ClassDecl) (accessor : String) (app : Bool) :
    List Cursor → List String → Audit (List String)
  | [], values => return values
  | statement :: rest, values => do
    match statement.parts.head? with
    | none => returnValues d accessor app rest values
    | some expr =>
      match ← literalValues { owner := d, app } expr with
      | some found => returnValues d accessor app rest (addValues values found)
      | none =>
        Audit.warn (.at ("cannot evaluate " ++ d.name ++ "::" ++ accessor ++ "() return value")
          expr d.file "non-literal-accessor" d.name)
        returnValues d accessor app rest values

def ownValues (d : ClassDecl) (accessor : String) (app : Bool) : Audit (List String) := do
  let key := (d.key, lower accessor)
  match ← knownAccessor? key with
  | some known => return known
  | none =>
    let body := (d.methods.get? (lower accessor)).bind (·.inRole? "body")
    let values ← match body with
      | none => pure []
      | some body => returnValues d accessor app (collectReturns body) []
    modify fun r => { r with hierarchy := r.hierarchy.map fun h =>
      { h with accessors := h.accessors ++ [(key, values)] } }
    return values

def nearestValues (accessor : String) (app : Bool) : List String → Audit (List String)
  | [] => return []
  | name :: rest => do
    match declared? (← get).classes (some name) with
    | none => nearestValues accessor app rest
    | some d =>
      let values ← ownValues d accessor app
      if values.isEmpty then nearestValues accessor app rest else return values

/-- The values of an accessor of a class: its own, or those of the nearest class above. -/
def inheritedValues (d : ClassDecl) (accessor : String) (app : Bool) : Audit (List String) := do
  let values ← ownValues d accessor app
  if values.isEmpty then nearestValues accessor app d.ancestors else return values

/-- Find the tables, databases and primary key of a record class. A class that no class extends
should have a table and a database. -/
def resolveAccessors (key : String) : Audit Unit := do
  let r ← get
  match r.classes.get? key with
  | none => return
  | some d =>
    let s := r.settings
    let tables := (← inheritedValues d s.tableAccessor false).map (normalizeTable · s.tablePrefix)
    let change (f : ClassDecl → ClassDecl) : Audit Unit :=
      modify fun r => { r with classes := r.classes.modify key f }
    change fun d => { d with tableNames := tables }
    let dbs ← inheritedValues d s.dbAccessor true
    change fun d => { d with dbNames := dbs }
    let pk ← inheritedValues d s.pkAccessor false
    change fun d => { d with primaryKey := if pk.isEmpty then [s.defaultPk] else pk }
    if d.isLeaf then
      let missing (text : String) : Audit Unit := Audit.warn
        { message := "record class " ++ d.name ++ " has no resolvable " ++ text
          file := d.file, line := d.line, code := "missing-accessor", subject := d.name }
      if tables.isEmpty then missing (s.tableAccessor ++ "()")
      if dbs.isEmpty then missing (s.dbAccessor ++ "(), assuming '" ++ s.defaultDbName ++ "'")

/-! ## Record classes. -/

/-- Whether a declaration stands before another: by file, then by line. -/
def standsBefore (a b : ClassDecl) : Bool := a.file < b.file || (a.file = b.file && a.line ≤ b.line)

def noteChildren (classes : Catalog ClassDecl) (declarations : List ClassDecl) : Catalog ClassDecl :=
  declarations.foldl (fun classes d =>
    match declared? classes d.parentName with
    | none => classes
    | some parent => classes.modify parent.key fun p =>
      if p.children.contains d.name then p else { p with children := p.children ++ [d.name] })
    classes

def noteRecord (key : String) : Audit Unit :=
  modify fun r => { r with hierarchy := r.hierarchy.map fun h =>
    { h with records := if h.records.contains key then h.records else h.records ++ [key] } }

/-- Find the record classes below a directory. What was known about them before is forgotten. -/
def resolveHierarchy (path : String) : Audit Unit := do
  modify fun r => { r with hierarchy := some {} }
  Audit.log ("resolving class hierarchy under " ++ path)
  Audit.scanTree ((← get).disk.resolve path)
  let declarations := (← get).classes.values.mergeSort standsBefore
  modify fun r => { r with classes := noteChildren r.classes declarations }
  for d in declarations do
    if ← classify d then noteRecord d.key
  let records := (((← get).hierarchy.map Hierarchy.records).getD [])
  for key in records do resolveAccessors key
  Audit.log (toString records.length ++ " record classes out of " ++
    toString declarations.length ++ " classes")

def records : Audit (List ClassDecl) := do
  let r ← get
  return ((r.hierarchy.map Hierarchy.records).getD []).filterMap r.classes.get?

def recordClass? (name path : String) : Audit (Option ClassDecl) := do
  if (← get).hierarchy.isNone then throw .absent
  match ← Audit.findClass name path with
  | none => return none
  | some d =>
    if d.isRecord.isNone then
      if ← classify d then
        noteRecord d.key
        resolveAccessors d.key
    return ((← get).classes.get? d.key).filter fun d => d.isRecord = some true

end QueryAudit.Record
