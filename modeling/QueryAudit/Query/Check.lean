/-
  QueryAudit.Query.Check — checking query calls

  A query call either hands SQL to the command factory, names tables in a chained call, or finds
  records of a class. Its SQL samples are put together; a tainted sample is a suspected injection
  and goes no further, every other sample adds the tables it reaches to the references.
-/

import QueryAudit.Query.Criteria
import QueryAudit.Query.Receiver
import QueryAudit.Sql.Parse

namespace QueryAudit.Query

open Php Record Sample Scope Text

/-! ## Findings of one call. -/

/-- Databases and tables that a call was seen to reach. -/
abbrev Reached := List (String × String)

structure Site where
  node : Cursor
  path : String

def Site.warn (site : Site) (message code : String) (subject : String := "") : Audit Unit :=
  Audit.warn (.at message site.node site.path code subject)

def Site.warnInjection (site : Site) (kind : Taint) (sample : String) : Audit Unit :=
  site.warn ("suspected SQL injection via " ++ kind.word ++ ": " ++ sample) "sql-injection"
    kind.word

def addReference (site : Site) (db table sql : String) (reached : Reached) : Audit Reached := do
  if reached.contains (db, table) then return reached
  let (className, methodName) := enclosingNames (← Audit.above site.path site.node) ""
  Audit.collecting (Diagnostics.addReference
    { db, table, sql, file := site.path, line := site.node.line, className, methodName })
  return reached ++ [(db, table)]

def addReferences (site : Site) (db sql : String) : List Sql.TableName → Reached → Audit Reached
  | [], reached => return reached
  | t :: rest, reached => do
    let own := (t.database.filter (· ≠ "")).getD db
    addReferences site db sql rest
      (← addReference site own (normalizeTable t.name "") sql reached)

def tablesOf (sql : String) : Audit (Except Sql.Issue (List Sql.TableName)) := do
  match Sql.Dialect.named? (← get).settings.sqlDialect with
  | some dialect => return Sql.tables dialect sql
  | none => throw .unknownDialect

/-- Take in an SQL sample: warn if it is tainted, else add the tables it reaches. -/
def takeSql (site : Site) (db sample : String) (reached : Reached) : Audit Reached := do
  match taintOf sample with
  | some kind =>
    site.warnInjection kind sample
    return reached
  | none =>
    let sql := expandTablePrefix sample (← get).settings.tablePrefix
    match ← tablesOf sql with
    | .error issue =>
      site.warn ("cannot parse SQL sample (" ++ issue.message ++ "): " ++ sql) "sql-parse"
      return reached
    | .ok found =>
      if found.isEmpty then site.warn ("no table in SQL sample: " ++ sql) "sql-parse"
      addReferences site db sql found reached

def takeAllSql (site : Site) (db : String) : List String → Reached → Audit Reached
  | [], reached => return reached
  | sample :: rest, reached => do
    takeAllSql site db rest (← takeSql site db sample reached)

/-! ## Lists of tables. -/

/-- The database and table that an entry of a list names; what follows the first word is an alias. -/
def entryTable? (db entry : String) : Option (String × String) :=
  match words entry with
  | [] => none
  | first :: _ =>
    match cutAt '.' first with
    | (table, none) => some (db, normalizeTable table "")
    | (own, some table) => some (normalizeTable own "", normalizeTable table "")

def listedTables (db sample before : String) : List (String × String) :=
  (splitAt ',' (expandTablePrefix sample before)).filterMap (entryTable? db)

def addListed (site : Site) (sample : String) : List (String × String) → Reached → Audit Reached
  | [], reached => return reached
  | (db, table) :: rest, reached => do
    addListed site sample rest (← addReference site db table sample reached)

/-- Take in the samples of a list of tables: the call that names them is warned about, the command
they belong to gets the references. -/
def takeLists (site naming : Site) (db : String) : List String → Reached → Audit Reached
  | [], reached => return reached
  | sample :: rest, reached => do
    match taintOf sample with
    | some kind =>
      naming.warnInjection kind sample
      takeLists site naming db rest reached
    | none =>
      let before := (← get).settings.tablePrefix
      takeLists site naming db rest
        (← addListed site sample (listedTables db sample before) reached)

/-! ## Commands. -/

def receiverText (node : Cursor) : String :=
  ((node.inRole? "object").map Cursor.text).getD "?"

def databaseName (site : Site) : Audit String := do
  let found ← match site.node.inRole? "object" with
    | some receiver => databaseOf? receiverSteps receiver site.path
    | none => pure none
  match found.filter (· ≠ "") with
  | some db => return db
  | none =>
    site.warn ("ambiguous db name for " ++ receiverText site.node) "ambiguous-db"
    return "unknown"

/-- The first call that names tables among the calls chained after a node, from the nodes above. -/
def namingCall? (settings : Settings) : Cursor → List Cursor → Option Cursor
  | _, [] => none
  | current, parent :: rest =>
    if parent.kind.isMethodCall && (parent.inRole? "object").any (·.same current) then
      if settings.isFromMethod parent.nameText then some parent
      else namingCall? settings parent rest
    else none

/-- The samples of the tables that a call names: of each item of an array, or of a text. -/
def listSamples (arg : Cursor) (path : String) : Audit (List String) := do
  match ← arrayItems arg path with
  | some items => return (← items.mapM fun item => samples item.value item.path).flatten
  | none => samples arg path

def checkChain (site : Site) (db : String) : Audit Unit := do
  let settings := (← get).settings
  match namingCall? settings site.node (← Audit.above site.path site.node) with
  | none =>
    site.warn (settings.commandFactory ++ "() without a following " ++
      joinWith "/" settings.fromMethods ++ " call") "no-query"
  | some call =>
    let naming : Site := ⟨call, site.path⟩
    match firstArgument? call with
    | none => naming.warn (call.nameText ++ "() without arguments") "no-sample"
    | some arg =>
      let _ ← takeLists site naming db (← listSamples arg site.path) []

def checkCommand (site : Site) : Audit Unit := do
  let db ← databaseName site
  match firstArgument? site.node with
  | none => checkChain site db
  | some arg =>
    let found ← samples arg site.path
    if found.isEmpty then
      site.warn ("no SQL sample for " ++ (← get).settings.commandFactory ++ "()") "no-sample"
    let _ ← takeAllSql site db found []

/-! ## Finders. -/

/-- Check what a finder is asked for when its record class is not known: only for injections. -/
def checkUnresolved (site : Site) : Audit Unit := do
  match callArguments site.node with
  | [] => return
  | arg :: _ =>
    if (← get).settings.isPkFinder site.node.nameText then return
    let found ← match ← criteriaOf arg site.path site.node with
      | none => samples arg site.path
      | some criteria => do
        let columns ← columnSamples criteria
        pure (columns ++ (← conditionSamples criteria))
    for sample in found do
      match taintOf sample with
      | some kind => site.warnInjection kind sample
      | none => pure ()

def keyText (d : ClassDecl) (table : String) : String :=
  "SELECT * FROM " ++ table ++ " WHERE " ++
    joinWith " AND " (d.primaryKey.map fun column => column ++ " = ?")

def addKeyed (site : Site) (d : ClassDecl) : List (String × String) → Reached → Audit Reached
  | [], reached => return reached
  | (db, table) :: rest, reached => do
    addKeyed site d rest (← addReference site db table (keyText d table) reached)

/-- The replacements that the arguments after the first bring along. -/
def finderParams (more : List Cursor) (path : String) : Audit (Catalog String) :=
  match more with
  | second :: _ => paramsOf second path
  | [] => return .empty

/-- The SQL texts that a finder asks of a table: those of its criteria, or of its condition. -/
def finderTexts (arg : Cursor) (path : String) (params : Catalog String) (criteria : Option Criteria)
    (table : String) : Audit (List String) :=
  match criteria with
  | some criteria => criteriaTexts criteria table params
  | none => conditionTexts arg path table params

def takeFinder (site : Site) (arg : Cursor) (params : Catalog String)
    (criteria : Option Criteria) : List (String × String) → Reached → Audit Reached
  | [], reached => return reached
  | (db, table) :: rest, reached => do
    let texts ← finderTexts arg site.path params criteria table
    takeFinder site arg params criteria rest (← takeAllSql site db texts reached)

def checkRecord (site : Site) (d : ClassDecl) : Audit Unit := do
  let settings := (← get).settings
  let method := site.node.nameText
  let pairs := recordPairs d settings.defaultDbName
  if pairs.isEmpty then
    site.warn ("record class " ++ d.name ++ " has no table for " ++ method ++ "()")
      "missing-accessor" d.name
  else match callArguments site.node with
    | [] => let _ ← addKeyed site d pairs []
    | arg :: more =>
      if settings.isPkFinder method then
        let _ ← addKeyed site d pairs []
      else
        let params ← finderParams more site.path
        let criteria ← criteriaOf arg site.path site.node
        let _ ← takeFinder site arg params criteria pairs []

/-- Check a finder, given the name of the class that its receiver stands for, if that is known. -/
def checkReceiver (site : Site) : Option String → Audit Unit
  | none => do
    site.warn ("cannot resolve the record class of " ++ receiverText site.node ++ " for " ++
      site.node.nameText ++ "()") "unresolved-receiver"
    checkUnresolved site
  | some name => do
    match ← knownRecord? name site.path with
    | none =>
      Audit.log ((← Audit.shown site.path) ++ ":" ++ toString site.node.line ++ ": " ++
        site.node.nameText ++ "() receiver " ++ name ++ " is not a record class")
    | some d => checkRecord site d

def checkFinder (site : Site) : Audit Unit := do
  let name ← match site.node.inRole? "object" with
    | some receiver => receiverClass? receiverSteps receiver site.path
    | none => pure none
  checkReceiver site name

/-! ## Files. -/

def checkCall (site : Site) : Audit Unit := do
  let settings := (← get).settings
  let method := site.node.nameText
  if settings.isCommandFactory method then checkCommand site
  else if settings.isFinder method then checkFinder site

/-- Check a call; one whose shape is not handled is passed over or ends the analysis. -/
def checkSite (site : Site) : Audit Unit := do
  try checkCall site
  catch failure =>
    match failure with
    | .hard e =>
      modify fun r => { r with active := [] }
      Audit.hardError e
    | other => throw other

/-- Check the calls that were found in a file; each of them is checked once. -/
def checkFile (scopes : FileScopes) : Audit Unit := do
  modify fun r => { r with scopes := r.scopes.modify scopes.path fun s => { s with callSites := [] } }
  for (node, _) in scopes.callSites do checkSite ⟨node, scopes.path⟩

end QueryAudit.Query
