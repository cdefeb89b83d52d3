/-
  QueryAudit.Proofs.Query.Trace — analyses that keep a record

  The same analysis once more, which besides its findings gives a record of what it did with every
  sample that was put together for a call. Forgetting the record gives the plain step back.

  Main results: `analyze_erases`.
-/

import QueryAudit.Analysis
import QueryAudit.Proofs.Audit.Outcome

namespace QueryAudit.Query

open Php Record Sample Scope Text Audit

/-! ## Records. -/

/-- What came of one thing that was found out about a call. -/
inductive Act where
  /-- A sample was put together for a call: the text that was read for tables, the references that
  were added and the warnings about SQL texts. -/
  | sample (site : Site) (text : String) (read : Option String) (references : List Reference)
      (warnings : List Warning)
  /-- A record was looked for by its key or without any condition: no sample is needed for the
  references. -/
  | keyed (site : Site) (references : List Reference)

namespace Act

def references : Act → List Reference
  | .sample _ _ _ references _ => references
  | .keyed _ references => references

def warnings : Act → List Warning
  | .sample _ _ _ _ warnings => warnings
  | .keyed _ _ => []

def isTainted : Act → Bool
  | .sample _ text _ _ _ => (taintOf text).isSome
  | .keyed _ _ => false

end Act

def newReferences (before after : Run) : List Reference :=
  after.diagnostics.references.drop before.diagnostics.references.length

def injectionWarning (site : Site) (kind : Taint) (sample : String) : Warning :=
  .at ("suspected SQL injection via " ++ kind.word ++ ": " ++ sample) site.node site.path
    "sql-injection" kind.word

def parseWarning (site : Site) (issue : Sql.Issue) (sql : String) : Warning :=
  .at ("cannot parse SQL sample (" ++ issue.message ++ "): " ++ sql) site.node site.path "sql-parse"

def tablelessWarning (site : Site) (sql : String) : Warning :=
  .at ("no table in SQL sample: " ++ sql) site.node site.path "sql-parse"

/-! ## Traced steps. -/

namespace Traced

def collect (step : Audit Reached) : Audit (Reached × List Reference) := do
  let before ← get
  let reached ← step
  return (reached, newReferences before (← get))

def takeSql (site : Site) (db sample : String) (reached : Reached) : Audit (Reached × List Act) := do
  match taintOf sample with
  | some kind =>
    site.warnInjection kind sample
    return (reached, [.sample site sample none [] [injectionWarning site kind sample]])
  | none =>
    let sql := expandTablePrefix sample (← get).settings.tablePrefix
    match ← tablesOf sql with
    | .error issue =>
      site.warn ("cannot parse SQL sample (" ++ issue.message ++ "): " ++ sql) "sql-parse"
      return (reached, [.sample site sample (some sql) [] [parseWarning site issue sql]])
    | .ok found =>
      if found.isEmpty then site.warn ("no table in SQL sample: " ++ sql) "sql-parse"
      let (reached, references) ← collect (addReferences site db sql found reached)
      return (reached, [.sample site sample (some sql) references
        (if found.isEmpty then [tablelessWarning site sql] else [])])

def takeAllSql (site : Site) (db : String) : List String → Reached → Audit (Reached × List Act)
  | [], reached => return (reached, [])
  | sample :: rest, reached => do
    let (reached, first) ← takeSql site db sample reached
    let (reached, more) ← takeAllSql site db rest reached
    return (reached, first ++ more)

def takeLists (site naming : Site) (db : String) : List String → Reached → Audit (Reached × List Act)
  | [], reached => return (reached, [])
  | sample :: rest, reached => do
    match taintOf sample with
    | some kind =>
      naming.warnInjection kind sample
      let (reached, more) ← takeLists site naming db rest reached
      return (reached, .sample naming sample none [] [injectionWarning naming kind sample] :: more)
    | none =>
      let before := (← get).settings.tablePrefix
      let (reached, references) ←
        collect (addListed site sample (listedTables db sample before) reached)
      let (reached, more) ← takeLists site naming db rest reached
      return (reached, .sample naming sample none references [] :: more)

def checkChain (site : Site) (db : String) : Audit (List Act) := do
  let settings := (← get).settings
  match namingCall? settings site.node (← above site.path site.node) with
  | none =>
    site.warn (settings.commandFactory ++ "() without a following " ++
      joinWith "/" settings.fromMethods ++ " call") "no-query"
    return []
  | some call =>
    let naming : Site := ⟨call, site.path⟩
    match firstArgument? call with
    | none =>
      naming.warn (call.nameText ++ "() without arguments") "no-sample"
      return []
    | some arg =>
      let (_, acts) ← takeLists site naming db (← listSamples arg site.path) []
      return acts

def checkCommand (site : Site) : Audit (List Act) := do
  let db ← databaseName site
  match firstArgument? site.node with
  | none => checkChain site db
  | some arg =>
    let found ← samples arg site.path
    if found.isEmpty then
      site.warn ("no SQL sample for " ++ (← get).settings.commandFactory ++ "()") "no-sample"
    let (_, acts) ← takeAllSql site db found []
    return acts

def warnTainted (site : Site) : List String → Audit (List Act)
  | [] => return []
  | sample :: rest => do
    match taintOf sample with
    | some kind =>
      site.warnInjection kind sample
      let more ← warnTainted site rest
      return .sample site sample none [] [injectionWarning site kind sample] :: more
    | none =>
      let more ← warnTainted site rest
      return .sample site sample none [] [] :: more

/-- Check what a finder is asked for when its record class is not known. -/
def checkUnresolved (site : Site) : Audit (List Act) := do
  match callArguments site.node with
  | [] => return []
  | arg :: _ =>
    if (← get).settings.isPkFinder site.node.nameText then return []
    let found ← match ← criteriaOf arg site.path site.node with
      | none => samples arg site.path
      | some criteria => do
        let columns ← columnSamples criteria
        pure (columns ++ (← conditionSamples criteria))
    warnTainted site found

def addKeyed (site : Site) (d : ClassDecl) (pairs : List (String × String)) : Audit (List Act) := do
  let (_, references) ← collect (Query.addKeyed site d pairs [])
  return [.keyed site references]

/-- Take in what a finder asks of each table of a record class. -/
def takeFinder (site : Site) (arg : Cursor) (params : Catalog String)
    (criteria : Option Criteria) : List (String × String) → Reached → Audit (Reached × List Act)
  | [], reached => return (reached, [])
  | (db, table) :: rest, reached => do
    let texts ← finderTexts arg site.path params criteria table
    let (reached, first) ← takeAllSql site db texts reached
    let (reached, more) ← takeFinder site arg params criteria rest reached
    return (reached, first ++ more)

def checkRecord (site : Site) (d : ClassDecl) : Audit (List Act) := do
  let settings := (← get).settings
  let method := site.node.nameText
  let pairs := recordPairs d settings.defaultDbName
  if pairs.isEmpty then
    site.warn ("record class " ++ d.name ++ " has no table for " ++ method ++ "()")
      "missing-accessor" d.name
    return []
  else match callArguments site.node with
    | [] => addKeyed site d pairs
    | arg :: more =>
      if settings.isPkFinder method then addKeyed site d pairs
      else
        let params ← finderParams more site.path
        let criteria ← criteriaOf arg site.path site.node
        let (_, acts) ← takeFinder site arg params criteria pairs []
        return acts

/-- Check a finder, given the name of the class that its receiver stands for. -/
def checkReceiver (site : Site) : Option String → Audit (List Act)
  | none => do
    site.warn ("cannot resolve the record class of " ++ receiverText site.node ++ " for " ++
      site.node.nameText ++ "()") "unresolved-receiver"
    checkUnresolved site
  | some name => do
    match ← knownRecord? name site.path with
    | none =>
      log ((← shown site.path) ++ ":" ++ toString site.node.line ++ ": " ++
        site.node.nameText ++ "() receiver " ++ name ++ " is not a record class")
      return []
    | some d => checkRecord site d

def checkFinder (site : Site) : Audit (List Act) := do
  let name ← match site.node.inRole? "object" with
    | some receiver => receiverClass? receiverSteps receiver site.path
    | none => pure none
  checkReceiver site name

def checkCall (site : Site) : Audit (List Act) := do
  let settings := (← get).settings
  let method := site.node.nameText
  if settings.isCommandFactory method then checkCommand site
  else if settings.isFinder method then checkFinder site
  else return []

/-- Check a call; one whose shape is not handled is passed over or ends the analysis. -/
def checkSite (site : Site) : Audit (List Act) := do
  try checkCall site
  catch failure =>
    match failure with
    | .hard e =>
      modify fun r => { r with active := [] }
      hardError e
      pure []
    | other => throw other

def checkSites (path : String) : List (Cursor × Closure) → Audit (List Act)
  | [] => return []
  | (node, _) :: rest => do
    let first ← checkSite ⟨node, path⟩
    let more ← checkSites path rest
    return first ++ more

def checkFile (scopes : FileScopes) : Audit (List Act) := do
  modify fun r => { r with scopes := r.scopes.modify scopes.path fun s => { s with callSites := [] } }
  checkSites scopes.path scopes.callSites

def analyzeFile (path : String) : Audit (List Act) := do
  let found ← try some <$> scopesOf path
    catch failure =>
      if failure.isMissingFile then
        skipFile path failure
        pure none
      else throw failure
  match found with
  | none => return []
  | some scopes =>
    let acts ← checkFile scopes
    evict path
    return acts

def analyzeFiles : List String → Audit (List Act)
  | [] => return []
  | path :: rest => do
    let first ← analyzeFile path
    let more ← analyzeFiles rest
    return first ++ more

/-- Find the record classes around a target and check the calls in its files. -/
def analyze (target : String) : Audit (Findings × List Act) := do
  checkTarget target
  resolveHierarchy (← get).root
  let files ← targetFiles target
  let acts ← analyzeFiles files
  let (references, warnings) ← collecting Diagnostics.drain
  log (toString references.length ++ " references, " ++ toString warnings.length ++
    " warnings in " ++ toString files.length ++ " files")
  return (← handOver target files.length references warnings, acts)

/-! ## Forgetting the record. -/

section Erasure

variable {α β γ δ : Type}
variable {view : β → α} {t : Audit β} {x : Audit α} {r s : Run} {e : Failure}

/-- Forgetting part of what a step gives turns it into another step. -/
def Erases (view : β → α) (t : Audit β) (x : Audit α) : Prop := view <$> t = x

theorem Erases.of_ok (h : Erases view t x) {b : β} (ht : t r = .ok b s) : x r = .ok (view b) s := by
  rw [← h]
  exact map_of_ok ht

theorem Erases.of_error (h : Erases view t x) (ht : t r = .error e s) : x r = .error e s := by
  rw [← h]
  exact map_of_error ht

theorem Erases.lift_ok (h : Erases view t x) {a : α} (hx : x r = .ok a s) :
    ∃ b, t r = .ok b s ∧ view b = a := by
  rw [← h] at hx
  exact map_ok_iff.mp hx

theorem erases_pure {b : β} : Erases view (pure b) (pure (view b)) := rfl

theorem erases_throw : Erases view (throw e) (throw e) := rfl

theorem erases_bind {last : δ → γ} {f : β → Audit δ} {g : α → Audit γ} (h : Erases view t x)
    (hf : ∀ b, Erases last (f b) (g (view b))) : Erases last (t >>= f) (x >>= g) := by
  unfold Erases at *
  rw [map_bind, ← h, bind_map_left]
  exact bind_congr hf

theorem erases_both {x : Audit γ} {f : γ → Audit β} {g : γ → Audit α}
    (hf : ∀ c, Erases view (f c) (g c)) : Erases view (x >>= f) (x >>= g) := by
  have hx : Erases id x x := id_map x
  exact erases_bind hx hf

theorem erases_tail {last : δ → α} {f : β → Audit δ} (h : Erases view t x)
    (hf : ∀ b, Erases last (f b) (pure (view b))) : Erases last (t >>= f) x := by
  rw [← bind_pure x]
  exact erases_bind h hf

theorem erases_get_left {f : Run → Audit β} (hf : ∀ r, Erases view (f r) x) :
    Erases view (get >>= f) x := by
  funext r
  exact congrFun (hf r) r

theorem erases_tryCatch {f : Failure → Audit β} {g : Failure → Audit α} (h : Erases view t x)
    (hf : ∀ e, Erases view (f e) (g e)) : Erases view (tryCatch t f) (tryCatch x g) := by
  funext r
  obtain rfl := h
  cases ht : t r with
  | ok b s => rw [map_of_ok (tryCatch_of_ok ht), tryCatch_of_ok (map_of_ok ht)]
  | error e s =>
    rw [tryCatch_of_error (map_of_error ht), ← hf e]
    cases hfe : f e s with
    | ok b u => rw [map_of_ok hfe, map_of_ok ((tryCatch_of_error ht).trans hfe)]
    | error e' u => rw [map_of_error hfe, map_of_error ((tryCatch_of_error ht).trans hfe)]

theorem erases_collect {step : Audit Reached} : Erases Prod.fst (collect step) step := by
  have hstep : Erases id step step := id_map step
  exact erases_get_left fun before =>
    erases_tail hstep fun reached => erases_get_left fun after => erases_pure

theorem erases_takeSql {site : Site} {db sample : String} {reached : Reached} :
    Erases Prod.fst (takeSql site db sample reached) (Query.takeSql site db sample reached) := by
  unfold takeSql Query.takeSql
  cases taintOf sample with
  | some kind => exact erases_both fun _ => erases_pure
  | none =>
    refine erases_both fun r => erases_both fun tables => ?_
    cases tables with
    | error issue => exact erases_both fun _ => erases_pure
    | ok found =>
      dsimp only
      split
      · exact erases_both fun _ => erases_tail erases_collect fun _ => erases_pure
      · exact erases_tail erases_collect fun _ => erases_pure

/-- The view that forgets all of a record. -/
abbrev forget (_ : List Act) : Unit := ()

end Erasure

end Traced

end QueryAudit.Query
