/-
  QueryAudit.Analysis — whole analyses

  An analysis of a target first looks for the record classes below its root, then tracks and checks
  one PHP file after the other, and hands over what it found. Locating stops after the record
  classes.
-/

import QueryAudit.Query.Check

namespace QueryAudit

open Record

/-! ## Findings. -/

structure Findings where
  target : String
  root : String
  records : List ClassDecl
  references : List Reference := []
  warnings : List Warning
  fileCount : Nat
  defaultDb : String

namespace Findings

def injections (f : Findings) : List Warning := f.warnings.filter fun w => w.code = "sql-injection"

def sortedRecords (f : Findings) : List ClassDecl :=
  f.records.mergeSort fun a b => !(b.key < a.key)

/-- The tables that a record class is mapped to, with their databases. -/
def tablesOf (f : Findings) (d : ClassDecl) : List String :=
  (recordPairs d f.defaultDb).map fun (db, table) => db ++ "." ++ table

/-- The record classes mapped to each table, tables and classes in order. -/
def tableIndex (f : Findings) : List (String × List String) :=
  let index := f.records.foldl (fun index d =>
    (f.tablesOf d).foldl (fun index table => index.alter table [] (· ++ [d.name])) index)
    (Catalog.empty : Catalog (List String))
  let sorted := index.entries.mergeSort fun a b => !(b.1 < a.1)
  sorted.map fun (table, names) => (table, names.mergeSort fun a b => !(b < a))

end Findings

/-! ## Analyses. -/

namespace Audit

def checkTarget (target : String) : Audit Unit := do
  if !(← get).disk.occupied target then throw (.targetMissing target)

def targetFiles (target : String) : Audit (List String) := do
  let r ← get
  return (r.disk.scripts target).filter fun path =>
    !r.settings.excludes (Path.shownFrom r.root path)

/-- Track a file and check the calls in it, then put it aside. A file that is gone is skipped. -/
def analyzeFile (path : String) : Audit Unit := do
  let found ← try some <$> scopesOf path
    catch failure =>
      if failure.isMissingFile then
        skipFile path failure
        pure none
      else throw failure
  match found with
  | none => return
  | some scopes =>
    Query.checkFile scopes
    evict path

def handOver (target : String) (fileCount : Nat) (references : List Reference)
    (warnings : List Warning) : Audit Findings := do
  let r ← get
  return { target, root := r.root, records := ← records, references, warnings, fileCount
           defaultDb := r.settings.defaultDbName }

/-- Find the record classes around a target and check the calls in its files. -/
def analyze (target : String) : Audit Findings := do
  checkTarget target
  resolveHierarchy (← get).root
  let files ← targetFiles target
  for path in files do analyzeFile path
  let (references, warnings) ← collecting Diagnostics.drain
  log (toString references.length ++ " references, " ++ toString warnings.length ++
    " warnings in " ++ toString files.length ++ " files")
  handOver target files.length references warnings

def locate (target : String) : Audit Findings := do
  checkTarget target
  resolveHierarchy (← get).root
  let (_, warnings) ← collecting Diagnostics.drain
  handOver target (← get).sources.size [] warnings

end Audit

end QueryAudit
