/-
  QueryAudit.Report — reports

  Findings as plain text and as JSON. Paths are shown from the directory that was analysed.
-/

import QueryAudit.Analysis

namespace QueryAudit.Report

open Record Text

/-! ## Plain text. -/

def listed (names : List String) (none : String) : String :=
  if names.isEmpty then none else joinWith ", " names

def rule : String := "\n" ++ String.ofList (List.replicate 70 '=') ++ "\n"

def recordLine (f : Findings) (d : ClassDecl) : String :=
  "  " ++ d.name ++ ": " ++ listed d.tableNames "?" ++ " [" ++ listed d.dbNames f.defaultDb ++ "]\n"

def tableLine (entry : String × List String) : String :=
  "  " ++ entry.1 ++ ": " ++ joinWith ", " entry.2 ++ "\n"

def place (f : Findings) (file : String) (line : Int) : String :=
  Path.shownFrom f.root file ++ ":" ++ toString line

def referenceLines (f : Findings) (r : Reference) : String :=
  "  " ++ place f r.file r.line ++ " " ++ r.qualifiedTable ++ "\n    -> " ++ r.sql ++ "\n"

def warningLine (f : Findings) (w : Warning) : String :=
  "  [" ++ (if w.code = "" then "warning" else w.code) ++ "] " ++ place f w.file w.line ++ " " ++
    w.message ++ "\n"

def text (f : Findings) (withReferences : Bool) : String :=
  "Record classes:\n" ++ String.join (f.sortedRecords.map (recordLine f)) ++
  "\nTables:\n" ++ String.join (f.tableIndex.map tableLine) ++
  (if withReferences then
    rule ++ "DB references:\n" ++ String.join (f.references.map (referenceLines f)) else "") ++
  rule ++ "Warnings:\n" ++ String.join (f.warnings.map (warningLine f)) ++
  rule ++ "Record classes: " ++ toString f.records.length ++ "\n" ++
  (if withReferences then "DB references: " ++ toString f.references.length ++ "\n" else "") ++
  "Warnings: " ++ toString f.warnings.length ++ "\n"

/-! ## JSON. -/

def texts (items : List String) : Json := .list (items.map .text)

def recordJson (f : Findings) (d : ClassDecl) : Json :=
  .object [
    ("class", .text d.name),
    ("file", .text (Path.shownFrom f.root d.file)),
    ("line", .number d.line),
    ("ancestors", texts d.ancestors),
    ("db", texts (if d.dbNames.isEmpty then [f.defaultDb] else d.dbNames)),
    ("tables", texts d.tableNames),
    ("primary_key", texts d.primaryKey)]

def warningJson (shown : String → String) (w : Warning) : Json :=
  .object [
    ("message", .text w.message),
    ("code", .text w.code),
    ("file", .text (shown w.file)),
    ("line", .number w.line),
    ("node_type", .text w.nodeType),
    ("subject", .text w.subject)]

def referenceJson (shown : String → String) (r : Reference) : Json :=
  .object [
    ("db", .text r.db),
    ("table", .text r.table),
    ("sql", .text r.sql),
    ("file", .text (shown r.file)),
    ("line", .number r.line),
    ("class", .text r.className),
    ("method", .text r.methodName)]

def program : String := "yiihunter v1.0.0"

def json (f : Findings) (date : String) (withReferences : Bool) : Json :=
  .object ([
    ("scan_date", .text date),
    ("scanner", .text program),
    ("target", .text f.target),
    ("files_scanned", .number f.fileCount),
    ("records", .list (f.sortedRecords.map (recordJson f))),
    ("tables", .object (f.tableIndex.map fun (table, names) => (table, texts names))),
    ("warnings", .list (f.warnings.map (warningJson (Path.shownFrom f.root))))] ++
    (if withReferences then
      [("references", .list (f.references.map (referenceJson (Path.shownFrom f.root))))] else []))

end QueryAudit.Report
