/-
  QueryAudit.Diagnostics — findings of an analysis

  References to database tables and warnings are collected in order and handed over once. After
  that nothing more is taken.
-/

import QueryAudit.Php.Node

namespace QueryAudit

/-! ## Findings. -/

/-- A shape of code that the analysis has no handling for. -/
structure HardError where
  message : String
  nodeType : String := ""
  file : String := ""
  line : Int := 0
  deriving DecidableEq, Repr

def HardError.text (e : HardError) : String :=
  let place := if e.file = "" then "line " ++ toString e.line else e.file ++ ":" ++ toString e.line
  let kind := if e.nodeType = "" then "" else " (" ++ e.nodeType ++ ")"
  place ++ ": " ++ e.message ++ kind

def HardError.at (message : String) (node : Php.Cursor) (file : String) : HardError :=
  ⟨message, node.kind.title, file, node.line⟩

/-- A database table reached from one call. -/
structure Reference where
  db : String
  table : String
  sql : String
  file : String
  line : Int
  className : String := ""
  methodName : String := ""
  deriving DecidableEq, Repr

def Reference.qualifiedTable (r : Reference) : String :=
  if r.db = "" then r.table else r.db ++ "." ++ r.table

structure Warning where
  message : String
  file : String := ""
  line : Int := 0
  nodeType : String := ""
  code : String := ""
  subject : String := ""
  deriving DecidableEq, Repr

def Warning.at (message : String) (node : Php.Cursor) (file code : String) (subject : String := "") :
    Warning :=
  ⟨message, file, node.line, node.kind.title, code, subject⟩

/-! ## Collecting. -/

structure Diagnostics where
  references : List Reference := []
  warnings : List Warning := []
  seen : List String := []
  drained : Bool := false
  deriving DecidableEq, Repr

namespace Diagnostics

/-- Nothing is collected after everything was handed over. -/
structure Closed where
  deriving DecidableEq, Repr

def Closed.message (_ : Closed) : String := "diagnostics already drained for this run"

/-- A step that collects, or is refused. A refused step may have changed the keys. -/
abbrev Step (α : Type) := EStateM Closed Diagnostics α

def checkOpen : Step Unit := do
  if (← get).drained then throw {}

def addReference (reference : Reference) : Step Unit := do
  checkOpen
  modify fun d => { d with references := d.references ++ [reference] }

def warn (warning : Warning) : Step Warning := do
  checkOpen
  modify fun d => { d with warnings := d.warnings ++ [warning] }
  return warning

def warnOnce (key : String) (warning : Warning) : Step (Option Warning) := do
  if (← get).seen.contains key then return none
  modify fun d => { d with seen := d.seen ++ [key] }
  return some (← warn warning)

def drain : Step (List Reference × List Warning) := do
  checkOpen
  let d ← get
  set { d with references := [], warnings := [], drained := true }
  return (d.references, d.warnings)

end Diagnostics

end QueryAudit
