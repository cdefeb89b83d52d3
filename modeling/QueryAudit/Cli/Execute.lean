/-
  QueryAudit.Cli.Execute — carrying out a command

  A request is carried out on a file tree: settings are loaded, the target is analysed, the report
  is printed or written. What comes of it is a value: the exit code, the lines for the user, the
  printed report and the file tree afterwards.
-/

import QueryAudit.Cli.Arguments
import QueryAudit.Report

namespace QueryAudit.Cli

open Text

/-! ## Results. -/

structure Execution where
  exit : Nat
  messages : List String := []
  report : Option Json := none
  shown : Option Findings := none
  disk : Disk

inductive Breakdown where
  /-- The settings could not be loaded for a reason that is not reported. -/
  | settings (error : SettingsError)
  | failure (failure : Failure)
  | noDirectory
  | notDirectory
  | isDirectory

def exitOk : Nat := 0

def exitInjections : Nat := 1

def exitFatal : Nat := 2

def exitFor (f : Findings) : Nat := if f.injections.isEmpty then exitOk else exitInjections

/-! ## Steps. -/

def writeFile (disk : Disk) (path content : String) : Except Breakdown Disk :=
  let place := disk.resolve path
  if disk.isDirectory place then .error .isDirectory
  else if disk.isFile (Path.parent place) then .error .notDirectory
  else if disk.isDirectory (Path.parent place) then .ok (disk.write place content.toUTF8)
  else .error .noDirectory

/-- The settings for a request, with the options that override them. -/
def settingsFor (disk : Disk) (request : Request) : Except SettingsError Settings := do
  let settings ← Settings.load disk request.target (request.config.getD "")
  return match request.cacheDir.filter (· ≠ "") with
    | some directory => { settings with cacheDir := some directory }
    | none => settings

def Command.withReferences : Command → Bool
  | .analyze => true
  | .locate => false

def Command.audit (command : Command) (target : String) : Audit Findings :=
  match command with
  | .analyze => Audit.analyze target
  | .locate => Audit.locate target

def deliver (disk : Disk) (request : Request) (date : String) (f : Findings)
    (messages : List String) : Except Breakdown Execution :=
  let withReferences := request.command.withReferences
  let report := Report.json f date withReferences
  match request.json, request.outputFile.filter (· ≠ "") with
  | true, some path => do
    let disk ← writeFile disk path report.pretty
    return { exit := exitFor f, messages, disk }
  | true, none => return { exit := exitFor f, messages, report := some report, disk }
  | false, some path => do
    let disk ← writeFile disk path (Report.text f withReferences)
    return { exit := exitFor f, messages, shown := some f, disk }
  | false, none => return { exit := exitFor f, messages, shown := some f, disk }

/-- What the user is told about a failure, if it is one that is reported. -/
def failureLines? : Failure → Option (List String)
  | .hard e =>
    some ["Fatal: " ++ e.text, "Re-run with --debug to skip unhandled shapes."]
  | failure =>
    if failure.isMissingFile then some ["Error: " ++ failure.message.getD ""] else none

def execute (disk : Disk) (date : String) (request : Request) : Except Breakdown Execution :=
  match settingsFor disk request with
  | .error error =>
    match error.message? with
    | some message => .ok { exit := exitFatal, messages := ["Error: " ++ message], disk }
    | none => .error (.settings error)
  | .ok settings =>
    let start := Run.start disk request.target settings request.verbose request.debug
    match (request.command.audit request.target).run start with
    | .ok findings run => deliver run.disk request date findings run.log
    | .error failure run =>
      match failureLines? failure with
      | some lines => .ok { exit := exitFatal, messages := run.log ++ lines, disk := run.disk }
      | none => .error (.failure failure)

end QueryAudit.Cli
