/-
  QueryAudit.Settings — naming conventions and limits of an analysis

  What the classes and methods of the audited code are called, which SQL dialect it speaks, how
  many samples are looked at, what is left out and where binding maps are kept. Settings are read
  from a file next to the audited code or above it.
-/

import QueryAudit.Disk
import QueryAudit.Glob
import QueryAudit.Text.Glyph
import QueryAudit.Yaml.Read

namespace QueryAudit

open Text

/-! ## Settings. -/

structure Settings where
  recordBaseClass : String := "CActiveRecord"
  commandFactory : String := "createCommand"
  finderMethods : List String := ["find", "findAll", "findByPk"]
  pkFinderMethods : List String := ["findByPk"]
  fromMethods : List String := ["from", "join", "leftJoin", "rightJoin"]
  tableAccessor : String := "tableName"
  dbAccessor : String := "getDbConnection"
  pkAccessor : String := "primaryKey"
  defaultDbName : String := "db"
  defaultPk : String := "id"
  tablePrefix : String := ""
  sqlDialect : String := "mysql"
  maxSamples : Nat := 64
  excludePaths : List String := []
  cacheDir : Option String := none
  deriving Repr

namespace Settings

def names (others : List String) (name : String) : Bool := others.any (sameIgnoringCase name ·)

def isFinder (s : Settings) (method : String) : Bool := names s.finderMethods method

def isPkFinder (s : Settings) (method : String) : Bool := names s.pkFinderMethods method

def isFromMethod (s : Settings) (method : String) : Bool := names s.fromMethods method

def isCommandFactory (s : Settings) (method : String) : Bool :=
  sameIgnoringCase method s.commandFactory

/-- Whether a path is left out: it matches a pattern, or a pattern with a slash at its end names
one of its components. -/
def excludes (s : Settings) (path : String) : Bool :=
  s.excludePaths.any fun pattern =>
    Glob.matches? pattern path ||
      (pattern.toList.getLast? = some '/' &&
        (splitAt '/' path).contains (trimEnd (· = '/') pattern))

end Settings

/-! ## Settings files. -/

inductive SettingsError where
  | notFound (path : String)
  | malformed (path : String)
  | notMapping (path : String)
  | notList (path key : String)
  | notInteger (path : String)
  | notPositive (path : String)
  | infinite
  | notText
  deriving DecidableEq, Repr

def SettingsError.message? : SettingsError → Option String
  | .notFound path => some ("config file not found: " ++ path)
  | .malformed path => some ("cannot read " ++ path ++ ": <yaml>")
  | .notMapping path => some (path ++ ": top level must be a mapping")
  | .notList path key => some (path ++ ": '" ++ key ++ "' must be a list")
  | .notInteger path => some (path ++ ": 'max_samples' must be an integer")
  | .notPositive path => some (path ++ ": 'max_samples' must be positive")
  | .infinite | .notText => none

namespace Settings

def fileNames : List String := [".yiihunter.yml", ".yiihunter.yaml"]

/-- A text setting: the text of any value but null; otherwise what it was. -/
def textOr (entries : List (Yaml.Value × Yaml.Value)) (key old : String) : String :=
  match Yaml.entry? entries key with
  | none | some .null => old
  | some value => value.toText

def listOr (path : String) (entries : List (Yaml.Value × Yaml.Value)) (key : String)
    (old : List String) : Except SettingsError (List String) :=
  match Yaml.entry? entries key with
  | none | some .null => .ok old
  | some (.list items) => .ok (items.map Yaml.Value.toText)
  | some _ => .error (.notList path key)

/-- A value as a whole number: numbers are cut, truth values count, texts are read. -/
def wholeNumber (path : String) : Yaml.Value → Except SettingsError Int
  | .int n => .ok n
  | .bool b => .ok (if b then 1 else 0)
  | .float x => match x.truncate? with
    | some n => .ok n
    | none => .error .infinite
  | .text s => match readInt? 10 s with
    | some n => .ok n
    | none => .error (.notInteger path)
  | _ => .error (.notInteger path)

def samplesOr (path : String) (entries : List (Yaml.Value × Yaml.Value)) (old : Nat) :
    Except SettingsError Nat :=
  match Yaml.entry? entries "max_samples" with
  | none => .ok old
  | some value => do
    let n ← wholeNumber path value
    if n < 1 then .error (.notPositive path) else return n.toNat

/-- The directory for binding maps: a relative one starts at the directory of the file. -/
def cacheDirOf (disk : Disk) (path : String) (entries : List (Yaml.Value × Yaml.Value)) :
    Option String :=
  match Yaml.entry? entries "cache_dir" with
  | none => none
  | some value =>
    if value.isEmpty then none
    else some (Path.join (Path.parent (disk.resolve path)) value.toText)

def ofEntries (disk : Disk) (path : String) (entries : List (Yaml.Value × Yaml.Value)) :
    Except SettingsError Settings := do
  let d : Settings := {}
  let text (key old : String) : String := textOr entries key old
  let finderMethods ← listOr path entries "finder_methods" d.finderMethods
  let pkFinderMethods ← listOr path entries "pk_finder_methods" d.pkFinderMethods
  let fromMethods ← listOr path entries "from_methods" d.fromMethods
  let excludePaths ← listOr path entries "exclude_paths" d.excludePaths
  let maxSamples ← samplesOr path entries d.maxSamples
  return {
    recordBaseClass := text "record_base_class" d.recordBaseClass
    commandFactory := text "command_factory" d.commandFactory
    tableAccessor := text "table_accessor" d.tableAccessor
    dbAccessor := text "db_accessor" d.dbAccessor
    pkAccessor := text "pk_accessor" d.pkAccessor
    defaultDbName := text "default_db_name" d.defaultDbName
    defaultPk := text "default_pk" d.defaultPk
    tablePrefix := text "table_prefix" d.tablePrefix
    sqlDialect := text "sql_dialect" d.sqlDialect
    finderMethods, pkFinderMethods, fromMethods, excludePaths, maxSamples
    cacheDir := cacheDirOf disk path entries }

/-- Settings from the text of a file. An empty document gives the usual settings. -/
def ofText (disk : Disk) (path text : String) : Except SettingsError Settings :=
  match Yaml.read? text with
  | none => .error (.malformed path)
  | some (.mapping entries) => ofEntries disk path entries
  | some value => if value.isEmpty then .ok {} else .error (.notMapping path)

def readFrom (disk : Disk) (path : String) : Except SettingsError Settings :=
  match disk.file? path with
  | none => .error (.notFound path)
  | some file =>
    match String.fromUTF8? file.bytes with
    | none => .error .notText
    | some text => ofText disk path text

/-- The settings file for a target: in its directory or the nearest one above. -/
def fileFor? (disk : Disk) (target : String) : Option String :=
  let start := disk.resolve target
  let start := if disk.isFile start then Path.parent start else start
  (Path.upward start).findSome? fun directory =>
    (fileNames.map (Path.join directory)).find? disk.isFile

/-- The settings for a target: from a given file, from the nearest file, or the usual ones. -/
def load (disk : Disk) (target config : String) : Except SettingsError Settings :=
  if config ≠ "" then readFrom disk config
  else match fileFor? disk target with
    | some path => readFrom disk path
    | none => .ok {}

end Settings

end QueryAudit
