/-
  QueryAudit.Run — the state of one analysis

  Everything an analysis knows is held in one value: its settings, the file tree, the files read so
  far, the classes and definitions found, the findings, and what is being evaluated. A step of an
  analysis changes this state and may fail; what it did before it failed stays.
-/

import QueryAudit.Intrinsic.Basic
import QueryAudit.Php.Literal
import QueryAudit.Php.Parse
import QueryAudit.Record.ClassDecl
import QueryAudit.Scope.Snapshot
import QueryAudit.Scope.Tracker
import QueryAudit.Settings

namespace QueryAudit

open Php Record Scope

/-! ## State. -/

/-- A source file that is known. Content and tree are read when they are needed. -/
structure Source where
  content : Option ByteArray := none
  tree : Option (Nat × Node) := none
  linked : Option Nat := none
  /-- Number and size of a tree that was put aside; reading the file again gives that tree. -/
  shelved : Option (Nat × Nat) := none

/-- How many nodes the tree of a file has, whether it is at hand or put aside. -/
def Source.treeSize (s : Source) : Nat :=
  match s.tree with
  | some (_, node) => node.size
  | none => (s.shelved.map Prod.snd).getD 0

/-- A file without its content and its tree, which can be read again. -/
def Source.putAside (s : Source) : Source :=
  match s.tree with
  | some (number, node) => { shelved := some (number, node.size) }
  | none => { shelved := s.shelved }

inductive CacheFile where
  | snapshot (s : Snapshot)
  | text (content : String)

/-- Record classes and what their accessors gave. -/
structure Hierarchy where
  records : List String := []
  /-- Values of accessors by class key and accessor in small letters. -/
  accessors : List ((String × String) × List String) := []

structure Run where
  settings : Settings := {}
  verbose : Bool := false
  debug : Bool := false
  root : String
  disk : Disk
  sources : Catalog Source := .empty
  nextTree : Nat := 0
  diagnostics : Diagnostics := {}
  /-- The classes by name in small letters; the first of a name stays. -/
  classes : Catalog ClassDecl := .empty
  searched : List String := []
  scopes : Catalog FileScopes := .empty
  spilled : List String := []
  cache : Catalog CacheFile := .empty
  hierarchy : Option Hierarchy := none
  hardErrors : Nat := 0
  /-- Bindings being evaluated, by file and number; one entry for each time. -/
  active : List (String × Nat) := []
  log : List String := []

/-! ## Failures. -/

inductive Failure where
  | hard (error : HardError)
  | drained
  | fileMissing (path : String)
  | unreadable (path : String)
  | targetMissing (path : String)
  | cacheBlocked
  | cacheBelowFile
  | escape (error : EscapeError)
  | intrinsic (fault : Intrinsic.Fault)
  | absent
  | noSuchNode
  | unknownDialect
  | endless
  deriving DecidableEq, Repr

def Failure.message : Failure → Option String
  | .hard e => some e.text
  | .drained => some (Diagnostics.Closed.message {})
  | .fileMissing path => some ("file not exists: " ++ path)
  | .unreadable path => some ("[Errno 2] No such file or directory: '" ++ path ++ "'")
  | .targetMissing path => some (path ++ " does not exist")
  | _ => none

def Failure.isMissingFile : Failure → Bool
  | .fileMissing _ | .unreadable _ | .targetMissing _ => true
  | _ => false

abbrev Audit (α : Type) := EStateM Failure Run α

def Run.start (disk : Disk) (target : String) (settings : Settings) (verbose debug : Bool) : Run :=
  let place := disk.resolve target
  let root := if disk.isFile place then Path.parent place else place
  { settings, verbose, debug, root, disk }

/-- A bound on how many classes there can be: those that are known, and every other declaration
takes a byte of a file. -/
def Run.extent (r : Run) : Nat :=
  r.disk.files.values.foldl (fun n f => n + f.bytes.size) 0 + r.classes.size + 2

/-- A bound on how many classes can be passed on the way up: each has a stretch of a file for its
name. -/
def Run.ancestry (r : Run) : Nat :=
  (r.disk.files.values.map fun f => (f.bytes.size + 1) * (f.bytes.size + 1)).foldr (· + ·) 0 + 1

/-- How many nodes the trees have that were read, those put aside included. -/
def Run.treeSize (r : Run) : Nat :=
  r.sources.values.foldl (fun n s => n + s.treeSize) 0

namespace Audit

/-! ## Messages and findings. -/

def print (line : String) : Audit Unit := modify fun r => { r with log := r.log ++ [line] }

def log (message : String) : Audit Unit := do
  let r ← get
  if r.verbose || r.debug then print ("[*] " ++ message)

def shown (path : String) : Audit String := do return Path.shownFrom (← get).root path

def collecting {α : Type} (step : Diagnostics.Step α) : Audit α := do
  let r ← get
  match step r.diagnostics with
  | .ok a d => set { r with diagnostics := d }; return a
  | .error _ d => set { r with diagnostics := d }; throw .drained

def warn (warning : Warning) : Audit Unit := do let _ ← collecting (Diagnostics.warn warning)

def warnOnce (key : String) (warning : Warning) : Audit Unit := do
  let _ ← collecting (Diagnostics.warnOnce key warning)

/-- Meet a shape that is not handled: fail, or pass over it with a warning. -/
def hardError (e : HardError) : Audit Unit := do
  modify fun r => { r with hardErrors := r.hardErrors + 1 }
  if !(← get).debug then throw (.hard e)
  print ("Skipped: " ++ e.text)
  warn { message := "unhandled shape skipped: " ++ e.message, file := e.file, line := e.line
         nodeType := e.nodeType }

/-- Tell the user about a file that cannot be read, and leave it out from now on. -/
def skipFile (path : String) (failure : Failure) : Audit Unit := do
  print ("Error reading " ++ path ++ ": " ++ failure.message.getD "")
  modify fun r => { r with searched := r.searched ++ [path] }

/-! ## Files. -/

def source (path : String) : Audit Source := do
  let r ← get
  let path := r.disk.resolve path
  match r.sources.get? path with
  | some s => return s
  | none =>
    if r.disk.isFile path then
      set { r with sources := r.sources.set path {} }
      return {}
    else throw (.fileMissing path)

def register (path : String) : Audit (List String) := do
  let found := (← get).disk.scripts path
  for file in found do
    let _ ← source file
  return found

def content (path : String) : Audit ByteArray := do
  let s ← source path
  match s.content with
  | some bytes => return bytes
  | none =>
    let r ← get
    let path := r.disk.resolve path
    match r.disk.file? path with
    | none => throw (.unreadable path)
    | some file =>
      set { r with sources := r.sources.set path { s with content := some file.bytes } }
      return file.bytes

/-- The lines from one to another of a file, counted from one and joined with a separator. One line
is given unless the last line comes after the first. -/
def excerpt (path : String) (first last : Int) (separator : String) : Audit String := do
  let _ ← source path
  let lines := Text.splitAt '\n' (Text.decode (← content path))
  if first < 1 || (lines.length : Int) < first then return ""
  let count := if first < last then (last - first + 1).toNat else 1
  return Text.joinWith separator ((lines.drop (first - 1).toNat).take count)

/-- The number that the tree of a file gets: that of the tree put aside, or a new one. -/
def treeNumber (s : Source) : Audit Nat := do
  match s.shelved with
  | some (number, _) => return number
  | none =>
    let r ← get
    set { r with nextTree := r.nextTree + 1 }
    return r.nextTree

def rootOf (path : String) : Audit Cursor := do
  let s ← source path
  match s.tree with
  | some (number, node) => return .root number node
  | none =>
    let node := parse (← content path)
    let number ← treeNumber s
    modify fun r => { r with sources := r.sources.modify (r.disk.resolve path) fun s =>
      { s with tree := some (number, node), shelved := none } }
    return .root number node

/-- From now on the nodes of the current tree of a file know what is above them. -/
def link (path : String) : Audit Unit :=
  modify fun r => { r with sources := r.sources.modify (r.disk.resolve path) fun s =>
    { s with linked := s.tree.map Prod.fst } }

def release (path : String) : Audit Unit := do
  let _ ← source path
  modify fun r => { r with sources := r.sources.modify (r.disk.resolve path) fun _ => {} }

def shelve (path : String) : Audit Unit := do
  let _ ← source path
  modify fun r => { r with sources := r.sources.modify (r.disk.resolve path) Source.putAside }

/-- The nodes above a node of a file, nearest first, as far as they are known. -/
def above (path : String) (node : Cursor) : Audit (List Cursor) := do
  let s ← source path
  return if s.linked = some node.tree && node.node.named then node.ancestors else []

/-! ## Other errors. -/

def unescaped {α : Type} (value : Except EscapeError α) : Audit α :=
  match value with
  | .ok a => return a
  | .error e => throw (.escape e)

end Audit

end QueryAudit
