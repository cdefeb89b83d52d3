/-
  QueryAudit.Scope.Store — definitions of all files

  The definitions of a file are found when they are first needed, and may be put aside and taken
  back. References are resolved in the scope they stand in; members of classes are looked for in
  the class and in the classes it descends from.
-/

import QueryAudit.Json
import QueryAudit.Record.Locator

namespace QueryAudit.Audit

open Php Record Scope Text

/-! ## Tracking. -/

def callNames (s : Settings) : List String := s.commandFactory :: s.finderMethods

def replay (path : String) : List Event → Audit Unit
  | [] => return
  | .classFound node :: rest => do
    recordClass (.ofNode node path)
    replay path rest
  | .unhandled e :: rest => do
    hardError e
    replay path rest

def track (path : String) : Audit FileScopes := do
  log ("tracking scopes in " ++ (← shown path))
  let root ← rootOf path
  let (scopes, events) := Tracker.run (callNames (← get).settings) path root
  link path
  replay path events
  modify fun r => { r with scopes := r.scopes.set path scopes }
  return scopes

/-! ## Putting aside. -/

/-- The name of the file for the binding map of a path: plain characters only. -/
def cacheName (path : String) : String :=
  String.ofList ((trimList (· = '/') path.toList).map fun c =>
    if c.isAlphanum || c = '_' || c = '.' || c = '-' then c else '_') ++ ".json"

def cacheRefusal? (disk : Disk) (directory : String) : Option Failure :=
  if disk.isFile directory then some .cacheBlocked
  else if (Path.upward (disk.resolve directory)).any disk.isFile then some .cacheBelowFile
  else none

def saveCached (directory : String) (scopes : FileScopes) : Audit Unit := do
  let r ← get
  match cacheRefusal? r.disk directory, r.disk.file? scopes.path with
  | some failure, _ => throw failure
  | none, none => throw (.unreadable scopes.path)
  | none, some file =>
    let saved := CacheFile.snapshot (scopes.save file.written file.bytes.size)
    set { r with cache := r.cache.set (cacheName scopes.path) saved }

/-- Take the definitions of a file back from its binding map. Nothing comes back when there is no
map, when the file has changed, or when a node is not found. -/
def loadCached (path : String) : Audit (Option FileScopes) := do
  let r ← get
  match r.cache.get? (cacheName path) with
  | none => return none
  | some (.text content) =>
    match Json.read? content with
    | none => return none
    | some (.object _) =>
      if (r.disk.file? path).isNone then throw (.unreadable path)
      return none
    | some _ =>
      if (r.disk.file? path).isNone then throw (.unreadable path)
      throw .absent
  | some (.snapshot s) =>
    match r.disk.file? path with
    | none => throw (.unreadable path)
    | some file =>
      if s.written ≠ file.written || s.size ≠ file.bytes.size then return none
      let root ← rootOf path
      link path
      return s.restore? path root

/-- The definitions of a file: as known, taken back, or found afresh. -/
def scopesOf (path : String) : Audit FileScopes := do
  let r ← get
  let path := r.disk.resolve path
  match r.scopes.get? path with
  | some scopes => return scopes
  | none =>
    let _ ← source path
    if r.settings.cacheDir.isSome && r.spilled.contains path then
      match ← loadCached path with
      | some scopes =>
        log ("reloaded scopes of " ++ (← shown path) ++ " from cache")
        modify fun r => { r with scopes := r.scopes.set path scopes }
        return scopes
      | none => track path
    else track path

def isTracked (path : String) : Audit Bool := do
  let r ← get
  return r.scopes.contains (r.disk.resolve path)

/-- Put the definitions and the tree of a file aside, if binding maps are kept. -/
def evict (path : String) : Audit Unit := do
  let r ← get
  match r.settings.cacheDir with
  | none => return
  | some directory =>
    let path := r.disk.resolve path
    match r.scopes.get? path with
    | none => return
    | some scopes =>
      set { r with scopes := r.scopes.erase path }
      saveCached directory scopes
      modify fun r => { r with
        spilled := if r.spilled.contains path then r.spilled else r.spilled ++ [path] }
      shelve path

/-! ## Resolving. -/

def closureOf (path : String) (node : Cursor) : Audit Closure := do
  return closureAbove (← above path node) none

/-- A constant or static property of a class or of a class it descends from. The names of classes
passed so far are given in small letters, and the count bounds the walk. -/
def memberFrom (identifier : String) :
    Nat → List String → Option String → String → Audit (Option Binding)
  | 0, _, _, _ => return none
  | n + 1, seen, className, path => do
    match className.filter (· ≠ "") with
    | none => return none
    | some name =>
      if seen.contains (lower name) then return none
      match ← findClass name path with
      | none => return none
      | some d =>
        let scopes ← scopesOf d.file
        match scopes.lookup (.ofClass d.name) identifier none with
        | some found => return some found
        | none => memberFrom identifier n (lower name :: seen) d.parentName d.file

/-- A constant or static property of a class, looked for from a file on. -/
def classMember (className identifier path : String) : Audit (Option Binding) := do
  memberFrom identifier (← get).ancestry [] (some className) path

def resolveKey (path : String) (key : RefKey) (owner : Closure) (line : Int) :
    Audit (Option Binding) := do
  let scopes ← scopesOf path
  match key.namedClass? with
  | some "parent" =>
    match (← parentOf owner.className path).filter (· ≠ "") with
    | none => return none
    | some parent => classMember parent key.identifier path
  | some className => classMember className key.identifier path
  | none =>
    if key.classScoped then
      if owner.className = "" then return scopes.lookup .global key.identifier (some line)
      let isProperty := startsWith "->".toList key.identifier.toList
      let atLine := if key.identifier.toList.head? = some '-' then some line else none
      match scopes.lookup (.ofClass owner.className) key.identifier atLine with
      | some found => return some found
      | none =>
        if isProperty then return none
        match (← parentOf owner.className path).filter (· ≠ "") with
        | none => return none
        | some parent => classMember parent key.identifier path
    else return scopes.lookup owner key.identifier (some line)

/-- The binding that a reference in a file stands for, seen from its own line or another. -/
def resolve (path : String) (node : Cursor) (line : Option Int) : Audit (Option Binding) := do
  match referenceKey? node with
  | none => return none
  | some key =>
    let _ ← scopesOf path
    let owner ← closureOf path node
    resolveKey path key owner (line.getD node.line)

def previousOf (b : Binding) : Audit (Option Binding) := do
  return (← scopesOf b.path).previous b

/-- All bindings that the loop of a binding made for its identifier. -/
def alternativesOf (b : Binding) : Audit (List Binding) := do
  return (← scopesOf b.path).alternatives b

end QueryAudit.Audit
