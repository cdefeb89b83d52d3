/-
  QueryAudit.Record.Locator — finding classes by name

  A class is looked for in the directory of the file that mentions it and then in the directories
  above, never outside of what is analysed. Every file is searched once, and the first declaration
  of a name stays.
-/

import QueryAudit.Run

namespace QueryAudit.Audit

open Php Record Text

/-- Know a class. The first declaration of a name stays; another one is warned about once. -/
def recordClass (d : ClassDecl) : Audit Unit := do
  if d.name = "" then return
  let r ← get
  match r.classes.get? d.key with
  | none => set { r with classes := r.classes.set d.key d }
  | some known =>
    if known.file = d.file && known.line = d.line then return
    let first := (← shown known.file) ++ ":" ++ toString known.line
    warnOnce ("duplicate-class:" ++ d.key)
      { message := "duplicate class " ++ d.name ++ ", first declared at " ++ first
        file := d.file, line := d.line, code := "duplicate-class", subject := d.name }

/-- Note that a file or directory is searched; false when it was searched before. -/
def startSearch (path : String) : Audit Bool := do
  let r ← get
  if r.searched.contains path then return false
  set { r with searched := r.searched ++ [path] }
  return true

def scanFile (path : String) : Audit Unit := do
  if !(← startSearch path) then return
  let _ ← source path
  let root ← try some <$> rootOf path catch failure =>
    if failure.isMissingFile then
      skipFile path failure
      pure none
    else throw failure
  match root with
  | none => return
  | some root =>
    let path := (← get).disk.resolve path
    for node in root.preorder do
      if node.kind = .classDeclaration then recordClass (.ofNode node path)

/-- Know the classes of all files below a directory that are not left out. -/
def scanTree (directory : String) : Audit Unit := do
  if !(← startSearch directory) then return
  for path in ← register directory do
    let view ← shown path
    if !(← get).settings.excludes view then scanFile path

def searchUpward (key : String) : List String → Audit (Option ClassDecl)
  | [] => return none
  | directory :: rest => do
    scanTree directory
    match (← get).classes.get? key with
    | some found => return some found
    | none => searchUpward key rest

def findClass (name start : String) : Audit (Option ClassDecl) := do
  let key := lower (shortClassName name)
  if key = "" then return none
  let r ← get
  match r.classes.get? key with
  | some found => return some found
  | none =>
    let place := r.disk.resolve start
    let directory := if r.disk.isDirectory place then place else Path.parent place
    let inside := (Path.upward directory).takeWhile (Path.within · r.root)
    match ← searchUpward key inside with
    | some found => return some found
    | none =>
      log ("class " ++ name ++ " not found from " ++ (← shown start))
      return none

def parentOf (className path : String) : Audit (Option String) := do
  if className = "" then return none
  return (← findClass className path).bind ClassDecl.parentName

end QueryAudit.Audit
