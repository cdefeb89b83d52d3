/-
  QueryAudit.Disk — the file tree an analysis reads

  A tree of files as a value: contents by absolute path, the directories, and the working directory
  that relative paths start from. A file carries the moment of its last change, so that a reader
  can tell whether it is still the file it has seen before.
-/

import QueryAudit.Catalog
import QueryAudit.Path
import QueryAudit.Text.Case

namespace QueryAudit

/-- The content of a file and the moment it was last written. -/
structure File where
  bytes : ByteArray
  written : Nat := 0

instance : DecidableEq File := fun a b =>
  have := ByteArray.instDecidableEq a.bytes b.bytes
  decidable_of_iff (a.bytes = b.bytes ∧ a.written = b.written) (by cases a; cases b; simp)

structure Disk where
  base : String
  files : Catalog File := .empty
  /-- The directories other than the working directory and those above it. -/
  directories : List String := []
  clock : Nat := 0

namespace Disk

/-! ## Paths. -/

def resolve (disk : Disk) (path : String) : String :=
  if Path.isAbsolute path || Path.within path disk.base then Path.normalize path
  else Path.normalize (Path.join disk.base path)

def file? (disk : Disk) (path : String) : Option File := disk.files.get? (disk.resolve path)

def isFile (disk : Disk) (path : String) : Bool := (disk.file? path).isSome

def isDirectory (disk : Disk) (path : String) : Bool :=
  let path := disk.resolve path
  Path.within disk.base path || disk.directories.contains path

def occupied (disk : Disk) (path : String) : Bool := disk.isFile path || disk.isDirectory path

/-! ## Changes. -/

/-- A directory and those above it up to the working directory exist afterwards. -/
def addDirectory (disk : Disk) (path : String) : Disk :=
  let fresh := ((Path.upward (disk.resolve path)).takeWhile fun d =>
    Path.within d disk.base && d ≠ disk.base).filter fun d => !disk.directories.contains d
  { disk with directories := disk.directories ++ fresh }

def write (disk : Disk) (path : String) (bytes : ByteArray) : Disk :=
  let path := disk.resolve path
  let disk := disk.addDirectory (Path.parent path)
  { disk with files := disk.files.set path ⟨bytes, disk.clock⟩ }

/-- Time passes. What is written without time passing in between is written at one moment. -/
def tick (disk : Disk) : Disk := { disk with clock := disk.clock + 1 }

def delete (disk : Disk) (path : String) : Disk :=
  { disk with files := disk.files.erase (disk.resolve path) }

/-! ## Walking a subtree. -/

/-- The order in which a walk meets files, given by their components below the start: the files of
a directory come before its subdirectories, both by name. -/
def walkBefore : List String → List String → Bool
  | [a], [b] => !(b < a)
  | [_], _ => true
  | _, [_] => false
  | a :: as, b :: bs => if a = b then walkBefore as bs else a < b
  | [], _ => true
  | _, [] => false

def walk (disk : Disk) (directory : String) : List String :=
  let depth := (Path.components directory).length
  let below := disk.files.names.filter fun path =>
    path ≠ directory && Path.within path directory
  (below.map fun path => ((Path.components path).drop depth, path)).mergeSort
    (fun a b => walkBefore a.1 b.1) |>.map Prod.snd

/-- Whether a path names a PHP file, judged by its ending in any case. -/
def isScript (disk : Disk) (path : String) : Bool :=
  disk.isFile path && Text.startsWith "php.".toList (Text.lower path).toList.reverse

/-- The absolute paths of the PHP files a path stands for: itself, or all below it. -/
def scripts (disk : Disk) (target : String) : List String :=
  if disk.isFile target then
    if disk.isScript target then [disk.resolve target] else []
  else if disk.isDirectory target then
    (disk.walk (disk.resolve target)).filter disk.isScript
  else []

end Disk

end QueryAudit
