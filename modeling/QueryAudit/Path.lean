/-
  QueryAudit.Path — file paths

  Paths are texts of components between slashes. This module splits and normalises them, climbs to
  the parent, tests whether one lies inside another, and writes one relative to another.
-/

import QueryAudit.Text.Pieces

namespace QueryAudit.Path

open Text

/-! ## Components. -/

def isAbsolute (path : String) : Bool := path.toList.head? = some '/'

def components (path : String) : List String :=
  (splitAt '/' path).filter fun part => part ≠ "" && part ≠ "."

/-- Drop two-dot components together with what they cancel. The first argument holds the
components kept so far, last one first. -/
def cancelDots (absolute : Bool) : List String → List String → List String
  | kept, [] => kept.reverse
  | kept, part :: rest =>
    if part = ".." then
      match kept with
      | [] => if absolute then cancelDots absolute [] rest
              else cancelDots absolute [".."] rest
      | last :: before =>
        if last = ".." then cancelDots absolute (".." :: kept) rest
        else cancelDots absolute before rest
    else cancelDots absolute (part :: kept) rest

/-- A path without empty, one-dot and two-dot components where they can be avoided. -/
def normalize (path : String) : String :=
  let absolute := isAbsolute path
  let parts := cancelDots absolute [] (components path)
  if absolute then "/" ++ joinWith "/" parts
  else if parts.isEmpty then "." else joinWith "/" parts

/-- Two paths put one after the other; an absolute second path stands alone. -/
def join (directory path : String) : String :=
  if isAbsolute path then path
  else if directory = "" || directory.toList.getLast? = some '/' then directory ++ path
  else directory ++ "/" ++ path

/-- Everything before the last slash, and before the slashes next to it. -/
def parent (path : String) : String :=
  let head := (path.toList.reverse.dropWhile (· ≠ '/')).reverse
  if head.all (· = '/') then String.ofList head
  else String.ofList (head.reverse.dropWhile (· = '/')).reverse

/-- A directory and those above it, nearest first. A path of `n` characters has at most `n`
directories above it. -/
def upward (directory : String) : List String := go directory.length directory
where
  go : Nat → String → List String
    | 0, d => [d]
    | n + 1, d => if parent d = d then [d] else d :: go n (parent d)

/-! ## Insideness. -/

def within (directory root : String) : Bool :=
  directory = root ||
    startsWith (trimEnd (· = '/') root ++ "/").toList directory.toList

/-- The components that two lists share at their start are dropped from both. -/
def dropShared : List String → List String → List String × List String
  | a :: as, b :: bs => if a = b then dropShared as bs else (a :: as, b :: bs)
  | as, bs => (as, bs)

/-- A path as seen from a start directory, both absolute and normalised. -/
def relative (path start : String) : String :=
  let (down, up) := dropShared (components path) (components start)
  let parts := List.replicate up.length ".." ++ down
  if parts.isEmpty then "." else joinWith "/" parts

/-- A path for reports: as seen from a root, or unchanged when that view climbs out of the root.
The empty path stands for no file and stays empty. -/
def shownFrom (root path : String) : String :=
  let view := relative path root
  if path = "" || startsWith "..".toList view.toList then path else view

end QueryAudit.Path
