/-
  QueryAudit.Scope.FileScopes — the definitions of one file

  Bindings by scope and identifier, in the order they were made, with the loop blocks of every
  scope. A look-up goes from the innermost scope outwards and takes the last definition not after
  a line.
-/

import QueryAudit.Catalog
import QueryAudit.Scope.Binding

namespace QueryAudit.Scope

open Php

structure FileScopes where
  path : String
  closures : Catalog (Catalog (List Binding)) := .empty
  blocks : Catalog (List Closure) := .empty
  callSites : List (Cursor × Closure) := []
  finished : List String := []
  deriving Repr

/-- The last binding not after a line; the last one of all without a line. -/
def lastBefore (entries : List Binding) (line : Option Int) : Option Binding :=
  entries.reverse.find? fun b => match line with
    | none => true
    | some n => b.line ≤ n

namespace FileScopes

/-! ## Filing. -/

def addBlock (s : FileScopes) (block : Closure) : FileScopes :=
  { s with blocks := s.blocks.alter block.owner.key [] fun blocks =>
      if blocks.contains block then blocks else blocks ++ [block] }

/-- File the bindings of a scope after those it has, and note that it is complete. -/
def flush (s : FileScopes) (key : String) (bindings : Catalog (List Binding)) : FileScopes :=
  { s with
    closures := s.closures.alter key .empty fun target =>
      bindings.entries.foldl (fun t (identifier, entries) => t.alter identifier [] (· ++ entries)) target
    finished := if s.finished.contains key then s.finished else s.finished ++ [key] }

/-! ## Looking up. -/

def entries (s : FileScopes) (key identifier : String) : List Binding :=
  ((s.closures.get? key).bind (·.get? identifier)).getD []

/-- Whether a block is searched before another: the shorter first, the later of equals. -/
def narrower (a b : Closure) : Bool :=
  let la := a.endLine - a.line
  let lb := b.endLine - b.line
  la < lb || (la = lb && b.line ≤ a.line)

/-- The blocks of a scope around a line, in the order they are searched. -/
def blocksAround (s : FileScopes) (owner : Closure) (line : Int) : List Closure :=
  (((s.blocks.get? owner.key).getD []).filter (·.contains line)).mergeSort narrower

def levels (s : FileScopes) (owner : Closure) (line : Option Int) : List Closure :=
  let inner := match line with
    | some n => if owner.kind = .classBody then [] else s.blocksAround owner n
    | none => []
  inner ++ owner :: owner.outer

/-- The last definition not after a line in the first scope that has one, by a view of the
entries. -/
def lookupIn (s : FileScopes) (view : String → String → List Binding) (owner : Closure)
    (identifier : String) (line : Option Int) : Option Binding :=
  (s.levels owner line).findSome? fun c => lastBefore (view c.key identifier) line

/-- The last definition not after a line in the first scope that has one. -/
def lookup (s : FileScopes) (owner : Closure) (identifier : String) (line : Option Int) :
    Option Binding :=
  s.lookupIn s.entries owner identifier line

/-- The scope a key stands for: global code, the first block with that key, a method or a class. -/
def closureOfKey (s : FileScopes) (key : String) : Closure :=
  if key = "<global>" then .global
  else match s.blocks.values.flatten.find? (·.key = key) with
    | some block => block
    | none =>
      let cs := key.toList
      match splitColons cs with
      | some (before, after) => .ofMethod (String.ofList before) (String.ofList after)
      | none => .ofClass key
where
  splitColons : List Char → Option (List Char × List Char)
    | [] => none
    | ':' :: ':' :: after => some ([], after)
    | c :: rest => (splitColons rest).map fun (before, after) => (c :: before, after)

def scopesBeyond (c : Closure) : List Closure :=
  if c.kind = .block then c.owner :: c.owner.outer else c.outer

/-- The bindings that stand before a binding in its own list and were not made by the same loop;
none when the binding does not stand there. -/
def earlier (s : FileScopes) (b : Binding) : List Binding :=
  let all := s.entries b.closure b.identifier
  if all.any (·.same b) then
    let before := (all.reverse.dropWhile fun e => !e.same b).tail.reverse
    before.filter fun e => e.origin ≠ b.origin || b.origin = 0
  else []

/-- The definition that a binding hides: an earlier one in its own list, else one further out. -/
def previous (s : FileScopes) (b : Binding) : Option Binding :=
  match s.earlier b with
  | [] => (scopesBeyond (s.closureOfKey b.closure)).findSome? fun c =>
    lastBefore (s.entries c.key b.identifier) (some b.line)
  | before => lastBefore before (some b.line)

/-- All bindings that the loop of a binding made for its identifier. -/
def alternatives (s : FileScopes) (b : Binding) : List Binding :=
  if b.origin = 0 then [b]
  else match (s.entries b.closure b.identifier).filter (·.origin = b.origin) with
    | [] => [b]
    | found => found

end FileScopes

end QueryAudit.Scope
