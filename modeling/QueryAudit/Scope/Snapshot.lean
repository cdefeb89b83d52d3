/-
  QueryAudit.Scope.Snapshot — binding maps put aside

  A snapshot holds the definitions of a file without its tree: a defining expression is kept as its
  byte range and kind. It remembers when the file was written and how long it was, and gives the
  definitions back against a fresh tree of the same text.
-/

import QueryAudit.Scope.FileScopes

namespace QueryAudit.Scope

open Php

/-! ## Snapshots. -/

/-- Where a node stood and what it was. -/
structure Place where
  start : Int
  stop : Int
  kind : Kind
  deriving DecidableEq, Repr

structure SavedBinding where
  line : Int
  origin : Int
  place : Option Place
  literal : Option String
  tag : Option Tag
  serial : Nat
  deriving DecidableEq, Repr

/-- The definitions of a file, put aside. -/
structure Snapshot where
  path : String
  written : Nat
  size : Nat
  closures : Catalog (Catalog (List SavedBinding))
  blocks : List Closure
  deriving Repr

def Binding.save (b : Binding) : SavedBinding :=
  { line := b.line
    origin := b.origin
    place := b.node.map fun c => ⟨c.node.span.start, c.node.span.stop, c.kind⟩
    literal := b.literal
    tag := b.tag
    serial := b.serial }

def FileScopes.save (s : FileScopes) (written size : Nat) : Snapshot :=
  { path := s.path
    written, size
    closures := s.closures.map fun known => known.map fun entries => entries.map Binding.save
    blocks := s.blocks.values.flatten }

def Snapshot.shift (s : Snapshot) (by_ : Int) : Snapshot :=
  { s with closures := s.closures.map fun known => known.map fun entries => entries.map fun b =>
      { b with place := b.place.map fun p => { p with start := p.start + by_ } } }

/-! ## Taking definitions back. -/

def Place.restore (root : Cursor) : Option Place → Option (Option Cursor)
  | none => some none
  | some p => (root.locate? p.start p.stop p.kind).map some

def SavedBinding.restore (b : SavedBinding) (path key identifier : String) (root : Cursor) :
    Option Binding := do
  let node ← Place.restore root b.place
  return { identifier, closure := key, line := b.line, path, node, literal := b.literal
           tag := b.tag, origin := b.origin, serial := b.serial }

def restoreClosure (path key : String) (root : Cursor) (known : Catalog (List SavedBinding)) :
    Option (Catalog (List Binding)) := do
  let entries ← known.entries.mapM fun (identifier, saved) => do
    return (identifier, ← saved.mapM (·.restore path key identifier root))
  return ⟨entries⟩

def restoreClosures (path : String) (root : Cursor) :
    List (String × Catalog (List SavedBinding)) → FileScopes → Option FileScopes
  | [], scopes => return scopes
  | (key, known) :: rest, scopes => do
    let restored ← restoreClosure path key root known
    restoreClosures path root rest (scopes.flush key restored)

/-- The definitions of a file against a fresh tree, unless a node is not found. -/
def Snapshot.restore? (s : Snapshot) (path : String) (root : Cursor) : Option FileScopes :=
  restoreClosures path root s.closures.entries
    (s.blocks.foldl (fun scopes block => scopes.addBlock { block with kind := .block }) { path })

end QueryAudit.Scope
