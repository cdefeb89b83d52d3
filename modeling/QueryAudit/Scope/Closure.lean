/-
  QueryAudit.Scope.Closure — lexical scopes

  Global code, a class body, a method or function, and the block of a loop over a collection. A
  scope is filed under a key; a block belongs to the scope around it.
-/

import QueryAudit.Php.Node

namespace QueryAudit.Scope

open Php

inductive ClosureKind where
  | global | classBody | methodBody | block
  deriving DecidableEq, Repr

structure Closure where
  kind : ClosureKind
  className : String := ""
  methodName : String := ""
  line : Int := 0
  endLine : Int := 0
  deriving DecidableEq, Repr

namespace Closure

def global : Closure := { kind := .global }

def ofClass (name : String) : Closure := { kind := .classBody, className := name }

def ofMethod (className name : String) : Closure :=
  { kind := .methodBody, className := className, methodName := name }

/-- The scope a block belongs to; any other scope belongs to itself. -/
def owner (c : Closure) : Closure :=
  if c.kind = .block then
    if c.methodName ≠ "" then ofMethod c.className c.methodName
    else if c.className ≠ "" then ofClass c.className
    else global
  else c

def plainKey (c : Closure) : String :=
  match c.kind with
  | .global => "<global>"
  | .classBody => c.className
  | _ => c.className ++ "::" ++ c.methodName

def key (c : Closure) : String :=
  if c.kind = .block then c.owner.plainKey ++ "::FOREACH_" ++ toString c.line else c.plainKey

def contains (c : Closure) (line : Int) : Bool := c.line ≤ line && line ≤ c.endLine

def outer (c : Closure) : List Closure :=
  match c.kind with
  | .methodBody => if c.className ≠ "" then [ofClass c.className, global] else [global]
  | .classBody => [global]
  | _ => []

end Closure

/-- The scope of a node from the nodes above it, nearest first, and the name of the innermost
function found so far. -/
def closureAbove : List Cursor → Option String → Closure
  | [], none => .global
  | [], some method => .ofMethod "" method
  | c :: rest, method =>
    if c.kind.isFunctionLike && method.isNone then closureAbove rest (some c.nameText)
    else if c.kind.isClassLike then
      match method with
      | some name => .ofMethod c.nameText name
      | none => .ofClass c.nameText
    else closureAbove rest method

end QueryAudit.Scope
