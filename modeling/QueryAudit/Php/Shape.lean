/-
  QueryAudit.Php.Shape — reading off common shapes

  The arguments of a call, the elements of an array literal, the slots of a pattern, the names a
  node is enclosed by, and the short form of a class name.
-/

import QueryAudit.Php.Node
import QueryAudit.Text.Blank

namespace QueryAudit.Php

open Text

/-! ## Class names. -/

/-- A class name without blanks around it and without leading separators. -/
def stripClassName (name : String) : String := trimStart (· = '\\') (trim name)

def shortClassName (name : String) : String :=
  ((splitAt '\\' (stripClassName name)).getLast?).getD ""

/-! ## Calls. -/

/-- The expression an argument stands for: its value, after a name if it has one. -/
def argumentValue (c : Cursor) : Cursor := (c.parts.getLast?).getD c

def callArguments (call : Cursor) : List Cursor :=
  let list := match call.inRole? "arguments" with
    | some found => some found
    | none => call.ofKind? .arguments
  match list with
  | none => []
  | some list => list.children.filterMap fun child =>
    if child.kind = .argument then some (argumentValue child)
    else if child.node.named && child.kind ≠ .comment then some child
    else none

def firstArgument? (call : Cursor) : Option Cursor := (callArguments call).head?

/-! ## Arrays and patterns. -/

def elementOf? (element : Cursor) : Option (Option Cursor × Cursor) :=
  match element.parts with
  | [] => none
  | first :: rest =>
    let last := (rest.getLast?).getD first
    if (element.ofKind? (.token "=>")).isSome && !rest.isEmpty then some (some first, last)
    else if last.kind = .byRef then some (none, (last.parts.head?).getD last)
    else some (none, last)

def arrayElements (array : Cursor) : List (Option Cursor × Cursor) :=
  (array.allOfKind .arrayElementInitializer).filterMap elementOf?

/-- A slot of a pattern that holds something: how many slots stand before it, its key, and what
the value is stored into. -/
structure Slot where
  position : Nat
  key : Option Cursor
  target : Cursor
  deriving Repr

/-- A pattern being read: the slots found, the number of commas passed, and a key that waits for
its target. -/
structure SlotReading where
  found : List Slot := []
  position : Nat := 0
  key : Option Cursor := none

def SlotReading.step (r : SlotReading) (child : Cursor) : SlotReading :=
  if child.kind = .token "," then { r with position := r.position + 1 }
  else if child.kind = .token "=>" then
    match r.found.getLast? with
    | some last =>
      if last.position = r.position then
        { r with found := r.found.dropLast, key := some last.target }
      else r
    | none => r
  else if child.kind = .arrayElementInitializer then
    match child.parts with
    | [] => r
    | [only] => { r with found := r.found ++ [⟨r.position, none, only⟩] }
    | first :: second :: rest =>
      { r with found := r.found ++ [⟨r.position, some first, (rest.getLast?).getD second⟩] }
  else if child.node.named && child.kind ≠ .comment then
    { r with found := r.found ++ [⟨r.position, r.key, child⟩], key := none }
  else r

def patternSlots (pattern : Cursor) : List Slot :=
  (pattern.children.foldl SlotReading.step {}).found

/-! ## Enclosing declarations. -/

/-- The names of the class and of the method around a node, from the nodes above it, nearest
first. A method without a name gives way to the next one out. -/
def enclosingNames : List Cursor → String → String × String
  | [], method => ("", method)
  | c :: rest, method =>
    if method = "" && c.kind.isFunctionLike then enclosingNames rest c.nameText
    else if c.kind.isClassLike then (c.nameText, method)
    else enclosingNames rest method

end QueryAudit.Php
