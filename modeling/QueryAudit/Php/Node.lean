/-
  QueryAudit.Php.Node — syntax trees

  A node has a kind, the role it plays in its parent, the stretch of source it covers and its
  children in source order. Words and punctuation are unnamed nodes. A cursor is a node together
  with the way to it from the root of its tree, so that its surroundings can be asked for and two
  nodes with the same content can be told apart.
-/

import QueryAudit.Php.Kind

namespace QueryAudit.Php

/-! ## Nodes. -/

/-- A stretch of source text: bytes from `start` up to `stop`, rows counted from zero. -/
structure Span where
  start : Nat
  stop : Nat
  row : Nat
  lastRow : Nat
  deriving DecidableEq, Repr, Inhabited

structure Node where
  kind : Kind
  named : Bool
  role : Option String
  span : Span
  text : String
  children : List Node
  deriving Repr, Inhabited

namespace Node

def line (n : Node) : Nat := n.span.row + 1

def lastLine (n : Node) : Nat := n.span.lastRow + 1

def parts (n : Node) : List Node := n.children.filter fun c => c.named && c.kind ≠ .comment

def inRole? (n : Node) (role : String) : Option Node := n.children.find? (·.role = some role)

def ofKind? (n : Node) (kind : Kind) : Option Node := n.children.find? (·.kind = kind)

/-- The text of the child that names a declaration or call, empty when there is none. -/
def nameText (n : Node) : String :=
  match n.inRole? "name" with
  | some child => child.text
  | none => ((n.ofKind? .name).map Node.text).getD ""

mutual

def size : Node → Nat
  | ⟨_, _, _, _, _, children⟩ => sizeAll children + 1

def sizeAll : List Node → Nat
  | [] => 0
  | n :: rest => n.size + sizeAll rest

end

end Node

/-! ## Cursors. -/

/-- A node and the way to it: the position it has in its parent, the position the parent has in its
own parent, and so on up to the root. -/
structure Cursor where
  tree : Nat
  node : Node
  above : List (Nat × Node)
  deriving Repr, Inhabited

namespace Cursor

def root (tree : Nat) (node : Node) : Cursor := ⟨tree, node, []⟩

def kind (c : Cursor) : Kind := c.node.kind

def text (c : Cursor) : String := c.node.text

def line (c : Cursor) : Nat := c.node.line

def start (c : Cursor) : Nat := c.node.span.start

def nameText (c : Cursor) : String := c.node.nameText

def same (a b : Cursor) : Bool := a.tree = b.tree && a.above.map Prod.fst = b.above.map Prod.fst

def siblings (tree : Nat) (parent : Node) (above : List (Nat × Node)) :
    Nat → List Node → List Cursor
  | _, [] => []
  | i, n :: rest => ⟨tree, n, (i, parent) :: above⟩ :: siblings tree parent above (i + 1) rest

def children (c : Cursor) : List Cursor := siblings c.tree c.node c.above 0 c.node.children

def namedChildren (c : Cursor) : List Cursor := c.children.filter (·.node.named)

def parts (c : Cursor) : List Cursor :=
  c.children.filter fun child => child.node.named && child.kind ≠ .comment

def inRole? (c : Cursor) (role : String) : Option Cursor :=
  c.children.find? (·.node.role = some role)

def ofKind? (c : Cursor) (kind : Kind) : Option Cursor := c.children.find? (·.kind = kind)

def allOfKind (c : Cursor) (kind : Kind) : List Cursor := c.children.filter (·.kind = kind)

def parent? (c : Cursor) : Option Cursor :=
  match c.above with
  | [] => none
  | (_, p) :: rest => some ⟨c.tree, p, rest⟩

def climb (tree : Nat) : List (Nat × Node) → List Cursor
  | [] => []
  | (_, p) :: rest => ⟨tree, p, rest⟩ :: climb tree rest

def ancestors (c : Cursor) : List Cursor := climb c.tree c.above

/-! ## Whole trees. -/

mutual

def below (tree : Nat) (above : List (Nat × Node)) : Node → List Cursor
  | ⟨kind, named, role, span, text, children⟩ =>
    let n : Node := ⟨kind, named, role, span, text, children⟩
    ⟨tree, n, above⟩ :: belowAll tree n above 0 children

def belowAll (tree : Nat) (parent : Node) (above : List (Nat × Node)) :
    Nat → List Node → List Cursor
  | _, [] => []
  | i, n :: rest => below tree ((i, parent) :: above) n ++ belowAll tree parent above (i + 1) rest

end

/-- The node of a cursor and everything below it, parents before children. -/
def preorder (c : Cursor) : List Cursor := below c.tree c.above c.node

/-- The innermost node with exactly the given byte range and kind. A node without text is found
by no range. -/
def locate? (root : Cursor) (start stop : Int) (kind : Kind) : Option Cursor :=
  if start < stop then
    (root.preorder.filter fun c =>
      c.kind = kind && c.node.span.start = start && c.node.span.stop = stop).getLast?
  else none

end Cursor

end QueryAudit.Php
