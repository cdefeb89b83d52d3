/-
  QueryAudit.Php.Draft — trees while they are being read

  A reader of tokens builds trees over token positions. Comments and the text between PHP tags are
  no part of the grammar; they are put in afterwards, each into the innermost node that has tokens on both
  sides of it. At last every node gets its byte range, its rows and its text.
-/

import QueryAudit.Php.Node
import QueryAudit.Php.Token
import QueryAudit.Text.Glyph

namespace QueryAudit.Php

/-! ## Trees over positions. -/

/-- A node over a range of character positions. -/
structure Draft where
  kind : Kind
  named : Bool
  role : Option String
  start : Nat
  stop : Nat
  children : List Draft
  deriving Inhabited

namespace Draft

def leaf (kind : Kind) (t : Token) : Draft := ⟨kind, true, none, t.start, t.stop, []⟩

def mark (t : Token) : Draft := ⟨.token t.text, false, none, t.start, t.stop, []⟩

def keyword (word : String) (t : Token) : Draft :=
  ⟨Kind.ofWord word, false, none, t.start, t.stop, []⟩

def node (kind : Kind) (children : List Draft) : Draft :=
  ⟨kind, true, none, (children.head?.map Draft.start).getD 0,
    (children.getLast?.map Draft.stop).getD 0, children⟩

def missing (kind : Kind) (named : Bool) (place : Nat) : Draft :=
  ⟨kind, named, none, place, place, []⟩

def playing (d : Draft) (role : String) : Draft := { d with role := some role }

/-! ## Extra nodes. -/

def encloses (d extra : Draft) : Bool := d.start < extra.start && extra.stop < d.stop

mutual

def insert (extra : Draft) : Draft → Draft
  | ⟨kind, named, role, start, stop, children⟩ =>
    ⟨kind, named, role, start, stop, insertAmong extra children⟩

/-- Put an extra node among siblings: into the one that encloses it, or before the first that
starts after it. -/
def insertAmong (extra : Draft) : List Draft → List Draft
  | [] => [extra]
  | d :: rest =>
    if d.encloses extra then insert extra d :: rest
    else if extra.stop ≤ d.start then extra :: d :: rest
    else d :: insertAmong extra rest

end

end Draft

/-! ## Placing a tree in its source. -/

/-- Where every character of a source stands: characters, the byte each starts at, and its row. The
last two have one more entry for the end. -/
structure Layout where
  chars : Array Char
  bytes : Array Nat
  rows : Array Nat

namespace Layout

/-- What is counted up to every character of a source, and up to its end. -/
def countsFrom (width : Text.Glyph → Nat) (n : Nat) : List Text.Glyph → List Nat
  | [] => [n]
  | g :: rest => n :: countsFrom width (n + width g) rest

def ofGlyphs (source : List Text.Glyph) : Layout where
  chars := (source.map Text.Glyph.char).toArray
  bytes := (countsFrom Text.Glyph.width 0 source).toArray
  rows := (countsFrom (fun g => if g.char = '\n' then 1 else 0) 0 source).toArray

def span (l : Layout) (start stop : Nat) : Span :=
  ⟨l.bytes.getD start 0, l.bytes.getD stop 0, l.rows.getD start 0, l.rows.getD stop 0⟩

def slice (l : Layout) (start stop : Nat) : String :=
  String.ofList (l.chars.extract start stop).toList

end Layout

def Span.clamp (s : Span) (first last : Nat) : Span :=
  let start := max first (min s.start last)
  { s with start, stop := max start (min s.stop last) }

namespace Draft

def spanIn (l : Layout) (first last : Nat) (d : Draft) : Span :=
  (l.span d.start d.stop).clamp first last

mutual

/-- The finished nodes of a draft, which lie between two bytes. Words and punctuation have no
parts. A draft that would repeat kind and byte range of a node around it gives its parts only. -/
def place (l : Layout) (around : List (Nat × Nat × Kind)) (first last : Nat) : Draft → List Node
  | ⟨kind, named, role, start, stop, children⟩ =>
    let span := spanIn l first last ⟨kind, named, role, start, stop, children⟩
    let mark := (span.start, span.stop, kind)
    if around.contains mark then placeAll l around span.start span.stop children
    else [⟨kind, named, role, span, l.slice start stop,
      if named then placeAll l (mark :: around) span.start span.stop children else []⟩]

def placeAll (l : Layout) (around : List (Nat × Nat × Kind)) (first last : Nat) :
    List Draft → List Node
  | [] => []
  | d :: rest =>
    d.place l around first last ++ placeAll l around (d.spanIn l first last).stop last rest

end

def finish (l : Layout) (d : Draft) : Node :=
  (d.place l [] 0 (l.bytes.back?.getD 0)).headD default

end Draft

end QueryAudit.Php
