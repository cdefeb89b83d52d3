/-
  QueryAudit.Php.Literal — values of string literals

  Escape sequences of double-quoted text, the two escapes of single-quoted text, and the parts of a
  string literal: stretches of known text and the expressions interpolated between them.
-/

import QueryAudit.Php.Node
import QueryAudit.Text.Digit

namespace QueryAudit.Php

open Text

/-! ## Escape sequences. -/

/-- Why an escape sequence has no value. -/
inductive EscapeError where
  /-- Digits that are none in their base, or a number that is no code point. -/
  | invalid
  | tooLarge
  deriving DecidableEq, Repr

def shortEscape? : Char → Option Char
  | 'n' => some '\n'
  | 't' => some '\t'
  | 'r' => some '\r'
  | 'v' => some '\x0b'
  | 'e' => some '\x1b'
  | 'f' => some '\x0c'
  | '\\' => some '\\'
  | '$' => some '$'
  | '"' => some '"'
  | '0' => some '\x00'
  | _ => none

/-- The text of a code point given by digits in a base, taken modulo a bound if there is one. -/
def codePoint (base : Nat) (modulus : Option Nat) (digits : List Char) : Except EscapeError String :=
  match readInt? base (String.ofList digits) with
  | none => .error .invalid
  | some n =>
    let n := match modulus with
      | some m => n % (m : Int)
      | none => n
    if n ≥ 0x80000000 || n < -0x80000000 then .error .tooLarge
    else if n < 0 || n > 0x10FFFF then .error .invalid
    else .ok (String.singleton (Char.ofNat n.toNat))

/-- The value of one escape sequence of a double-quoted string; what is none stands for itself. -/
def unescape (sequence : String) : Except EscapeError String :=
  let cs := sequence.toList
  let short := match cs with
    | [_, c] => shortEscape? c
    | _ => none
  match short, cs with
  | some c, _ => .ok (String.singleton c)
  | none, '\\' :: 'x' :: digits@(_ :: _) => codePoint 16 none digits
  | none, _ =>
    if startsWith ['\\', 'u', '{'] cs && cs.getLast? = some '}' then
      codePoint 16 none (cs.drop 3).dropLast
    else if !cs.tail.isEmpty && cs.tail.all Text.isDigit then codePoint 8 (some 256) cs.tail
    else .ok sequence

/-! ## Single-quoted strings. -/

/-- The value of text between single quotes: a backslash stands before a backslash or a quote. -/
def plainValue (body : String) : String :=
  replaceAll "\x00" "\\" (replaceAll "\\'" "'" (replaceAll "\\\\" "\x00" body))

/-- The text of a single-quoted literal without its binary marker and its quotes. -/
def quotedBody (text : String) : String :=
  let cs := text.toList
  let cs := if cs.head? = some 'b' || cs.head? = some 'B' then cs.tail else cs
  String.ofList cs.tail.dropLast

def singleQuotedValue (text : String) : String := plainValue (quotedBody text)

/-! ## Parts of a literal. -/

inductive StringPart where
  | text (value : String)
  | code (node : Cursor)
  deriving Repr

def pushPart (parts : List StringPart) (part : StringPart) : List StringPart :=
  match part, parts.getLast? with
  | .text more, some (.text before) => parts.dropLast ++ [.text (before ++ more)]
  | part, _ => parts ++ [part]

def isDelimiter (c : Cursor) : Bool :=
  !c.node.named || c.kind = .heredocStart || c.kind = .heredocEnd || c.kind = .comment

/-- The nodes a literal is made of. The body of a heredoc gives its own. -/
def literalNodes (c : Cursor) : List Cursor :=
  (c.children.flatMap fun child =>
    if child.kind = .heredocBody || child.kind = .nowdocBody then child.children
    else [child]).filter (!isDelimiter ·)

def partOf (c : Cursor) : Except EscapeError StringPart :=
  match c.kind with
  | .stringContent | .nowdocString => .ok (.text c.text)
  | .escapeSequence => do return .text (← unescape c.text)
  | _ => .ok (.code c)

def stringParts (c : Cursor) : Except EscapeError (List StringPart) :=
  if c.kind = .string then .ok [.text (singleQuotedValue c.text)]
  else do return (← (literalNodes c).mapM partOf).foldl pushPart []

def knownText? : List StringPart → Option String
  | [] => some ""
  | .text value :: rest => (knownText? rest).map (value ++ ·)
  | .code _ :: _ => none

def Kind.isStringLiteral : Kind → Bool
  | .string | .encapsedString | .heredoc | .nowdoc => true
  | _ => false

def literalValue? (c : Cursor) : Except EscapeError (Option String) :=
  if c.kind.isStringLiteral then do return knownText? (← stringParts c) else .ok none

end QueryAudit.Php
