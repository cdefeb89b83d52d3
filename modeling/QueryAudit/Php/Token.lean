/-
  QueryAudit.Php.Token — words of PHP source

  Source text is cut into tokens: the text around PHP tags, words, variables, numbers, marks,
  comments and the pieces of string literals. Strings with interpolation and heredocs are cut
  inside too, so a stack of modes says how the text at hand is to be read.
-/

import QueryAudit.Text.Pieces

namespace QueryAudit.Php

/-! ## Tokens. -/

inductive Lexeme where
  | html
  | openTag
  | closeTag
  | comment
  | word
  | variable
  | integer
  | float
  | mark
  | quote
  | binaryQuote
  | content
  | escape
  | heredocLabel
  | heredocEnd
  | nowdocLine
  | gap
  | finish
  deriving DecidableEq, Repr, Inhabited

/-- A token with the positions of its first character and of the character after it. -/
structure Token where
  lexeme : Lexeme
  text : String
  start : Nat
  stop : Nat
  deriving Repr, Inhabited

inductive Mode where
  | html
  /-- PHP code, with the number of braces open since the mode was entered. -/
  | script (braces : Nat)
  | quoted (quote : Char)
  | heredocLine (label : List Char)
  | heredocText (label : List Char)
  | nowdoc (label : List Char)
  deriving Repr

/-! ## Character classes. -/

def isSeparatorCode (n : Nat) : Bool := [0xa0, 0x200b, 0x2060, 0xfeff].contains n

/-- Whether a character can start a name: a letter, an underscore, or most of what is beyond
ASCII. -/
def isNameStart (c : Char) : Bool :=
  c.isAlpha || c = '_' ||
    (c.toNat ≥ 0x80 && !(isSeparatorCode c.toNat))

def isNameChar (c : Char) : Bool := isNameStart c || c.isDigit

def isSpace (c : Char) : Bool := c = ' ' || c = '\t' || c = '\n' || c = '\r' || c = '\x0b' || c = '\x0c'

def isHexDigit (c : Char) : Bool :=
  c.isDigit || ('a' ≤ c && c ≤ 'f') || ('A' ≤ c && c ≤ 'F')

def isOctalDigit (c : Char) : Bool := '0' ≤ c && c ≤ '7'

def runLength (p : Char → Bool) (cs : List Char) : Nat := (cs.takeWhile p).length

def startsName : List Char → Bool
  | c :: _ => isNameStart c
  | [] => false

/-! ## Numbers. -/

def digitRun (p : Char → Bool) : List Char → Nat
  | '_' :: c :: rest => if p c then 2 + digitRun p rest else 0
  | c :: rest => if p c then 1 + digitRun p rest else 0
  | [] => 0

def exponentLength : List Char → Nat
  | e :: sign :: rest =>
    if e = 'e' || e = 'E' then
      if sign = '+' || sign = '-' then
        let n := digitRun Char.isDigit rest
        if n = 0 then 0 else n + 2
      else
        let n := if sign.isDigit then digitRun Char.isDigit (sign :: rest) else 0
        if n = 0 then 0 else n + 1
    else 0
  | _ => 0

/-- Length of the number at the start, and whether it has a point or an exponent. -/
def numberLength (cs : List Char) : Nat × Bool :=
  match cs with
  | '0' :: 'x' :: rest | '0' :: 'X' :: rest => (2 + digitRun isHexDigit rest, false)
  | '0' :: 'b' :: rest | '0' :: 'B' :: rest => (2 + digitRun Char.isDigit rest, false)
  | '0' :: 'o' :: rest | '0' :: 'O' :: rest => (2 + digitRun Char.isDigit rest, false)
  | _ =>
    let whole := if cs.head? = some '.' then 0 else digitRun Char.isDigit cs
    match cs.drop whole with
    | '.' :: rest =>
      if rest.head? = some '.' || rest.head? = some '=' then (whole, false)
      else
        let part := if rest.head? = some '_' then 0 else digitRun Char.isDigit rest
        (whole + 1 + part + exponentLength (rest.drop part), true)
    | rest =>
      let e := exponentLength rest
      (whole + e, e ≠ 0)

/-! ## Marks. -/

def longMarks : List (List Char) :=
  ["**=", "...", "<<=", ">>=", "===", "!==", "<=>", "??=", "?->",
   "=>", "->", "::", "++", "--", "**", "+=", "-=", "*=", "/=", ".=", "%=", "&=", "|=", "^=",
   "&&", "||", "??", "<<", ">>", "==", "!=", "<>", "<=", ">="].map String.toList

def markLength (cs : List Char) : Nat :=
  match longMarks.find? fun m => Text.startsWith m cs with
  | some m => m.length
  | none => 1

/-! ## Comments and strings. -/

/-- Length of a comment that runs to the end of its line or to a closing tag. -/
def lineCommentLength : List Char → Nat
  | [] => 0
  | '?' :: '>' :: _ => 0
  | c :: rest => if c = '\n' || c = '\r' then 0 else 1 + lineCommentLength rest

/-- Length of a comment between marks, counted after its opening mark. -/
def blockCommentLength : List Char → Nat
  | [] => 0
  | '*' :: '/' :: _ => 2
  | _ :: rest => 1 + blockCommentLength rest

/-- Length of an escape sequence, counted after its backslash; zero when there is none. -/
def escapeLength (quote : Option Char) : List Char → Nat
  | 'x' :: rest =>
    let n := runLength isHexDigit (rest.take 2)
    if n = 0 then 0 else n + 1
  | 'u' :: '{' :: rest =>
    let n := runLength isHexDigit rest
    if n ≠ 0 && (rest.drop n).head? = some '}' then n + 3 else 0
  | c :: rest =>
    if isOctalDigit c then 1 + runLength isOctalDigit (rest.take 2)
    else if c = '\\' then if quote.isSome then 1 else 0
    else if ['n', 'r', 't', 'v', 'e', 'f', '$', '"'].contains c || (c = '\x60' && quote = some '\x60') then 1
    else 0
  | [] => 0

/-- Length of the literal text at the start of a string with interpolation. Without a closing
quote the text is that of a heredoc, which ends with its line. -/
def contentLength (quote : Option Char) : List Char → Nat
  | [] => 0
  | '\\' :: '{' :: rest => 2 + contentLength quote rest
  | '\\' :: '\\' :: rest =>
    if quote.isSome then 0 else 2 + contentLength quote rest
  | '\\' :: rest => if escapeLength quote rest ≠ 0 then 0 else 1 + contentLength quote rest
  | '$' :: c :: rest =>
    if isNameStart c || c = '{' then 0 else 1 + contentLength quote (c :: rest)
  | '{' :: '$' :: _ => 0
  | c :: rest =>
    if some c = quote then 0
    else if quote.isNone && (c = '\n' || c = '\r') then 0
    else 1 + contentLength quote rest

/-- Length of the literal text at the start of a single-quoted string. -/
def plainLength : List Char → Nat
  | [] => 0
  | '\\' :: '\\' :: _ => 0
  | '\\' :: '\'' :: _ => 0
  | c :: rest => if c = '\'' then 0 else 1 + plainLength rest

/-- What stands between the opening of a heredoc and its label: blanks and an optional quote.
Gives the number of characters before the label, the label and the quote. -/
def heredocLabel? (cs : List Char) : Option (Nat × List Char × Option Char) :=
  let blanks := runLength (fun c => c = ' ' || c = '\t') cs
  match cs.drop blanks with
  | '\'' :: rest =>
    let label := rest.takeWhile isNameChar
    if startsName rest && (rest.drop label.length).head? = some '\'' then
      some (blanks, label, some '\'') else none
  | '"' :: rest =>
    let label := rest.takeWhile isNameChar
    if startsName rest && (rest.drop label.length).head? = some '"' then
      some (blanks, label, some '"') else none
  | rest =>
    if startsName rest then some (blanks, rest.takeWhile isNameChar, none) else none

/-- Whether a line closes a heredoc: blanks, the label, and no further name character. Gives the
number of blanks. -/
def closesHeredoc? (label cs : List Char) : Option Nat :=
  let blanks := runLength (fun c => c = ' ' || c = '\t') cs
  match Text.after? label (cs.drop blanks) with
  | some rest => if (rest.head?.map isNameChar).getD false then none else some blanks
  | none => none

/-! ## The scanner. -/

/-- A scan in progress: what is left, where it starts, how it is read, and the tokens found, the
newest first. -/
structure Scan where
  rest : List Char
  place : Nat := 0
  modes : List Mode := [.html]
  found : List Token := []

namespace Scan

def skip (s : Scan) (n : Nat) : Scan := { s with rest := s.rest.drop n, place := s.place + n }

def emit (s : Scan) (lexeme : Lexeme) (n : Nat) : Scan :=
  if n = 0 then s
  else
    { s.skip n with
      found := ⟨lexeme, String.ofList (s.rest.take n), s.place, s.place + n⟩ :: s.found }

def enter (s : Scan) (mode : Mode) : Scan := { s with modes := mode :: s.modes }

def leave (s : Scan) : Scan := { s with modes := s.modes.tail }

def switch (s : Scan) (mode : Mode) : Scan := { s with modes := mode :: s.modes.tail }

/-- Read a single-quoted string after its opening quote. The count bounds its pieces. -/
def plainString : Nat → Scan → Scan
  | 0, s => s
  | n + 1, s =>
    let s := s.emit .content (plainLength s.rest)
    match s.rest with
    | [] => s
    | '\\' :: _ => plainString n (s.emit .escape 2)
    | _ => s.emit .quote 1

/-- Read what may follow a variable inside a string: one index or one property. -/
def afterVariable (s : Scan) : Scan :=
  match s.rest with
  | '[' :: rest =>
    let s := s.emit .mark 1
    let s := match rest with
      | '$' :: more => s.emit .variable (1 + runLength isNameChar more)
      | '-' :: more => (s.emit .mark 1).emit .integer (numberLength more).1
      | c :: _ => if c.isDigit then s.emit .integer (numberLength rest).1
                  else s.emit .word (runLength isNameChar rest)
      | [] => s
    if s.rest.head? = some ']' then s.emit .mark 1 else s
  | '-' :: '>' :: rest =>
    if startsName rest then (s.emit .mark 2).emit .word (runLength isNameChar rest) else s
  | '?' :: '-' :: '>' :: rest =>
    if startsName rest then (s.emit .mark 3).emit .word (runLength isNameChar rest) else s
  | _ => s

/-- Read one piece of a string with interpolation that is no literal text. -/
def interpolation (s : Scan) (quote : Option Char) : Scan :=
  match s.rest with
  | '\\' :: rest =>
    let n := escapeLength quote rest
    if n = 0 then s.emit .content 1 else s.emit .escape (n + 1)
  | '$' :: '{' :: _ => ((s.emit .mark 1).emit .mark 1).enter (.script 0)
  | '$' :: rest =>
    if startsName rest then (s.emit .variable (1 + runLength isNameChar rest)).afterVariable
    else s.emit .content 1
  | '{' :: '$' :: _ => (s.emit .mark 1).enter (.script 0)
  | _ => s.emit .content 1

def stringPiece (s : Scan) (quote : Option Char) : Scan :=
  let n := contentLength quote s.rest
  if n ≠ 0 then s.emit .content n else s.interpolation quote

/-- Read the text outside PHP tags: up to an opening tag, blanks at its start left out. -/
def htmlText (s : Scan) : Scan :=
  let s := s.skip (runLength isSpace s.rest)
  s.emit .html (go s.rest)
where
  go : List Char → Nat
    | '<' :: '?' :: _ => 0
    | _ :: rest => 1 + go rest
    | [] => 0

def openTagLength : List Char → Nat
  | '<' :: '?' :: '=' :: _ => 3
  | '<' :: '?' :: a :: b :: c :: _ =>
    if [a, b, c].map Char.toLower = ['p', 'h', 'p'] then 5 else 2
  | '<' :: '?' :: _ => 2
  | _ => 0

/-- Whether the last token ends an operand, so that a point after it joins texts. -/
def afterOperand (s : Scan) : Bool :=
  match s.found with
  | [] => false
  | t :: _ =>
    [Lexeme.variable, .integer, .quote, .heredocEnd].contains t.lexeme ||
      (t.lexeme = .mark && [")", "]"].contains t.text)

def scriptMark (s : Scan) (braces : Nat) : Scan :=
  match s.rest with
  | '?' :: '>' :: _ => (s.emit .closeTag 2).enter .html
  | '/' :: '/' :: rest => s.emit .comment (2 + lineCommentLength rest)
  | '/' :: '*' :: rest => s.emit .comment (2 + blockCommentLength rest)
  | '#' :: rest =>
    if rest.head? = some '[' then s.emit .mark 2
    else s.emit .comment (1 + lineCommentLength rest)
  | '$' :: rest =>
    if startsName rest then s.emit .variable (1 + runLength isNameChar rest) else s.emit .mark 1
  | '\'' :: _ => plainString (s.rest.length + 1) (s.emit .quote 1)
  | '"' :: _ => (s.emit .quote 1).enter (.quoted '"')
  | '\x60' :: _ => (s.emit .quote 1).enter (.quoted '\x60')
  | '{' :: _ => (s.emit .mark 1).switch (.script (braces + 1))
  | '}' :: _ =>
    match braces with
    | 0 => if s.modes.length ≤ 2 then s.emit .mark 1 else (s.emit .mark 1).leave
    | n + 1 => (s.emit .mark 1).switch (.script n)
  | '<' :: '<' :: '<' :: rest =>
    match heredocLabel? rest with
    | none => s.emit .mark (markLength s.rest)
    | some (blanks, label, quote) =>
      let s := (s.emit .mark 3).skip blanks
      let s := if quote.isSome then s.emit .mark 1 else s
      let s := s.emit .heredocLabel label.length
      let s := if quote.isSome then s.emit .mark 1 else s
      let s := s.skip (runLength (· ≠ '\n') s.rest + 1)
      if quote = some '\'' then s.enter (.nowdoc label) else s.enter (.heredocLine label)
  | '.' :: c :: _ =>
    if c.isDigit && !s.afterOperand then s.emit .float (numberLength s.rest).1
    else s.emit .mark (markLength s.rest)
  | _ => s.emit .mark (markLength s.rest)

def scriptToken (s : Scan) (braces : Nat) : Scan :=
  match s.rest with
  | [] => s
  | c :: rest =>
    if isSpace c then s.skip (runLength isSpace s.rest)
    else if (c = 'b' || c = 'B') && rest.head? = some '\'' then
      plainString (s.rest.length + 1) (s.emit .binaryQuote 2)
    else if (c = 'b' || c = 'B') && rest.head? = some '"' then
      (s.emit .binaryQuote 2).enter (.quoted '"')
    else if isNameStart c then s.emit .word (runLength isNameChar s.rest)
    else if c.isDigit then
      let (n, pointed) := numberLength s.rest
      s.emit (if pointed then .float else .integer) n
    else s.scriptMark braces

/-- Read one line of a heredoc without interpolation, or its end. Line ends before a line belong
to that line. -/
def nowdocPiece (s : Scan) (label : List Char) : Scan :=
  let ends := runLength (· = '\n') s.rest
  match closesHeredoc? label (s.rest.drop ends) with
  | some blanks => ((s.skip (ends + blanks)).emit .heredocEnd label.length).leave
  | none => s.emit .nowdocLine (ends + runLength (· ≠ '\n') (s.rest.drop ends))

def step (s : Scan) : Scan :=
  match s.modes with
  | [] => s.emit .html s.rest.length
  | .html :: _ =>
    match openTagLength s.rest with
    | 0 => s.htmlText
    | n =>
      let s := s.emit .openTag n
      if s.modes.length ≤ 1 then s.enter (.script 0) else s.leave
  | .script braces :: _ => s.scriptToken braces
  | .quoted quote :: _ =>
    if s.rest.head? = some quote then (s.emit .quote 1).leave else s.stringPiece (some quote)
  | .heredocLine label :: _ =>
    match closesHeredoc? label s.rest with
    | some blanks => ((s.skip blanks).emit .heredocEnd label.length).leave
    | none => s.switch (.heredocText label)
  | .heredocText label :: _ =>
    match s.rest with
    | '\n' :: _ => (s.skip 1).switch (.heredocLine label)
    | '\r' :: _ => s.skip 1
    | _ => s.stringPiece none
  | .nowdoc label :: _ => s.nowdocPiece label

def run : Nat → Scan → Scan
  | 0, s => s
  | n + 1, s => if s.rest.isEmpty then s else run n s.step

end Scan

/-- The tokens of a source text. A byte order mark at its start is passed over. Every piece takes a
character or follows a line end, so twice the length bounds their number. -/
def tokenize (source : List Char) : List Token :=
  let start : Scan := { rest := source }
  let start := if source.head? = some '\uFEFF' then start.skip 1 else start
  (Scan.run (2 * source.length + 2) start).found.reverse

end QueryAudit.Php
