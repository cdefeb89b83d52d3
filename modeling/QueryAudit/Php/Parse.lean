/-
  QueryAudit.Php.Parse — syntax trees of source files

  A file is cut into tokens, comments and stretches between PHP tags are set aside, the statements
  are read, and what was set aside is put where it belongs. Reading never fails.
-/

import QueryAudit.Php.Statement

namespace QueryAudit.Php

open Reader

/-! ## What the grammar does not see. -/

def Token.isOutside (t : Token) : Bool := t.lexeme = .html || t.lexeme = .openTag

def outsideNode (t : Token) : Draft := .leaf (if t.lexeme = .html then .text else .phpTag) t

/-- The tokens for the grammar, and the nodes for comments and for the text between PHP tags. A
place where PHP code is left stays in the tokens as a gap. -/
def setAside : List Token → List Token × List Draft
  | [] => ([], [])
  | t :: rest =>
    let (tokens, extras) := setAside rest
    match t.lexeme with
    | .comment => (tokens, .leaf .comment t :: extras)
    | .closeTag =>
      let outside := (rest.takeWhile Token.isOutside).map outsideNode
      ({ t with lexeme := .gap } :: tokens,
        .node .textInterpolation (.leaf .phpEndTag t :: outside) :: extras)
    | .html | .openTag => (tokens, extras)
    | _ => (t :: tokens, extras)

/-! ## Files. -/

def programStatements (tokens : List Token) : List Draft :=
  let g := grammar (2 * tokens.length + 10)
  (statementsUntil g (fun _ => false) tokens).1

/-- The tree of a program of a given length, over positions. It starts at its first token and
reaches to the end of the file. -/
def program (tokens : List Token) (length : Nat) : Draft :=
  let before := tokens.takeWhile Token.isOutside
  let (inner, extras) := setAside (tokens.drop before.length)
  let start := (tokens.head?.map Token.start).getD length
  let bare : Draft := ⟨.program, true, none, start, length,
    before.map outsideNode ++ programStatements inner⟩
  extras.foldl (fun tree extra => Draft.insert extra tree) bare

@[irreducible] def parse (bytes : ByteArray) : Node :=
  let source := Text.glyphs bytes.data.toList
  let tokens := tokenize (source.map Text.Glyph.char)
  (program tokens source.length).finish (.ofGlyphs source)

end QueryAudit.Php
