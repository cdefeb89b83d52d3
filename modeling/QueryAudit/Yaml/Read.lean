/-
  QueryAudit.Yaml.Read — reading YAML documents

  Block mappings and lists by indentation, flow lists and mappings in brackets, plain and quoted
  scalars, comments. A document that is not well formed has no value.
-/

import QueryAudit.Yaml.Value

namespace QueryAudit.Yaml

open Text

/-! ## Places in a text. -/

/-- What is left of a text and the column it starts in. -/
structure Spot where
  rest : List Char
  column : Nat := 0
  deriving Repr

namespace Spot

def next (s : Spot) : Spot :=
  match s.rest with
  | [] => s
  | '\n' :: rest => ⟨rest, 0⟩
  | _ :: rest => ⟨rest, s.column + 1⟩

def skip (s : Spot) (n : Nat) : Spot := ⟨s.rest.drop n, s.column + n⟩

def head? (s : Spot) : Option Char := s.rest.head?

def second? (s : Spot) : Option Char := s.rest.tail.head?

end Spot

def separates : Option Char → Bool
  | none => true
  | some c => c = ' ' || c = '\t' || c = '\n'

def skipSpaces (s : Spot) : Spot := s.skip (s.rest.takeWhile (· = ' ')).length

def skipLine (s : Spot) : Spot :=
  let s := skipSpaces s
  if s.head? = some '#' then s.skip (s.rest.takeWhile (· ≠ '\n')).length else s

def skipToToken : Nat → Spot → Spot
  | 0, s => s
  | n + 1, s =>
    let s := skipLine s
    if s.head? = some '\n' then skipToToken n s.next else s

def token (s : Spot) : Spot := skipToToken (s.rest.length + 1) s

/-- Whether a mark for a document stands at a place: three times a character at the start of a
line. -/
def atDocumentMark (c : Char) (s : Spot) : Bool :=
  s.column = 0 && startsWith [c, c, c] s.rest && separates (s.rest.drop 3).head?

/-! ## Quoted scalars. -/

def escapedChar? : Char → Option Char
  | '0' => some '\x00'
  | 'a' => some '\x07'
  | 'b' => some '\x08'
  | 't' | '\t' => some '\t'
  | 'n' => some '\n'
  | 'v' => some '\x0b'
  | 'f' => some '\x0c'
  | 'r' => some '\r'
  | 'e' => some '\x1b'
  | ' ' => some ' '
  | '"' => some '"'
  | '\\' => some '\\'
  | '/' => some '/'
  | 'N' => some '\x85'
  | '_' => some '\xa0'
  | 'L' => some '\u2028'
  | 'P' => some '\u2029'
  | _ => none

def escapeDigits? : Char → Option Nat
  | 'x' => some 2
  | 'u' => some 4
  | 'U' => some 8
  | _ => none

/-- What line ends inside a scalar stand for: one for a space, more for one less. -/
def foldedBreaks (count : Nat) : List Char :=
  if count ≤ 1 then [' '] else List.replicate (count - 1) '\n'

/-- Blanks at a place, up to a character that is none: what they stand for, and the place after
them. Without a line end they stand for themselves. -/
def quotedBlanks : Nat → Nat → List Char → Spot → List Char × Spot
  | 0, _, spaces, s => (spaces, s)
  | n + 1, breaks, spaces, s =>
    match s.head? with
    | some '\n' => quotedBlanks n (breaks + 1) [] s.next
    | some c =>
      if c = ' ' || c = '\t' then
        quotedBlanks n breaks (if breaks = 0 then spaces ++ [c] else []) s.next
      else (if breaks = 0 then spaces else foldedBreaks breaks, s)
    | none => (spaces, s)

def quotedRest (quote : Char) : Nat → Spot → Option (List Char × Spot)
  | 0, _ => none
  | n + 1, s =>
    match s.head? with
    | none => none
    | some c =>
      if c = quote then
        if quote = '\'' && s.second? = some '\'' then
          (quotedRest quote n (s.skip 2)).map fun (cs, s) => ('\'' :: cs, s)
        else some ([], s.next)
      else if c = ' ' || c = '\t' || c = '\n' then
        let (blanks, after) := quotedBlanks (s.rest.length + 1) 0 [] s
        (quotedRest quote n after).map fun (cs, s) => (blanks ++ cs, s)
      else if c = '\\' && quote = '"' then
        match s.second? with
        | none => none
        | some '\n' =>
          let after := s.next.next
          quotedRest quote n (after.skip (after.rest.takeWhile fun c => c = ' ' || c = '\t').length)
        | some e =>
          match escapedChar? e, escapeDigits? e with
          | some value, _ => (quotedRest quote n (s.skip 2)).map fun (cs, s) => (value :: cs, s)
          | none, some count =>
            let digits := (s.rest.drop 2).take count
            let number := readInt? 16 (String.ofList digits)
            if digits.length = count && digits.all (fun c => c ≠ '_' && c ≠ ' ' && c ≠ '+' && c ≠ '-') then
              number.bind fun value =>
                if value > 0x10FFFF then none
                else (quotedRest quote n (s.skip (2 + count))).map fun (cs, s) =>
                  (Char.ofNat value.toNat :: cs, s)
            else none
          | none, none => none
      else (quotedRest quote n s.next).map fun (cs, s) => (c :: cs, s)

def quotedScalar? (s : Spot) : Option (String × Spot) :=
  match s.head? with
  | some quote =>
    if quote = '\'' || quote = '"' then
      (quotedRest quote (s.rest.length + 1) s.next).map fun (cs, s) => (String.ofList cs, s)
    else none
  | none => none

/-! ## Plain scalars. -/

/-- Characters with a meaning of their own in flow lists and mappings. -/
def isFlowMark (c : Char) : Bool := [',', '[', ']', '{', '}'].contains c

def startsPlain (flow : Bool) (s : Spot) : Bool :=
  match s.head? with
  | none => false
  | some c =>
    if [' ', '\t', '\n', ',', '[', ']', '{', '}', '#', '&', '*', '!', '|', '>', '\'', '"', '%', '@',
        '\x60'].contains c then false
    else if c = '-' then !separates s.second?
    else if c = '?' || c = ':' then !flow && !separates s.second?
    else true

/-- The part of a plain scalar on one line: its characters, without blanks at the end. The flag
says that a blank stands before the place. -/
def plainLine (flow : Bool) : Bool → List Char → Nat
  | _, [] => 0
  | afterBlank, c :: rest =>
    if c = '\n' || c = '\t' || (c = '#' && afterBlank) then 0
    else if c = ':' && (separates rest.head? || (flow && (rest.head?.map isFlowMark).getD false)) then 0
    else if flow && (isFlowMark c || c = '?') then 0
    else
      let more := plainLine flow (c = ' ') rest
      if c = ' ' && more = 0 then 0 else more + 1

/-- Line ends and indentation before the next line of a plain scalar: how many there are, and the
place after them. -/
def plainBreaks : Nat → Spot → Nat × Spot
  | 0, s => (0, s)
  | n + 1, s =>
    let s := skipSpaces s
    if s.head? = some '\n' then
      let (count, s) := plainBreaks n s.next
      (count + 1, s)
    else (0, s)

/-- A plain scalar from its second line on, in columns from a least one on. -/
def plainMore (flow : Bool) (least : Nat) : Nat → Spot → List Char × Spot
  | 0, s => ([], s)
  | n + 1, s =>
    let (count, next) := plainBreaks (s.rest.length + 1) s
    let length := plainLine flow true next.rest
    if count = 0 || length = 0 || (!flow && next.column < least) || atDocumentMark '-' next
        || atDocumentMark '.' next then ([], s)
    else
      let (more, s) := plainMore flow least n (next.skip length)
      (foldedBreaks count ++ next.rest.take length ++ more, s)

/-- A plain scalar whose later lines start in columns from a least one on. -/
def plainScalar? (flow : Bool) (least : Nat) (s : Spot) : Option (Value × Spot) :=
  if startsPlain flow s then
    let length := max 1 (plainLine flow false s.rest)
    let (more, after) := plainMore flow least s.rest.length (s.skip length)
    some (plainValue (String.ofList (s.rest.take length ++ more)), after)
  else none

/-! ## Flow lists and mappings. -/

/-- Whether a value indicator stands at a place of a flow collection. -/
def atFlowColon (s : Spot) : Bool :=
  s.head? = some ':' && (separates s.second? || (s.second?.map isFlowMark).getD false)

mutual

def flowValue? : Nat → Spot → Option (Value × Spot)
  | 0, _ => none
  | n + 1, s =>
    match s.head? with
    | some '[' => flowList? n [] (token s.next)
    | some '{' => flowMapping? n [] (token s.next)
    | some '\'' | some '"' => (quotedScalar? s).map fun (text, s) => (.text text, s)
    | _ => plainScalar? true 0 s

/-- The value of a pair after its key; none when no indicator follows. -/
def flowPairValue? : Nat → Spot → Option (Value × Spot)
  | 0, _ => none
  | n + 1, s =>
    let after := token s.next
    match after.head? with
    | some ',' | some ']' | some '}' => some (.null, after)
    | _ => (flowValue? n after).map fun (v, s) => (v, token s)

def flowList? : Nat → List Value → Spot → Option (Value × Spot)
  | 0, _, _ => none
  | n + 1, items, s =>
    if s.head? = some ']' then some (.list items, s.next)
    else match flowValue? n s with
      | none => none
      | some (item, s) =>
        let s := token s
        let pair := if atFlowColon s then
            (flowPairValue? n s).map fun (v, s) => (mappingOf [(item, v)], s)
          else some (item, s)
        match pair with
        | none => none
        | some (item, s) =>
          match s.head? with
          | some ',' => flowList? n (items ++ [item]) (token s.next)
          | some ']' => some (.list (items ++ [item]), s.next)
          | _ => none

def flowMapping? : Nat → List (Value × Value) → Spot → Option (Value × Spot)
  | 0, _, _ => none
  | n + 1, entries, s =>
    if s.head? = some '}' then some (mappingOf entries, s.next)
    else match flowValue? n s with
      | none => none
      | some (key, s) =>
        let s := token s
        let pair := if atFlowColon s || (s.head? = some ':') then flowPairValue? n s else some (.null, s)
        match key, pair with
        | .list _, _ | .mapping _, _ | _, none => none
        | key, some (value, s) =>
          match s.head? with
          | some ',' => flowMapping? n (entries ++ [(key, value)]) (token s.next)
          | some '}' => some (mappingOf (entries ++ [(key, value)]), s.next)
          | _ => none

end

/-! ## Blocks. -/

/-- The key of a block mapping at a place, and the place after its colon. -/
def blockKey? (s : Spot) : Option (Value × Spot) :=
  let found := match s.head? with
    | some '\'' | some '"' =>
      (quotedScalar? s).bind fun (text, after) =>
        if (s.rest.take (s.rest.length - after.rest.length)).contains '\n' then none
        else some (Value.text text, skipSpaces after)
    | _ =>
      if startsPlain false s then
        let length := max 1 (plainLine false false s.rest)
        some (plainValue (String.ofList (s.rest.take length)), skipSpaces (s.skip length))
      else none
  found.bind fun (key, after) =>
    if after.head? = some ':' && separates after.second? then some (key, after.next) else none

def atItem (s : Spot) : Bool := s.head? = some '-' && separates s.second?

/-- The rest of a line after a value holds nothing but blanks and a comment. -/
def lineEnds (s : Spot) : Bool :=
  let s := skipLine s
  s.head? = none || s.head? = some '\n'

def atEnd (s : Spot) : Bool := s.head? = none || atDocumentMark '-' s || atDocumentMark '.' s

mutual

/-- A value on the line of its key or item: a flow collection or a scalar. Later lines of a plain
scalar start in columns from a least one on. -/
def inlineValue? : Nat → Nat → Spot → Option (Value × Spot)
  | 0, _, _ => none
  | n + 1, least, s =>
    let found := match s.head? with
      | some '[' | some '{' => flowValue? n s
      | some '\'' | some '"' => (quotedScalar? s).map fun (text, s) => (.text text, s)
      | _ => plainScalar? false least s
    found.bind fun (value, after) => if lineEnds after then some (value, after) else none

/-- A block at a place: a list, a mapping or a single value. Later lines of a plain scalar start in
columns from a least one on. -/
def block? : Nat → Nat → Spot → Option (Value × Spot)
  | 0, _, _ => none
  | n + 1, least, s =>
    if atItem s then blockList? n s.column [] s
    else if (blockKey? s).isSome then blockMapping? n s.column [] s
    else inlineValue? n least s

def blockList? : Nat → Nat → List Value → Spot → Option (Value × Spot)
  | 0, _, _, _ => none
  | n + 1, column, items, s =>
    if atEnd s || s.column < column || (s.column = column && !atItem s) then some (.list items, s)
    else if s.column > column then none
    else
      let inside := skipSpaces s.next
      let value := if lineEnds inside then
          let next := token inside
          if !atEnd next && next.column > column then block? n (column + 1) next
          else some (.null, next)
        else block? n (column + 1) inside
      match value with
      | none => none
      | some (item, after) => blockList? n column (items ++ [item]) (token after)

/-- A block mapping in a column. A list as a value may stand in the column of its key. -/
def blockMapping? : Nat → Nat → List (Value × Value) → Spot → Option (Value × Spot)
  | 0, _, _, _ => none
  | n + 1, column, entries, s =>
    if atEnd s || s.column < column then some (mappingOf entries, s)
    else if s.column > column then none
    else match blockKey? s with
      | none => none
      | some (key, after) =>
        let inside := skipSpaces after
        let value := if lineEnds inside then
            let next := token inside
            if !atEnd next && (next.column > column || (next.column = column && atItem next)) then
              block? n (column + 1) next
            else some (.null, next)
          else if atItem inside || (blockKey? inside).isSome then none
          else inlineValue? n (column + 1) inside
        match value with
        | none => none
        | some (value, after) =>
          blockMapping? n column (entries ++ [(key, value)]) (token after)

end

/-! ## Documents. -/

def isPrintable (c : Char) : Bool :=
  let n := c.toNat
  n = 9 || n = 10 || n = 13 || (32 ≤ n && n ≤ 126) || n = 0x85 || (0xA0 ≤ n && n ≤ 0xD7FF)
    || (0xE000 ≤ n && n ≤ 0xFFFD) || 0x10000 ≤ n

def unifyBreaks : List Char → List Char
  | '\r' :: '\n' :: rest => '\n' :: unifyBreaks rest
  | '\r' :: rest => '\n' :: unifyBreaks rest
  | c :: rest => c :: unifyBreaks rest
  | [] => []

/-- The value of a document, or nothing when the text is not well formed. -/
def read? (text : String) : Option Value :=
  let cs := unifyBreaks text.toList
  let cs := if cs.head? = some '\uFEFF' then cs.tail else cs
  if !cs.all isPrintable then none
  else
    let fuel := 4 * cs.length + 8
    let start := token ⟨cs, 0⟩
    let start := if atDocumentMark '-' start then token (start.skip 3) else start
    if atEnd start then some .null
    else (block? fuel 0 start).bind fun (value, after) =>
      let after := token after
      let after := if atDocumentMark '.' after then token (after.skip 3) else after
      if after.head? = none then some value else none

end QueryAudit.Yaml
