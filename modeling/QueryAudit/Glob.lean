/-
  QueryAudit.Glob — patterns for file paths

  A star stands for any text, a question mark for any character, and brackets for a character of a
  set. A slash is a character like any other.
-/

import QueryAudit.Text.Pieces

namespace QueryAudit.Glob

open Text

/-! ## Patterns. -/

inductive Item where
  | star
  | any
  | exact (c : Char)
  /-- A character of one of several intervals, or outside all of them. -/
  | set (negated : Bool) (ranges : List (Char × Char))
  deriving DecidableEq, Repr

/-- Cut the inside of brackets at the hyphens that make intervals. A hyphen makes one unless it
stands first in its piece or right after the end of an interval; `keep` counts the characters that
are taken as they are. -/
def chunks : Nat → List Char → List Char → List (List Char)
  | _, piece, [] => [piece.reverse]
  | keep + 1, piece, c :: rest => chunks keep (c :: piece) rest
  | 0, piece, c :: rest =>
    if c = '-' then piece.reverse :: chunks 2 [] rest else chunks 0 (c :: piece) rest

def closeChunks (pieces : List (List Char)) : List (List Char) :=
  match pieces.reverse with
  | [] :: last :: before => ((last ++ ['-']) :: before).reverse
  | _ => pieces

/-- Join pieces whose interval would be empty; both its ends are dropped. -/
def joinEmpty : List (List Char) → List (List Char)
  | [] => []
  | piece :: rest =>
    match piece.getLast?, joinEmpty rest with
    | some low, (high :: more) :: others =>
      if low > high then (piece.dropLast ++ more) :: others else piece :: (high :: more) :: others
    | _, others => piece :: others

def intervals : List (List Char) → List (Char × Char)
  | piece :: (high :: more) :: rest =>
    ((piece.getLast?.map fun low => [(low, high)]).getD []) ++ intervals ((high :: more) :: rest)
  | _ => []

/-- The item for the inside of brackets. A hyphen right after the mark of negation stands for
itself. -/
def bracketItem (inside : List Char) : Item :=
  let keep := if inside.head? = some '!' then 2 else 1
  let pieces := joinEmpty (closeChunks (chunks keep [] inside))
  let all := pieces.flatten
  let (negated, pieces) := match pieces with
    | ('!' :: first) :: rest => (true, first :: rest)
    | pieces => (false, pieces)
  let hyphen := match pieces with
    | [] :: _ :: _ => [('-', '-')]
    | _ => []
  if negated && all.length = 1 && hyphen.isEmpty then .any
  else .set negated (pieces.flatten.map (fun c => (c, c)) ++ intervals pieces ++ hyphen)

/-- How many characters stand before the bracket that closes a set. A bracket right at the start
belongs to the set. -/
def closingBracket? (cs : List Char) : Option Nat :=
  let skipped := if cs.head? = some '!' then 1 else 0
  let skipped := if (cs.drop skipped).head? = some ']' then skipped + 1 else skipped
  let n := skipped + ((cs.drop skipped).takeWhile (· ≠ ']')).length
  if n < cs.length then some n else none

def items : List Char → List Item
  | [] => []
  | c :: cs =>
    if c = '*' then .star :: items cs
    else if c = '?' then .any :: items cs
    else if c = '[' then
      match closingBracket? cs with
      | none => .exact c :: items cs
      | some n => bracketItem (cs.take n) :: items (cs.drop (n + 1))
    else .exact c :: items cs
termination_by cs => cs.length
decreasing_by all_goals simp only [List.length_drop, List.length_cons]; omega

/-! ## Matching. -/

def ends : List Char → List (List Char)
  | [] => [[]]
  | c :: cs => (c :: cs) :: ends cs

def Item.admits (c : Char) : Item → Bool
  | .star | .any => true
  | .exact d => c = d
  | .set negated ranges => (ranges.any fun (low, high) => low ≤ c && c ≤ high) != negated

def matchItems : List Item → List Char → Bool
  | [], cs => cs.isEmpty
  | .star :: rest, cs => (ends cs).any (matchItems rest)
  | _ :: _, [] => false
  | item :: rest, c :: cs => item.admits c && matchItems rest cs

def matches? (pattern text : String) : Bool := matchItems (items pattern.toList) text.toList

end QueryAudit.Glob
