/-
  QueryAudit.Text.Blank — white space

  Which code points count as white space, trimming of white space, and the words of a text.
-/

import QueryAudit.Text.Pieces

namespace QueryAudit.Text

def inRanges (ranges : List (Nat × Nat)) (n : Nat) : Bool :=
  ranges.any fun (low, high) => low ≤ n && n ≤ high

/-- The ranges of a class of code points, from the lengths of the stretches out of it and in it, by
turns. -/
def stretches : Nat → List Nat → List (Nat × Nat)
  | start, gap :: count :: rest =>
    (start + gap, start + gap + count - 1) :: stretches (start + gap + count) rest
  | _, _ => []

/-- White space: tabs and line ends, the four separators, spaces of every width. -/
def blankRanges : List (Nat × Nat) :=
  [(9, 13), (28, 32), (133, 133), (160, 160), (5760, 5760), (8192, 8202), (8232, 8233),
   (8239, 8239), (8287, 8287), (12288, 12288)]

def isBlank (c : Char) : Bool := inRanges blankRanges c.toNat

def trim (text : String) : String := trimBoth isBlank text

def wordsFrom : List Char → List Char → List (List Char)
  | word, [] => if word.isEmpty then [] else [word.reverse]
  | word, c :: rest =>
    if isBlank c then
      if word.isEmpty then wordsFrom [] rest else word.reverse :: wordsFrom [] rest
    else wordsFrom (c :: word) rest

def words (text : String) : List String := (wordsFrom [] text.toList).map String.ofList

end QueryAudit.Text
