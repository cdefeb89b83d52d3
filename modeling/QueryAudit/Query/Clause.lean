/-
  QueryAudit.Query.Clause — conditions of queries

  Whether a condition already starts with a clause of its own, and the replacement of named
  placeholders in a condition.
-/

import QueryAudit.Catalog
import QueryAudit.Text.Letter

namespace QueryAudit.Query

open Text

/-! ## Clauses. -/

def clauseWords : List (List String) :=
  [["WHERE"], ["ORDER", "BY"], ["GROUP", "BY"], ["HAVING"], ["LIMIT"], ["JOIN"], ["INNER", "JOIN"],
   ["LEFT", "JOIN"], ["RIGHT", "JOIN"], ["CROSS", "JOIN"], ["NATURAL", "JOIN"], ["UNION"]]

/-- A letter as keywords are compared: in capitals, the long s and the two Turkish letters i
included. -/
def keywordChar (c : Char) : Char :=
  if c = 'ſ' then 'S' else if c = 'ı' || c = 'İ' then 'I' else c.toUpper

def afterWord? (word cs : List Char) : Option (List Char) :=
  (after? word ((cs.take word.length).map keywordChar)).bind fun rest =>
    if rest.isEmpty then some (cs.drop word.length) else none

def afterWords? : List String → List Char → Option (List Char)
  | [], cs => some cs
  | [word], cs => afterWord? word.toList cs
  | word :: more, cs =>
    match afterWord? word.toList cs with
    | some rest =>
      if (rest.head?.map isBlank).getD false then afterWords? more (rest.dropWhile isBlank)
      else none
    | none => none

/-- Whether a text starts with a clause: its words and then no further word character. -/
def startsClause (text : String) : Bool :=
  let cs := text.toList.dropWhile isBlank
  clauseWords.any fun wordsOfClause =>
    match afterWords? wordsOfClause cs with
    | some rest => !(rest.head?.map isWordChar).getD false
    | none => false

/-! ## Placeholders. -/

/-- Every occurrence of a placeholder that no word character follows, replaced. The count is the
number of characters of an occurrence that are still to be passed over. -/
def replacePlaceholder (name replacement : List Char) : Nat → List Char → List Char
  | _, [] => []
  | passed + 1, _ :: rest => replacePlaceholder name replacement passed rest
  | 0, c :: rest =>
    match after? name (c :: rest) with
    | some following =>
      if (following.head?.map isPlainWordChar).getD false then
        c :: replacePlaceholder name replacement 0 rest
      else replacement ++ replacePlaceholder name replacement (name.length - 1) rest
    | none => c :: replacePlaceholder name replacement 0 rest

/-- A text put in wherever no word character follows: what an empty placeholder comes to. -/
def replaceNothing (replacement : List Char) : List Char → List Char
  | [] => replacement
  | c :: rest =>
    if isPlainWordChar c then c :: replaceNothing replacement rest
    else replacement ++ c :: replaceNothing replacement rest

def replaceInTurn : List (String × String) → List Char → List Char
  | [], cs => cs
  | (name, replacement) :: rest, cs =>
    replaceInTurn rest (if name = "" then replaceNothing replacement.toList cs
      else replacePlaceholder name.toList replacement.toList 0 cs)

/-- Placeholders in the order in which they are replaced: longer names first. -/
def longestFirst (params : Catalog String) : List (String × String) :=
  params.entries.mergeSort fun a b => b.1.length ≤ a.1.length

def applyParams (condition : String) (params : Catalog String) : String :=
  String.ofList (replaceInTurn (longestFirst params) condition.toList)

end QueryAudit.Query
