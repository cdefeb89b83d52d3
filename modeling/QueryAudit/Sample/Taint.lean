/-
  QueryAudit.Sample.Taint — marks of unknown values

  A value that cannot be known stands in a sample as a mark: the kind of the unknown, two colons,
  and what is known about it. Marks are found anywhere in a finished sample but inside of a word, so
  the sample tells where its unknown parts come from.
-/

import QueryAudit.Text.Letter

namespace QueryAudit.Sample

open Text

inductive Taint where
  | param | property | methodCall | functionCall | staticCall | arrayFetch | array | const
  | classConst | className
  deriving DecidableEq, Repr

namespace Taint

def word : Taint → String
  | .param => "PARAM"
  | .property => "PROPERTY"
  | .methodCall => "METHOD_CALL"
  | .functionCall => "FUNCTION_CALL"
  | .staticCall => "STATIC_CALL"
  | .arrayFetch => "ARRAY_FETCH"
  | .array => "ARRAY"
  | .const => "CONST"
  | .classConst => "CLASS_CONST"
  | .className => "CLASS"

def all : List Taint :=
  [.param, .property, .methodCall, .functionCall, .staticCall, .arrayFetch, .array, .const,
   .classConst, .className]

def ofWord? (word : String) : Option Taint := all.find? fun t => t.word = word

end Taint

def tainted (kind : Taint) (payload : String) : String := kind.word ++ "::" ++ payload

def markAt? (cs : List Char) : Option Taint :=
  Taint.all.find? fun t => startsWith (t.word ++ "::").toList cs

/-- The kind of the first mark in a text, given whether the character before it is part of a
word. -/
def firstMark? : Bool → List Char → Option Taint
  | _, [] => none
  | insideWord, c :: cs =>
    match (if insideWord then none else markAt? (c :: cs)) with
    | some kind => some kind
    | none => firstMark? (isPlainWordChar c) cs

def taintOf (sample : String) : Option Taint := firstMark? false sample.toList

end QueryAudit.Sample
