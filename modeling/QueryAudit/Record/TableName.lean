/-
  QueryAudit.Record.TableName — names of tables

  A name between double braces stands for the name with a configured prefix before it. Quotes and
  blanks around the segments of a name are no part of it.
-/

import QueryAudit.Text.Blank

namespace QueryAudit.Record

open Text

/-- A name between double braces at the start of a text, without its optional percent sign, and
how many characters it takes with its braces. -/
def bracedName? (cs : List Char) : Option (List Char × Nat) :=
  match cs with
  | '{' :: '{' :: rest =>
    let run := rest.takeWhile fun c => c ≠ '{' && c ≠ '}'
    if run.isEmpty || (rest.drop run.length).take 2 ≠ ['}', '}'] then none
    else
      let name := match run with
        | '%' :: c :: more => c :: more
        | run => run
      some (name, run.length + 4)
  | _ => none

/-- Every braced name replaced by a prefix and the name without blanks around it. -/
def expandFrom (before : List Char) : List Char → List Char
  | [] => []
  | c :: cs =>
    match bracedName? (c :: cs) with
    | some (name, n) => before ++ trimList isBlank name ++ expandFrom before (cs.drop (n - 1))
    | none => c :: expandFrom before cs
termination_by cs => cs.length
decreasing_by all_goals simp only [List.length_drop, List.length_cons]; omega

def expandTablePrefix (text before : String) : String :=
  String.ofList (expandFrom before.toList text.toList)

def isNameQuote (c : Char) : Bool := ['\x60', '"', '\'', '[', ']'].contains c

def normalizeTable (name before : String) : String :=
  joinWith "." ((splitAt '.' (expandTablePrefix (trim name) before)).map fun segment =>
    trimBoth isNameQuote (trim segment))

end QueryAudit.Record
