/-
  QueryAudit.Text.Case — upper and lower case

  Case mapping of texts. Most characters are mapped one by one; a few become several characters,
  and a capital sigma is lowered to its final form at the end of a word.
-/

import QueryAudit.Text.Blank
import QueryAudit.Text.CaseTable

namespace QueryAudit.Text

/-! ## Single characters. -/

def runImage? (runs : List CaseRun) (n : Nat) : Option Char :=
  (runs.find? fun r => r.first ≤ n && n ≤ r.last && (n - r.first) % r.step == 0).map
    fun r => Char.ofNat ((n : Int) + r.shift).toNat

/-- The case form of a character beyond ASCII: several characters, one, or itself. -/
def tableImage (long : List (Nat × List Nat)) (runs : List CaseRun) (c : Char) : List Char :=
  match long.lookup c.toNat with
  | some ns => ns.map Char.ofNat
  | none => [(runImage? runs c.toNat).getD c]

def lowerChar (c : Char) : List Char :=
  if c.toNat < 128 then [c.toLower] else tableImage lowerLong lowerRuns c

def upperChar (c : Char) : List Char :=
  if c.toNat < 128 then [c.toUpper] else tableImage upperLong upperRuns c

/-! ## Texts. -/

/-- Whether the first character that is not passed over is a letter with case. -/
def meetsCased : List Char → Bool
  | [] => false
  | c :: rest =>
    if inRanges caseIgnorableRanges c.toNat then meetsCased rest
    else inRanges casedRanges c.toNat

/-- Lower case of a text whose characters before it are given in reverse. A capital sigma takes
its final form after a letter and not before one. -/
def lowerFrom : List Char → List Char → List Char
  | _, [] => []
  | before, c :: rest =>
    if c = 'Σ' then
      (if meetsCased before && !meetsCased rest then 'ς' else 'σ') :: lowerFrom (c :: before) rest
    else lowerChar c ++ lowerFrom (c :: before) rest

def lower (text : String) : String := String.ofList (lowerFrom [] text.toList)

def upper (text : String) : String := String.ofList (text.toList.flatMap upperChar)

def sameIgnoringCase (a b : String) : Bool := lower a == lower b

end QueryAudit.Text
