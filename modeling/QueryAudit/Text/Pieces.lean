/-
  QueryAudit.Text.Pieces — cutting and replacing text

  Texts are handled as lists of characters: splitting at a separator, trimming both ends,
  replacing every occurrence of a needle, and padding to a width. Each operation is a plain
  recursion on the list, so facts about it go by induction on the text.
-/

namespace QueryAudit.Text

/-! ## Splitting and joining. -/

/-- The pieces of a text between occurrences of a separator; one more than there are separators. -/
def pieces (separator : Char) : List Char → List (List Char)
  | [] => [[]]
  | c :: rest =>
    if c = separator then [] :: pieces separator rest
    else match pieces separator rest with
      | [] => [[c]]
      | piece :: others => (c :: piece) :: others

def splitAt (separator : Char) (text : String) : List String :=
  (pieces separator text.toList).map String.ofList

/-- The text before the first separator and, when there is one, the text after it. -/
def cutAt (separator : Char) (text : String) : String × Option String :=
  let cs := text.toList
  match cs.dropWhile (· ≠ separator) with
  | [] => (text, none)
  | _ :: after => (String.ofList (cs.takeWhile (· ≠ separator)), some (String.ofList after))

def joinWith (separator : String) (texts : List String) : String :=
  separator.intercalate texts

/-! ## Trimming. -/

/-- The text without its longest leading and trailing runs of the given class. -/
def trimList (drop : Char → Bool) (cs : List Char) : List Char :=
  ((cs.dropWhile drop).reverse.dropWhile drop).reverse

def trimBoth (drop : Char → Bool) (text : String) : String :=
  String.ofList (trimList drop text.toList)

def trimStart (drop : Char → Bool) (text : String) : String :=
  String.ofList (text.toList.dropWhile drop)

def trimEnd (drop : Char → Bool) (text : String) : String :=
  String.ofList (text.toList.reverse.dropWhile drop).reverse

/-! ## Finding and replacing. -/

def startsWith : List Char → List Char → Bool
  | [], _ => true
  | _ :: _, [] => false
  | a :: needle, c :: rest => a = c && startsWith needle rest

/-- The rest of a text after a given start, when it has that start. -/
def after? : List Char → List Char → Option (List Char)
  | [], rest => some rest
  | _ :: _, [] => none
  | a :: needle, c :: rest => if a = c then after? needle rest else none

/-- Every occurrence of a needle replaced, scanning from the left and never inside a replacement.
The count is the number of characters of an occurrence that are still to be passed over. -/
def replaceFrom (needle replacement : List Char) : Nat → List Char → List Char
  | _, [] => []
  | passed + 1, _ :: rest => replaceFrom needle replacement passed rest
  | 0, c :: rest =>
    if startsWith needle (c :: rest) then
      replacement ++ replaceFrom needle replacement (needle.length - 1) rest
    else c :: replaceFrom needle replacement 0 rest

/-- Every occurrence of a non-empty needle replaced; an empty needle occurs nowhere. -/
def replaceAll (needle replacement text : String) : String :=
  if needle.isEmpty then text
  else String.ofList (replaceFrom needle.toList replacement.toList 0 text.toList)

/-! ## Widths. -/

def padLeft (fill : Char) (width : Nat) (text : String) : String :=
  String.ofList (List.replicate (width - text.length) fill) ++ text

def padRight (fill : Char) (width : Nat) (text : String) : String :=
  text ++ String.ofList (List.replicate (width - text.length) fill)

/-! ## Repetition. -/

/-- The elements of a list without repetitions, each at its first place. -/
def distinct [DecidableEq α] (items : List α) : List α :=
  items.foldl (fun seen item => if item ∈ seen then seen else seen ++ [item]) []

end QueryAudit.Text
