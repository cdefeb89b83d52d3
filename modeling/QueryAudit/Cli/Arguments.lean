/-
  QueryAudit.Cli.Arguments — the words of the command line

  A command line names a command and a target, with options before or after it. A long option may
  be shortened as long as it stays unambiguous and may carry its value behind an equals sign; the
  value of a short option may follow it at once. Two hyphens end the options. Asking for help ends
  the reading where it stands; words that fit nowhere are only rejected at the end.
-/

import QueryAudit.Text.Pieces

namespace QueryAudit.Cli

open Text

/-! ## Requests. -/

inductive Command where
  | analyze
  | locate
  deriving DecidableEq, Repr

/-- A command with its target and options. -/
structure Request where
  command : Command
  target : String
  verbose : Bool := false
  debug : Bool := false
  cacheDir : Option String := none
  config : Option String := none
  json : Bool := false
  outputFile : Option String := none
  noBanner : Bool := false
  deriving DecidableEq, Repr

inductive Reading where
  | request (r : Request)
  | help
  | rejected
  deriving DecidableEq, Repr

/-! ## Options. -/

inductive Flag where
  | help
  | verbose
  | debug
  | cacheDir
  | config
  | output
  | outputFile
  | noBanner
  deriving DecidableEq, Repr

def Flag.hasValue : Flag → Bool
  | .cacheDir | .config | .output | .outputFile => true
  | _ => false

abbrev Names := List (String × Flag)

def topNames : Names := [("-h", .help), ("--help", .help)]

def commonNames : Names :=
  topNames ++ [("--verbose", .verbose), ("--config", .config), ("--output", .output),
    ("-o", .outputFile), ("--output-file", .outputFile), ("--no-banner", .noBanner)]

def Command.names : Command → Names
  | .analyze => commonNames ++ [("--debug", .debug), ("--cache-dir", .cacheDir)]
  | .locate => commonNames

def Command.named? (name : String) : Option Command :=
  if name = "analyze" then some .analyze
  else if name = "locate" then some .locate
  else none

/-! ## Words. -/

/-- What a word of the command line is. -/
inductive Word where
  | plain (text : String)
  /-- An option, with the value that is part of the word, and whether it is a short one. -/
  | option (flag : Flag) (value : Option String) (isShort : Bool)
  | unknown
  | separator
  deriving DecidableEq, Repr

def isNegativeNumber (text : String) : Bool :=
  match text.toList with
  | '-' :: rest =>
    let fraction := (rest.dropWhile Char.isDigit).tail
    (!rest.isEmpty && rest.all Char.isDigit) ||
      ((rest.dropWhile Char.isDigit).head? = some '.' && !fraction.isEmpty &&
        fraction.all Char.isDigit)
  | _ => false

def startingWith (names : Names) (start : String) : Names :=
  names.filter fun (name, _) => startsWith start.toList name.toList

def shortened (names : Names) (text : String) : List Word :=
  match text.toList with
  | '-' :: '-' :: _ =>
    let (start, value) := cutAt '=' text
    (startingWith names start).map fun (_, flag) => .option flag value false
  | '-' :: c :: rest =>
    let exact := (names.filter (·.1 = String.ofList ['-', c])).map fun (_, flag) =>
      Word.option flag (some (String.ofList rest)) true
    exact ++ ((startingWith names text).filter (·.1 ≠ String.ofList ['-', c])).map
      fun (_, flag) => .option flag none (text.length = 2)
  | _ => []

def exactly? (names : Names) (name : String) : Option Flag :=
  (names.find? (·.1 = name)).map (·.2)

def isShortName (name : String) : Bool := name.toList.getD 1 '-' ≠ '-'

def wordOf? (names : Names) (text : String) : Option Word :=
  match text.toList with
  | [] => some (.plain text)
  | '-' :: [] => some (.plain text)
  | '-' :: _ =>
    match exactly? names text with
    | some flag => some (.option flag none (isShortName text))
    | none =>
      match cutAt '=' text with
      | (name, some value) =>
        match exactly? names name with
        | some flag => some (.option flag (some value) (isShortName name))
        | none => other
      | _ => other
  | _ => some (.plain text)
where
  other : Option Word :=
    match shortened names text with
    | [] =>
      if isNegativeNumber text || text.toList.contains ' ' then some (.plain text)
      else some .unknown
    | [single] => some single
    | _ => none

def wordsOf? (names : Names) : List String → Option (List Word)
  | [] => some []
  | text :: rest =>
    if text = "--" then some (.separator :: rest.map .plain)
    else do
      let first ← wordOf? names text
      let others ← wordsOf? names rest
      return first :: others

/-! ## Reading. -/

structure Progress where
  request : Request
  hasTarget : Bool := false
  surplus : Bool := false
  /-- Whether the word before was the target or the value of an option. -/
  afterValue : Bool := false

def Progress.switch (p : Progress) (flag : Flag) : Progress :=
  let r := p.request
  { p with
    afterValue := false
    request := match flag with
      | .verbose => { r with verbose := true }
      | .debug => { r with debug := true }
      | .noBanner => { r with noBanner := true }
      | _ => r }

def Progress.assign? (p : Progress) (flag : Flag) (value : String) : Option Progress :=
  let r := p.request
  let p := { p with afterValue := true }
  match flag with
  | .cacheDir => some { p with request := { r with cacheDir := some value } }
  | .config => some { p with request := { r with config := some value } }
  | .outputFile => some { p with request := { r with outputFile := some value } }
  | .output =>
    if value = "json" then some { p with request := { r with json := true } }
    else if value = "text" then some { p with request := { r with json := false } }
    else none
  | _ => some p

def valueBehind? : List Word → Option (String × List Word)
  | .plain text :: rest => some (text, rest)
  | .separator :: .plain text :: rest => some (text, rest)
  | _ => none

/-- Help in a cluster of short options: the other letters have to make sense. -/
def helpCluster (letters : List Char) (rest : List Word) : Reading :=
  match letters with
  | [] => .help
  | 'h' :: more => helpCluster more rest
  | 'o' :: [] => if (valueBehind? rest).isSome then .help else .rejected
  | 'o' :: _ => .help
  | _ => .rejected

/-- Read the words of a command. The count bounds the number of words. -/
def readWords : Nat → Progress → List Word → Reading
  | 0, _, _ => .rejected
  | _ + 1, p, [] => if p.hasTarget && !p.surplus then .request p.request else .rejected
  | n + 1, p, word :: rest =>
    match word with
    | .plain text =>
      if p.hasTarget then readWords n { p with surplus := true, afterValue := false } rest
      else readWords n { p with
        request := { p.request with target := text }, hasTarget := true, afterValue := true } rest
    | .separator =>
      readWords n { p with surplus := p.surplus || (p.hasTarget && !p.afterValue) } rest
    | .unknown => readWords n { p with surplus := true, afterValue := false } rest
    | .option .help value isShort =>
      match value with
      | none => .help
      | some text =>
        if isShort && !text.isEmpty then helpCluster text.toList rest else .rejected
    | .option flag (some value) _ =>
      if flag.hasValue then
        match p.assign? flag value with
        | some p => readWords n p rest
        | none => .rejected
      else .rejected
    | .option flag none _ =>
      if flag.hasValue then
        match valueBehind? rest with
        | none => .rejected
        | some (value, rest) =>
          match p.assign? flag value with
          | some p => readWords n p rest
          | none => .rejected
      else readWords n (p.switch flag) rest

/-- Read what stands behind the name of a command; `surplus` tells whether something before it
fits nowhere. -/
def readCommand (command : Command) (surplus : Bool) (args : List String) : Reading :=
  match wordsOf? command.names args with
  | none => .rejected
  | some words => readWords (words.length + 1) { request := { command, target := "" }, surplus } words

def readFrom (surplus : Bool) : List String → Reading
  | [] => .rejected
  | text :: rest =>
    if text = "--" then .rejected
    else match wordOf? topNames text with
      | some (.plain name) =>
        match Command.named? name with
        | some command => readCommand command surplus rest
        | none => .rejected
      | some (.option _ none _) => .help
      | some (.option _ (some value) isShort) =>
        if isShort && !value.isEmpty && value.all (· = 'h') then .help else .rejected
      | _ => readFrom true rest

def read (args : List String) : Reading := readFrom false args

end QueryAudit.Cli
