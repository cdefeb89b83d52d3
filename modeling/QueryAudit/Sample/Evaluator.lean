/-
  QueryAudit.Sample.Evaluator — samples of expressions

  An expression stands for a sequence of sample texts, and unknown values for marks. Samples are
  produced on demand: an expression is first prepared, which resolves its references, and then as
  many samples are drawn as are wanted. While a definition is being drawn from it is active; a
  reference to an active definition stands for the definition it hides. A sequence that was not
  drawn to its end keeps its definitions active until it is closed.
-/

import QueryAudit.Intrinsic.Call
import QueryAudit.Sample.Product
import QueryAudit.Sample.Taint
import QueryAudit.Scope.Store

namespace QueryAudit.Sample

open Php Scope Text

/-! ## Sequences. -/

/-- A sequence of samples that was prepared and not drawn from yet. -/
inductive Sequence where
  | ready (values : List String)
  /-- The samples of a node whose work is done when the first sample is wanted. -/
  | later (node : Cursor) (path : String)
  | binding (b : Binding)
  | concat (parts : List Sequence) (node : Cursor) (path : String)
  | chain (parts : List Sequence)
  /-- The samples of nodes one after another, each prepared when it is reached. -/
  | branches (nodes : List Cursor) (path : String)

/-- Whether a sequence is closed as soon as it was drawn from. A chain is not: what it started stays
active as long as it is held. -/
def Sequence.closes : Sequence → Bool
  | .chain _ | .branches _ _ => false
  | _ => true

/-- A definition being drawn from: its file and number. -/
abbrev Mark := String × Nat

def markOf (b : Binding) : Mark := (b.path, b.serial)

/-- Samples that were drawn, and the definitions that stay active because the sequence was not
drawn to its end. -/
structure Drawn where
  values : List String
  held : List Mark := []

/-- One item of an array: its key, its value and the file they stand in. -/
structure Item where
  key : Option Cursor
  value : Cursor
  path : String

/-- Evaluators for what nests in an expression. -/
structure Evaluation where
  prepare : Cursor → String → Audit Sequence
  draw : Sequence → Nat → Audit Drawn
  items : Cursor → String → Nat → Audit (Option (List Item))
  itemsOf : Binding → Nat → Audit (Option (List Item))

/-! ## Active definitions. -/

def isActive (b : Binding) : Audit Bool := do return (← get).active.contains (markOf b)

def activate (mark : Mark) : Audit Unit := modify fun r => { r with active := mark :: r.active }

def releaseMarks (marks : List Mark) : Audit Unit :=
  modify fun r => { r with active := marks.foldl List.erase r.active }

def limit : Audit Nat := do return (← get).settings.maxSamples

def warnCap (node : Cursor) (path : String) : Audit Unit := do
  Audit.warnOnce ("sample-cap:" ++ path ++ ":" ++ toString node.start)
    (.at ("sample enumeration capped at " ++ toString (← limit)) node path "sample-cap")

/-- Samples of a sequence up to the limit, whether there are more, and definitions that stay active
as long as the sequence is held. -/
def takeFrom (e : Evaluation) (sequence : Sequence) : Audit (List String × Bool × List Mark) := do
  let n ← limit
  let drawn ← e.draw sequence (n + 1)
  let more := n < drawn.values.length
  if sequence.closes then
    releaseMarks drawn.held
    return (drawn.values.take n, more, [])
  else return (drawn.values.take n, more, drawn.held)

def samplesWith (e : Evaluation) (node : Cursor) (path : String) : Audit (List String) := do
  let sequence ← e.prepare node path
  let (values, more, held) ← takeFrom e sequence
  releaseMarks held
  if more then warnCap node path
  return distinct values

/-! ## Preparing. -/

def numeric : Sequence := .ready ["1"]

def numericCasts : List String := ["int", "integer", "float", "double", "real", "bool", "boolean"]

def unhandled {α : Type} (message : String) (node : Cursor) (path : String) : Audit α :=
  throw (.hard (.at message node path))

def prepareRole (e : Evaluation) (node : Cursor) (role path : String) : Audit Sequence :=
  match node.inRole? role with
  | some child => e.prepare child path
  | none => throw .absent

def prepareString (e : Evaluation) (node : Cursor) (path : String) : Audit Sequence := do
  let parts ← Audit.unescaped (stringParts node)
  let prepared ← parts.mapM fun part => match part with
    | .text value => pure (Sequence.ready [value])
    | .code inner => e.prepare inner path
  return .concat prepared node path

def operatorText (node : Cursor) : String := ((node.inRole? "operator").map Cursor.text).getD ""

/-- Prepare a binary operator: concatenation, a fallback for a missing value, or a number. -/
def prepareBinary (e : Evaluation) (node : Cursor) (path : String) : Audit Sequence := do
  match operatorText node with
  | "." =>
    let left ← prepareRole e node "left" path
    let right ← prepareRole e node "right" path
    return .concat [left, right] node path
  | "??" =>
    let left ← prepareRole e node "left" path
    let right ← prepareRole e node "right" path
    return .chain [left, right]
  | _ => return numeric

def prepareInner (e : Evaluation) (node : Cursor) (path : String) : Audit Sequence :=
  match node.parts.getLast? with
  | some inner => e.prepare inner path
  | none => unhandled "empty expression" node path

def prepareConditional (node : Cursor) (path : String) : Sequence :=
  let body := match node.inRole? "body" with
    | some body => some body
    | none => node.inRole? "condition"
  .branches (body.toList ++ (node.inRole? "alternative").toList) path

def prepareCast (e : Evaluation) (node : Cursor) (path : String) : Audit Sequence := do
  let type := ((node.inRole? "type").map fun t =>
    lower (trimBoth (fun c => c = '(' || c = ')' || c = ' ' || c = '\t') t.text)).getD ""
  if numericCasts.contains type then return numeric
  match node.inRole? "value" with
  | some value => e.prepare value path
  | none => unhandled "cast without operand" node path

/-- Prepare the value that a combining assignment gives a variable with an earlier definition. -/
def prepareCombined (e : Evaluation) (node : Cursor) (before : Option Binding) (path : String) :
    Audit Sequence := do
  match operatorText node with
  | ".=" =>
    let right ← prepareRole e node "right" path
    let left := (before.map Sequence.binding).getD (.ready [""])
    return .concat [left, right] node path
  | "??=" =>
    let right ← prepareRole e node "right" path
    let left := (before.map Sequence.binding).getD (.ready [])
    return .chain [left, right]
  | _ => return numeric

def prepareAugmented (e : Evaluation) (node : Cursor) (path : String) : Audit Sequence := do
  match node.inRole? "left" with
  | none => throw .absent
  | some left =>
    match ← Audit.resolve path left none with
    | some b =>
      if (b.node.map (·.same node)).getD false then return .binding b
      else prepareCombined e node none path
    | none => prepareCombined e node none path

def prepareReference (node : Cursor) (path : String) : Audit Sequence := do
  match ← Audit.resolve path node none with
  | some b => return .binding b
  | none => return .ready [tainted .property node.text]

def scopeName (node : Cursor) : String :=
  ((node.inRole? "scope").map fun s => shortClassName s.text).getD ""

def prepareRule (e : Evaluation) (node : Cursor) (path : String) : Audit Sequence :=
  match node.kind with
  | .string => return .ready [singleQuotedValue node.text]
  | .encapsedString | .heredoc | .nowdoc => prepareString e node path
  | .integer | .float => return .ready [node.text]
  | .boolean => return .ready [if lower node.text = "true" then "1" else ""]
  | .null => return .ready [""]
  | .binaryExpression => prepareBinary e node path
  | .unaryOpExpression | .updateExpression => return numeric
  | .variableName | .memberAccessExpression | .nullsafeMemberAccessExpression
  | .scopedPropertyAccessExpression => prepareReference node path
  | .dynamicVariableName => return .ready [tainted .property node.text]
  | .arrayCreationExpression | .subscriptExpression | .functionCallExpression
  | .classConstantAccessExpression | .name | .qualifiedName => return .later node path
  | .castExpression => prepareCast e node path
  | .memberCallExpression | .nullsafeMemberCallExpression =>
    return .ready [tainted .methodCall (node.nameText ++ "::")]
  | .scopedCallExpression =>
    return .ready [tainted .staticCall (scopeName node ++ "::" ++ node.nameText)]
  | .objectCreationExpression | .cloneExpression =>
    return .ready [tainted .className ((node.parts.head?.map Cursor.text).getD "")]
  | .parenthesizedExpression | .errorSuppressionExpression | .argument => prepareInner e node path
  | .conditionalExpression => return prepareConditional node path
  | .assignmentExpression | .referenceAssignmentExpression => prepareRole e node "right" path
  | .augmentedAssignmentExpression => prepareAugmented e node path
  | _ => do
    Audit.hardError (.at "unhandled expression" node path)
    return .ready []

/-! ## Arrays. -/

def literalItems (node : Cursor) (path : String) : List Item :=
  (arrayElements node).map fun (key, value) => ⟨key, value, path⟩

def itemDepth : Nat := 16

/-- The items of an array expression: a literal, or a reference to one. -/
def itemsRule (e : Evaluation) (node : Cursor) (path : String) (depth : Nat) :
    Audit (Option (List Item)) := do
  if depth > itemDepth then return none
  match node.kind with
  | .arrayCreationExpression => return some (literalItems node path)
  | .parenthesizedExpression | .argument =>
    match node.parts.getLast? with
    | some inner => e.items inner path (depth + 1)
    | none => return none
  | _ =>
    if !node.kind.isReference then return none
    match ← Audit.resolve path node none with
    | none => return none
    | some b => if ← isActive b then return none else e.itemsOf b (depth + 1)

/-- The items of an array held by a definition. A write to an element adds an item to those of the
definition before it. -/
def itemsOfRule (e : Evaluation) (b : Binding) (depth : Nat) : Audit (Option (List Item)) := do
  match b.node with
  | none => return none
  | some node =>
    match b.tag with
    | some .parameter | some .loopKey | some .loopValue => return none
    | some .element =>
      let before ← match ← Audit.previousOf b with
        | none => pure []
        | some hidden => do pure ((← e.itemsOf hidden (depth + 1)).getD [])
      let key := (node.inRole? "left").bind fun left => left.parts[1]?
      match node.inRole? "right" with
      | some value => return some (before ++ [⟨key, value, b.path⟩])
      | none => throw .absent
    | _ => e.items node b.path (depth + 1)

/-- The text of an item: its first sample, after the first sample of its key. -/
def itemText (e : Evaluation) (item : Item) : Audit String := do
  let value := (← samplesWith e item.value item.path).headD ""
  match item.key with
  | none => return value
  | some key => return (← samplesWith e key item.path).headD "" ++ "=>" ++ value

def arrayMark (e : Evaluation) (items : List Item) : Audit String := do
  return tainted .array ("[" ++ joinWith ", " (← items.mapM (itemText e)) ++ "]")

/-! ## Calls. -/

def arrayCandidates (e : Evaluation) (path : String) (arg : Cursor) (items : List Item) :
    Audit (List Intrinsic.Argument) := do
  let perItem ← items.mapM fun item => do
    let values ← samplesWith e item.value item.path
    return if values.isEmpty then [""] else values
  let n ← limit
  let found := firstProducts (n + 1) perItem
  if n < found.length then warnCap arg path
  return (found.take n).map .list

def argumentCandidates (e : Evaluation) (path : String) (arg : Cursor) :
    Audit (List Intrinsic.Argument) := do
  match ← e.items arg path 0 with
  | none => return (← samplesWith e arg path).map .text
  | some items => arrayCandidates e path arg items

def firstTainted (args : List Intrinsic.Argument) : String :=
  (args.findSome? fun a => match a with
    | .text value => if (taintOf value).isSome then some value else none
    | .list _ => none).getD ""

/-- The sample of one call of a built-in function. A rejected call gives a mark. -/
def callSample (node : Cursor) (path name : String) (args : List Intrinsic.Argument) :
    Audit String := do
  match Intrinsic.call name args with
  | .ok text => return text
  | .error (.rejected why) =>
    Audit.log ((← Audit.shown path) ++ ":" ++ toString node.line ++ ": " ++ why.message)
    return tainted .functionCall (name ++ "::" ++ firstTainted args)
  | .error fault => throw (.intrinsic fault)

/-- Draw samples of a call of a built-in function for combinations of its arguments. -/
def drawCalls (node : Cursor) (path name : String) :
    Nat → Nat → List (List Intrinsic.Argument) → Audit (List String)
  | _, _, [] => return []
  | 0, _, _ => return []
  | _, 0, _ => do
    warnCap node path
    return []
  | wanted + 1, allowed + 1, args :: rest => do
    let first ← callSample node path name args
    return first :: (← drawCalls node path name wanted allowed rest)

/-- Draw samples of a function call, given the values that its arguments can have. -/
def drawCall (candidates : Cursor → Audit (List Intrinsic.Argument)) (node : Cursor)
    (path : String) (wanted : Nat) : Audit Drawn := do
  let name := ((node.inRole? "function").map fun f => shortClassName f.text).getD ""
  if !Intrinsic.isKnown name then return ⟨[tainted .functionCall (name ++ "::")], []⟩
  let candidates ← (callArguments node).mapM candidates
  let n ← limit
  return ⟨← drawCalls node path name wanted n (firstProducts (n + 1) candidates), []⟩

def drawFunction (e : Evaluation) (node : Cursor) (path : String) (wanted : Nat) : Audit Drawn :=
  drawCall (argumentCandidates e path) node path wanted

/-! ## Drawing. -/

/-- Samples with a sequence behind them that was drawn to its end or stays open. Nothing stays
active in a sequence that gave less than was wanted. -/
def Drawn.isOpen (d : Drawn) (wanted : Nat) : Bool := wanted ≤ d.values.length

/-- Draw from several sources one after another until enough samples are there. -/
def drawEach {α : Type} (draw : α → Nat → Audit Drawn) : Nat → List α → Audit Drawn
  | _, [] => return ⟨[], []⟩
  | wanted, source :: rest => do
    if wanted = 0 then return ⟨[], []⟩
    let first ← draw source wanted
    if first.isOpen wanted then return first
    let more ← drawEach draw (wanted - first.values.length) rest
    return ⟨first.values ++ more.values, more.held⟩

/-- Samples of the parts of a concatenation up to the limit, and definitions that stay active. -/
def takeParts (e : Evaluation) (node : Cursor) (path : String) :
    List Sequence → Audit (List (List String) × List Mark)
  | [] => return ([], [])
  | part :: rest => do
    let (values, more, held) ← takeFrom e part
    if more then warnCap node path
    let (others, heldLater) ← takeParts e node path rest
    return (values :: others, held ++ heldLater)

def drawConcat (e : Evaluation) (parts : List Sequence) (node : Cursor) (path : String)
    (wanted : Nat) : Audit Drawn := do
  let (lists, held) ← takeParts e node path parts
  let n ← limit
  let found := firstProducts (n + 1) lists
  let values := (found.take (min n wanted)).map (joinWith "")
  if values.length < wanted then
    if n < found.length then warnCap node path
    releaseMarks held
    return ⟨values, []⟩
  else return ⟨values, held⟩

def drawSubscript (e : Evaluation) (node : Cursor) (path : String) (wanted : Nat) :
    Audit Drawn := do
  match node.parts with
  | [] => unhandled "empty subscript" node path
  | base :: rest =>
    let base ← e.prepare base path
    let index ← match rest with
      | [] => pure (Sequence.ready [""])
      | index :: _ => e.prepare index path
    let drawn ← drawConcat e [base, .ready ["["], index, .ready ["]"]] node path wanted
    return { drawn with values := drawn.values.map (tainted .arrayFetch) }

/-- Draw samples of a resolved name, or its mark when it is not resolved. -/
def drawNamed (e : Evaluation) (node : Cursor) (path : String) (kind : Taint) (wanted : Nat) :
    Audit Drawn := do
  match ← Audit.resolve path node none with
  | some b => e.draw (.binding b) wanted
  | none => return ⟨[tainted kind node.text], []⟩

/-- Draw samples of a class constant. The name of a class stands for itself. -/
def drawClassConstant (e : Evaluation) (node : Cursor) (path : String) (wanted : Nat) :
    Audit Drawn :=
  match node.parts with
  | first :: second :: rest =>
    if ((rest.getLast?).getD second).text = "class" then return ⟨[shortClassName first.text], []⟩
    else drawNamed e node path .classConst wanted
  | _ => drawNamed e node path .classConst wanted

def drawConstant (e : Evaluation) (node : Cursor) (path : String) (wanted : Nat) : Audit Drawn :=
  match lower (shortClassName node.text) with
  | "true" => return ⟨["1"], []⟩
  | "false" | "null" => return ⟨[""], []⟩
  | _ => drawNamed e node path .const wanted

def drawLater (e : Evaluation) (node : Cursor) (path : String) (wanted : Nat) : Audit Drawn := do
  match node.kind with
  | .arrayCreationExpression => return ⟨[← arrayMark e (literalItems node path)], []⟩
  | .subscriptExpression => drawSubscript e node path wanted
  | .functionCallExpression => drawFunction e node path wanted
  | .classConstantAccessExpression => drawClassConstant e node path wanted
  | _ => drawConstant e node path wanted

def drawNode (e : Evaluation) (node : Cursor) (path : String) (wanted : Nat) : Audit Drawn := do
  e.draw (← e.prepare node path) wanted

def isWholeCollection (node : Cursor) (path : String) : Audit Bool := do
  match ← Audit.above path node with
  | parent :: _ =>
    if parent.kind ≠ .foreachStatement then return false
    return (parent.parts.head?.map (·.same node)).getD false
  | [] => return false

/-- Draw samples of a loop variable that stands for a whole collection: those of its items, if they
are known. -/
def drawLoopVariable (e : Evaluation) (b : Binding) (node : Cursor) (wanted : Nat) :
    Audit Drawn := do
  match ← e.items node b.path 0 with
  | none | some [] => drawNode e node b.path wanted
  | some items =>
    drawEach (fun (item, index) wanted =>
      if b.tag = some .loopValue then drawNode e item.value item.path wanted
      else match item.key with
        | some key => drawNode e key item.path wanted
        | none => return ⟨[toString index], []⟩) wanted items.zipIdx

def drawDefinition (e : Evaluation) (b : Binding) (node : Cursor) (wanted : Nat) :
    Audit Drawn := do
  if b.tag = some .element then
    return ⟨[← arrayMark e ((← e.itemsOf b 0).getD [])], []⟩
  if node.kind = .augmentedAssignmentExpression then
    let before ← Audit.previousOf b
    e.draw (← prepareCombined e node before b.path) wanted
  else if ← (if (b.tag.map Tag.isLoop).getD false then isWholeCollection node b.path
      else return false) then
    drawLoopVariable e b node wanted
  else drawNode e node b.path wanted

def drawSingle (e : Evaluation) (b : Binding) (wanted : Nat) : Audit Drawn := do
  match b.isParameter, b.literal, b.node with
  | true, _, _ => return ⟨[tainted .param b.identifier], []⟩
  | false, some value, _ => return ⟨[value], []⟩
  | false, none, none => return ⟨[tainted .property b.identifier], []⟩
  | false, none, some node =>
    activate (markOf b)
    let drawn ← drawDefinition e b node wanted
    if drawn.isOpen wanted then return { drawn with held := markOf b :: drawn.held }
    releaseMarks [markOf b]
    return drawn

/-- The definition to draw from: the given one, or the one it hides when it is active; nothing
when that is active too. The identifier is that of the mark in the latter case. -/
def definitionFor (b : Binding) : Audit (Except String Binding) := do
  if !(← isActive b) then return .ok b
  match ← Audit.previousOf b with
  | none => return .error b.identifier
  | some hidden => if ← isActive hidden then return .error hidden.identifier else return .ok hidden

/-- Draw samples of a definition and of all others its loop made, each in a given way. -/
def drawAlternatives (draw : Binding → Nat → Audit Drawn) (b : Binding) (wanted : Nat) :
    Audit Drawn := do
  match ← definitionFor b with
  | .error identifier => return ⟨[tainted .property identifier], []⟩
  | .ok b => drawEach draw wanted (← Audit.alternativesOf b)

def drawBinding (e : Evaluation) (b : Binding) (wanted : Nat) : Audit Drawn :=
  drawAlternatives (drawSingle e) b wanted

def drawRule (e : Evaluation) (sequence : Sequence) (wanted : Nat) : Audit Drawn :=
  if wanted = 0 then return ⟨[], []⟩
  else match sequence with
    | .ready values => return ⟨values.take wanted, []⟩
    | .later node path => drawLater e node path wanted
    | .binding b => drawBinding e b wanted
    | .concat parts node path => drawConcat e parts node path wanted
    | .chain parts => drawEach e.draw wanted parts
    | .branches nodes path => drawEach (fun node => drawNode e node path) wanted nodes

/-! ## The knot. -/

mutual

def prepareAt : Nat → Cursor → String → Audit Sequence
  | 0, _, _ => throw .endless
  | n + 1, node, path => prepareRule ⟨prepareAt n, drawAt n, itemsAt n, itemsOfAt n⟩ node path

/-- Draw from a sequence with a bound on the depth of the evaluation. -/
def drawAt : Nat → Sequence → Nat → Audit Drawn
  | 0, _, _ => throw .endless
  | n + 1, sequence, wanted =>
    drawRule ⟨prepareAt n, drawAt n, itemsAt n, itemsOfAt n⟩ sequence wanted

/-- The items of an array with a bound on the depth of the evaluation. -/
def itemsAt : Nat → Cursor → String → Nat → Audit (Option (List Item))
  | 0, _, _, _ => throw .endless
  | n + 1, node, path, depth =>
    itemsRule ⟨prepareAt n, drawAt n, itemsAt n, itemsOfAt n⟩ node path depth

/-- The items of an array held by a definition with a bound on the depth of the evaluation. -/
def itemsOfAt : Nat → Binding → Nat → Audit (Option (List Item))
  | 0, _, _ => throw .endless
  | n + 1, b, depth => itemsOfRule ⟨prepareAt n, drawAt n, itemsAt n, itemsOfAt n⟩ b depth

end

def evaluation (n : Nat) : Evaluation := ⟨prepareAt n, drawAt n, itemsAt n, itemsOfAt n⟩

/-- The depth at which an evaluation is given up: an expression is no deeper than its tree is large,
and a thousand steps beyond that are left for what it refers to. -/
def evaluationDepth (r : Run) : Nat := r.extent + r.treeSize + 1000

def samples (node : Cursor) (path : String) : Audit (List String) := do
  samplesWith (evaluation (evaluationDepth (← get))) node path

def arrayItems (node : Cursor) (path : String) : Audit (Option (List Item)) := do
  (evaluation (evaluationDepth (← get))).items node path 0

/-- Combinations of samples joined with a separator, up to the limit. -/
def joined (parts : List (List String)) (separator : String) (node : Cursor) (path : String) :
    Audit (List String) := do
  let n ← limit
  let found := firstProducts (n + 1) parts
  if n < found.length then warnCap node path
  return (found.take n).map (joinWith separator)

end QueryAudit.Sample
