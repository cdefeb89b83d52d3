/-
  QueryAudit.Scope.Tracker — finding the definitions of a file

  One pass over the tree of a file, entering and leaving every named node. It opens and closes
  scopes, makes bindings for assignments, parameters, loops, constants and properties, and notes
  the calls that are to be checked. What it has no handling for, and the classes it meets, are
  reported as events in order.
-/

import QueryAudit.Diagnostics
import QueryAudit.Scope.FileScopes

namespace QueryAudit.Scope

open Php Text

/-! ## The state of a pass. -/

/-- What a pass reports besides definitions. -/
inductive Event where
  | classFound (node : Cursor)
  | unhandled (error : HardError)
  deriving Repr

inductive Position where
  | inGlobal | inClass | inMethod
  deriving DecidableEq, Repr

structure Tracker where
  callNames : List String
  scopes : FileScopes
  position : Position := .inGlobal
  currentClass : Option Cursor := none
  currentMethod : Option Cursor := none
  classScope : Option Closure := none
  methodScope : Option Closure := none
  loops : List Closure := []
  live : Catalog (Catalog (List Binding)) := .empty
  serial : Nat := 0
  events : List Event := []

namespace Tracker

/-! ## Scopes. -/

def openScope (t : Tracker) (closure : Closure) : Tracker :=
  { t with live := t.live.setDefault closure.key .empty }

def flush (t : Tracker) (closure : Closure) : Tracker :=
  { t with
    scopes := t.scopes.flush closure.key ((t.live.get? closure.key).getD .empty)
    live := t.live.erase closure.key }

def flushOpen (t : Tracker) (closure : Option Closure) : Tracker :=
  match closure with
  | some c => t.flush c
  | none => t

def activeClosure (t : Tracker) : Closure :=
  match t.position, t.methodScope, t.classScope with
  | .inMethod, some c, _ => c
  | .inClass, _, some c => c
  | _, _, _ => .global

def classClosure (t : Tracker) : Closure := t.classScope.getD .global

def entries (t : Tracker) (key identifier : String) : List Binding :=
  t.scopes.entries key identifier ++ ((t.live.get? key).bind (·.get? identifier)).getD []

def bind (t : Tracker) (closure : Closure) (b : Binding) : Tracker :=
  let b := { b with closure := closure.key, path := t.scopes.path, serial := t.serial }
  { t with
    live := t.live.alter closure.key .empty fun known => known.alter b.identifier [] (· ++ [b])
    serial := t.serial + 1 }

def report (t : Tracker) (event : Event) : Tracker := { t with events := t.events ++ [event] }

end Tracker

/-- A step of a pass, which may come upon a shape that is not handled. What it did before stays. -/
abbrev Pass (α : Type) := EStateM HardError Tracker α

namespace Pass

/-! ## Targets. -/

def unhandled {α : Type} (message : String) (node : Cursor) : Pass α := do
  throw (HardError.at message node (← get).scopes.path)

def isBindable : Kind → Bool
  | .variableName | .byRef | .memberAccessExpression | .nullsafeMemberAccessExpression
  | .scopedPropertyAccessExpression => true
  | _ => false

def isUnbindable : Kind → Bool
  | .dynamicVariableName | .subscriptExpression | .functionCallExpression
  | .memberCallExpression | .scopedCallExpression => true
  | _ => false

def targetKey? (target : Cursor) : Pass (Option RefKey) :=
  if isBindable target.kind then return referenceKey? target
  else if isUnbindable target.kind then return none
  else unhandled "unknown assignment target" target

def register (classScoped : Bool) (b : Binding) : Pass Unit :=
  modify fun t => t.bind (if classScoped then t.classClosure else t.activeClosure) b

/-- Bind a target to an expression. Targets in other classes are left alone. -/
def registerTarget (target expr : Cursor) (line : Int) (tag : Option Tag) : Pass Unit := do
  match ← targetKey? target with
  | none => return
  | some key =>
    if key.namedClass?.isSome then return
    register key.classScoped
      { identifier := key.identifier, closure := "", line, node := some expr, tag }

/-! ## Assignments. -/

/-- The element of an array literal that a slot of a pattern takes; the whole when there is none. -/
def elementFor (whole : Cursor) (values : Option (List (Option Cursor × Cursor))) (slot : Slot) :
    Cursor :=
  match values with
  | none => whole
  | some values =>
    match slot.key with
    | some key =>
      ((values.find? fun (k, _) => (k.map Cursor.text) = some key.text).map Prod.snd).getD whole
    | none => ((values[slot.position]?).map Prod.snd).getD whole

/-- Bind the targets of a pattern, nested at most as deep as the count. -/
def registerPattern : Nat → Cursor → Cursor → Int → Pass Unit
  | 0, _, _, _ => return
  | n + 1, pattern, right, line => do
    let values := if right.kind = .arrayCreationExpression then some (arrayElements right) else none
    for slot in patternSlots pattern do
      if slot.target.kind.isPattern then registerPattern n slot.target right line
      else registerTarget slot.target (elementFor right values slot) line none

/-- What is indexed at the bottom of nested indexes, at most as deep as the count. -/
def indexedBase : Nat → Cursor → Cursor
  | 0, c => c
  | n + 1, c =>
    if c.kind = .subscriptExpression then
      match c.parts.head? with
      | some inner => indexedBase n inner
      | none => c
    else c

def registerAssignment (node : Cursor) : Pass Unit := do
  match node.inRole? "left", node.inRole? "right" with
  | some left, some right =>
    let line : Int := node.line
    if node.kind = .augmentedAssignmentExpression then registerTarget left node line none
    else if left.kind.isPattern then registerPattern left.node.size left right line
    else if left.kind = .subscriptExpression then
      registerTarget (indexedBase left.node.size left) node line (some .element)
    else registerTarget left right line none
  | _, _ => unhandled "incomplete assignment" node

/-! ## Declarations. -/

def declaredVariable? (node : Cursor) : Option Cursor :=
  match node.inRole? "name" with
  | some found => some found
  | none => node.ofKind? .variableName

def propertyName (declared : String) : String := "->" ++ trimStart (· = '$') declared

def registerParameter (closure : Closure) (line : Int) (param : Cursor) : Pass Unit := do
  let promoted := param.kind = .propertyPromotionParameter
  if promoted || param.kind = .simpleParameter || param.kind = .variadicParameter then
    match declaredVariable? param with
    | none => return
    | some declared =>
      let b : Binding :=
        { identifier := declared.text, closure := "", line, node := some param, tag := some .parameter }
      modify (·.bind closure b)
      if promoted then register true { b with identifier := propertyName declared.text }

def enterFunction (node : Cursor) : Pass Unit := do
  let className := (((← get).currentClass).map Cursor.nameText).getD ""
  let closure := Closure.ofMethod className node.nameText
  modify fun t => Tracker.openScope
    { t with currentMethod := some node, position := .inMethod, methodScope := some closure } closure
  let params := match node.inRole? "parameters" with
    | some found => some found
    | none => node.ofKind? .formalParameters
  match params with
  | none => return
  | some params => for param in params.parts do registerParameter closure node.line param

def enterClass (node : Cursor) : Pass Unit := do
  let closure := Closure.ofClass node.nameText
  if node.kind = .classDeclaration then modify (·.report (.classFound node))
  modify fun t => Tracker.openScope
    { t with currentClass := some node, position := .inClass, classScope := some closure } closure

def registerConstants (node : Cursor) : Pass Unit := do
  for element in node.allOfKind .constElement do
    match element.parts with
    | first :: second :: rest =>
      let name := if element.nameText = "" then first.text else element.nameText
      register (← get).currentClass.isSome
        { identifier := name, closure := "", line := element.line
          node := some ((rest.getLast?).getD second) }
    | _ => pure ()

def registerProperties (node : Cursor) : Pass Unit := do
  let isStatic := (node.ofKind? .staticModifier).isSome
  for element in node.allOfKind .propertyElement do
    match declaredVariable? element, element.inRole? "default_value" with
    | some declared, some value =>
      let identifier := if isStatic then "::" ++ declared.text else propertyName declared.text
      register true { identifier, closure := "", line := element.line, node := some value }
    | _, _ => pure ()

def registerDefine (node : Cursor) : Pass Unit := do
  match node.inRole? "function" with
  | none => return
  | some function =>
    if lower function.text ≠ "define" then return
    match callArguments node with
    | name :: value :: _ =>
      if name.kind = .string || name.kind = .encapsedString then
        let inside := String.ofList name.text.toList.tail.dropLast
        modify (·.bind .global
          { identifier := inside, closure := "", line := node.line, node := some value })
    | _ => return

/-! ## Loops. -/

def isLookedUp : Kind → Bool
  | .variableName | .memberAccessExpression | .nullsafeMemberAccessExpression
  | .scopedPropertyAccessExpression | .subscriptExpression | .classConstantAccessExpression => true
  | _ => false

def isOpaqueCollection : Kind → Bool
  | .functionCallExpression | .memberCallExpression | .nullsafeMemberCallExpression
  | .scopedCallExpression | .objectCreationExpression | .parenthesizedExpression
  | .conditionalExpression | .binaryExpression | .castExpression | .assignmentExpression
  | .name | .qualifiedName => true
  | _ => false

def loopArray? (collection : Cursor) (line : Int) : Pass (Option Cursor) := do
  if collection.kind = .arrayCreationExpression then return some collection
  if isLookedUp collection.kind then
    match referenceKey? collection with
    | none => return none
    | some key =>
      if key.namedClass?.isSome then return none
      let t ← get
      let owner := if key.classScoped then t.classClosure else t.activeClosure
      let found := t.scopes.lookupIn t.entries owner key.identifier (some line)
      return (found.bind Binding.node).filter (·.kind = .arrayCreationExpression)
  if isOpaqueCollection collection.kind then return none
  unhandled "unknown foreach collection" collection

/-- What a loop binds its variables to. -/
structure LoopSource where
  node : Option Cursor
  literal : Option String := none
  tag : Tag

/-- Bind a loop variable, or the variables of a pattern, nested at most as deep as the count. -/
def bindLoopVariable (block : Closure) (line origin : Int) (source : LoopSource) :
    Nat → Cursor → Pass Unit
  | 0, _ => return
  | n + 1, target => do
    if target.kind.isPattern then
      for slot in patternSlots target do bindLoopVariable block line origin source n slot.target
    else
      match ← targetKey? target with
      | none => return
      | some key =>
        modify (·.bind block
          { identifier := key.identifier, closure := "", line, node := source.node
            literal := source.literal, tag := some source.tag, origin })

def enterLoop (node : Cursor) : Pass Unit := do
  match node.parts with
  | collection :: target :: _ =>
    let line : Int := node.line
    let owner := (← get).activeClosure
    let block : Closure :=
      { kind := .block, className := owner.className, methodName := owner.methodName
        line, endLine := node.node.lastLine }
    modify fun t => Tracker.openScope
      { t with scopes := t.scopes.addBlock block, loops := block :: t.loops } block
    let array ← loopArray? collection line
    let (keyTarget, valueTarget) := match target.kind, target.parts with
      | .pair, first :: rest => (some first, (rest.getLast?).getD first)
      | _, _ => (none, target)
    let bindTo (source : LoopSource) (target : Cursor) : Pass Unit :=
      bindLoopVariable block line node.start source target.node.size target
    match array.map arrayElements with
    | some (first :: rest) =>
      for ((key, value), index) in (first :: rest).zipIdx do
        match keyTarget, key with
        | some keyTarget, some key => bindTo { node := some key, tag := .loopKey } keyTarget
        | some keyTarget, none =>
          bindTo { node := none, literal := some (toString index), tag := .loopKey } keyTarget
        | none, _ => pure ()
        bindTo { node := some value, tag := .loopValue } valueTarget
    | _ =>
      match keyTarget with
      | some keyTarget => bindTo { node := some collection, tag := .loopKey } keyTarget
      | none => pure ()
      bindTo { node := some collection, tag := .loopValue } valueTarget
  | _ => unhandled "malformed foreach" node

/-! ## Entering and leaving nodes. -/

def noteCall (node : Cursor) : Pass Unit := do
  let t ← get
  if t.callNames.contains (lower node.nameText) then
    set { t with scopes.callSites := t.scopes.callSites ++ [(node, t.activeClosure)] }

def enter (node : Cursor) : Pass Unit :=
  match node.kind with
  | .classDeclaration | .traitDeclaration | .interfaceDeclaration => enterClass node
  | .methodDeclaration | .functionDefinition => enterFunction node
  | .assignmentExpression | .referenceAssignmentExpression | .augmentedAssignmentExpression =>
    registerAssignment node
  | .foreachStatement => enterLoop node
  | .constDeclaration => registerConstants node
  | .propertyDeclaration => registerProperties node
  | .memberCallExpression | .nullsafeMemberCallExpression => noteCall node
  | .functionCallExpression => registerDefine node
  | _ => return

end Pass

namespace Tracker

def enter (t : Tracker) (node : Cursor) : Tracker :=
  match Pass.enter node t with
  | .ok _ t => t
  | .error e t => t.report (.unhandled e)

def leave (t : Tracker) (node : Cursor) : Tracker :=
  if node.kind.isClassLike then
    { t.flushOpen t.classScope with classScope := none, currentClass := none, position := .inGlobal }
  else if node.kind.isFunctionLike then
    if (t.currentMethod.map node.same).getD false then
      { t.flushOpen t.methodScope with
        methodScope := none
        currentMethod := none
        position := if t.currentClass.isSome then .inClass else .inGlobal }
    else t
  else if node.kind = .foreachStatement then
    match t.loops with
    | block :: rest => { t.flush block with loops := rest }
    | [] => t
  else t

mutual

def visit (tree : Nat) (above : List (Nat × Node)) : Node → Tracker → Tracker
  | ⟨kind, named, role, span, text, children⟩, t =>
    let n : Node := ⟨kind, named, role, span, text, children⟩
    let c : Cursor := ⟨tree, n, above⟩
    (visitAll tree n above 0 children (t.enter c)).leave c

def visitAll (tree : Nat) (parent : Node) (above : List (Nat × Node)) :
    Nat → List Node → Tracker → Tracker
  | _, [], t => t
  | i, n :: rest, t =>
    visitAll tree parent above (i + 1) rest
      (if n.named then visit tree ((i, parent) :: above) n t else t)

end

@[irreducible] def run (callNames : List String) (path : String) (root : Cursor) : FileScopes × List Event :=
  let start : Tracker := { callNames := callNames.map lower, scopes := { path } }
  let done := (visit root.tree root.above root.node (start.openScope .global)).flush .global
  (done.scopes, done.events)

end Tracker

end QueryAudit.Scope
