/-
  QueryAudit.Proofs.Scope.Passes — what a pass over a file can do

  A pass changes its state in a few ways only. `Moves` says of a relation that these are within it,
  noting calls apart, and one lemma for each function of a pass that all it does is within such a
  relation. Most functions only make definitions, in a scope at hand and by names of nodes below the
  one that is entered: they are within every relation that `Binds` says this of.

  Main results: `Pass.binds_enter`, `Tracker.visit_moves`, `Tracker.visit_steps`.
-/

import QueryAudit.Proofs.Audit.Change
import QueryAudit.Proofs.Php.Below

namespace QueryAudit.Scope

open Audit Php Text Tracker List Cursor

variable {b : Binding}
  {collection node c call pattern declared valueTarget array right expr param : Cursor}
  {t t' : Tracker} {Good G : Cursor → Prop}

/-! ## Moves. -/

/-- A reading of the state stays. -/
def Tracker.Same {α : Type} (g : Tracker → α) (t t' : Tracker) : Prop := g t' = g t

instance {α : Type} (g : Tracker → α) : IsPreorder Tracker (Tracker.Same g) where
  refl _ := rfl
  trans _ _ _ h k := Eq.trans k h

/-- Saying where a pass stands is within a relation. -/
def Tracker.Stands (R : Tracker → Tracker → Prop) : Prop :=
  ∀ (t : Tracker) (position : Position) (currentClass currentMethod : Option Cursor)
    (classScope methodScope : Option Closure) (loops : List Closure),
    R t { t with position, currentClass, currentMethod, classScope, methodScope, loops }

/-- A relation that all steps of a pass are within, as long as definitions are bound to good nodes
and the calls that are noted are left out of account. -/
structure Tracker.Moves (Good : Cursor → Prop) (R : Tracker → Tracker → Prop) : Prop where
  below : ∀ c d, Good c → c.Below d → Good d
  openScope : ∀ (t : Tracker) (closure : Closure), R t (t.openScope closure)
  bind : ∀ (t : Tracker) (closure : Closure) (b : Binding), (∀ n, b.node = some n → Good n) →
    R t (t.bind closure b)
  flush : ∀ (t : Tracker) (closure : Closure), R t (t.flush closure)
  block : ∀ (t : Tracker) (block : Closure), block.kind = .block →
    R t { t with scopes := t.scopes.addBlock block }
  report : ∀ (t : Tracker) (event : Event), R t (t.report event)
  move : Stands R
  known : ∀ t t', ((∀ key identifier, ∀ b ∈ t.entries key identifier, ∀ n, b.node = some n → Good n) →
    R t t') → R t t'

def namedVariable? (n : Node) : Option Node :=
  match n.inRole? "name" with
  | some found => some found
  | none => n.ofKind? .variableName

def argumentsOf (call : Node) : List Node :=
  let list := match call.inRole? "arguments" with
    | some found => some found
    | none => call.ofKind? .arguments
  match list with
  | none => []
  | some list => list.children.filterMap fun child =>
    if child.kind = .argument then some ((child.parts.getLast?).getD child)
    else if child.named && child.kind ≠ .comment then some child
    else none

def definedName? (call : Node) : Option String :=
  if (call.inRole? "function").map (fun f => lower f.text) = some "define" then
    match argumentsOf call with
    | name :: _ :: _ =>
      if name.kind = .string || name.kind = .encapsedString then
        some (String.ofList name.text.toList.tail.dropLast)
      else none
    | _ => none
  else none

/-- The identifiers that a node may be defined under: variables and properties by their keys,
parameters, elements of properties, and calls of `define`. -/
def identifiersOf (n : Node) : List String :=
  if Pass.isBindable n.kind then ((nodeKey? n).map RefKey.identifier).toList
  else match n.kind with
    | .simpleParameter | .variadicParameter | .propertyPromotionParameter | .propertyElement =>
      (namedVariable? n).toList.flatMap fun v => [v.text, "::" ++ v.text, Pass.propertyName v.text]
    | .functionCallExpression => (definedName? n).toList
    | _ => []

/-- A scope that definitions are made in: global code, the scope the pass stands in, the scope of the
class, or a scope of one's own. -/
def Tracker.Offers (t : Tracker) (Own : Closure → Prop) (closure : Closure) : Prop :=
  closure = .global ∨ closure = t.activeClosure ∨ closure = t.classClosure ∨ Own closure

/-- A relation that making definitions in the scopes at hand is within, as long as they are bound to
good nodes. -/
structure Tracker.Registers (Good : Cursor → Prop) (Own : Closure → Prop)
    (R : Tracker → Tracker → Prop) : Prop where
  below : ∀ c d, Good c → c.Below d → Good d
  bind : ∀ (t : Tracker) (closure : Closure) (b : Binding), t.Offers Own closure →
    (∀ n, b.node = some n → Good n) → R t (t.bind closure b)
  known : ∀ t t', ((∀ key identifier, ∀ b ∈ t.entries key identifier, ∀ n, b.node = some n → Good n) →
    R t t') → R t t'

def isVariable (x : String) : Bool := x.toList.head? = some '$'

/-- A relation that making definitions in the scopes at hand is within, as long as they are bound to
good nodes, go by the names of fine ones, and are made at a line if they are of variables. -/
structure Tracker.Binds (Good Fine : Cursor → Prop) (Own : Closure → Prop) (line : Int)
    (R : Tracker → Tracker → Prop) : Prop where
  below : ∀ c d, Good c → c.Below d → Good d
  fine : ∀ c d, Fine c → c.Below d → Fine d
  bind : ∀ (t : Tracker) (closure : Closure) (b : Binding) (c : Cursor), t.Offers Own closure →
    (∀ n, b.node = some n → Good n) → Fine c → b.identifier ∈ identifiersOf c.node →
    (isVariable b.identifier → b.line = line) → R t (t.bind closure b)
  known : ∀ t t', ((∀ key identifier, ∀ b ∈ t.entries key identifier, ∀ n, b.node = some n → Good n) →
    R t t') → R t t'

theorem Tracker.Registers.binds {Own : Closure → Prop} {line : Int} {R : Tracker → Tracker → Prop}
    (h : Registers Good Own R) : Binds Good (fun _ => True) Own line R :=
  ⟨h.below, fun _ _ _ _ => trivial, fun t closure b _ hoffers hb _ _ _ => h.bind t closure b hoffers hb,
    h.known⟩

theorem Tracker.Moves.registers {R : Tracker → Tracker → Prop} (h : Moves Good R)
    (Own : Closure → Prop) : Registers Good Own R :=
  ⟨h.below, fun t closure b _ hb => h.bind t closure b hb, h.known⟩

namespace Tracker

def functionClosure (t : Tracker) (node : Cursor) : Closure :=
  .ofMethod ((t.currentClass.map nameText).getD "") node.nameText

def openFunction (t : Tracker) (node : Cursor) : Tracker :=
  openScope { t with
    currentMethod := some node, position := .inMethod
    methodScope := some (t.functionClosure node) } (t.functionClosure node)

def openClass (t : Tracker) (node : Cursor) : Tracker :=
  openScope { t with
    currentClass := some node, position := .inClass
    classScope := some (.ofClass node.nameText) } (.ofClass node.nameText)

def loopBlock (t : Tracker) (node : Cursor) : Closure :=
  { kind := .block, className := t.activeClosure.className, methodName := t.activeClosure.methodName
    line := node.line, endLine := node.node.lastLine }

def openLoop (t : Tracker) (node : Cursor) : Tracker :=
  openScope { t with
    scopes := t.scopes.addBlock (t.loopBlock node)
    loops := t.loopBlock node :: t.loops } (t.loopBlock node)

def isComplete (node : Cursor) : Bool := 2 ≤ node.parts.length

/-- The state in which the scope of a node is open, if it has one. -/
def opened (t : Tracker) (node : Cursor) : Tracker :=
  if node.kind.isClassLike then t.openClass node
  else if node.kind.isFunctionLike then t.openFunction node
  else if node.kind = .foreachStatement ∧ isComplete node = true then t.openLoop node
  else t

end Tracker

theorem Kind.eq_of_isClassLike {kind : Kind} (h : kind.isClassLike) :
    kind = .classDeclaration ∨ kind = .traitDeclaration ∨ kind = .interfaceDeclaration := by
  unfold Kind.isClassLike at h
  split at h <;> simp_all

theorem Kind.eq_of_isFunctionLike {kind : Kind} (h : kind.isFunctionLike) :
    kind = .methodDeclaration ∨ kind = .functionDefinition := by
  unfold Kind.isFunctionLike at h
  split at h <;> simp_all

theorem mem_of_lastBefore {entries : List Binding} {line : Option Int}
    (h : lastBefore entries line = some b) : b ∈ entries :=
  mem_reverse.mp (mem_of_find?_eq_some h)

namespace Pass

variable {line : Int} {classScoped : Bool} {target : Cursor} {slot : Slot} {key : RefKey}

/-! ## Names. -/

theorem map_declaredVariable? : (declaredVariable? c).map Cursor.node = namedVariable? c.node := by
  unfold declaredVariable? namedVariable?
  rw [← map_node_inRole?, ← map_node_ofKind?]
  cases c.inRole? "name" <;> rfl

theorem map_callArguments : (callArguments call).map Cursor.node = argumentsOf call.node := by
  have hlist : ∀ list : Cursor, (list.children.filterMap fun child =>
      if child.kind = .argument then some (argumentValue child)
      else if child.node.named && child.kind ≠ .comment then some child else none).map Cursor.node
      = list.node.children.filterMap fun child =>
        if child.kind = .argument then some ((child.parts.getLast?).getD child)
        else if child.named && child.kind ≠ .comment then some child else none := by
    intro list
    rw [← map_node_children, filterMap_map, map_filterMap]
    congr 1
    funext child
    show Option.map Cursor.node (if child.node.kind = .argument then _ else _)
      = if child.node.kind = .argument then _ else _
    split
    · rw [argumentValue, ← map_node_parts, getLast?_map]
      cases child.parts.getLast? <;> rfl
    · show Option.map Cursor.node (if (child.node.named && child.node.kind ≠ .comment) = true then _ else _)
        = _
      split <;> rfl
  unfold callArguments argumentsOf
  rw [← map_node_inRole?, ← map_node_ofKind?]
  cases call.inRole? "arguments" with
  | some list => exact hlist list
  | none =>
    cases call.ofKind? .arguments with
    | some list => exact hlist list
    | none => rfl

/-- What the slots of a pattern store into stands below the pattern. -/
theorem below_of_mem_patternSlots (h : slot ∈ patternSlots pattern) :
    pattern.Below slot.target := by
  have hstep : ∀ (r : SlotReading) (child : Cursor), pattern.Below child →
      (∀ s ∈ r.found, pattern.Below s.target) → ∀ s ∈ (r.step child).found, pattern.Below s.target := by
    intro r child hchild hfound s hs
    have hnew : ∀ {made : Slot}, pattern.Below made.target → s ∈ r.found ++ [made] →
        pattern.Below s.target := by
      intro made hmade hs
      rcases mem_append.mp hs with hs | hs
      · exact hfound s hs
      · rw [mem_singleton.mp hs]
        exact hmade
    unfold SlotReading.step at hs
    split at hs
    · exact hfound s hs
    split at hs
    · split at hs
      · split at hs
        · exact hfound s (dropLast_subset _ hs)
        · exact hfound s hs
      · exact hfound s hs
    · split at hs
      · split at hs
        · exact hfound s hs
        · next only hparts =>
          exact hnew (hchild.trans (below_of_mem_parts (hparts ▸ mem_cons_self))) hs
        · next first second rest hparts =>
          exact hnew (hchild.trans (below_of_last (hparts ▸ subset_cons_self first _))) hs
      · split at hs
        · exact hnew hchild hs
        · exact hfound s hs
  have hall : ∀ (children : List Cursor) (r : SlotReading), (∀ child ∈ children, pattern.Below child) →
      (∀ s ∈ r.found, pattern.Below s.target) →
      ∀ s ∈ (children.foldl SlotReading.step r).found, pattern.Below s.target := by
    intro children
    induction children with
    | nil => exact fun r _ hfound => hfound
    | cons child children ih =>
      intro r hchildren hfound
      rw [forall_mem_cons] at hchildren
      exact ih _ hchildren.2 (hstep r child hchildren.1 hfound)
  exact hall pattern.children {} (fun child hchild => .of_child hchild) (fun _ hnone => nomatch hnone)
    slot h

theorem targetKey?_ok (h : targetKey? target t = .ok (some key) t') :
    isBindable target.kind ∧ referenceKey? target = some key := by
  unfold targetKey? at h
  split at h
  · next hkind => exact ⟨hkind, (pure_ok_iff.mp h).1⟩
  · split at h
    · cases (pure_ok_iff.mp h).1
    · cases h

theorem identifier_mem (h : targetKey? target t = .ok (some key) t') :
    key.identifier ∈ identifiersOf target.node := by
  obtain ⟨hkind, hreference⟩ := targetKey?_ok h
  rw [kind] at hkind
  rw [identifiersOf, if_pos hkind, show nodeKey? target.node = some key from hreference]
  exact mem_cons_self

theorem identifiersOf_declared (hkind : c.kind = .simpleParameter ∨ c.kind = .variadicParameter
      ∨ c.kind = .propertyPromotionParameter ∨ c.kind = .propertyElement)
    (hdeclared : declaredVariable? c = some declared) :
    identifiersOf c.node = [declared.text, "::" ++ declared.text, propertyName declared.text] := by
  have hnamed : namedVariable? c.node = some declared.node := by
    rw [← map_declaredVariable?, hdeclared]
    rfl
  unfold identifiersOf
  rw [kind] at hkind
  rcases hkind with hkind | hkind | hkind | hkind <;> rw [hkind, hnamed] <;> rfl

theorem below_loopTargets {keyTarget : Option Cursor} (h : (match target.kind, target.parts with
      | .pair, first :: rest => (some first, (rest.getLast?).getD first)
      | _, _ => (none, target)) = (keyTarget, valueTarget)) (htarget : node.Below target) :
    (∀ inner, keyTarget = some inner → node.Below inner) ∧ node.Below valueTarget := by
  split at h
  · next first rest _ hparts =>
    obtain ⟨rfl, rfl⟩ := Prod.mk.inj h
    refine ⟨?_, htarget.trans (below_of_last (hparts ▸ Subset.refl _))⟩
    rintro inner ⟨rfl⟩
    exact htarget.trans (below_of_mem_parts (hparts ▸ mem_cons_self))
  · obtain ⟨rfl, rfl⟩ := Prod.mk.inj h
    exact ⟨nofun, htarget⟩

variable {Good Fine : Cursor → Prop} {Own : Closure → Prop} {R : Tracker → Tracker → Prop}

theorem good_some (h : Good node) : ∀ n, some node = some n → Good n :=
  fun _ heq => Option.some.inj heq ▸ h

theorem offers_register :
    t.Offers Own (if classScoped then t.classClosure else t.activeClosure) := by
  cases classScoped with
  | true => exact .inr (.inr (.inl rfl))
  | false => exact .inr (.inl rfl)

theorem moves_unhandled [IsPreorder Tracker R] {α : Type} {message : String} :
    KeepsTo R (unhandled message node : Pass α) :=
  keeps_bind keeps_get fun _ => keeps_throw

theorem moves_targetKey? [IsPreorder Tracker R] : KeepsTo R (targetKey? target) := by
  unfold targetKey?
  split
  · exact keeps_pure
  · split
    · exact keeps_pure
    · exact moves_unhandled

theorem after_enterClass :
    after (enterClass node) t = (if node.kind = .classDeclaration then
      t.report (.classFound node) else t).openClass node := by
  unfold enterClass
  split <;> rfl

theorem after_enterLoop_incomplete
    (h : ∀ collection target rest, node.parts ≠ collection :: target :: rest) :
    after (enterLoop node) t = t := by
  unfold enterLoop
  split
  · next collection target rest hparts => exact absurd hparts (h collection target rest)
  · rfl

theorem registers_registerConstants [IsPreorder Tracker R] (hR : Registers Good Own R)
    (h : Good node) : KeepsTo R (registerConstants node) := by
  unfold registerConstants
  refine keeps_bind (keeps_forIn_mem fun element helement _ => ?_) fun _ => keeps_pure
  have hgood := hR.below node element h (.of_child (mem_filter.mp helement).1)
  split
  · next first second rest hparts =>
    refine keeps_bind keeps_get fun t => ?_
    refine keeps_bind (keeps_modify fun t => hR.bind t _ _ offers_register ?_) fun _ => keeps_pure
    exact good_some (hR.below element _ hgood (below_of_last (hparts ▸ subset_cons_self first _)))
  · exact keeps_pure

theorem moves_loopArray? [IsPreorder Tracker R] : KeepsTo R (loopArray? collection line) := by
  unfold loopArray?
  split
  · exact keeps_pure
  split
  · split
    · exact keeps_pure
    · split
      · exact keeps_pure
      · exact keeps_bind keeps_get fun _ => keeps_pure
  · split
    · exact keeps_pure
    · exact moves_unhandled

/-- The array that a loop runs over is the one that is named, or was bound before. -/
theorem loopArray?_ok (h : loopArray? collection line t = .ok (some array) t') :
    t = t' ∧ (array = collection
      ∨ ∃ key identifier, ∃ b ∈ t.entries key identifier, b.node = some array) := by
  unfold loopArray? at h
  by_cases hliteral : collection.kind = .arrayCreationExpression
  · rw [if_pos hliteral] at h
    obtain ⟨harray, rfl⟩ := pure_ok_iff.mp h
    exact ⟨rfl, .inl (Option.some.inj harray).symm⟩
  · rw [if_neg hliteral] at h
    by_cases hlooked : isLookedUp collection.kind = true
    · rw [if_pos hlooked] at h
      cases hkey : referenceKey? collection with
      | none =>
        rw [hkey] at h
        cases (pure_ok_iff.mp h).1
      | some key =>
        rw [hkey] at h
        dsimp only at h
        by_cases hnamed : key.namedClass?.isSome = true
        · rw [if_pos hnamed] at h
          cases (pure_ok_iff.mp h).1
        rw [if_neg hnamed] at h
        obtain ⟨harray, rfl⟩ := pure_ok_iff.mp h
        obtain ⟨b, hb, hnode⟩ :=
          Option.bind_eq_some_iff.mp (Option.eq_some_of_filter_eq_some harray)
        obtain ⟨c, _, hc⟩ := exists_of_findSome?_eq_some hb
        exact ⟨rfl, .inr ⟨c.key, key.identifier, b, mem_of_lastBefore hc, hnode⟩⟩
    · rw [if_neg hlooked] at h
      by_cases hopaque : isOpaqueCollection collection.kind = true
      · rw [if_pos hopaque] at h
        cases (pure_ok_iff.mp h).1
      · rw [if_neg hopaque] at h
        cases h

/-! ## Definitions. -/

section Binds

variable (hR : Binds Good Fine Own line R)

variable {depth : Nat}

include hR

theorem good_elementFor (h : Good right) :
    Good (elementFor right
      (if right.kind = .arrayCreationExpression then some (arrayElements right) else none) slot) := by
  have helement : ∀ entry ∈ arrayElements right, Good entry.2 := fun entry hentry =>
    hR.below right _ h (below_of_mem_arrayElements hentry).1
  unfold elementFor
  split
  · exact h
  · next values hvalues =>
    split at hvalues
    · obtain rfl := Option.some.inj hvalues
      split
      · next key _ =>
        cases hfound : (arrayElements right).find? fun e => e.1.map text = some key.text with
        | none => exact h
        | some entry => exact helement entry (mem_of_find?_eq_some hfound)
      · cases hfound : (arrayElements right)[slot.position]? with
        | none => exact h
        | some entry => exact helement entry (mem_of_getElem? hfound)
    · cases hvalues

theorem fine_indexedBase : ∀ c : Cursor, Fine c → Fine (indexedBase depth c) := by
  induction depth with
  | zero => exact fun _ h => h
  | succ depth ih =>
    intro c h
    unfold indexedBase
    split
    · split
      · next inner hinner =>
        exact ih inner (hR.fine c inner h (below_of_mem_parts (mem_of_head? hinner)))
      · exact h
    · exact h

theorem binds_register (hc : Fine c) (hname : b.identifier ∈ identifiersOf c.node)
    (hb : ∀ n, b.node = some n → Good n) (hline : isVariable b.identifier → b.line = line) :
    KeepsTo R (register classScoped b) :=
  keeps_modify fun t => hR.bind t _ b c offers_register hb hc hname hline

variable [IsPreorder Tracker R]

theorem binds_registerTarget (hf : Fine target) {tag : Option Tag} (h : Good expr) :
    KeepsTo R (registerTarget target expr line tag) := by
  unfold registerTarget
  refine keeps_bind_of moves_targetKey? fun t key t' hkey => ?_
  refine (show KeepsTo R _ from ?_) t'
  split
  · exact keeps_pure
  · split
    · exact keeps_pure
    · exact binds_register hR hf (identifier_mem hkey) (good_some h) fun _ => rfl

theorem binds_registerPattern :
    ∀ pattern right : Cursor, Fine pattern → Good right →
      KeepsTo R (registerPattern depth pattern right line) := by
  induction depth with
  | zero =>
    intro pattern right _ _
    exact keeps_pure
  | succ depth ih =>
    intro pattern right hf h
    unfold registerPattern
    refine keeps_bind (keeps_forIn_mem fun slot hslot _ => ?_) fun _ => keeps_pure
    have hslot := hR.fine pattern _ hf (below_of_mem_patternSlots hslot)
    split
    · exact keeps_bind (ih _ _ hslot h) fun _ => keeps_pure
    · refine keeps_bind ?_ fun _ => keeps_pure
      exact binds_registerTarget hR hslot (good_elementFor hR h)

theorem binds_registerParameter {closure : Closure} (hown : Own closure) (h : Good param)
    (hf : Fine param) : KeepsTo R (registerParameter closure line param) := by
  unfold registerParameter
  dsimp only
  split
  · next hkind =>
    have hkinds : param.kind = .simpleParameter ∨ param.kind = .variadicParameter
        ∨ param.kind = .propertyPromotionParameter ∨ param.kind = .propertyElement := by
      simp only [Bool.or_eq_true, decide_eq_true_eq] at hkind
      rcases hkind with (hkind | hkind) | hkind
      · exact .inr (.inr (.inl hkind))
      · exact .inl hkind
      · exact .inr (.inl hkind)
    split
    · exact keeps_pure
    · next declared hdeclared =>
      have hnames := identifiersOf_declared hkinds hdeclared
      refine keeps_bind (keeps_modify fun t => ?_) fun _ => ?_
      · refine hR.bind t closure _ param (.inr (.inr (.inr hown))) (good_some h) hf ?_ fun _ => rfl
        rw [hnames]
        exact mem_cons_self
      split
      · refine binds_register hR hf ?_ (good_some h) fun _ => rfl
        rw [hnames]
        exact mem_cons_of_mem _ (mem_cons_of_mem _ mem_cons_self)
      · exact keeps_pure
  · exact keeps_pure

theorem binds_bindLoopVariable {block : Closure} (hown : Own block) {origin : Int}
    {source : LoopSource} (hsource : ∀ n, source.node = some n → Good n) :
    ∀ target : Cursor, Fine target →
      KeepsTo R (bindLoopVariable block line origin source depth target) := by
  induction depth with
  | zero =>
    intro target _
    exact keeps_pure
  | succ depth ih =>
    intro target hf
    unfold bindLoopVariable
    split
    · refine keeps_bind (keeps_forIn_mem fun slot hslot _ => ?_) fun _ => keeps_pure
      have hslot := hR.fine target _ hf (below_of_mem_patternSlots hslot)
      exact keeps_bind (ih _ hslot) fun _ => keeps_pure
    · refine keeps_bind_of moves_targetKey? fun t key t' hkey => ?_
      refine (show KeepsTo R _ from ?_) t'
      split
      · exact keeps_pure
      · exact keeps_modify fun t => hR.bind t block _ target (.inr (.inr (.inr hown))) hsource hf
          (identifier_mem hkey) fun _ => rfl

end Binds

section Node

variable (hR : Binds Good Fine Own node.line R) [IsPreorder Tracker R]

include hR

theorem binds_registerAssignment (h : Good node) (hf : Fine node) :
    KeepsTo R (registerAssignment node) := by
  unfold registerAssignment
  split
  · next left right hleft hright =>
    have hgood := hR.below node right h (below_of_inRole? hright)
    have hfine := hR.fine node left hf (below_of_inRole? hleft)
    dsimp only
    split
    · exact binds_registerTarget hR hfine h
    split
    · exact binds_registerPattern hR _ _ hfine hgood
    · split
      · exact binds_registerTarget hR (fine_indexedBase hR _ hfine) h
      · exact binds_registerTarget hR hfine hgood
  · exact moves_unhandled

theorem binds_registerProperties (h : Good node) (hf : Fine node) :
    KeepsTo R (registerProperties node) := by
  unfold registerProperties
  refine keeps_bind (keeps_forIn_mem fun element helement _ => ?_) fun _ => keeps_pure
  obtain ⟨hchild, hkind⟩ := mem_filter.mp helement
  have hgood := hR.below node element h (.of_child hchild)
  split
  · next declared value hdeclared hvalue =>
    have hnames := identifiersOf_declared (.inr (.inr (.inr (of_decide_eq_true hkind)))) hdeclared
    refine keeps_bind (binds_register hR (hR.fine node element hf (.of_child hchild)) ?_
      (good_some (hR.below element value hgood (below_of_inRole? hvalue))) ?_) fun _ => keeps_pure
    · rw [hnames]
      dsimp only
      split
      · exact mem_cons_of_mem _ mem_cons_self
      · exact mem_cons_of_mem _ (mem_cons_of_mem _ mem_cons_self)
    · dsimp only
      split
      · exact fun hvariable => absurd hvariable (by simp [isVariable])
      · exact fun hvariable => absurd hvariable (by simp [isVariable, propertyName])
  · exact keeps_pure

theorem binds_registerDefine (h : Good node) (hf : Fine node)
    (hkind : node.kind = .functionCallExpression) : KeepsTo R (registerDefine node) := by
  unfold registerDefine
  split
  · exact keeps_pure
  · next function hfunction =>
    split
    · exact keeps_pure
    · next hdefine =>
      split
      · next name value rest hargs =>
        split
        · next hstring =>
          have hvalue : node.Below value :=
            below_of_mem_callArguments (hargs ▸ mem_cons_of_mem _ mem_cons_self)
          refine keeps_modify fun t => hR.bind t .global _ node (.inl rfl)
            (good_some (hR.below node value h hvalue)) hf ?_ fun _ => rfl
          have hname : definedName? node.node
              = some (String.ofList name.text.toList.tail.dropLast) := by
            unfold definedName?
            rw [← map_node_inRole?, hfunction, ← map_callArguments, hargs,
              Option.map_some, Option.map_some]
            have hlower : lower function.node.text = "define" := Decidable.of_not_not hdefine
            rw [if_pos (congrArg some hlower)]
            exact if_pos hstring
          rw [kind] at hkind
          rw [identifiersOf, hkind, hname]
          exact mem_cons_self
        · exact keeps_pure
      · exact keeps_pure

/-! ## Scopes and loops. -/

/-- Once its scope is open, entering a function makes definitions only. -/
theorem binds_enterFunction (h : Good node) (hf : Fine node) (hown : Own (t.functionClosure node)) :
    R (t.openFunction node) (after (enterFunction node) t) := by
  have hparams : ∀ params : Cursor, node.Below params → KeepsTo R (do
      for param in params.parts do
        registerParameter (t.functionClosure node) node.line param : Pass Unit) := by
    intro params hparams
    refine keeps_bind (keeps_forIn_mem fun param hparam _ => ?_) fun _ => keeps_pure
    have hparam := hparams.trans (below_of_mem_parts hparam)
    exact keeps_bind (binds_registerParameter hR hown (hR.below node param h hparam)
      (hR.fine node param hf hparam)) fun _ => keeps_pure
  unfold enterFunction
  rw [after_bind_of_ok run_get]
  show R (t.openFunction node) (after _ (t.openFunction node))
  cases hrole : node.inRole? "parameters" with
  | some params => exact hparams params (below_of_inRole? hrole) _
  | none =>
    cases hkind : node.ofKind? .formalParameters with
    | none => exact keeps_pure (R := R) _
    | some params => exact hparams params (.of_child (mem_of_find?_eq_some hkind)) _

/-- Once its block is open, entering a loop makes definitions only. -/
theorem binds_enterLoop (h : Good node) (hf : Fine node) {rest : List Cursor}
    (hparts : node.parts = collection :: target :: rest) (hown : Own (t.loopBlock node)) :
    R (t.openLoop node) (after (enterLoop node) t) := by
  have hcollection : Good collection :=
    hR.below node collection h (below_of_mem_parts (hparts ▸ mem_cons_self))
  have htarget : node.Below target :=
    below_of_mem_parts (hparts ▸ mem_cons_of_mem _ mem_cons_self)
  unfold enterLoop
  rw [hparts, after_bind_of_ok run_get]
  show R (t.openLoop node) (after (_ >>= _) t)
  rw [after_bind_of_ok run_modify]
  refine (show KeepsTo R _ from ?_) (t.openLoop node)
  refine keeps_bind_of moves_loopArray? fun t₁ array t' harray => ?_
  refine hR.known t' _ fun hknown => ?_
  have hgood : ∀ a, array = some a → Good a := by
    rintro a rfl
    obtain ⟨rfl, rfl | ⟨key, identifier, b, hb, hnode⟩⟩ := loopArray?_ok harray
    · exact hcollection
    · exact hknown key identifier b hb a hnode
  have hbind : ∀ (source : LoopSource) (inner : Cursor), node.Below inner →
      (∀ n, source.node = some n → Good n) →
      KeepsTo R (bindLoopVariable (t.loopBlock node) node.line node.start source inner.node.size
        inner) := fun source inner hinner hsource =>
    binds_bindLoopVariable hR hown hsource _ (hR.fine node inner hf hinner)
  -- which variables are bound, and to what, does not matter: each is bound to a good node
  refine (show KeepsTo R _ from ?_) t'
  split
  next keyTarget valueTarget hsplit =>
  obtain ⟨hkeys, hvalues⟩ := below_loopTargets hsplit htarget
  split
  · next first rest helements =>
    obtain ⟨a, rfl, hlist⟩ := Option.map_eq_some_iff.mp helements
    refine keeps_bind (keeps_forIn_mem fun item hitem _ => ?_) fun _ => keeps_pure
    obtain ⟨⟨key, value⟩, index⟩ := item
    have hmem : (key, value) ∈ arrayElements a := by
      rw [hlist]
      exact fst_mem_of_mem_zipIdx hitem
    obtain ⟨hvalue, hkey⟩ := below_of_mem_arrayElements hmem
    have hvalue := hbind { node := some value, tag := .loopValue } valueTarget hvalues
      (good_some (hR.below a value (hgood a rfl) hvalue))
    dsimp only
    split
    · refine keeps_bind (hbind _ _ (hkeys _ rfl) (good_some ?_)) fun _ => ?_
      · exact hR.below a _ (hgood a rfl) (hkey _ rfl)
      · exact keeps_bind hvalue fun _ => keeps_pure
    · refine keeps_bind (hbind _ _ (hkeys _ rfl) ?_) fun _ => ?_
      · exact nofun
      · exact keeps_bind hvalue fun _ => keeps_pure
    · exact keeps_bind hvalue fun _ => keeps_pure
  · have hvalue := hbind { node := some collection, tag := .loopValue } valueTarget hvalues
      (good_some hcollection)
    split
    · exact keeps_bind (hbind _ _ (hkeys _ rfl) (good_some hcollection)) fun _ => hvalue
    · exact hvalue

/-- **Once its scope is open, entering a node makes definitions only**, apart from the constants of a
declaration, the noting of a call and the class that is reported. -/
theorem binds_enter (h : Good node) (hf : Fine node) (t : Tracker)
    (hclass : node.kind = .classDeclaration →
      R (t.openClass node) ((t.report (.classFound node)).openClass node))
    (hconst : node.kind = .constDeclaration → KeepsTo R (registerConstants node))
    (hnote : node.kind.isMethodCall → KeepsTo R (noteCall node))
    (hfunction : node.kind.isFunctionLike → Own (t.functionClosure node))
    (hloop : node.kind = .foreachStatement → isComplete node → Own (t.loopBlock node)) :
    R (t.opened node) (after (enter node) t) := by
  rw [opened]
  split
  · next hkind =>
    have henter : enter node = enterClass node := by
      unfold enter
      rcases Kind.eq_of_isClassLike hkind with h | h | h <;> rw [h]
    rw [henter, after_enterClass]
    split
    · next hdeclares => exact hclass hdeclares
    · exact refl_of R _
  · next hnoclass =>
    split
    · next hkind =>
      have henter : enter node = enterFunction node := by
        unfold enter
        rcases Kind.eq_of_isFunctionLike hkind with h | h <;> rw [h]
      rw [henter]
      exact binds_enterFunction hR h hf (hfunction hkind)
    · next hnofunction =>
      split
      · next hboth =>
        obtain ⟨hkind, hcomplete⟩ := hboth
        have henter : enter node = enterLoop node := by
          unfold enter
          rw [hkind]
        obtain ⟨collection, target, rest, hparts⟩ :
            ∃ collection target rest, node.parts = collection :: target :: rest := by
          match hparts : node.parts with
          | [] => simp [isComplete, hparts] at hcomplete
          | [_] => simp [isComplete, hparts] at hcomplete
          | collection :: target :: rest => exact ⟨collection, target, rest, rfl⟩
        rw [henter]
        exact binds_enterLoop hR h hf hparts (hloop hkind hcomplete)
      · next hnoloop =>
        refine (show KeepsTo R (enter node) from ?_) t
        unfold enter
        split
        iterate 3 next hkind => exact absurd (by rw [hkind]; rfl) hnoclass
        iterate 2 next hkind => exact absurd (by rw [hkind]; rfl) hnofunction
        iterate 3 exact binds_registerAssignment hR h hf
        · next hkind =>
          intro t
          rw [after_enterLoop_incomplete]
          · exact refl_of R t
          · intro collection target rest hparts
            exact hnoloop ⟨hkind, by simp [isComplete, hparts]⟩
        · next hkind => exact hconst hkind
        · exact binds_registerProperties hR h hf
        iterate 2 next hkind => exact hnote (by rw [hkind]; rfl)
        · next hkind => exact binds_registerDefine hR h hf hkind
        · exact keeps_pure

end Node

/-! ## A node. -/

variable [IsPreorder Tracker R]

/-- Opening the scope of a node is saying where the pass stands and noting the scope. -/
theorem opened_within (hmove : Stands R) (hopen : ∀ t closure, R t (openScope t closure))
    (hblock : ∀ t block, block.kind = .block → R t { t with scopes := t.scopes.addBlock block })
    (t : Tracker) (node : Cursor) : R t (t.opened node) := by
  rw [opened]
  split
  · exact trans_of R (hmove t .inClass (some node) t.currentMethod _ t.methodScope t.loops)
      (hopen _ _)
  split
  · exact trans_of R (hmove t .inMethod t.currentClass (some node) t.classScope _ t.loops)
      (hopen _ _)
  split
  · have hloops := hmove { t with scopes := t.scopes.addBlock (t.loopBlock node) } t.position
      t.currentClass t.currentMethod t.classScope t.methodScope (t.loopBlock node :: t.loops)
    exact trans_of R (trans_of R (hblock t _ rfl) hloops) (hopen _ (t.loopBlock node))
  · exact refl_of R t

theorem moves_enter (hM : Moves Good R) (h : Good node)
    (hnote : node.kind.isMethodCall = true → KeepsTo R (noteCall node)) : KeepsTo R (enter node) := by
  intro t
  have hR := hM.registers fun _ => True
  refine trans_of R (opened_within hM.move hM.openScope hM.block t node) ?_
  exact binds_enter hR.binds h trivial t (fun _ => hM.report (t.openClass node) _)
    (fun _ => registers_registerConstants hR h) hnote (fun _ => trivial) fun _ _ => trivial

end Pass

namespace Tracker

section Visiting

variable {Good : Cursor → Prop} {R : Tracker → Tracker → Prop} [IsPreorder Tracker R]

theorem enter_of_after {t₀ : Tracker} (hreport : ∀ t e, R t (report t (.unhandled e)))
    (h : R t₀ (after (Pass.enter node) t)) : R t₀ (t.enter node) := by
  rw [enter]
  cases hrun : Pass.enter node t with
  | ok _ t' => rwa [after_of_ok hrun] at h
  | error e t' =>
    rw [after_of_error hrun] at h
    exact trans_of R h (hreport t' _)

theorem enter_moves (hM : Moves Good R) (t : Tracker) (h : Good node)
    (hnote : node.kind.isMethodCall = true → KeepsTo R (Pass.noteCall node)) :
    R t (t.enter node) := enter_of_after (fun t _ => hM.report t _) (Pass.moves_enter hM h hnote t)

/-- Leaving a node is filing a scope and saying where the pass stands. -/
theorem leave_within (hmove : Stands R) (hflush : ∀ closure, R t (t.flush closure)) :
    R t (t.leave node) := by
  have hopen : ∀ closure, R t (t.flushOpen closure) := fun closure => by
    cases closure with
    | none => exact refl_of R t
    | some closure => exact hflush closure
  rw [leave]
  split
  · exact trans_of R (hopen t.classScope) (hmove _ .inGlobal none _ none _ _)
  split
  · split
    · exact trans_of R (hopen t.methodScope) (hmove _ _ _ none _ none _)
    · exact refl_of R t
  · split
    · split
      · next block rest _ => exact trans_of R (hflush block) (hmove _ _ _ _ _ _ rest)
      · exact refl_of R t
    · exact refl_of R t

theorem leave_moves (hM : Moves Good R) (t : Tracker) (node : Cursor) : R t (t.leave node) :=
  leave_within hM.move (hM.flush t)

mutual

/-- The nodes that are entered when a node is gone through, in order, each with the state in which it
is entered. -/
def entered (tree : Nat) (above : List (Nat × Node)) : Node → Tracker → List (Cursor × Tracker)
  | ⟨kind, named, role, span, text, children⟩, t =>
    let n : Node := ⟨kind, named, role, span, text, children⟩
    let c : Cursor := ⟨tree, n, above⟩
    (c, t) :: enteredIn tree n above 0 children (t.enter c)

/-- The nodes that are entered when siblings are gone through from a position on. -/
def enteredIn (tree : Nat) (parent : Node) (above : List (Nat × Node)) :
    Nat → List Node → Tracker → List (Cursor × Tracker)
  | _, [], _ => []
  | i, n :: rest, t =>
    if n.named then
      entered tree ((i, parent) :: above) n t
        ++ enteredIn tree parent above (i + 1) rest (visit tree ((i, parent) :: above) n t)
    else enteredIn tree parent above (i + 1) rest t

end

/-- Nodes are gone through one after the other, and what is below each of them in between: from one
state to another, entering the given nodes. Words and punctuation are passed over. -/
inductive Goes : List Cursor → Tracker → List (Cursor × Tracker) → Tracker → Prop where
  | nil (t : Tracker) : Goes [] t [] t
  | skip {c : Cursor} {rest : List Cursor} {t t' : Tracker} {nodes : List (Cursor × Tracker)} :
      c.node.named = false → Goes rest t nodes t' → Goes (c :: rest) t nodes t'
  | node {c : Cursor} {rest : List Cursor} {t u t' : Tracker} {inside nodes : List (Cursor × Tracker)} :
      c.node.named → Goes c.children (t.enter c) inside u → Goes rest (u.leave c) nodes t' →
      Goes (c :: rest) t ((c, t) :: inside ++ nodes) t'

theorem goes_visitAll (tree : Nat) (parent : Node) (above : List (Nat × Node)) (i : Nat)
    (nodes : List Node) (t : Tracker) : Goes (siblings tree parent above i nodes) t
      (enteredIn tree parent above i nodes t) (visitAll tree parent above i nodes t) := by
  match nodes with
  | [] =>
    rw [enteredIn, visitAll]
    exact .nil t
  | ⟨kind, named, role, span, text, children⟩ :: rest =>
    rw [enteredIn, visitAll]
    split
    · next hnamed =>
      rw [entered, visit]
      exact .node hnamed (goes_visitAll tree _ _ 0 children _) (goes_visitAll tree parent above _ rest _)
    · next hnamed => exact .skip (eq_false_of_ne_true hnamed) (goes_visitAll tree parent above _ rest t)

/-- Going through a node is entering it, going through its children, and leaving it. -/
theorem exists_goes (c : Cursor) (t : Tracker) : ∃ inside u, Goes c.children (t.enter c) inside u
    ∧ entered c.tree c.above c.node t = (c, t) :: inside
    ∧ visit c.tree c.above c.node t = u.leave c := by
  refine ⟨_, _, goes_visitAll c.tree c.node c.above 0 c.node.children _, ?_⟩
  obtain ⟨tree, ⟨kind, named, role, span, text, children⟩, above⟩ := c
  exact ⟨by rw [entered], by rw [visit]⟩

/-- Going through good nodes keeps up what entering and leaving good nodes keeps up. -/
theorem Goes.keeps {K : Tracker → Prop} {nodes : List Cursor} {inside : List (Cursor × Tracker)}
    (h : Goes nodes t inside t') (hbelow : ∀ c, G c → ∀ child ∈ c.children, G child)
    (henter : ∀ c t, G c → K t → K (t.enter c)) (hleave : ∀ c t, G c → K t → K (t.leave c))
    (hnodes : ∀ c ∈ nodes, G c) (ht : K t) : K t' := by
  induction h with
  | nil => exact ht
  | skip _ _ ih => exact ih (forall_mem_cons.mp hnodes).2 ht
  | node _ _ _ ihinside ihrest =>
    obtain ⟨hc, hrest⟩ := forall_mem_cons.mp hnodes
    exact ihrest hrest (hleave _ _ hc (ihinside (hbelow _ hc) (henter _ _ hc ht)))

/-- **A pass over a good node and everything below it keeps up** what entering and leaving good nodes
keeps up. -/
theorem visit_keeps {K : Tracker → Prop} (hbelow : ∀ c, G c → ∀ child ∈ c.children, G child)
    (henter : ∀ c t, G c → K t → K (t.enter c)) (hleave : ∀ c t, G c → K t → K (t.leave c))
    (h : G c) (ht : K t) : K (visit c.tree c.above c.node t) := by
  obtain ⟨_, u, hgoes, -, hvisit⟩ := exists_goes c t
  rw [hvisit]
  exact hleave c u h (hgoes.keeps hbelow henter hleave (hbelow c h) (henter c t h ht))

/-- **A pass over a good node and everything below it is within a relation that its steps and the
noting of calls are within.** -/
theorem visit_moves (hM : Moves Good R) (hnote : ∀ c, Good c → KeepsTo R (Pass.noteCall c))
    (h : Good c) (t : Tracker) : R t (visit c.tree c.above c.node t) :=
  visit_keeps (fun c hc child hchild => hM.below c child hc (.of_child hchild))
    (fun c u hc hu => trans_of R hu (enter_moves hM u hc fun _ => hnote c hc))
    (fun c u _ hu => trans_of R hu (leave_moves hM u c)) h (refl_of R t)

end Visiting

/-! ## Steps. -/

inductive Step : Tracker → Tracker → Prop where
  | openScope (t : Tracker) (closure : Closure) : Step t (t.openScope closure)
  | bind (t : Tracker) (closure : Closure) (b : Binding) : Step t (t.bind closure b)
  | flush (t : Tracker) (closure : Closure) : Step t (t.flush closure)
  | block (t : Tracker) (block : Closure) (hblock : block.kind = .block) :
      Step t { t with scopes := t.scopes.addBlock block }
  | calls (t : Tracker) (calls : List (Cursor × Closure)) :
      Step t { t with scopes.callSites := calls }
  | report (t : Tracker) (event : Event) : Step t (t.report event)
  | move (t : Tracker) (position : Position) (currentClass currentMethod : Option Cursor)
      (classScope methodScope : Option Closure) (loops : List Closure) :
      Step t { t with position, currentClass, currentMethod, classScope, methodScope, loops }

abbrev Steps : Tracker → Tracker → Prop := Relation.ReflTransGen Step

instance : IsPreorder Tracker Steps where
  refl _ := .refl
  trans _ _ _ := .trans

theorem Step.steps (h : t.Step t') : t.Steps t' := .single h

theorem steps_moves : Moves (fun _ => True) Steps where
  below _ _ _ _ := trivial
  openScope t c := (Step.openScope t c).steps
  bind t c b _ := (Step.bind t c b).steps
  flush t c := (Step.flush t c).steps
  block t b hb := (Step.block t b hb).steps
  report t e := (Step.report t e).steps
  move t p c m cs ms l := (Step.move t p c m cs ms l).steps
  known _ _ h := h fun _ _ _ _ _ _ => trivial

theorem noteCall_steps : KeepsTo Steps (Pass.noteCall node) := by
  unfold Pass.noteCall
  refine keeps_get_bind fun t => ?_
  split
  · exact (Step.calls t _).steps
  · exact keeps_pure t

theorem enter_steps (t : Tracker) (c : Cursor) : t.Steps (t.enter c) :=
  enter_moves steps_moves t trivial fun _ => noteCall_steps

theorem leave_steps (t : Tracker) (c : Cursor) : t.Steps (t.leave c) := leave_moves steps_moves t c

theorem Goes.steps {nodes : List Cursor} {inside : List (Cursor × Tracker)}
    (h : Goes nodes t inside t') : t.Steps t' :=
  h.keeps (G := fun _ => True) (fun _ _ _ _ => trivial) (fun c u _ hu => hu.trans (enter_steps u c))
    (fun c u _ hu => hu.trans (leave_steps u c)) (fun _ _ => trivial) .refl

/-- **A pass over a node and everything below it is a sequence of steps.** -/
theorem visit_steps (c : Cursor) (t : Tracker) : t.Steps (visit c.tree c.above c.node t) :=
  visit_moves steps_moves (fun _ _ => noteCall_steps) trivial t

end Tracker

end QueryAudit.Scope
