/-
  QueryAudit.Proofs.Php.Patterns — reading the slots of a pattern

  A pattern is a sequence of slots with commas between them. A slot holds nothing, a target, or a
  key, an arrow and a target; what it holds may be wrapped in an element. Comments and brackets say
  nothing. The reader takes a key for a target until the arrow comes; between slots no key waits.

  Main results: `SlotReading.foldl_slot`, `patternSlots_exact`.
-/

import QueryAudit.Php.Shape

namespace QueryAudit.Php

open List

variable {tokens : List Cursor}

/-! ## Patterns. -/

inductive PatternSort where
  | comma | arrow | element
  /-- A key or a target that stands on its own. -/
  | operand
  /-- A comment, a bracket or another word. -/
  | silent
  deriving DecidableEq

def patternSort (c : Cursor) : PatternSort :=
  if c.kind = .token "," then .comma
  else if c.kind = .token "=>" then .arrow
  else if c.kind = .arrayElementInitializer then .element
  else if c.node.named && c.kind ≠ .comment then .operand
  else .silent

/-- What a slot holds: nothing, or a target with or without a key. -/
abbrev SlotContent := Option (Option Cursor × Cursor)

variable {content : SlotContent} {contents : List SlotContent}

/-- The tokens that a slot is written with. -/
inductive SlotTokens : List Cursor → SlotContent → Prop where
  | empty : SlotTokens [] none
  | target {target : Cursor} : patternSort target = .operand →
      SlotTokens [target] (some (none, target))
  | keyed {key arrow target : Cursor} : patternSort key = .operand → patternSort arrow = .arrow →
      patternSort target = .operand → SlotTokens [key, arrow, target] (some (some key, target))
  | element {element target : Cursor} : patternSort element = .element → element.parts = [target] →
      SlotTokens [element] (some (none, target))
  | keyedElement {element key target : Cursor} : patternSort element = .element →
      element.parts = [key, target] → SlotTokens [element] (some (some key, target))

/-- The tokens of slots with commas between them. -/
inductive PatternTokens : List Cursor → List SlotContent → Prop where
  | last {tokens : List Cursor} {content : SlotContent} : SlotTokens tokens content →
      PatternTokens tokens [content]
  | more {tokens rest : List Cursor} {content : SlotContent} {comma : Cursor}
      {contents : List SlotContent} : SlotTokens tokens content → patternSort comma = .comma →
      PatternTokens rest contents → PatternTokens (tokens ++ comma :: rest) (content :: contents)

/-- The slots that hold something, from a position on. -/
def filledSlots (position : Nat) (contents : List SlotContent) : List Slot :=
  (contents.zipIdx position).filterMap fun item => item.1.map fun c => ⟨item.2, c.1, c.2⟩

theorem filledSlots_cons {position : Nat} : filledSlots position (content :: contents)
    = filledSlots position [content] ++ filledSlots (position + 1) contents := by
  cases content <;> rfl

/-! ## Reading. -/

namespace SlotReading

variable {c : Cursor} {r : SlotReading} {found : List Slot} {position : Nat} {key : Option Cursor}

theorem step_silent (h : patternSort c = .silent) : r.step c = r := by
  grind [step, patternSort]

theorem step_comma (h : patternSort c = .comma) :
    r.step c = { r with position := r.position + 1 } := by
  grind [step, patternSort]

theorem step_operand (h : patternSort c = .operand) :
    step ⟨found, position, key⟩ c = ⟨found ++ [⟨position, key, c⟩], position, none⟩ := by
  grind [step, patternSort]

theorem step_arrow (h : patternSort c = .arrow) (waiting : Cursor) :
    step ⟨found ++ [⟨position, key, waiting⟩], position, none⟩ c = ⟨found, position, some waiting⟩ := by
  grind [step, patternSort]

theorem step_element (h : patternSort c = .element) {target : Cursor} (hparts : c.parts = [target]) :
    step ⟨found, position, key⟩ c = ⟨found ++ [⟨position, none, target⟩], position, key⟩ := by
  grind [step, patternSort]

theorem step_keyedElement (h : patternSort c = .element) {first target : Cursor}
    (hparts : c.parts = [first, target]) :
    step ⟨found, position, key⟩ c = ⟨found ++ [⟨position, some first, target⟩], position, key⟩ := by
  grind [step, patternSort]

/-- **The tokens of a slot** put what it holds at the end and leave no key waiting. -/
theorem foldl_slot (h : SlotTokens tokens content) :
    tokens.foldl step ⟨found, position, none⟩
      = ⟨found ++ filledSlots position [content], position, none⟩ := by
  cases h with
  | empty => rw [foldl_nil, show filledSlots position [none] = [] from rfl, append_nil]
  | target h =>
    rw [foldl_cons, step_operand h]
    rfl
  | keyed hkey harrow htarget =>
    rw [foldl_cons, step_operand hkey, foldl_cons, step_arrow harrow, foldl_cons, step_operand htarget]
    rfl
  | element h hparts =>
    rw [foldl_cons, step_element h hparts]
    rfl
  | keyedElement h hparts =>
    rw [foldl_cons, step_keyedElement h hparts]
    rfl

theorem foldl_pattern (h : PatternTokens tokens contents) :
    (tokens.foldl step ⟨found, position, none⟩).found = found ++ filledSlots position contents := by
  induction h generalizing found position with
  | last h => rw [foldl_slot h]
  | @more _ _ content _ contents h hcomma _ ih =>
    rw [foldl_append, foldl_slot h, foldl_cons, step_comma hcomma, ih, append_assoc, ← filledSlots_cons]

end SlotReading

/-- **A pattern is read slot by slot**: whatever comments stand between its tokens, there is one entry
for each slot that holds something, in order, with the number of slots before it. -/
theorem patternSlots_exact {pattern : Cursor} (h : PatternTokens
      (pattern.children.filter fun c => patternSort c ≠ .silent) contents) :
    patternSlots pattern
      = contents.zipIdx.filterMap fun item => item.1.map fun c => ⟨item.2, c.1, c.2⟩ := by
  have hsilent : pattern.children.foldl SlotReading.step {}
      = (pattern.children.filter fun c => patternSort c ≠ .silent).foldl SlotReading.step {} := by
    rw [foldl_filter]
    congr 1
    funext r c
    split
    · rfl
    · next hsort => exact SlotReading.step_silent (by simpa using hsort)
  rw [patternSlots, hsilent, SlotReading.foldl_pattern h]
  rfl

def plainNode (kind : Kind) (named : Bool) (children : List Node) : Node :=
  ⟨kind, named, none, ⟨0, 0, 0, 0⟩, "", children⟩

/-- A pattern with an empty slot, a key that a comment follows, and an element. -/
def sparsePattern : Cursor :=
  .root 0 (plainNode .listLiteral true
    [plainNode (.token "[") false [], plainNode (.token ",") false [], plainNode .string true [],
      plainNode .comment true [], plainNode (.token "=>") false [], plainNode .variableName true [],
      plainNode (.token ",") false [],
      plainNode .arrayElementInitializer true [plainNode .variableName true []],
      plainNode (.token "]") false []])

theorem patternSlots_exact_sparse :
    (patternSlots sparsePattern).map (fun slot => (slot.position, slot.key.isSome))
      = [(1, true), (2, false)] := by
  have htokens : PatternTokens (sparsePattern.children.filter fun c => patternSort c ≠ .silent) _ :=
    .more .empty rfl (.more (.keyed rfl rfl rfl) rfl (.last (.element rfl rfl)))
  rw [patternSlots_exact htokens]
  rfl

end QueryAudit.Php
