/-
  QueryAudit.Proofs.Sample.Agreement — evaluators that agree up to a failure

  Two evaluators that give the same wherever the first does not fail in one particular way make
  rules that do so too. One lemma for each rule; what is built from the rules to any depth follows.
-/

import QueryAudit.Proofs.Audit.Reading
import QueryAudit.Sample.Evaluator

namespace QueryAudit.Sample

open Php Scope

/-! ## Steps that agree. -/

/-- Two steps give the same unless the first one fails in a given way. -/
def AgreesUpTo (cut : Failure) {α : Type} (x y : Audit α) : Prop :=
  ∀ r, x r = y r ∨ ∃ s, x r = .error cut s

section Steps

variable {cut : Failure} {α β : Type}

@[grind .] theorem agrees_refl {x : Audit α} : AgreesUpTo cut x x := fun _ => .inl rfl

theorem agrees_trans {x y z : Audit α} (h : AgreesUpTo cut x y) (h' : AgreesUpTo cut y z) :
    AgreesUpTo cut x z := by
  intro r
  rcases h r with heq | herror
  · rw [heq]
    exact h' r
  · exact .inr herror

theorem agrees_throw {y : Audit α} : AgreesUpTo cut (throw cut) y := fun r => .inr ⟨r, rfl⟩

@[grind .] theorem agrees_bind {x y : Audit α} {f g : α → Audit β} (hx : AgreesUpTo cut x y)
    (hf : ∀ a, AgreesUpTo cut (f a) (g a)) : AgreesUpTo cut (x >>= f) (y >>= g) := by
  intro r
  rcases hx r with heq | ⟨s, herror⟩
  · cases hy : y r with
    | ok a s =>
      rw [bind_of_ok (heq.trans hy), bind_of_ok hy]
      exact hf a s
    | error e s =>
      rw [bind_of_error (heq.trans hy), bind_of_error hy]
      exact .inl rfl
  · exact .inr ⟨s, bind_of_error herror⟩

@[grind .] theorem agrees_mapM {items : List α} {f g : α → Audit β}
    (hf : ∀ a, AgreesUpTo cut (f a) (g a)) : AgreesUpTo cut (items.mapM f) (items.mapM g) := by
  induction items with
  | nil =>
    exact agrees_refl
  | cons a items ih =>
    rw [List.mapM_cons, List.mapM_cons]
    exact agrees_bind (hf a) fun b => agrees_bind ih fun _ => agrees_refl

end Steps

/-! ## Rules. -/

/-- Evaluators that agree up to a failure. -/
structure Evaluation.Agrees (cut : Failure) (e e' : Evaluation) : Prop where
  prepare : ∀ node path, AgreesUpTo cut (e.prepare node path) (e'.prepare node path)
  draw : ∀ sequence wanted, AgreesUpTo cut (e.draw sequence wanted) (e'.draw sequence wanted)
  items : ∀ node path depth, AgreesUpTo cut (e.items node path depth) (e'.items node path depth)
  itemsOf : ∀ b depth, AgreesUpTo cut (e.itemsOf b depth) (e'.itemsOf b depth)

attribute [grind .] Evaluation.Agrees.prepare Evaluation.Agrees.draw Evaluation.Agrees.items
  Evaluation.Agrees.itemsOf

section Rules

variable {cut : Failure} {e e' : Evaluation}

variable {b : Binding} {items : List Item} {parts : List Sequence}

theorem agrees_drawEach {α : Type} {draw draw' : α → Nat → Audit Drawn}
    (h : ∀ source wanted, AgreesUpTo cut (draw source wanted) (draw' source wanted))
    {sources : List α} :
    ∀ wanted, AgreesUpTo cut (drawEach draw wanted sources) (drawEach draw' wanted sources) := by
  induction sources with
  | nil =>
    intro wanted
    exact agrees_refl
  | cons source sources ih =>
    intro wanted
    unfold drawEach
    grind

variable (he : e.Agrees cut e') (node : Cursor) (path : String) (wanted : Nat)
include he

@[grind .] theorem agrees_takeFrom {sequence : Sequence} :
    AgreesUpTo cut (takeFrom e sequence) (takeFrom e' sequence) := by
  unfold takeFrom
  grind

@[grind .] theorem agrees_samplesWith :
    AgreesUpTo cut (samplesWith e node path) (samplesWith e' node path) := by
  unfold samplesWith
  grind

@[grind .] theorem agrees_prepareRole {role path : String} :
    AgreesUpTo cut (prepareRole e node role path) (prepareRole e' node role path) := by
  unfold prepareRole
  grind

@[grind .] theorem agrees_prepareString :
    AgreesUpTo cut (prepareString e node path) (prepareString e' node path) := by
  unfold prepareString
  grind

@[grind .] theorem agrees_prepareBinary :
    AgreesUpTo cut (prepareBinary e node path) (prepareBinary e' node path) := by
  unfold prepareBinary
  split <;> grind

@[grind .] theorem agrees_prepareInner :
    AgreesUpTo cut (prepareInner e node path) (prepareInner e' node path) := by
  unfold prepareInner
  grind

@[grind .] theorem agrees_prepareCast :
    AgreesUpTo cut (prepareCast e node path) (prepareCast e' node path) := by
  unfold prepareCast
  grind

@[grind .] theorem agrees_prepareCombined {before : Option Binding} {path : String} :
    AgreesUpTo cut (prepareCombined e node before path) (prepareCombined e' node before path) := by
  unfold prepareCombined
  grind

@[grind .] theorem agrees_prepareAugmented :
    AgreesUpTo cut (prepareAugmented e node path) (prepareAugmented e' node path) := by
  unfold prepareAugmented
  split
  · exact agrees_refl
  · refine agrees_bind agrees_refl fun found => ?_
    grind

@[grind .] theorem agrees_prepareRule :
    AgreesUpTo cut (prepareRule e node path) (prepareRule e' node path) := by
  unfold prepareRule
  split <;> grind

@[grind .] theorem agrees_itemsRule (depth : Nat) : AgreesUpTo cut (itemsRule e node path depth) (itemsRule e' node path depth) := by
  unfold itemsRule
  split
  · exact agrees_refl
  split
  · exact agrees_refl
  · split <;> grind
  · split <;> grind
  split
  · exact agrees_refl
  refine agrees_bind agrees_refl fun found => ?_
  split
  · exact agrees_refl
  · refine agrees_bind agrees_refl fun active => ?_
    grind

@[grind .] theorem agrees_itemsOfRule (b : Binding) (depth : Nat) :
    AgreesUpTo cut (itemsOfRule e b depth) (itemsOfRule e' b depth) := by
  unfold itemsOfRule
  split
  · exact agrees_refl
  split
  · exact agrees_refl
  · exact agrees_refl
  · exact agrees_refl
  · refine agrees_bind agrees_refl fun hidden => ?_
    grind
  · exact he.items _ _ _

@[grind .] theorem agrees_itemText {item : Item} :
    AgreesUpTo cut (itemText e item) (itemText e' item) := by
  unfold itemText
  grind

@[grind .] theorem agrees_arrayMark : AgreesUpTo cut (arrayMark e items) (arrayMark e' items) := by
  unfold arrayMark
  grind

@[grind .] theorem agrees_arrayCandidates {arg : Cursor} :
    AgreesUpTo cut (arrayCandidates e path arg items) (arrayCandidates e' path arg items) := by
  unfold arrayCandidates
  grind

@[grind .] theorem agrees_takeParts :
    AgreesUpTo cut (takeParts e node path parts) (takeParts e' node path parts) := by
  induction parts with
  | nil => exact agrees_refl
  | cons part parts ih =>
    unfold takeParts
    grind

@[grind .] theorem agrees_drawConcat {node : Cursor} {path : String} {wanted : Nat} :
    AgreesUpTo cut (drawConcat e parts node path wanted) (drawConcat e' parts node path wanted) := by
  unfold drawConcat
  grind

@[grind .] theorem agrees_drawSubscript :
    AgreesUpTo cut (drawSubscript e node path wanted) (drawSubscript e' node path wanted) := by
  unfold drawSubscript
  split
  · exact agrees_refl
  refine agrees_bind (he.prepare _ path) fun base => ?_
  split
  · grind
  · refine agrees_bind (he.prepare _ path) fun index => ?_
    grind

@[grind .] theorem agrees_drawNamed {kind : Taint} {wanted : Nat} :
    AgreesUpTo cut (drawNamed e node path kind wanted) (drawNamed e' node path kind wanted) := by
  unfold drawNamed
  grind

@[grind .] theorem agrees_drawClassConstant : AgreesUpTo cut (drawClassConstant e node path wanted)
      (drawClassConstant e' node path wanted) := by
  unfold drawClassConstant
  grind

@[grind .] theorem agrees_drawConstant :
    AgreesUpTo cut (drawConstant e node path wanted) (drawConstant e' node path wanted) := by
  unfold drawConstant
  split
  · exact agrees_refl
  · exact agrees_refl
  · exact agrees_refl
  · exact agrees_drawNamed he node path

@[grind .] theorem agrees_drawNode : AgreesUpTo cut (drawNode e node path wanted) (drawNode e' node path wanted) := by
  unfold drawNode
  grind

@[grind .] theorem agrees_drawLoopVariable {node : Cursor} {wanted : Nat} :
    AgreesUpTo cut (drawLoopVariable e b node wanted) (drawLoopVariable e' b node wanted) := by
  unfold drawLoopVariable
  refine agrees_bind (he.items node b.path 0) fun items => ?_
  grind [agrees_drawEach]

@[grind .] theorem agrees_drawDefinition {node : Cursor} {wanted : Nat} :
    AgreesUpTo cut (drawDefinition e b node wanted) (drawDefinition e' b node wanted) := by
  unfold drawDefinition
  grind

@[grind .] theorem agrees_drawSingle {wanted : Nat} :
    AgreesUpTo cut (drawSingle e b wanted) (drawSingle e' b wanted) := by
  unfold drawSingle
  grind

end Rules

end QueryAudit.Sample
