/-
  QueryAudit.Proofs.Sample.Reentry — evaluating with a bound on re-entering

  Two things may be drawn from although they are being drawn from already: the other definitions
  that a loop made, and the items of an array that a variable holds, as arguments of a call.
  `bounded` are the evaluators that give up when more than a number of such re-entries nest.
-/

import QueryAudit.Proofs.Php.Below
import QueryAudit.Proofs.Sample.Agreement

namespace QueryAudit.Sample

open Php Scope

variable {n : Nat} {node inner : Cursor}

/-! ## Re-entering. -/

/-- Whether an argument is an array that is written out in place. -/
def isWrittenOut (node : Cursor) : Bool :=
  match node.kind with
  | .arrayCreationExpression => true
  | .parenthesizedExpression | .argument =>
    match _ : node.parts.getLast? with
    | some inner => isWrittenOut inner
    | none => false
  | _ => false
termination_by node.node.size
decreasing_by all_goals exact (Cursor.below_of_getLast?_parts ‹_›).size_lt

theorem isWrittenOut_inner (hkind : node.kind = .parenthesizedExpression ∨ node.kind = .argument)
    (hinner : node.parts.getLast? = some inner) : isWrittenOut node = isWrittenOut inner := by
  have hstep : (match _ : node.parts.getLast? with
      | some inner => isWrittenOut inner
      | none => false) = isWrittenOut inner := by
    split
    · next found hfound =>
      rw [hinner, Option.some.injEq] at hfound
      rw [hfound]
    · next hnone =>
      rw [hinner] at hnone
      cases hnone
  rw [isWrittenOut]
  rcases hkind with hkind | hkind
  · simp only [hkind]
    exact hstep
  · simp only [hkind]
    exact hstep

theorem isWrittenOut_other (harray : node.kind ≠ .arrayCreationExpression)
    (hparens : node.kind ≠ .parenthesizedExpression) (hargument : node.kind ≠ .argument) :
    isWrittenOut node = false := by
  rw [isWrittenOut]
  split
  · next h => exact absurd h harray
  · next h => exact absurd h hparens
  · next h => exact absurd h hargument
  · rfl

/-- The values an argument can have. The items of an array that a variable holds are drawn by the
second evaluators. -/
def heldCandidates (e again : Evaluation) (path : String) (arg : Cursor) :
    Audit (List Intrinsic.Argument) := do
  match ← e.items arg path 0 with
  | none => return (← samplesWith e arg path).map .text
  | some items => arrayCandidates (if isWrittenOut arg then e else again) path arg items

/-- Draw samples of one definition, by the second evaluators when it is active already. -/
def drawAgain (e again : Evaluation) (b : Binding) (wanted : Nat) : Audit Drawn := do
  drawSingle (if ← isActive b then again else e) b wanted

/-- Draw samples of a sequence. What is re-entered is drawn by the second evaluators. -/
def reenteringRule (e again : Evaluation) (sequence : Sequence) (wanted : Nat) : Audit Drawn :=
  if wanted = 0 then return ⟨[], []⟩
  else match sequence with
    | .later node path =>
      if node.kind = .functionCallExpression then
        drawCall (heldCandidates e again path) node path wanted
      else drawLater e node path wanted
    | .binding b => drawAlternatives (drawAgain e again) b wanted
    | _ => drawRule e sequence wanted

def refusing (cut : Failure) : Evaluation :=
  ⟨fun _ _ => throw cut, fun _ _ => throw cut, fun _ _ _ => throw cut, fun _ _ => throw cut⟩

/-- Evaluators to a depth in which at most a number of re-entries nest. -/
def bounded (cut : Failure) : Nat → Nat → Evaluation
  | 0, _ => refusing .endless
  | n + 1, k =>
    let e := bounded cut n k
    let again := match k with
      | 0 => refusing cut
      | k + 1 => bounded cut n k
    ⟨prepareRule e, reenteringRule e again, itemsRule e, itemsOfRule e⟩

def boundedAgain (cut : Failure) (n : Nat) : Nat → Evaluation
  | 0 => refusing cut
  | k + 1 => bounded cut n k

theorem bounded_succ {cut : Failure} (k : Nat) :
    bounded cut (n + 1) k = ⟨prepareRule (bounded cut n k),
      reenteringRule (bounded cut n k) (boundedAgain cut n k), itemsRule (bounded cut n k),
      itemsOfRule (bounded cut n k)⟩ := by
  cases k <;> rfl

/-! ## Agreement. -/

section Agreement

variable {cut : Failure} {e e' again again' : Evaluation}

variable {path : String} {wanted : Nat}

theorem agrees_heldCandidates (he : e.Agrees cut e') (hagain : again.Agrees cut again')
    (arg : Cursor) :
    AgreesUpTo cut (heldCandidates e again path arg) (heldCandidates e' again' path arg) := by
  unfold heldCandidates
  refine agrees_bind (he.items arg path 0) fun found => ?_
  cases found with
  | none => grind
  | some items =>
    dsimp only
    split
    · exact agrees_arrayCandidates he path
    · exact agrees_arrayCandidates hagain path

theorem agrees_drawAgain (he : e.Agrees cut e') (hagain : again.Agrees cut again') (b : Binding)
    (wanted : Nat) : AgreesUpTo cut (drawAgain e again b wanted) (drawAgain e' again' b wanted) := by
  unfold drawAgain
  refine agrees_bind agrees_refl fun active => ?_
  split
  · exact agrees_drawSingle hagain
  · exact agrees_drawSingle he

theorem agrees_drawCall {candidates candidates' : Cursor → Audit (List Intrinsic.Argument)}
    (h : ∀ arg, AgreesUpTo cut (candidates arg) (candidates' arg)) :
    AgreesUpTo cut (drawCall candidates node path wanted) (drawCall candidates' node path wanted) := by
  unfold drawCall
  grind

theorem agrees_drawAlternatives {draw draw' : Binding → Nat → Audit Drawn}
    (h : ∀ b wanted, AgreesUpTo cut (draw b wanted) (draw' b wanted)) {b : Binding} :
    AgreesUpTo cut (drawAlternatives draw b wanted) (drawAlternatives draw' b wanted) := by
  unfold drawAlternatives
  refine agrees_bind agrees_refl fun found => ?_
  cases found with
  | error identifier => exact agrees_refl
  | ok b =>
    refine agrees_bind agrees_refl fun others => ?_
    exact agrees_drawEach h wanted

theorem agrees_drawLater (he : e.Agrees cut e') (hkind : node.kind ≠ .functionCallExpression) :
    AgreesUpTo cut (drawLater e node path wanted) (drawLater e' node path wanted) := by
  unfold drawLater
  split
  · grind
  · exact agrees_drawSubscript he node path wanted
  · next hcall => exact absurd hcall hkind
  · exact agrees_drawClassConstant he node path wanted
  · exact agrees_drawConstant he node path wanted

theorem agrees_reenteringRule (he : e.Agrees cut e') (hagain : again.Agrees cut again')
    (sequence : Sequence) (wanted : Nat) :
    AgreesUpTo cut (reenteringRule e again sequence wanted)
      (reenteringRule e' again' sequence wanted) := by
  unfold reenteringRule
  split
  · exact agrees_refl
  · next hwanted =>
    cases sequence with
    | ready values => exact agrees_refl
    | later node path =>
      dsimp only
      split
      · exact agrees_drawCall (agrees_heldCandidates he hagain)
      · next hkind => exact agrees_drawLater he hkind
    | binding b => exact agrees_drawAlternatives (agrees_drawAgain he hagain)
    | concat parts node path =>
      simp only [drawRule, hwanted]
      exact agrees_drawConcat he
    | chain parts =>
      simp only [drawRule, hwanted]
      exact agrees_drawEach he.draw wanted
    | branches nodes path =>
      simp only [drawRule, hwanted]
      exact agrees_drawEach (fun node => agrees_drawNode he node path) wanted

theorem refusing_agrees : (refusing cut).Agrees cut e :=
  ⟨fun _ _ => agrees_throw, fun _ _ => agrees_throw, fun _ _ _ => agrees_throw,
    fun _ _ => agrees_throw⟩

theorem Evaluation.Agrees.refl (e : Evaluation) : e.Agrees cut e :=
  ⟨fun _ _ => agrees_refl, fun _ _ => agrees_refl, fun _ _ _ => agrees_refl, fun _ _ => agrees_refl⟩

theorem heldCandidates_self : heldCandidates e e = argumentCandidates e := by
  funext path arg
  unfold heldCandidates argumentCandidates
  simp only [ite_self] <;> rfl

theorem drawAgain_self : drawAgain e e = drawSingle e := by
  funext b wanted r
  unfold drawAgain
  simp only [ite_self]
  rfl

theorem reenteringRule_self : reenteringRule e e = drawRule e := by
  funext sequence wanted
  unfold reenteringRule drawRule
  split
  · rfl
  cases sequence with
  | later node path =>
    dsimp only
    split
    · next hkind =>
      rw [heldCandidates_self, drawLater, hkind]
      rfl
    · rfl
  | binding b =>
    rw [drawAgain_self]
    rfl
  | _ => rfl

/-- More depth changes nothing once there is enough. -/
theorem bounded_deeper : ∀ k, (bounded cut n k).Agrees .endless (bounded cut (n + 1) k) := by
  induction n with
  | zero => exact fun k => refusing_agrees
  | succ n ih =>
    intro k
    have hagain : (boundedAgain cut n k).Agrees .endless (boundedAgain cut (n + 1) k) := by
      cases k with
      | zero => exact Evaluation.Agrees.refl _
      | succ k => exact ih k
    exact ⟨agrees_prepareRule (ih k), agrees_reenteringRule (ih k) hagain,
      agrees_itemsRule (ih k), agrees_itemsOfRule (ih k)⟩

theorem bounded_eq : ∀ k, n ≤ k → bounded cut n k = evaluation n := by
  induction n with
  | zero => exact fun k _ => rfl
  | succ n ih =>
    intro k hk
    cases k with
    | zero => exact absurd hk (Nat.not_succ_le_zero n)
    | succ k =>
      have hle := Nat.le_of_succ_le_succ hk
      rw [bounded_succ, boundedAgain, ih k hle, ih (k + 1) (Nat.le_succ_of_le hle),
        reenteringRule_self]
      rfl

end Agreement

end QueryAudit.Sample
