/-
  QueryAudit.Proofs.Audit.Change — what reading code leaves alone

  Everything an analysis does apart from checking calls leaves the findings about SQL texts alone
  (`SameFindings`). A step that stays within a relation, whether it succeeds or fails, `Keeps` it.

  Main results: `keeps_bind`, `keeps_forIn_mem`, `keeps_tryCatch`.
-/

import Mathlib.Logic.Relation
import QueryAudit.Proofs.Audit.Outcome

namespace QueryAudit

open Record

/-! ## What stays. -/

/-- A class declaration without what was found out about it later. -/
def Record.ClassDecl.bare (d : ClassDecl) : ClassDecl :=
  { name := d.name, parentName := d.parentName, file := d.file, line := d.line
    methods := d.methods, constants := d.constants }

/-- Whether a warning is about an SQL text: a suspected injection, or a text that is not
understood. -/
def Warning.aboutSql (w : Warning) : Bool := w.code = "sql-injection" || w.code = "sql-parse"

/-- What reading code leaves alone: what an analysis works on, and its findings about SQL texts. -/
structure SameFindings (r r' : Run) : Prop where
  settings : r'.settings = r.settings := by rfl
  debug : r'.debug = r.debug := by rfl
  root : r'.root = r.root := by rfl
  disk : r'.disk = r.disk := by rfl
  references : r'.diagnostics.references = r.diagnostics.references := by rfl
  drained : r'.diagnostics.drained = r.diagnostics.drained := by rfl
  warnings : r'.diagnostics.warnings.filter Warning.aboutSql
    = r.diagnostics.warnings.filter Warning.aboutSql := by rfl

instance : IsPreorder Run SameFindings where
  refl _ := {}
  trans _ _ _ h k :=
    ⟨k.settings.trans h.settings, k.debug.trans h.debug, k.root.trans h.root, k.disk.trans h.disk,
      k.references.trans h.references, k.drained.trans h.drained, k.warnings.trans h.warnings⟩

theorem SameFindings.warning {r : Run} (w : Warning) (hw : w.aboutSql = false) :
    SameFindings r { r with diagnostics :=
      { r.diagnostics with warnings := r.diagnostics.warnings ++ [w] } } where
  warnings := by
    show (r.diagnostics.warnings ++ [w]).filter Warning.aboutSql = _
    rw [List.filter_append, List.filter_cons_of_neg (by rw [hw]; decide), List.filter_nil,
      List.append_nil]

/-! ## Steps within a relation. -/

namespace Audit

variable {ε σ α β : Type}
variable {x : EStateM ε σ α} {f : α → EStateM ε σ β} {r s : σ} {a : α} {e : ε}

/-- The state a step leaves behind, whether it succeeds or fails. -/
def after (x : EStateM ε σ α) (r : σ) : σ :=
  match x r with
  | .ok _ s => s
  | .error _ s => s

theorem after_of_ok (h : x r = .ok a s) : after x r = s := by
  rw [after, h]

theorem after_of_error (h : x r = .error e s) : after x r = s := by
  rw [after, h]

theorem after_bind_of_ok (h : x r = .ok a s) : after (x >>= f) r = after (f a) s := by
  rw [after, after, bind_of_ok h]

theorem after_bind_of_error (h : x r = .error e s) : after (x >>= f) r = s :=
  after_of_error (bind_of_error h)

/-- All that a step does to a run, whether it succeeds or fails, is within a relation. -/
def KeepsTo (R : σ → σ → Prop) (x : EStateM ε σ α) : Prop := ∀ r, R r (after x r)

/-- A step leaves the findings about SQL texts alone. -/
abbrev Keeps (x : Audit α) : Prop := KeepsTo SameFindings x

section Combining

variable {R : σ → σ → Prop}

theorem KeepsTo.of_ok (h : KeepsTo R x) (hx : x r = .ok a s) : R r s := by
  have hs := h r
  rw [after_of_ok hx] at hs
  exact hs

theorem KeepsTo.of_error (h : KeepsTo R x) (hx : x r = .error e s) : R r s := by
  have hs := h r
  rw [after_of_error hx] at hs
  exact hs

theorem keeps_modify {f : σ → σ} (h : ∀ r, R r (f r)) : KeepsTo R (modify f : EStateM ε σ PUnit) :=
  fun r => h r

variable [IsPreorder σ R]

@[grind .] theorem keeps_pure : KeepsTo R (pure a : EStateM ε σ α) := fun r => refl_of R r

@[grind .] theorem keeps_throw : KeepsTo R (throw e : EStateM ε σ α) :=
  fun r => refl_of R r

@[grind .] theorem keeps_get : KeepsTo R (get : EStateM ε σ σ) := fun r => refl_of R r

theorem keeps_bind_of (hx : KeepsTo R x) (hf : ∀ r a s, x r = .ok a s → R s (after (f a) s)) :
    KeepsTo R (x >>= f) := by
  intro r
  cases h : x r with
  | ok a s =>
    rw [after_bind_of_ok h]
    exact trans_of R (hx.of_ok h) (hf r a s h)
  | error e s =>
    rw [after_bind_of_error h]
    exact hx.of_error h

@[grind .] theorem keeps_bind (hx : KeepsTo R x) (hf : ∀ a, KeepsTo R (f a)) : KeepsTo R (x >>= f) :=
  keeps_bind_of hx fun _ a s _ => hf a s

@[grind .] theorem keeps_map {f : α → β} (hx : KeepsTo R x) : KeepsTo R (f <$> x) := by
  exact keeps_bind hx fun _ => keeps_pure

theorem keeps_get_bind {f : σ → EStateM ε σ α} (h : ∀ r, R r (after (f r) r)) :
    KeepsTo R (get >>= f) :=
  keeps_bind_of keeps_get fun r a s hget => by
    obtain ⟨rfl, rfl⟩ := get_ok_iff.mp hget
    exact h r

theorem steps_set_bind {t : σ} {f : PUnit → EStateM ε σ α} (h : R r t) (hf : KeepsTo R (f ⟨⟩)) :
    R r (after (set t >>= f) r) :=
  trans_of R h (hf t)

theorem keeps_tryCatch_of {f : ε → EStateM ε σ α} (hx : KeepsTo R x)
    (hf : ∀ r e s, x r = .error e s → R s (after (f e) s)) : KeepsTo R (tryCatch x f) := by
  intro r
  cases h : x r with
  | ok a s =>
    rw [after_of_ok (tryCatch_of_ok h)]
    exact hx.of_ok h
  | error e s =>
    have hafter : after (tryCatch x f) r = after (f e) s := by
      rw [after, after, tryCatch_of_error h]
    rw [hafter]
    exact trans_of R (hx.of_error h) (hf r e s h)

@[grind .] theorem keeps_tryCatch {f : ε → EStateM ε σ α} (hx : KeepsTo R x)
    (hf : ∀ e, KeepsTo R (f e)) : KeepsTo R (tryCatch x f) :=
  keeps_tryCatch_of hx fun _ e s _ => hf e s

/-- A loop stays within a relation when its body does for the items there are. -/
theorem keeps_forIn_mem {items : List α} {start : β} {body : α → β → EStateM ε σ (ForInStep β)}
    (hbody : ∀ a ∈ items, ∀ b, KeepsTo R (body a b)) : KeepsTo R (forIn items start body) := by
  induction items generalizing start with
  | nil =>
    exact keeps_pure
  | cons a items ih =>
    rw [List.forIn_cons]
    refine keeps_bind (hbody a List.mem_cons_self start) fun step => ?_
    cases step with
    | done b => exact keeps_pure
    | yield b => exact ih fun a ha => hbody a (List.mem_cons_of_mem _ ha)

end Combining

end Audit

end QueryAudit
