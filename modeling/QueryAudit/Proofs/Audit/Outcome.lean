/-
  QueryAudit.Proofs.Audit.Outcome — what a step came to

  A step of an analysis or of a pass is a function from a state to a result and a state. The lemmas
  here take a successful step apart, one for each way in which steps are put together, so that
  proofs about longer steps never open the monad.
-/

import QueryAudit.Run

namespace QueryAudit

open Diagnostics

variable {ε σ α β : Type} {s t : σ}
variable {x : EStateM ε σ α} {f : α → EStateM ε σ β} {a : α} {e : ε}

/-! ## Success, piece by piece. -/

theorem bind_of_ok (h : x s = .ok a t) : (x >>= f) s = f a t := by
  show EStateM.bind x f s = f a t
  rw [EStateM.bind, h]

theorem bind_of_error (h : x s = .error e t) : (x >>= f) s = .error e t := by
  show EStateM.bind x f s = .error e t
  rw [EStateM.bind, h]

theorem bind_ok_iff {b : β} : (x >>= f) s = .ok b t ↔ ∃ a u, x s = .ok a u ∧ f a u = .ok b t := by
  cases h : x s with
  | ok a u =>
    rw [bind_of_ok h]
    constructor
    · exact fun hf => ⟨a, u, rfl, hf⟩
    · rintro ⟨a', u', heq, hf⟩
      cases heq
      exact hf
  | error e u =>
    rw [bind_of_error h]
    constructor
    · exact fun hf => nomatch hf
    · rintro ⟨a, u', heq, _⟩
      cases heq

@[simp] theorem pure_ok_iff {b : α} : (pure a : EStateM ε σ α) s = .ok b t ↔ a = b ∧ s = t := by
  show EStateM.Result.ok a s = .ok b t ↔ _
  simp

@[simp] theorem get_ok_iff {u : σ} : (get : EStateM ε σ σ) s = .ok u t ↔ s = u ∧ s = t := by
  show EStateM.Result.ok s s = .ok u t ↔ _
  simp

@[simp] theorem modify_ok_iff {f : σ → σ} {u : PUnit} :
    (modify f : EStateM ε σ PUnit) s = .ok u t ↔ f s = t := by
  show EStateM.Result.ok PUnit.unit (f s) = .ok u t ↔ _
  simp

@[simp] theorem throw_ne_ok : (throw e : EStateM ε σ α) s ≠ .ok a t := by
  show EStateM.Result.error e s ≠ .ok a t
  simp

theorem bind_pure_ok_iff {f : α → β} {b : β} :
    (x >>= fun a => pure (f a)) s = .ok b t ↔ ∃ a, x s = .ok a t ∧ f a = b := by
  rw [bind_ok_iff]
  constructor
  · rintro ⟨a, u, h, hp⟩
    obtain ⟨rfl, rfl⟩ := pure_ok_iff.mp hp
    exact ⟨a, h, rfl⟩
  · rintro ⟨a, h, rfl⟩
    exact ⟨a, t, h, pure_ok_iff.mpr ⟨rfl, rfl⟩⟩

theorem map_ok_iff {f : α → β} {b : β} : (f <$> x) s = .ok b t ↔ ∃ a, x s = .ok a t ∧ f a = b := by
  rw [map_eq_pure_bind, bind_pure_ok_iff]

theorem map_of_ok {f : α → β} (h : x s = .ok a t) : (f <$> x) s = .ok (f a) t := by
  show EStateM.map f x s = _
  rw [EStateM.map, h]

theorem map_of_error {f : α → β} (h : x s = .error e t) : (f <$> x) s = .error e t := by
  show EStateM.map f x s = _
  rw [EStateM.map, h]

theorem tryCatch_of_ok {f : ε → EStateM ε σ α} (h : x s = .ok a t) : tryCatch x f s = .ok a t := by
  show EStateM.tryCatch x f s = _
  delta EStateM.tryCatch
  rw [h]

theorem tryCatch_of_error {f : ε → EStateM ε σ α} (h : x s = .error e t) : tryCatch x f s = f e t := by
  show EStateM.tryCatch x f s = _
  delta EStateM.tryCatch
  rw [h]
  rfl

/-! ## Running a step. -/

theorem run_bind :
    (x >>= f) s = match x s with
      | .ok a t => f a t
      | .error e t => .error e t := rfl

theorem run_pure : (pure a : EStateM ε σ α) s = .ok a s := rfl

theorem run_throw : (throw e : EStateM ε σ α) s = .error e s := rfl

theorem run_get : (get : EStateM ε σ σ) s = .ok s s := rfl

theorem run_set : (set t : EStateM ε σ PUnit) s = .ok ⟨⟩ t := rfl

theorem run_modify {f : σ → σ} : (modify f : EStateM ε σ PUnit) s = .ok ⟨⟩ (f s) := rfl

/-- What a test sees of a step: that the step returns, and passes it. -/
def sees (x : EStateM ε σ α) (s : σ) (test : α → σ → Bool) : Bool :=
  match x s with
  | .ok a t => test a t
  | .error _ _ => false

theorem of_sees {test : α → σ → Bool} (h : sees x s test = true) :
    ∃ a t, x s = .ok a t ∧ test a t = true := by
  unfold sees at h
  split at h
  · next a t hok => exact ⟨a, t, hok, h⟩
  · cases h

/-! ## Collecting findings. -/

section Collecting

variable {r : Run} {d : Diagnostics}

theorem checkOpen_eq : checkOpen d = if d.drained then .error {} d else .ok ⟨⟩ d := by
  simp only [checkOpen, run_bind, run_get]
  split <;> rfl

/-- A warning is put after those there are, unless everything was handed over. -/
theorem warn_eq {w : Warning} :
    Audit.warn w r = if r.diagnostics.drained then .error .drained r else
      .ok ⟨⟩ { r with diagnostics :=
        { r.diagnostics with warnings := r.diagnostics.warnings ++ [w] } } := by
  simp only [Audit.warn, Audit.collecting, warn, run_bind, run_get, checkOpen_eq]
  by_cases h : r.diagnostics.drained = true
  · simp only [if_pos h]
    rfl
  · simp only [if_neg h]
    rfl

/-- A reference is put after those there are, unless everything was handed over. -/
theorem collecting_addReference_eq (reference : Reference) :
    Audit.collecting (addReference reference) r =
      if r.diagnostics.drained then .error .drained r else
      .ok ⟨⟩ { r with diagnostics :=
        { r.diagnostics with references := r.diagnostics.references ++ [reference] } } := by
  simp only [Audit.collecting, addReference, run_bind, run_get, checkOpen_eq]
  by_cases h : r.diagnostics.drained = true
  · simp only [if_pos h]
    rfl
  · simp only [if_neg h]
    rfl

/-- A warning is given the first time its key comes up, and the key is noted before that. -/
theorem warnOnce_eq (key : String) (w : Warning) :
    Audit.warnOnce key w r = if r.diagnostics.seen.contains key then .ok ⟨⟩ r else
      Audit.warn w { r with diagnostics :=
        { r.diagnostics with seen := r.diagnostics.seen ++ [key] } } := by
  rw [warn_eq]
  cases hseen : r.diagnostics.seen.contains key with
  | true =>
    simp only [Audit.warnOnce, Audit.collecting, warnOnce, run_bind, run_get, hseen,
      if_true, run_pure, run_set]
  | false =>
    simp only [Audit.warnOnce, Audit.collecting, warnOnce, warn, run_bind, run_get, hseen,
      Bool.false_eq_true, if_false, run_modify, checkOpen_eq]
    by_cases h : r.diagnostics.drained = true
    · simp only [if_pos h]
      rfl
    · simp only [if_neg h]
      rfl

theorem Audit.hardError_strict (e : HardError) (h : r.debug = false) :
    Audit.hardError e r = .error (.hard e) { r with hardErrors := r.hardErrors + 1 } := by
  unfold Audit.hardError
  rw [bind_of_ok run_modify]
  show (if (!r.debug) = true then _ else _ : Audit Unit) _ = _
  rw [h]
  exact rfl

/-- Handing over gives everything that was collected. -/
theorem collecting_drain_ok {found : List Reference × List Warning} {r' : Run}
    (h : Audit.collecting drain r = .ok found r') :
    found = (r.diagnostics.references, r.diagnostics.warnings)
      ∧ r' = { r with diagnostics :=
          { r.diagnostics with references := [], warnings := [], drained := true } } := by
  cases hd : r.diagnostics.drained with
  | true =>
    simp only [Audit.collecting, drain, run_bind, run_get, checkOpen_eq, hd] at h
    cases h
  | false =>
    simp only [Audit.collecting, drain, run_bind, run_get, checkOpen_eq, hd,
      Bool.false_eq_true, if_false, run_set, run_pure, EStateM.Result.ok.injEq] at h
    exact ⟨h.1.symm, h.2.symm⟩

end Collecting

end QueryAudit
