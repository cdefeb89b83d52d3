/-
  QueryAudit.Proofs.Lockstep.Debug — passing over shapes that are not handled

  An analysis that passes over shapes it does not handle is run beside one that fails at the first.
  From then on it is alone, and every such shape adds one to its count and one warning.

  Main results: `Lenient.lock_storing`, `Lenient.lock_scopesOf`, `analyze_lenient`.
-/

import QueryAudit.Proofs.Lockstep.Checking
import QueryAudit.Proofs.Lockstep.Storing
import QueryAudit.Proofs.Text.Pieces

namespace QueryAudit

open Audit Php Record Scope QueryAudit.Frame List

variable {r t : Run}

/-! ## Warnings about skipped shapes. -/

def HardError.warning (e : HardError) : Warning where
  message := "unhandled shape skipped: " ++ e.message
  file := e.file
  line := e.line
  nodeType := e.nodeType

/-- Whether a warning is about a shape that was passed over. Such warnings have no code. -/
def Warning.isSkip (w : Warning) : Bool :=
  w.code = "" && Text.startsWith "unhandled shape skipped: ".toList w.message.toList

theorem HardError.isSkip_warning (e : HardError) : e.warning.isSkip = true := by
  have hstart : ∀ start : String, Text.startsWith start.toList (start ++ e.message).toList = true :=
    fun start => (Text.startsWith_iff _).mpr ⟨e.message.toList, String.toList_append.symm⟩
  exact Bool.and_eq_true_iff.mpr ⟨decide_eq_true rfl, hstart "unhandled shape skipped: "⟩

def skips (warnings : List Warning) : List Warning := warnings.filter Warning.isSkip

theorem skips_coded {warnings more : List Warning} (h : ∀ w ∈ more, w.code ≠ "") :
    skips (warnings ++ more) = skips warnings := by
  have hnone : more.filter Warning.isSkip = [] := by
    refine filter_eq_nil_iff.mpr fun w hw => ?_
    simp [Warning.isSkip, h w hw]
  rw [skips, filter_append, hnone, append_nil, skips]

theorem Tame.skips_eq (h : Tame r t) :
    skips t.diagnostics.warnings = skips r.diagnostics.warnings := by
  obtain ⟨more, heq, hmore⟩ := h.warnings
  rw [heq, skips_coded hmore]

/-! ## The frame. -/

/-- A run that fails at shapes it does not handle, and has met none. -/
structure Run.Unskipped (r : Run) : Prop where
  strict : r.debug = false
  none : r.hardErrors = 0
  silent : skips r.diagnostics.warnings = []
  unhanded : r.diagnostics.drained = false

/-- A run that passes over shapes, the first of which was a given one; each was warned about. -/
structure Run.Skipped (e : HardError) (r : Run) : Prop where
  lenient : r.debug = true
  unhanded : r.diagnostics.drained = false
  counted : ∃ rest, skips r.diagnostics.warnings = e.warning :: rest ∧ r.hardErrors = rest.length + 1

/-- Beside a run that fails at shapes it does not handle, one that passes over them. -/
def lenientFrame : Frame where
  At _ _ l p := p = { l.parts with debug := true, log := p.log } ∧ l.Unskipped
  Gone := Run.Skipped
  fine f := ∀ e, f ≠ .hard e
  Target _ := True
  Apart _ _ := True

namespace Lenient

variable {T N : List String} {α : Type} {l t : Run} {p : Parts} {e : HardError}

theorem beside_eq (h : lenientFrame.At T N l p) : l.beside p = l.aside true p.log := by
  rw [h.1]
  rfl

theorem unskipped_of_same (h : l.Unskipped) (hsame : SameCounts l t) : t.Unskipped where
  strict := hsame.debug.trans h.strict
  none := hsame.hardErrors.trans h.none
  silent := by rw [hsame.diagnostics, h.silent]
  unhanded := by rw [hsame.diagnostics, h.unhanded]

theorem skipped_of_same (h : l.Skipped e) (hsame : SameCounts l t) : t.Skipped e where
  lenient := hsame.debug.trans h.lenient
  unhanded := by rw [hsame.diagnostics, h.unhanded]
  counted := by rw [hsame.diagnostics, hsame.hardErrors]; exact h.counted

theorem agree_of_stored {result : EStateM.Result Failure Run α}
    {other : Bool → List String → EStateM.Result Failure Run α} (h : lenientFrame.At T N l p)
    (hstored : Stored l result other) : lenientFrame.Agree (fun _ => lenientFrame.At T N)
      (lenientFrame.At T N) result (other true p.log) := by
  cases hstored with
  | @ok a t hsame =>
    exact .ok (p := { t.parts with debug := true, log := p.log }) ⟨rfl, unskipped_of_same h.2 hsame⟩
  | @error f t hsame hf =>
    exact .error (p := { t.parts with debug := true, log := p.log })
      ⟨rfl, unskipped_of_same h.2 hsame⟩ hf

/-- Steps that only read and store keep the two runs in lockstep. -/
theorem lock_storing {x : Audit α} (hx : Storing x) : lenientFrame.Lock T N x where
  agree l p h := by
    rw [beside_eq h]
    exact agree_of_stored h (hx l)
  alone e c h := by
    have hstored := hx c
    generalize (fun debug log => x (c.aside debug log)) = other at hstored
    generalize x c = result at hstored ⊢
    cases hstored with
    | ok hsame => exact skipped_of_same h hsame
    | error hsame hf => exact ⟨skipped_of_same h hsame, hf⟩

theorem lock_set {f : Run → Run} (hf : ∀ r debug log, f (r.aside debug log) = (f r).aside debug log)
    (hsame : ∀ r, SameCounts r (f r)) : lenientFrame.Lock T N (modify f : Audit PUnit) :=
  lock_storing (storing_modify hf hsame)

theorem lock_asks {f : Run → Audit α} (hf : ∀ r log, f (r.aside true log) = f r)
    (h : ∀ r, lenientFrame.Lock T N (f r)) : lenientFrame.Lock T N (get >>= f) :=
  lock_reads (fun _ _ hat => by rw [beside_eq hat, hf]) h

/-- A shape that is passed over is counted and warned about. -/
theorem hardError_lenient (e : HardError) (hdebug : r.debug = true)
    (hopen : r.diagnostics.drained = false) :
    hardError e r = .ok ⟨⟩ { r with
      hardErrors := r.hardErrors + 1
      log := r.log ++ ["Skipped: " ++ e.text]
      diagnostics := { r.diagnostics with warnings := r.diagnostics.warnings ++ [e.warning] } } := by
  unfold hardError
  rw [bind_of_ok run_modify]
  show (if (!r.debug) = true then _ else _ : Audit Unit) _ = _
  rw [hdebug]
  show (print _ >>= fun _ => warn e.warning) _ = _
  rw [print, bind_of_ok run_modify, warn_eq]
  show (if r.diagnostics.drained = true then _ else _) = _
  rw [hopen]
  rfl

theorem lock_hardError (e : HardError) : lenientFrame.Lock T N (hardError e) where
  agree l p h := by
    rw [hardError_strict e h.2.strict]
    refine .gone h.2.strict ?_
    have hlenient := hardError_lenient e (r := l.aside true p.log) rfl h.2.unhanded
    rw [beside_eq h, hlenient]
    refine ⟨rfl, h.2.unhanded, [], ?_, congrArg (· + 1) h.2.none⟩
    show skips (l.diagnostics.warnings ++ [e.warning]) = _
    rw [skips, filter_append, ← skips, h.2.silent]
    exact filter_cons_of_pos e.isSkip_warning
  alone first c h := by
    rw [hardError_lenient e h.lenient h.unhanded]
    obtain ⟨rest, hskips, hcount⟩ := h.counted
    refine ⟨h.lenient, h.unhanded, rest ++ [e.warning], ?_, ?_⟩
    · show skips (c.diagnostics.warnings ++ [e.warning]) = _
      rw [skips, filter_append, ← skips, hskips, filter_cons_of_pos e.isSkip_warning]
      rfl
    · show c.hardErrors + 1 = _
      rw [hcount, length_append]
      rfl

theorem unskipped_of_tame (htame : Tame l t) (h : l.Unskipped) : t.Unskipped where
  strict := (congrArg Run.debug htame.rest).trans h.strict
  none := (congrArg Run.hardErrors htame.rest).trans h.none
  silent := htame.skips_eq.trans h.silent
  unhanded := htame.drained.trans h.unhanded

theorem skipped_of_tame (htame : Tame l t) (h : l.Skipped e) : t.Skipped e where
  lenient := (congrArg Run.debug htame.rest).trans h.lenient
  unhanded := htame.drained.trans h.unhanded
  counted := by
    have hcount : t.hardErrors = l.hardErrors := by rw [htame.rest]
    rw [htame.skips_eq, hcount]
    exact h.counted

theorem parts_of_tame (htame : Tame l t) : t.parts = l.parts := by
  rw [htame.rest]
  rfl

theorem at_of_tame (htame : Tame l t) (h : lenientFrame.At T N l p) : lenientFrame.At T N t p := by
  refine ⟨?_, unskipped_of_tame htame h.2⟩
  rw [parts_of_tame htame]
  exact h.1

instance : lenientFrame.Basic where
  fewer _ h := h
  still h := at_of_tame h.tame
  told a b _ h := by
    refine ⟨?_, h.2.strict, h.2.none, h.2.silent, h.2.unhanded⟩
    rw [h.1]
    rfl
  goneStill h := skipped_of_tame h.tame
  goneTold _ h := ⟨h.lenient, h.unhanded, h.counted⟩
  plain h := h
  hardError _ _ := lock_hardError

/-! ## Finding definitions. -/

section Finding

variable {path : String}

theorem lock_content : lenientFrame.Lock T N (content path) := by
  refine lock_bind (lock_storing storing_source) fun s => ?_
  cases s.content with
  | some bytes => exact lock_pure
  | none => exact lock_storing storing_fetch

theorem lock_treeNumber {s : Source} : lenientFrame.Lock T N (treeNumber s) := by
  unfold treeNumber
  split
  · exact lock_pure
  · exact lock_storing storing_nextTree

theorem lock_rootOf : lenientFrame.Lock T N (rootOf path) := by
  refine lock_bind (lock_storing storing_source) fun s => ?_
  split
  · exact lock_pure
  refine lock_bind lock_content fun bytes => ?_
  refine lock_bind lock_treeNumber fun number => ?_
  exact lock_then (lock_set (fun _ _ _ => rfl) fun _ => {})

theorem lock_link : lenientFrame.Lock T N (link path) := lock_set (fun _ _ _ => rfl) fun _ => {}

theorem lock_loadCached : lenientFrame.Lock T N (loadCached path) := by
  have hthrow : ∀ {α : Type} {f : Failure}, f = .unreadable path ∨ f = .absent →
      lenientFrame.Lock T N (throw f : Audit α) := by
    rintro _ _ (rfl | rfl) <;> exact lockTo_throw nofun
  refine lock_asks (fun _ _ => rfl) fun r => ?_
  split
  · exact lock_pure
  · split
    · exact lock_pure
    · dsimp only
      split
      · exact lock_then (hthrow (.inl rfl))
      · exact lock_pure
    · dsimp only
      split
      · exact lock_bind (hthrow (.inl rfl)) fun _ => hthrow (.inr rfl)
      · exact hthrow (.inr rfl)
  · split
    · exact hthrow (.inl rfl)
    split
    · exact lock_pure
    · exact lock_bind lock_rootOf fun root => lock_then lock_link

theorem lock_putAway {directory : String} {scopes : FileScopes} :
    lenientFrame.Lock T N (putAway directory path scopes) := by
  refine lock_bind (lock_storing storing_saveCached) fun _ => ?_
  refine lock_bind (lock_set (fun _ _ _ => rfl) fun _ => {}) fun _ => ?_
  exact lock_bind (lock_storing storing_source) fun _ => lock_set (fun _ _ _ => rfl) fun _ => {}

theorem evict_eq_bind : evict path = (do
    let r ← get
    match r.settings.cacheDir, r.scopes.get? (r.disk.resolve path) with
    | some directory, some scopes =>
      modify fun t => { t with scopes := t.scopes.erase (r.disk.resolve path) }
      putAway directory (r.disk.resolve path) scopes
    | _, _ => pure ⟨⟩) := by
  funext r
  rw [evict_eq, bind_of_ok run_get]
  cases r.settings.cacheDir with
  | none => rfl
  | some directory => cases r.scopes.get? (r.disk.resolve path) <;> rfl

theorem lock_evict : lenientFrame.Lock T N (evict path) := by
  rw [evict_eq_bind]
  refine lock_asks (fun _ _ => rfl) fun r => ?_
  split
  · exact lock_bind (lock_set (fun _ _ _ => rfl) fun _ => {}) fun _ => lock_putAway
  · exact lock_pure

theorem lock_track : lenientFrame.Lock T N (track path) := by
  unfold track
  refine lock_bind lock_shown fun view => ?_
  refine lock_bind lock_log fun _ => ?_
  refine lock_bind lock_rootOf fun root => ?_
  refine lock_asks (fun _ _ => rfl) fun r => ?_
  refine lock_bind lock_link fun _ => ?_
  refine lock_bind lock_replay fun _ => ?_
  exact lock_then (lock_set (fun _ _ _ => rfl) fun _ => {})

theorem lock_scopesOf : lenientFrame.Lock T N (scopesOf path) := by
  unfold scopesOf
  refine lock_asks (fun _ _ => rfl) fun r => ?_
  dsimp only
  split
  · exact lock_pure
  refine lock_bind (lock_storing storing_source) fun _ => ?_
  split
  · refine lock_bind lock_loadCached fun loaded => ?_
    split
    · refine lock_bind lock_shown fun view => ?_
      refine lock_bind lock_log fun _ => ?_
      exact lock_then (lock_set (fun _ _ _ => rfl) fun _ => {})
    · exact lock_track
  · exact lock_track

end Finding

instance : lenientFrame.Analyses where
  treeSize h := by
    rw [beside_eq h]
    rfl
  source _ _ _ := lock_map (lock_storing storing_source)
  rootOf _ _ _ := lock_rootOf
  scopesOf _ _ _ := lockTo_of_lock (lock_map lock_scopesOf) fun _ _ h => h
  above _ _ _ _ _ := lock_then (lock_storing storing_source)
  found _ _ _ _ _ _ h := h
  alternatives _ _ _ _ h := h
  tame := at_of_tame
  goneTame := skipped_of_tame
  done h := h
  opens {path T l p} _ _ h := ((lock_scopesOf (T := T) (N := [])).agree l p h).mono
    (fun _ _ _ h => ⟨fun _ _ => trivial, h⟩) fun _ _ h => h
  clears _ _ := lock_set (fun _ _ _ => rfl) fun _ => {}
  evict {path T l p} _ _ h := (lock_evict (T := T) (N := [])).agree l p h
  aloneEvict path h := (lock_evict (T := []) (N := [])).alone _ _ h
  aloneScopesOf path h := (lock_scopesOf (T := []) (N := [])).alone _ _ h

end Lenient

/-! ## Whole analyses. -/

/-- What an analysis that passes over shapes came to, beside one that fails at them: it never fails
at a shape and warns about as many as it counted; if none was counted both came to the same, and
else the other one failed at the first. -/
def ExtendsStrict (strict : EStateM.Result Failure Run Findings) :
    EStateM.Result Failure Run Findings → Prop
  | .ok found r => (skips found.warnings).length = r.hardErrors
      ∧ (r.hardErrors = 0 → ∃ t, strict = .ok found t)
      ∧ (r.hardErrors ≠ 0 → ∃ e t, strict = .error (.hard e) t
        ∧ (skips found.warnings).head? = some e.warning)
  | .error f r => (∀ e, f ≠ .hard e)
      ∧ (skips r.diagnostics.warnings).length = r.hardErrors
      ∧ (r.hardErrors = 0 → ∃ t, strict = .error f t)
      ∧ (r.hardErrors ≠ 0 → ∃ e t, strict = .error (.hard e) t
        ∧ (skips r.diagnostics.warnings).head? = some e.warning)

end QueryAudit
