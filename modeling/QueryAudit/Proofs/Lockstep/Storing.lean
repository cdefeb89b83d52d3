/-
  QueryAudit.Proofs.Lockstep.Storing — steps that read and store

  Reading a file and saving a map do not ask whether shapes are passed over, and what the user is
  told is nothing to them.

  Main results: `Storing`, with `storing_source`, `storing_fetch`, `storing_saveCached`, ….
-/

import QueryAudit.Proofs.Scope.Cached

namespace QueryAudit

open Audit Php Record Scope

variable {α : Type} {path directory : String} {scopes : FileScopes} {r : Run}

/-- The run that differs from a run in whether shapes are passed over and in what the user is
told. -/
def Run.aside (r : Run) (debug : Bool) (log : List String) : Run :=
  { r with debug, log }

/-- The findings, the count of shapes, and whether they are passed over, stay. -/
structure SameCounts (r t : Run) : Prop where
  diagnostics : t.diagnostics = r.diagnostics := by rfl
  hardErrors : t.hardErrors = r.hardErrors := by rfl
  debug : t.debug = r.debug := by rfl

/-- What a step that reads and stores comes to from a state, and from the states aside of it. -/
inductive Stored (r : Run) :
    EStateM.Result Failure Run α → (Bool → List String → EStateM.Result Failure Run α) → Prop where
  | ok {a : α} {t : Run} (h : SameCounts r t) :
      Stored r (.ok a t) fun debug log => .ok a (t.aside debug log)
  | error {f : Failure} {t : Run} (h : SameCounts r t) (hf : ∀ e, f ≠ .hard e) :
      Stored r (.error f t) fun debug log => .error f (t.aside debug log)

def Storing (x : Audit α) : Prop := ∀ r, Stored r (x r) fun debug log => x (r.aside debug log)

theorem storing_modify {f : Run → Run}
    (hf : ∀ r debug log, f (r.aside debug log) = (f r).aside debug log)
    (hsame : ∀ r, SameCounts r (f r)) : Storing (modify f : Audit PUnit) := by
  intro r
  simp only [run_modify, hf]
  exact .ok (hsame r)

theorem storing_source : Storing (source path) := by
  intro r
  simp only [source_eq, Run.aside]
  cases r.sources.get? (r.disk.resolve path) with
  | some s => exact .ok {}
  | none =>
    dsimp only
    split
    · exact .ok {}
    · exact .error {} nofun

/-- A file that exists is read from the file tree. -/
theorem storing_fetch {s : Source} : Storing (do
    let r ← get
    let path := r.disk.resolve path
    match r.disk.file? path with
    | none => throw (.unreadable path)
    | some file =>
      set { r with sources := r.sources.set path { s with content := some file.bytes } }
      return file.bytes) := by
  intro r
  simp only [run_bind, run_get, Run.aside]
  cases r.disk.file? (r.disk.resolve path) with
  | none => exact .error {} nofun
  | some file => exact .ok {}

theorem storing_nextTree : Storing (do
    let r ← get
    set { r with nextTree := r.nextTree + 1 }
    return r.nextTree) :=
  fun _ => .ok {}

theorem cacheRefusal?_plain {disk : Disk} {failure : Failure}
    (h : cacheRefusal? disk directory = some failure) (e : HardError) : failure ≠ .hard e := by
  unfold cacheRefusal? at h
  rintro rfl
  split at h
  · cases h
  · split at h <;> cases h

theorem storing_saveCached : Storing (saveCached directory scopes) := by
  intro r
  simp only [saveCached_eq, Run.aside]
  cases hrefusal : cacheRefusal? r.disk directory with
  | some failure => exact .error {} (cacheRefusal?_plain hrefusal)
  | none =>
    cases r.disk.file? scopes.path with
    | none => exact .error {} nofun
    | some file => exact .ok {}

end QueryAudit
