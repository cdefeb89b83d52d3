/-
  QueryAudit.Proofs.Audit.Watching — steps that keep notes

  A step that besides its state keeps a list of notes, also when it fails. `Adds` says which notes a
  watched step adds to the plain one; `Erases`, that watching changes nothing.

  Main results: `adds_bind`, `adds_tryCatch_error`, `erases_bind`.
-/

import QueryAudit.Proofs.Audit.Change

namespace QueryAudit.Watched

variable {ν α β : Type}

variable {n : ν}

/-! ## Watched steps. -/

/-- A step of an analysis that keeps notes. -/
abbrev Step (ν α : Type) := EStateM Failure (Run × List ν) α

def withNotes (notes : List ν) :
    EStateM.Result Failure Run α → EStateM.Result Failure (Run × List ν) α
  | .ok a r => .ok a (r, notes)
  | .error f r => .error f (r, notes)

def plain (x : Audit α) : Step ν α := fun state => withNotes state.2 (x state.1)

def note (n : ν) : Step ν Unit := modify fun state => (state.1, state.2 ++ [n])

/-! ## What watched steps add. -/

/-- From a state a watched step does what a step does, and adds notes. -/
def Adds (w : Step ν α) (x : Audit α) (r : Run) (notes : List ν) : Prop :=
  ∀ before, w (r, before) = withNotes (before ++ notes) (x r)

variable {w : Step ν α} {x : Audit α} {r t : Run} {a : α} {e : Failure} {notes more : List ν}
variable {f : α → Step ν β} {g : α → Audit β}

theorem adds_plain (x : Audit α) (r : Run) : Adds (plain x) x r ([] : List ν) := by
  intro before
  rw [List.append_nil]
  rfl

theorem adds_bind (hx : x r = .ok a t) (hw : Adds w x r notes) (hf : Adds (f a) (g a) t more) :
    Adds (w >>= f) (x >>= g) r (notes ++ more) := by
  intro before
  have hfirst : w (r, before) = .ok a (t, before ++ notes) := by
    rw [hw, hx]
    rfl
  rw [bind_of_ok hfirst, bind_of_ok hx, hf, List.append_assoc]

theorem adds_bind_error (hx : x r = .error e t) (hw : Adds w x r notes) :
    Adds (w >>= f) (x >>= g) r notes := by
  intro before
  have hfirst : w (r, before) = .error e (t, before ++ notes) := by
    rw [hw, hx]
    rfl
  rw [bind_of_error hfirst, bind_of_error hx]
  rfl

theorem adds_plain_bind (hx : x r = .ok a t) (hf : Adds (f a) (g a) t more) :
    Adds (plain x >>= f) (x >>= g) r more :=
  adds_bind hx (adds_plain x r) hf

theorem adds_note_bind {f : Unit → Step ν α} (hf : Adds (f ()) x r notes) :
    Adds (note n >>= f) x r (n :: notes) := by
  intro before
  have hnote : note n (r, before) = .ok ⟨⟩ (r, before ++ [n]) := rfl
  rw [bind_of_ok hnote, hf, List.append_assoc]
  rfl

theorem adds_tryCatch_ok {handler : Failure → Step ν α} {rescue : Failure → Audit α}
    (hx : x r = .ok a t) (hw : Adds w x r notes) :
    Adds (tryCatch w handler) (tryCatch x rescue) r notes := by
  intro before
  have hfirst : w (r, before) = .ok a (t, before ++ notes) := by
    rw [hw, hx]
    rfl
  rw [tryCatch_of_ok hfirst, tryCatch_of_ok hx]
  rfl

theorem adds_tryCatch_error {handler : Failure → Step ν α} {rescue : Failure → Audit α}
    (hx : x r = .error e t) (hw : Adds w x r notes) (hrescue : Adds (handler e) (rescue e) t []) :
    Adds (tryCatch w handler) (tryCatch x rescue) r notes := by
  intro before
  have hfirst : w (r, before) = .error e (t, before ++ notes) := by
    rw [hw, hx]
    rfl
  rw [tryCatch_of_error hfirst, tryCatch_of_error hx, hrescue, List.append_nil]

/-! ## Watching changes nothing. -/

def Erases (w : Step ν α) (x : Audit α) : Prop := ∀ r, ∃ notes, Adds w x r notes

theorem erases_plain (x : Audit α) : Erases (plain x : Step ν α) x := fun r => ⟨[], adds_plain x r⟩

theorem erases_note_bind {f : Unit → Step ν α} (hf : Erases (f ()) x) : Erases (note n >>= f) x := fun r =>
  let ⟨notes, hnotes⟩ := hf r
  ⟨n :: notes, adds_note_bind hnotes⟩

theorem erases_bind (hw : Erases w x) (hf : ∀ a, Erases (f a) (g a)) : Erases (w >>= f) (x >>= g) := by
  intro r
  obtain ⟨notes, hnotes⟩ := hw r
  cases hx : x r with
  | ok a t =>
    obtain ⟨more, hmore⟩ := hf a t
    exact ⟨notes ++ more, adds_bind hx hnotes hmore⟩
  | error e t => exact ⟨notes, adds_bind_error hx hnotes⟩

theorem Erases.plain_of_ok (h : Erases w x) {before after : List ν}
    (hw : w (r, before) = .ok a (t, after)) : x r = .ok a t := by
  obtain ⟨notes, hnotes⟩ := h r
  rw [hnotes] at hw
  cases hx : x r with
  | ok b u =>
    rw [hx] at hw
    obtain ⟨rfl, hstate⟩ := EStateM.Result.ok.inj hw
    rw [(Prod.mk.inj hstate).1]
  | error f u =>
    rw [hx] at hw
    cases hw

/-- One watched step after another leaves behind what the steps do, with notes added. -/
theorem exists_foldl_after {ι : Type} {watch : ι → Step ν Unit} {run : ι → Audit Unit}
    (h : ∀ c, Erases (watch c) (run c)) (calls : List ι) :
    ∀ (r : Run) (before : List ν), ∃ notes,
      calls.foldl (fun state c => Audit.after (watch c) state) (r, before)
        = (calls.foldl (fun r c => Audit.after (run c) r) r, before ++ notes) := by
  induction calls with
  | nil => exact fun _ _ => ⟨[], by rw [List.append_nil]; rfl⟩
  | cons c calls ih =>
    intro r before
    obtain ⟨notes, hnotes⟩ := h c r
    have hafter : Audit.after (watch c) (r, before) = (Audit.after (run c) r, before ++ notes) := by
      rw [Audit.after, Audit.after, hnotes]
      cases run c r <;> rfl
    obtain ⟨more, hmore⟩ := ih (Audit.after (run c) r) (before ++ notes)
    rw [List.foldl_cons, hafter, hmore, List.append_assoc]
    exact ⟨_, rfl⟩

end QueryAudit.Watched
