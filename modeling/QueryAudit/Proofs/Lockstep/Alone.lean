/-
  QueryAudit.Proofs.Lockstep.Alone — what every step keeps of one run

  A frame may be about the second run only. So what is in lockstep stays within every relation that
  contains the changes to shared parts and the few steps that touch other parts.

  Main results: `keeping_eager`, `keeps_of_lock`.
-/

import QueryAudit.Proofs.Lockstep.Evaluating

namespace QueryAudit

open Audit Php Record Scope QueryAudit.Frame

variable {r : Run}

namespace Frame

/-- One run, about which something holds. -/
def only (P : Run → Prop) : Frame where
  At _ _ _ _ := False
  Gone _ := P
  fine _ := True
  Target _ := True
  Apart _ _ := True

variable {R : Run → Run → Prop} [IsPreorder Run R] {α : Type} {T N : List String} {x : Audit α}

theorem keeps_of_lock (h : ∀ r, (only (R r)).Lock T N x) : KeepsTo R x := by
  intro r
  have halone := (h r).alone { message := "" } r (refl_of R r)
  rw [after]
  cases hres : x r with
  | ok a t =>
    rw [hres] at halone
    exact halone
  | error f t =>
    rw [hres] at halone
    exact halone.1

theorem lock_of_keeps {near : α → List String} (h : KeepsTo R x) : (only (R r)).LockTo T N near x where
  agree _ _ hat := hat.elim
  alone _ c hc := by
    have hafter := trans_of R hc (h c)
    rw [after] at hafter
    cases hres : x c with
    | ok a t =>
      rw [hres] at hafter
      exact hafter
    | error f t =>
      rw [hres] at hafter
      exact ⟨hafter, trivial⟩

theorem only_basic (hR : ∀ {r t}, SameFindings r t → R r t) : (only (R r)).Basic where
  fewer _ h := h
  still _ h := h.elim
  told _ _ _ h := h.elim
  goneStill hstill h := trans_of R h (hR hstill.findings)
  goneTold _ h := trans_of R h (hR {})
  plain _ := trivial
  hardError _ _ e := lock_of_keeps (fun c => hR (keeps_hardError c))

end Frame

/-! ## Reading code. -/

namespace Audit

variable {α : Type}

instance : (only (SameFindings r)).Basic := only_basic id

theorem keeps_recordClass {d : ClassDecl} : Keeps (recordClass d) :=
  keeps_of_lock (T := []) (N := []) fun _ => lock_recordClass

theorem keeps_track (path : String) : Keeps (track path) := by
  have hreplay : ∀ events, Keeps (replay path events) := fun events =>
    keeps_of_lock (T := []) (N := []) fun _ => lock_replay
  unfold track
  refine keeps_bind keeps_shown fun view => ?_
  refine keeps_bind keeps_log fun _ => ?_
  refine keeps_bind keeps_rootOf fun root => ?_
  refine keeps_bind keeps_get fun r => ?_
  refine keeps_bind keeps_link fun _ => ?_
  refine keeps_bind (hreplay _) fun _ => ?_
  exact keeps_bind keeps_setScopes fun _ => keeps_pure

theorem keeps_scopesOf {path : String} : Keeps (scopesOf path) := by
  unfold scopesOf
  refine keeps_bind keeps_get fun r => ?_
  dsimp only
  split
  · exact keeps_pure
  refine keeps_bind keeps_source fun _ => ?_
  split
  · refine keeps_bind keeps_loadCached fun loaded => ?_
    split
    · refine keeps_bind keeps_shown fun view => ?_
      refine keeps_bind keeps_log fun _ => ?_
      exact keeps_bind keeps_setScopes fun _ => keeps_pure
    · exact keeps_track _
  · exact keeps_track _

end Audit

namespace Frame

variable {R : Run → Run → Prop} [IsPreorder Run R]

theorem only_eager (hR : ∀ {r t}, SameFindings r t → R r t) : (only (R r)).Eager where
  toBasic := only_basic hR
  treeSize h := h.elim
  source _ _ _ := lock_map (lock_of_keeps (fun c => hR (keeps_source c)))
  rootOf _ _ _ := lock_of_keeps (fun c => hR (keeps_rootOf c))
  scopesOf _ _ _ := lock_of_keeps (keeps_map fun c => hR (keeps_scopesOf c))
  above _ _ _ _ _ := lock_of_keeps (fun c => hR (keeps_above c))
  found _ _ _ _ h := h.elim
  alternatives _ _ h := h.elim
  all _ := trivial

/-- **Reading code leaves the findings about SQL texts alone.** -/
instance keeping_eager : (only (SameFindings r)).Eager := only_eager id

end Frame

end QueryAudit
