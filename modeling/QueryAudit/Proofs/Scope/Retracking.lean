/-
  QueryAudit.Proofs.Scope.Retracking — tracking a file again

  Recording a class again changes nothing. So tracking a file again whose tree is at hand finds the
  same definitions and changes nothing but what the user is told.

  Main results: `replay_ok`, `replay_again`, `findScopes_tracked`, `findScopes_again`.
-/

import QueryAudit.Proofs.Audit.Sources
import QueryAudit.Proofs.Lockstep.Alone

namespace QueryAudit

open Audit Php Record Scope

variable {r t : Run} {path : String} {d : ClassDecl} {events : List Event} {number : Nat}

/-! ## Classes that are recorded. -/

/-- Files are known as before, and of classes and noted keys nothing is forgotten. -/
structure Remembers (r t : Run) : Prop where
  disk : t.disk = r.disk
  settings : t.settings = r.settings
  sources : t.sources = r.sources
  seen : ∀ key, r.diagnostics.seen.contains key = true → t.diagnostics.seen.contains key = true
  classes : ∀ key d, r.classes.get? key = some d →
    ∃ d', t.classes.get? key = some d' ∧ d'.file = d.file ∧ d'.line = d.line

instance : IsPreorder Run Remembers where
  refl _ := ⟨rfl, rfl, rfl, fun _ h => h, fun _ d h => ⟨d, h, rfl, rfl⟩⟩
  trans _ _ _ h k := by
    refine ⟨k.disk.trans h.disk, k.settings.trans h.settings, k.sources.trans h.sources,
      fun key hkey => k.seen key (h.seen key hkey), fun key d hd => ?_⟩
    obtain ⟨d', hd', hfile, hline⟩ := h.classes key d hd
    obtain ⟨d'', hd'', hfile', hline'⟩ := k.classes key d' hd'
    exact ⟨d'', hd'', hfile'.trans hfile, hline'.trans hline⟩

theorem Tame.remembers (h : Tame r t) : Remembers r t where
  disk := by rw [h.rest]
  settings := by rw [h.rest]
  sources := by rw [h.rest]
  seen := h.seen
  classes := h.classes

/-- A class is recorded: it is known at its place, or it was warned about. -/
def Run.Recorded (r : Run) (d : ClassDecl) : Prop :=
  d.name = "" ∨ ∃ known, r.classes.get? d.key = some known
    ∧ (known.file = d.file ∧ known.line = d.line
      ∨ r.diagnostics.seen.contains ("duplicate-class:" ++ d.key) = true)

theorem Run.Recorded.remembers (h : r.Recorded d) (hr : Remembers r t) : t.Recorded d := by
  rcases h with h | ⟨known, hknown, hplace⟩
  · exact .inl h
  obtain ⟨known', hknown', hfile, hline⟩ := hr.classes _ known hknown
  refine .inr ⟨known', hknown', ?_⟩
  rcases hplace with ⟨hfile', hline'⟩ | hseen
  · exact .inl ⟨hfile.trans hfile', hline.trans hline'⟩
  · exact .inr (hr.seen _ hseen)

namespace Audit

/-- Recording a class again changes nothing. -/
theorem recordClass_again (h : r.Recorded d) : recordClass d r = .ok ⟨⟩ r := by
  unfold recordClass
  rcases h with h | ⟨known, hknown, hplace⟩
  · rw [if_pos h]
    rfl
  by_cases hname : d.name = ""
  · rw [if_pos hname]
    rfl
  rw [if_neg hname, bind_of_ok run_get, hknown]
  dsimp only
  by_cases hsame : (known.file = d.file && known.line = d.line) = true
  · rw [if_pos hsame]
    rfl
  rw [if_neg hsame]
  rcases hplace with ⟨hfile, hline⟩ | hseen
  · rw [hfile, hline] at hsame
    simp at hsame
  · rw [shown, bind_assoc, bind_of_ok run_get, pure_bind, warnOnce_eq, if_pos hseen]

theorem recordClass_ok (h : recordClass d r = .ok ⟨⟩ t) : Remembers r t ∧ t.Recorded d := by
  rcases recordClass_cases d r with ⟨hrun, hquiet⟩ | ⟨-, hnew, hrun⟩ | ⟨known, w, hknown, -, -, -, hrun⟩
  · rw [hrun] at h
    obtain ⟨-, rfl⟩ := EStateM.Result.ok.inj h
    refine ⟨refl_of Remembers r, hquiet.imp_right ?_⟩
    rintro ⟨known, hknown, hsame⟩
    rw [Bool.and_eq_true, decide_eq_true_eq, decide_eq_true_eq] at hsame
    exact ⟨known, hknown, .inl hsame⟩
  · rw [hrun] at h
    obtain ⟨-, rfl⟩ := EStateM.Result.ok.inj h
    refine ⟨(Tame.declared d hnew).remembers, .inr ⟨d, ?_, .inl ⟨rfl, rfl⟩⟩⟩
    rw [Catalog.get?_set, if_pos rfl]
  · rw [hrun, warnOnce_eq] at h
    cases hseen : r.diagnostics.seen.contains ("duplicate-class:" ++ d.key) with
    | true =>
      rw [hseen] at h
      obtain ⟨-, rfl⟩ := EStateM.Result.ok.inj h
      exact ⟨refl_of Remembers r, .inr ⟨known, hknown, .inr hseen⟩⟩
    | false =>
      rw [hseen, if_neg Bool.false_ne_true, warn_eq] at h
      split at h
      · cases h
      obtain ⟨-, rfl⟩ := EStateM.Result.ok.inj h
      have hkey := (Tame.noted (r := r) ("duplicate-class:" ++ d.key)).remembers
      refine ⟨⟨rfl, rfl, rfl, hkey.seen, hkey.classes⟩, .inr ⟨known, hknown, .inr ?_⟩⟩
      show (r.diagnostics.seen ++ ["duplicate-class:" ++ d.key]).contains _ = true
      simp

end Audit

/-- What a pass reported was acted on: there are classes only, and they are recorded. -/
def Run.Replayed (r : Run) (path : String) (events : List Event) : Prop :=
  ∀ event ∈ events, ∃ node, event = .classFound node ∧ r.Recorded (.ofNode node path)

theorem Run.Replayed.remembers (h : r.Replayed path events) (hr : Remembers r t) :
    t.Replayed path events := fun event hevent => by
  obtain ⟨node, rfl, hrecorded⟩ := h event hevent
  exact ⟨node, rfl, hrecorded.remembers hr⟩

namespace Audit

theorem replay_again (h : r.Replayed path events) : replay path events r = .ok ⟨⟩ r := by
  induction events with
  | nil => rfl
  | cons event events ih =>
    rw [Run.Replayed, List.forall_mem_cons] at h
    obtain ⟨⟨node, rfl, hrecorded⟩, hrest⟩ := h
    unfold replay
    rw [bind_of_ok (recordClass_again hrecorded)]
    exact ih hrest

/-- Where shapes that are not handled are not passed over, all that a pass reports are classes. -/
theorem replay_ok (hstrict : r.debug = false) (h : replay path events r = .ok ⟨⟩ t) :
    Remembers r t ∧ t.Replayed path events := by
  induction events generalizing r with
  | nil =>
    obtain ⟨-, rfl⟩ := pure_ok_iff.mp h
    exact ⟨refl_of Remembers r, nofun⟩
  | cons event events ih =>
    cases event with
    | classFound node =>
      obtain ⟨_, u, hrecord, hrest⟩ := bind_ok_iff.mp h
      obtain ⟨hu, hrecorded⟩ := recordClass_ok hrecord
      have hdebug := (keeps_recordClass.of_ok hrecord).debug
      obtain ⟨ht, hreplayed⟩ := ih (hdebug.trans hstrict) hrest
      refine ⟨trans_of Remembers hu ht, ?_⟩
      exact List.forall_mem_cons.mpr ⟨⟨node, rfl, hrecorded.remembers ht⟩, hreplayed⟩
    | unhandled e =>
      unfold replay at h
      rw [bind_of_error (hardError_strict e hstrict)] at h
      cases h

end Audit

/-! ## Files that are tracked. -/

/-- A file whose tree is at hand, with nodes that know what is above them. -/
def Source.Linked (number : Nat) (s : Source) : Prop :=
  s.tree.map Prod.fst = some number ∧ s.linked = some number

def Run.pass (r : Run) (path : String) (number : Nat) : FileScopes × List Event :=
  Tracker.run (callNames r.settings) path (.root number (r.disk.treeAt path))

/-- A file was tracked: its tree is linked, and what the pass over it reported was acted on. -/
structure Run.Passed (r : Run) (path : String) (number : Nat) : Prop where
  linked : ∃ s, r.sources.get? path = some s ∧ s.Linked number
  replayed : r.Replayed path (r.pass path number).2

theorem Run.Passed.remembers (h : r.Passed path number) (hr : Remembers r t) : t.Passed path number where
  linked := by
    rw [hr.sources]
    exact h.linked
  replayed := by
    rw [Run.pass, hr.settings, hr.disk]
    exact h.replayed.remembers hr

namespace Audit

/-- **What tracking a file leaves behind.** -/
theorem findScopes_tracked (hr : r.Faithful) (hplain : r.disk.resolve path = path)
    (hstrict : r.debug = false) {scopes : FileScopes} (h : findScopes path r = .ok scopes t) :
    ∃ number, t.Passed path number ∧ scopes = (t.pass path number).1 := by
  have hlog := ((tells_log ("tracking scopes in " ++ Path.shownFrom r.root path)).careful.of_ok
    (log_eq _ r) hr).faithful
  unfold findScopes at h
  rw [shown, bind_assoc, bind_of_ok run_get, pure_bind, bind_of_ok (log_eq _ _)] at h
  generalize linesAfter r _ = lines at h hlog
  obtain ⟨root, u, hroot, h⟩ := bind_ok_iff.mp h
  rw [rootOf_eq hlog] at hroot
  cases hknown : ({ r with log := lines } : Run).known? path with
  | none =>
    rw [hknown] at hroot
    cases hroot
  | some s =>
    rw [hknown] at hroot
    obtain ⟨rfl, rfl⟩ := EStateM.Result.ok.inj hroot
    rw [bind_of_ok run_get] at h
    obtain ⟨_, u, hlink, h⟩ := bind_ok_iff.mp h
    obtain ⟨-, rfl⟩ := EStateM.Result.ok.inj hlink
    obtain ⟨_, hreplay, rfl⟩ := bind_pure_ok_iff.mp h
    obtain ⟨hv, hreplayed⟩ := replay_ok (by exact hstrict) hreplay
    dsimp only at hv hreplayed ⊢
    rw [hplain] at hv hreplayed
    rw [hplain]
    refine ⟨s.number?.getD r.nextTree, ⟨?_, ?_⟩, ?_⟩
    · rw [hv.sources]
      rw [Catalog.modify_set hr.once, Catalog.get?_set, if_pos rfl]
      have htree := s.tree_read r.disk path r.nextTree
      exact ⟨_, rfl, htree, htree⟩
    · rw [Run.pass, hv.settings, hv.disk]
      exact hreplayed
    · rw [Run.pass, hv.settings, hv.disk]

/-- **Tracking a file again finds the same definitions and changes nothing.** -/
theorem findScopes_again (hr : r.Faithful) (hplain : r.disk.resolve path = path)
    (h : r.Passed path number) : ∃ lines,
      findScopes path r = .ok (r.pass path number).1 { r with log := lines } := by
  obtain ⟨s, hs, htree, hlinked⟩ := h.linked
  obtain ⟨⟨n, node⟩, hfst, rfl⟩ := Option.map_eq_some_iff.mp htree
  have hlog := ((tells_log ("tracking scopes in " ++ Path.shownFrom r.root path)).careful.of_ok
    (log_eq _ r) hr).faithful
  refine ⟨linesAfter r ("tracking scopes in " ++ Path.shownFrom r.root path), ?_⟩
  unfold findScopes
  rw [shown, bind_assoc, bind_of_ok run_get, pure_bind, bind_of_ok (log_eq _ _)]
  generalize linesAfter r _ = lines at hlog ⊢
  have hknown : ({ r with log := lines } : Run).known? path = some s := by
    unfold Run.known?
    rw [hplain, hs]
  have hnumber : s.number? = some n := by rw [Source.number?, hfst]
  have hroot := rootOf_numbered hlog hknown hnumber
  rw [hplain, Source.read_of_tree hfst, Catalog.set_of_get? hr.once hs] at hroot
  rw [bind_of_ok hroot, bind_of_ok run_get, takePass, link, bind_of_ok run_modify]
  rw [hplain, Catalog.modify_of_get? hr.once hs (by rw [htree, ← hlinked])]
  have hreplay := replay_again (h.replayed.remembers (t := { r with log := lines })
    ⟨rfl, rfl, rfl, fun _ h => h, fun _ d h => ⟨d, h, rfl, rfl⟩⟩)
  exact bind_of_ok hreplay

end Audit

end QueryAudit
