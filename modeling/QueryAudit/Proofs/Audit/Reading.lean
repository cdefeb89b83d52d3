/-
  QueryAudit.Proofs.Audit.Reading — reading files

  Every step that tells the user something, or reads, keeps or puts aside a file, leaves the
  findings about SQL texts alone. What is found out about classes later leaves their declarations as
  they are.
-/

import QueryAudit.Proofs.Audit.Change
import QueryAudit.Proofs.Catalog
import QueryAudit.Record.Hierarchy
import QueryAudit.Scope.Store

namespace QueryAudit

open Php Record Scope ClassDecl

variable {key : String}

namespace Audit

variable {path line : String} {w : Warning} {e : HardError} {scopes : FileScopes}

/-! ## Messages. -/

/-- A relation that is not about which files are at hand, what was searched, or what the user was
told. -/
class Unread (R : Run → Run → Prop) : Prop extends IsPreorder Run R where
  unread {r : Run} (sources : Catalog Source) (nextTree : Nat) (scopes : Catalog FileScopes)
    (searched log : List String) : R r { r with
      sources := sources, nextTree := nextTree, scopes := scopes, searched := searched, log := log }

instance : Unread SameFindings := ⟨fun _ _ _ _ _ => {}⟩

variable {R : Run → Run → Prop} [Unread R]

@[grind .] theorem keeps_print : KeepsTo R (print line) :=
  keeps_modify fun _ => Unread.unread _ _ _ _ _

@[grind .] theorem keeps_log {message : String} : KeepsTo R (log message) := by
  unfold log
  grind

@[grind .] theorem keeps_shown : KeepsTo R (shown path) := by
  unfold shown
  grind

@[grind .] theorem keeps_warn (hw : w.aboutSql = false) : Keeps (warn w) := by
  intro r
  rw [after, warn_eq]
  cases hd : r.diagnostics.drained with
  | true => exact refl_of SameFindings r
  | false => exact .warning w hw

@[grind .] theorem keeps_hardError : Keeps (hardError e) := by
  unfold hardError
  refine keeps_bind (keeps_modify fun r => ({} : SameFindings r _)) fun _ => ?_
  grind [Warning.aboutSql]

/-! ## Telling the user. -/

/-- Only what the user is told and the classes met have changed. -/
def Told (r t : Run) : Prop :=
  ∃ diagnostics classes hardErrors log, t = { r with diagnostics, classes, hardErrors, log }

instance : IsPreorder Run Told where
  refl _ := ⟨_, _, _, _, rfl⟩
  trans _ _ _ := by
    rintro ⟨_, _, _, _, rfl⟩ ⟨_, _, _, _, rfl⟩
    exact ⟨_, _, _, _, rfl⟩

/-- All that comes of a step that tells the user something, which fails when nothing more can be told
or when the telling is an error that stops the run. -/
inductive Telling {α : Type} (r : Run) : EStateM.Result Failure Run α → Prop where
  | ok {a t} (told : Told r t) : Telling r (.ok a t)
  | error {f t} (told : Told r t) (why : f = .drained ∨ ∃ e, f = .hard e) : Telling r (.error f t)

def Tells {α : Type} (x : Audit α) : Prop := ∀ r, Telling r (x r)

section Tells

variable {α β : Type} {x : Audit α} {r t : Run}

theorem Telling.from {res : EStateM.Result Failure Run α} (h : Told r t) (hres : Telling t res) :
    Telling r res := by
  cases hres with
  | ok told => exact .ok (trans_of Told h told)
  | error told why => exact .error (trans_of Told h told) why

theorem tells_pure {a : α} : Tells (pure a : Audit α) := fun r => .ok (refl_of Told r)

theorem tells_bind {f : α → Audit β} (hx : Tells x) (hf : ∀ a, Tells (f a)) : Tells (x >>= f) := by
  intro r
  have hr := hx r
  cases h : x r with
  | ok a s =>
    rw [h] at hr
    rw [bind_of_ok h]
    cases hr with
    | ok told => exact (hf a s).from told
  | error e s =>
    rw [h] at hr
    rw [bind_of_error h]
    cases hr with
    | error told why => exact .error told why

theorem tells_get_bind {f : Run → Audit α} (h : ∀ r, Tells (f r)) : Tells (get >>= f) :=
  fun r => h r r

theorem tells_print : Tells (print line) := fun _ => .ok ⟨_, _, _, _, rfl⟩

theorem tells_log (message : String) : Tells (log message) := by
  refine tells_get_bind fun r => ?_
  split
  · exact tells_print
  · exact tells_pure

theorem tells_warn : Tells (warn w) := by
  intro r
  rw [warn_eq]
  split
  · exact .error (refl_of Told r) (.inl rfl)
  · exact .ok ⟨_, _, _, _, rfl⟩

theorem tells_warnOnce : Tells (warnOnce key w) := by
  intro r
  rw [warnOnce_eq]
  split
  · exact .ok (refl_of Told r)
  · exact (tells_warn _).from ⟨_, _, _, _, rfl⟩

theorem tells_hardError : Tells (hardError e) := by
  unfold hardError
  refine tells_bind (fun _ => .ok ⟨_, _, _, _, rfl⟩) fun _ => tells_get_bind fun r => ?_
  split
  · refine tells_bind (fun r => .error (refl_of Told r) (.inr ⟨e, rfl⟩)) fun _ => ?_
    exact tells_bind tells_print fun _ => tells_warn
  · exact tells_bind tells_print fun _ => tells_warn

/-- Recording a class does nothing, makes the class known, or tells of another declaration. -/
theorem recordClass_cases (d : ClassDecl) (r : Run) :
    (recordClass d r = .ok ⟨⟩ r ∧ (d.name = "" ∨ ∃ known, r.classes.get? d.key = some known
        ∧ (known.file = d.file && known.line = d.line) = true))
      ∨ (d.name ≠ "" ∧ r.classes.get? d.key = none
        ∧ recordClass d r = .ok ⟨⟩ { r with classes := r.classes.set d.key d })
      ∨ ∃ known w, r.classes.get? d.key = some known
        ∧ (known.file = d.file && known.line = d.line) = false
        ∧ w.code = "duplicate-class" ∧ w.subject = d.name
        ∧ recordClass d r = warnOnce ("duplicate-class:" ++ d.key) w r := by
  unfold recordClass
  by_cases hname : d.name = ""
  · rw [if_pos hname]
    exact .inl ⟨rfl, .inl hname⟩
  rw [if_neg hname, bind_of_ok run_get]
  cases hknown : r.classes.get? d.key with
  | none => exact .inr (.inl ⟨hname, rfl, rfl⟩)
  | some known =>
    dsimp only
    cases hsame : known.file = d.file && known.line = d.line with
    | true => exact .inl ⟨rfl, .inr ⟨known, rfl, hsame⟩⟩
    | false => exact .inr (.inr ⟨known, _, rfl, hsame, rfl, rfl, rfl⟩)

theorem tells_recordClass (d : ClassDecl) : Tells (recordClass d) := by
  intro r
  rcases recordClass_cases d r with ⟨h, -⟩ | ⟨-, -, h⟩ | ⟨known, w, -, -, -, -, h⟩ <;> rw [h]
  · exact .ok (refl_of Told r)
  · exact .ok ⟨_, _, _, _, rfl⟩
  · exact tells_warnOnce r

theorem tells_replay (path : String) {events : List Event} : Tells (replay path events) := by
  induction events with
  | nil => exact tells_pure
  | cons event events ih =>
    cases event with
    | classFound node => exact tells_bind (tells_recordClass _) fun _ => ih
    | unhandled e => exact tells_bind tells_hardError fun _ => ih

theorem Tells.keeps {R : Run → Run → Prop} (hx : Tells x) (hR : ∀ {r t}, Told r t → R r t) :
    KeepsTo R x := by
  intro r
  have hr := hx r
  rw [after]
  cases h : x r <;> rw [h] at hr <;> cases hr <;> exact hR ‹_›

theorem Tells.fails (hx : Tells x) {f : Failure} (h : x r = .error f t) :
    f = .drained ∨ ∃ e, f = .hard e := by
  have hr := hx r
  rw [h] at hr
  cases hr with
  | error _ why => exact why

end Tells

/-! ## Files. -/

@[grind .] theorem keeps_source : KeepsTo R (source path) := by
  unfold source
  refine keeps_get_bind fun r => ?_
  dsimp only
  split
  · exact keeps_pure r
  · split
    · exact Unread.unread _ _ _ _ _
    · exact keeps_throw r

@[grind .] theorem keeps_content : KeepsTo R (content path) := by
  unfold content
  refine keeps_bind keeps_source fun s => ?_
  split
  · exact keeps_pure
  refine keeps_get_bind fun r => ?_
  dsimp only
  split
  · exact keeps_throw r
  · exact Unread.unread _ _ _ _ _

@[grind .] theorem keeps_treeNumber {s : Source} : KeepsTo R (treeNumber s) := by
  unfold treeNumber
  split
  · exact keeps_pure
  · exact keeps_get_bind fun r => Unread.unread _ _ _ _ _

theorem keeps_modifySource {f : Source → Source} :
    KeepsTo R (modify fun r => { r with sources := r.sources.modify (r.disk.resolve path) f } :
      Audit Unit) :=
  keeps_modify fun _ => Unread.unread _ _ _ _ _

@[grind .] theorem keeps_rootOf : KeepsTo R (rootOf path) := by
  unfold rootOf
  refine keeps_bind keeps_source fun s => ?_
  split
  · exact keeps_pure
  · refine keeps_bind keeps_content fun bytes => ?_
    refine keeps_bind keeps_treeNumber fun number => ?_
    exact keeps_bind keeps_modifySource fun _ => keeps_pure

@[grind .] theorem keeps_link : KeepsTo R (link path) := keeps_modifySource

@[grind .] theorem keeps_shelve : KeepsTo R (shelve path) := by
  unfold shelve
  exact keeps_bind keeps_source fun _ => keeps_modifySource

@[grind .] theorem keeps_above {node : Cursor} : KeepsTo R (above path node) := by
  unfold above
  grind

theorem keeps_setScopes :
    KeepsTo R (modify fun r => { r with scopes := r.scopes.set path scopes } : Audit Unit) :=
  keeps_modify fun _ => Unread.unread _ _ _ _ _

@[grind .] theorem keeps_saveCached {directory : String} : Keeps (saveCached directory scopes) := by
  unfold saveCached
  refine keeps_get_bind fun r => ?_
  split
  · exact keeps_throw r
  · exact keeps_throw r
  · exact {}

@[grind .] theorem keeps_loadCached : Keeps (loadCached path) := by
  unfold loadCached
  refine keeps_bind keeps_get fun r => ?_
  split
  · exact keeps_pure
  · grind
  · grind

@[grind .] theorem keeps_evict : Keeps (evict path) := by
  unfold evict
  refine keeps_get_bind fun r => ?_
  split
  · exact keeps_pure r
  dsimp only
  split
  · exact keeps_pure r
  · next scopes _ =>
    refine steps_set_bind {} ?_
    refine keeps_bind keeps_saveCached fun _ => ?_
    exact keeps_bind (keeps_modify fun r => {}) fun _ => keeps_shelve

end Audit

namespace Record

open Audit

/-! ## Record classes. -/

theorem bare_modify {classes : Catalog ClassDecl} {f : ClassDecl → ClassDecl}
    (hf : ∀ d, (f d).bare = d.bare) : (classes.modify key f).map bare = classes.map bare :=
  Catalog.map_modify hf classes key

theorem bare_markCyclic (classes : Catalog ClassDecl) {cycle : List ClassDecl} :
    (markCyclic classes cycle).map bare = classes.map bare := by
  unfold markCyclic
  induction cycle generalizing classes with
  | nil => rfl
  | cons d cycle ih =>
    rw [List.foldl_cons, ih]
    exact bare_modify fun d => rfl

theorem bare_settle {beyond : List String} {isRecord : Bool} {chain : List ClassDecl} :
    ∀ classes : Catalog ClassDecl,
      (settle beyond isRecord chain classes).map bare = classes.map bare := by
  induction chain with
  | nil =>
    intro classes
    rfl
  | cons d chain ih =>
    intro classes
    rw [settle, ih]
    exact bare_modify fun d => rfl

theorem bare_noteChildren {declarations : List ClassDecl} :
    ∀ classes : Catalog ClassDecl,
      (noteChildren classes declarations).map bare = classes.map bare := by
  unfold noteChildren
  induction declarations with
  | nil =>
    intro classes
    rfl
  | cons d declarations ih =>
    intro classes
    rw [List.foldl_cons, ih]
    split
    · rfl
    · refine bare_modify fun p => ?_
      split <;> rfl

end Record

end QueryAudit
