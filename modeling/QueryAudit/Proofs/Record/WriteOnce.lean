/-
  QueryAudit.Proofs.Record.WriteOnce — the first declaration of a class stays

  Searches and passes over scopes come upon the same declarations again and again. A class is known
  as it was first recorded, and one warning is given when it was recorded elsewhere, too.

  Main results: `recordClass_records`, `Visit.keeps_watch`, `classes_first_recorded`.
-/

import QueryAudit.Proofs.Record.Location

namespace QueryAudit

open Audit Php Record Scope Text List Watched

variable {events : List Event} {first : ClassDecl}

/-! ## Searching. -/

namespace Audit

variable {R : Run → Run → Prop} [Unread R]

variable {path : String}

theorem keeps_startSearch : KeepsTo R (startSearch path) := by
  refine keeps_get_bind fun r => ?_
  split
  · exact keeps_pure r
  · exact Unread.unread _ _ _ _ _

theorem keeps_register : KeepsTo R (register path) := by
  refine keeps_bind keeps_get fun r => keeps_bind (keeps_forIn_mem fun file _ _ => ?_) fun _ => ?_
  · exact keeps_bind keeps_source fun _ => keeps_pure
  · exact keeps_pure

theorem keeps_treeOf? : KeepsTo R (treeOf? path) := by
  refine keeps_tryCatch (keeps_map keeps_rootOf) fun failure => ?_
  split
  · refine keeps_bind (keeps_bind keeps_print fun _ => ?_) fun _ => keeps_pure
    exact keeps_modify fun _ => Unread.unread _ _ _ _ _
  · exact keeps_throw

end Audit

/-! ## What recording a class does. -/

namespace Record

/-- Whether a class is declared at more than one place, of which the first is known. -/
def isAmbiguous (recorded : List ClassDecl) (key : String) : Bool :=
  (recorded.find? (·.key = key)).any fun first =>
    recorded.any fun d => d.key = key && !(first.file = d.file && first.line = d.line)

end Record

/-- Whether a warning is that a class was declared before. -/
def Warning.aboutDuplicate (key : String) (w : Warning) : Bool :=
  w.code = "duplicate-class" && lower w.subject = key

/-- What a run knows of the classes of a name when declarations were recorded: the first of them,
with one warning if the others are not all the same. -/
structure Run.Knows (key : String) (recorded : List ClassDecl) (r : Run) : Prop where
  undrained : r.diagnostics.drained = false
  known : r.classes.get? key = recorded.find? (·.key = key)
  seen : r.diagnostics.seen.contains ("duplicate-class:" ++ key) = isAmbiguous recorded key
  warnings : r.diagnostics.warnings.countP (·.aboutDuplicate key)
    = if isAmbiguous recorded key then 1 else 0

variable {key path : String} {recorded : List ClassDecl} {r t : Run} {d : ClassDecl}

theorem find?_append_of_ne (h : d.key ≠ key) :
    (recorded ++ [d]).find? (·.key = key) = recorded.find? (·.key = key) := by
  rw [find?_append, find?_cons_of_neg (by simpa using h), find?_nil, Option.or_none]

theorem isAmbiguous_append_of_ne (h : d.key ≠ key) :
    isAmbiguous (recorded ++ [d]) key = isAmbiguous recorded key := by
  rw [isAmbiguous, isAmbiguous, find?_append_of_ne h]
  cases recorded.find? (·.key = key) with
  | none => rfl
  | some first => simp [h]

theorem isAmbiguous_append_of_new (h : recorded.find? (·.key = key) = none) :
    isAmbiguous (recorded ++ [d]) key = isAmbiguous recorded key := by
  rw [isAmbiguous, isAmbiguous, find?_append, h]
  rw [find?_eq_none] at h
  by_cases hd : d.key = key
  · rw [find?_cons_of_pos (by simpa using hd)]
    simp +contextual [h]
  · rw [find?_cons_of_neg (by simpa using hd)]
    rfl

theorem isAmbiguous_append_of_known (h : recorded.find? (·.key = d.key) = some first) :
    isAmbiguous (recorded ++ [d]) d.key
      = (isAmbiguous recorded d.key || !(first.file = d.file && first.line = d.line)) := by
  rw [isAmbiguous, isAmbiguous, find?_append, h]
  simp

namespace Run.Knows

theorem append_of_ne (h : r.Knows key recorded) (hd : d.key ≠ key) :
    r.Knows key (recorded ++ [d]) where
  undrained := h.undrained
  known := by rw [h.known, find?_append_of_ne hd]
  seen := by rw [h.seen, isAmbiguous_append_of_ne hd]
  warnings := by rw [h.warnings, isAmbiguous_append_of_ne hd]

/-- A class is known as it is known already. -/
theorem append_of_same (h : r.Knows d.key recorded) (hfirst : r.classes.get? d.key = some first)
    (hsame : (isAmbiguous recorded d.key || !(first.file = d.file && first.line = d.line))
      = isAmbiguous recorded d.key) : r.Knows d.key (recorded ++ [d]) := by
  have hfind : recorded.find? (·.key = d.key) = some first := h.known.symm.trans hfirst
  have hamb := (isAmbiguous_append_of_known hfind).trans hsame
  exact ⟨h.undrained, by rw [find?_append, hfind, hfirst]; rfl, by rw [h.seen, hamb],
    by rw [h.warnings, hamb]⟩

end Run.Knows

/-- **Recording a class once more changes nothing but the warning about it.** -/
theorem recordClass_records (hkey : key ≠ "") (d : ClassDecl) (h : r.Knows key recorded) :
    ∃ t, recordClass d r = .ok ⟨⟩ t ∧ t.Knows key (recorded ++ [d]) := by
  rcases recordClass_cases d r with ⟨hrun, hquiet⟩ | ⟨-, hnew, hrun⟩
    | ⟨first, w, hfirst, hother, hcode, hsubject, hrun⟩
  · refine ⟨r, hrun, ?_⟩
    by_cases hd : d.key = key
    · subst hd
      rcases hquiet with hname | ⟨first, hfirst, hsame⟩
      · exact absurd (key_eq_empty hname) hkey
      · exact h.append_of_same hfirst (by rw [hsame]; simp)
    · exact h.append_of_ne hd
  · refine ⟨_, hrun, ?_⟩
    by_cases hd : d.key = key
    · subst hd
      rw [h.known] at hnew
      refine ⟨h.undrained, ?_, by rw [h.seen, isAmbiguous_append_of_new hnew],
        by rw [h.warnings, isAmbiguous_append_of_new hnew]⟩
      rw [Catalog.get?_set, if_pos rfl, find?_append, hnew, find?_cons_of_pos (by simp)]
      rfl
    · exact Run.Knows.append_of_ne
        ⟨h.undrained, by rw [Catalog.get?_set, if_neg (Ne.symm hd), h.known], h.seen, h.warnings⟩ hd
  · rw [hrun, warnOnce_eq]
    split
    · next hseen =>
      refine ⟨r, rfl, ?_⟩
      by_cases hd : d.key = key
      · subst hd
        rw [h.seen] at hseen
        exact h.append_of_same hfirst (by rw [hseen]; rfl)
      · exact h.append_of_ne hd
    · next hseen =>
      dsimp only
      rw [h.undrained]
      refine ⟨_, rfl, ?_⟩
      have habout : w.aboutDuplicate key = decide (d.key = key) := by
        rw [Warning.aboutDuplicate, hcode, hsubject]
        rfl
      by_cases hd : d.key = key
      · subst hd
        have hfind := h.known.symm.trans hfirst
        have hbefore : isAmbiguous recorded d.key = false := by
          rw [← h.seen]
          exact Bool.eq_false_iff.mpr hseen
        have hafter : isAmbiguous (recorded ++ [d]) d.key = true := by
          rw [isAmbiguous_append_of_known hfind, hother]
          simp
        refine ⟨rfl, by rw [hfirst, find?_append, hfind]; rfl, ?_, ?_⟩
        · rw [hafter]
          simp
        · rw [hafter, countP_append, h.warnings, hbefore, countP_cons, habout]
          simp
      · refine Run.Knows.append_of_ne ⟨rfl, h.known, ?_, ?_⟩ hd
        · rw [← h.seen]
          simp [Ne.symm hd]
        · rw [← h.warnings, countP_append, countP_cons, habout, decide_eq_false hd]
          simp

/-! ## Steps that record nothing. -/

/-- What the recorded classes are known from stays. -/
structure SameClasses (r t : Run) : Prop where
  classes : t.classes = r.classes := by rfl
  drained : t.diagnostics.drained = r.diagnostics.drained := by rfl
  seen : t.diagnostics.seen = r.diagnostics.seen := by rfl
  warnings : ∀ key, t.diagnostics.warnings.countP (·.aboutDuplicate key)
    = r.diagnostics.warnings.countP (·.aboutDuplicate key) := by exact fun _ => rfl

instance : Unread SameClasses where
  refl _ := {}
  trans _ _ _ h h' := ⟨h'.classes.trans h.classes, h'.drained.trans h.drained,
    h'.seen.trans h.seen, fun key => (h'.warnings key).trans (h.warnings key)⟩
  unread _ _ _ _ _ := {}

theorem keeps_hardError_classes {e : HardError} : KeepsTo SameClasses (hardError e) := by
  refine keeps_bind (keeps_modify fun _ => {}) fun _ => keeps_bind keeps_get fun r => ?_
  have htold : KeepsTo SameClasses (do
      print ("Skipped: " ++ e.text)
      warn { message := "unhandled shape skipped: " ++ e.message, file := e.file, line := e.line
             nodeType := e.nodeType }) := by
    refine keeps_bind keeps_print fun _ r => ?_
    rw [Audit.after, warn_eq]
    cases r.diagnostics.drained with
    | true => exact refl_of SameClasses r
    | false => exact { warnings := fun key => by simp [Warning.aboutDuplicate] }
  split
  · exact keeps_bind keeps_throw fun _ => htold
  · exact htold

theorem SameClasses.knows (h : SameClasses r t) (hr : r.Knows key recorded) :
    t.Knows key recorded where
  undrained := h.drained.trans hr.undrained
  known := by rw [h.classes, hr.known]
  seen := by rw [h.seen, hr.seen]
  warnings := by rw [h.warnings, hr.warnings]

/-! ## Watched passes. -/

namespace Watched

def recordClass (d : ClassDecl) : Step Scan Unit := do
  note ⟨d.file, [d]⟩
  plain (Audit.recordClass d)

def replay (path : String) : List Event → Step Scan Unit
  | [] => return
  | .classFound node :: rest => do
    recordClass (.ofNode node path)
    replay path rest
  | .unhandled e :: rest => do
    plain (hardError e)
    replay path rest

/-- Find the scopes of a file. The classes that are met are noted. -/
def track (path : String) : Step Scan FileScopes := do
  let view ← plain (shown path)
  plain (log ("tracking scopes in " ++ view))
  let root ← plain (rootOf path)
  let (scopes, events) := Tracker.run (callNames (← plain get).settings) path root
  plain (link path)
  replay path events
  plain (modify fun r => { r with scopes := r.scopes.set path scopes })
  return scopes

theorem erases_replay : Erases (replay path events) (Audit.replay path events) := by
  induction events with
  | nil => exact erases_return
  | cons event events ih =>
    cases event with
    | classFound node =>
      exact erases_bind (erases_note_bind (erases_plain _)) fun _ => ih
    | unhandled e => exact erases_bind (erases_plain _) fun _ => ih

theorem erases_track : Erases (track path) (Audit.track path) := by
  refine erases_bind (erases_plain _) fun view => erases_bind (erases_plain _) fun _ => ?_
  refine erases_bind (erases_plain _) fun root => ?_
  refine erases_bind (erases_plain _) fun r => erases_bind (erases_plain _) fun _ => ?_
  refine erases_bind erases_replay fun _ => ?_
  exact erases_bind (erases_plain _) fun _ => erases_return

end Watched

/-! ## What is known over a run. -/

/-- What a watched run knows of the classes of a name is what is noted. -/
def Watched.Known (key : String) (state : Run × List Scan) : Prop :=
  state.1.Knows key (state.2.flatMap Scan.classes)

def Watched.StaysKnown (key : String) (a b : Run × List Scan) : Prop := Known key a → Known key b

instance : IsPreorder (Run × List Scan) (StaysKnown key) where
  refl _ := id
  trans _ _ _ h h' := h' ∘ h

namespace Watched

variable {α : Type}

theorem keeps_plain {x : Audit α} (hx : KeepsTo SameClasses x) :
    KeepsTo (StaysKnown key) (plain x) := by
  rintro ⟨r, scans⟩ hr
  have hafter : Audit.after (plain x) (r, scans) = (Audit.after x r, scans) := by
    rw [Audit.after, Audit.after, plain]
    cases x r <;> rfl
  rw [hafter]
  exact (hx r).knows hr

/-- Noting declarations and recording them keeps what is known in step with the notes. -/
theorem keeps_noted {x : Audit Unit} {scan : Scan}
    (hx : ∀ {recorded : List ClassDecl} {r : Run}, r.Knows key recorded →
      ∃ t, x r = .ok ⟨⟩ t ∧ t.Knows key (recorded ++ scan.classes)) :
    KeepsTo (StaysKnown key) (do note scan; plain x) := by
  rintro ⟨r, scans⟩ hr
  obtain ⟨t, ht, hknows⟩ := hx hr
  have hrun : (do note scan; plain x : Step Scan Unit) (r, scans)
      = .ok ⟨⟩ (t, scans ++ [scan]) := by
    show withNotes _ (x r) = _
    rw [ht]
    rfl
  rw [after_of_ok hrun]
  simpa [Known] using hknows

variable (hkey : key ≠ "")
include hkey

theorem keeps_scanFile : KeepsTo (StaysKnown key) (scanFile path) := by
  refine keeps_bind (keeps_plain keeps_startSearch) fun new => ?_
  split
  · exact keeps_pure
  refine keeps_bind (keeps_plain keeps_source) fun _ => ?_
  refine keeps_bind (keeps_plain keeps_treeOf?) fun root => ?_
  cases root with
  | none => exact keeps_pure
  | some root =>
    refine keeps_bind (keeps_plain keeps_get) fun r => ?_
    exact keeps_noted (declareClasses_run (recordClass_records hkey) _ root.preorder)

theorem keeps_scanFiles {files : List String} : KeepsTo (StaysKnown key) (scanFiles files) := by
  induction files with
  | nil => exact keeps_pure
  | cons path files ih =>
    refine keeps_bind (keeps_plain keeps_shown) fun view => ?_
    refine keeps_bind (keeps_plain keeps_get) fun r => ?_
    split
    · exact keeps_bind (keeps_scanFile hkey) fun _ => ih
    · exact ih

theorem keeps_scanTree {directory : String} : KeepsTo (StaysKnown key) (scanTree directory) := by
  refine keeps_bind (keeps_plain keeps_startSearch) fun new => ?_
  split
  · exact keeps_pure
  · refine keeps_bind (keeps_plain keeps_register) fun files => ?_
    exact keeps_scanFiles hkey

theorem keeps_searchUpward {sought : String} {directories : List String} :
    KeepsTo (StaysKnown key) (searchUpward sought directories) := by
  induction directories with
  | nil => exact keeps_pure
  | cons directory directories ih =>
    refine keeps_bind (keeps_scanTree hkey) fun _ => ?_
    refine keeps_bind (keeps_plain keeps_get) fun r => ?_
    cases r.classes.get? sought with
    | some found => exact keeps_pure
    | none => exact ih

theorem keeps_findClass {name start : String} :
    KeepsTo (StaysKnown key) (findClass name start) := by
  unfold findClass
  dsimp only
  split
  · exact keeps_pure
  refine keeps_bind (keeps_plain keeps_get) fun r => ?_
  split
  · exact keeps_pure
  refine keeps_bind (keeps_searchUpward hkey) fun found => ?_
  cases found with
  | some found => exact keeps_pure
  | none =>
    refine keeps_bind (keeps_plain (keeps_bind keeps_shown fun _ => ?_)) fun _ => keeps_pure
    exact keeps_log

theorem keeps_replay : KeepsTo (StaysKnown key) (replay path events) := by
  induction events with
  | nil => exact keeps_pure
  | cons event events ih =>
    cases event with
    | classFound node =>
      exact keeps_bind (keeps_noted (recordClass_records hkey _)) fun _ => ih
    | unhandled e => exact keeps_bind (keeps_plain keeps_hardError_classes) fun _ => ih

theorem keeps_track (path : String) : KeepsTo (StaysKnown key) (track path) := by
  refine keeps_bind (keeps_plain keeps_shown) fun view => ?_
  refine keeps_bind (keeps_plain keeps_log) fun _ => ?_
  refine keeps_bind (keeps_plain keeps_rootOf) fun root => ?_
  refine keeps_bind (keeps_plain keeps_get) fun r => ?_
  refine keeps_bind (keeps_plain keeps_link) fun _ => ?_
  refine keeps_bind (keeps_replay hkey) fun _ => ?_
  exact keeps_bind (keeps_plain keeps_setScopes) fun _ => keeps_pure

end Watched

/-! ## Searches and passes. -/

/-- A search for classes, or a pass over the scopes of a file. -/
inductive Visit where
  | search (c : Lookup)
  | pass (path : String)

namespace Visit

def run : Visit → Audit Unit
  | search c => c.run
  | pass path => do
    let _ ← track path
    return

def watch : Visit → Step Scan Unit
  | search c => c.watch
  | pass path => do
    let _ ← Watched.track path
    return

def runAll (visits : List Visit) (r : Run) : Run :=
  visits.foldl (fun r v => Audit.after v.run r) r

def watchAll (visits : List Visit) (state : Run × List Scan) : Run × List Scan :=
  visits.foldl (fun state v => Audit.after v.watch state) state

theorem erases_watch (v : Visit) : Erases v.watch v.run := by
  cases v with
  | search c => exact c.erases_watch
  | pass path => exact erases_bind (Watched.erases_track) fun _ => erases_return

theorem keeps_watch (hkey : key ≠ "") {v : Visit} : KeepsTo (StaysKnown key) v.watch := by
  cases v with
  | search c =>
    cases c with
    | find name start => exact keeps_bind (keeps_findClass hkey) fun _ => keeps_pure
    | scanTree directory => exact keeps_scanTree hkey
    | scanFile path => exact keeps_scanFile hkey
  | pass path => exact keeps_bind (Watched.keeps_track hkey path) fun _ => keeps_pure

theorem known_watchAll (hkey : key ≠ "") (visits : List Visit) :
    ∀ {state : Run × List Scan}, Known key state → Known key (watchAll visits state) := by
  induction visits with
  | nil => exact id
  | cons v visits ih => exact fun h => ih (keeps_watch hkey _ h)

/-- **A class is known as it was first recorded under its name, whatever is searched and tracked, and
one warning is given if it was recorded with another file or line.** -/
theorem classes_first_recorded (disk : Disk) (target : String) (settings : Settings)
    (verbose debug : Bool) (visits more : List Visit) (key : String) (hkey : key ≠ "") :
    let start := Run.start disk target settings verbose debug
    let r := runAll visits start
    let recorded := (watchAll visits (start, [])).2.flatMap Scan.classes
    (watchAll visits (start, [])).1 = r
      ∧ r.classes.get? key = recorded.find? (·.key = key)
      ∧ r.diagnostics.warnings.countP (·.aboutDuplicate key)
        = (if isAmbiguous recorded key then 1 else 0)
      ∧ ∀ d, r.classes.get? key = some d → (runAll more r).classes.get? key = some d := by
  intro start r recorded
  have hstart : Known key (start, []) := ⟨rfl, rfl, rfl, rfl⟩
  have hknown := known_watchAll hkey visits hstart
  obtain ⟨scans, hvisits⟩ := exists_foldl_after erases_watch visits start []
  obtain ⟨others, hmore⟩ := exists_foldl_after erases_watch more r scans
  have hwatch : watchAll visits (start, []) = (r, scans) := hvisits
  have hlater := known_watchAll hkey more hknown
  have hrecorded : recorded = scans.flatMap Scan.classes :=
    congrArg (fun state => state.2.flatMap Scan.classes) hwatch
  rw [hwatch] at hknown hlater
  rw [hrecorded]
  refine ⟨congrArg Prod.fst hwatch, hknown.known, hknown.warnings, fun d hd => ?_⟩
  -- What is recorded later comes after what was recorded.
  have hfound := hknown.known.symm.trans hd
  have hall := hlater.known
  rw [watchAll, hmore, flatMap_append, find?_append, hfound] at hall
  exact hall

end Visit

/-- A file that declares a class on two lines. -/
def twiceDeclared : Disk :=
  Disk.write { base := "/w" } "/w/a.php" "<?php class A \x7b\x7d\nclass A \x7b\x7d".toUTF8

theorem classes_first_recorded_twice :
    let start := Run.start twiceDeclared "/w" {} false false
    let visits := [.pass "/w/a.php", .search (.find "A" "/w/a.php"), .search (.scanTree "/w"), .pass "/w/a.php"]
    "a" ≠ "" ∧ isAmbiguous ((Visit.watchAll visits (start, [])).2.flatMap Scan.classes) "a" = true
      ∧ (Visit.runAll visits start).diagnostics.warnings.countP (·.aboutDuplicate "a") = 1 := by
  intro start visits
  have hambiguous : isAmbiguous ((Visit.watchAll visits (start, [])).2.flatMap Scan.classes) "a" = true := by
    decide +kernel
  have hwarned := (Visit.classes_first_recorded twiceDeclared "/w" {} false false visits [] "a" (by decide)).2.2.1
  rw [if_pos hambiguous] at hwarned
  exact ⟨by decide, hambiguous, hwarned⟩

end QueryAudit
