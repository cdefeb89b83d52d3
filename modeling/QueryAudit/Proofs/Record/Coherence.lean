/-
  QueryAudit.Proofs.Record.Coherence — what an analysis knows about the classes of a project

  What is known stays true while classes are looked for and files are tracked: every known class is
  what a file declares, searched files hold no other class, and the definitions at hand are those
  that a pass over the file finds.

  Main results: `coherent_start`, `Run.Coherent.findClass`, `Run.Coherent.scopesOf`.
-/

import QueryAudit.Proofs.Record.Location
import QueryAudit.Proofs.Record.ParentChain
import QueryAudit.Proofs.Scope.Retracking

namespace QueryAudit.Scope.Tracker

open Audit Php Pass

variable {node : Cursor}

/-! ## What a pass reports. -/

def Reportable (nodes : List Cursor) : Event → Prop
  | .classFound node => node ∈ nodes ∧ node.kind = .classDeclaration
  | .unhandled _ => True

/-- From one state to another no class is reported but a node. -/
def Reports (node : Cursor) (t t' : Tracker) : Prop :=
  ∀ event ∈ t'.events, event ∈ t.events ∨ Reportable [node] event

instance (node : Cursor) : IsPreorder Tracker (Reports node) where
  refl _ _ := .inl
  trans _ _ _ h h' event hevent := (h' event hevent).elim (h event) .inr

theorem reports_registers (node : Cursor) :
    Registers (fun _ => True) (fun _ => True) (Reports node) where
  below _ _ _ _ := trivial
  bind _ _ _ _ _ _ := .inl
  known _ _ h := h fun _ _ _ _ _ _ => trivial

theorem reports_report (event : Event) (h : Reportable [node] event) (t : Tracker) :
    Reports node t (t.report event) := by
  intro other hother
  rcases List.mem_append.mp hother with hother | hother
  · exact .inl hother
  · exact .inr (List.mem_singleton.mp hother ▸ h)

/-- A step reports no class but the one that is entered. -/
theorem enter_events {t : Tracker} : Reports node t (t.enter node) := by
  have hopened : Reports node t (t.opened node) := by
    have hevents : (t.opened node).events = t.events :=
      opened_within (R := Same events) (fun _ _ _ _ _ _ _ => rfl) (fun _ _ => rfl)
        (fun _ _ _ => rfl) t node
    exact fun event hevent => .inl (hevents ▸ hevent)
  have hcall : KeepsTo (Reports node) (noteCall node) := by
    unfold noteCall
    refine keeps_get_bind fun t => ?_
    split <;> exact fun _ => .inl
  have hR := reports_registers node
  refine enter_of_after (fun t e => reports_report (.unhandled e) trivial t)
    (trans_of (Reports node) hopened ?_)
  exact binds_enter hR.binds trivial trivial t
    (fun hkind => reports_report (.classFound node) ⟨List.mem_cons_self, hkind⟩ (t.openClass node))
    (fun _ => registers_registerConstants hR trivial) (fun _ => hcall) (fun _ => trivial)
    fun _ _ => trivial

theorem leave_events (t : Tracker) (node : Cursor) : (t.leave node).events = t.events :=
  leave_within (R := Same events) (fun _ _ _ _ _ _ _ => rfl) (fun _ => rfl)

/-- **The classes that a pass reports are those it goes through.** -/
theorem run_events {callNames : List String} {path : String} {root : Cursor} :
    ∀ event ∈ (run callNames path root).2, Reportable root.preorder event := by
  rw [run_eq]
  refine visit_keeps (K := fun t => ∀ event ∈ t.events, Reportable root.preorder event)
    (fun c hc child => Cursor.mem_preorder_of_child hc) (fun c t hc ht event hevent => ?_)
    (fun c t _ ht => by rwa [leave_events]) root.mem_preorder_self nofun
  rcases enter_events event hevent with hevent | hnew
  · exact ht event hevent
  · cases event with
    | classFound node => exact ⟨List.mem_singleton.mp hnew.1 ▸ hc, hnew.2⟩
    | unhandled e => trivial

end QueryAudit.Scope.Tracker

namespace QueryAudit

open Audit Php Record Scope Text

variable {d path start : String} {found : List ClassDecl} {number : Nat} {node : Cursor}
  {s : Source}

/-! ## Records of classes. -/

/-- A record says about a class what its declaration says. -/
structure Record.ClassDecl.Describes (d : ClassDecl) (c : ClassAt) : Prop where
  name : d.name = c.node.nameText
  parent : d.parentName = c.node.parentName?
  file : d.file = c.file
  constants : ∀ x, (d.constants.get? x).map Cursor.node = c.node.constant? x

theorem Record.ClassDecl.Describes.key {d : ClassDecl} {c : ClassAt} (h : d.Describes c) :
    d.key = c.key := by
  rw [ClassDecl.key, h.name, ClassAt.key]

theorem describes_ofNode {file : String} :
    (ClassDecl.ofNode node file).Describes ⟨file, node.node⟩ :=
  ⟨rfl, parentName_ofNode, rfl, get?_constants_ofNode⟩

def Project.Records (p : Project) (d : ClassDecl) (c : ClassAt) : Prop :=
  c ∈ p.classLikes ∧ c.node.kind = .classDeclaration ∧ d.Describes c

namespace Project

variable {p : Project}

theorem isFile_of_mem_files (h : path ∈ p.files) : p.disk.isFile path := by
  have hscript := (Bool.and_eq_true_iff.mp (Bool.and_eq_true_iff.mp (List.mem_filter.mp h).2).1).1
  exact (Bool.and_eq_true_iff.mp hscript).1

/-- What a tree of a file of a project declares under a name is a class of the project. -/
theorem records_of_mem (hpath : path ∈ p.files)
    (hnode : node ∈ (Cursor.root number (p.disk.treeAt path)).preorder)
    (hkind : node.kind = .classDeclaration) (hname : node.nameText ≠ "") :
    p.Records (.ofNode node path) ⟨path, node.node⟩ := by
  have hmem : node.node ∈ (p.disk.treeAt path).nodes := by
    have hmap := List.mem_map_of_mem (f := Cursor.node) hnode
    rwa [Cursor.map_node_preorder] at hmap
  refine ⟨mem_classLikes.mpr ⟨hpath, hmem, ?_, hname⟩, hkind, describes_ofNode⟩
  show node.kind.isClassLike = true
  rw [hkind]
  rfl

def pass (p : Project) (path : String) (number : Nat) : FileScopes × List Event :=
  Tracker.run (callNames p.settings) path (.root number (p.disk.treeAt path))

/-- A failure that a shape in a file of the project is the reason for. -/
def Halts (p : Project) (failure : Failure) : Prop :=
  p.debug = false ∧ ∃ e, failure = .hard e
    ∧ ∃ path ∈ p.files, ∃ number, Event.unhandled e ∈ (p.pass path number).2

end Project

/-! ## Coherent states. -/

/-- What is known about a project is true, while it is searched. -/
structure Run.Consistent (r : Run) (p : Project) : Prop where
  project : r.project = p
  sound : p.disk.Sound
  rootNormal : Path.IsNormal p.root
  rootFree : p.disk.isFile p.root = false
  faithful : r.Faithful
  drained : r.diagnostics.drained = false
  spilled : r.spilled = []
  known : ∀ key d, key ≠ "" → r.classes.get? key = some d → ∃ c, p.Records d c ∧ c.key = key
  scanned : ∀ c ∈ p.classLikes, c.node.kind = .classDeclaration → c.file ∈ r.searched →
    (r.classes.get? c.key).isSome = true
  /-- The definitions that are at hand are those that a pass finds. -/
  tracked : ∀ path ∈ p.files, ∀ scopes, r.scopes.get? path = some scopes →
    ∃ number s, r.sources.get? path = some s ∧ s.Linked number ∧ scopes = (p.pass path number).1

/-- What is known about a project is true, and its directory was searched as a whole or not at all. -/
structure Run.Coherent (r : Run) (p : Project) : Prop extends r.Consistent p where
  covered : r.Covered p.root

namespace Run

variable {r t : Run} {p : Project}

theorem Consistent.disk (h : r.Consistent p) : r.disk = p.disk := congrArg Project.disk h.project

theorem Consistent.root (h : r.Consistent p) : r.root = p.root := congrArg Project.root h.project

theorem Consistent.settings (h : r.Consistent p) : r.settings = p.settings :=
  congrArg Project.settings h.project

theorem Consistent.debug (h : r.Consistent p) : r.debug = p.debug := congrArg Project.debug h.project

theorem Consistent.searchable (h : r.Consistent p) : r.Searchable :=
  ⟨h.disk ▸ h.sound.toProper, h.faithful, h.drained⟩

theorem Consistent.resolve (h : r.Consistent p) (hpath : path ∈ p.files) :
    r.disk.resolve path = path := by
  rw [h.disk]
  exact h.sound.plain path (List.mem_filter.mp hpath).1

theorem Linked.of_untouched (h : Untouched r t) (hs : r.sources.get? path = some s)
    (hlinked : s.Linked number) : t.sources.get? path = some s := by
  refine h.read path s hs ?_
  have htree := hlinked.1
  cases hs : s.tree with
  | none =>
    rw [hs] at htree
    cases htree
  | some tree => rfl

theorem Consistent.declare (h : r.Consistent p)
    (hfound : ∀ d ∈ found, d.name ≠ "" → ∃ c, p.Records d c) : (r.declare found).Consistent p where
  __ := h
  faithful := h.faithful.of_same rfl rfl
  known key d hkey hd := by
    rw [classes_declare, get?_declareAll hkey, Option.or_eq_some_iff] at hd
    rcases hd with hd | ⟨-, hd⟩
    · exact h.known key d hkey hd
    have hname : d.key = key := by simpa using List.find?_some hd
    obtain ⟨c, hc⟩ := hfound d (List.mem_of_find?_eq_some hd) fun hempty =>
      hkey (hname ▸ key_eq_empty hempty)
    exact ⟨c, hc, hc.2.2.key ▸ hname⟩
  scanned c hc hkind hfile := by
    have hkey : c.key ≠ "" := lower_ne_empty (Project.mem_classLikes.mp hc).2.2.2
    rw [classes_declare, get?_declareAll hkey, Option.isSome_or, h.scanned c hc hkind hfile]
    rfl

/-- A path is noted whose classes are known. -/
theorem Consistent.mark (h : r.Consistent p)
    (hpath : ∀ c ∈ p.classLikes, c.node.kind = .classDeclaration → c.file = path →
      (r.classes.get? c.key).isSome) : (r.mark path).Consistent p where
  __ := h
  faithful := h.faithful.of_same rfl rfl
  scanned c hc hkind hfile := by
    rcases List.mem_append.mp hfile with hfile | hfile
    · exact h.scanned c hc hkind hfile
    · exact hpath c hc hkind (List.mem_singleton.mp hfile)

theorem Consistent.same (h : r.Consistent p) (hsame : SameSearch r t) : t.Consistent p where
  project := by
    rw [← h.project, Run.project, Run.project, hsame.disk, hsame.root, hsame.settings,
      hsame.untouched.debug]
  sound := h.sound
  rootNormal := h.rootNormal
  rootFree := h.rootFree
  faithful := hsame.faithful h.faithful
  drained := hsame.drained.trans h.drained
  spilled := hsame.untouched.spilled.trans h.spilled
  known := by
    rw [hsame.classes]
    exact h.known
  scanned := by
    rw [hsame.classes, hsame.searched]
    exact h.scanned
  tracked path hpath scopes hscopes := by
    rw [hsame.untouched.scopes] at hscopes
    obtain ⟨number, s, hs, hlinked, rfl⟩ := h.tracked path hpath scopes hscopes
    exact ⟨number, s, Linked.of_untouched hsame.untouched hs hlinked, hlinked, rfl⟩

theorem Coherent.same (h : r.Coherent p) (hsame : SameSearch r t) : t.Coherent p :=
  ⟨h.toConsistent.same hsame, hsame.covered h.covered⟩

theorem Coherent.declare (h : r.Coherent p)
    (hfound : ∀ d ∈ found, d.name ≠ "" → ∃ c, p.Records d c) : (r.declare found).Coherent p :=
  ⟨h.toConsistent.declare hfound, h.covered⟩

end Run

/-! ## Looking for a class. -/

section Searching

variable {Tree File : String → Prop} {a b : Run × List Scan} {p : Project}

/-- A step of a search that enters no file as a directory and scans files of the project. -/
theorem SearchStep.consistent (h : SearchStep Tree File a b)
    (htree : ∀ d, Tree d → p.disk.isFile d = false)
    (hfile : ∀ path, File path → p.disk.isFile path → path ∈ p.files)
    (ha : a.1.Consistent p) : b.1.Consistent p := by
  have hnone : ∀ {path : String}, p.disk.isFile path = false → ∀ c ∈ p.classLikes,
      c.node.kind = .classDeclaration → c.file = path → (a.1.classes.get? c.key).isSome := by
    rintro path hpath c hc - rfl
    rw [Project.isFile_of_mem_files (Project.mem_classLikes.mp hc).1] at hpath
    cases hpath
  cases h with
  | quiet hsame => exact ha.same hsame
  | tree directory hdirectory => exact ha.mark (hnone (htree directory hdirectory))
  | @missing r scans path hpath hnew hmissing => exact ha.mark (hnone (ha.disk ▸ hmissing))
  | @file r t scans path number hpath hnew hexists hdone =>
    have hmem : path ∈ p.files := hfile path hpath (ha.disk ▸ hexists)
    have hplain := ha.resolve hmem
    have hscan : (scanOf r.disk number path).classes
        = classesIn (.root number (p.disk.treeAt path)) path := by
      show classesIn (.root number (r.disk.treeAt (r.disk.resolve path))) (r.disk.resolve path) = _
      rw [hplain, ha.disk]
    rw [hscan] at hdone
    have hrecords : ∀ d ∈ classesIn (.root number (p.disk.treeAt path)) path, d.name ≠ "" →
        ∃ c, p.Records d c := by
      intro d hd hname
      obtain ⟨node, hnode, rfl⟩ := List.mem_map.mp hd
      obtain ⟨hnode, hkind⟩ := List.mem_filter.mp hnode
      exact ⟨_, Project.records_of_mem hmem hnode (of_decide_eq_true hkind) hname⟩
    refine Run.Consistent.same ?_ hdone
    refine (ha.declare hrecords).mark ?_
    rintro c hc hkind rfl
    obtain ⟨-, hnode, -, hname⟩ := Project.mem_classLikes.mp hc
    obtain ⟨node, hpreorder, hsame⟩ : ∃ node ∈ (Cursor.root number (p.disk.treeAt c.file)).preorder,
        node.node = c.node := by
      rw [← List.mem_map, Cursor.map_node_preorder]
      exact hnode
    -- the class is one of those that were scanned
    have hscanned : ClassDecl.ofNode node c.file
        ∈ classesIn (.root number (p.disk.treeAt c.file)) c.file := by
      refine List.mem_map_of_mem (List.mem_filter.mpr ⟨hpreorder, decide_eq_true ?_⟩)
      rw [← hkind, ← hsame]
      rfl
    have hkey : (ClassDecl.ofNode node c.file).key = c.key := by
      rw [describes_ofNode.key, hsame]
    have hne : c.key ≠ "" := lower_ne_empty hname
    rw [Run.classes_declare, get?_declareAll hne, Option.isSome_or, Bool.or_eq_true]
    right
    rw [List.find?_isSome]
    exact ⟨_, hscanned, decide_eq_true hkey⟩

theorem SearchSteps.consistent (h : SearchSteps Tree File a b)
    (htree : ∀ d, Tree d → p.disk.isFile d = false)
    (hfile : ∀ path, File path → p.disk.isFile path → path ∈ p.files)
    (ha : a.1.Consistent p) : b.1.Consistent p := by
  induction h with
  | refl => exact ha
  | tail _ hlast ih => exact hlast.consistent htree hfile ih

end Searching

/-- A class is found when the project has one that goes by the name. -/
def Project.Finds (p : Project) (key : String) : Option ClassDecl → Prop
  | none => p.classOf? key = none
  | some d => ∃ c, p.classOf? key = some c ∧ d.Describes c

section Finding

variable {r : Run} {p : Project}

theorem Project.inside_of_mem_files (hr : r.Consistent p) (hpath : path ∈ p.files) :
    Path.Inside path p.root := by
  have hwithin := (Bool.and_eq_true_iff.mp
    (Bool.and_eq_true_iff.mp (List.mem_filter.mp hpath).2).1).2
  refine (Path.within_iff ?_ hr.rootNormal).mp hwithin
  have hnormal := Disk.isNormal_resolve hr.sound.absolute path
  rwa [← hr.disk, hr.resolve hpath] at hnormal

/-- Places that are searched from a file of the project on. -/
theorem Run.Consistent.isFile_place (hr : r.Consistent p) (hstart : start ∈ p.files)
    (hd : d ∈ Watched.placesFrom r.disk r.root start) : p.disk.isFile d = false := by
  rw [hr.disk, hr.root] at hd
  refine Lookup.Fits.enters hr.sound hr.rootNormal (c := .find "" start) ?_ hd
  -- nothing stands below a file
  intro path hfile hinside
  have hplain : p.disk.resolve start = start := hr.disk ▸ hr.resolve hstart
  refine Classical.byContradiction fun hne => ?_
  have hdirectory := hr.sound.above start (p.disk.resolve path) (Project.isFile_of_mem_files hstart)
    (Disk.isNormal_resolve hr.sound.absolute path) hinside hne
  have hfile' : p.disk.isFile (p.disk.resolve path) :=
    (Disk.isFile_resolve hr.sound.absolute path).trans hfile
  rw [hr.sound.apart _ hfile'] at hdirectory
  cases hdirectory

/-- Files that are scanned from a file of the project on are files of the project. -/
theorem Run.Consistent.mem_files (hr : r.Consistent p) (hstart : start ∈ p.files)
    (hd : d ∈ Watched.placesFrom r.disk r.root start)
    (hscript : path ∈ r.disk.scripts d) (hleft : r.leavesOut path = false) : path ∈ p.files := by
  have hproper := hr.sound.toProper
  have hfree := hr.isFile_place hstart hd
  rw [hr.disk, hr.root] at hd
  rw [hr.disk] at hscript
  have hisScript : p.disk.isScript path := by
    rw [Disk.scripts, hfree, if_neg Bool.false_ne_true] at hscript
    split at hscript
    · exact (List.mem_filter.mp hscript).2
    · cases hscript
  obtain ⟨hplain, hfile⟩ := (hproper.scripts d).2 path hscript
  obtain ⟨hnormal, hinside, -⟩ := Lookup.mem_placesFrom hproper hr.rootNormal hd
  have hpath : Path.IsNormal path := hplain ▸ Disk.isNormal_resolve hproper.absolute path
  have hname : path ∈ p.disk.files.names := by
    rw [Disk.isFile, Disk.file?, hplain] at hfile
    exact (Catalog.get?_isSome_iff).mp hfile
  have hwithin : Path.within path p.root := by
    refine (Path.within_iff hpath hr.rootNormal).mpr ?_
    refine (Disk.inside_of_mem_scripts hproper hscript).trans ?_
    rwa [Disk.resolve_of_isNormal hnormal]
  refine List.mem_filter.mpr ⟨hname, ?_⟩
  rw [Run.leavesOut, hr.settings, hr.root] at hleft
  rw [hisScript, hwithin, hleft]
  rfl

/-- **A class is found exactly when the project has it.** -/
theorem Run.Coherent.findClass (hr : r.Coherent p) (hapart : p.Apart)
    (hstart : start ∈ p.files) (name : String) :
    ∃ found t, Audit.findClass name start r = .ok found t ∧ t.Coherent p
      ∧ p.Finds (classKey name) found := by
  obtain ⟨found, t, scans, hrun, hsteps, hunnamed, hfound, hcovers⟩ :=
    Watched.findClass_searches [] hr.searchable name start
  have hplain := (Watched.erases_findClass name start).plain_of_ok hrun
  have ht : t.Consistent p := hsteps.consistent (fun d hd => hr.isFile_place hstart hd)
    (fun path hpath _ => by
      obtain ⟨⟨d, hd, hscript⟩, hleft⟩ := hpath
      exact hr.mem_files hstart hd hscript hleft) hr.toConsistent
  have hcovered : t.Covered p.root := by
    refine hcovers p.root ?_ hr.covered
    rw [hr.disk]
    exact hr.rootFree
  refine ⟨found, t, hplain, ⟨ht, hcovered⟩, ?_⟩
  have hnameless : ∀ c, p.classOf? (classKey name) = some c → classKey name ≠ "" := by
    intro c hc hempty
    obtain ⟨hmem, -, hkey⟩ := Project.classOf?_eq_some hc
    exact lower_ne_empty (Project.mem_classLikes.mp hmem).2.2.2 (hkey.trans hempty)
  by_cases hkey : classKey name = ""
  · rw [hunnamed hkey]
    cases hc : p.classOf? (classKey name) with
    | none => exact hc
    | some c => exact absurd hkey (hnameless c hc)
  · obtain ⟨heq, hall⟩ := hfound hkey
    cases found with
    | some d =>
      obtain ⟨c, ⟨hc, hkind, hdescribes⟩, hckey⟩ := ht.known _ d hkey heq.symm
      exact ⟨c, hckey ▸ Project.classOf?_of_mem hapart hc hkind, hdescribes⟩
    | none =>
      show p.classOf? (classKey name) = none
      cases hc : p.classOf? (classKey name) with
      | none => rfl
      | some c =>
        obtain ⟨hmem, hkind, hckey⟩ := Project.classOf?_eq_some hc
        have hfile := (Project.mem_classLikes.mp hmem).1
        -- the directory has a file in it, so it was searched, and with it that file
        have hdirectory : p.disk.isDirectory p.root := by
          have hinside := Project.inside_of_mem_files hr.toConsistent hfile
          have hown : p.disk.resolve c.file = c.file := hr.disk ▸ hr.resolve hfile
          have hexists := Project.isFile_of_mem_files hfile
          refine hr.sound.above c.file p.root hexists hr.rootNormal (hown.symm ▸ hinside) fun heq => ?_
          have hfree := hr.rootFree
          rw [heq, hown, hexists] at hfree
          cases hfree
        have hroot : p.root ∈ t.searched := by
          refine hall rfl p.root ?_
          rw [hr.disk, hr.root]
          refine Lookup.root_mem_placesFrom hr.sound.toProper hr.rootNormal hdirectory ?_
          rw [← hr.disk, hr.resolve hstart]
          exact Project.inside_of_mem_files hr.toConsistent hstart
        have hsearched : c.file ∈ t.searched := by
          obtain ⟨hname, hparts⟩ := List.mem_filter.mp hfile
          rw [Bool.and_eq_true, Bool.and_eq_true, Bool.not_eq_true'] at hparts
          refine hcovered hroot c.file ?_ ?_
          · rw [ht.disk]
            exact Disk.mem_scripts hr.sound.toProper hr.rootNormal hr.rootFree hdirectory hname
              (Project.inside_of_mem_files hr.toConsistent hfile) hparts.1.1
          · rw [Run.leavesOut, ht.settings, ht.root]
            exact hparts.2
        have hsome := ht.scanned c hmem hkind hsearched
        rw [hckey, show t.classes.get? (classKey name) = none from heq.symm] at hsome
        cases hsome

end Finding

/-! ## Steps that may halt. -/

/-- A step leaves a coherent state behind, and gives what is asked for unless a shape in a file of the
project is in its way. -/
@[irreducible]
def Yields {α : Type} (p : Project) (x : Audit α) (r : Run) (P : α → Run → Prop) : Prop :=
  match x r with
  | .ok a t => t.Coherent p ∧ P a t
  | .error failure t => t.Coherent p ∧ p.Halts failure

section Yielding

variable {α β : Type} {p : Project} {r t : Run} {x : Audit α} {a : α} {P : α → Run → Prop}

theorem yields_of_ok (h : x r = .ok a t) (ht : t.Coherent p) (hP : P a t) : Yields p x r P := by
  rw [Yields, h]
  exact ⟨ht, hP⟩

theorem yields_of_error {failure : Failure} (h : x r = .error failure t) (ht : t.Coherent p)
    (hhalts : p.Halts failure) : Yields p x r P := by
  rw [Yields, h]
  exact ⟨ht, hhalts⟩

theorem yields_pure (hr : r.Coherent p) (h : P a r) : Yields p (pure a) r P := yields_of_ok rfl hr h

theorem Yields.bind {f : α → Audit β} {Q : β → Run → Prop} (hx : Yields p x r P)
    (hf : ∀ a t, t.Coherent p → P a t → Yields p (f a) t Q) : Yields p (x >>= f) r Q := by
  rw [Yields] at hx
  cases hrun : x r with
  | ok a t =>
    rw [hrun] at hx
    have hrest := hf a t hx.1 hx.2
    rw [Yields] at hrest ⊢
    rwa [bind_of_ok hrun]
  | error failure t =>
    rw [hrun] at hx
    rw [Yields, bind_of_error hrun]
    exact hx

theorem Yields.bind_ok {f : α → Audit β} {Q : β → Run → Prop} (hx : x r = .ok a t)
    (hf : Yields p (f a) t Q) : Yields p (x >>= f) r Q := by
  rw [Yields] at hf ⊢
  rwa [bind_of_ok hx]

theorem Yields.mono {Q : α → Run → Prop} (h : Yields p x r P)
    (himp : ∀ a t, t.Coherent p → P a t → Q a t) : Yields p x r Q := by
  unfold Yields at h ⊢
  split
  · next a t hrun =>
    rw [hrun] at h
    exact ⟨h.1, himp a t h.1 h.2⟩
  · next failure t hrun =>
    rw [hrun] at h
    exact h

end Yielding

/-! ## Definitions of a file. -/

section Tracking

variable {r t : Run} {p : Project} {path : String}

/-- A shape that is not handled is passed over, or the step halts. -/
theorem Run.Coherent.hardError (hr : r.Coherent p) (hpath : path ∈ p.files) {e : HardError}
    (he : Event.unhandled e ∈ (p.pass path number).2) :
    Yields p (Audit.hardError e) r fun _ t => Untouched r t := by
  have hsame : ∀ {t : Run}, t.project = r.project → t.classes = r.classes → t.searched = r.searched →
      t.diagnostics.drained = r.diagnostics.drained → t.sources = r.sources →
      t.scopes = r.scopes → t.spilled = r.spilled → SameSearch r t :=
    fun hproject hclasses hsearched hdrained hsources hscopes hspilled =>
      ⟨congrArg Project.disk hproject, congrArg Project.settings hproject, congrArg Project.root hproject,
        hclasses, hsearched, hdrained, fun hr => hr.of_same (congrArg Project.disk hproject) hsources,
        .of_same (congrArg Project.debug hproject) hscopes hspilled hsources⟩
  cases hdebug : p.debug with
  | false =>
    refine yields_of_error (hardError_strict e (hr.debug.trans hdebug))
      (hr.same (hsame rfl rfl rfl rfl rfl rfl rfl)) ?_
    exact ⟨hdebug, e, rfl, path, hpath, number, he⟩
  | true =>
    have hrun : ∃ t, Audit.hardError e r = .ok ⟨⟩ t ∧ SameSearch r t := by
      unfold Audit.hardError
      rw [bind_of_ok run_modify, bind_of_ok run_get]
      have hpassed : (!r.debug) = false := by rw [hr.debug, hdebug]; rfl
      dsimp only
      rw [hpassed, if_neg Bool.false_ne_true, print, bind_of_ok run_modify, warn_eq]
      dsimp only
      rw [hr.drained]
      exact ⟨_, rfl, hsame rfl rfl rfl hr.drained.symm rfl rfl rfl⟩
    obtain ⟨t, hrun, ht⟩ := hrun
    exact yields_of_ok hrun (hr.same ht) ht.untouched

/-- Acting on what a pass over a file of the project reported. -/
theorem Run.Coherent.replay (hpath : path ∈ p.files) (number : Nat) (events : List Event)
    (hevents : ∀ event ∈ events, event ∈ (p.pass path number).2) :
    ∀ {r : Run}, r.Coherent p → Yields p (Audit.replay path events) r fun _ t => Untouched r t := by
  induction events with
  | nil => exact fun {r} hr => yields_pure hr (.of_same rfl rfl rfl rfl)
  | cons event events ih =>
    intro r hr
    rw [List.forall_mem_cons] at hevents
    cases event with
    | classFound node =>
      obtain ⟨hnode, hkind⟩ := Tracker.run_events _ hevents.1
      obtain ⟨t, hrun, ht⟩ := recordClass_eq hr.drained
      have hrecords : ∀ d ∈ [ClassDecl.ofNode node path], d.name ≠ "" → ∃ c, p.Records d c := by
        intro d hd hname
        rw [List.mem_singleton.mp hd] at hname ⊢
        exact ⟨_, Project.records_of_mem hpath hnode hkind hname⟩
      have hdeclared : Untouched r (r.declare [.ofNode node path]) := .of_same rfl rfl rfl rfl
      have huntouched := hdeclared.trans ht.untouched
      refine Yields.bind_ok hrun ((ih hevents.2 ((hr.declare hrecords).same ht)).mono ?_)
      exact fun _ _ _ hrest => huntouched.trans hrest
    | unhandled e =>
      refine Yields.bind (hr.hardError hpath hevents.1) fun _ t ht huntouched => ?_
      exact (ih hevents.2 ht).mono fun _ _ _ hrest => huntouched.trans hrest

/-- The tree of a file is read, and stays the one that was read before. -/
theorem Run.Coherent.rootOf (hr : r.Coherent p) (hpath : path ∈ p.files) :
    ∃ number s t, Audit.rootOf path r = .ok (.root number (p.disk.treeAt path)) t ∧ SameSearch r t
      ∧ t.sources.get? path = some s ∧ s.tree.map Prod.fst = some number := by
  have hfile : r.disk.isFile path := hr.disk ▸ Project.isFile_of_mem_files hpath
  obtain ⟨s, hs⟩ := hr.faithful.exists_known hfile
  have hroot := rootOf_eq hr.faithful path
  have hsame : r.disk.treeAt path = p.disk.treeAt path := by rw [hr.disk]
  rw [hs, hr.resolve hpath] at hroot
  rw [hsame] at hroot
  refine ⟨s.number?.getD r.nextTree, s.read r.disk path (s.number?.getD r.nextTree), _, hroot, ?_, ?_, ?_⟩
  · refine ⟨rfl, rfl, rfl, rfl, rfl, rfl, fun _ => ?_, ?_⟩
    · exact hr.faithful.set ((hr.resolve hpath ▸ hr.faithful.known hs).read _) _
    have hkept : s.tree.isSome → s.read r.disk path (s.number?.getD r.nextTree) = s := by
      intro htree
      obtain ⟨tree, htree⟩ := Option.isSome_iff_exists.mp htree
      exact Source.read_of_tree htree _ _ _
    have hset := Untouched.set hs hkept (s.nextAfter r.nextTree)
    rwa [hr.resolve hpath] at hset
  · show (r.sources.set path _).get? path = _
    rw [Catalog.get?_set, if_pos rfl]
  · exact s.tree_read r.disk path r.nextTree

/-- The nodes of a file that is not tracked get to know what is above them. -/
theorem Run.Coherent.link (hr : r.Coherent p) (hpath : path ∈ p.files)
    (hnew : r.scopes.get? path = none) :
    ({ r with sources := r.sources.modify path fun s => { s with linked := s.tree.map Prod.fst } } :
      Run).Coherent p where
  toConsistent := { hr.toConsistent with
    faithful := hr.faithful.modify fun _ hs => ⟨hs.file, hs.plain, hs.content, hs.tree, hs.shelved⟩
    tracked := fun other hother scopes hscopes => by
      have hne : other ≠ path := by
        rintro rfl
        rw [show r.scopes.get? other = some scopes from hscopes] at hnew
        cases hnew
      obtain ⟨number, s, hs, hlinked⟩ := hr.tracked other hother scopes hscopes
      refine ⟨number, s, ?_, hlinked⟩
      show (r.sources.modify path _).get? other = some s
      rw [Catalog.get?_modify, if_neg hne]
      exact hs }
  covered := hr.covered

/-- The definitions that a pass over a file finds are kept. -/
theorem Run.Coherent.setScopes (hr : r.Coherent p) (hs : r.sources.get? path = some s)
    (hlinked : s.Linked number) :
    ({ r with scopes := r.scopes.set path (p.pass path number).1 } : Run).Coherent p where
  toConsistent := { hr.toConsistent with
    tracked := fun other hother scopes hscopes => by
      rcases Catalog.get?_set_some hscopes with ⟨rfl, rfl⟩ | hscopes
      · exact ⟨number, s, hs, hlinked, rfl⟩
      · exact hr.tracked other hother scopes hscopes
    faithful := hr.faithful.of_same rfl rfl }
  covered := hr.covered

/-- What the definitions of a file come to: those that a pass over its tree finds, which is the tree
that was read before if there was one. -/
def Project.Tracks (p : Project) (path : String) (r : Run) (scopes : FileScopes) (t : Run) : Prop :=
  ∃ number s, t.sources.get? path = some s ∧ s.Linked number ∧ scopes = (p.pass path number).1
    ∧ ∀ before m, r.sources.get? path = some before → before.tree.map Prod.fst = some m → number = m

theorem Run.Coherent.track (hr : r.Coherent p) (hpath : path ∈ p.files)
    (hnew : r.scopes.get? path = none) : Yields p (Audit.track path) r (p.Tracks path r) := by
  unfold Audit.track
  rw [shown, bind_assoc]
  refine .bind_ok run_get ?_
  rw [pure_bind]
  obtain ⟨u, hlog, hu⟩ := log_searches
  refine .bind_ok hlog ?_
  obtain ⟨number, s, v, hroot, hv, hs, htree⟩ := (hr.same hu).rootOf hpath
  have hcoherent := (hr.same hu).same hv
  refine .bind_ok hroot ?_
  refine .bind_ok run_get ?_
  have hpass : Tracker.run (callNames v.settings) path (.root number (p.disk.treeAt path))
      = p.pass path number := by
    rw [hcoherent.settings]
    rfl
  rw [hpass]
  have hscopes : v.scopes.get? path = none := by
    rw [hv.untouched.scopes, hu.untouched.scopes]
    exact hnew
  have hlink := hcoherent.link hpath hscopes
  unfold Audit.link
  refine .bind_ok run_modify ?_
  rw [hcoherent.resolve hpath]
  have hsource : (v.sources.modify path fun s => { s with linked := s.tree.map Prod.fst }).get? path
      = some { s with linked := s.tree.map Prod.fst } := by
    rw [Catalog.get?_modify, if_pos rfl, hs]
    rfl
  have hlinked : Source.Linked number { s with linked := s.tree.map Prod.fst } := ⟨htree, htree⟩
  refine .bind (Run.Coherent.replay hpath number _ (fun _ h => h) hlink) fun _ t ht huntouched => ?_
  have hkept := Run.Linked.of_untouched huntouched hsource hlinked
  refine .bind_ok run_modify ?_
  refine yields_pure (ht.setScopes hkept hlinked) ?_
  refine ⟨number, _, hkept, hlinked, rfl, fun before m hbefore hm => ?_⟩
  have hstays := (hu.untouched.trans hv.untouched).read path before hbefore (by
    cases hb : before.tree with
    | none =>
      rw [hb] at hm
      cases hm
    | some tree => rfl)
  rw [hs] at hstays
  obtain rfl := Option.some.inj hstays
  rw [htree] at hm
  exact Option.some.inj hm

/-- **The definitions of a file are those that a pass over it finds.** -/
theorem Run.Coherent.scopesOf (hr : r.Coherent p) (hpath : path ∈ p.files) :
    Yields p (Audit.scopesOf path) r (p.Tracks path r) := by
  unfold Audit.scopesOf
  refine .bind_ok run_get ?_
  dsimp only
  rw [hr.resolve hpath]
  cases hscopes : r.scopes.get? path with
  | some scopes =>
    obtain ⟨number, s, hs, hlinked, rfl⟩ := hr.tracked path hpath scopes hscopes
    refine yields_pure hr ⟨number, s, hs, hlinked, rfl, fun before m hbefore hm => ?_⟩
    rw [hs] at hbefore
    obtain rfl := Option.some.inj hbefore
    rw [hlinked.1] at hm
    exact Option.some.inj hm
  | none =>
    have hfile : r.disk.isFile path := hr.disk ▸ Project.isFile_of_mem_files hpath
    obtain ⟨s, u, hsource, hu⟩ := source_searches hr.faithful hfile
    refine .bind_ok hsource ?_
    rw [hr.spilled, List.contains_nil, Bool.and_false]
    have hnew : u.scopes.get? path = none := by
      rw [hu.untouched.scopes]
      exact hscopes
    refine ((hr.same hu).track hpath hnew).mono fun scopes t _ htracks => ?_
    obtain ⟨number, s', hs', hlinked, heq, hbefore⟩ := htracks
    refine ⟨number, s', hs', hlinked, heq, fun before m hold hm => hbefore before m ?_ hm⟩
    refine hu.untouched.read path before hold ?_
    cases hb : before.tree with
    | none =>
      rw [hb] at hm
      cases hm
    | some tree => rfl

end Tracking

/-- **An analysis starts in a coherent state.** -/
theorem coherent_start {disk : Disk} (hdisk : disk.Sound) (target : String) (settings : Settings)
    (verbose debug : Bool) :
    let r := Run.start disk target settings verbose debug
    r.Coherent r.project := by
  intro r
  exact {
    project := rfl
    sound := hdisk
    rootNormal := isNormal_root_start hdisk target settings verbose debug
    rootFree := isFile_root_start hdisk target settings verbose debug
    faithful := (searchable_start hdisk target settings verbose debug).faithful
    drained := rfl
    spilled := rfl
    known := fun _ _ _ hknown => nomatch hknown
    scanned := fun _ _ _ hsearched => nomatch hsearched
    tracked := fun _ _ _ htracked => nomatch htracked
    covered := fun hsearched => nomatch hsearched }

end QueryAudit
