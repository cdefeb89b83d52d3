/-
  QueryAudit.Proofs.Record.Searching — what searching for classes does

  Every search comes to a sequence of steps: a directory is noted, a path that is no file is noted,
  or a file is noted and scanned. The watched search lists the files that are scanned.

  Main results: `erases_findClass`, `scanFile_searches`, `scanTree_searches`, `findClass_searches`.
-/

import QueryAudit.Proofs.Audit.Sources
import QueryAudit.Proofs.Audit.Watching

namespace QueryAudit

open Audit Php Record Text List

variable {d : ClassDecl} {key path : String} {r s t : Run}

variable {directory : String} {files directories : List String} {ν α : Type}

/-! ## Declarations. -/

namespace Record

variable {found : List ClassDecl} {classes : Catalog ClassDecl}

/-- The classes that are declared in a tree of a file, in order. -/
def classesIn (root : Cursor) (path : String) : List ClassDecl :=
  (root.preorder.filter (·.kind = .classDeclaration)).map (ClassDecl.ofNode · path)

/-- Declare a class. The first declaration of a name stays, and a class without a name is passed
over. -/
def declare (classes : Catalog ClassDecl) (d : ClassDecl) : Catalog ClassDecl :=
  if d.name = "" then classes else classes.setDefault d.key d

def declareAll (classes : Catalog ClassDecl) (found : List ClassDecl) : Catalog ClassDecl :=
  found.foldl declare classes

theorem declareAll_append {more : List ClassDecl} :
    declareAll classes (found ++ more) = declareAll (declareAll classes found) more :=
  foldl_append

theorem key_eq_empty (h : d.name = "") : d.key = "" := by
  rw [ClassDecl.key, h]
  decide

theorem get?_declare (hkey : key ≠ "") (classes : Catalog ClassDecl) (d : ClassDecl) :
    (declare classes d).get? key = (classes.get? key).or (if d.key = key then some d else none) := by
  rw [declare]
  split
  · next hname =>
    rw [key_eq_empty hname, if_neg (Ne.symm hkey), Option.or_none]
  rw [Catalog.get?_setDefault]
  by_cases heq : key = d.key
  · subst heq
    cases classes.get? d.key <;> simp
  · rw [if_neg heq, if_neg (Ne.symm heq), Option.or_none]

theorem declare_of_known {known : ClassDecl} (h : classes.get? d.key = some known) :
    declare classes d = classes := by
  rw [declare, Catalog.setDefault, Catalog.contains, h]
  exact ite_self _

theorem get?_declareAll (hkey : key ≠ "") (found : List ClassDecl) :
    ∀ classes : Catalog ClassDecl, (declareAll classes found).get? key
      = (classes.get? key).or (found.find? (·.key = key)) := by
  induction found with
  | nil => exact fun classes => (Option.or_none).symm
  | cons d found ih =>
    intro classes
    change (declareAll (declare classes d) found).get? key = _
    rw [ih, get?_declare hkey, find?_cons]
    by_cases heq : d.key = key <;> simp [heq]

/-- What is known after declaring classes was known before, or is one of them. -/
theorem mem_declareAll :
    ∀ {classes : Catalog ClassDecl}, d ∈ (declareAll classes found).values →
      d ∈ classes.values ∨ d ∈ found := by
  induction found with
  | nil => exact fun h => .inl h
  | cons first found ih =>
    intro classes h
    rcases ih h with h | h
    · rw [declare] at h
      split at h
      · exact .inl h
      rw [Catalog.setDefault] at h
      split at h
      · exact .inl h
      obtain ⟨entry, hentry, rfl⟩ := mem_map.mp h
      rcases Catalog.mem_entries_setIn hentry with rfl | hentry
      · exact .inr mem_cons_self
      · exact .inl (mem_map_of_mem hentry)
    · exact .inr (mem_cons_of_mem _ h)

end Record

/-! ## Steps of a search. -/

/-- A file that was scanned, with the classes that are declared in it. -/
structure Scan where
  path : String
  classes : List ClassDecl

def Run.leavesOut (r : Run) (path : String) : Bool :=
  r.settings.excludes (Path.shownFrom r.root path)

/-- Once a directory was searched, all its files were, but for those that are passed over. -/
def Run.Covered (r : Run) (directory : String) : Prop :=
  directory ∈ r.searched →
    ∀ path ∈ r.disk.scripts directory, r.leavesOut path = false → path ∈ r.searched

def Run.mark (r : Run) (path : String) : Run := { r with searched := r.searched ++ [path] }

def Run.declare (r : Run) (found : List ClassDecl) : Run :=
  { r with classes := declareAll r.classes found }

theorem Run.classes_mark (r : Run) (path : String) : (r.mark path).classes = r.classes := rfl

theorem Run.classes_declare (r : Run) (found : List ClassDecl) :
    (r.declare found).classes = declareAll r.classes found := rfl

/-- Definitions stay as they are, and so does what is known about files whose trees were read. -/
structure Untouched (r t : Run) : Prop where
  debug : t.debug = r.debug
  scopes : t.scopes = r.scopes
  spilled : t.spilled = r.spilled
  read : ∀ path s, r.sources.get? path = some s → s.tree.isSome = true → t.sources.get? path = some s

theorem Untouched.trans (h : Untouched r s) (h' : Untouched s t) : Untouched r t :=
  ⟨h'.debug.trans h.debug, h'.scopes.trans h.scopes, h'.spilled.trans h.spilled,
    fun path source hsource htree => h'.read path source (h.read path source hsource htree) htree⟩

theorem Untouched.of_same (hdebug : t.debug = r.debug) (hscopes : t.scopes = r.scopes)
    (hspilled : t.spilled = r.spilled) (hsources : t.sources = r.sources) : Untouched r t :=
  ⟨hdebug, hscopes, hspilled, fun _ _ hsource _ => hsources ▸ hsource⟩

/-- More becomes known about a file, unless its tree was read. -/
theorem Untouched.set {s s' : Source} (hs : r.known? path = some s)
    (hkept : s.tree.isSome = true → s' = s) (nextTree : Nat) :
    Untouched r { r with
      sources := r.sources.set (r.disk.resolve path) s', nextTree := nextTree } := by
  refine ⟨rfl, rfl, rfl, fun other o ho htree => ?_⟩
  show (r.sources.set (r.disk.resolve path) s').get? other = some o
  rw [Catalog.get?_set]
  split
  · next heq =>
    rw [Run.known?, ← heq, ho] at hs
    obtain rfl := Option.some.inj hs
    rw [hkept htree]
  · exact ho

/-- Between two states nothing changed that a search depends on: what is known about files is still
what the file tree has. -/
structure SameSearch (r t : Run) : Prop where
  disk : t.disk = r.disk
  settings : t.settings = r.settings
  root : t.root = r.root
  classes : t.classes = r.classes
  searched : t.searched = r.searched
  drained : t.diagnostics.drained = r.diagnostics.drained
  faithful : r.Faithful → t.Faithful
  untouched : Untouched r t

theorem SameSearch.refl (r : Run) : SameSearch r r :=
  ⟨rfl, rfl, rfl, rfl, rfl, rfl, id, .of_same rfl rfl rfl rfl⟩

theorem SameSearch.trans (h : SameSearch r s) (h' : SameSearch s t) : SameSearch r t :=
  ⟨h'.disk.trans h.disk, h'.settings.trans h.settings, h'.root.trans h.root,
    h'.classes.trans h.classes, h'.searched.trans h.searched, h'.drained.trans h.drained,
    fun hr => h'.faithful (h.faithful hr), h.untouched.trans h'.untouched⟩

theorem SameSearch.declare (h : SameSearch r t) (found : List ClassDecl) :
    SameSearch (r.declare found) (t.declare found) :=
  ⟨h.disk, h.settings, h.root, congrArg (declareAll · found) h.classes, h.searched, h.drained,
    fun hr => (h.faithful (hr.of_same rfl rfl)).of_same rfl rfl,
    h.untouched.debug, h.untouched.scopes, h.untouched.spilled, h.untouched.read⟩

theorem SameSearch.covered (h : SameSearch r t) (hr : r.Covered directory) :
    t.Covered directory := by
  unfold Run.Covered Run.leavesOut
  rw [h.searched, h.disk, h.settings, h.root]
  exact hr

def scanOf (disk : Disk) (number : Nat) (path : String) : Scan where
  path := disk.resolve path
  classes := classesIn (.root number (disk.treeAt (disk.resolve path))) (disk.resolve path)

/-- One step of a search: `Tree` are the directories that are searched, `File` the paths that are
scanned. -/
inductive SearchStep (Tree File : String → Prop) : Run × List Scan → Run × List Scan → Prop where
  | quiet {r t : Run} {scans : List Scan} (h : SameSearch r t) :
      SearchStep Tree File (r, scans) (t, scans)
  | tree {r : Run} {scans : List Scan} (directory : String) (h : Tree directory)
      (hnew : directory ∉ r.searched) : SearchStep Tree File (r, scans) (r.mark directory, scans)
  | missing {r : Run} {scans : List Scan} (path : String) (h : File path)
      (hnew : path ∉ r.searched) (hfile : r.disk.isFile path = false) :
      SearchStep Tree File (r, scans) (r.mark path, scans)
  | file {r t : Run} {scans : List Scan} (path : String) (number : Nat) (h : File path)
      (hnew : path ∉ r.searched) (hfile : r.disk.isFile path = true)
      (hdone : SameSearch ((r.mark path).declare (scanOf r.disk number path).classes) t) :
      SearchStep Tree File (r, scans) (t, scans ++ [scanOf r.disk number path])

abbrev SearchSteps (Tree File : String → Prop) : Run × List Scan → Run × List Scan → Prop :=
  Relation.ReflTransGen (SearchStep Tree File)

section Steps

variable {Tree File Tree' File' : String → Prop} {a b : Run × List Scan}

theorem SearchStep.mono (htree : ∀ d, Tree d → Tree' d) (hfile : ∀ p, File p → File' p)
    (h : SearchStep Tree File a b) : SearchStep Tree' File' a b := by
  cases h with
  | quiet h => exact .quiet h
  | tree directory h hnew => exact .tree directory (htree _ h) hnew
  | missing path h hnew hmissing => exact .missing path (hfile _ h) hnew hmissing
  | file path number h hnew hexists hdone => exact .file path number (hfile _ h) hnew hexists hdone

theorem SearchSteps.mono (htree : ∀ d, Tree d → Tree' d) (hfile : ∀ p, File p → File' p)
    (h : SearchSteps Tree File a b) : SearchSteps Tree' File' a b := by
  induction h with
  | refl => exact .refl
  | tail _ hlast ih => exact .tail ih (hlast.mono htree hfile)

/-- A state in which searching goes through: what is known about files is what the file tree has, and
findings are open. -/
structure Run.Searchable (r : Run) : Prop where
  proper : r.disk.Proper
  faithful : r.Faithful
  drained : r.diagnostics.drained = false

theorem SameSearch.searchable (h : SameSearch r t) (hr : r.Searchable) : t.Searchable :=
  ⟨h.disk ▸ hr.proper, h.faithful hr.faithful, h.drained.trans hr.drained⟩

theorem Run.Searchable.mark (h : r.Searchable) (path : String) :
    (r.mark path).Searchable := ⟨h.proper, h.faithful.of_same rfl rfl, h.drained⟩

theorem Run.Searchable.declare (h : r.Searchable) (found : List ClassDecl) :
    (r.declare found).Searchable := ⟨h.proper, h.faithful.of_same rfl rfl, h.drained⟩

/-- What a step of a search leaves as it is. -/
structure Kept (r t : Run) : Prop where
  disk : t.disk = r.disk
  settings : t.settings = r.settings
  root : t.root = r.root
  searchable : t.Searchable
  searched : ∀ path ∈ r.searched, path ∈ t.searched
  untouched : Untouched r t

theorem SearchStep.kept (h : SearchStep Tree File a b) (hr : a.1.Searchable) : Kept a.1 b.1 := by
  cases h with
  | quiet h =>
    exact ⟨h.disk, h.settings, h.root, h.searchable hr, fun path hpath => h.searched ▸ hpath,
      h.untouched⟩
  | tree directory =>
    exact ⟨rfl, rfl, rfl, hr.mark _, fun _ => mem_append_left _, .of_same rfl rfl rfl rfl⟩
  | missing path =>
    exact ⟨rfl, rfl, rfl, hr.mark _, fun _ => mem_append_left _, .of_same rfl rfl rfl rfl⟩
  | @file r t scans path number _ _ _ hdone =>
    generalize (scanOf r.disk number path).classes = found at hdone
    have hbefore : Untouched r ((r.mark path).declare found) := .of_same rfl rfl rfl rfl
    refine ⟨hdone.disk, hdone.settings, hdone.root, hdone.searchable ((hr.mark _).declare _), ?_,
      hbefore.trans hdone.untouched⟩
    intro other hother
    rw [hdone.searched]
    exact mem_append_left _ hother

theorem SearchSteps.kept (h : SearchSteps Tree File a b) (hr : a.1.Searchable) : Kept a.1 b.1 := by
  induction h with
  | refl => exact ⟨rfl, rfl, rfl, hr, fun _ => id, .of_same rfl rfl rfl rfl⟩
  | tail _ hlast ih =>
    have hnext := hlast.kept ih.searchable
    exact ⟨hnext.disk.trans ih.disk, hnext.settings.trans ih.settings, hnext.root.trans ih.root,
      hnext.searchable, fun path hpath => hnext.searched path (ih.searched path hpath),
      ih.untouched.trans hnext.untouched⟩

/-- What is searched afterwards was searched before, or is one of the directories and paths. -/
theorem SearchSteps.searched (h : SearchSteps Tree File a b) :
    ∀ path ∈ b.1.searched, path ∈ a.1.searched ∨ Tree path ∨ File path := by
  induction h with
  | refl => exact fun _ hpath => .inl hpath
  | tail _ hlast ih =>
    intro path hpath
    cases hlast with
    | quiet h =>
      rw [h.searched] at hpath
      exact ih path hpath
    | tree directory hd _ =>
      rcases mem_append.mp hpath with hpath | hpath
      · exact ih path hpath
      · exact .inr (.inl (mem_singleton.mp hpath ▸ hd))
    | missing other hf _ _ =>
      rcases mem_append.mp hpath with hpath | hpath
      · exact ih path hpath
      · exact .inr (.inr (mem_singleton.mp hpath ▸ hf))
    | file other number hf _ _ hdone =>
      rw [hdone.searched] at hpath
      rcases mem_append.mp hpath with hpath | hpath
      · exact ih path hpath
      · exact .inr (.inr (mem_singleton.mp hpath ▸ hf))

end Steps

/-! ## Watched searches. -/

namespace Audit

def treeOf? (path : String) : Audit (Option Cursor) :=
  tryCatch (some <$> rootOf path) fun failure =>
    if failure.isMissingFile then do
      skipFile path failure
      pure none
    else throw failure

def declareClasses (path : String) (nodes : List Cursor) : Audit Unit := do
  for node in nodes do
    if node.kind = .classDeclaration then recordClass (.ofNode node path)

theorem scanFile_eq : scanFile path = (do
    if !(← startSearch path) then return
    let _ ← source path
    match ← treeOf? path with
    | none => return
    | some root => declareClasses ((← get).disk.resolve path) root.preorder) := rfl

end Audit

namespace Watched

def scanFile (path : String) : Step Scan Unit := do
  if !(← plain (startSearch path)) then return
  let _ ← plain (source path)
  match ← plain (treeOf? path) with
  | none => return
  | some root =>
    let place := (← plain get).disk.resolve path
    note ⟨place, classesIn root place⟩
    plain (declareClasses place root.preorder)

def scanFiles : List String → Step Scan Unit
  | [] => return
  | path :: rest => do
    let view ← plain (shown path)
    if !(← plain get).settings.excludes view then scanFile path
    scanFiles rest

/-- Know the classes of all files below a directory that are not left out. -/
def scanTree (directory : String) : Step Scan Unit := do
  if !(← plain (startSearch directory)) then return
  let files ← plain (register directory)
  scanFiles files

/-- Search directories one after another until a class is known. -/
def searchUpward (key : String) : List String → Step Scan (Option ClassDecl)
  | [] => return none
  | directory :: rest => do
    scanTree directory
    match (← plain get).classes.get? key with
    | some found => return some found
    | none => searchUpward key rest

/-- The directories in which a class is looked for from a file on. -/
def placesFrom (disk : Disk) (root start : String) : List String :=
  let place := disk.resolve start
  let directory := if disk.isDirectory place then place else Path.parent place
  (Path.upward directory).takeWhile (Path.within · root)

def findClass (name start : String) : Step Scan (Option ClassDecl) := do
  let key := lower (shortClassName name)
  if key = "" then return none
  let r ← plain get
  match r.classes.get? key with
  | some found => return some found
  | none =>
    match ← searchUpward key (placesFrom r.disk r.root start) with
    | some found => return some found
    | none =>
      plain (do log ("class " ++ name ++ " not found from " ++ (← shown start)))
      return none

theorem erases_return {a : α} : Erases (pure a : Step ν α) (pure a : Audit α) :=
  erases_plain (pure a)

theorem erases_scanFile : Erases (scanFile path) (Audit.scanFile path) := by
  refine erases_bind (erases_plain _) fun new => ?_
  split
  · exact erases_return
  refine erases_bind (erases_plain _) fun _ => erases_bind (erases_plain _) fun root => ?_
  cases root with
  | none => exact erases_return
  | some root =>
    exact erases_bind (erases_plain _) fun r => erases_note_bind (erases_plain _)

theorem erases_scanFiles : Erases (scanFiles files) (do
    for path in files do
      let view ← shown path
      if !(← get).settings.excludes view then Audit.scanFile path) := by
  induction files with
  | nil => exact erases_return
  | cons path files ih =>
    rw [forIn_cons]
    simp only [bind_assoc]
    refine erases_bind (erases_plain _) fun view => erases_bind (erases_plain _) fun r => ?_
    split
    · simp only [bind_assoc]
      exact erases_bind erases_scanFile fun _ => ih
    · simp only [pure_bind]
      exact ih

theorem erases_scanTree : Erases (scanTree directory) (Audit.scanTree directory) := by
  refine erases_bind (erases_plain _) fun new => ?_
  split
  · exact erases_return
  · exact erases_bind (erases_plain _) fun files => erases_scanFiles

theorem erases_searchUpward :
    Erases (searchUpward key directories) (Audit.searchUpward key directories) := by
  induction directories with
  | nil => exact erases_return
  | cons directory directories ih =>
    refine erases_bind erases_scanTree fun _ => erases_bind (erases_plain _) fun r => ?_
    cases r.classes.get? key with
    | some found => exact erases_return
    | none => exact ih

/-- **Watching a search changes nothing about it.** -/
theorem erases_findClass (name start : String) :
    Erases (findClass name start) (Audit.findClass name start) := by
  unfold findClass Audit.findClass
  by_cases hkey : lower (shortClassName name) = ""
  · rw [if_pos hkey, if_pos hkey]
    exact erases_return
  rw [if_neg hkey, if_neg hkey]
  refine erases_bind (erases_plain _) fun r => ?_
  cases r.classes.get? (lower (shortClassName name)) with
  | some found => exact erases_return
  | none =>
    refine erases_bind erases_searchUpward fun found => ?_
    cases found with
    | some found => exact erases_return
    | none =>
      exact erases_bind (erases_plain _) fun _ => erases_return

end Watched

/-! ## What searches come to. -/

namespace Audit

variable {r : Run}

/-- Recording a class declares it. -/
theorem recordClass_eq (h : r.diagnostics.drained = false) :
    ∃ t, recordClass d r = .ok ⟨⟩ t ∧ SameSearch (r.declare [d]) t := by
  have hdeclares : ∃ t, recordClass d r = .ok ⟨⟩ t ∧ t.classes = Record.declare r.classes d
      ∧ t.diagnostics.drained = false := by
    rcases recordClass_cases d r with ⟨hrun, hquiet⟩ | ⟨hname, hnew, hrun⟩
      | ⟨known, w, hknown, -, -, -, hrun⟩
    · refine ⟨r, hrun, ?_, h⟩
      rcases hquiet with hname | ⟨known, hknown, -⟩
      · exact (if_pos hname).symm
      · exact (declare_of_known hknown).symm
    · refine ⟨_, hrun, ?_, h⟩
      rw [Record.declare, if_neg hname, Catalog.setDefault, Catalog.contains, hnew]
      rfl
    · rw [hrun, warnOnce_eq]
      split
      · exact ⟨r, rfl, (declare_of_known hknown).symm, h⟩
      dsimp only
      rw [h]
      exact ⟨_, rfl, (declare_of_known hknown).symm, rfl⟩
  obtain ⟨t, ht, hclasses, hdrained⟩ := hdeclares
  have htells := tells_recordClass d r
  rw [ht] at htells
  cases htells with
  | ok told =>
    obtain ⟨_, _, _, _, rfl⟩ := told
    exact ⟨_, ht, rfl, rfl, rfl, hclasses, rfl, hdrained.trans h.symm, fun hr => hr.of_same rfl rfl,
      .of_same rfl rfl rfl rfl⟩

/-- What recording one class comes to, recording all classes of a tree comes to. -/
theorem declareClasses_run {P : List ClassDecl → Run → Prop}
    (hstep : ∀ {found r} d, P found r → ∃ t, recordClass d r = .ok ⟨⟩ t ∧ P (found ++ [d]) t)
    (path : String) (nodes : List Cursor) :
    ∀ {found : List ClassDecl} {r : Run}, P found r → ∃ t, declareClasses path nodes r = .ok ⟨⟩ t
      ∧ P (found ++ (nodes.filter (·.kind = .classDeclaration)).map (.ofNode · path)) t := by
  induction nodes with
  | nil => exact fun {found r} h => ⟨r, rfl, by simpa using h⟩
  | cons node nodes ih =>
    intro found r hr
    have hcons : declareClasses path (node :: nodes) = (do
        if node.kind = .classDeclaration then recordClass (.ofNode node path)
        declareClasses path nodes) := by
      unfold declareClasses
      rw [forIn_cons]
      split <;> simp
    rw [hcons]
    by_cases hkind : node.kind = .classDeclaration
    · rw [if_pos hkind, filter_cons_of_pos (by simpa using hkind), map_cons]
      obtain ⟨u, hu, hfound⟩ := hstep (.ofNode node path) hr
      rw [bind_of_ok hu, append_cons]
      exact ih hfound
    · rw [if_neg hkind, filter_cons_of_neg (by simpa using hkind)]
      exact ih hr

theorem declareClasses_eq (path : String) (nodes : List Cursor) (hr : r.diagnostics.drained = false) :
    ∃ t, declareClasses path nodes r = .ok ⟨⟩ t
      ∧ SameSearch (r.declare ((nodes.filter (·.kind = .classDeclaration)).map (.ofNode · path))) t := by
  refine @declareClasses_run (fun found => SameSearch (r.declare found)) ?_ path nodes [] r (.refl r)
  intro found t d ht
  obtain ⟨u, hu, hsame⟩ := recordClass_eq (ht.drained.trans hr)
  have hmore := ht.declare [d]
  rw [Run.declare, Run.declare, ← declareAll_append] at hmore
  exact ⟨u, hu, hmore.trans hsame⟩

theorem known_eq_none (h : r.Faithful)
    (hfile : r.disk.isFile path = false) : r.known? path = none := by
  cases hknown : r.known? path with
  | none => rfl
  | some s =>
    have hs := (h.known hknown).file
    rw [Disk.isFile, Disk.file?, Disk.resolve_resolve h.absolute] at hs
    rw [Disk.isFile, Disk.file?, hs] at hfile
    cases hfile

theorem source_searches (hr : r.Faithful) (hfile : r.disk.isFile path = true) :
    ∃ s t, source path r = .ok s t ∧ SameSearch r t := by
  obtain ⟨s, hs⟩ := hr.exists_known hfile
  exact ⟨s, _, source_known hr hs, rfl, rfl, rfl, rfl, rfl, rfl, fun _ => hr.set (hr.known hs) _,
    .set hs (fun _ => rfl) r.nextTree⟩

/-- The tree of a file that exists is read. -/
theorem treeOf?_searches (hr : r.Faithful) (hfile : r.disk.isFile path = true) :
    ∃ number t, treeOf? path r = .ok (some (.root number (r.disk.treeAt (r.disk.resolve path)))) t
      ∧ SameSearch r t := by
  obtain ⟨s, hs⟩ := hr.exists_known hfile
  have hroot := rootOf_eq hr path
  rw [hs] at hroot
  refine ⟨_, _, tryCatch_of_ok (map_of_ok hroot), rfl, rfl, rfl, rfl, rfl, rfl, fun _ => ?_, ?_⟩
  · exact hr.set ((hr.known hs).read _) _
  · refine .set hs (fun htree => ?_) _
    obtain ⟨tree, htree⟩ := Option.isSome_iff_exists.mp htree
    exact Source.read_of_tree htree _ _ _

theorem log_searches {message : String} : ∃ t, log message r = .ok ⟨⟩ t ∧ SameSearch r t := by
  unfold log
  rw [bind_of_ok run_get]
  split
  · exact ⟨_, rfl, rfl, rfl, rfl, rfl, rfl, rfl, fun hr => hr.of_same rfl rfl,
      .of_same rfl rfl rfl rfl⟩
  · exact ⟨r, rfl, .refl r⟩

/-- All files that a path stands for are found. -/
theorem register_searches (hr : r.Searchable) :
    ∃ t, register directory r = .ok (r.disk.scripts directory) t ∧ SameSearch r t := by
  have hloop : ∀ (files : List String) {u : Run}, u.Faithful →
      (∀ path ∈ files, u.disk.isFile path = true) →
      ∃ t, (forIn files PUnit.unit fun file _ => do
        let _ ← source file
        pure (ForInStep.yield PUnit.unit)) u = .ok ⟨⟩ t ∧ SameSearch u t := by
    intro files
    induction files with
    | nil => exact fun {u} _ _ => ⟨u, rfl, .refl u⟩
    | cons path files ih =>
      intro u hu hfiles
      rw [forall_mem_cons] at hfiles
      obtain ⟨s, v, hsource, hv⟩ := source_searches hu hfiles.1
      obtain ⟨t, ht, hsame⟩ := ih (hv.faithful hu) (hv.disk ▸ hfiles.2)
      refine ⟨t, ?_, hv.trans hsame⟩
      rw [forIn_cons, bind_assoc, bind_of_ok hsource]
      exact ht
  obtain ⟨t, ht, hsame⟩ := hloop (r.disk.scripts directory) hr.faithful
    (fun path hpath => ((hr.proper.scripts directory).2 path hpath).2)
  refine ⟨t, ?_, hsame⟩
  unfold register
  rw [bind_of_ok run_get, bind_of_ok ht]
  rfl

end Audit

namespace Watched

variable {r : Run} {scans : List Scan}

theorem plain_of_ok {x : Audit α} {a : α} {notes : List ν} (h : x r = .ok a t) :
    plain x (r, notes) = .ok a (t, notes) := by
  rw [plain, h]
  rfl

theorem plain_of_error {x : Audit α} {e : Failure} {notes : List ν} (h : x r = .error e t) :
    (plain x : Step ν α) (r, notes) = .error e (t, notes) := by
  rw [plain, h]
  rfl

theorem plain_startSearch_old (h : path ∈ r.searched) :
    plain (startSearch path) (r, scans) = .ok false (r, scans) := by
  refine plain_of_ok ?_
  unfold startSearch
  rw [bind_of_ok run_get, if_pos (contains_iff_mem.mpr h)]
  rfl

theorem plain_startSearch_new (h : path ∉ r.searched) :
    plain (startSearch path) (r, scans) = .ok true (r.mark path, scans) := by
  refine plain_of_ok ?_
  unfold startSearch
  rw [bind_of_ok run_get, if_neg (mt contains_iff_mem.mp h)]
  rfl

/-- **Scanning a file** takes steps for this file only. It goes through unless the file is missing
and was not looked for before. -/
theorem scanFile_searches (hr : r.Searchable) : let File := (· = path)
    SearchSteps (fun _ => False) File (r, scans) (after (scanFile path) (r, scans))
      ∧ path ∈ (after (scanFile path) (r, scans)).1.searched
      ∧ (r.disk.isFile path = true →
        scanFile path (r, scans) = .ok ⟨⟩ (after (scanFile path) (r, scans))) := by
  by_cases hnew : path ∈ r.searched
  · have hrun : scanFile path (r, scans) = .ok ⟨⟩ (r, scans) := by
      unfold scanFile
      rw [bind_of_ok (plain_startSearch_old hnew)]
      rfl
    rw [after_of_ok hrun]
    exact ⟨.refl, hnew, fun _ => hrun⟩
  · have hmark := hr.mark path
    cases hfile : r.disk.isFile path with
    | false =>
      have hrun : scanFile path (r, scans)
          = .error (.fileMissing (r.disk.resolve path)) (r.mark path, scans) := by
        unfold scanFile
        rw [bind_of_ok (plain_startSearch_new hnew)]
        refine bind_of_error (plain_of_error ?_)
        exact source_unknown (known_eq_none hmark.faithful hfile)
      rw [after_of_error hrun]
      refine ⟨.single (.missing path rfl hnew hfile), ?_, nofun⟩
      exact mem_append_right _ mem_cons_self
    | true =>
      obtain ⟨s, u, hsource, hu⟩ := source_searches hmark.faithful hfile
      obtain ⟨number, v, htree, hv⟩ := treeOf?_searches (hu.faithful hmark.faithful)
        (hu.disk.symm ▸ hfile)
      have huv := hu.trans hv
      obtain ⟨t, hdeclare, ht⟩ := declareClasses_eq (v.disk.resolve path)
        (Cursor.root number (u.disk.treeAt (u.disk.resolve path))).preorder
        (huv.drained.trans hmark.drained)
      have hdone : SameSearch ((r.mark path).declare (scanOf r.disk number path).classes) t := by
        refine (huv.declare _).trans ?_
        rw [huv.disk, hu.disk] at ht
        exact ht
      have hrun : scanFile path (r, scans) = .ok ⟨⟩ (t, scans ++ [scanOf r.disk number path]) := by
        unfold scanFile
        rw [bind_of_ok (plain_startSearch_new hnew)]
        rw [if_neg (by decide), bind_of_ok (plain_of_ok hsource), bind_of_ok (plain_of_ok htree)]
        dsimp only
        rw [bind_of_ok (plain_of_ok run_get)]
        have hnote : note (⟨v.disk.resolve path, classesIn (Cursor.root number
            (u.disk.treeAt (u.disk.resolve path))) (v.disk.resolve path)⟩ : Scan) (v, scans)
            = .ok ⟨⟩ (v, scans ++ [scanOf r.disk number path]) := by
          rw [huv.disk, hu.disk]
          rfl
        rw [bind_of_ok hnote]
        exact plain_of_ok hdeclare
      rw [after_of_ok hrun]
      refine ⟨.single (.file path number rfl hnew hfile hdone), ?_, fun _ => hrun⟩
      rw [hdone.searched]
      exact mem_append_right _ mem_cons_self

theorem scanFiles_searches :
    ∀ {r : Run} (scans : List Scan), r.Searchable → (∀ path ∈ files, r.disk.isFile path = true) →
      ∃ t scans', scanFiles files (r, scans) = .ok ⟨⟩ (t, scans')
        ∧ SearchSteps (fun _ => False) (fun path => path ∈ files ∧ r.leavesOut path = false)
          (r, scans) (t, scans')
        ∧ ∀ path ∈ files, r.leavesOut path = false → path ∈ t.searched := by
  induction files with
  | nil => exact fun {r} scans _ _ => ⟨r, scans, rfl, .refl, nofun⟩
  | cons path files ih =>
    intro r scans hr hfiles
    rw [forall_mem_cons] at hfiles
    have hshown : plain (shown path) (r, scans) = .ok (Path.shownFrom r.root path) (r, scans) := rfl
    have hmono : ∀ p, p ∈ files ∧ r.leavesOut p = false → p ∈ path :: files ∧ r.leavesOut p = false :=
      fun _ hp => ⟨mem_cons_of_mem _ hp.1, hp.2⟩
    unfold scanFiles
    rw [bind_of_ok hshown, bind_of_ok (plain_of_ok run_get)]
    cases hout : r.leavesOut path with
    | true =>
      rw [Run.leavesOut] at hout
      obtain ⟨t, scans', hrun, hsteps, hall⟩ := ih scans hr hfiles.2
      refine ⟨t, scans', ?_, hsteps.mono (fun _ => id) hmono, ?_⟩
      · rw [hout]
        exact hrun
      intro p hp hleft
      rcases mem_cons.mp hp with rfl | hp
      · rw [Run.leavesOut, hout] at hleft
        cases hleft
      · exact hall p hp hleft
    | false =>
      obtain ⟨hfirst, hsearched, hok⟩ := scanFile_searches hr
      generalize after (scanFile path) (r, scans) = state at hfirst hsearched hok
      obtain ⟨u, before⟩ := state
      have hu := hfirst.kept hr
      have hsame : ∀ p, u.leavesOut p = r.leavesOut p := fun p => by
        rw [Run.leavesOut, hu.settings, hu.root, Run.leavesOut]
      obtain ⟨t, scans', hrun, hsteps, hall⟩ := ih before hu.searchable (hu.disk ▸ hfiles.2)
      simp only [hsame] at hsteps hall
      refine ⟨t, scans', ?_, ?_, ?_⟩
      · rw [Run.leavesOut] at hout
        rw [hout]
        exact (bind_of_ok (hok hfiles.1)).trans hrun
      · refine (hfirst.mono (fun _ => id) fun p hp => ?_).trans (hsteps.mono (fun _ => id) hmono)
        rw [hp]
        exact ⟨mem_cons_self, hout⟩
      · intro p hp hleft
        rcases mem_cons.mp hp with rfl | hp
        · exact (hsteps.kept hu.searchable).searched _ hsearched
        · exact hall p hp hleft

/-- **Searching a directory** goes through. The directory is noted, files below it are scanned, and
every directory that is searched is covered. -/
theorem scanTree_searches (hr : r.Searchable) :
    ∃ t scans', scanTree directory (r, scans) = .ok ⟨⟩ (t, scans')
      ∧ SearchSteps (· = directory)
        (fun path => path ∈ r.disk.scripts directory ∧ r.leavesOut path = false) (r, scans) (t, scans')
      ∧ directory ∈ t.searched
      ∧ ∀ d, r.disk.isFile d = false → r.Covered d → t.Covered d := by
  by_cases hnew : directory ∈ r.searched
  · refine ⟨r, scans, ?_, .refl, hnew, fun _ _ => id⟩
    unfold scanTree
    rw [bind_of_ok (plain_startSearch_old hnew)]
    rfl
  · obtain ⟨u, hregister, hu⟩ := register_searches (hr.mark directory)
    have husearch := hu.searchable (hr.mark directory)
    obtain ⟨t, scans', hrun, hsteps, hall⟩ := scanFiles_searches
      scans husearch (fun path hpath => by
        rw [hu.disk]
        exact ((hr.proper.scripts directory).2 path hpath).2)
    have hsame : ∀ path, u.leavesOut path = r.leavesOut path := fun path => by
      rw [Run.leavesOut, hu.settings, hu.root]
      rfl
    simp only [hsame] at hsteps hall
    have hwhole : SearchSteps (· = directory)
        (fun path => path ∈ r.disk.scripts directory ∧ r.leavesOut path = false) (r, scans) (t, scans') :=
      .head (.tree directory rfl hnew) (.head (.quiet hu) (hsteps.mono (fun _ => False.elim) fun _ => id))
    refine ⟨t, scans', ?_, hwhole, ?_, fun d hd hcovered hsearched path hpath hleft => ?_⟩
    · unfold scanTree
      rw [bind_of_ok (plain_startSearch_new hnew), if_neg (by decide),
        bind_of_ok (plain_of_ok hregister)]
      exact hrun
    · refine (hsteps.kept husearch).searched _ ?_
      rw [hu.searched]
      exact mem_append_right _ mem_cons_self
    · have hkept := hwhole.kept hr
      rw [hkept.disk] at hpath
      rw [Run.leavesOut, hkept.settings, hkept.root] at hleft
      rcases hwhole.searched d hsearched with hold | rfl | hfile
      · exact hkept.searched path (hcovered hold path hpath hleft)
      · exact hall path hpath hleft
      · rw [((hr.proper.scripts directory).2 d hfile.1).2] at hd
        cases hd

/-- **Searching directories one after another** goes through. What is found is what is known
afterwards, and when nothing is found all directories were searched. -/
theorem searchUpward_searches :
    ∀ {r : Run} (scans : List Scan), r.Searchable → r.classes.get? key = none →
      ∃ found t scans', searchUpward key directories (r, scans) = .ok found (t, scans')
        ∧ SearchSteps (· ∈ directories)
          (fun path => (∃ d ∈ directories, path ∈ r.disk.scripts d) ∧ r.leavesOut path = false)
          (r, scans) (t, scans')
        ∧ found = t.classes.get? key
        ∧ (found = none → ∀ d ∈ directories, d ∈ t.searched)
        ∧ ∀ d, r.disk.isFile d = false → r.Covered d → t.Covered d := by
  induction directories with
  | nil =>
    exact fun {r} scans _ hnone =>
      ⟨none, r, scans, rfl, .refl, hnone.symm, fun _ => nofun, fun _ _ => id⟩
  | cons directory directories ih =>
    intro r scans hr hnone
    obtain ⟨u, before, htree, hfirst, hsearched, hcovers⟩ :=
      scanTree_searches hr
    have hu := hfirst.kept hr
    have hfirst' : SearchSteps (· ∈ directory :: directories)
        (fun path => (∃ d ∈ directory :: directories, path ∈ r.disk.scripts d)
          ∧ r.leavesOut path = false) (r, scans) (u, before) :=
      hfirst.mono (fun _ hd => mem_cons.mpr (.inl hd))
        fun path hpath => ⟨⟨directory, mem_cons_self, hpath.1⟩, hpath.2⟩
    unfold searchUpward
    rw [bind_of_ok htree, bind_of_ok (plain_of_ok run_get)]
    cases hfound : u.classes.get? key with
    | some found => exact ⟨some found, u, before, rfl, hfirst', hfound.symm, nofun, hcovers⟩
    | none =>
      obtain ⟨found, t, scans', hrun, hsteps, heq, hall, hrest⟩ :=
        ih before hu.searchable hfound
      refine ⟨found, t, scans', hrun, hfirst'.trans ?_, heq, ?_, ?_⟩
      · refine hsteps.mono (fun _ => mem_cons_of_mem _) ?_
        rintro path ⟨⟨d, hd, hpath⟩, hleft⟩
        rw [Run.leavesOut, hu.settings, hu.root] at hleft
        exact ⟨⟨d, mem_cons_of_mem _ hd, hu.disk ▸ hpath⟩, hleft⟩
      · rintro hnone
        refine forall_mem_cons.mpr ⟨?_, hall hnone⟩
        exact (hsteps.kept hu.searchable).searched _ hsearched
      · intro d hd hcovered
        exact hrest d (hu.disk.symm ▸ hd) (hcovers d hd hcovered)

/-- **Looking for a class** goes through. When nothing is found, all directories from the start up
to the root were searched. -/
theorem findClass_searches (scans : List Scan) (hr : r.Searchable) (name start : String) :
    ∃ found t scans', findClass name start (r, scans) = .ok found (t, scans')
      ∧ SearchSteps (· ∈ placesFrom r.disk r.root start)
        (fun path => (∃ d ∈ placesFrom r.disk r.root start, path ∈ r.disk.scripts d)
          ∧ r.leavesOut path = false) (r, scans) (t, scans')
      ∧ (lower (shortClassName name) = "" → found = none)
      ∧ (lower (shortClassName name) ≠ "" → found = t.classes.get? (lower (shortClassName name))
        ∧ (found = none → ∀ d ∈ placesFrom r.disk r.root start, d ∈ t.searched))
      ∧ ∀ d, r.disk.isFile d = false → r.Covered d → t.Covered d := by
  unfold findClass
  by_cases hkey : lower (shortClassName name) = ""
  · rw [if_pos hkey]
    exact ⟨none, r, scans, rfl, .refl, fun _ => rfl, fun h => absurd hkey h, fun _ _ => id⟩
  rw [if_neg hkey, bind_of_ok (plain_of_ok run_get)]
  cases hknown : r.classes.get? (lower (shortClassName name)) with
  | some found =>
    exact ⟨some found, r, scans, rfl, .refl, fun h => absurd h hkey,
      fun _ => ⟨hknown.symm, nofun⟩, fun _ _ => id⟩
  | none =>
    obtain ⟨found, t, scans', hrun, hsteps, heq, hall, hcovers⟩ :=
      searchUpward_searches
        scans hr hknown
    dsimp only
    rw [bind_of_ok hrun]
    cases found with
    | some found =>
      exact ⟨some found, t, scans', rfl, hsteps, fun h => absurd h hkey, fun _ => ⟨heq, nofun⟩,
        hcovers⟩
    | none =>
      obtain ⟨u, hlog, hu⟩ := log_searches
      refine ⟨none, u, scans', ?_, hsteps.tail (.quiet hu), fun h => absurd h hkey, fun _ => ?_,
        fun d hd hcovered => hu.covered (hcovers d hd hcovered)⟩
      · exact bind_of_ok (plain_of_ok hlog)
      · rw [hu.classes, hu.searched]
        exact ⟨heq, hall⟩

end Watched

end QueryAudit
