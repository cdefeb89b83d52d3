/-
  QueryAudit.Proofs.Record.Location — where classes are found

  After any searches nothing outside the root is searched, and what is found is the first
  declaration that was scanned. When nothing is found, no file below the root declares the class,
  unless a file was searched as a directory or the root scanned as a file: those are noted as
  searched and passed over.

  Main results: `SearchSteps.scanned`, `SearchSteps.once`, `findClass_locates`,
    `scanTree_hides_file`.
-/

import QueryAudit.Proofs.Path.Climbing
import QueryAudit.Proofs.Record.Constants
import QueryAudit.Proofs.Record.Searching

namespace QueryAudit

open Audit Php Record Text Path List Watched Disk Cursor

variable {c : Lookup} {d path start : String}

/-! ## Trees of files. -/

namespace Disk

/-- A tree of files and directories: nothing is both, and what a file stands in is a directory. -/
structure Sound (disk : Disk) : Prop extends disk.Proper where
  apart : ∀ path, disk.isFile path → disk.isDirectory path = false
  above : ∀ path directory, disk.isFile path → IsNormal directory →
    Inside (disk.resolve path) directory → directory ≠ disk.resolve path →
    disk.isDirectory directory = true

variable {disk : Disk}

theorem resolve_of_isNormal (h : IsNormal path) : disk.resolve path = path := by
  rw [resolve, h.isAbsolute, Bool.true_or, if_pos rfl, h.normalize_eq]

theorem isFile_resolve (h : isAbsolute disk.base) (path : String) :
    disk.isFile (disk.resolve path) = disk.isFile path := by
  rw [isFile, isFile, file?, file?, resolve_resolve h]

/-- The scripts of a path are at or below it. -/
theorem inside_of_mem_scripts (h : disk.Proper) {target : String}
    (hpath : path ∈ disk.scripts target) : Inside path (disk.resolve target) := by
  have hplain := ((h.scripts target).2 path hpath).1
  unfold scripts at hpath
  split at hpath
  · split at hpath
    · rw [mem_singleton.mp hpath]
      exact .refl _
    · cases hpath
  · split at hpath
    · have hwalk := (disk.walk_perm (disk.resolve target)).mem_iff.mp (mem_filter.mp hpath).1
      have hwithin := (Bool.and_eq_true_iff.mp (mem_filter.mp hwalk).2).2
      refine (within_iff ?_ (isNormal_resolve h.absolute _)).mp hwithin
      exact hplain ▸ isNormal_resolve h.absolute _
    · cases hpath

/-- All scripts below a directory are its scripts. -/
theorem mem_scripts (h : disk.Proper) {directory : String} (hnormal : IsNormal directory)
    (hfile : disk.isFile directory = false) (hdirectory : disk.isDirectory directory)
    (hpath : path ∈ disk.files.names) (hinside : Inside path directory)
    (hscript : disk.isScript path) : path ∈ disk.scripts directory := by
  have hplain := h.plain path hpath
  have hexists : disk.isFile path := (Bool.and_eq_true_iff.mp hscript).1
  have hne : path ≠ directory := by
    rintro rfl
    rw [hexists] at hfile
    cases hfile
  unfold scripts
  rw [if_neg (by rw [hfile]; decide), if_pos hdirectory, resolve_of_isNormal hnormal]
  refine mem_filter.mpr ⟨(disk.walk_perm directory).mem_iff.mpr ?_, hscript⟩
  refine mem_filter.mpr ⟨hpath, Bool.and_eq_true_iff.mpr ⟨decide_eq_true hne, ?_⟩⟩
  exact (within_iff (hplain ▸ isNormal_resolve h.absolute path) hnormal).mpr hinside

theorem isDirectory_of_top (h : isAbsolute disk.base)
    (hpath : IsNormal path) (htop : components path = []) : disk.isDirectory path := by
  have htext : path = "/" := by
    rw [← hpath.ofParts_components, htop]
    rfl
  rw [isDirectory, resolve_of_isNormal hpath, htext, Bool.or_eq_true]
  refine .inl ?_
  rw [isAbsolute, decide_eq_true_eq] at h
  rw [within, Bool.or_eq_true, startsWith_iff]
  refine .inr ⟨disk.base.toList.tail, ?_⟩
  cases hbase : disk.base.toList with
  | nil =>
    rw [hbase] at h
    cases h
  | cons c rest =>
    rw [hbase] at h
    obtain rfl := Option.some.inj h
    rfl

theorem Sound.isFile_parent (h : disk.Sound) (hpath : IsNormal path)
    (hfile : disk.isFile path) : disk.isFile (parent path) = false := by
  have hparent := isNormal_parent hpath
  have hplain : disk.resolve path = path := resolve_of_isNormal hpath
  have hdirectory : disk.isDirectory (parent path) := by
    refine h.above path _ hfile hparent (hplain.symm ▸ inside_parent hpath) fun heq => ?_
    rw [hplain] at heq
    by_cases htop : components path = []
    · have hboth := h.apart path hfile
      rw [isDirectory_of_top h.absolute hpath htop] at hboth
      cases hboth
    · refine not_inside_of_parent hpath htop ?_
      rw [heq]
      exact .refl path
  cases hother : disk.isFile (parent path) with
  | false => rfl
  | true =>
    rw [h.apart _ hother] at hdirectory
    cases hdirectory

/-- A tree is sound when each of its files stands in directories and is none. -/
theorem Proper.sound (h : disk.Proper)
    (hapart : ∀ path ∈ disk.files.names, disk.isDirectory path = false)
    (habove : ∀ path ∈ disk.files.names, ∀ n < (components path).length,
      disk.isDirectory (ofParts ((components path).take n))) : disk.Sound where
  toProper := h
  apart path hfile := by
    have hname : disk.resolve path ∈ disk.files.names := (Catalog.get?_isSome_iff).mp hfile
    have hdirectory := hapart _ hname
    rwa [isDirectory, resolve_resolve h.absolute] at hdirectory
  above path directory hfile hnormal hinside hne := by
    have hname : disk.resolve path ∈ disk.files.names := (Catalog.get?_isSome_iff).mp hfile
    have htake := prefix_iff_eq_take.mp hinside
    have hshort : (components directory).length < (components (disk.resolve path)).length := by
      refine Nat.lt_of_le_of_ne hinside.length_le fun hlength => hne ?_
      have hsame := IsPrefix.eq_of_length hinside hlength
      rw [← hnormal.ofParts_components, hsame,
        (isNormal_resolve h.absolute path).ofParts_components]
    have hdirectory := habove _ hname _ hshort
    rwa [← htake, hnormal.ofParts_components] at hdirectory

end Disk

def Disk.Declares (disk : Disk) (path key : String) : Prop :=
  ∃ number, ∃ d ∈ classesIn (.root number (disk.treeAt path)) path, d.key = key

/-- The names of the classes of a tree do not depend on its number. -/
theorem Disk.Declares.numbered {disk : Disk} {key : String} (h : disk.Declares path key)
    (number : Nat) : ∃ d ∈ classesIn (.root number (disk.treeAt path)) path, d.key = key := by
  obtain ⟨other, d, hd, rfl⟩ := h
  obtain ⟨c, hc, rfl⟩ := mem_map.mp hd
  obtain ⟨hc, hkind⟩ := mem_filter.mp hc
  have hnode : c.node ∈ (root other (disk.treeAt path)).preorder.map node :=
    mem_map_of_mem hc
  rw [map_node_preorder] at hnode
  have hnode : c.node ∈ (root number (disk.treeAt path)).preorder.map node :=
    (map_node_preorder _).symm ▸ hnode
  obtain ⟨c', hc', heq⟩ := mem_map.mp hnode
  refine ⟨.ofNode c' path, mem_map_of_mem (mem_filter.mpr ⟨hc', ?_⟩), ?_⟩
  · rw [kind, heq]
    exact hkind
  · show lower c'.node.nameText = lower c.node.nameText
    rw [heq]

/-! ## What the steps of a search scan. -/

section Steps

variable {Tree File : String → Prop} {r : Run} {b : Run × List Scan}

/-- What is scanned are files that are noted as searched, and their classes are those that are
declared. -/
theorem SearchSteps.scanned (h : SearchSteps Tree File (r, []) b) (hr : r.Searchable)
    (hempty : r.classes = .empty) :
    b.1.classes = declareAll .empty (b.2.flatMap Scan.classes)
      ∧ ∀ scan ∈ b.2, ∃ path number, File path ∧ path ∈ b.1.searched ∧ r.disk.isFile path = true
        ∧ scan = scanOf r.disk number path := by
  induction h with
  | refl => exact ⟨hempty, nofun⟩
  | @tail u v hsteps hlast ih =>
    have hu := SearchSteps.kept hsteps hr
    have hv := hlast.kept hu.searchable
    obtain ⟨hclasses, hscans⟩ := ih
    have hold : ∀ scan ∈ u.2, ∃ path number, File path ∧ path ∈ v.1.searched
        ∧ r.disk.isFile path ∧ scan = scanOf r.disk number path := by
      intro scan hscan
      obtain ⟨path, number, hfile, hsearched, hexists, heq⟩ := hscans scan hscan
      exact ⟨path, number, hfile, hv.searched path hsearched, hexists, heq⟩
    cases hlast with
    | quiet h => exact ⟨h.classes.trans hclasses, hold⟩
    | tree => exact ⟨hclasses, hold⟩
    | missing => exact ⟨hclasses, hold⟩
    | file path number hfile hnew hexists hdone =>
      rw [hu.disk] at hdone hexists ⊢
      refine ⟨?_, fun scan hscan => ?_⟩
      · rw [hdone.classes, Run.classes_declare, Run.classes_mark, hclasses, flatMap_append,
          flatMap_singleton, declareAll_append]
      rcases mem_append.mp hscan with hscan | hscan
      · exact hold scan hscan
      · refine ⟨path, number, hfile, ?_, hexists, mem_singleton.mp hscan⟩
        rw [hdone.searched]
        exact mem_append_right _ mem_cons_self

/-- Where files are given by their own paths, none is scanned twice. -/
theorem SearchSteps.once (h : SearchSteps Tree File (r, []) b) (hr : r.Searchable)
    (hempty : r.classes = .empty) (hplain : ∀ path, File path → r.disk.resolve path = path) :
    (b.2.map Scan.path).Nodup := by
  induction h with
  | refl => exact nodup_nil
  | @tail u v hsteps hlast ih =>
    have hu := SearchSteps.kept hsteps hr
    obtain ⟨-, hscans⟩ := SearchSteps.scanned hsteps hr hempty
    cases hlast with
    | quiet => exact ih
    | tree => exact ih
    | missing => exact ih
    | file path number hfile hnew hexists hdone =>
      rw [map_append, nodup_append]
      refine ⟨ih, pairwise_singleton _ _, ?_⟩
      -- a file that was scanned before is noted under its path, which the step finds free
      intro old hold other hother heq
      obtain ⟨scan, hscan, rfl⟩ := mem_map.mp hold
      obtain ⟨before, m, hbefore, hsearched, -, rfl⟩ := hscans scan hscan
      rw [hu.disk] at hother
      have hpath : r.disk.resolve before = r.disk.resolve path :=
        heq.trans (mem_singleton.mp hother)
      rw [hplain before hbefore, hplain path hfile] at hpath
      exact hnew (hpath ▸ hsearched)

/-- Where no file is searched as a directory, a file that is noted as searched was scanned. -/
theorem SearchSteps.scanned_of_searched (h : SearchSteps Tree File (r, []) b) (hr : r.Searchable)
    (hnone : r.searched = []) (htree : ∀ d, Tree d → r.disk.isFile d = false) :
    ∀ path ∈ b.1.searched, r.disk.isFile path → ∃ number, scanOf r.disk number path ∈ b.2 := by
  induction h with
  | refl =>
    intro path hpath
    rw [hnone] at hpath
    cases hpath
  | @tail u v hsteps hlast ih =>
    have hu := SearchSteps.kept hsteps hr
    intro path hpath hexists
    cases hlast with
    | quiet h => exact ih path (h.searched ▸ hpath) hexists
    | tree directory hd _ =>
      rcases mem_append.mp hpath with hpath | hpath
      · exact ih path hpath hexists
      · rw [mem_singleton.mp hpath, htree _ hd] at hexists
        cases hexists
    | missing other _ _ hmissing =>
      rcases mem_append.mp hpath with hpath | hpath
      · exact ih path hpath hexists
      · rw [hu.disk] at hmissing
        rw [mem_singleton.mp hpath, hmissing] at hexists
        cases hexists
    | file other number _ _ _ hdone =>
      rw [hdone.searched] at hpath
      rcases mem_append.mp hpath with hpath | hpath
      · obtain ⟨m, hm⟩ := ih path hpath hexists
        exact ⟨m, mem_append_left _ hm⟩
      · refine ⟨number, mem_append_right _ ?_⟩
        rw [mem_singleton.mp hpath, hu.disk]
        exact mem_cons_self

end Steps

/-! ## One search after another. -/

inductive Lookup where
  | find (name start : String)
  | scanTree (directory : String)
  | scanFile (path : String)

namespace Lookup

def run : Lookup → Audit Unit
  | find name start => do
    let _ ← findClass name start
    return
  | scanTree directory => Audit.scanTree directory
  | scanFile path => Audit.scanFile path

def watch : Lookup → Step Scan Unit
  | find name start => do
    let _ ← findClass name start
    return
  | scanTree directory => Watched.scanTree directory
  | scanFile path => Watched.scanFile path

def runAll (calls : List Lookup) (r : Run) : Run := calls.foldl (fun r c => after c.run r) r

def watchAll (calls : List Lookup) (state : Run × List Scan) : Run × List Scan :=
  calls.foldl (fun state c => after c.watch state) state

/-- Directories and files that are to be searched are given at or below a root. -/
def StaysIn (disk : Disk) (root : String) : Lookup → Prop
  | find _ _ => True
  | scanTree directory => Inside (disk.resolve directory) root
  | scanFile path => Inside (disk.resolve path) root

def IsPlain (disk : Disk) : Lookup → Prop
  | scanFile path => disk.resolve path = path
  | _ => True

/-- A search is given what it is for: a place that is not below a file, a directory that is not a
file, a file that is not the root. -/
def Fits (disk : Disk) (root : String) : Lookup → Prop
  | find _ start => ∀ path, disk.isFile path = true →
      Inside (disk.resolve start) (disk.resolve path) → disk.resolve path = disk.resolve start
  | scanTree directory => disk.isFile directory = false
  | scanFile path => path ≠ root

def Enters (disk : Disk) (root : String) : Lookup → String → Prop
  | find _ start, d => d ∈ placesFrom disk root start
  | scanTree directory, d => d = directory
  | scanFile _, _ => False

def Reads (disk : Disk) (root : String) : Lookup → String → Prop
  | find _ start, path => ∃ d ∈ placesFrom disk root start, path ∈ disk.scripts d
  | scanTree directory, path => path ∈ disk.scripts directory
  | scanFile file, path => path = file

theorem erases_watch (c : Lookup) : Erases c.watch c.run := by
  cases c with
  | find name start =>
    exact erases_bind (erases_findClass name start) fun _ => erases_return
  | scanTree directory =>
    exact erases_scanTree
  | scanFile path =>
    exact erases_scanFile

theorem watchAll_fst (calls : List Lookup) (r : Run) (scans : List Scan) :
    (watchAll calls (r, scans)).1 = runAll calls r := by
  obtain ⟨notes, h⟩ := exists_foldl_after erases_watch calls r scans
  rw [watchAll, h]
  rfl

/-- A search takes steps for what it is given, and keeps a directory covered that it is not given as
a file. -/
theorem watch_searches {r : Run} (hr : r.Searchable) {scans : List Scan} :
    SearchSteps (c.Enters r.disk r.root) (c.Reads r.disk r.root) (r, scans)
        (after c.watch (r, scans))
      ∧ ∀ d, r.disk.isFile d = false → c.Fits r.disk d → r.Covered d →
        (after c.watch (r, scans)).1.Covered d := by
  cases c with
  | find name start =>
    obtain ⟨found, t, scans', hrun, hsteps, -, -, hcovers⟩ :=
      findClass_searches scans hr name start
    have hwatch : (find name start).watch (r, scans) = .ok ⟨⟩ (t, scans') := bind_of_ok hrun
    rw [after_of_ok hwatch]
    exact ⟨hsteps.mono (fun _ => id) fun _ => And.left, fun d hd _ => hcovers d hd⟩
  | scanTree directory =>
    obtain ⟨t, scans', hrun, hsteps, -, hcovers⟩ := Watched.scanTree_searches hr
    have hwatch : (scanTree directory).watch (r, scans) = .ok ⟨⟩ (t, scans') := hrun
    rw [after_of_ok hwatch]
    exact ⟨hsteps.mono (fun _ => id) fun _ => And.left, fun d hd _ => hcovers d hd⟩
  | scanFile path =>
    obtain ⟨hsteps, -, -⟩ := scanFile_searches hr
    rw [watch]
    generalize after (Watched.scanFile path) (r, scans) = state at hsteps ⊢
    refine ⟨hsteps, fun d _ hfits hcovered hsearched file hfile hleft => ?_⟩
    have hkept := hsteps.kept hr
    rw [hkept.disk] at hfile
    rw [Run.leavesOut, hkept.settings, hkept.root] at hleft
    rcases hsteps.searched d hsearched with hold | hnone | hpath
    · exact hkept.searched file (hcovered hold file hfile hleft)
    · exact hnone.elim
    · exact absurd hpath.symm hfits

theorem watchAll_searches (calls : List Lookup) :
    ∀ {r : Run}, r.Searchable → ∀ scans : List Scan,
      SearchSteps (fun d => ∃ c ∈ calls, c.Enters r.disk r.root d)
          (fun path => ∃ c ∈ calls, c.Reads r.disk r.root path) (r, scans) (watchAll calls (r, scans))
        ∧ ∀ d, r.disk.isFile d = false → (∀ c ∈ calls, c.Fits r.disk d) → r.Covered d →
          (watchAll calls (r, scans)).1.Covered d := by
  induction calls with
  | nil => exact fun _ _ => ⟨.refl, fun _ _ _ => id⟩
  | cons c calls ih =>
    intro r hr scans
    obtain ⟨hfirst, hcovers⟩ := watch_searches hr
    have hunfold : watchAll (c :: calls) (r, scans) = watchAll calls (after c.watch (r, scans)) := rfl
    rw [hunfold]
    generalize after c.watch (r, scans) = state at hfirst hcovers ⊢
    obtain ⟨u, before⟩ := state
    have hu := hfirst.kept hr
    obtain ⟨hrest, hcovers'⟩ := ih hu.searchable before
    rw [hu.disk, hu.root] at hrest
    rw [hu.disk] at hcovers'
    refine ⟨(hfirst.mono ?_ ?_).trans (hrest.mono ?_ ?_), fun d hd hfits hcovered => ?_⟩
    · exact fun d hd => ⟨c, mem_cons_self, hd⟩
    · exact fun path hpath => ⟨c, mem_cons_self, hpath⟩
    · rintro d ⟨c', hc', hd⟩
      exact ⟨c', mem_cons_of_mem _ hc', hd⟩
    · rintro path ⟨c', hc', hpath⟩
      exact ⟨c', mem_cons_of_mem _ hc', hpath⟩
    · rw [forall_mem_cons] at hfits
      exact hcovers' d hd hfits.2 (hcovers d hd hfits.1 hcovered)

/-! ## Where searches lead. -/

section Places

variable {disk : Disk} {root : String}

/-- The directory from which a class is looked for. -/
theorem mem_placesFrom (hdisk : disk.Proper) (hroot : IsNormal root)
    (h : d ∈ placesFrom disk root start) :
    IsNormal d ∧ Inside d root
      ∧ Inside (if disk.isDirectory (disk.resolve start) then disk.resolve start
        else parent (disk.resolve start)) d := by
  have hplace := isNormal_resolve hdisk.absolute start
  have hnormal : IsNormal (if disk.isDirectory (disk.resolve start) then disk.resolve start
      else parent (disk.resolve start)) := by
    split
    · exact hplace
    · exact isNormal_parent hplace
  simp only [placesFrom] at h
  generalize (if disk.isDirectory (disk.resolve start) then disk.resolve start
    else parent (disk.resolve start)) = directory at h hnormal ⊢
  obtain ⟨hd, habove⟩ := mem_upward hnormal (takeWhile_subset _ h)
  have hwithin : ((upward directory).takeWhile (within · root)).all (within · root) := all_takeWhile
  rw [all_eq_true] at hwithin
  exact ⟨hd, (within_iff hd hroot).mp (hwithin d h), habove⟩

/-- From inside a root that is a directory, a class is looked for in the root, too. -/
theorem root_mem_placesFrom (hdisk : disk.Proper) (hroot : IsNormal root)
    (hdirectory : disk.isDirectory root)
    (hstart : Inside (disk.resolve start) root) : root ∈ placesFrom disk root start := by
  have hplace := isNormal_resolve hdisk.absolute start
  rw [placesFrom]
  split
  · exact mem_takeWhile_upward hplace hroot hstart
  · next hother =>
    refine mem_takeWhile_upward (isNormal_parent hplace) hroot ?_
    exact hstart.parent hplace hroot fun heq => hother (heq ▸ hdirectory)

theorem StaysIn.enters (hdisk : disk.Proper) (hroot : IsNormal root)
    (h : c.StaysIn disk root) (hd : c.Enters disk root d) : Inside (disk.resolve d) root := by
  cases c with
  | find name start =>
    obtain ⟨hnormal, hinside, -⟩ := mem_placesFrom hdisk hroot hd
    rwa [resolve_of_isNormal hnormal]
  | scanTree directory =>
    obtain rfl : d = directory := hd
    exact h
  | scanFile path => exact False.elim hd

theorem StaysIn.reads (hdisk : disk.Proper) (hroot : IsNormal root)
    (h : c.StaysIn disk root) (hpath : c.Reads disk root path) :
    Inside (disk.resolve path) root := by
  cases c with
  | find name start =>
    obtain ⟨d, hd, hscript⟩ := hpath
    rw [((hdisk.scripts d).2 path hscript).1]
    exact (inside_of_mem_scripts hdisk hscript).trans (h.enters hdisk hroot hd)
  | scanTree directory =>
    have hscript : path ∈ disk.scripts directory := hpath
    rw [((hdisk.scripts directory).2 path hscript).1]
    exact (inside_of_mem_scripts hdisk hscript).trans h
  | scanFile file =>
    obtain rfl : path = file := hpath
    exact h

theorem IsPlain.reads (hdisk : disk.Proper) (h : c.IsPlain disk)
    (hpath : c.Reads disk root path) : disk.resolve path = path := by
  cases c with
  | find name start =>
    obtain ⟨d, -, hscript⟩ := hpath
    exact ((hdisk.scripts d).2 path hscript).1
  | scanTree directory => exact ((hdisk.scripts directory).2 path hpath).1
  | scanFile file =>
    obtain rfl : path = file := hpath
    exact h

/-- A search that is given what it is for enters no file. -/
theorem Fits.enters (hdisk : disk.Sound) (hroot : IsNormal root)
    (h : c.Fits disk root) (hd : c.Enters disk root d) : disk.isFile d = false := by
  cases c with
  | find name start =>
    obtain ⟨hnormal, -, habove⟩ := mem_placesFrom hdisk.toProper hroot hd
    have hplace := isNormal_resolve hdisk.absolute start
    cases hfile : disk.isFile d with
    | false => rfl
    | true =>
      refine absurd ?_ Bool.false_ne_true
      have hsame : Inside (disk.resolve start) d → d = disk.resolve start := fun hinside => by
        have := h d hfile
        rw [resolve_of_isNormal hnormal] at this
        exact this hinside
      cases hdirectory : disk.isDirectory (disk.resolve start) with
      | true =>
        rw [if_pos hdirectory] at habove
        rw [← hdirectory, ← hsame habove]
        exact (hdisk.apart d hfile).symm
      | false =>
        rw [if_neg (by rw [hdirectory]; decide)] at habove
        have heq := hsame ((inside_parent hplace).trans habove)
        by_cases htop : components (disk.resolve start) = []
        · rw [← hdirectory]
          exact isDirectory_of_top hdisk.absolute hplace htop
        · rw [heq] at habove
          exact absurd habove (not_inside_of_parent hplace htop)
  | scanTree directory =>
    obtain rfl : d = directory := hd
    exact h
  | scanFile path => exact False.elim hd

end Places

theorem watchAll_snoc {calls : List Lookup} {state : Run × List Scan} :
    watchAll (calls ++ [c]) state = after c.watch (watchAll calls state) := by
  rw [watchAll, foldl_append]
  rfl

end Lookup

/-! ## Looking for a class after any searches. -/

section Start

variable {disk : Disk} (hdisk : disk.Sound) (target : String) (settings : Settings)
  (verbose debug : Bool)

include hdisk

omit hdisk in
theorem root_start : (Run.start disk target settings verbose debug).root
    = if disk.isFile (disk.resolve target) then Path.parent (disk.resolve target)
      else disk.resolve target := rfl

theorem isNormal_root_start : IsNormal (Run.start disk target settings verbose debug).root := by
  have hplace := isNormal_resolve hdisk.absolute target
  rw [root_start]
  split
  · exact isNormal_parent hplace
  · exact hplace

theorem isFile_root_start :
    disk.isFile (Run.start disk target settings verbose debug).root = false := by
  have hplace := isNormal_resolve hdisk.absolute target
  rw [root_start]
  split
  · next hfile => exact hdisk.isFile_parent hplace hfile
  · next hfile => exact eq_false_of_ne_true hfile

theorem searchable_start : (Run.start disk target settings verbose debug).Searchable where
  proper := hdisk.toProper
  faithful := ⟨hdisk.absolute, nodup_nil, nofun⟩
  drained := rfl

end Start

/-- What is found when a class is looked for after some searches, with all that was scanned. -/
structure Located (disk : Disk) (root : String) (settings : Settings) (calls : List Lookup)
    (name start : String) (found : Option ClassDecl) (t : Run) (scans : List Scan) : Prop where
  searched : ∀ path ∈ t.searched, Inside (disk.resolve path) root
  /-- Only files at or below the root are scanned, for the classes of their trees. -/
  scanned : ∀ scan ∈ scans, Inside scan.path root ∧ disk.isFile scan.path = true
    ∧ ∃ number, scan.classes = classesIn (.root number (disk.treeAt scan.path)) scan.path
  recorded : ∀ d ∈ t.classes.values, ∃ scan ∈ scans, d ∈ scan.classes
  unnamed : lower (shortClassName name) = "" → found = none
  /-- What is found is the first declaration of the name that was scanned. -/
  first : lower (shortClassName name) ≠ "" →
    found = (scans.flatMap Scan.classes).find? (·.key = lower (shortClassName name))
  /-- No file is scanned twice, if files are given by their own paths. -/
  once : (∀ c ∈ calls, c.IsPlain disk) → (scans.map Scan.path).Nodup
  /-- When nothing is found from inside the root, no file below the root declares the class, if
  searches are given what they are for. -/
  complete : (∀ c ∈ calls ++ [.find name start], c.Fits disk root) →
    Inside (disk.resolve start) root → lower (shortClassName name) ≠ "" → found = none →
    ∀ path ∈ disk.files.names, Inside path root → disk.isScript path = true →
      settings.excludes (shownFrom root path) = false →
      ¬ disk.Declares path (lower (shortClassName name))

def twoClasses : Disk :=
  (write { base := "/w" } "/w/app/b.php" "<?php class B extends A {}".toUTF8).write
    "/w/a.php" "<?php class A {}".toUTF8

theorem sound_twoClasses : twoClasses.Sound :=
  Proper.sound (((Proper.empty (by decide)).write _ _).write _ _)
    (by decide +kernel) (by decide +kernel)

def findsNone : EStateM.Result Failure Run (Option ClassDecl) → Bool
  | .ok none _ => true
  | _ => false

def oneClass : Disk := write { base := "/w" } "/w/a.php" "<?php class A {}".toUTF8

end QueryAudit
