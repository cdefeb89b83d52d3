/-
  QueryAudit.Proofs.Query.Once — every call is checked once

  While the calls of one file are checked, other files are tracked, put aside and taken back. None
  of this touches a file that is still to come, so when its turn comes its calls are those in its
  tree.

  Main results: `Once.ready_of_lock`, `analyze_checks_once`.
-/

import QueryAudit.Proofs.Audit.Sources
import QueryAudit.Proofs.Query.Watching
import QueryAudit.Proofs.Scope.Finding

namespace QueryAudit.Query

open Audit Php Record Scope Text
open QueryAudit.Frame

variable {files : List String} {scopes : FileScopes}

/-! ## Calls that are to be checked. -/

/-- The calls in a tree that are to be checked, in the order in which they stand there: the calls of
a method that has the name of the command factory or of a finder, ignoring case. -/
def queryCalls (settings : Settings) (root : Cursor) : List Cursor :=
  root.preorder.filter fun c => c.node.named && c.kind.isMethodCall
    && (settings.isCommandFactory c.nameText || settings.isFinder c.nameText)

theorem contains_map_lower {names : List String} {name : String} :
    (names.map lower).contains (lower name) = names.any (sameIgnoringCase name ·) := by
  induction names with
  | nil => rfl
  | cons other names ih =>
    rw [List.map_cons, List.contains_cons, ih]
    rfl

theorem run_queryCalls {settings : Settings} {path : String} {number : Nat} {bytes : ByteArray} :
    (Tracker.run (callNames settings) path (.root number (parse bytes))).1.callSites.map Prod.fst
      = queryCalls settings (.root number (parse bytes)) := by
  have hnamed : (Cursor.root number (parse bytes)).node.named = true := parse_program.2
  rw [run_callSites hnamed parse_solid]
  refine List.filter_congr fun c _ => ?_
  rw [isNoted, contains_map_lower, callNames]
  rfl

/-! ## Files that are still to come. -/

section Ready

variable {disk : Disk} {settings : Settings} {T N : List String} {r t : Run} {path : String}
  {number other : String → Nat}

def Complete (disk : Disk) (settings : Settings) (path : String) (s : FileScopes) : Prop :=
  s.path = path ∧ ∃ number, s.callSites.map Prod.fst
    = queryCalls settings (.root number (disk.treeAt path))

/-- A state of an analysis in which files that are still to come are ready: they exist, have not been
put aside, and if they are tracked then with all of their calls. -/
structure Ready (disk : Disk) (settings : Settings) (T : List String) (r : Run) : Prop where
  sameDisk : r.disk = disk
  sameSettings : r.settings = settings
  faithful : r.Faithful
  file : ∀ path ∈ T, disk.isFile path = true ∧ disk.resolve path = path
  kept : ∀ path ∈ T, r.spilled.contains path = false
  complete : ∀ path ∈ T, ∀ s, r.scopes.get? path = some s → Complete disk settings path s

theorem Ready.rereads (h : Ready disk settings T r) (hs : Rereads r t) :
    Ready disk settings T t where
  sameDisk := hs.disk.trans h.sameDisk
  sameSettings := hs.settings.trans h.sameSettings
  faithful := hs.faithful
  file := h.file
  kept := by rw [hs.spilled]; exact h.kept
  complete := by rw [hs.scopes]; exact h.complete

theorem Ready.setScopes (h : Ready disk settings T r)
    (hscopes : path ∈ T → Complete disk settings path scopes) :
    Ready disk settings T { r with scopes := r.scopes.set path scopes } where
  __ := h
  faithful := h.faithful.of_same rfl rfl
  complete other hother s hs := by
    rcases Catalog.get?_set_some hs with ⟨rfl, rfl⟩ | hs
    · exact hscopes hother
    · exact h.complete other hother s hs

theorem findScopes_complete (h : Ready disk settings T r) (hpath : disk.resolve path = path)
    (hfound : findScopes path r = .ok scopes t) : Complete disk settings path scopes := by
  obtain ⟨number, rfl⟩ := findScopes_ok h.faithful hfound
  rw [h.sameSettings, h.sameDisk, hpath]
  exact ⟨(run_wellFiled _ _ _).1, number, run_queryCalls⟩

theorem ready_track (h : Ready disk settings T r) (hpath : disk.resolve path = path) :
    Ready disk settings T (after (track path) r) := by
  rw [track_eq]
  cases hfound : findScopes path r with
  | error e u =>
    rw [after_bind_of_error hfound]
    exact h.rereads (careful_findScopes.of_error hfound h.faithful)
  | ok scopes u =>
    rw [after_bind_of_ok hfound]
    have hu := h.rereads (careful_findScopes.of_ok hfound h.faithful)
    exact hu.setScopes fun _ => findScopes_complete h hpath hfound

/-- **Finding the definitions of any file keeps the files that are still to come ready.** -/
theorem ready_scopesOf (h : Ready disk settings T r) (path : String) :
    Ready disk settings T (after (scopesOf path) r) := by
  have hplain : disk.resolve (r.disk.resolve path) = r.disk.resolve path := by
    rw [← h.sameDisk]
    exact Disk.resolve_resolve h.faithful.absolute path
  unfold scopesOf
  rw [after_bind_of_ok run_get]
  dsimp only
  generalize r.disk.resolve path = place at hplain ⊢
  cases hscopes : r.scopes.get? place with
  | some scopes => exact h
  | none =>
    cases hsource : source place r with
    | error e u =>
      rw [after_bind_of_error hsource]
      exact h.rereads (careful_source.of_error hsource h.faithful)
    | ok s u =>
      have hu := h.rereads (careful_source.of_ok hsource h.faithful)
      rw [after_bind_of_ok hsource]
      by_cases hcached : (r.settings.cacheDir.isSome && r.spilled.contains place) = true
      · rw [if_pos hcached]
        -- a file that was put aside is none of those still to come
        have hdone : place ∉ T := fun hmem => by
          rw [h.kept place hmem, Bool.and_false] at hcached
          cases hcached
        cases hload : loadCached place u with
        | error e v =>
          rw [after_bind_of_error hload]
          exact hu.rereads (careful_loadCached.of_error hload hu.faithful)
        | ok loaded v =>
          have hv := hu.rereads (careful_loadCached.of_ok hload hu.faithful)
          rw [after_bind_of_ok hload]
          cases loaded with
          | none => exact ready_track hv hplain
          | some scopes =>
            dsimp only
            rw [shown, bind_assoc, after_bind_of_ok run_get, pure_bind,
              after_bind_of_ok (log_eq _ _)]
            refine Ready.setScopes ?_ fun hmem => absurd hmem hdone
            exact hv.rereads ((tells_log _).careful.of_ok (log_eq _ _) hv.faithful)
      · rw [if_neg hcached]
        exact ready_track hu hplain

theorem Ready.tame (h : Ready disk settings T r) (htame : Tame r t) : Ready disk settings T t := by
  have hsame : Rereads r t := by
    rw [htame.rest]
    exact ⟨rfl, rfl, rfl, rfl, rfl, h.faithful.of_same rfl rfl⟩
  exact h.rereads hsame

/-! ## The frame. -/

/-- A run beside itself, with files that are still to come ready. -/
def readyFrame (disk : Disk) (settings : Settings) : Frame where
  At T _ l p := p = l.parts ∧ Ready disk settings T l
  Gone _ _ := False
  fine _ := True
  Target _ := True
  Apart a b := a ≠ b

namespace Once

variable {α : Type}

/-- A step that keeps files ready keeps a run in lockstep with itself. -/
theorem lock_of_ready {x : Audit α}
    (hx : ∀ r, Ready disk settings T r → Ready disk settings T (after x r)) :
    (readyFrame disk settings).Lock T N x where
  agree l p h := by
    obtain ⟨rfl, hl⟩ := h
    rw [Run.beside_parts]
    have hafter := hx l hl
    cases hres : x l with
    | ok a t =>
      rw [after_of_ok hres] at hafter
      exact .ok (p := t.parts) ⟨rfl, hafter⟩
    | error f t =>
      rw [after_of_error hres] at hafter
      exact .error (p := t.parts) ⟨rfl, hafter⟩ trivial
  alone _ _ h := h.elim

theorem lock_careful {x : Audit α} (hx : KeepsTo Careful x) :
    (readyFrame disk settings).Lock T N x :=
  lock_of_ready fun r hr => hr.rereads (hx r hr.faithful)

theorem at_of_tame {l : Run} {p : Parts} (htame : Tame l t)
    (h : (readyFrame disk settings).At T N l p) : (readyFrame disk settings).At T N t p := by
  refine ⟨?_, h.2.tame htame⟩
  rw [h.1, htame.rest]
  rfl

/-- **Checking calls keeps files that are still to come ready.** -/
instance (disk : Disk) (settings : Settings) : (readyFrame disk settings).Sound where
  fewer _ h := h
  still hstill h := at_of_tame hstill.tame h
  tame := at_of_tame
  told a b hsame h := by
    obtain ⟨rfl, h⟩ := h
    rw [hsame rfl rfl]
    exact ⟨rfl, h.rereads ⟨rfl, rfl, rfl, rfl, rfl, h.faithful.of_same rfl rfl⟩⟩
  goneStill _ h := h
  goneTame _ h := h
  goneTold _ h := h
  plain _ := trivial
  hardError _ _ _ := lock_careful tells_hardError.careful
  treeSize h := by rw [h.1, Run.beside_parts]
  source _ _ _ := lock_map (lock_careful careful_source)
  rootOf _ _ _ := lock_careful careful_rootOf
  scopesOf _ _ path := lockTo_of_lock (lock_map (lock_of_ready fun _ hr => ready_scopesOf hr path))
    fun _ _ h => h
  above _ _ _ _ _ :=
    lock_careful (keeps_bind careful_source fun _ => keeps_pure)
  found _ _ _ _ _ _ h := h
  alternatives _ _ _ _ h := h

theorem ready_of_lock {x : Audit α} (hx : (readyFrame disk settings).Lock T N x)
    (h : Ready disk settings T r) {a : α} (hres : x r = .ok a t) : Ready disk settings T t := by
  have hagree := hx.agree r r.parts ⟨rfl, h⟩
  rw [hres] at hagree
  generalize x (r.beside r.parts) = other at hagree
  cases hagree with
  | ok hafter => exact hafter.2

end Once

/-! ## Finding the calls of a file. -/

/-- Tracking a file that exists does not fail for want of a file. -/
theorem findScopes_error (hplain : r.disk.resolve path = path) (hfile : r.disk.isFile path = true)
    {f : Failure} (h : findScopes path r = .error f t) : f.isMissingFile = false := by
  obtain ⟨file, hfile⟩ := Option.isSome_iff_exists.mp hfile
  have hlog := log_eq ("tracking scopes in " ++ Path.shownFrom r.root path) r
  have hroot : ∀ lines, ∃ root u, rootOf path { r with log := lines } = .ok root u :=
    fun lines => rootOf_of_file hplain hfile
  obtain ⟨root, u, hroot⟩ := hroot (linesAfter r ("tracking scopes in " ++ Path.shownFrom r.root path))
  unfold findScopes at h
  rw [shown, bind_assoc, bind_of_ok run_get, pure_bind, bind_of_ok hlog, bind_of_ok hroot,
    bind_of_ok run_get] at h
  rw [takePass, bind_of_ok (show link path u = .ok ⟨⟩ _ from rfl)] at h
  obtain rfl | ⟨e, rfl⟩ := (tells_bind (tells_replay path) fun _ => tells_pure).fails h <;> rfl

/-- When the turn of a file comes, its definitions are found with all calls in it. -/
theorem scopesOf_ready (h : Ready disk settings T r) (hpath : path ∈ T) :
    match scopesOf path r with
    | .ok scopes _ => Complete disk settings path scopes
    | .error f _ => f.isMissingFile = false := by
  obtain ⟨hfile, hplain⟩ := h.file path hpath
  have hkept := h.kept path hpath
  unfold scopesOf
  rw [bind_of_ok run_get, h.sameDisk, hplain]
  cases hscopes : r.scopes.get? path with
  | some scopes => exact h.complete path hpath scopes hscopes
  | none =>
    obtain ⟨s, hknown⟩ := h.faithful.exists_known (h.sameDisk ▸ hfile)
    have hsource := source_known h.faithful hknown
    have hu := h.rereads (careful_source.of_ok hsource h.faithful)
    dsimp only
    rw [bind_of_ok hsource, hkept, Bool.and_false, if_neg Bool.false_ne_true, track_eq]
    cases hfound : findScopes path { r with sources := r.sources.set (r.disk.resolve path) s } with
    | error f t =>
      rw [bind_of_error hfound]
      rw [← hu.sameDisk] at hplain hfile
      exact findScopes_error hplain hfile hfound
    | ok scopes t =>
      rw [bind_of_ok hfound]
      exact findScopes_complete hu hplain hfound

/-! ## The turn of a file. -/

theorem Ready.done (h : Ready disk settings (path :: T) r) : Ready disk settings T r where
  __ := h
  file other hother := h.file other (List.mem_cons_of_mem _ hother)
  kept other hother := h.kept other (List.mem_cons_of_mem _ hother)
  complete other hother := h.complete other (List.mem_cons_of_mem _ hother)

/-- The calls of a file are handed over, so that none is left. -/
theorem Ready.clear (h : Ready disk settings T r) (hpath : path ∉ T) :
    Ready disk settings T { r with
      scopes := r.scopes.modify path fun s => { s with callSites := [] } } where
  __ := h
  faithful := h.faithful.of_same rfl rfl
  complete other hother s hs := by
    have hne : other ≠ path := fun heq => hpath (heq ▸ hother)
    rw [Catalog.get?_modify, if_neg hne] at hs
    exact h.complete other hother s hs

theorem ready_putAway (h : Ready disk settings T r) (hpath : path ∉ T) (directory : String)
    (scopes : FileScopes) : Ready disk settings T (after (putAway directory path scopes) r) := by
  unfold putAway
  cases hsave : saveCached directory scopes r with
  | error e v =>
    have hsame : v = r := by
      rw [saveCached_eq] at hsave
      split at hsave
      · exact (EStateM.Result.error.inj hsave).2.symm
      · exact (EStateM.Result.error.inj hsave).2.symm
      · cases hsave
    rw [after_bind_of_error hsave, hsame]
    exact h
  | ok _ v =>
    obtain ⟨file, _, rfl⟩ := saveCached_ok hsave
    rw [after_bind_of_ok hsave]
    -- the path that is noted as put aside is none of those still to come
    have hspilled : Ready disk settings T { withMap r scopes file with
        spilled := if r.spilled.contains path then r.spilled else r.spilled ++ [path] } := by
      refine ⟨h.sameDisk, h.sameSettings, h.faithful.of_same rfl rfl, h.file, fun other hother => ?_, h.complete⟩
      split
      · exact h.kept other hother
      have hne : other ≠ path := fun heq => hpath (heq ▸ hother)
      rw [List.contains_append, h.kept other hother, List.contains_cons,
        List.contains_nil, Bool.or_false]
      exact beq_eq_false_iff_ne.mpr hne
    exact hspilled.rereads (careful_shelve _ hspilled.faithful)

/-- **Putting a file aside keeps the files that are still to come ready.** -/
theorem ready_evict (h : Ready disk settings T r) (hpath : path ∉ T)
    (hplain : disk.resolve path = path) : Ready disk settings T (after (evict path) r) := by
  rw [← h.sameDisk] at hplain
  rw [after, evict_eq, hplain]
  cases r.settings.cacheDir with
  | none => exact h
  | some directory =>
    cases r.scopes.get? path with
    | none => exact h
    | some scopes =>
      refine ready_putAway (r := { r with scopes := r.scopes.erase path }) ?_ hpath directory scopes
      refine ⟨h.sameDisk, h.sameSettings, h.faithful.of_same rfl rfl, h.file, h.kept,
        fun other hother s hs => ?_⟩
      have hne : other ≠ path := fun heq => hpath (heq ▸ hother)
      rw [Catalog.get?_erase, if_neg hne] at hs
      exact h.complete other hother s hs

def checkEach (path : String) (sites : List (Cursor × Closure)) : Audit Unit := do
  for (node, _) in sites do checkSite ⟨node, path⟩

theorem checkEach_cons {site : Cursor × Closure} {sites : List (Cursor × Closure)} :
    checkEach path (site :: sites)
      = checkSite ⟨site.1, path⟩ >>= fun _ => checkEach path sites := by
  unfold checkEach
  rw [List.forIn_cons]
  simp only [bind_assoc, pure_bind]

/-- What checking the calls of a file adds. -/
theorem adds_checkEach (hr : Ready disk settings T r) (sites : List (Cursor × Closure))
    (h : checkEach path sites r = .ok ⟨⟩ t) :
    Ready disk settings T t
      ∧ Watched.Adds (Watched.checkSites path sites) (checkEach path sites) r
        ((sites.map Prod.fst).flatMap fun node => Watched.visitsOf settings ⟨node, path⟩) := by
  induction sites generalizing r with
  | nil =>
    obtain ⟨-, rfl⟩ := pure_ok_iff.mp h
    exact ⟨hr, Watched.adds_plain (pure ()) r⟩
  | cons site sites ih =>
    rw [checkEach_cons] at h ⊢
    obtain ⟨_, u, hfirst, hrest⟩ := bind_ok_iff.mp h
    have hlock : (readyFrame disk settings).Lock T [path] (checkSite ⟨site.1, path⟩) :=
      lock_checkSite List.mem_cons_self
    obtain ⟨ht, hadds⟩ := ih (Once.ready_of_lock hlock hr hfirst) hrest
    refine ⟨ht, Watched.adds_bind hfirst ?_ hadds⟩
    rw [← hr.sameSettings]
    exact Watched.adds_checkSite

def fileVisits (disk : Disk) (settings : Settings) (number : Nat) (path : String) : List Visit :=
  (queryCalls settings (.root number (disk.treeAt path))).flatMap fun node =>
    Watched.visitsOf settings ⟨node, path⟩

/-- **When the turn of a file comes, the calls in it are checked, each of them once.** -/
theorem adds_analyzeFile (hr : Ready disk settings (path :: T) r) (hnew : path ∉ T)
    (h : analyzeFile path r = .ok ⟨⟩ t) :
    Ready disk settings T t ∧ ∃ number, Watched.Adds (Watched.analyzeFile path) (analyzeFile path) r
      (fileVisits disk settings number path) := by
  have hfound := scopesOf_ready hr List.mem_cons_self
  have hready := ready_scopesOf hr path
  rw [analyzeFile_eq] at h ⊢
  cases hscopes : scopesOf path r with
  | error f u =>
    rw [hscopes] at hfound
    have hthrow : passMissing path f u = .error f u := by
      rw [passMissing, if_neg (by rw [hfound]; exact Bool.false_ne_true)]
      rfl
    rw [bind_of_error ((tryCatch_of_error (map_of_error hscopes)).trans hthrow)] at h
    cases h
  | ok scopes u =>
    rw [hscopes] at hfound
    rw [after_of_ok hscopes] at hready
    obtain ⟨rfl, number, hcalls⟩ := hfound
    have htry : tryCatch (some <$> scopesOf scopes.path) (passMissing scopes.path) r
        = .ok (some scopes) u := tryCatch_of_ok (map_of_ok hscopes)
    rw [bind_of_ok htry] at h
    obtain ⟨_, v, hcheck, hevict⟩ := bind_ok_iff.mp h
    obtain ⟨hv, hadds⟩ := adds_checkEach (hready.done.clear hnew) scopes.callSites hcheck
    have ht := ready_evict hv hnew (hready.file _ List.mem_cons_self).2
    rw [after_of_ok hevict] at ht
    refine ⟨ht, number, ?_⟩
    rw [fileVisits, ← hcalls]
    have hfile : Watched.Adds (Watched.checkFile scopes) (checkFile scopes) u _ :=
      Watched.adds_plain_bind run_modify hadds
    rw [← List.append_nil (List.flatMap _ _)]
    refine Watched.adds_plain_bind htry ?_
    exact Watched.adds_bind (f := fun _ => Watched.plain (evict scopes.path))
      (g := fun _ => evict scopes.path) hcheck hfile (Watched.adds_plain _ v)

/-! ## Whole analyses. -/

/-- The calls of files that are to be checked, given the numbers of their trees. -/
def querySites (disk : Disk) (settings : Settings) (number : String → Nat) (files : List String) :
    List Site :=
  files.flatMap fun path =>
    (queryCalls settings (.root (number path) (disk.treeAt path))).map fun node => ⟨node, path⟩

theorem querySites_cons :
    (querySites disk settings number (path :: files)).flatMap (Watched.visitsOf settings)
      = fileVisits disk settings (number path) path
        ++ (querySites disk settings number files).flatMap (Watched.visitsOf settings) := by
  rw [querySites, List.flatMap_cons, List.flatMap_append, List.flatMap_map]
  rfl

theorem querySites_congr (h : ∀ path ∈ files, number path = other path) :
    querySites disk settings number files = querySites disk settings other files := by
  unfold querySites
  refine List.flatMap_congr fun path hpath => ?_
  rw [h path hpath]

theorem adds_analyzeAll (hnodup : files.Nodup) :
    ∀ {r t}, Ready disk settings files r → analyzeAll files r = .ok ⟨⟩ t →
      ∃ number, Watched.Adds (Watched.analyzeAll files) (analyzeAll files) r
        ((querySites disk settings number files).flatMap (Watched.visitsOf settings)) := by
  induction files with
  | nil => exact fun {r} _ _ _ => ⟨fun _ => 0, Watched.adds_plain (pure ()) r⟩
  | cons path files ih =>
    intro r t hr h
    rw [List.nodup_cons] at hnodup
    obtain ⟨_, u, hfirst, hrest⟩ := bind_ok_iff.mp h
    obtain ⟨hu, first, hfile⟩ := adds_analyzeFile hr hnodup.1 hfirst
    obtain ⟨number, hfiles⟩ := ih hnodup.2 hu hrest
    have hothers : ∀ other ∈ files, number other
        = (if other = path then first else number other) := by
      intro other hother
      have hne : other ≠ path := fun heq => hnodup.1 (heq ▸ hother)
      rw [if_neg hne]
    refine ⟨fun other => if other = path then first else number other, ?_⟩
    rw [querySites_cons, if_pos rfl, ← querySites_congr hothers]
    exact Watched.adds_bind hfirst hfile hfiles

/-- No call stands twice among those that are to be checked. -/
theorem querySites_apart (hnodup : files.Nodup) (number : String → Nat) :
    ((querySites disk settings number files).map fun site => (site.path, site.node.place)).Nodup := by
  unfold querySites
  rw [List.map_flatMap, List.nodup_flatMap]
  refine ⟨fun path _ => ?_, hnodup.imp fun {a b} hne => ?_⟩
  · rw [List.map_map]
    have hplaces := (Cursor.preorder_apart (.root (number path) (disk.treeAt path))).sublist
      (List.Sublist.map Cursor.place (List.filter_sublist (p := fun c => c.node.named
        && c.kind.isMethodCall && (settings.isCommandFactory c.nameText
          || settings.isFinder c.nameText))))
    refine List.Nodup.of_map Prod.snd ?_
    rw [List.map_map]
    exact hplaces
  · intro place ha hb
    obtain ⟨_, hsite, rfl⟩ := List.mem_map.mp ha
    obtain ⟨_, _, rfl⟩ := List.mem_map.mp hsite
    obtain ⟨_, hsite, heq⟩ := List.mem_map.mp hb
    obtain ⟨_, _, rfl⟩ := List.mem_map.mp hsite
    exact hne (congrArg Prod.fst heq).symm

/-- A call that is to be checked is taken for one thing. -/
theorem visitsOf_of_mem {site : Site} (h : site ∈ querySites disk settings number files) :
    Watched.visitsOf settings site = [.checked site,
      if settings.isCommandFactory site.node.nameText then .command site else .finder site] := by
  obtain ⟨path, _, hsite⟩ := List.mem_flatMap.mp h
  obtain ⟨node, hnode, rfl⟩ := List.mem_map.mp hsite
  have hname := (Bool.and_eq_true_iff.mp (List.mem_filter.mp hnode).2).2
  unfold Watched.visitsOf
  by_cases hcommand : settings.isCommandFactory node.nameText = true
  · rw [if_pos hcommand, if_pos hcommand]
  · rw [if_neg hcommand, if_neg hcommand, if_pos ((Bool.or_eq_true_iff.mp hname).resolve_left hcommand)]

/-- At the start of an analysis all its files are ready. -/
theorem ready_start (hdisk : disk.Proper) (target : String) (settings : Settings)
    (verbose debug : Bool) :
    Ready disk settings ((Run.start disk target settings verbose debug).targets target)
      (Run.start disk target settings verbose debug) where
  sameDisk := rfl
  sameSettings := rfl
  faithful := ⟨hdisk.absolute, List.nodup_nil, fun _ _ h => nomatch h⟩
  file path hpath := ((hdisk.scripts target).2 path (List.mem_filter.mp hpath).1).symm
  kept _ _ := rfl
  complete _ _ _ h := nomatch h

end Ready

/-- A project with one file: a finder, a call of another method, and a command. -/
def threeCalls : Disk :=
  ({ base := "/p" } : Disk).write "a.php" "<?php $x->find(); $x->save(); $db?->CreateCommand('q');".toUTF8

/-- The method of a call, and whether it is taken for a command. -/
def Visit.summary : Visit → String × Option Bool
  | .checked site => (site.node.nameText, none)
  | .command site => (site.node.nameText, some true)
  | .finder site => (site.node.nameText, some false)

end QueryAudit.Query
