/-
  QueryAudit.Proofs.Scope.Cached — binding maps on disk

  A map is written under a plain name made from the path, with size and moment of the file, and
  taken back when these are those of the file. Several paths may share a plain name, and the path in
  the map is never looked at: the map of one file comes back for another of the same plain name.

  Main results: `loadCached_saveCached`, `loadCached_after_saves`, `loadCached_twin`.
-/

import QueryAudit.Proofs.Audit.Reading
import QueryAudit.Proofs.Scope.Restoring

namespace QueryAudit.Audit

open Php Scope

variable {r r₁ : Run} {path directory : String} {scopes : FileScopes} {file : File}
  {saves rest : List Saving}

/-! ## Files that exist. -/

theorem source_eq :
    source path r = match r.sources.get? (r.disk.resolve path) with
      | some s => .ok s r
      | none =>
        if r.disk.isFile (r.disk.resolve path) then
          .ok {} { r with sources := r.sources.set (r.disk.resolve path) {} }
        else .error (.fileMissing (r.disk.resolve path)) r := by
  unfold source
  rw [bind_of_ok run_get]
  cases r.sources.get? (r.disk.resolve path) with
  | some s => rfl
  | none =>
    by_cases h : r.disk.isFile (r.disk.resolve path) = true
    · rw [if_pos h, if_pos h]
      rfl
    · rw [if_neg h, if_neg h]
      rfl

theorem source_of_file (hpath : r.disk.resolve path = path) (hfile : r.disk.file? path = some file) :
    ∃ s t, source path r = .ok s t ∧ t.disk = r.disk := by
  have hexists : r.disk.isFile path = true := by rw [Disk.isFile, hfile]; rfl
  rw [source_eq, hpath, if_pos hexists]
  cases r.sources.get? path with
  | some s => exact ⟨s, r, rfl, rfl⟩
  | none => exact ⟨_, _, rfl, rfl⟩

theorem content_of_file (hpath : r.disk.resolve path = path) (hfile : r.disk.file? path = some file) :
    ∃ bytes t, content path r = .ok bytes t ∧ t.disk = r.disk := by
  obtain ⟨s, t, hsource, hdisk⟩ := source_of_file hpath hfile
  unfold content
  rw [bind_of_ok hsource]
  cases s.content with
  | some bytes => exact ⟨bytes, t, rfl, hdisk⟩
  | none =>
    dsimp only
    rw [bind_of_ok run_get, hdisk, hpath, hfile]
    exact ⟨file.bytes, _, rfl, rfl⟩

theorem rootOf_of_file (hpath : r.disk.resolve path = path) (hfile : r.disk.file? path = some file) :
    ∃ root t, rootOf path r = .ok root t := by
  obtain ⟨s, t, hsource, hdisk⟩ := source_of_file hpath hfile
  unfold rootOf
  rw [bind_of_ok hsource]
  cases s.tree with
  | some tree => exact ⟨_, t, rfl⟩
  | none =>
    dsimp only
    rw [← hdisk] at hpath hfile
    obtain ⟨bytes, u, hcontent, _⟩ := content_of_file hpath hfile
    rw [bind_of_ok hcontent]
    unfold treeNumber
    cases s.shelved with
    | some shelved => exact ⟨_, _, rfl⟩
    | none => exact ⟨_, _, rfl⟩

/-! ## Saving and loading. -/

def mapOf (scopes : FileScopes) (file : File) : CacheFile :=
  .snapshot (scopes.save file.written file.bytes.size)

def withMap (r : Run) (scopes : FileScopes) (file : File) : Run :=
  { r with cache := r.cache.set (cacheName scopes.path) (mapOf scopes file) }

theorem saveCached_eq :
    saveCached directory scopes r
      = match cacheRefusal? r.disk directory, r.disk.file? scopes.path with
        | some failure, _ => .error failure r
        | none, none => .error (.unreadable scopes.path) r
        | none, some file => .ok ⟨⟩ (withMap r scopes file) := by
  unfold saveCached
  rw [bind_of_ok run_get]
  cases cacheRefusal? r.disk directory with
  | some failure => rfl
  | none => cases r.disk.file? scopes.path <;> rfl

/-- Saving puts the map under the plain name of its file. -/
theorem saveCached_ok (h : saveCached directory scopes r = .ok ⟨⟩ r₁) :
    ∃ file, r.disk.file? scopes.path = some file ∧ r₁ = withMap r scopes file := by
  rw [saveCached_eq] at h
  cases hrefusal : cacheRefusal? r.disk directory with
  | some failure =>
    rw [hrefusal] at h
    cases h
  | none =>
    rw [hrefusal] at h
    cases hfile : r.disk.file? scopes.path with
    | none =>
      rw [hfile] at h
      cases h
    | some file =>
      rw [hfile] at h
      exact ⟨file, rfl, (EStateM.Result.ok.inj h).2.symm⟩

theorem saveCached_of_file (hdirectory : cacheRefusal? r.disk directory = none)
    (hfile : r.disk.file? scopes.path = some file) :
    saveCached directory scopes r = .ok ⟨⟩ (withMap r scopes file) := by
  rw [saveCached_eq, hdirectory, hfile]

/-- Put the definitions of a file aside, once they were taken out. -/
def putAway (directory path : String) (scopes : FileScopes) : Audit Unit := do
  saveCached directory scopes
  modify fun r => { r with
    spilled := if r.spilled.contains path then r.spilled else r.spilled ++ [path] }
  shelve path

theorem evict_eq :
    evict path r = match r.settings.cacheDir, r.scopes.get? (r.disk.resolve path) with
      | some directory, some scopes => putAway directory (r.disk.resolve path) scopes
          { r with scopes := r.scopes.erase (r.disk.resolve path) }
      | _, _ => .ok ⟨⟩ r := by
  unfold evict
  rw [bind_of_ok run_get]
  cases r.settings.cacheDir with
  | none => rfl
  | some directory => cases hscopes : r.scopes.get? (r.disk.resolve path) <;> simp only [hscopes] <;> rfl

/-- Take back, for a path, a map that was saved; it comes back if its nodes are found. -/
def takeBack (path : String) (scopes : FileScopes) (file : File) : Audit (Option FileScopes) := do
  let root ← rootOf path
  link path
  return (scopes.save file.written file.bytes.size).restore? path root

/-- A map is taken back when its file had the size and the moment of the file that is asked for. -/
theorem loadCached_of_map {stamp : File}
    (hsaved : r.cache.get? (cacheName path) = some (mapOf scopes stamp))
    (hfile : r.disk.file? path = some file) :
    loadCached path r = (if stamp.written = file.written ∧ stamp.bytes.size = file.bytes.size
      then takeBack path scopes stamp else return none) r := by
  unfold loadCached
  rw [bind_of_ok run_get, hsaved]
  rw [hfile]
  by_cases h : stamp.written = file.written ∧ stamp.bytes.size = file.bytes.size
  · rw [if_pos h]
    exact congrFun (if_neg (by simp [FileScopes.save, h.1, h.2])) r
  rw [if_neg h]
  refine congrFun (if_pos ?_) r
  rw [Bool.or_eq_true, decide_eq_true_eq, decide_eq_true_eq]
  exact Decidable.not_and_iff_not_or_not.mp h

/-- The map of a file comes back: what is loaded has the bindings, blocks and complete scopes of the
map and answers as it does. -/
def ComesBack (scopes : FileScopes) (r : Run) : Prop :=
  ∃ fresh answer t u, rootOf scopes.path r = .ok fresh t ∧ loadCached scopes.path r = .ok answer u
    ∧ (∀ loaded, answer = some loaded → loaded.Matches scopes ∧ loaded.AnswersAs scopes)
    ∧ ((∀ b, scopes.Has b → b.FoundIn fresh) → answer = some { scopes with callSites := [] })

theorem loadCached_saveCached (callNames : List String) (path : String) (root : Cursor)
    (directory : String) (r r₁ : Run) (hpath : r.disk.resolve path = path)
    (hsave : saveCached directory (Tracker.run callNames path root).1 r = .ok ⟨⟩ r₁) :
    ComesBack (Tracker.run callNames path root).1 r₁ := by
  obtain ⟨hfile, hfiled⟩ := run_wellFiled callNames path root
  have horderly := run_orderly callNames path root
  generalize (Tracker.run callNames path root).1 = scopes at hsave hfile hfiled horderly ⊢
  subst hfile
  obtain ⟨file, hexists, rfl⟩ := saveCached_ok hsave
  obtain ⟨fresh, t, hfresh⟩ := rootOf_of_file (r := withMap r scopes file) hpath hexists
  have hsaved : (withMap r scopes file).cache.get? (cacheName scopes.path)
      = some (mapOf scopes file) := by
    rw [withMap, Catalog.get?_set, if_pos rfl]
  have hload := loadCached_of_map hsaved hexists
  rw [if_pos ⟨rfl, rfl⟩, takeBack, bind_of_ok hfresh, restore?_save horderly hfiled] at hload
  refine ⟨fresh, scopes.relocate fresh, t, _, hfresh, hload, fun loaded hloaded => ?_, fun hfound => ?_⟩
  · have hmatches := FileScopes.matches_of_relocate hloaded
    exact ⟨hmatches, hmatches.answersAs⟩
  · exact FileScopes.relocate_eq_self horderly hfiled hfound

/-- A file with a class constant, and a loop over an array that uses it. -/
def loopText : String :=
  "<?php\nclass K \x7b const C = 'c'; \x7d\nforeach (['x', 'k' => K::C] as $k => $v) $a[] = $v;\n"

def loopDisk : Disk :=
  ({ base := "/p" } : Disk).write "a.php" loopText.toUTF8

def loopScopes : FileScopes :=
  (Tracker.run ["createCommand"] "/p/a.php" (.root 0 (parse loopText.toUTF8))).1

theorem loadCached_saveCached_loop :
    ∃ r₁, saveCached "/p/cache" loopScopes { root := "/p", disk := loopDisk } = .ok ⟨⟩ r₁
      ∧ ComesBack loopScopes r₁ := by
  have hpath : loopScopes.path = "/p/a.php" := (run_wellFiled _ _ _).1
  have hfile : loopDisk.file? loopScopes.path = some ⟨loopText.toUTF8, 0⟩ := by
    rw [hpath]
    decide +kernel
  have hdirectory : cacheRefusal? loopDisk "/p/cache" = none := by decide +kernel
  have hsave := saveCached_of_file (r := { root := "/p", disk := loopDisk }) hdirectory hfile
  exact ⟨_, hsave, loadCached_saveCached _ _ _ _ _ _ (by decide +kernel) hsave⟩

/-! ## Many files in one directory. -/

/-- A map that is saved, and the file tree at that moment. -/
structure Saving where
  disk : Disk
  scopes : FileScopes

/-- Save maps one after the other, while the file tree changes. -/
def saveEach (directory : String) : List Saving → Audit Unit
  | [] => return
  | s :: rest => do
    modify fun r => { r with disk := s.disk }
    saveCached directory s.scopes
    saveEach directory rest

theorem saveEach_of_files
    (h : ∀ s ∈ saves, cacheRefusal? s.disk directory = none ∧ s.disk.isFile s.scopes.path = true) :
    ∀ r, ∃ r₁, saveEach directory saves r = .ok ⟨⟩ r₁ := by
  induction saves with
  | nil => exact fun r => ⟨r, rfl⟩
  | cons s rest ih =>
    intro r
    obtain ⟨hdirectory, hfile⟩ := h s List.mem_cons_self
    obtain ⟨file, hfile⟩ := Option.isSome_iff_exists.mp hfile
    obtain ⟨r₁, hrest⟩ := ih (fun t ht => h t (List.mem_cons_of_mem s ht))
      (withMap { r with disk := s.disk } s.scopes file)
    refine ⟨r₁, ?_⟩
    rw [saveEach, bind_of_ok run_modify,
      bind_of_ok (saveCached_of_file (r := { r with disk := s.disk }) hdirectory hfile)]
    exact hrest

def lastFor (path : String) (saves : List Saving) : Option Saving :=
  saves.reverse.find? fun s => s.scopes.path = path

def lastUnder (name : String) (saves : List Saving) : Option Saving :=
  saves.reverse.find? fun s => cacheName s.scopes.path = name

theorem lastUnder_cons {name : String} {s : Saving} :
    lastUnder name (s :: rest)
      = (lastUnder name rest).or (if cacheName s.scopes.path = name then some s else none) := by
  rw [lastUnder, List.reverse_cons, List.find?_append, lastUnder, List.find?_singleton]
  simp only [decide_eq_true_eq]

/-- Under a plain name stands the map that was saved last under that name. -/
theorem saveEach_ok (name : String) (saves : List Saving) :
    ∀ r, saveEach directory saves r = .ok ⟨⟩ r₁ →
      match lastUnder name saves with
      | some last => ∃ file, last.disk.file? last.scopes.path = some file
          ∧ r₁.cache.get? name = some (mapOf last.scopes file)
      | none => r₁.cache.get? name = r.cache.get? name := by
  induction saves with
  | nil =>
    intro r h
    obtain ⟨_, rfl⟩ := pure_ok_iff.mp h
    exact rfl
  | cons s rest ih =>
    intro r h
    rw [saveEach, bind_of_ok run_modify] at h
    obtain ⟨_, t, hsave, hrest⟩ := bind_ok_iff.mp h
    obtain ⟨file, hfile, rfl⟩ := saveCached_ok hsave
    have hlast := ih _ hrest
    rw [lastUnder_cons]
    cases hunder : lastUnder name rest with
    | some last =>
      rw [hunder] at hlast
      exact hlast
    | none =>
      rw [hunder] at hlast
      rw [withMap, Catalog.get?_set] at hlast
      by_cases hname : cacheName s.scopes.path = name
      · rw [if_pos hname]
        rw [if_pos hname.symm] at hlast
        exact ⟨file, hfile, hlast⟩
      · rw [if_neg hname]
        rw [if_neg (Ne.symm hname)] at hlast
        exact hlast

/-- The last map saved under the plain name of a path is that of the path, or one saved later. -/
theorem lastUnder_of_lastFor {own : Saving} (h : lastFor path saves = some own) :
    ∃ last, lastUnder (cacheName path) saves = some last ∧ cacheName last.scopes.path = cacheName path
      ∧ (last.scopes.path = path → last = own) := by
  rw [lastFor] at h
  rw [lastUnder]
  generalize saves.reverse = latest at h ⊢
  induction latest with
  | nil => cases h
  | cons s rest ih =>
    rw [List.find?_cons] at h ⊢
    by_cases hname : cacheName s.scopes.path = cacheName path
    · rw [decide_eq_true hname]
      refine ⟨s, rfl, hname, fun hpath => ?_⟩
      rw [decide_eq_true hpath] at h
      exact Option.some.inj h
    · have hpath : s.scopes.path ≠ path := fun hpath => hname (congrArg cacheName hpath)
      rw [decide_eq_false hpath] at h
      rw [decide_eq_false hname]
      exact ih h

/-- **Which map comes back.** The map saved last under the plain name of a file decides: it comes
back if its file had the same size and moment, and nothing does otherwise. So only the map of the
file itself comes back unless another path shares plain name, size and moment. -/
theorem loadCached_after_saves (directory path : String) (saves : List Saving) (r r₁ : Run)
    (now : Disk) (own : Saving) (file : File) (hsaves : saveEach directory saves r = .ok ⟨⟩ r₁)
    (hown : lastFor path saves = some own) (hfile : own.disk.file? path = some file)
    (hsame : now.file? path = some file) :
    (∃ last stamp, lastUnder (cacheName path) saves = some last
      ∧ last.disk.file? last.scopes.path = some stamp
      ∧ loadCached path { r₁ with disk := now } =
        (if stamp.written = file.written ∧ stamp.bytes.size = file.bytes.size
          then takeBack path last.scopes stamp else return none) { r₁ with disk := now })
    ∧ ((∀ s ∈ saves, s.scopes.path ≠ path → cacheName s.scopes.path = cacheName path →
        ∀ stamp, s.disk.file? s.scopes.path = some stamp →
          ¬ (stamp.written = file.written ∧ stamp.bytes.size = file.bytes.size)) →
      loadCached path { r₁ with disk := now } = .ok none { r₁ with disk := now }
      ∨ loadCached path { r₁ with disk := now }
          = takeBack path own.scopes file { r₁ with disk := now }) := by
  obtain ⟨last, hunder, hname, hlast⟩ := lastUnder_of_lastFor hown
  have hcache := saveEach_ok (cacheName path) saves r hsaves
  rw [hunder] at hcache
  obtain ⟨stamp, hstamp, hcache⟩ := hcache
  have hload := loadCached_of_map (r := { r₁ with disk := now }) hcache hsame
  refine ⟨⟨last, stamp, hunder, hstamp, hload⟩, fun hothers => ?_⟩
  have hmem : last ∈ saves := List.mem_reverse.mp (List.mem_of_find?_eq_some hunder)
  by_cases hpath : last.scopes.path = path
  · obtain rfl := hlast hpath
    rw [hpath, hfile] at hstamp
    obtain rfl := Option.some.inj hstamp
    rw [if_pos ⟨rfl, rfl⟩] at hload
    exact .inr hload
  · rw [if_neg (hothers last hmem hpath hname stamp hstamp)] at hload
    exact .inl hload

def keyScopes (path key : String) : FileScopes :=
  (Tracker.run [] path (.root 0 (parse ("<?php foreach (['x'] as " ++ key ++ " => $a[0]);").toUTF8))).1

/-- Two empty files whose paths share a plain name, the second one written `ticks` moments later. -/
def twinDisk (ticks : Nat) : Disk :=
  let first := ({ base := "/p" } : Disk).write "a b.php" ⟨#[]⟩
  (Nat.repeat Disk.tick ticks first).write "a_b.php" ⟨#[]⟩

/-- A map is saved for the first of the two files, and then one for the second. -/
def twinSaves (ticks : Nat) : List Saving :=
  [⟨twinDisk ticks, keyScopes "/p/a b.php" "$k"⟩, ⟨twinDisk ticks, keyScopes "/p/a_b.php" "$m"⟩]

theorem loadCached_after_saves_apart :
    ∃ r₁, saveEach "/p/cache" (twinSaves 1) { root := "/p", disk := twinDisk 1 } = .ok ⟨⟩ r₁
      ∧ (loadCached "/p/a b.php" { r₁ with disk := twinDisk 1 } = .ok none { r₁ with disk := twinDisk 1 }
        ∨ loadCached "/p/a b.php" { r₁ with disk := twinDisk 1 }
          = takeBack "/p/a b.php" (keyScopes "/p/a b.php" "$k") ⟨⟨#[]⟩, 0⟩
              { r₁ with disk := twinDisk 1 }) := by
  have hfile : (twinDisk 1).file? "/p/a b.php" = some ⟨⟨#[]⟩, 0⟩ := by decide +kernel
  have hother : (twinDisk 1).file? "/p/a_b.php" = some ⟨⟨#[]⟩, 1⟩ := by decide +kernel
  have hpath : (keyScopes "/p/a b.php" "$k").path = "/p/a b.php" := (run_wellFiled _ _ _).1
  have hotherPath : (keyScopes "/p/a_b.php" "$m").path = "/p/a_b.php" := (run_wellFiled _ _ _).1
  have hsaved : ∀ s ∈ twinSaves 1,
      cacheRefusal? s.disk "/p/cache" = none ∧ s.disk.isFile s.scopes.path = true := by
    have hdirectory : cacheRefusal? (twinDisk 1) "/p/cache" = none := by decide +kernel
    simp [twinSaves, hdirectory, hpath, hotherPath, Disk.isFile, hfile, hother]
  obtain ⟨r₁, hsaves⟩ := saveEach_of_files hsaved { root := "/p", disk := twinDisk 1 }
  refine ⟨r₁, hsaves, (loadCached_after_saves "/p/cache" "/p/a b.php" (twinSaves 1) _ r₁ (twinDisk 1)
    ⟨twinDisk 1, keyScopes "/p/a b.php" "$k"⟩ _ hsaves ?_ hfile hfile).2 ?_⟩
  · simp [lastFor, twinSaves, hpath, hotherPath]
  intro s hs hne _ stamp hstamp hsame
  rcases List.mem_pair.mp hs with rfl | rfl
  · exact hne hpath
  · rw [hotherPath, hother] at hstamp
    obtain rfl := Option.some.inj hstamp
    cases hsame.1

/-- **The map of another file comes back**: it binds the key of the loop of that file. -/
theorem loadCached_twin :
    (match (do saveEach "/p/cache" (twinSaves 0); loadCached "/p/a b.php" : Audit _)
        { root := "/p", disk := twinDisk 0 } with
      | .ok (some loaded) _ => loaded.closures.values.map Catalog.names
      | _ => []) = [["$m"], []]
    ∧ (keyScopes "/p/a b.php" "$k").closures.values.map Catalog.names = [["$k"], []] := by
  decide +kernel

end QueryAudit.Audit
