/-
  QueryAudit.Proofs.Lockstep.Aside — putting files aside beside keeping them

  Trees and definitions are at hand in one run and put aside in the other, but a tree keeps its
  number and a map holds what was tracked (`Aside`). Reading, tracking, taking back and putting
  aside keep it.
-/

import QueryAudit.Proofs.Scope.Finding
import QueryAudit.Proofs.Scope.Growth
import QueryAudit.Proofs.Scope.Retracking

namespace QueryAudit

open Audit Php Record Scope Catalog Source

/-! ## Links and numbers. -/

def KeepsLinks (old new : Catalog Source) : Prop :=
  ∀ path number s, old.get? path = some s → s.Linked number →
    ∃ s', new.get? path = some s' ∧ s'.Linked number

section Links

variable {sources : Catalog Source} {path : String} {s : Source} {number : Nat}

theorem keepsLinks_set (h : ∀ s₀ number, sources.get? path = some s₀ → s₀.Linked number →
    s.Linked number) : KeepsLinks sources (sources.set path s) := by
  intro other number s₀ hs₀ hlinked
  rw [get?_set]
  by_cases heq : other = path
  · subst heq
    exact ⟨s, if_pos rfl, h s₀ number hs₀ hlinked⟩
  · exact ⟨s₀, by rw [if_neg heq, hs₀], hlinked⟩

theorem keepsLinks_modify {f : Source → Source}
    (h : ∀ s number, s.Linked number → (f s).Linked number) :
    KeepsLinks sources (sources.modify path f) := by
  intro other number s hs hlinked
  rw [get?_modify]
  by_cases heq : other = path
  · subst heq
    exact ⟨f s, by rw [if_pos rfl, hs, Option.map_some], h s number hlinked⟩
  · exact ⟨s, by rw [if_neg heq, hs], hlinked⟩

theorem Source.number?_of_linked (h : s.Linked number) : s.number? = some number := by
  obtain ⟨tree, htree, rfl⟩ := Option.map_eq_some_iff.mp h.1
  rw [number?, htree]

theorem Source.Linked.read (h : s.Linked number) (disk : Disk) (path : String) (next : Nat) :
    (s.read disk path next).Linked number := by
  obtain ⟨tree, htree, -⟩ := Option.map_eq_some_iff.mp h.1
  rw [read_of_tree htree]
  exact h

theorem Source.number?_read (s : Source) (disk : Disk) (path : String) (next : Nat) :
    (s.read disk path (s.number?.getD next)).number? = some (s.number?.getD next) := by
  obtain ⟨tree, htree, hnumber⟩ := Option.map_eq_some_iff.mp (s.tree_read disk path next)
  rw [number?, htree]
  exact congrArg some hnumber

theorem Source.number?_putAside (s : Source) : s.putAside.number? = s.number? := by
  unfold putAside number?
  cases s.tree <;> rfl

theorem Source.linked_of_tree (h : s.tree.map Prod.fst = some number) :
    ({ s with linked := s.tree.map Prod.fst } : Source).Linked number := ⟨h, h⟩

end Links

/-! ## The relation. -/

def Scope.FileScopes.withoutCalls (s : FileScopes) : FileScopes := { s with callSites := [] }

/-- How a run that keeps everything is related to one that puts the given files aside, with files
that are still to be analysed and files that are at hand in both. -/
structure Aside (disk : Disk) (directory : String) (files T N : List String) (l : Run) (p : Parts) :
    Prop where
  sameDisk : l.disk = disk
  strict : l.debug = false ∧ p.debug = false
  directories : l.settings.cacheDir = none ∧ p.cacheDir = some directory
  faithful : l.Faithful ∧ (l.beside p).Faithful
  numbers : p.sources.map number? = l.sources.map number?
  tracked : ∀ path s, l.scopes.get? path = some s →
    ∃ number, l.Passed path number ∧ s.withoutCalls = (l.pass path number).1.withoutCalls
  /-- What the second one tracks is the same up to calls, and linked. -/
  kept : ∀ path s, p.scopes.get? path = some s →
    (∃ s₀, l.scopes.get? path = some s₀ ∧ s.withoutCalls = s₀.withoutCalls)
      ∧ ∃ number source, p.sources.get? path = some source ∧ source.Linked number
  /-- What only the first one tracks was put aside by the second one. -/
  rest : ∀ path s, l.scopes.get? path = some s → p.scopes.get? path = none → path ∈ p.spilled
  /-- What was put aside is tracked by the first one, and its binding map is there. -/
  maps : ∀ path ∈ p.spilled, path ∈ files ∧ ∃ s file, l.scopes.get? path = some s
    ∧ disk.file? path = some file ∧ p.cache.get? (cacheName path) = some (mapOf s file)
  ground : ∀ name snapshot, p.cache.get? name = some (.snapshot snapshot) → snapshot.RestoresWell
  /-- Files that are still to come were not put aside, and are the same with the calls in them. -/
  pending : ∀ path ∈ T, path ∉ p.spilled ∧ p.scopes.get? path = l.scopes.get? path
  near : ∀ path ∈ N, (p.scopes.get? (disk.resolve path)).isSome = true

theorem Run.beside_disk (r : Run) (p : Parts) : (r.beside p).disk = r.disk := rfl

theorem Run.beside_sources (r : Run) (p : Parts) : (r.beside p).sources = p.sources := rfl

namespace Aside

variable {disk : Disk} {directory : String} {files T N : List String} {l t : Run} {p : Parts}
variable {path name : String} {s s₀ : FileScopes} {number : Nat}

theorem fewer {M : List String} (hNM : N ⊆ M) (h : Aside disk directory files T M l p) :
    Aside disk directory files T N l p :=
  { h with near := fun path hpath => h.near path (hNM hpath) }

theorem done (h : Aside disk directory files (path :: T) N l p) :
    Aside disk directory files T N l p :=
  { h with pending := fun other hother => h.pending other (List.mem_cons_of_mem _ hother) }

section Runs

variable (h : Aside disk directory files T N l p)
include h

theorem number_eq (path : String) :
    (p.sources.get? path).map number? = (l.sources.get? path).map number? := by
  rw [← get?_map, ← get?_map, h.numbers]

/-- What becomes known about a file has the same number. -/
theorem known_number (path : String) :
    ((l.beside p).known? path).map number? = (l.known? path).map number? := by
  have hnumber := h.number_eq (l.disk.resolve path)
  rw [Run.known?, Run.beside_disk, Run.beside_sources, Run.known?]
  cases hl : l.sources.get? (l.disk.resolve path) with
  | none =>
    rw [hl, Option.map_none, Option.map_eq_none_iff] at hnumber
    rw [hnumber]
  | some s =>
    rw [hl] at hnumber
    obtain ⟨s', hs', hnumber⟩ := Option.map_eq_some_iff.mp hnumber
    rw [hs']
    exact congrArg some hnumber

theorem path_of_tracked (hs : l.scopes.get? path = some s) : s.path = path := by
  obtain ⟨number, _, hsame⟩ := h.tracked path s hs
  have hpath : s.withoutCalls.path = (l.pass path number).1.withoutCalls.path := by rw [hsame]
  exact hpath.trans (run_wellFiled _ _ _).1

theorem path_of_kept (hs : p.scopes.get? path = some s) : s.path = path := by
  obtain ⟨⟨s₀, hs₀, hsame⟩, _⟩ := h.kept path s hs
  have hpath : s.withoutCalls.path = s₀.withoutCalls.path := by rw [hsame]
  have htracked : s₀.path = path := h.path_of_tracked hs₀
  exact hpath.trans htracked

theorem plain_of_tracked (hs : l.scopes.get? path = some s) : disk.resolve path = path := by
  obtain ⟨number, hpassed, _⟩ := h.tracked path s hs
  obtain ⟨source, hsource, _⟩ := hpassed.linked
  rw [← h.sameDisk]
  exact (h.faithful.1.each path source hsource).plain

/-- What the second run tracks is tracked well. -/
theorem sound : (l.beside p).Sound where
  absolute := h.faithful.1.absolute
  saved := h.ground
  tracked path s hs := by
    obtain ⟨⟨s₀, hs₀, hsame⟩, _⟩ := h.kept path s hs
    obtain ⟨number, _, hpass⟩ := h.tracked path s₀ hs₀
    have hfiled := (run_wellFiled (callNames l.settings) path (.root number (l.disk.treeAt path))).2
    have hentries : s.withoutCalls.entries = (l.pass path number).1.withoutCalls.entries := by
      rw [hsame, hpass]
    refine ⟨h.sameDisk ▸ h.plain_of_tracked hs₀, h.path_of_kept hs, ?_⟩
    show WellFiled path s.withoutCalls.entries
    rw [hentries]
    exact hfiled

/-! ## Changes elsewhere. -/

/-- A change that leaves files and definitions alone. -/
theorem shared (hr : Remembers l t) (hdebug : t.debug = l.debug) (hscopes : t.scopes = l.scopes)
    (lines : List String) :
    Aside disk directory files T N t { p with log := lines } where
  sameDisk := hr.disk.trans h.sameDisk
  strict := ⟨hdebug.trans h.strict.1, h.strict.2⟩
  directories := ⟨by rw [hr.settings]; exact h.directories.1, h.directories.2⟩
  faithful := ⟨h.faithful.1.of_same hr.disk hr.sources, h.faithful.2.of_same hr.disk rfl⟩
  numbers := by
    rw [hr.sources]
    exact h.numbers
  tracked path s hs := by
    rw [hscopes] at hs
    obtain ⟨number, hpassed, hsame⟩ := h.tracked path s hs
    refine ⟨number, hpassed.remembers hr, ?_⟩
    rw [Run.pass, hr.settings, hr.disk]
    exact hsame
  kept := hscopes ▸ h.kept
  rest := hscopes ▸ h.rest
  maps := hscopes ▸ h.maps
  ground := h.ground
  pending := hscopes ▸ h.pending
  near := h.near

theorem read {A B : Catalog Source} {next : Nat}
    (hA : ({ l with sources := A, nextTree := next } : Run).Faithful)
    (hB : ({ l.beside p with sources := B } : Run).Faithful)
    (hnumbers : B.map number? = A.map number?) (hlinks : KeepsLinks l.sources A)
    (hlinksBeside : KeepsLinks p.sources B) :
    Aside disk directory files T N { l with sources := A, nextTree := next }
      { p with sources := B } where
  __ := h
  faithful := ⟨hA, hB.of_same rfl rfl⟩
  numbers := hnumbers
  tracked path s hs := by
    obtain ⟨number, hpassed, hsame⟩ := h.tracked path s hs
    obtain ⟨source, hsource, hlinked⟩ := hpassed.linked
    exact ⟨number, ⟨hlinks path number source hsource hlinked, hpassed.replayed⟩, hsame⟩
  kept path s hs := by
    obtain ⟨hsame, number, source, hsource, hlinked⟩ := h.kept path s hs
    exact ⟨hsame, number, hlinksBeside path number source hsource hlinked⟩

/-! ## Changes to what is tracked. -/

/-- Both runs track a file that was not tracked. -/
theorem track (hnone : l.scopes.get? path = none) (hpassed : l.Passed path number)
    (hs : s = (l.pass path number).1)
    (hbeside : ∃ number source, p.sources.get? path = some source ∧ source.Linked number)
    (hname : disk.resolve name = path) :
    Aside disk directory files T (name :: N) { l with scopes := l.scopes.set path s }
      { p with scopes := p.scopes.set path s } where
  __ := h
  faithful := ⟨h.faithful.1.of_same rfl rfl, h.faithful.2.of_same rfl rfl⟩
  tracked other s' hs' := by
    rcases get?_set_some hs' with ⟨rfl, rfl⟩ | hs'
    · exact ⟨number, ⟨hpassed.linked, hpassed.replayed⟩, congrArg FileScopes.withoutCalls hs⟩
    · obtain ⟨m, hm, hsame⟩ := h.tracked other s' hs'
      exact ⟨m, ⟨hm.linked, hm.replayed⟩, hsame⟩
  kept other s' hs' := by
    show (∃ s₀, (l.scopes.set path s).get? other = some s₀ ∧ _) ∧ _
    rw [get?_set] at hs' ⊢
    split at hs'
    · next heq =>
      obtain rfl := Option.some.inj hs'
      subst heq
      exact ⟨⟨s, if_pos rfl, rfl⟩, hbeside⟩
    · next hne =>
      rw [if_neg hne]
      exact h.kept other s' hs'
  rest other s' hs' hnot := by
    rw [get?_set] at hs' hnot
    split at hnot
    · cases hnot
    · next hne =>
      rw [if_neg hne] at hs'
      exact h.rest other s' hs' hnot
  maps other hother := by
    obtain ⟨hmem, s', file, hs', hfile, hmap⟩ := h.maps other hother
    have hne : other ≠ path := fun heq => by
      rw [heq, hnone] at hs'
      cases hs'
    refine ⟨hmem, s', file, ?_, hfile, hmap⟩
    rw [get?_set, if_neg hne, hs']
  pending other hother := by
    obtain ⟨hkept, hsame⟩ := h.pending other hother
    refine ⟨hkept, ?_⟩
    rw [get?_set, get?_set, hsame]
  near other hother := by
    rw [get?_set]
    rcases List.mem_cons.mp hother with rfl | hother
    · rw [if_pos hname]
      rfl
    · split
      · rfl
      · exact h.near other hother

/-- The second run tracks a file again that it had put aside. -/
theorem takeBack (hspilled : path ∈ p.spilled) (hs₀ : l.scopes.get? path = some s₀)
    (hsame : s.withoutCalls = s₀.withoutCalls)
    (hbeside : ∃ number source, p.sources.get? path = some source ∧ source.Linked number)
    (hname : disk.resolve name = path) :
    Aside disk directory files T (name :: N) l { p with scopes := p.scopes.set path s } where
  __ := h
  faithful := ⟨h.faithful.1, h.faithful.2.of_same rfl rfl⟩
  kept other s' hs' := by
    rcases get?_set_some hs' with ⟨rfl, rfl⟩ | hs'
    · exact ⟨⟨s₀, hs₀, hsame⟩, hbeside⟩
    · exact h.kept other s' hs'
  rest other s' hs' hnot := by
    rw [get?_set] at hnot
    split at hnot
    · cases hnot
    · exact h.rest other s' hs' hnot
  pending other hother := by
    obtain ⟨hkept, hpending⟩ := h.pending other hother
    have hne : other ≠ path := fun heq => hkept (heq ▸ hspilled)
    refine ⟨hkept, ?_⟩
    rw [get?_set, if_neg hne, hpending]
  near other hother := by
    rw [get?_set]
    rcases List.mem_cons.mp hother with rfl | hother
    · rw [if_pos hname]
      rfl
    · split
      · rfl
      · exact h.near other hother

/-- Both runs forget the calls in a file that is not still to come. -/
theorem clear (hpath : path ∉ T) :
    Aside disk directory files T N
      { l with scopes := l.scopes.modify path fun s => { s with callSites := [] } }
      { p with scopes := p.scopes.modify path fun s => { s with callSites := [] } } := by
  -- what is tracked under each path stays, up to calls
  have hview : ∀ (scopes : Catalog FileScopes) other,
      ((scopes.modify path fun s => { s with callSites := [] }).get? other).map FileScopes.withoutCalls
        = (scopes.get? other).map FileScopes.withoutCalls := by
    intro scopes other
    rw [get?_modify]
    split
    · next heq =>
      rw [heq, Option.map_map]
      rfl
    · rfl
  have hback : ∀ {scopes : Catalog FileScopes} {other s},
      (scopes.modify path fun s => { s with callSites := [] }).get? other = some s →
        ∃ s₀, scopes.get? other = some s₀ ∧ s₀.withoutCalls = s.withoutCalls := by
    intro scopes other s hs
    have hmap := hview scopes other
    rw [hs] at hmap
    exact Option.map_eq_some_iff.mp hmap.symm
  have hthere : ∀ {scopes : Catalog FileScopes} {other s}, scopes.get? other = some s →
      ∃ s₁, (scopes.modify path fun s => { s with callSites := [] }).get? other = some s₁
        ∧ s₁.withoutCalls = s.withoutCalls := by
    intro scopes other s hs
    have hmap := hview scopes other
    rw [hs] at hmap
    exact Option.map_eq_some_iff.mp hmap
  refine ⟨h.sameDisk, h.strict, h.directories,
    ⟨h.faithful.1.of_same rfl rfl, h.faithful.2.of_same rfl rfl⟩, h.numbers, fun other s hs => ?_,
    fun other s hs => ?_, fun other s hs hnot => ?_, fun other hother => ?_, h.ground,
    fun other hother => ?_, fun other hother => ?_⟩
  · obtain ⟨s₀, hs₀, hsame⟩ := hback hs
    obtain ⟨number, hpassed, hpass⟩ := h.tracked other s₀ hs₀
    exact ⟨number, ⟨hpassed.linked, hpassed.replayed⟩, hsame.symm.trans hpass⟩
  · obtain ⟨s', hs', hsame⟩ := hback hs
    obtain ⟨⟨s₀, hs₀, hkept⟩, hlinked⟩ := h.kept other s' hs'
    obtain ⟨s₁, hs₁, hleft⟩ := hthere hs₀
    exact ⟨⟨s₁, hs₁, hsame.symm.trans (hkept.trans hleft.symm)⟩, hlinked⟩
  · obtain ⟨s₀, hs₀, _⟩ := hback hs
    refine h.rest other s₀ hs₀ (Option.map_eq_none_iff.mp ((hview p.scopes other).symm.trans ?_))
    exact Option.map_eq_none_iff.mpr hnot
  · obtain ⟨hmem, s, file, hs, hfile, hmap⟩ := h.maps other hother
    obtain ⟨s₁, hs₁, hsame⟩ := hthere hs
    refine ⟨hmem, s₁, file, hs₁, hfile, ?_⟩
    have hmapOf : mapOf s₁.withoutCalls file = mapOf s.withoutCalls file := by rw [hsame]
    exact hmap.trans (congrArg some hmapOf.symm)
  · obtain ⟨hkept, hsame⟩ := h.pending other hother
    have hne : other ≠ path := fun heq => hpath (heq ▸ hother)
    refine ⟨hkept, ?_⟩
    rw [get?_modify, if_neg hne, get?_modify, if_neg hne, hsame]
  · have hsome := h.near other hother
    rw [← Option.isSome_map (f := FileScopes.withoutCalls)] at hsome ⊢
    rwa [hview]

end Runs

/-- The second run puts a file aside that is not still to come. -/
theorem putAway (h : Aside disk directory files T [] l p)
    (hnames : ∀ a ∈ files, ∀ b ∈ files, cacheName a = cacheName b → a = b) (hmem : path ∈ files)
    (hpath : path ∉ T) (hs : p.scopes.get? path = some s) {file : File}
    (hfile : disk.file? path = some file) :
    Aside disk directory files T [] l { p with
      scopes := p.scopes.erase path
      cache := p.cache.set (cacheName path) (mapOf s file)
      spilled := if p.spilled.contains path then p.spilled else p.spilled ++ [path]
      sources := p.sources.modify path putAside } := by
  obtain ⟨⟨s₀, hs₀, hsame⟩, _⟩ := h.kept path s hs
  obtain ⟨number, _, hpass⟩ := h.tracked path s₀ hs₀
  have hspilled : ∀ other, other ∈ (if p.spilled.contains path then p.spilled else p.spilled ++ [path])
      ↔ other = path ∨ other ∈ p.spilled := by
    intro other
    split
    · next hold =>
      refine ⟨.inr, fun hother => hother.elim (fun heq => ?_) id⟩
      exact heq ▸ List.contains_iff_mem.mp hold
    · rw [List.mem_append, List.mem_singleton, or_comm]
  refine ⟨h.sameDisk, h.strict, h.directories, ⟨h.faithful.1, ?_⟩, ?_, h.tracked,
    fun other s' hs' => ?_, fun other s' hs' hnot => ?_, fun other hother => ?_,
    fun name snapshot hmap => ?_, fun other hother => ?_, nofun⟩
  · have haside : ({ l.beside p with sources := p.sources.modify path putAside } : Run).Faithful :=
      h.faithful.2.modify fun _ hsource => hsource.putAside
    exact haside.of_same rfl rfl
  · rw [map_modify number?_putAside]
    exact h.numbers
  · replace hs' : (p.scopes.erase path).get? other = some s' := hs'
    rw [get?_erase] at hs'
    split at hs'
    · cases hs'
    · next hne =>
      obtain ⟨hkept, number, source, hsource, hlinked⟩ := h.kept other s' hs'
      refine ⟨hkept, number, source, ?_, hlinked⟩
      rw [get?_modify, if_neg hne, hsource]
  · replace hnot : (p.scopes.erase path).get? other = none := hnot
    rw [get?_erase] at hnot
    refine (hspilled other).mpr ?_
    split at hnot
    · next heq => exact .inl heq
    · exact .inr (h.rest other s' hs' hnot)
  · show other ∈ files ∧ ∃ s' file', l.scopes.get? other = some s' ∧ disk.file? other = some file'
      ∧ (p.cache.set (cacheName path) (mapOf s file)).get? (cacheName other) = some (mapOf s' file')
    rw [get?_set]
    by_cases heq : other = path
    · subst heq
      refine ⟨hmem, s₀, file, hs₀, hfile, ?_⟩
      have hmapOf : mapOf s.withoutCalls file = mapOf s₀.withoutCalls file := by rw [hsame]
      rw [if_pos rfl]
      exact congrArg some hmapOf
    · have hold := ((hspilled other).mp hother).resolve_left heq
      obtain ⟨hother, s', file', hs', hfile', hmap⟩ := h.maps other hold
      have hne : cacheName other ≠ cacheName path := fun hname =>
        heq (hnames other hother path hmem hname)
      exact ⟨hother, s', file', hs', hfile', by rw [if_neg hne, hmap]⟩
  · replace hmap : (p.cache.set (cacheName path) (mapOf s file)).get? name = some (.snapshot snapshot) :=
      hmap
    rw [get?_set] at hmap
    split at hmap
    · -- the map is that of a pass
      have hmapOf : mapOf s.withoutCalls file = mapOf (l.pass path number).1.withoutCalls file := by
        rw [hsame, hpass]
      have horderly := run_orderly (callNames l.settings) path (.root number (l.disk.treeAt path))
      obtain ⟨hfile, hfiled⟩ :=
        run_wellFiled (callNames l.settings) path (.root number (l.disk.treeAt path))
      have hwell := save_restoresWell horderly (hfile.symm ▸ hfiled) file.written file.bytes.size
      have hsnapshot : CacheFile.snapshot snapshot = mapOf (l.pass path number).1 file :=
        (Option.some.inj hmap).symm.trans hmapOf
      rw [CacheFile.snapshot.inj hsnapshot]
      exact hwell
    · exact h.ground name snapshot hmap
  · obtain ⟨hkept, hpending⟩ := h.pending other hother
    have hne : other ≠ path := fun heq => hpath (heq ▸ hother)
    refine ⟨fun hin => ((hspilled other).mp hin).elim hne hkept, ?_⟩
    rw [get?_erase, if_neg hne, hpending]

end Aside

end QueryAudit
