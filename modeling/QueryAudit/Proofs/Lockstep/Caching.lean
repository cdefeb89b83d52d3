/-
  QueryAudit.Proofs.Lockstep.Caching — binding maps are nothing to an analysis

  An analysis that keeps what it tracks is run beside one that puts files aside and takes them back.
  A directory for binding maps that cannot be had ends the second one alone.

  Main results: `Aside.lock_scopesOf`, `Aside.agree_evict`, `analyze_cached`, `analyze_cacheBlocked`.
-/

import QueryAudit.Proofs.Lockstep.Aside
import QueryAudit.Proofs.Lockstep.Checking

namespace QueryAudit

open Audit Php Record Scope QueryAudit.Frame Source Aside Catalog

variable {target : String} {files : List String} {r l : Run}

/-! ## The frame. -/

/-- Beside a run that keeps everything, one that puts the given files aside. -/
def asideFrame (disk : Disk) (directory : String) (files : List String) : Frame where
  At := Aside disk directory files
  Gone _ _ := False
  fine _ := True
  Target path := path ∈ files ∧ disk.resolve path = path
  Apart a b := a ≠ b

namespace Aside

variable {disk : Disk} {directory : String} {files T N : List String} {l t : Run} {p : Parts}
variable {path name : String} {s s₀ : FileScopes} {number : Nat} {α : Type} {a s' source : Source}
  {file : File} {node : Cursor} {q : Parts} {b : Binding}

theorem keepsLinks_known {s : Source} (hs : r.known? path = some s)
    (ha : ∀ number, s.Linked number → a.Linked number) :
    KeepsLinks r.sources (r.sources.set (r.disk.resolve path) a) := by
  refine keepsLinks_set fun s₀ number hs₀ hlinked => ?_
  unfold Run.known? at hs
  rw [hs₀] at hs
  exact ha number (Option.some.inj hs ▸ hlinked)

section Runs

variable (h : Aside disk directory files T N l p)

include h

theorem told (a b : List String) :
    Aside disk directory files T N { l with log := a } { p with log := b } :=
  h.shared (t := { l with log := a })
    ⟨rfl, rfl, rfl, fun _ h => h, fun _ d h => ⟨d, h, rfl, rfl⟩⟩ rfl rfl b

theorem tame (htame : Tame l t) : Aside disk directory files T N t p :=
  h.shared htame.remembers (by rw [htame.rest]) (by rw [htame.rest]) p.log

theorem exists_known {s : Source} (hs : l.known? path = some s) :
    ∃ s', (l.beside p).known? path = some s' ∧ s'.number? = s.number? := by
  have hnumber := h.known_number path
  rw [hs] at hnumber
  exact Option.map_eq_some_iff.mp hnumber

theorem known_none (hs : l.known? path = none) : (l.beside p).known? path = none := by
  have hnumber := h.known_number path
  rw [hs] at hnumber
  exact Option.map_eq_none_iff.mp hnumber

/-- Both runs learn something about a file. -/
theorem learn {s b : Source} (hs : l.known? path = some s)
    (hs' : (l.beside p).known? path = some s') (ha : a.Faithful l.disk (l.disk.resolve path))
    (hb : b.Faithful l.disk (l.disk.resolve path)) (hnumber : b.number? = a.number?)
    (hlinks : ∀ number, s.Linked number → a.Linked number)
    (hlinks' : ∀ number, s'.Linked number → b.Linked number) (next : Nat) :
    Aside disk directory files T N
      { l with sources := l.sources.set (l.disk.resolve path) a, nextTree := next }
      { p with sources := p.sources.set (l.disk.resolve path) b } := by
  refine h.read (h.faithful.1.set ha next) (h.faithful.2.set hb l.nextTree) ?_
    (keepsLinks_known hs hlinks) ?_
  · rw [map_set, map_set, h.numbers, hnumber]
  · exact keepsLinks_known (r := l.beside p) hs' hlinks'

theorem nearer (hname : (p.scopes.get? (disk.resolve name)).isSome = true) :
    Aside disk directory files T (name :: N) l p :=
  { h with near := List.forall_mem_cons.mpr ⟨hname, h.near⟩ }

end Runs

theorem lock_hardError (e : HardError) :
    (asideFrame disk directory files).Lock T N (hardError e) where
  agree l p h := by
    rw [hardError_strict e h.strict.1, hardError_strict e (r := l.beside p) h.strict.2]
    refine .error (p := p) ?_ trivial
    exact h.shared (t := { l with hardErrors := l.hardErrors + 1 })
      ⟨rfl, rfl, rfl, fun _ h => h, fun _ d h => ⟨d, h, rfl, rfl⟩⟩ rfl rfl p.log
  alone _ _ := False.elim

theorem not_alone {e : HardError} {result : EStateM.Result Failure Run α} :
    ¬ (asideFrame disk directory files).Alone e result := by
  intro h
  cases result with
  | ok _ _ => exact h
  | error _ _ => exact h.1

instance : (asideFrame disk directory files).Basic where
  fewer hNM h := fewer hNM h
  still hstill h := tame h hstill.tame
  told a b _ h := told h a b
  goneStill _ := False.elim
  goneTold _ := False.elim
  plain _ := trivial
  hardError _ _ := lock_hardError

/-! ## Reading. -/

theorem lock_source :
    (asideFrame disk directory files).Lock T N ((fun _ => ()) <$> Audit.source path) where
  agree l p h := by
    cases hs : l.known? path with
    | none =>
      rw [map_of_error (source_unknown hs), map_of_error (source_unknown (h.known_none hs))]
      exact .error h trivial
    | some s =>
      obtain ⟨s', hs', hnumber⟩ := h.exists_known hs
      rw [map_of_ok (source_known h.faithful.1 hs), map_of_ok (source_known h.faithful.2 hs')]
      have hlearn := h.learn hs hs' (h.faithful.1.known hs) (h.faithful.2.known hs') hnumber
        (fun _ h => h) (fun _ h => h) l.nextTree
      exact .ok (p := { p with sources := p.sources.set (l.disk.resolve path) s' }) hlearn
  alone _ _ := False.elim

theorem lock_rootOf : (asideFrame disk directory files).Lock T N (Audit.rootOf path) where
  agree l p h := by
    rw [rootOf_eq h.faithful.1, rootOf_eq h.faithful.2]
    cases hs : l.known? path with
    | none =>
      rw [h.known_none hs]
      exact .error h trivial
    | some s =>
      obtain ⟨s', hs', hnumber⟩ := h.exists_known hs
      have hsame : s'.number?.getD l.nextTree = s.number?.getD l.nextTree := by rw [hnumber]
      have hnext : s'.nextAfter l.nextTree = s.nextAfter l.nextTree := by
        rw [nextAfter, nextAfter, hnumber]
      have hread' := number?_read s' l.disk (l.disk.resolve path) l.nextTree
      rw [hsame, ← number?_read s l.disk (l.disk.resolve path) l.nextTree] at hread'
      have hlearn := h.learn hs hs' ((h.faithful.1.known hs).read (s.number?.getD l.nextTree))
        ((h.faithful.2.known hs').read (s.number?.getD l.nextTree)) hread'
        (fun _ h => h.read _ _ _) (fun _ h => h.read _ _ _) (s.nextAfter l.nextTree)
      rw [hs']
      change (asideFrame disk directory files).Agree _ _ _ (.ok
        (Cursor.root (s'.number?.getD l.nextTree) (l.disk.treeAt (l.disk.resolve path)))
        { l.beside p with
          sources := p.sources.set (l.disk.resolve path)
            (s'.read l.disk (l.disk.resolve path) (s'.number?.getD l.nextTree))
          nextTree := s'.nextAfter l.nextTree })
      rw [hsame, hnext]
      exact .ok (p := { p with
        sources := p.sources.set (l.disk.resolve path) (s'.read _ _ _) }) hlearn
  alone _ _ := False.elim

theorem Source.Faithful.link {s : Source} (hs : s.Faithful disk path) :
    ({ s with linked := s.tree.map Prod.fst } : Source).Faithful disk path :=
  ⟨hs.file, hs.plain, hs.content, hs.tree, hs.shelved⟩

theorem lock_link : (asideFrame disk directory files).Lock T N (Audit.link path) where
  agree l p h := by
    have hnumbers : ∀ sources : Catalog Source,
        (sources.modify (l.disk.resolve path) fun s => { s with linked := s.tree.map Prod.fst }).map
          number? = sources.map number? :=
      fun sources => map_modify (f := number?)
        (g := fun s => { s with linked := s.tree.map Prod.fst }) (fun _ => rfl) sources _
    have hkeeps : ∀ (s : Source) number, s.Linked number →
        ({ s with linked := s.tree.map Prod.fst } : Source).Linked number :=
      fun s number hlinked => linked_of_tree hlinked.1
    have hlink : ({ l with sources := l.sources.modify (l.disk.resolve path) fun s =>
        { s with linked := s.tree.map Prod.fst }, nextTree := l.nextTree } : Run).Faithful :=
      h.faithful.1.modify fun s hs => Source.Faithful.link hs
    have hread := h.read hlink (h.faithful.2.modify fun s hs => Source.Faithful.link hs)
      ((hnumbers p.sources).trans (h.numbers.trans (hnumbers l.sources).symm))
      (keepsLinks_modify hkeeps) (keepsLinks_modify hkeeps)
    unfold Audit.link
    refine .ok (p := { p with
      sources := p.sources.modify (l.disk.resolve path) fun s =>
        { s with linked := s.tree.map Prod.fst } }) ?_
    exact hread
  alone _ _ := False.elim

/-! ## Tracking. -/

theorem lock_findScopes : (asideFrame disk directory files).Lock T N (findScopes path) := by
  unfold findScopes
  refine lock_bind lock_shown fun view => ?_
  refine lock_bind lock_log fun _ => ?_
  refine lock_bind lock_rootOf fun root => ?_
  refine lock_reads (fun _ _ _ => rfl) fun r => ?_
  unfold takePass
  refine lock_bind lock_link fun _ => ?_
  exact lock_then lock_replay

/-! ## Taking back. -/

theorem save_withoutCalls (written size : Nat) :
    s.withoutCalls.save written size = s.save written size := rfl

/-- The map of a file that was put aside comes back from its tree, or not at all. -/
theorem restore_map (hsame : s₀.withoutCalls = (r.pass path number).1.withoutCalls) :
    (s₀.save file.written file.bytes.size).restore? path (.root number (r.disk.treeAt path)) = none
      ∨ (s₀.save file.written file.bytes.size).restore? path (.root number (r.disk.treeAt path))
        = some (r.pass path number).1.withoutCalls := by
  obtain ⟨hfile, hfiled⟩ := run_wellFiled (callNames r.settings) path (.root number (r.disk.treeAt path))
  have horderly := run_orderly (callNames r.settings) path (.root number (r.disk.treeAt path))
  have hsave : s₀.save file.written file.bytes.size
      = (r.pass path number).1.save file.written file.bytes.size := by
    rw [← save_withoutCalls, hsame, save_withoutCalls]
  have hrestore := restore?_save horderly (hfile.symm ▸ hfiled) file.written file.bytes.size
    (.root number (r.disk.treeAt path))
  rw [hfile] at hrestore
  have hback := @run_relocate (callNames r.settings) path (.root number (r.disk.treeAt path))
    parse_distinct
  rw [hsave, Run.pass, hrestore]
  exact hback

section Finding

variable (h : Aside disk directory files T N l p)

include h

/-- Both runs track a file that neither has tracked. -/
theorem agree_track (hnone : l.scopes.get? path = none)
    (hplain : disk.resolve path = path) (hname : disk.resolve name = path) :
    (asideFrame disk directory files).Agree
      (fun s l p => s.path = path ∧ Aside disk directory files T (name :: N) l p)
      (Aside disk directory files T N) (Audit.track path l) (Audit.track path (l.beside p)) := by
  have hlock : (asideFrame disk directory files).Lock T N (findScopes path) := lock_findScopes
  have hagree := hlock.agree l p h
  rw [track_eq]
  generalize hleft : findScopes path l = left at hagree
  generalize hright : findScopes path (l.beside p) = right at hagree
  cases hagree with
  | ok hafter =>
    rename_i scopes t q
    rw [bind_of_ok hleft, bind_of_ok hright]
    have hplain' : l.disk.resolve path = path := by rw [h.sameDisk, hplain]
    obtain ⟨number, hpassed, hscopes⟩ := findScopes_tracked h.faithful.1 hplain' h.strict.1 hleft
    obtain ⟨number', hpassed', -⟩ :=
      findScopes_tracked (r := l.beside p) h.faithful.2 hplain' h.strict.2 hright
    obtain ⟨source, hsource, hlinked⟩ := hpassed'.linked
    have hkept := careful_findScopes.of_ok hleft h.faithful.1
    refine .ok (p := { q with scopes := q.scopes.set path scopes }) ⟨?_, ?_⟩
    · rw [hscopes]
      exact (run_wellFiled _ _ _).1
    · exact hafter.track (by rw [hkept.scopes, hnone]) hpassed hscopes
        ⟨number', source, hsource, hlinked⟩ hname
  | error hafter hf =>
    rw [bind_of_error hleft, bind_of_error hright]
    exact .error hafter hf
  | gone hl halone => exact (not_alone halone).elim

/-- A file that was put aside is at hand again when it is asked for. -/
theorem scopesOf_spilled (hs₀ : l.scopes.get? path = some s₀)
    (hnone : p.scopes.get? path = none) (hname : disk.resolve name = path) :
    ∃ s q, Audit.scopesOf name (l.beside p) = .ok s (l.beside q) ∧ s.withoutCalls = s₀.withoutCalls
      ∧ Aside disk directory files T (name :: N) l q := by
  have hspilled := h.rest path s₀ hs₀ hnone
  have hplain := h.plain_of_tracked hs₀
  have hplain' : l.disk.resolve path = path := by rw [h.sameDisk, hplain]
  obtain ⟨-, s', file, hs', hfile, hmap⟩ := h.maps path hspilled
  obtain rfl : s₀ = s' := Option.some.inj (hs₀.symm.trans hs')
  obtain ⟨number, hpassed, hsame⟩ := h.tracked path s₀ hs₀
  obtain ⟨source, hsource, hlinked⟩ := hpassed.linked
  -- the tree has the same number there
  obtain ⟨source', hsource', hnumber⟩ : ∃ source', p.sources.get? path = some source'
      ∧ source'.number? = some number := by
    have hboth := h.number_eq path
    rw [hsource, Option.map_some, number?_of_linked hlinked] at hboth
    exact Option.map_eq_some_iff.mp hboth
  have hname' : (l.beside p).disk.resolve name = path := by
    rw [← hname, ← h.sameDisk]
    rfl
  have hknown : l.known? path = some source := by
    rw [Run.known?, hplain', hsource]
  have hknown' : (l.beside p).known? path = some source' := by
    rw [Run.known?, Run.beside_disk, Run.beside_sources, hplain', hsource']
  have hread := (h.faithful.2.known hknown').read number
  rw [show (l.beside p).disk = l.disk from rfl, hplain'] at hread
  -- the tree is read again and linked, and nothing else changes
  generalize hfresh : source'.read l.disk path number = fresh at hread
  have htree : fresh.tree.map Prod.fst = some number := by
    have := source'.tree_read l.disk path number
    rwa [hnumber, Option.getD_some, hfresh] at this
  let linked : Source := { fresh with linked := fresh.tree.map Prod.fst }
  have hq : Aside disk directory files T N l { p with sources := p.sources.set path linked } := by
    have hlearn := h.learn (a := source) (b := linked) hknown hknown'
      (h.faithful.1.known hknown) (by rw [hplain']; exact Source.Faithful.link hread)
      (by
        obtain ⟨tree, htree', hfst⟩ := Option.map_eq_some_iff.mp htree
        rw [Source.number?_of_linked hlinked, Source.number?, show linked.tree = _ from htree']
        exact congrArg some hfst)
      (fun _ h => h) (fun m hm => by
        have hm' := (hm.read l.disk path number)
        rw [hfresh] at hm'
        exact linked_of_tree hm'.1) l.nextTree
    rwa [hplain', set_of_get? h.faithful.1.once hsource] at hlearn
  have hload : loadCached path (l.beside p)
      = .ok ((s₀.save file.written file.bytes.size).restore? path (.root number (l.disk.treeAt path)))
        (l.beside { p with sources := p.sources.set path linked }) := by
    have hroot := rootOf_numbered h.faithful.2 hknown' hnumber
    rw [show (l.beside p).disk = l.disk from rfl, hplain', hfresh] at hroot
    have hfile' : (l.beside p).disk.file? path = some file := by
      rw [← hfile, ← h.sameDisk]
      rfl
    rw [loadCached_of_map (r := l.beside p) hmap hfile', if_pos ⟨rfl, rfl⟩, Audit.takeBack,
      bind_of_ok hroot, link]
    have hmodify : (p.sources.set path fresh).modify (l.disk.resolve path)
        (fun s => { s with linked := s.tree.map Prod.fst }) = p.sources.set path linked := by
      rw [hplain']
      exact modify_set h.faithful.2.once _ _ _
    exact congrArg (fun sources => EStateM.Result.ok _ (l.beside { p with sources := sources })) hmodify
  have hsourceOf : Audit.source path (l.beside p) = .ok source' (l.beside p) := by
    rw [source_eq, Run.beside_disk, Run.beside_sources, hplain', hsource']
  have hcached : ((l.beside p).settings.cacheDir.isSome && (l.beside p).spilled.contains path) = true := by
    show (p.cacheDir.isSome && p.spilled.contains path) = true
    rw [h.directories.2, List.contains_iff_mem.mpr hspilled]
    rfl
  have hatHand : ∃ number s, (p.sources.set path linked).get? path = some s ∧ s.Linked number :=
    ⟨number, linked, by rw [get?_set, if_pos rfl], linked_of_tree htree⟩
  have hscopes : (l.beside p).scopes.get? path = none := hnone
  unfold Audit.scopesOf
  rw [bind_of_ok run_get, hname', hscopes]
  dsimp only
  rw [bind_of_ok hsourceOf, if_pos hcached, bind_of_ok hload]
  rcases restore_map hsame with hback | hback
  · -- the map does not come back: the pass is made again
    rw [hback]
    have hpassed' : (l.beside { p with sources := p.sources.set path linked }).Passed path number :=
      ⟨⟨linked, by show (p.sources.set path linked).get? path = _; rw [get?_set, if_pos rfl],
        linked_of_tree htree⟩, hpassed.replayed⟩
    obtain ⟨lines, hagain⟩ := findScopes_again hq.faithful.2 hplain' hpassed'
    have hpass : (l.beside { p with sources := p.sources.set path linked }).pass path number
        = l.pass path number := rfl
    rw [hpass] at hagain
    dsimp only
    rw [track_eq, bind_of_ok hagain]
    generalize l.pass path number = pass at hsame
    refine ⟨pass.1, { p with
      sources := p.sources.set path linked, log := lines
      scopes := p.scopes.set path pass.1 }, rfl, hsame.symm, ?_⟩
    exact (hq.told l.log lines).takeBack hspilled hs₀ hsame.symm hatHand hname
  · rw [hback]
    dsimp only
    rw [shown, bind_assoc, bind_of_ok run_get, pure_bind, bind_of_ok (log_eq _ _)]
    generalize linesAfter _ _ = lines
    generalize l.pass path number = pass at hsame
    refine ⟨pass.1.withoutCalls, { p with
      sources := p.sources.set path linked, log := lines
      scopes := p.scopes.set path pass.1.withoutCalls }, rfl, hsame.symm, ?_⟩
    exact (hq.told l.log lines).takeBack hspilled hs₀ hsame.symm hatHand hname

/-- Neither run has tracked a file that the first one has not. -/
theorem agree_untracked (hnone : l.scopes.get? (disk.resolve name) = none) :
    (asideFrame disk directory files).Agree
      (fun s l p => s.path = disk.resolve name ∧ Aside disk directory files T (name :: N) l p)
      (Aside disk directory files T N) (Audit.scopesOf name l) (Audit.scopesOf name (l.beside p)) := by
  have hagain : disk.resolve (disk.resolve name) = disk.resolve name := by
    rw [← h.sameDisk]
    exact Disk.resolve_resolve h.faithful.1.absolute name
  have hagain' : l.disk.resolve (disk.resolve name) = disk.resolve name := by rw [h.sameDisk, hagain]
  have hleft : l.disk.resolve name = disk.resolve name := by rw [h.sameDisk]
  have hright : (l.beside p).disk.resolve name = disk.resolve name := hleft
  have hnone' : (l.beside p).scopes.get? (disk.resolve name) = none := by
    cases hs : (l.beside p).scopes.get? (disk.resolve name) with
    | none => rfl
    | some s =>
      obtain ⟨⟨s₀, hs₀, -⟩, -⟩ := h.kept _ s hs
      rw [hnone] at hs₀
      cases hs₀
  have hcached : ¬ (l.settings.cacheDir.isSome && l.spilled.contains (disk.resolve name)) = true := by
    rw [h.directories.1]
    exact Bool.false_ne_true
  have hcached' : ¬ ((l.beside p).settings.cacheDir.isSome
      && (l.beside p).spilled.contains (disk.resolve name)) = true := by
    intro hboth
    have hspilled := List.contains_iff_mem.mp (Bool.and_eq_true_iff.mp hboth).2
    obtain ⟨-, s, _, hs, -⟩ := h.maps _ hspilled
    rw [hnone] at hs
    cases hs
  unfold Audit.scopesOf
  rw [bind_of_ok run_get, bind_of_ok run_get, hleft, hright, hnone, hnone']
  dsimp only
  cases hs : l.known? (disk.resolve name) with
  | none =>
    rw [bind_of_error (source_unknown hs), bind_of_error (source_unknown (h.known_none hs))]
    exact .error h trivial
  | some s =>
    obtain ⟨s', hs', hnumber⟩ := h.exists_known hs
    rw [bind_of_ok (source_known h.faithful.1 hs), bind_of_ok (source_known h.faithful.2 hs'),
      if_neg hcached, if_neg hcached']
    have hlearn := h.learn hs hs' (h.faithful.1.known hs) (h.faithful.2.known hs') hnumber
      (fun _ h => h) (fun _ h => h) l.nextTree
    refine (agree_track hlearn hnone hagain rfl).mono (fun _ _ _ h => h) fun l' p' hafter => hafter

end Finding

theorem scopesOf_held (hs : r.scopes.get? (r.disk.resolve name) = some s) :
    Audit.scopesOf name r = .ok s r := by
  unfold Audit.scopesOf
  rw [bind_of_ok run_get, hs]
  rfl

theorem lock_scopesOf (path : String) : (asideFrame disk directory files).LockTo T N (fun _ => [path])
    ((fun s : FileScopes => { s with callSites := [] }) <$> Audit.scopesOf path) where
  agree l p h := by
    cases hs₀ : l.scopes.get? (disk.resolve path) with
    | none =>
      exact agree_bind (h.agree_untracked hs₀) (fun _ _ h => h) (fun _ _ _ hafter => .ok hafter.2)
        fun _ _ _ => False.elim
    | some s₀ =>
      have hheld : Audit.scopesOf path l = .ok s₀ l := scopesOf_held (by rw [h.sameDisk]; exact hs₀)
      rw [map_of_ok hheld]
      cases hs : p.scopes.get? (disk.resolve path) with
      | some s =>
        obtain ⟨⟨s₁, hs₁, hsame⟩, -⟩ := h.kept _ s hs
        obtain rfl : s₀ = s₁ := Option.some.inj (hs₀.symm.trans hs₁)
        have hheld' : Audit.scopesOf path (l.beside p) = .ok s (l.beside p) :=
          scopesOf_held (by
            show p.scopes.get? (l.disk.resolve path) = _
            rw [h.sameDisk, hs])
        rw [map_of_ok hheld', show ({ s with callSites := [] } : FileScopes) = _ from hsame]
        exact .ok (h.nearer (by rw [hs]; rfl))
      | none =>
        obtain ⟨s, q, hback, hsame, hq⟩ := h.scopesOf_spilled hs₀ hs rfl
        rw [map_of_ok hback, show ({ s with callSites := [] } : FileScopes) = _ from hsame]
        exact .ok hq
  alone _ _ := False.elim

/-! ## Looking at files that are at hand. -/

theorem lock_above (hpath : path ∈ N) :
    (asideFrame disk directory files).Lock T N (Audit.above path node) where
  agree l p h := by
    obtain ⟨s, hs⟩ := Option.isSome_iff_exists.mp (h.near path hpath)
    obtain ⟨⟨s₀, hs₀, -⟩, number', source', hsource', hlinked'⟩ := h.kept _ s hs
    obtain ⟨number, hpassed, -⟩ := h.tracked _ s₀ hs₀
    obtain ⟨source, hsource, hlinked⟩ := hpassed.linked
    obtain rfl : number = number' := by
      have hboth := h.number_eq (disk.resolve path)
      rw [hsource, hsource', Option.map_some, Option.map_some, number?_of_linked hlinked,
        number?_of_linked hlinked'] at hboth
      exact (Option.some.inj (Option.some.inj hboth)).symm
    have hleft : Audit.source path l = .ok source l := by
      rw [source_eq, h.sameDisk, hsource]
    have hright : Audit.source path (l.beside p) = .ok source' (l.beside p) := by
      rw [source_eq, Run.beside_disk, Run.beside_sources, h.sameDisk, hsource']
    unfold Audit.above
    rw [bind_of_ok hleft, bind_of_ok hright, hlinked.2, hlinked'.2]
    exact .ok h
  alone _ _ := False.elim

theorem Source.treeSize_eq {s : Source} (hs : s.Faithful disk path) :
    s.treeSize = if s.number?.isSome then (disk.treeAt path).size else 0 := by
  unfold treeSize number?
  cases htree : s.tree with
  | some tree =>
    rw [← hs.tree tree.1 tree.2 htree]
    rfl
  | none =>
    cases hshelved : s.shelved with
    | some shelved =>
      rw [← hs.shelved shelved.1 shelved.2 hshelved]
      rfl
    | none => rfl

theorem Run.treeSize_eq (hr : r.Faithful) :
    r.treeSize = (r.sources.map Source.number?).entries.foldl
      (fun n e => n + if e.2.isSome then (r.disk.treeAt e.1).size else 0) 0 := by
  show (r.sources.entries.map Prod.snd).foldl _ 0 = (r.sources.entries.map fun (n, v) => (n, v.number?)).foldl _ 0
  rw [List.foldl_map, List.foldl_map]
  refine List.foldl_ext _ _ 0 fun n e he => ?_
  have hs := hr.each e.1 e.2 (get?_of_mem_entries hr.once he)
  rw [Source.treeSize_eq hs]

section Found

variable (h : Aside disk directory files T N l p)

include h

/-- The file of a definition that was found is at hand. -/
theorem found {line : Option Int}
    (hres : Audit.resolve path node line (l.beside p) = .ok (some b) (t.beside q))
    (hafter : Aside disk directory files T N t q) :
    Aside disk directory files T (b.path :: N) t q := by
  obtain ⟨s, hs, -⟩ := resolve_has h.sound hres
  have hplain : t.disk.resolve b.path = b.path := (hafter.sound.tracked _ s hs).resolved
  refine hafter.nearer ?_
  rw [← hafter.sameDisk, hplain, show q.scopes.get? b.path = some s from hs]
  rfl

theorem alternatives {others : List Binding}
    (hres : Audit.alternativesOf b (l.beside p) = .ok others (t.beside q))
    (hafter : Aside disk directory files T N t q) :
    Aside disk directory files T (others.map Binding.path ++ N) t q := by
  unfold Audit.alternativesOf at hres
  obtain ⟨scopes, hscopes, rfl⟩ := bind_pure_ok_iff.mp hres
  have hheld : q.scopes.get? (disk.resolve b.path) = some scopes := by
    rw [← h.sameDisk]
    exact scopesOf_tracked hscopes
  obtain ⟨hplain, -, hfiled⟩ := hafter.sound.tracked _ scopes hheld
  rw [Run.beside_disk, hafter.sameDisk] at hplain
  have hother : ∀ a ∈ scopes.alternatives b, disk.resolve a.path = disk.resolve b.path := by
    intro a ha
    unfold FileScopes.alternatives at ha
    split at ha
    · rw [List.mem_singleton.mp ha]
    · split at ha
      · rw [List.mem_singleton.mp ha]
      · rw [(hfiled.place _ _ a (List.mem_of_mem_filter ha)).2.2, hplain]
  refine { hafter with near := List.forall_mem_append.mpr ⟨?_, hafter.near⟩ }
  intro file hfile
  obtain ⟨a, ha, rfl⟩ := List.mem_map.mp hfile
  rw [hother a ha, hheld]
  rfl

theorem treeSize_eq : (l.beside p).treeSize = l.treeSize := by
  rw [Run.treeSize_eq h.faithful.1, Run.treeSize_eq h.faithful.2]
  show (p.sources.map number?).entries.foldl _ 0 = _
  rw [h.numbers]
  rfl

end Found

instance : (asideFrame disk directory files).Sound where
  treeSize h := treeSize_eq h
  source _ _ _ := lock_source
  rootOf _ _ _ := lock_rootOf
  scopesOf _ _ path := lock_scopesOf path
  above _ _ _ _ hpath := lock_above hpath
  found _ _ _ _ h hres hafter := found h hres hafter
  alternatives _ _ h hres hafter := alternatives h hres hafter
  tame htame h := tame h htame
  goneTame _ := False.elim

/-! ## Analysing a file. -/

/-- The definitions of a file that is still to come are the same, with the calls in it. -/
theorem agree_opens (h : Aside disk directory files (path :: T) [] l p)
    (hplain : disk.resolve path = path) :
    (asideFrame disk directory files).Agree
      (fun s l p => s.path = path ∧ Aside disk directory files (path :: T) [s.path] l p)
      (Aside disk directory files (path :: T) []) (Audit.scopesOf path l)
      (Audit.scopesOf path (l.beside p)) := by
  have hsame := (h.pending path List.mem_cons_self).2
  cases hs : l.scopes.get? path with
  | none =>
    have hnone : l.scopes.get? (disk.resolve path) = none := by rw [hplain, hs]
    have hagree := h.agree_untracked hnone
    refine hagree.mono (fun s l p hafter => ?_) fun _ _ hafter => hafter
    rw [hplain] at hafter
    exact ⟨hafter.1, hafter.1.symm ▸ hafter.2⟩
  | some s =>
    have hheld : Audit.scopesOf path l = .ok s l := scopesOf_held (by rw [h.sameDisk, hplain, hs])
    have hheld' : Audit.scopesOf path (l.beside p) = .ok s (l.beside p) :=
      scopesOf_held (by
        show p.scopes.get? (l.disk.resolve path) = _
        rw [h.sameDisk, hplain, hsame, hs])
    have hpath := h.path_of_tracked hs
    rw [hheld, hheld']
    refine .ok ⟨hpath, ?_⟩
    rw [hpath]
    exact h.nearer (by rw [hplain, hsame, hs]; rfl)

theorem putAway_eq (hdirectory : cacheRefusal? r.disk directory = none)
    (hplain : r.disk.resolve path = path) (hown : s.path = path)
    (hfile : r.disk.file? path = some file) (hsource : r.sources.get? path = some source) :
    Audit.putAway directory path s r = .ok ⟨⟩ { r with
      cache := r.cache.set (cacheName path) (mapOf s file)
      spilled := if r.spilled.contains path then r.spilled else r.spilled ++ [path]
      sources := r.sources.modify path putAside } := by
  have hsave := @saveCached_of_file r directory s file hdirectory (by rw [hown]; exact hfile)
  have hsourceOf : ∀ u : Run, u.disk = r.disk → u.sources = r.sources →
      Audit.source path u = .ok source u := by
    intro u hdisk hsources
    rw [source_eq, hdisk, hsources, hplain, hsource]
  unfold Audit.putAway shelve
  rw [bind_of_ok hsave]
  refine (bind_of_ok (hsourceOf _ ?_ ?_)).trans ?_
  · rfl
  · rfl
  · rw [run_modify, withMap, hown]
    rw [hplain]

/-- The second run puts a file aside, the first one keeps it. -/
theorem agree_evict (h : Aside disk directory files T [] l p)
    (hdirectory : cacheRefusal? disk directory = none)
    (hnames : ∀ a ∈ files, ∀ b ∈ files, cacheName a = cacheName b → a = b) (hmem : path ∈ files)
    (hplain : disk.resolve path = path) (hpath : path ∉ T) :
    (asideFrame disk directory files).Agree (fun _ => Aside disk directory files T [])
      (Aside disk directory files T []) (Audit.evict path l) (Audit.evict path (l.beside p)) := by
  have hplain' : (l.beside p).disk.resolve path = path := by
    show l.disk.resolve path = path
    rw [h.sameDisk, hplain]
  have hkeeps : Audit.evict path l = .ok ⟨⟩ l := by
    rw [evict_eq, h.directories.1]
  have hputs : (l.beside p).settings.cacheDir = some directory := h.directories.2
  rw [hkeeps, evict_eq, hputs, hplain']
  cases hs : (l.beside p).scopes.get? path with
  | none => exact .ok h
  | some s =>
    obtain ⟨-, number, source, hsource, -⟩ := h.kept path s hs
    obtain ⟨file, hfile⟩ := Option.isSome_iff_exists.mp (h.faithful.2.each path source hsource).file
    have hfile' : disk.file? path = some file := by
      rw [← hfile, ← h.sameDisk]
      rfl
    have hown := h.path_of_kept hs
    dsimp only
    rw [putAway_eq (r := { l.beside p with scopes := (l.beside p).scopes.erase path })
      (by show cacheRefusal? l.disk directory = none; rw [h.sameDisk, hdirectory]) hplain' hown hfile
      hsource]
    refine .ok (p := { p with
      scopes := p.scopes.erase path
      cache := p.cache.set (cacheName path) (mapOf s file)
      spilled := if p.spilled.contains path then p.spilled else p.spilled ++ [path]
      sources := p.sources.modify path putAside }) ?_
    exact h.putAway hnames hmem hpath hs hfile'

theorem frame_analyses (hdirectory : cacheRefusal? disk directory = none)
    (hnames : ∀ a ∈ files, ∀ b ∈ files, cacheName a = cacheName b → a = b) :
    (asideFrame disk directory files).Analyses where
  done h := done h
  opens htarget hapart h := by
    refine (agree_opens h htarget.2).mono (fun s l p hafter => ⟨?_, hafter.2⟩) fun _ _ hafter => hafter
    intro other hother
    rw [hafter.1]
    exact hapart other hother
  clears {path T} N hapart := by
    refine ⟨fun l p h => ?_, fun _ _ => False.elim⟩
    refine .ok (p := { p with
      scopes := p.scopes.modify path fun s => { s with callSites := [] } }) ?_
    exact clear h fun hmem => hapart path hmem rfl
  evict {path T l p} htarget hapart h :=
    agree_evict h hdirectory hnames htarget.1 htarget.2 fun hmem => hapart path hmem rfl
  aloneEvict _ := False.elim
  aloneScopesOf _ := False.elim

end Aside

/-! ## Whole analyses. -/

def SameOutcome : EStateM.Result Failure Run Findings → EStateM.Result Failure Run Findings → Prop
  | .ok found _, .ok other _ => other = found
  | .error failure _, .error other _ => other = failure
  | _, _ => False

theorem report_drained (h : r.diagnostics.drained = true) :
    report target files r = .error .drained r := by
  have hdrain : collecting Diagnostics.drain r = .error .drained r := by
    simp only [collecting, Diagnostics.drain, run_bind, run_get, checkOpen_eq, h]
    rfl
  exact bind_of_error hdrain

/-- The end of an analysis looks at what the two runs share. -/
theorem report_beside {p : Parts} :
    SameOutcome (report target files l) (report target files (l.beside p)) := by
  cases hdrained : l.diagnostics.drained with
  | true =>
    rw [report_drained hdrained, report_drained (r := l.beside p) hdrained]
    rfl
  | false =>
    obtain ⟨t, ht, -⟩ := report_open target files hdrained
    obtain ⟨u, hu, -⟩ := report_open target files (r := l.beside p) hdrained
    rw [ht, hu]
    rfl

def emptyScript : Disk := Disk.write { base := "/w" } "/w/a.php" "<?php".toUTF8

/-- What an analysis came to: nothing if it succeeded, or its failure. -/
def failureOf : EStateM.Result Failure Run Findings → Option Failure
  | .ok _ _ => none
  | .error failure _ => some failure

end QueryAudit
