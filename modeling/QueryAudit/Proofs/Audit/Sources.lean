/-
  QueryAudit.Proofs.Audit.Sources — files as the file tree has them

  As long as the file tree stays, what a run knows about a file is what the tree has. A file whose
  tree was put aside gets the same tree with the same number again.

  Main results: `rootOf_eq`, `findScopes_ok`, `careful_rootOf`, `careful_loadCached`.
-/

import QueryAudit.Proofs.Disk
import QueryAudit.Proofs.Scope.Cached

namespace QueryAudit

open Audit Php Record Scope Source Catalog

/-! ## What is known about files. -/

def Disk.bytesAt (disk : Disk) (path : String) : ByteArray :=
  ((disk.file? path).map File.bytes).getD ⟨#[]⟩

def Disk.treeAt (disk : Disk) (path : String) : Node := parse (disk.bytesAt path)

/-- What is known about a file is what the file tree has. -/
structure Source.Faithful (disk : Disk) (path : String) (s : Source) : Prop where
  file : disk.isFile path = true
  plain : disk.resolve path = path
  content : ∀ bytes, s.content = some bytes → bytes = disk.bytesAt path
  tree : ∀ number node, s.tree = some (number, node) → node = disk.treeAt path
  shelved : ∀ number size, s.shelved = some (number, size) → size = (disk.treeAt path).size

/-- What is known about all files is what the file tree has. -/
structure Run.Faithful (r : Run) : Prop where
  absolute : Path.isAbsolute r.disk.base = true
  once : r.sources.names.Nodup
  each : ∀ path s, r.sources.get? path = some s → s.Faithful r.disk path

/-- What is known about a file when it is asked for, if it can be. -/
def Run.known? (r : Run) (path : String) : Option Source :=
  match r.sources.get? (r.disk.resolve path) with
  | some s => some s
  | none => if r.disk.isFile (r.disk.resolve path) then some {} else none

variable {r t : Run} {path : String} {s : Source}

theorem Run.Faithful.known (h : r.Faithful) (hknown : r.known? path = some s) :
    s.Faithful r.disk (r.disk.resolve path) := by
  unfold Run.known? at hknown
  split at hknown
  · next hget => exact Option.some.inj hknown ▸ h.each _ _ hget
  split at hknown
  · next hfile =>
    obtain rfl := Option.some.inj hknown
    exact ⟨hfile, Disk.resolve_resolve h.absolute path, nofun, nofun, nofun⟩
  · cases hknown

theorem Run.Faithful.exists_known (h : r.Faithful) (hfile : r.disk.isFile path = true) :
    ∃ s, r.known? path = some s := by
  unfold Run.known?
  cases r.sources.get? (r.disk.resolve path) with
  | some s => exact ⟨s, rfl⟩
  | none =>
    rw [if_pos]
    · exact ⟨_, rfl⟩
    · rw [Disk.isFile, Disk.file?, Disk.resolve_resolve h.absolute]
      exact hfile

theorem Run.Faithful.of_same (h : r.Faithful) (hdisk : t.disk = r.disk)
    (hsources : t.sources = r.sources) : t.Faithful where
  absolute := by rw [hdisk]; exact h.absolute
  once := by rw [hsources]; exact h.once
  each := by rw [hdisk, hsources]; exact h.each

theorem Run.Faithful.set (h : r.Faithful) (hs : s.Faithful r.disk path) (nextTree : Nat) :
    ({ r with sources := r.sources.set path s, nextTree := nextTree } : Run).Faithful where
  absolute := h.absolute
  once := nodup_names_set h.once _ _
  each other o ho := by
    rcases get?_set_some ho with ⟨rfl, rfl⟩ | ho
    · exact hs
    · exact h.each other o ho

theorem Run.Faithful.modify (h : r.Faithful) {f : Source → Source}
    (hf : ∀ s, s.Faithful r.disk path → (f s).Faithful r.disk path) :
    ({ r with sources := r.sources.modify path f } : Run).Faithful where
  absolute := h.absolute
  once := by
    show (r.sources.modify path f).names.Nodup
    rw [names_modify]
    exact h.once
  each other o ho := by
    rw [get?_modify] at ho
    split at ho
    · next heq =>
      obtain ⟨s, hs, rfl⟩ := Option.map_eq_some_iff.mp ho
      subst heq
      exact hf s (h.each other s hs)
    · exact h.each other o ho

/-! ## Trees and their numbers. -/

def Source.number? (s : Source) : Option Nat :=
  match s.tree with
  | some (number, _) => some number
  | none => s.shelved.map Prod.fst

def Source.nextAfter (s : Source) (next : Nat) : Nat := if s.number?.isSome then next else next + 1

/-- A file once its tree was read, which gets a number if it is not at hand. -/
def Source.read (disk : Disk) (path : String) (number : Nat) (s : Source) : Source :=
  match s.tree with
  | some _ => s
  | none => { s with
    content := some (disk.bytesAt path), tree := some (number, disk.treeAt path), shelved := none }

theorem Source.read_of_tree {tree : Nat × Node} (h : s.tree = some tree) (disk : Disk) (path : String)
    (number : Nat) : s.read disk path number = s := by
  rw [read, h]

theorem Source.tree_read (s : Source) (disk : Disk) (path : String) (next : Nat) :
    (s.read disk path (s.number?.getD next)).tree.map Prod.fst = some (s.number?.getD next) := by
  unfold read
  cases htree : s.tree with
  | some tree =>
    rw [number?, htree]
    rfl
  | none => rfl

theorem Source.Faithful.read {disk : Disk} (hs : s.Faithful disk path) (number : Nat) :
    (s.read disk path number).Faithful disk path := by
  unfold Source.read
  split
  · exact hs
  · exact ⟨hs.file, hs.plain, fun _ h => (Option.some.inj h).symm,
      fun _ _ h => (Prod.mk.inj (Option.some.inj h)).2.symm, nofun⟩

theorem Source.Faithful.putAside {disk : Disk} (hs : s.Faithful disk path) :
    s.putAside.Faithful disk path := by
  unfold Source.putAside
  split
  · next number node htree =>
    refine ⟨hs.file, hs.plain, nofun, nofun, fun _ _ h => ?_⟩
    obtain ⟨-, rfl⟩ := Prod.mk.inj (Option.some.inj h)
    rw [hs.tree number node htree]
  · exact ⟨hs.file, hs.plain, nofun, nofun, hs.shelved⟩

/-! ## Knowing and reading. -/

namespace Audit

theorem source_known (hr : r.Faithful) (h : r.known? path = some s) :
    source path r = .ok s { r with sources := r.sources.set (r.disk.resolve path) s } := by
  unfold Run.known? at h
  rw [source_eq]
  cases hget : r.sources.get? (r.disk.resolve path) with
  | some known =>
    rw [hget] at h
    obtain rfl := Option.some.inj h
    rw [set_of_get? hr.once hget]
  | none =>
    rw [hget] at h
    dsimp only at h ⊢
    split at h
    · next hfile =>
      obtain rfl := Option.some.inj h
      rw [if_pos hfile]
    · cases h

theorem source_unknown (h : r.known? path = none) :
    source path r = .error (.fileMissing (r.disk.resolve path)) r := by
  unfold Run.known? at h
  rw [source_eq]
  cases hget : r.sources.get? (r.disk.resolve path) with
  | some known =>
    rw [hget] at h
    cases h
  | none =>
    rw [hget] at h
    dsimp only at h ⊢
    split at h
    · cases h
    · next hfile => rw [if_neg hfile]

theorem content_known (hr : r.Faithful) (h : r.known? path = some s) :
    content path r = .ok (r.disk.bytesAt (r.disk.resolve path)) { r with
      sources := r.sources.set (r.disk.resolve path)
        { s with content := some (r.disk.bytesAt (r.disk.resolve path)) } } := by
  have hs := hr.known h
  unfold content
  rw [bind_of_ok (source_known hr h)]
  cases hcontent : s.content with
  | some bytes =>
    have hbytes := hs.content bytes hcontent
    have hsame : { s with content := some (r.disk.bytesAt (r.disk.resolve path)) } = s := by
      rw [← hbytes, ← hcontent]
    rw [hsame, ← hbytes]
    rfl
  | none =>
    obtain ⟨file, hfile⟩ := Option.isSome_iff_exists.mp hs.file
    have hbytes : r.disk.bytesAt (r.disk.resolve path) = file.bytes := by
      rw [Disk.bytesAt, hfile]
      rfl
    dsimp only
    rw [bind_of_ok run_get]
    rw [hfile, hbytes]
    show EStateM.Result.ok file.bytes { r with
      sources := (r.sources.set (r.disk.resolve path) s).set (r.disk.resolve path) _ } = _
    rw [set_set hr.once]

theorem treeNumber_eq (htree : s.tree = none) :
    treeNumber s r = .ok (s.number?.getD r.nextTree) { r with nextTree := s.nextAfter r.nextTree } := by
  unfold treeNumber nextAfter number?
  rw [htree]
  cases s.shelved with
  | some shelved => rfl
  | none => rfl

/-- **What reading the tree of a file comes to.** -/
theorem rootOf_eq (hr : r.Faithful) (path : String) :
    rootOf path r = match r.known? path with
      | none => .error (.fileMissing (r.disk.resolve path)) r
      | some s => .ok (.root (s.number?.getD r.nextTree) (r.disk.treeAt (r.disk.resolve path))) { r with
        sources := r.sources.set (r.disk.resolve path)
          (s.read r.disk (r.disk.resolve path) (s.number?.getD r.nextTree))
        nextTree := s.nextAfter r.nextTree } := by
  unfold rootOf
  cases hknown : r.known? path with
  | none => exact bind_of_error (source_unknown hknown)
  | some s =>
    have hs := hr.known hknown
    rw [bind_of_ok (source_known hr hknown)]
    dsimp only
    cases htree : s.tree with
    | some tree =>
      have hnumber : s.number? = some tree.1 := by rw [number?, htree]
      rw [read_of_tree htree, nextAfter, hnumber, ← hs.tree tree.1 tree.2 htree]
      rfl
    | none =>
      have hfaithful := hr.set hs r.nextTree
      have hagain : ({ r with sources := r.sources.set (r.disk.resolve path) s } : Run).known? path
          = some s := by
        unfold Run.known?
        rw [get?_set, if_pos rfl]
      dsimp only
      rw [bind_of_ok (content_known hfaithful hagain), bind_of_ok (treeNumber_eq htree), Source.read, htree]
      show EStateM.Result.ok _ { r with
        sources := (((r.sources.set _ s).set _ _).modify _ _), nextTree := _ } = _
      rw [set_set hr.once, modify_set hr.once]
      rfl

theorem rootOf_numbered (hr : r.Faithful) (hknown : r.known? path = some s) {number : Nat}
    (hnumber : s.number? = some number) :
    rootOf path r = .ok (.root number (r.disk.treeAt (r.disk.resolve path))) { r with
      sources := r.sources.set (r.disk.resolve path) (s.read r.disk (r.disk.resolve path) number) } := by
  rw [rootOf_eq hr, hknown]
  dsimp only
  rw [nextAfter, hnumber]
  rfl

/-! ## Careful steps. -/

/-- Between two states definitions and binding maps stay, and what is known about files is what the
file tree has. -/
structure Rereads (r t : Run) : Prop where
  disk : t.disk = r.disk
  settings : t.settings = r.settings
  scopes : t.scopes = r.scopes
  spilled : t.spilled = r.spilled
  cache : t.cache = r.cache
  faithful : t.Faithful

/-- What a step comes to that only reads, from a state in which what is known about files is what
the file tree has. -/
def Careful (r t : Run) : Prop := r.Faithful → Rereads r t

instance : IsPreorder Run Careful where
  refl _ h := ⟨rfl, rfl, rfl, rfl, rfl, h⟩
  trans _ _ _ h k := fun hr =>
    have hs := h hr
    have ht := k hs.faithful
    ⟨ht.disk.trans hs.disk, ht.settings.trans hs.settings, ht.scopes.trans hs.scopes,
      ht.spilled.trans hs.spilled, ht.cache.trans hs.cache, ht.faithful⟩

theorem careful_of_same (hdisk : t.disk = r.disk) (hsettings : t.settings = r.settings)
    (hscopes : t.scopes = r.scopes) (hspilled : t.spilled = r.spilled) (hcache : t.cache = r.cache)
    (hsources : t.sources = r.sources) : Careful r t := fun hr =>
  ⟨hdisk, hsettings, hscopes, hspilled, hcache, hr.of_same hdisk hsources⟩

theorem careful_source : KeepsTo Careful (source path) := by
  intro r hr
  cases hknown : r.known? path with
  | none =>
    rw [after_of_error (source_unknown hknown)]
    exact refl_of Careful r hr
  | some s =>
    rw [after_of_ok (source_known hr hknown)]
    exact ⟨rfl, rfl, rfl, rfl, rfl, hr.set (hr.known hknown) _⟩

theorem careful_rootOf : KeepsTo Careful (rootOf path) := by
  intro r hr
  rw [after, rootOf_eq hr]
  cases hknown : r.known? path with
  | none => exact refl_of Careful r hr
  | some s => exact ⟨rfl, rfl, rfl, rfl, rfl, hr.set ((hr.known hknown).read _) _⟩

theorem careful_link : KeepsTo Careful (link path) :=
  keeps_modify fun _ hr =>
    ⟨rfl, rfl, rfl, rfl, rfl,
      hr.modify fun _ hs => ⟨hs.file, hs.plain, hs.content, hs.tree, hs.shelved⟩⟩

theorem careful_shelve : KeepsTo Careful (shelve path) := by
  refine keeps_bind careful_source fun _ => keeps_modify fun _ hr => ?_
  exact ⟨rfl, rfl, rfl, rfl, rfl, hr.modify fun _ hs => hs.putAside⟩

theorem Tells.careful {α : Type} {x : Audit α} (hx : Tells x) : KeepsTo Careful x :=
  hx.keeps fun ⟨_, _, _, _, h⟩ => by
    subst h
    exact careful_of_same rfl rfl rfl rfl rfl rfl

theorem careful_loadCached : KeepsTo Careful (loadCached path) := by
  refine keeps_bind keeps_get fun r => ?_
  split
  · exact keeps_pure
  · split
    · exact keeps_pure
    · split
      · exact keeps_bind (keeps_throw) fun _ => keeps_pure
      · exact keeps_pure
    · split
      · exact keeps_bind (keeps_throw) fun _ => keeps_throw
      · exact keeps_throw
  · split
    · exact keeps_throw
    split
    · exact keeps_pure
    · exact keeps_bind careful_rootOf fun root =>
      keeps_bind careful_link fun _ => keeps_pure

/-! ## Tracking. -/

theorem rootOf_ok (hr : r.Faithful) {root : Cursor} (h : rootOf path r = .ok root t) :
    ∃ number, root = .root number (r.disk.treeAt (r.disk.resolve path)) := by
  rw [rootOf_eq hr] at h
  cases hknown : r.known? path with
  | none =>
    rw [hknown] at h
    cases h
  | some s =>
    rw [hknown] at h
    obtain ⟨rfl, -⟩ := EStateM.Result.ok.inj h
    exact ⟨_, rfl⟩

/-- Take what a pass over the tree of a file found, and act on what it reported. -/
def takePass (path : String) (pass : FileScopes × List Event) : Audit FileScopes := do
  link path
  replay path pass.2
  return pass.1

def findScopes (path : String) : Audit FileScopes := do
  log ("tracking scopes in " ++ (← shown path))
  let root ← rootOf path
  let r ← get
  takePass path (Tracker.run (callNames r.settings) path root)

theorem track_eq : track path = do
    let scopes ← findScopes path
    modify fun r => { r with scopes := r.scopes.set path scopes }
    return scopes := by
  unfold track findScopes takePass
  simp only [bind_assoc, pure_bind]

theorem careful_findScopes : KeepsTo Careful (findScopes path) := by
  refine keeps_bind (keeps_bind keeps_get fun _ => keeps_pure) fun view => ?_
  refine keeps_bind (tells_log _).careful fun _ => ?_
  refine keeps_bind careful_rootOf fun root => ?_
  refine keeps_bind keeps_get fun r => ?_
  refine keeps_bind careful_link fun _ => ?_
  exact keeps_bind (tells_replay path).careful fun _ => keeps_pure

/-- The definitions that are found are those of the tree of the file. -/
theorem findScopes_ok (hr : r.Faithful) {scopes : FileScopes} (h : findScopes path r = .ok scopes t) :
    ∃ number, scopes = (Tracker.run (callNames r.settings) path
      (.root number (r.disk.treeAt (r.disk.resolve path)))).1 := by
  obtain ⟨view, u, hview, h⟩ := bind_ok_iff.mp h
  obtain ⟨rfl, rfl⟩ := pure_ok_iff.mp hview
  obtain ⟨_, s, hlog, h⟩ := bind_ok_iff.mp h
  have hs := (tells_log _).careful.of_ok hlog hr
  obtain ⟨root, v, hroot, h⟩ := bind_ok_iff.mp h
  have hv := careful_rootOf.of_ok hroot hs.faithful
  obtain ⟨number, rfl⟩ := rootOf_ok hs.faithful hroot
  rw [bind_of_ok run_get] at h
  obtain ⟨_, _, _, h⟩ := bind_ok_iff.mp h
  obtain ⟨_, _, rfl⟩ := bind_pure_ok_iff.mp h
  rw [hv.settings, hs.settings, hs.disk]
  exact ⟨number, rfl⟩

end Audit

end QueryAudit
