/-
  QueryAudit.Proofs.Scope.Growth — resolving references only adds to a run

  Files that are tracked stay tracked, a file that is tracked anew was within reach before, and no
  definition starts or stops being evaluated. No such step ends in an endless evaluation.

  Main results: `quiet_scopesOf`, `quiet_resolve`, `resolve_has`, `previousOf_eq`,
    `alternativesOf_eq`.
-/

import Mathlib.Data.Finset.Card
import QueryAudit.Proofs.Audit.Reading
import QueryAudit.Proofs.Path
import QueryAudit.Proofs.Scope.Filing

namespace QueryAudit

open Audit Php Record Scope Catalog

variable {b : Binding} {line : Option Int} {path : String} {scopes : FileScopes}

variable {e : Failure}

/-! ## Tracked files. -/

/-- The definitions of a file as they are tracked: under the one name of the file, filed well. -/
structure TracksWell (disk : Disk) (path : String) (s : FileScopes) : Prop where
  resolved : disk.resolve path = path
  file : s.path = path
  filed : WellFiled path s.entries

/-- The working directory is absolute, and what was put aside comes back well. -/
structure Run.Grounded (r : Run) : Prop where
  absolute : Path.isAbsolute r.disk.base = true
  saved : ∀ name snapshot, r.cache.get? name = some (.snapshot snapshot) → snapshot.RestoresWell

structure Run.Sound (r : Run) : Prop extends r.Grounded where
  tracked : ∀ path s, r.scopes.get? path = some s → TracksWell r.disk path s

/-- The files that can be read: those that exist and those that are known. -/
def Run.reach (r : Run) : Finset String := r.disk.files.names.toFinset ∪ r.sources.names.toFinset

/-- A definition stands where it says in a file that is tracked. -/
def Run.Has (r : Run) (b : Binding) : Prop := ∃ s, r.scopes.get? b.path = some s ∧ s.Has b

/-! ## Loading and growing. -/

/-- Reading files: what is tracked and evaluated stays as it is, and nothing new gets within
reach. -/
structure Run.Loads (r t : Run) : Prop where
  disk : t.disk = r.disk
  active : t.active = r.active
  scopes : t.scopes = r.scopes
  cache : t.cache = r.cache
  reach : t.reach ⊆ r.reach

/-- What is tracked stays, and what is tracked anew was within reach. -/
structure Run.Extends (r t : Run) : Prop where
  disk : t.disk = r.disk
  cache : t.cache = r.cache
  reach : t.reach ⊆ r.reach
  kept : ∀ path s, r.scopes.get? path = some s → t.scopes.get? path = some s
  fresh : ∀ path s, t.scopes.get? path = some s →
    r.scopes.get? path = some s ∨ path ∈ r.reach ∧ TracksWell r.disk path s

/-- Tracking files: what is evaluated stays as it is. -/
structure Run.Grows (r t : Run) : Prop extends Run.Extends r t where
  active : t.active = r.active

def Loading (r t : Run) : Prop := r.Grounded → r.Loads t

def Growing (r t : Run) : Prop := r.Grounded → r.Grows t

variable {r s t : Run}

theorem Run.Grounded.of_same (h : r.Grounded) (hdisk : t.disk = r.disk) (hcache : t.cache = r.cache) :
    t.Grounded where
  absolute := by rw [hdisk]; exact h.absolute
  saved := by rw [hcache]; exact h.saved

theorem Run.Loads.refl (r : Run) : r.Loads r := ⟨rfl, rfl, rfl, rfl, Finset.Subset.refl _⟩

theorem Run.Loads.trans (h : r.Loads s) (h' : s.Loads t) : r.Loads t :=
  ⟨h'.disk.trans h.disk, h'.active.trans h.active, h'.scopes.trans h.scopes,
    h'.cache.trans h.cache, h'.reach.trans h.reach⟩

theorem Run.Loads.grounded (h : r.Loads t) (hr : r.Grounded) : t.Grounded :=
  hr.of_same h.disk h.cache

theorem Run.Extends.refl (r : Run) : r.Extends r :=
  ⟨rfl, rfl, Finset.Subset.refl _, fun _ _ h => h, fun _ _ h => .inl h⟩

theorem Run.Extends.trans (h : r.Extends s) (h' : s.Extends t) : r.Extends t where
  disk := h'.disk.trans h.disk
  cache := h'.cache.trans h.cache
  reach := h'.reach.trans h.reach
  kept path scopes hr := h'.kept path scopes (h.kept path scopes hr)
  fresh path scopes ht := by
    rcases h'.fresh path scopes ht with hs | ⟨hreach, htracks⟩
    · exact h.fresh path scopes hs
    · exact .inr ⟨h.reach hreach, h.disk ▸ htracks⟩

theorem Run.Grows.refl (r : Run) : r.Grows r := ⟨.refl r, rfl⟩

theorem Run.Grows.trans (h : r.Grows s) (h' : s.Grows t) : r.Grows t :=
  ⟨h.toExtends.trans h'.toExtends, h'.active.trans h.active⟩

theorem Run.Loads.grows (h : r.Loads t) : r.Grows t where
  __ := h
  kept path s hr := by rw [h.scopes]; exact hr
  fresh path s ht := .inl (by rw [← h.scopes]; exact ht)

instance : IsPreorder Run Run.Grows where
  refl := .refl
  trans _ _ _ := .trans

instance : IsPreorder Run Loading where
  refl r _ := .refl r
  trans _ _ _ h h' hr := (h hr).trans (h' ((h hr).grounded hr))

instance : IsPreorder Run Growing where
  refl r _ := .refl r
  trans _ _ _ h h' hr := (h hr).trans (h' (hr.of_same (h hr).disk (h hr).cache))

theorem Run.Sound.extends (h : r.Sound) (hext : r.Extends t) : t.Sound where
  toGrounded := h.toGrounded.of_same hext.disk hext.cache
  tracked path s hs := by
    rw [hext.disk]
    exact (hext.fresh path s hs).elim (h.tracked path s) And.right

theorem Run.Has.extends (h : r.Has b) (hext : r.Extends t) : t.Has b := by
  obtain ⟨s, hs, hb⟩ := h
  exact ⟨s, hext.kept _ s hs, hb⟩

/-! ## Quiet steps. -/

def Ending {α : Type} (x : Audit α) : Prop := ∀ r s, x r ≠ .error .endless s

/-- A step within a relation that never ends in an endless evaluation. -/
structure Quiet (R : Run → Run → Prop) {α : Type} (x : Audit α) : Prop where
  keeps : KeepsTo R x
  ends : Ending x

section Combining

variable {R : Run → Run → Prop} {α β : Type} {f : Run → Run}

@[grind .] theorem ending_pure {a : α} : Ending (pure a : Audit α) := fun _ _ h => nomatch h

@[grind .] theorem ending_throw (h : e ≠ .endless) : Ending (throw e : Audit α) := by
  intro r s heq
  rw [run_throw, EStateM.Result.error.injEq] at heq
  exact h heq.1

@[grind .] theorem ending_modify : Ending (modify f : Audit PUnit) :=
  fun _ _ h => nomatch h

@[grind .] theorem ending_get : Ending (get : Audit Run) := fun _ _ h => nomatch h

@[grind .] theorem ending_set : Ending (set r : Audit PUnit) := fun _ _ h => nomatch h

@[grind .] theorem ending_bind {x : Audit α} {f : α → Audit β} (hx : Ending x)
    (hf : ∀ a, Ending (f a)) : Ending (x >>= f) := by
  intro r s h
  cases hr : x r with
  | ok a t =>
    rw [bind_of_ok hr] at h
    exact hf a t s h
  | error e t =>
    rw [bind_of_error hr, EStateM.Result.error.injEq] at h
    rw [h.1] at hr
    exact hx r t hr

theorem Quiet.loading_growing {x : Audit α} (h : Quiet Loading x) : Quiet Growing x :=
  ⟨fun r hr => (h.keeps r hr).grows, h.ends⟩

theorem quiet_modify (h : ∀ r, R r (f r)) : Quiet R (modify f : Audit Unit) :=
  ⟨keeps_modify h, ending_modify⟩

variable [IsPreorder Run R]

@[grind .] theorem quiet_pure {a : α} : Quiet R (pure a : Audit α) := ⟨keeps_pure, ending_pure⟩

@[grind .] theorem quiet_throw (h : e ≠ .endless) : Quiet R (throw e : Audit α) :=
  ⟨keeps_throw, ending_throw h⟩

@[grind .] theorem quiet_get : Quiet R (get : Audit Run) := ⟨keeps_get, ending_get⟩

@[grind .] theorem quiet_bind {x : Audit α} {f : α → Audit β} (hx : Quiet R x)
    (hf : ∀ a, Quiet R (f a)) : Quiet R (x >>= f) :=
  ⟨keeps_bind hx.keeps fun a => (hf a).keeps, ending_bind hx.ends fun a => (hf a).ends⟩

@[grind .] theorem quiet_map {x : Audit α} {f : α → β} (hx : Quiet R x) : Quiet R (f <$> x) := by
  exact quiet_bind hx fun _ => quiet_pure

theorem quiet_get_bind {f : Run → Audit α} (h : ∀ r, R r (after (f r) r))
    (hends : ∀ r, Ending (f r)) : Quiet R (get >>= f) :=
  ⟨keeps_get_bind h, ending_bind ending_get hends⟩

@[grind .] theorem quiet_tryCatch {x : Audit α} {f : Failure → Audit α} (hx : Quiet R x)
    (hf : ∀ e, e ≠ .endless → Quiet R (f e)) : Quiet R (tryCatch x f) := by
  have hne : ∀ {r s e}, x r = .error e s → e ≠ .endless := fun {r s e} h heq =>
    hx.ends r s (heq ▸ h)
  refine ⟨keeps_tryCatch_of hx.keeps fun r e s h => (hf e (hne h)).keeps s, fun r s heq => ?_⟩
  cases h : x r with
  | ok a t =>
    rw [tryCatch_of_ok h] at heq
    cases heq
  | error e t =>
    rw [tryCatch_of_error h] at heq
    exact (hf e (hne h)).ends t s heq

@[grind .] theorem quiet_forIn {items : List α} (start : β) {body : α → β → Audit (ForInStep β)}
    (hbody : ∀ a b, Quiet R (body a b)) : Quiet R (forIn items start body) := by
  induction items generalizing start with
  | nil =>
    exact quiet_pure
  | cons a items ih =>
    rw [List.forIn_cons]
    refine quiet_bind (hbody a start) fun step => ?_
    cases step with
    | done b => exact quiet_pure
    | yield b => exact ih b

end Combining

namespace Audit

variable {identifier className : String} {node : Cursor} {owner : Closure} {steps : Nat}
  {key : RefKey} {α β : Type}

/-! ## Messages and files. -/

theorem loading_of_same (hdisk : t.disk = r.disk) (hactive : t.active = r.active)
    (hscopes : t.scopes = r.scopes) (hcache : t.cache = r.cache) (hsources : t.sources = r.sources) :
    Loading r t := by
  refine fun _ => ⟨hdisk, hactive, hscopes, hcache, ?_⟩
  rw [Run.reach, Run.reach, hdisk, hsources]

theorem Tells.quiet {x : Audit α} (hx : Tells x) : Quiet Loading x where
  keeps := hx.keeps fun ⟨_, _, _, _, h⟩ => by
    subst h
    exact loading_of_same rfl rfl rfl rfl rfl
  ends _ _ h := by
    obtain hf | ⟨e, hf⟩ := hx.fails h <;> cases hf

@[grind .] theorem quiet_print {line : String} : Quiet Loading (print line) := tells_print.quiet

@[grind .] theorem quiet_log {message : String} : Quiet Loading (log message) := (tells_log _).quiet

@[grind .] theorem quiet_shown : Quiet Loading (shown path) := by
  unfold shown
  grind

@[grind .] theorem quiet_hardError {e : HardError} : Quiet Loading (hardError e) :=
  tells_hardError.quiet

@[grind .] theorem quiet_skipFile {failure : Failure} : Quiet Loading (skipFile path failure) := by
  unfold skipFile
  exact quiet_bind quiet_print fun _ =>
    quiet_modify fun _ => loading_of_same rfl rfl rfl rfl rfl

theorem mem_reach_of_file? (h : Path.isAbsolute r.disk.base = true) {file : File}
    (hfile : r.disk.file? (r.disk.resolve path) = some file) : r.disk.resolve path ∈ r.reach := by
  rw [Disk.file?, Disk.resolve_resolve h] at hfile
  refine Finset.mem_union_left _ (List.mem_toFinset.mpr ?_)
  exact get?_isSome_iff.mp (by rw [hfile]; rfl)

/-- A file within reach that becomes known, or is read, adds nothing to what is within reach. -/
theorem loading_setSource {source : Source}
    (h : Path.isAbsolute r.disk.base = true → path ∈ r.reach) :
    Loading r { r with sources := r.sources.set path source } := by
  refine fun hr => ⟨rfl, rfl, rfl, rfl, fun p hp => ?_⟩
  rcases Finset.mem_union.mp hp with hp | hp
  · exact Finset.mem_union_left _ hp
  rw [List.mem_toFinset, ← get?_isSome_iff, get?_set] at hp
  split at hp
  · next heq =>
    rw [heq]
    exact h hr.absolute
  · exact Finset.mem_union_right _ (List.mem_toFinset.mpr (get?_isSome_iff.mp hp))

theorem loading_modifySource {f : Source → Source} :
    Loading r { r with sources := r.sources.modify path f } := by
  refine fun _ => ⟨rfl, rfl, rfl, rfl, ?_⟩
  rw [Run.reach, Run.reach]
  show r.disk.files.names.toFinset ∪ (r.sources.modify path f).names.toFinset ⊆ _
  rw [names_modify]

@[grind .] theorem quiet_source : Quiet Loading (source path) := by
  unfold source
  refine quiet_get_bind (fun r => ?_) fun r => ?_
  · dsimp only
    split
    · exact refl_of Loading r
    split
    · next hfile =>
      refine loading_setSource fun hr => ?_
      obtain ⟨file, hfile⟩ := Option.isSome_iff_exists.mp hfile
      exact mem_reach_of_file? hr hfile
    · exact refl_of Loading r
  · grind

/-- A file that was asked for is within reach. -/
theorem source_mem_reach {found : Source} (h : source path r = .ok found t) :
    r.disk.resolve path ∈ t.reach := by
  refine Finset.mem_union_right _ (List.mem_toFinset.mpr (get?_isSome_iff.mp ?_))
  rw [source, bind_of_ok run_get] at h
  cases hknown : r.sources.get? (r.disk.resolve path) with
  | some known =>
    rw [hknown] at h
    obtain ⟨rfl, rfl⟩ := pure_ok_iff.mp h
    rw [hknown]
    rfl
  | none =>
    rw [hknown] at h
    dsimp only at h
    split at h
    · rw [bind_of_ok run_set] at h
      obtain ⟨rfl, rfl⟩ := pure_ok_iff.mp h
      rw [get?_set, if_pos rfl]
      rfl
    · cases h

@[grind .] theorem quiet_register : Quiet Loading (register path) := by
  unfold register
  grind

@[grind .] theorem quiet_content : Quiet Loading (content path) := by
  unfold content
  refine quiet_bind quiet_source fun s => ?_
  split
  · exact quiet_pure
  refine quiet_get_bind (fun r => ?_) fun r => ?_
  · dsimp only
    split
    · exact refl_of Loading r
    · next file hfile => exact loading_setSource fun hr => mem_reach_of_file? hr hfile
  · grind

@[grind .] theorem quiet_treeNumber {s : Source} : Quiet Loading (treeNumber s) := by
  unfold treeNumber
  split
  · exact quiet_pure
  · exact quiet_get_bind (fun r => loading_of_same rfl rfl rfl rfl rfl) fun r => by grind

@[grind .] theorem quiet_rootOf : Quiet Loading (rootOf path) := by
  unfold rootOf
  refine quiet_bind quiet_source fun s => ?_
  split
  · exact quiet_pure
  · refine quiet_bind quiet_content fun bytes => ?_
    refine quiet_bind quiet_treeNumber fun number => ?_
    exact quiet_bind (quiet_modify fun r => loading_modifySource) fun _ => quiet_pure

@[grind .] theorem quiet_link : Quiet Loading (link path) :=
  quiet_modify fun _ => loading_modifySource

@[grind .] theorem quiet_above : Quiet Loading (above path node) := by
  unfold above
  grind

/-! ## Classes. -/

@[grind .] theorem quiet_recordClass {d : ClassDecl} : Quiet Loading (recordClass d) :=
  (tells_recordClass _).quiet

@[grind .] theorem quiet_startSearch : Quiet Loading (startSearch path) := by
  unfold startSearch
  refine quiet_get_bind (fun r => ?_) fun r => ?_
  · split
    · exact refl_of Loading r
    · exact loading_of_same rfl rfl rfl rfl rfl
  · grind

@[grind .] theorem quiet_scanFile : Quiet Loading (scanFile path) := by
  unfold scanFile
  refine quiet_bind quiet_startSearch fun new => ?_
  split
  · exact quiet_pure
  · refine quiet_bind quiet_source fun _ => ?_
    refine quiet_bind (by grind) fun root => ?_
    grind

@[grind .] theorem quiet_scanTree {directory : String} : Quiet Loading (scanTree directory) := by
  unfold scanTree
  refine quiet_bind quiet_startSearch fun new => ?_
  split
  · exact quiet_pure
  · refine quiet_bind quiet_register fun files => ?_
    grind

@[grind .] theorem quiet_searchUpward {key : String} {directories : List String} :
    Quiet Loading (searchUpward key directories) := by
  induction directories with
  | nil => exact quiet_pure
  | cons directory directories ih =>
    unfold searchUpward
    grind

@[grind .] theorem quiet_findClass {name start : String} :
    Quiet Loading (findClass name start) := by
  unfold findClass
  grind

@[grind .] theorem quiet_parentOf : Quiet Loading (parentOf className path) := by
  unfold parentOf
  grind

/-! ## Definitions. -/

/-- A file comes to be tracked, unless the step fails before. -/
structure Adds (path : String) (r t : Run) : Prop where
  disk : t.disk = r.disk
  cache : t.cache = r.cache
  active : t.active = r.active
  reach : t.reach ⊆ r.reach
  scopes : t.scopes = r.scopes
    ∨ ∃ s, s.path = path ∧ WellFiled path s.entries ∧ t.scopes = r.scopes.set path s

def Adding (path : String) (r t : Run) : Prop := r.Grounded → Adds path r t

theorem adding_setScopes (hpath : scopes.path = path) (hfiled : WellFiled path scopes.entries) :
    KeepsTo (Adding path) (do
      modify fun r => { r with scopes := r.scopes.set path scopes }
      return scopes : Audit FileScopes) :=
  fun _ _ => ⟨rfl, rfl, rfl, Finset.Subset.refl _, .inr ⟨scopes, hpath, hfiled, rfl⟩⟩

theorem adding_bind {x : Audit α} {f : α → Audit FileScopes} (hx : Quiet Loading x)
    (hf : ∀ r a s, r.Grounded → x r = .ok a s → Adding path s (after (f a) s)) :
    KeepsTo (Adding path) (x >>= f) := by
  intro r hr
  cases h : x r with
  | ok a s =>
    have hloads := hx.keeps.of_ok h hr
    have hadds := hf r a s hr h (hloads.grounded hr)
    rw [after_bind_of_ok h]
    exact ⟨hadds.disk.trans hloads.disk, hadds.cache.trans hloads.cache,
      hadds.active.trans hloads.active, hadds.reach.trans hloads.reach,
      hloads.scopes ▸ hadds.scopes⟩
  | error e s =>
    rw [after_bind_of_error h]
    have hloads := hx.keeps.of_error h hr
    exact ⟨hloads.disk, hloads.cache, hloads.active, hloads.reach, .inl hloads.scopes⟩

@[grind .] theorem quiet_replay {events : List Event} : Quiet Loading (replay path events) :=
  (tells_replay _).quiet

theorem adding_track : KeepsTo (Adding path) (track path) := by
  unfold track
  refine adding_bind quiet_shown fun _ view r _ _ => ?_
  refine adding_bind quiet_log (fun _ _ r _ _ => ?_) r
  refine adding_bind quiet_rootOf (fun _ root r _ _ => ?_) r
  refine adding_bind quiet_get (fun _ known r _ _ => ?_) r
  obtain ⟨hpath, hfiled⟩ := run_wellFiled (callNames known.settings) path root
  refine adding_bind quiet_link (fun _ _ r _ _ => ?_) r
  refine adding_bind quiet_replay (fun _ _ r _ _ => ?_) r
  exact adding_setScopes hpath hfiled r

theorem ending_track : Ending (track path) := by
  unfold track
  refine ending_bind quiet_shown.ends fun view => ?_
  refine ending_bind quiet_log.ends fun _ => ?_
  refine ending_bind quiet_rootOf.ends fun root => ?_
  refine ending_bind ending_get fun known => ?_
  refine ending_bind quiet_link.ends fun _ => ?_
  refine ending_bind quiet_replay.ends fun _ => ?_
  exact ending_bind ending_modify fun _ => ending_pure

@[grind .] theorem quiet_loadCached : Quiet Loading (loadCached path) := by
  unfold loadCached
  refine quiet_bind quiet_get fun r => ?_
  split
  · exact quiet_pure
  · grind
  · grind

/-- What holds of a result and of the state it comes with, whenever there is one. -/
def Yields {α : Type} (P : α → Run → Prop) (x : Audit α) : Prop := ∀ r a t, x r = .ok a t → P a t

theorem yields_pure {P : α → Run → Prop} {a : α} (h : ∀ t, P a t) : Yields P (pure a) := by
  intro r b t heq
  obtain ⟨rfl, rfl⟩ := pure_ok_iff.mp heq
  exact h r

theorem yields_throw {P : α → Run → Prop} : Yields P (throw e) :=
  fun _ _ _ heq => nomatch heq

theorem yields_bind {P : β → Run → Prop} {x : Audit α} {f : α → Audit β} (hf : ∀ a, Yields P (f a))
    : Yields P (x >>= f) := by
  intro r b t h
  obtain ⟨a, s, _, h⟩ := bind_ok_iff.mp h
  exact hf a s b t h

/-- Definitions that were taken back come from a snapshot. -/
theorem loadCached_wellFiled (hr : r.Grounded) (h : loadCached path r = .ok (some scopes) t) :
    scopes.path = path ∧ WellFiled path scopes.entries := by
  rw [loadCached, bind_of_ok run_get] at h
  refine (show Yields (fun loaded (_ : Run) => ∀ scopes, loaded = some scopes →
    scopes.path = path ∧ WellFiled path scopes.entries) _ from ?_) r _ t h scopes rfl
  split
  · exact yields_pure fun _ => nofun
  · split
    · exact yields_pure fun _ => nofun
    · dsimp only
      split
      · exact yields_bind fun _ => yields_pure fun _ => nofun
      · exact yields_pure fun _ => nofun
    · dsimp only
      split
      · exact yields_bind fun _ => yields_throw
      · exact yields_throw
  · next snapshot hcached =>
    split
    · exact yields_throw
    split
    · exact yields_pure fun _ => nofun
    · refine yields_bind fun root => yields_bind fun _ => ?_
      exact yields_pure fun _ scopes h => hr.saved _ _ hcached path root scopes h

/-- A file within reach that was not tracked is tracked well. -/
theorem Adds.grows (h : Adds path r t) (hreach : path ∈ r.reach)
    (hresolved : r.disk.resolve path = path) (hnew : r.scopes.get? path = none) : r.Grows t := by
  refine ⟨⟨h.disk, h.cache, h.reach, fun p s hs => ?_, fun p s hs => ?_⟩, h.active⟩
  · rcases h.scopes with heq | ⟨scopes, _, _, heq⟩
    · rw [heq]
      exact hs
    rw [heq, get?_set, if_neg, hs]
    rintro rfl
    rw [hnew] at hs
    cases hs
  · rcases h.scopes with heq | ⟨scopes, hpath, hfiled, heq⟩
    · exact .inl (heq ▸ hs)
    rw [heq] at hs
    rcases get?_set_some hs with ⟨rfl, rfl⟩ | hs
    · exact .inr ⟨hreach, hresolved, hpath, hfiled⟩
    · exact .inl hs

theorem adding_scopesOf (path : String) (known : Run) : KeepsTo (Adding path) (do
    if known.settings.cacheDir.isSome && known.spilled.contains path then
      match ← loadCached path with
      | some scopes =>
        log ("reloaded scopes of " ++ (← shown path) ++ " from cache")
        modify fun r => { r with scopes := r.scopes.set path scopes }
        return scopes
      | none => track path
    else track path) := by
  split
  · refine adding_bind quiet_loadCached fun _ loaded r hr hloaded => ?_
    cases loaded with
    | none => exact adding_track r
    | some scopes =>
      obtain ⟨hpath, hfiled⟩ := loadCached_wellFiled hr hloaded
      refine adding_bind quiet_shown (fun _ view r _ _ => ?_) r
      refine adding_bind quiet_log (fun _ _ r _ _ => ?_) r
      exact adding_setScopes hpath hfiled r
  · exact adding_track

theorem ending_scopesOf : Ending (scopesOf path) := by
  unfold scopesOf
  refine ending_bind ending_get fun known => ?_
  dsimp only
  split
  · exact ending_pure
  refine ending_bind quiet_source.ends fun _ => ?_
  split
  · refine ending_bind quiet_loadCached.ends fun loaded => ?_
    split
    · refine ending_bind quiet_shown.ends fun view => ?_
      refine ending_bind quiet_log.ends fun _ => ?_
      exact ending_bind ending_modify fun _ => ending_pure
    · exact ending_track
  · exact ending_track

@[grind .] theorem quiet_scopesOf : Quiet Growing (scopesOf path) := by
  refine ⟨?_, ending_scopesOf⟩
  unfold scopesOf
  refine keeps_get_bind fun r => ?_
  dsimp only
  split
  · exact refl_of Growing r
  · next hnew =>
    intro hr
    have hresolved := Disk.resolve_resolve hr.absolute path
    cases hsource : source (r.disk.resolve path) r with
    | error e s =>
      rw [after_bind_of_error hsource]
      exact (quiet_source.keeps.of_error hsource hr).grows
    | ok known s =>
      have hloads := quiet_source.keeps.of_ok hsource hr
      have hreach := source_mem_reach hsource
      rw [hresolved] at hreach
      rw [after, bind_of_ok hsource]
      refine hloads.grows.trans ?_
      have hadds := adding_scopesOf (r.disk.resolve path) r s (hloads.grounded hr)
      refine hadds.grows hreach ?_ ?_
      · rw [hloads.disk]
        exact hresolved
      · rw [hloads.scopes]
        exact hnew

@[grind .] theorem quiet_closureOf : Quiet Growing (closureOf path node) := by
  unfold closureOf
  exact quiet_bind quiet_above.loading_growing fun _ => quiet_pure

@[grind .] theorem quiet_memberFrom :
    ∀ (seen : List String) (className : Option String) (path : String),
      Quiet Growing (memberFrom identifier steps seen className path) := by
  have hfind : ∀ name path, Quiet Growing (findClass name path) := fun name path =>
    quiet_findClass.loading_growing
  induction steps with
  | zero =>
    intro seen className path
    exact quiet_pure
  | succ steps ih =>
    intro seen className path
    unfold memberFrom
    split
    · exact quiet_pure
    split
    · exact quiet_pure
    · refine quiet_bind (hfind _ _) fun found => ?_
      grind

@[grind .] theorem quiet_classMember : Quiet Growing (classMember className identifier path) := by
  unfold classMember
  grind

@[grind .] theorem quiet_resolveKey {line : Int} :
    Quiet Growing (resolveKey path key owner line) := by
  have hparent : ∀ name path, Quiet Growing (parentOf name path) := fun name path =>
    quiet_parentOf.loading_growing
  unfold resolveKey
  grind

@[grind .] theorem quiet_resolve : Quiet Growing (resolve path node line) := by
  unfold resolve
  grind

/-! ## What is found. -/

theorem yields_setScopes :
    Yields (fun s t => t.scopes.get? path = some s) (do
      modify fun r => { r with scopes := r.scopes.set path scopes }
      return scopes : Audit FileScopes) := by
  intro r s t h
  obtain ⟨rfl, rfl⟩ := pure_ok_iff.mp h
  rw [get?_set, if_pos rfl]

theorem track_tracked : Yields (fun s t => t.scopes.get? path = some s) (track path) := by
  unfold track
  refine yields_bind fun view => yields_bind fun _ => yields_bind fun root => ?_
  refine yields_bind fun known => yields_bind fun _ => yields_bind fun _ => ?_
  exact yields_setScopes

/-- The definitions of a file that were asked for are tracked from then on. -/
theorem scopesOf_tracked
    (h : scopesOf path r = .ok scopes t) : t.scopes.get? (r.disk.resolve path) = some scopes := by
  rw [scopesOf, bind_of_ok run_get] at h
  cases hknown : r.scopes.get? (r.disk.resolve path) with
  | some known =>
    rw [hknown] at h
    obtain ⟨rfl, rfl⟩ := pure_ok_iff.mp h
    exact hknown
  | none =>
    rw [hknown] at h
    refine yields_bind (P := fun s t => t.scopes.get? (r.disk.resolve path) = some s)
      (fun _ => ?_) r scopes t h
    split
    · refine yields_bind fun loaded => ?_
      split
      · exact yields_bind fun _ => yields_bind fun _ => yields_setScopes
      · exact track_tracked
    · exact track_tracked

theorem scopesOf_eq (h : r.Sound)
    (hs : r.scopes.get? path = some scopes) : scopesOf path r = .ok scopes r := by
  rw [scopesOf, bind_of_ok run_get]
  simp only [(h.tracked path scopes hs).resolved, hs]
  rfl

def Tracks (scopes : FileScopes) (r : Run) : Prop := ∃ path, r.scopes.get? path = some scopes

theorem Tracks.extends (h : Tracks scopes r) (hext : r.Extends t) : Tracks scopes t := by
  obtain ⟨path, hs⟩ := h
  exact ⟨path, hext.kept path scopes hs⟩

theorem has_of_tracked (h : r.Sound)
    (hs : r.scopes.get? path = some scopes) (hb : scopes.Has b) : r.Has b := by
  obtain ⟨_, hfile, hfiled⟩ := h.tracked path scopes hs
  refine ⟨scopes, ?_, hb⟩
  rw [(hfiled.place _ _ b hb).2.2]
  exact hs

theorem has_of_lookup (h : r.Sound) (hs : Tracks scopes r)
    (hb : scopes.lookup owner identifier line = some b) : r.Has b := by
  obtain ⟨path, hs⟩ := hs
  obtain ⟨_, hfile, hfiled⟩ := h.tracked path scopes hs
  subst hfile
  exact has_of_tracked h hs (hfiled.lookup_has hb)

/-- A step that finds definitions, from states with a property on. -/
def Finds (P : Run → Prop) (x : Audit (Option Binding)) : Prop :=
  ∀ r b t, r.Sound → P r → x r = .ok (some b) t → t.Has b

section Finding

variable {P : Run → Prop} {α : Type}

theorem finds_none : Finds P (pure none) := fun _ _ _ _ _ h => nomatch (pure_ok_iff.mp h).1

theorem finds_lookup (hP : ∀ r, P r → Tracks scopes r) :
    Finds P (pure (scopes.lookup owner identifier line)) := by
  intro r b t hr hp h
  obtain ⟨hb, rfl⟩ := pure_ok_iff.mp h
  exact has_of_lookup hr (hP r hp) hb

theorem finds_bind {x : Audit α} {f : α → Audit (Option Binding)} (hx : Quiet Growing x)
    (hP : ∀ r t, P r → r.Grows t → P t) (hf : ∀ a, Finds P (f a)) : Finds P (x >>= f) := by
  intro r b t hr hp h
  obtain ⟨a, s, ha, h⟩ := bind_ok_iff.mp h
  have hgrows := hx.keeps.of_ok ha hr.toGrounded
  exact hf a s b t (hr.extends hgrows.toExtends) (hP r s hp hgrows) h

theorem finds_scopesOf {f : FileScopes → Audit (Option Binding)}
    (hf : ∀ scopes, Finds (Tracks scopes) (f scopes)) : Finds P (scopesOf path >>= f) := by
  intro r b t hr _ h
  obtain ⟨scopes, s, hs, h⟩ := bind_ok_iff.mp h
  have hgrows := quiet_scopesOf.keeps.of_ok hs hr.toGrounded
  exact hf scopes s b t (hr.extends hgrows.toExtends) ⟨_, scopesOf_tracked hs⟩ h

end Finding

theorem finds_memberFrom {P : Run → Prop} (hP : ∀ r t, P r → r.Grows t → P t) :
    ∀ (seen : List String) (className : Option String) (path : String),
      Finds P (memberFrom identifier steps seen className path) := by
  induction steps generalizing P with
  | zero =>
    intro seen className path
    exact finds_none
  | succ steps ih =>
    intro seen className path
    unfold memberFrom
    split
    · exact finds_none
    split
    · exact finds_none
    refine finds_bind quiet_findClass.loading_growing hP fun found => ?_
    split
    · exact finds_none
    refine finds_scopesOf fun scopes => ?_
    split
    · next hlookup =>
      rw [← hlookup]
      exact finds_lookup (fun _ h => h)
    · exact ih (fun r t h hgrows => h.extends hgrows.toExtends) _ _ _

theorem finds_resolveKey {line : Int} : Finds (fun _ => True) (resolveKey path key owner line) := by
  unfold resolveKey
  refine finds_scopesOf fun scopes => ?_
  have hstays : ∀ r t, Tracks scopes r → r.Grows t → Tracks scopes t := fun r t h hgrows =>
    h.extends hgrows.toExtends
  have hmember : ∀ className : String, Finds (Tracks scopes)
      (classMember className key.identifier path) := fun className =>
    finds_bind quiet_get hstays fun known => finds_memberFrom hstays _ _ _
  split
  · refine finds_bind quiet_parentOf.loading_growing hstays fun parent => ?_
    split
    · exact finds_none
    · exact hmember _
  · exact hmember _
  split
  · split
    · exact finds_lookup (fun _ h => h)
    dsimp only
    split
    · next hlookup =>
      rw [← hlookup]
      exact finds_lookup (fun _ h => h)
    · split
      · exact finds_none
      refine finds_bind quiet_parentOf.loading_growing hstays fun parent => ?_
      split
      · exact finds_none
      · exact hmember _
  · exact finds_lookup (fun _ h => h)

/-- **A definition that a reference stands for is tracked.** -/
theorem resolve_has (hr : r.Sound) (h : resolve path node line r = .ok (some b) t) : t.Has b := by
  have hfinds : Finds (fun _ => True) (resolve path node line) := by
    unfold resolve
    split
    · exact finds_none
    · refine finds_bind quiet_scopesOf (fun _ _ _ _ => trivial) fun _ => ?_
      refine finds_bind quiet_closureOf (fun _ _ _ _ => trivial) fun owner => ?_
      exact finds_resolveKey
  exact hfinds r b t hr trivial h

theorem alternativesOf_eq (hr : r.Sound) (hb : r.Has b) :
    ∃ found, alternativesOf b r = .ok found r ∧ ∀ a ∈ found, r.Has a := by
  obtain ⟨scopes, hs, hb⟩ := hb
  obtain ⟨_, hfile, hfiled⟩ := hr.tracked _ scopes hs
  refine ⟨scopes.alternatives b, ?_, fun a ha => ?_⟩
  · rw [alternativesOf, bind_of_ok (scopesOf_eq hr hs)]
    rfl
  · exact has_of_tracked hr hs (WellFiled.alternatives_has (hfile.symm ▸ hfiled) hb a ha)

/-- **The definition that a tracked one hides is tracked and comes before it**, and nothing is read
to find it. -/
theorem previousOf_eq (hr : r.Sound) (hb : r.Has b) :
    ∃ found, previousOf b r = .ok found r ∧ ∀ p, found = some p →
      r.Has p ∧ (scopeRank p.closure < scopeRank b.closure
        ∨ p.closure = b.closure ∧ p.serial < b.serial) := by
  obtain ⟨scopes, hs, hb⟩ := hb
  obtain ⟨_, hfile, hfiled⟩ := hr.tracked _ scopes hs
  refine ⟨scopes.previous b, ?_, fun p hp => ?_⟩
  · rw [previousOf, bind_of_ok (scopesOf_eq hr hs)]
    rfl
  · obtain ⟨hp, hbefore⟩ := WellFiled.previous_before (hfile.symm ▸ hfiled) hp
    exact ⟨has_of_tracked hr hs hp, hbefore⟩

end Audit

end QueryAudit
