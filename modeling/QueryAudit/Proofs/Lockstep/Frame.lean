/-
  QueryAudit.Proofs.Lockstep.Frame — two runs in lockstep

  A step is taken by two runs that differ in a few parts. A `Frame` says how these are related, and
  `LockTo` that a step keeps the relation: both runs give the same result or failure, but the second
  may go on where the first ended with a shape that is not handled. `Frame.Reads` is what reading
  code asks of a frame, `Frame.Sound` checking calls.

  Main results: `lock_reads`, and `lock_bind`, `lock_forIn`, `lock_tryCatch`, … for steps put
    together.
-/

import QueryAudit.Proofs.Audit.Reading

namespace QueryAudit

open Audit Php Record Scope List ClassDecl

variable {R R' : Run → Parts → Prop} {e : HardError}

/-! ## Parts. -/

/-- The parts of a run in which two runs in lockstep may differ. -/
structure Parts where
  cacheDir : Option String
  debug : Bool
  sources : Catalog Source
  scopes : Catalog FileScopes
  spilled : List String
  cache : Catalog CacheFile
  log : List String

def Run.beside (r : Run) (p : Parts) : Run :=
  { r with
    settings := { r.settings with cacheDir := p.cacheDir }
    debug := p.debug, sources := p.sources, scopes := p.scopes, spilled := p.spilled
    cache := p.cache, log := p.log }

def Run.parts (r : Run) : Parts where
  cacheDir := r.settings.cacheDir
  debug := r.debug
  sources := r.sources
  scopes := r.scopes
  spilled := r.spilled
  cache := r.cache
  log := r.log

theorem Run.beside_parts (r : Run) : r.beside r.parts = r := rfl

/-- A change to the parts that are shared. Nothing is taken back: warnings with a code are added, keys
of warnings are noted, and a class that is known stays known at its place. -/
structure Tame (r t : Run) : Prop where
  rest : t = { r with
    diagnostics := t.diagnostics, classes := t.classes, searched := t.searched
    hierarchy := t.hierarchy, active := t.active } := by rfl
  warnings : ∃ more, t.diagnostics.warnings = r.diagnostics.warnings ++ more
    ∧ ∀ w ∈ more, w.code ≠ "" := by exact ⟨[], (append_nil _).symm, by simp⟩
  drained : t.diagnostics.drained = r.diagnostics.drained := by rfl
  seen : ∀ key, r.diagnostics.seen.contains key = true →
    t.diagnostics.seen.contains key = true := by exact fun _ h => h
  classes : ∀ key d, r.classes.get? key = some d → ∃ d', t.classes.get? key = some d'
    ∧ d'.file = d.file ∧ d'.line = d.line := by exact fun _ d h => ⟨d, h, rfl, rfl⟩

namespace Tame

variable {r : Run}

theorem of_rest (searched : List String) (hierarchy : Option Hierarchy)
    (active : List (String × Nat)) :
    Tame r { r with searched := searched, hierarchy := hierarchy, active := active } :=
  {}

theorem reference (reference : Reference) : Tame r { r with diagnostics :=
      { r.diagnostics with references := r.diagnostics.references ++ [reference] } } :=
  {}

theorem warning (w : Warning) (hw : w.code ≠ "") : Tame r { r with diagnostics :=
      { r.diagnostics with warnings := r.diagnostics.warnings ++ [w] } } where
  warnings := ⟨[w], rfl, by simpa using hw⟩

theorem noted (key : String) : Tame r { r with diagnostics :=
    { r.diagnostics with seen := r.diagnostics.seen ++ [key] } } where
  seen other h := by
    rw [contains_eq_mem, decide_eq_true_eq] at h ⊢
    exact mem_append_left _ h

theorem declared (d : ClassDecl) (hnew : r.classes.get? d.key = none) :
    Tame r { r with classes := r.classes.set d.key d } where
  classes key d' h := by
    refine ⟨d', ?_, rfl, rfl⟩
    show (r.classes.set d.key d).get? key = some d'
    rw [Catalog.get?_set, if_neg, h]
    rintro rfl
    rw [hnew] at h
    cases h

theorem amended (classes : Catalog ClassDecl) (hsame : classes.map bare = r.classes.map bare) :
    Tame r { r with classes := classes } where
  classes key d h := by
    have hbare : (classes.get? key).map bare = some d.bare := by
      rw [← Catalog.get?_map, hsame, Catalog.get?_map, h]
      rfl
    obtain ⟨d', hd', heq⟩ := Option.map_eq_some_iff.mp hbare
    have hfile : d'.bare.file = d.bare.file := congrArg file heq
    have hline : d'.bare.line = d.bare.line := congrArg line heq
    exact ⟨d', hd', hfile, hline⟩

end Tame

/-- A change to shared parts that leaves findings about SQL texts alone. -/
structure Still (r t : Run) : Prop where
  tame : Tame r t
  findings : SameFindings r t

namespace Still

variable {r : Run}

theorem of_rest (searched : List String) (hierarchy : Option Hierarchy)
    (active : List (String × Nat)) :
    Still r { r with searched := searched, hierarchy := hierarchy, active := active } :=
  ⟨.of_rest searched hierarchy active, {}⟩

theorem warning (w : Warning) (hw : w.code ≠ "") (hsql : w.aboutSql = false) :
    Still r { r with diagnostics :=
      { r.diagnostics with warnings := r.diagnostics.warnings ++ [w] } } :=
  ⟨.warning w hw, .warning w hsql⟩

theorem declared (d : ClassDecl) (hnew : r.classes.get? d.key = none) :
    Still r { r with classes := r.classes.set d.key d } :=
  ⟨.declared d hnew, {}⟩

theorem amended (classes : Catalog ClassDecl) (hsame : classes.map bare = r.classes.map bare) :
    Still r { r with classes := classes } :=
  ⟨.amended classes hsame, {}⟩

end Still

/-! ## Frames. -/

/-- How two runs are related that take the same steps. -/
structure Frame where
  /-- How a run is related to the parts of the other one, with files that are still to be analysed
  and files whose definitions are at hand in both. -/
  At : List String → List String → Run → Parts → Prop
  /-- What holds of the second run from when it went on where the first one ended. -/
  Gone : HardError → Run → Prop
  fine : Failure → Prop
  Target : String → Prop
  Apart : String → String → Prop

namespace Frame

variable (F : Frame) {α β : Type} {c l : Run}

def Alone (e : HardError) : EStateM.Result Failure Run α → Prop
  | .ok _ c => F.Gone e c
  | .error f c => F.Gone e c ∧ F.fine f

/-- What two runs come to: the same result, the same failure, or the end of the first one at a shape
that it does not handle. -/
inductive Agree (Q : α → Run → Parts → Prop) (R : Run → Parts → Prop) :
    EStateM.Result Failure Run α → EStateM.Result Failure Run α → Prop where
  | ok {a : α} {l : Run} {p : Parts} (h : Q a l p) : Agree Q R (.ok a l) (.ok a (l.beside p))
  | error {f : Failure} {l : Run} {p : Parts} (h : R l p) (hf : F.fine f) :
      Agree Q R (.error f l) (.error f (l.beside p))
  | gone {e : HardError} {l : Run} {other : EStateM.Result Failure Run α} (hl : l.debug = false)
      (h : F.Alone e other) : Agree Q R (.error (.hard e) l) other

/-- A step keeps two runs in lockstep. The files that its result names are at hand afterwards. -/
structure LockTo (T N : List String) (near : α → List String) (x : Audit α) : Prop where
  agree : ∀ l p, F.At T N l p →
    F.Agree (fun a => F.At T (near a ++ N)) (F.At T N) (x l) (x (l.beside p))
  alone : ∀ e c, F.Gone e c → F.Alone e (x c)

abbrev Lock (T N : List String) (x : Audit α) : Prop := F.LockTo T N (fun _ => []) x

/-- What a frame has to provide for steps that change shared parts only. -/
class Basic : Prop where
  fewer : ∀ {T N M l p}, N ⊆ M → F.At T M l p → F.At T N l p
  still : ∀ {T N l p t}, Still l t → F.At T N l p → F.At T N t p
  told : ∀ {T N l p} (a b : List String), (p.debug = l.debug → p.log = l.log → b = a) →
    F.At T N l p → F.At T N { l with log := a } { p with log := b }
  goneStill : ∀ {e c t}, Still c t → F.Gone e c → F.Gone e t
  /-- Telling the user something is nothing to the second run alone. -/
  goneTold : ∀ {e c} (a : List String), F.Gone e c → F.Gone e { c with log := a }
  /-- The second run may end in every failure other than a shape that is not handled. -/
  plain : ∀ {f}, (∀ e, f ≠ .hard e) → F.fine f
  hardError : ∀ T N e, F.Lock T N (Audit.hardError e)

/-- What a frame has to provide for reading code. -/
class Reads : Prop extends F.Basic where
  treeSize : ∀ {T N l p}, F.At T N l p → (l.beside p).treeSize = l.treeSize
  source : ∀ T N path, F.Lock T N ((fun _ => ()) <$> Audit.source path)
  rootOf : ∀ T N path, F.Lock T N (Audit.rootOf path)
  /-- Finding the definitions of a file. The calls in it are left out here. -/
  scopesOf : ∀ T N path, F.LockTo T N (fun _ => [path])
    ((fun s : FileScopes => { s with callSites := [] }) <$> Audit.scopesOf path)
  above : ∀ T N path node, path ∈ N → F.Lock T N (Audit.above path node)
  found : ∀ {T N l p t q} path node line b, F.At T N l p →
    Audit.resolve path node line (l.beside p) = .ok (some b) (t.beside q) → F.At T N t q →
    F.At T (b.path :: N) t q
  alternatives : ∀ {T N l p t q} b others, F.At T N l p →
    Audit.alternativesOf b (l.beside p) = .ok others (t.beside q) → F.At T N t q →
    F.At T (others.map Binding.path ++ N) t q

/-- A frame in which the second run may end in any failure. -/
class Eager : Prop extends F.Reads where
  all : ∀ f, F.fine f

/-- What a frame has to provide for checking calls. -/
class Sound : Prop extends F.Reads where
  tame : ∀ {T N l p t}, Tame l t → F.At T N l p → F.At T N t p
  goneTame : ∀ {e c t}, Tame c t → F.Gone e c → F.Gone e t

class Open : Prop extends F.Sound where
  all : ∀ f, F.fine f

instance [h : F.Open] : F.Eager := { h with }

/-! ## Steps put together. -/

variable {F} {T N : List String} {near : α → List String} {nearer : β → List String}

theorem Agree.mono {Q Q' : α → Run → Parts → Prop}
    {x y : EStateM.Result Failure Run α} (h : F.Agree Q R x y) (hQ : ∀ a l p, Q a l p → Q' a l p)
    (hR : ∀ l p, R l p → R' l p) : F.Agree Q' R' x y := by
  cases h with
  | ok h => exact .ok (hQ _ _ _ h)
  | error h hf => exact .error (hR _ _ h) hf
  | gone hl h => exact .gone hl h

theorem Agree.and_left {Q : α → Run → Parts → Prop}
    {x y : EStateM.Result Failure Run α} (h : F.Agree Q R x y) {P : Run → Prop}
    (hP : ∀ a l, x = .ok a l → P l) : F.Agree (fun a l p => P l ∧ Q a l p) R x y := by
  cases h with
  | ok h => exact .ok ⟨hP _ _ rfl, h⟩
  | error h hf => exact .error h hf
  | gone hl h => exact .gone hl h

theorem alone_bind {x : Audit α} {f : α → Audit β} (hx : F.Alone e (x c))
    (hf : ∀ a c, F.Gone e c → F.Alone e (f a c)) : F.Alone e ((x >>= f) c) := by
  rw [run_bind]
  generalize x c = first at hx
  cases first with
  | ok a c => exact hf a c hx
  | error f c => exact hx

/-- A step followed by another: the second one starts where the first one ended. The runs need not
take the same steps. -/
theorem agree_bind {Q : α → Run → Parts → Prop} {Q' : β → Run → Parts → Prop} {x y : Audit α}
    {f g : α → Audit β} (hx : F.Agree Q R (x l) (y c)) (hR : ∀ l p, R l p → R' l p)
    (hf : ∀ a l p, Q a l p → F.Agree Q' R' (f a l) (g a (l.beside p)))
    (halone : ∀ a e c, F.Gone e c → F.Alone e (g a c)) :
    F.Agree Q' R' ((x >>= f) l) ((y >>= g) c) := by
  have hother : ∀ {e}, F.Alone e (y c) → F.Alone e ((y >>= g) c) := fun h =>
    alone_bind h fun a c => halone a _ c
  generalize hfirst : x l = first at hx
  generalize hsecond : y c = second at hx
  cases hx with
  | ok h =>
    rw [bind_of_ok hfirst, bind_of_ok hsecond]
    exact hf _ _ _ h
  | error h hfine =>
    rw [bind_of_error hfirst, bind_of_error hsecond]
    exact .error (hR _ _ h) hfine
  | gone hl h =>
    rw [bind_of_error hfirst]
    exact .gone hl (hother (hsecond ▸ h))

theorem lockTo_bind [F.Basic] {x : Audit α} {f : α → Audit β} (hx : F.LockTo T N near x)
    (hf : ∀ a, F.LockTo T (near a ++ N) nearer (f a)) : F.LockTo T N nearer (x >>= f) where
  agree l p h := by
    refine agree_bind (hx.agree l p h) (fun _ _ h => h) (fun a l p h => ?_)
      fun a e c h => (hf a).alone e c h
    refine ((hf a).agree l p h).mono (fun b l p h => Basic.fewer ?_ h) fun l p h => Basic.fewer ?_ h
    · exact append_subset.mpr ⟨subset_append_left _ _,
        Subset.trans (subset_append_right _ _) (subset_append_right _ _)⟩
    · exact subset_append_right _ _
  alone e c h := alone_bind (hx.alone e c h) fun a c h => (hf a).alone e c h

theorem lock_bind {x : Audit α} {f : α → Audit β} (hx : F.Lock T N x)
    (hf : ∀ a, F.LockTo T N nearer (f a)) : F.LockTo T N nearer (x >>= f) where
  agree l p h := agree_bind (hx.agree l p h) (fun _ _ h => h) (fun a l p h => (hf a).agree l p h)
    fun a e c h => (hf a).alone e c h
  alone e c h := alone_bind (hx.alone e c h) fun a c h => (hf a).alone e c h

theorem lock_pure {a : α} : F.Lock T N (pure a : Audit α) where
  agree _ _ h := .ok h
  alone _ _ h := h

theorem lockTo_pure [F.Basic] {a : α} (h : near a ⊆ N) : F.LockTo T N near (pure a : Audit α) where
  agree _ _ hat := .ok (Basic.fewer (append_subset.mpr ⟨h, Subset.refl N⟩) hat)
  alone _ _ h := h

theorem lockTo_throw {f : Failure} (hf : F.fine f) : F.LockTo T N near (throw f : Audit α) where
  agree _ _ h := .error h hf
  alone _ _ h := ⟨h, hf⟩

theorem lock_then {x : Audit α} {f : α → β} (hx : F.Lock T N x) :
    F.Lock T N (x >>= fun a => pure (f a)) :=
  lock_bind hx fun _ => lock_pure

theorem lock_map {x : Audit α} {f : α → β} (hx : F.Lock T N x) : F.Lock T N (f <$> x) := by
  exact lock_then hx

theorem lock_reads {f : Run → Audit α} (hf : ∀ l p, F.At T N l p → f (l.beside p) = f l)
    (h : ∀ r, F.LockTo T N near (f r)) : F.LockTo T N near (get >>= f) where
  agree l p hat := by
    show F.Agree _ _ (f l l) (f (l.beside p) (l.beside p))
    rw [hf l p hat]
    exact (h l).agree l p hat
  alone e c hgone := (h c).alone e c hgone

theorem lock_get_bind {f : Run → Audit α}
    (h : ∀ l p, F.At T N l p → F.Agree (fun a => F.At T (near a ++ N)) (F.At T N) (f l l)
      (f (l.beside p) (l.beside p)))
    (halone : ∀ e c, F.Gone e c → F.Alone e (f c c)) : F.LockTo T N near (get >>= f) where
  agree := h
  alone := halone

/-- A step that finds files brings them to hand. -/
theorem lockTo_of_lock {x : Audit α} (hx : F.Lock T N x)
    (h : ∀ {l p a t q}, F.At T N l p → x (l.beside p) = .ok a (t.beside q) → F.At T N t q →
      F.At T (near a ++ N) t q) : F.LockTo T N near x where
  agree l p hat := by
    have hagree := hx.agree l p hat
    generalize hright : x (l.beside p) = right at hagree
    generalize x l = left at hagree
    cases hagree with
    | ok hafter => exact .ok (h hat hright hafter)
    | error hafter hf => exact .error hafter hf
    | gone hl halone => exact .gone hl halone
  alone := hx.alone

/-- Something is noted, unless the findings were handed over already. -/
theorem lock_unless_drained [F.Basic] {x : Audit Unit} {f : Run → Run}
    (hx : ∀ r, x r = if r.diagnostics.drained then .error .drained r else .ok ⟨⟩ (f r))
    (hbeside : ∀ r p, f (r.beside p) = (f r).beside p)
    (hat : ∀ {l p}, F.At T N l p → F.At T N (f l) p) (hgone : ∀ {e c}, F.Gone e c → F.Gone e (f c)) :
    F.Lock T N x where
  agree l p h := by
    rw [hx, hx, hbeside]
    show F.Agree _ _ _ (if l.diagnostics.drained then _ else _)
    split
    · exact .error h (Basic.plain fun _ => nofun)
    · exact .ok (hat h)
  alone e c h := by
    rw [hx]
    split
    · exact ⟨h, Basic.plain fun _ => nofun⟩
    · exact hgone h

theorem lock_modify [F.Basic] {f : Run → Run} (hf : ∀ r, Still r (f r))
    (hbeside : ∀ r p, f (r.beside p) = (f r).beside p) : F.Lock T N (modify f : Audit PUnit) where
  agree l p h := by
    rw [run_modify, run_modify, hbeside]
    exact .ok (Basic.still (hf l) h)
  alone e c h := Basic.goneStill (hf c) h

/-- Failures that are caught need not be fine themselves. A shape that the first run does not handle
must end the first run in the handler, too. -/
theorem lock_tryCatch (good : Failure → Prop) {x : Audit α} {f : Failure → Audit α}
    (hx : ({ F with fine := good } : Frame).Lock T N x) (hf : ∀ e, good e → F.Lock T N (f e))
    (hhard : ∀ e l, l.debug = false → ∃ t, f (.hard e) l = .error (.hard e) t ∧ t.debug = false) :
    F.Lock T N (tryCatch x f) := by
  have halone : ∀ {e c}, Alone { F with fine := good } e (x c) → F.Alone e (tryCatch x f c) := by
    intro e c h
    cases hres : x c with
    | ok a c =>
      rw [tryCatch_of_ok hres]
      rwa [hres] at h
    | error failure c =>
      rw [tryCatch_of_error hres]
      rw [hres] at h
      exact (hf failure h.2).alone e c h.1
  refine ⟨fun l p h => ?_, fun e c h => halone (hx.alone e c h)⟩
  have hagree := hx.agree l p h
  generalize hright : x (l.beside p) = right at hagree
  generalize hleft : x l = left at hagree
  cases hagree with
  | ok h =>
    rw [tryCatch_of_ok hleft, tryCatch_of_ok hright]
    exact .ok h
  | error h hfine =>
    rw [tryCatch_of_error hleft, tryCatch_of_error hright]
    exact (hf _ hfine).agree _ _ h
  | gone hl h =>
    obtain ⟨t, ht, hdebug⟩ := hhard _ _ hl
    rw [tryCatch_of_error hleft, ht]
    exact .gone hdebug (halone (hright ▸ h))

/-- A loop is in lockstep when its body is. -/
theorem lock_forIn {items : List α} {start : β} {body : α → β → Audit (ForInStep β)}
    (hbody : ∀ a ∈ items, ∀ b, F.Lock T N (body a b)) : F.Lock T N (forIn items start body) := by
  induction items generalizing start with
  | nil =>
    exact lock_pure
  | cons a items ih =>
    rw [forIn_cons]
    refine lock_bind (hbody a mem_cons_self start) fun step => ?_
    cases step with
    | done b => exact lock_pure
    | yield b => exact ih fun a ha => hbody a (mem_cons_of_mem _ ha)

theorem lock_mapM {items : List α} {f : α → Audit β} (hf : ∀ a ∈ items, F.Lock T N (f a)) :
    F.Lock T N (items.mapM f) := by
  induction items with
  | nil =>
    exact lock_pure
  | cons a items ih =>
    rw [mapM_cons]
    refine lock_bind (hf a mem_cons_self) fun b => ?_
    refine lock_bind (ih fun a ha => hf a (mem_cons_of_mem _ ha)) fun bs => ?_
    exact lock_pure

/-! ## Failures that end the second run. -/

def opened (F : Frame) : Frame := { F with fine := fun _ => True }

theorem Alone.opened {x : EStateM.Result Failure Run α} (h : F.Alone e x) : F.opened.Alone e x := by
  cases x with
  | ok a c => exact h
  | error f c => exact ⟨h.1, trivial⟩

theorem Agree.opened {Q : α → Run → Parts → Prop}
    {x y : EStateM.Result Failure Run α} (h : F.Agree Q R x y) : F.opened.Agree Q R x y := by
  cases h with
  | ok h => exact .ok h
  | error h hf => exact .error h trivial
  | gone hl h => exact .gone hl h.opened

theorem LockTo.opened {x : Audit α} (h : F.LockTo T N near x) : F.opened.LockTo T N near x where
  agree l p hat := (h.agree l p hat).opened
  alone e c hgone := (h.alone e c hgone).opened

instance [hF : F.Sound] : F.opened.Open where
  fewer := hF.fewer
  still := hF.still
  tame := hF.tame
  told := hF.told
  treeSize := hF.treeSize
  goneStill := hF.goneStill
  goneTame := hF.goneTame
  goneTold := hF.goneTold
  plain _ := trivial
  hardError T N e := (hF.hardError T N e).opened
  source T N path := (hF.source T N path).opened
  rootOf T N path := (hF.rootOf T N path).opened
  scopesOf T N path := (hF.scopesOf T N path).opened
  above T N path node h := (hF.above T N path node h).opened
  found := hF.found
  alternatives := hF.alternatives
  all _ := trivial

end Frame

end QueryAudit
