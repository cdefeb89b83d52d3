/-
  QueryAudit.Proofs.Lockstep.Reading — reading files and finding classes in lockstep

  Every step that reads a file, looks for a class, finds out about record classes or resolves a
  reference keeps two runs in lockstep. One lemma for each function, in the order in which the
  functions build on each other; a function that names the file of what it found says so.
-/

import QueryAudit.Proofs.Lockstep.Frame

namespace QueryAudit

open Audit Php Record Scope QueryAudit.Frame

variable {value : Cursor → Audit (Option String)}

variable {F : Frame} {T N : List String}

variable {path key name : String} {node : Cursor} {d : ClassDecl} {steps : Nat}

namespace Audit

variable {w : Warning} {α : Type}

/-! ## Messages. -/

def linesAfter (r : Run) (message : String) : List String :=
  if r.verbose || r.debug then r.log ++ ["[*] " ++ message] else r.log

theorem log_eq (message : String) (r : Run) :
    log message r = .ok ⟨⟩ { r with log := linesAfter r message } := by
  unfold log linesAfter
  rw [bind_of_ok run_get]
  by_cases h : (r.verbose || r.debug) = true
  · rw [if_pos h, if_pos h]
    exact rfl
  · rw [if_neg h, if_neg h]
    exact rfl

theorem lock_shown : F.Lock T N (shown path) :=
  lock_reads (fun _ _ _ => rfl) fun _ => lock_pure

section Basic

variable [F.Basic]

theorem lock_print {line : String} : F.Lock T N (print line) where
  agree l p h := .ok (l := { l with log := l.log ++ [line] })
    (p := { p with log := p.log ++ [line] }) (Basic.told _ _ (fun _ hlog => by rw [hlog]) h)
  alone _ _ h := Basic.goneTold _ h

theorem lock_log {message : String} : F.Lock T N (log message) where
  agree l p h := by
    have hsame : p.debug = l.debug → p.log = l.log →
        linesAfter (l.beside p) message = linesAfter l message := by
      intro hdebug hlog
      show (if l.verbose || p.debug then p.log ++ _ else p.log) = _
      rw [hdebug, hlog]
      rfl
    rw [log_eq, log_eq]
    exact .ok (l := { l with log := linesAfter l message })
      (p := { p with log := linesAfter (l.beside p) message }) (Basic.told _ _ hsame h)
  alone e c h := by
    rw [log_eq]
    exact Basic.goneTold _ h

theorem lock_warn (hw : w.code ≠ "") (hsql : w.aboutSql = false) : F.Lock T N (warn w) :=
  lock_unless_drained (fun _ => warn_eq) (fun _ _ => rfl) (Basic.still (.warning w hw hsql))
    (Basic.goneStill (.warning w hw hsql))

theorem lock_warnOnce (hw : w.code ≠ "") (hsql : w.aboutSql = false) :
    F.Lock T N (warnOnce key w) := by
  have heq : warnOnce key w = (do
      let r ← get
      if r.diagnostics.seen.contains key then return
      modify fun r => { r with diagnostics :=
        { r.diagnostics with seen := r.diagnostics.seen ++ [key] } }
      warn w) := by
    funext r
    rw [warnOnce_eq, bind_of_ok run_get]
    split <;> rfl
  rw [heq]
  refine lock_reads (fun _ _ _ => rfl) fun r => ?_
  split
  · exact lock_pure
  · exact lock_bind (lock_modify (fun r => ⟨.noted key, {}⟩) fun _ _ => rfl) fun _ => lock_warn hw hsql

theorem lock_skipFile {failure : Failure} : F.Lock T N (skipFile path failure) :=
  lock_bind lock_print fun _ =>
    lock_modify (fun r => .of_rest _ r.hierarchy r.active) fun _ _ => rfl

theorem lock_unescaped {value : Except EscapeError α} : F.Lock T N (unescaped value) := by
  cases value with
  | ok a => exact lock_pure
  | error e => exact lockTo_throw (Basic.plain fun _ => nofun)

/-! ## Classes. -/

theorem lock_recordClass : F.Lock T N (recordClass d) := by
  unfold recordClass
  split
  · exact lock_pure
  have hknown : ∀ known : ClassDecl, F.Lock T N (do
      if known.file = d.file && known.line = d.line then return
      let first := (← shown known.file) ++ ":" ++ toString known.line
      warnOnce ("duplicate-class:" ++ d.key)
        { message := "duplicate class " ++ d.name ++ ", first declared at " ++ first
          file := d.file, line := d.line, code := "duplicate-class", subject := d.name }) := by
    intro known
    split
    · exact lock_pure
    · exact lock_bind lock_shown fun view => lock_warnOnce (by simp) rfl
  refine lock_get_bind (fun l p h => ?_) fun e c h => ?_
  · rw [show (l.beside p).classes = l.classes from rfl]
    cases hclass : l.classes.get? d.key with
    | none => exact .ok (p := p) (Basic.still (.declared d hclass) h)
    | some known => exact (hknown known).agree l p h
  · cases hclass : c.classes.get? d.key with
    | none => exact Basic.goneStill (.declared d hclass) h
    | some known => exact (hknown known).alone e c h

theorem lock_startSearch : F.Lock T N (startSearch path) := by
  refine lock_get_bind (fun l p h => ?_) fun e c h => ?_
  · show F.Agree _ _ _ ((if l.searched.contains path then _ else _ : Audit Bool) _)
    split
    · exact .ok h
    · exact .ok (p := p) (Basic.still (.of_rest _ l.hierarchy l.active) h)
  · split
    · exact h
    · exact Basic.goneStill (.of_rest _ c.hierarchy c.active) h

theorem lock_replay {events : List Event} : F.Lock T N (replay path events) := by
  induction events with
  | nil => exact lock_pure
  | cons event events ih =>
    cases event with
    | classFound node => exact lock_bind lock_recordClass fun _ => ih
    | unhandled e => exact lock_bind (Basic.hardError T N e) fun _ => ih

end Basic

section Reads

variable [F.Reads] {className identifier : String} {b : Binding}

theorem lock_source_bind {near : α → List String} {x : Audit α}
    (h : F.LockTo T N near x) : F.LockTo T N near (source path >>= fun _ => x) := by
  have hsplit : (source path >>= fun _ => x) = ((fun _ => ()) <$> source path) >>= fun _ => x := by
    rw [bind_map_left]
  rw [hsplit]
  exact lock_bind (Reads.source T N path) fun _ => h

theorem lock_register : F.Lock T N (register path) := by
  refine lock_reads (fun _ _ _ => rfl) fun r => ?_
  refine lock_then (lock_forIn fun file _ _ => ?_)
  exact lock_source_bind lock_pure

theorem lock_scanFile : F.Lock T N (scanFile path) := by
  unfold scanFile
  refine lock_bind lock_startSearch fun new => ?_
  split
  · exact lock_pure
  refine lock_source_bind ?_
  refine lock_bind (lock_tryCatch F.fine (lock_map (Reads.rootOf T N path)) (fun f hf => ?_)
    fun e l hl => ⟨l, rfl, hl⟩) fun root => ?_
  · split
    · exact lock_then lock_skipFile
    · exact lockTo_throw hf
  · split
    · exact lock_pure
    refine lock_reads (fun _ _ _ => rfl) fun r => ?_
    refine lock_then (lock_forIn fun node _ _ => ?_)
    split
    · exact lock_then lock_recordClass
    · exact lock_pure

theorem lock_scanTree {directory : String} : F.Lock T N (scanTree directory) := by
  unfold scanTree
  refine lock_bind lock_startSearch fun new => ?_
  split
  · exact lock_pure
  refine lock_bind lock_register fun files => ?_
  refine lock_then (lock_forIn fun path _ _ => ?_)
  refine lock_bind lock_shown fun view => ?_
  refine lock_reads (fun _ _ _ => rfl) fun r => ?_
  split
  · exact lock_then lock_scanFile
  · exact lock_pure

theorem lock_searchUpward {directories : List String} :
    F.Lock T N (searchUpward key directories) := by
  induction directories with
  | nil => exact lock_pure
  | cons directory directories ih =>
    unfold searchUpward
    refine lock_bind lock_scanTree fun _ => ?_
    refine lock_reads (fun _ _ _ => rfl) fun r => ?_
    split
    · exact lock_pure
    · exact ih

theorem lock_findClass {start : String} : F.Lock T N (findClass name start) := by
  unfold findClass
  dsimp only
  split
  · exact lock_pure
  refine lock_reads (fun _ _ _ => rfl) fun r => ?_
  split
  · exact lock_pure
  refine lock_bind lock_searchUpward fun found => ?_
  split
  · exact lock_pure
  · refine lock_bind lock_shown fun view => ?_
    exact lock_then lock_log

theorem lock_parentOf : F.Lock T N (parentOf className path) := by
  unfold parentOf
  split
  · exact lock_pure
  · exact lock_then lock_findClass

/-! ## Resolving. -/

/-- What is done with the definitions of a file does not depend on the calls in it, and has the file
at hand. -/
theorem lock_scopesOf_bind {near : α → List String} {f : FileScopes → Audit α}
    (hf : ∀ s, f s = f { s with callSites := [] }) (h : ∀ s, F.LockTo T (path :: N) near (f s)) :
    F.LockTo T N near (scopesOf path >>= f) := by
  have hcalls : scopesOf path >>= f
      = ((fun s : FileScopes => { s with callSites := [] }) <$> scopesOf path) >>= f := by
    rw [bind_map_left]
    exact bind_congr hf
  rw [hcalls]
  exact lockTo_bind (Reads.scopesOf T N path) h

theorem lock_closureOf (hpath : path ∈ N) : F.Lock T N (closureOf path node) :=
  lock_then (Reads.above T N path node hpath)

theorem lock_memberFrom :
    ∀ (N : List String) (seen : List String) (className : Option String) (path : String),
      F.Lock T N (memberFrom identifier steps seen className path) := by
  induction steps with
  | zero =>
    intro N seen className path
    exact lock_pure
  | succ steps ih =>
    intro N seen className path
    unfold memberFrom
    split
    · exact lock_pure
    split
    · exact lock_pure
    refine lock_bind lock_findClass fun found => ?_
    split
    · exact lock_pure
    refine lock_scopesOf_bind (fun s => rfl) fun scopes => ?_
    split
    · exact lock_pure
    · exact ih _ _ _ _

theorem lock_classMember : F.Lock T N (classMember className identifier path) :=
  lock_reads (fun _ _ _ => rfl) fun _ => lock_memberFrom N _ _ _

theorem lock_resolveKey {key : RefKey} {owner : Closure} {line : Int} :
    F.Lock T N (resolveKey path key owner line) := by
  unfold resolveKey
  refine lock_scopesOf_bind (fun s => rfl) fun scopes => ?_
  split
  · refine lock_bind lock_parentOf fun parent => ?_
    split
    · exact lock_pure
    · exact lock_classMember
  · exact lock_classMember
  split
  · split
    · exact lock_pure
    dsimp only
    split
    · exact lock_pure
    split
    · exact lock_pure
    refine lock_bind lock_parentOf fun parent => ?_
    split
    · exact lock_pure
    · exact lock_classMember
  · exact lock_pure

theorem lock_resolve (path : String) (node : Cursor) (line : Option Int) :
    F.Lock T N (resolve path node line) := by
  unfold resolve
  split
  · exact lock_pure
  · refine lock_scopesOf_bind (fun s => rfl) fun _ => ?_
    refine lock_bind (lock_closureOf List.mem_cons_self) fun owner => ?_
    exact lock_resolveKey

def fileOf (found : Option Binding) : List String := (found.map Binding.path).toList

/-- The file of a definition that was found is at hand. -/
theorem lockTo_resolve {line : Option Int} : F.LockTo T N fileOf (resolve path node line) := by
  refine lockTo_of_lock (lock_resolve path node line) fun {_ _ found _ _} h hright hafter => ?_
  cases found with
  | none => exact hafter
  | some b => exact Reads.found path node line b h hright hafter

theorem lock_previousOf : F.Lock T N (previousOf b) :=
  lock_scopesOf_bind (fun _ => rfl) fun _ => lock_pure

theorem lockTo_alternativesOf :
    F.LockTo T N (fun others => others.map Binding.path) (alternativesOf b) :=
  lockTo_of_lock (lock_scopesOf_bind (fun _ => rfl) fun _ => lock_pure) (Reads.alternatives b _)

end Reads

end Audit

namespace Record

variable {nodes : List Cursor}

/-! ## Literal values. -/

theorem lock_allValues (h : ∀ node, F.Lock T N (value node)) :
    F.Lock T N (allValues value nodes) := by
  induction nodes with
  | nil => exact lock_pure
  | cons node nodes ih =>
    unfold allValues
    refine lock_bind (h node) fun first => ?_
    split
    · exact lock_pure
    · exact lock_then ih

theorem lock_valuesWith (h : ∀ node, F.Lock T N (value node)) :
    F.Lock T N (valuesWith value node) := by
  unfold valuesWith
  split
  · exact lock_allValues h
  · exact lock_then (h node)

theorem lock_argumentsWith (h : ∀ node, F.Lock T N (value node)) :
    F.Lock T N (argumentsWith value nodes) := by
  induction nodes with
  | nil => exact lock_pure
  | cons node nodes ih =>
    unfold argumentsWith
    refine lock_bind (lock_valuesWith h) fun first => ?_
    split
    · exact lock_pure
    · exact lock_then ih

theorem lock_knownAccessor? {key : String × String} : F.Lock T N (knownAccessor? key) :=
  lock_reads (fun _ _ _ => rfl) fun _ => lock_pure

section Literals

variable [F.Reads] {accessor : String} {app : Bool} {context : LiteralContext}

theorem lock_functionWith (h : ∀ node, F.Lock T N (value node)) :
    F.Lock T N (functionWith value node) := by
  unfold functionWith
  dsimp only
  split
  · exact lock_pure
  refine lock_bind (lock_argumentsWith h) fun args => ?_
  split
  · exact lock_pure
  split
  · exact lock_pure
  · exact lock_pure
  · exact lockTo_throw (Basic.plain fun _ => nofun)

theorem lock_classNamed? {name : Option String} {file : String} :
    F.Lock T N (classNamed? name file) := by
  unfold classNamed?
  split
  · exact lock_pure
  · exact lock_findClass

theorem lock_constantOwner? {scope : String} : F.Lock T N (constantOwner? context scope) := by
  unfold constantOwner?
  split
  · exact lock_pure
  · exact lock_pure
  · exact lock_classNamed?
  · exact lock_classNamed?

theorem lock_declaringClass? :
    ∀ (seen : List String) (d : Option ClassDecl), F.Lock T N (declaringClass? name steps seen d) := by
  induction steps with
  | zero =>
    intro seen d
    cases d <;> exact lock_pure
  | succ steps ih =>
    intro seen d
    cases d with
    | none => exact lock_pure
    | some d =>
      unfold declaringClass?
      split
      · exact lock_pure
      · split
        · exact lock_pure
        · exact lock_bind lock_classNamed? fun parent => ih _ _

theorem lock_constantWith {value : Evaluator} (h : ∀ context node, F.Lock T N (value context node))
    : F.Lock T N (constantWith value context node) := by
  unfold constantWith
  split
  · dsimp only
    split
    · exact lock_pure
    refine lock_bind lock_constantOwner? fun owner => ?_
    refine lock_reads (fun _ _ _ => rfl) fun r => ?_
    refine lock_bind (lock_declaringClass? _ _) fun declaring => ?_
    split
    · exact lock_pure
    · split
      · exact lock_pure
      · exact h _ _
  · exact lock_pure

theorem lock_operandWith (h : ∀ node, F.Lock T N (value node)) {role : String} :
    F.Lock T N (operandWith value node role) := by
  unfold operandWith
  split
  · exact h _
  · exact lockTo_throw (Basic.plain fun _ => nofun)

theorem lock_literalFrom :
    ∀ (context : LiteralContext) (node : Cursor), F.Lock T N (literalFrom steps context node) := by
  induction steps with
  | zero =>
    intro context node
    exact lockTo_throw (Basic.plain fun _ => nofun)
  | succ steps ih =>
    intro context node
    unfold literalFrom
    refine lock_bind lock_unescaped fun known => ?_
    split
    · exact lock_pure
    split
    · exact lock_pure
    · exact lock_pure
    · split
      · exact ih _ _
      · exact lock_pure
    · split
      · exact lock_pure
      refine lock_bind (lock_operandWith (ih context)) fun left => ?_
      refine lock_bind (lock_operandWith (ih context)) fun right => ?_
      split
      · exact lock_pure
      · exact lock_pure
    · exact lock_functionWith (ih context)
    · exact lock_constantWith ih
    · exact lock_pure
    · exact lock_pure

theorem lock_literalValues : F.Lock T N (literalValues context node) :=
  lock_valuesWith (fun _ => lock_reads (fun _ _ _ => rfl) fun _ => lock_literalFrom _ _)

/-! ## Record classes. -/

theorem cycleWarning?_code {cycle : List ClassDecl} {w : Warning}
    (h : cycleWarning? cycle = some (key, w)) : w.code ≠ "" ∧ w.aboutSql = false := by
  unfold cycleWarning? at h
  split at h
  · cases h
  · rw [Option.some.injEq, Prod.mk.injEq] at h
    rw [← h.2]
    exact ⟨by simp, rfl⟩

theorem lock_amend {f : Catalog ClassDecl → Catalog ClassDecl}
    (hf : ∀ classes, (f classes).map ClassDecl.bare = classes.map ClassDecl.bare) :
    F.Lock T N (modify fun r => { r with classes := f r.classes } : Audit Unit) :=
  lock_modify (fun r => .amended _ (hf r.classes)) fun _ _ => rfl

/-- What is done with the walk from a class. -/
def settleWalk (walk : Ascent) : Audit Bool := do
  match cycleWarning? walk.cycle with
  | some (key, warning) => Audit.warnOnce key warning
  | none => pure ()
  modify fun r => { r with classes := settle walk.beyond walk.isRecord walk.chain r.classes }
  return walk.isRecord

theorem lock_settleWalk {walk : Ascent} : F.Lock T N (settleWalk walk) := by
  have hsettle : F.Lock T N (do
      modify fun r => { r with classes := settle walk.beyond walk.isRecord walk.chain r.classes }
      return walk.isRecord : Audit Bool) :=
    lock_then (lock_amend bare_settle)
  unfold settleWalk
  split
  · next hwarning =>
    obtain ⟨hcode, hsql⟩ := cycleWarning?_code hwarning
    exact lock_bind (lock_warnOnce hcode hsql) fun _ => hsettle
  · exact hsettle

theorem lock_classify : F.Lock T N (classify d) := by
  unfold classify
  refine lock_get_bind (fun l p h => ?_) fun e c h => ?_
  · rw [show (l.beside p).classes = l.classes from rfl]
    cases (l.classes.get? d.key).bind ClassDecl.isRecord with
    | some known => exact .ok h
    | none => exact lock_settleWalk.agree _ p (Basic.still (.amended _ (bare_markCyclic _)) h)
  · cases (c.classes.get? d.key).bind ClassDecl.isRecord with
    | some known => exact h
    | none => exact (lock_settleWalk : F.Lock T N _).alone e _ (Basic.goneStill (.amended _ (bare_markCyclic _)) h)

theorem lock_returnValues {statements : List Cursor} :
    ∀ values, F.Lock T N (returnValues d accessor app statements values) := by
  induction statements with
  | nil =>
    intro values
    exact lock_pure
  | cons statement statements ih =>
    intro values
    unfold returnValues
    split
    · exact ih values
    refine lock_bind lock_literalValues fun found => ?_
    split
    · exact ih _
    · exact lock_bind (lock_warn (by simp [Warning.at]) rfl) fun _ => ih values

theorem lock_modifyHierarchy (f : Option Hierarchy → Option Hierarchy) :
    F.Lock T N (modify fun r => { r with hierarchy := f r.hierarchy } : Audit Unit) :=
  lock_modify (fun r => .of_rest r.searched _ r.active) fun _ _ => rfl

theorem lock_ownValues : F.Lock T N (ownValues d accessor app) := by
  unfold ownValues
  refine lock_bind lock_knownAccessor? fun known => ?_
  split
  · exact lock_pure
  have hnote : ∀ values : List String, F.Lock T N (do
      modify fun r => { r with hierarchy := r.hierarchy.map fun h =>
        { h with accessors := h.accessors ++ [((d.key, Text.lower accessor), values)] } }
      return values : Audit (List String)) := fun values =>
    lock_then (lock_modifyHierarchy fun hierarchy => hierarchy.map fun h =>
      { h with accessors := h.accessors ++ [((d.key, Text.lower accessor), values)] })
  dsimp only
  split
  · exact lock_bind lock_pure hnote
  · exact lock_bind (lock_returnValues _) hnote

theorem lock_nearestValues {names : List String} :
    F.Lock T N (nearestValues accessor app names) := by
  induction names with
  | nil => exact lock_pure
  | cons name names ih =>
    unfold nearestValues
    refine lock_reads (fun _ _ _ => rfl) fun r => ?_
    split
    · exact ih
    refine lock_bind lock_ownValues fun values => ?_
    split
    · exact ih
    · exact lock_pure

theorem lock_inheritedValues : F.Lock T N (inheritedValues d accessor app) := by
  unfold inheritedValues
  refine lock_bind lock_ownValues fun values => ?_
  split
  · exact lock_nearestValues
  · exact lock_pure

theorem lock_resolveAccessors : F.Lock T N (resolveAccessors key) := by
  have hamend : ∀ f : ClassDecl → ClassDecl, (∀ d, (f d).bare = d.bare) →
      F.Lock T N (modify fun r => { r with classes := r.classes.modify key f } : Audit Unit) :=
    fun f hf => lock_amend fun classes => bare_modify hf
  unfold resolveAccessors
  refine lock_reads (fun _ _ _ => rfl) fun r => ?_
  split
  · exact lock_pure
  dsimp only
  refine lock_bind lock_inheritedValues fun tables => ?_
  refine lock_bind (hamend _ fun _ => rfl) fun _ => ?_
  refine lock_bind lock_inheritedValues fun dbs => ?_
  refine lock_bind (hamend _ fun _ => rfl) fun _ => ?_
  refine lock_bind lock_inheritedValues fun pk => ?_
  refine lock_bind (hamend _ fun _ => rfl) fun _ => ?_
  split
  · split
    · refine lock_bind (lock_warn (by simp) rfl) fun _ => ?_
      split
      · exact lock_warn (by simp) rfl
      · exact lock_pure
    · split
      · exact lock_warn (by simp) rfl
      · exact lock_pure
  · exact lock_pure

theorem lock_noteRecord : F.Lock T N (noteRecord key) :=
  lock_modifyHierarchy fun hierarchy => hierarchy.map fun h =>
    { h with records := if h.records.contains key then h.records else h.records ++ [key] }

theorem lock_resolveHierarchy : F.Lock T N (resolveHierarchy path) := by
  unfold resolveHierarchy
  refine lock_bind (lock_modifyHierarchy fun _ => some {}) fun _ => ?_
  refine lock_bind lock_log fun _ => ?_
  refine lock_reads (fun _ _ _ => rfl) fun r => ?_
  refine lock_bind lock_scanTree fun _ => ?_
  refine lock_reads (fun _ _ _ => rfl) fun r => ?_
  refine lock_bind (lock_amend bare_noteChildren) fun _ => ?_
  refine lock_bind (lock_forIn fun d _ _ => ?_) fun _ => ?_
  · refine lock_bind lock_classify fun isRecord => ?_
    split
    · exact lock_then lock_noteRecord
    · exact lock_pure
  · refine lock_reads (fun _ _ _ => rfl) fun r => ?_
    refine lock_bind (lock_forIn fun key _ _ => ?_) fun _ => lock_log
    exact lock_then lock_resolveAccessors

theorem lock_recordClass? : F.Lock T N (recordClass? name path) := by
  have hrecord : ∀ d : ClassDecl, F.Lock T N (do
      return ((← get).classes.get? d.key).filter fun d => d.isRecord = some true :
        Audit (Option ClassDecl)) := fun d => lock_reads (fun _ _ _ => rfl) fun _ => lock_pure
  unfold recordClass?
  refine lock_reads (fun _ _ _ => rfl) fun r => ?_
  split
  · exact lockTo_throw (Basic.plain fun _ => nofun)
  refine lock_bind lock_findClass fun found => ?_
  split
  · exact lock_pure
  · next d =>
    split
    · refine lock_bind lock_classify fun isRecord => ?_
      split
      · refine lock_bind lock_noteRecord fun _ => ?_
        exact lock_bind lock_resolveAccessors fun _ => hrecord d
      · exact hrecord d
    · exact hrecord d

end Literals

end Record

end QueryAudit
