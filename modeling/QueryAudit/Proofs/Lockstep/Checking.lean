/-
  QueryAudit.Proofs.Lockstep.Checking — whole analyses in lockstep

  Checking a call keeps two runs in lockstep as long as its file is at hand. A shape that is not
  handled is caught right there, so only the failures that are left can end a run. An analysis goes
  through its files one after another; what a frame knows about files that are still to come is used
  up file by file.

  Main results: `lock_checkSite`, `agree_checkAll`.
-/

import QueryAudit.Analysis
import QueryAudit.Proofs.Lockstep.Alone

namespace QueryAudit

open Audit Php Record Scope QueryAudit.Frame Sample List

variable {c l r : Run} {e : HardError} {failure : Failure} {p : Parts} {path : String}

variable {F : Frame} {T N : List String}

namespace Query

variable {site : Site} {db sample sql : String} {pairs : List (String × String)} {reached : Reached}
  {texts : List String} {d : ClassDecl}

/-! ## Findings of one call. -/

theorem lock_tablesOf [F.Basic] : F.Lock T N (tablesOf sql) := by
  refine lock_reads (fun _ _ _ => rfl) fun r => ?_
  split
  · exact lock_pure
  · exact lockTo_throw (Basic.plain fun _ => nofun)

section Findings

variable [F.Sound]

theorem lock_siteWarn {message code subject : String} (hcode : code ≠ "") :
    F.Lock T N (site.warn message code subject) :=
  lock_unless_drained (fun _ => warn_eq) (fun _ _ => rfl) (Sound.tame (.warning _ hcode))
    (Sound.goneTame (.warning _ hcode))

theorem lock_warnInjection {kind : Taint} : F.Lock T N (site.warnInjection kind sample) :=
  lock_siteWarn (by simp)

variable (hsite : site.path ∈ N)

include hsite

theorem lock_addReferenceAt {table : String} :
    F.Lock T N (addReference site db table sql reached) := by
  unfold addReference
  split
  · exact lock_pure
  refine lock_bind (Reads.above T N _ _ hsite) fun above => ?_
  refine lock_then ?_
  exact lock_unless_drained (fun _ => collecting_addReference_eq _) (fun _ _ => rfl)
    (Sound.tame (.reference _)) (Sound.goneTame (.reference _))

theorem lock_addReferences {tables : List Sql.TableName} :
    ∀ reached, F.Lock T N (addReferences site db sql tables reached) := by
  induction tables with
  | nil =>
    intro reached
    exact lock_pure
  | cons t tables ih =>
    intro reached
    exact lock_bind (lock_addReferenceAt hsite) fun reached => ih reached

theorem lock_takeSql : F.Lock T N (takeSql site db sample reached) := by
  unfold takeSql
  split
  · exact lock_then lock_warnInjection
  refine lock_reads (fun _ _ _ => rfl) fun r => ?_
  refine lock_bind lock_tablesOf fun tables => ?_
  split
  · exact lock_then (lock_siteWarn (by simp))
  split
  · refine lock_bind (lock_siteWarn (by simp)) fun _ => ?_
    exact lock_addReferences hsite _
  · exact lock_addReferences hsite _

theorem lock_takeAllSql : ∀ reached, F.Lock T N (takeAllSql site db texts reached) := by
  induction texts with
  | nil =>
    intro reached
    exact lock_pure
  | cons sample texts ih =>
    intro reached
    exact lock_bind (lock_takeSql hsite) fun reached => ih reached

theorem lock_addListed : ∀ reached, F.Lock T N (addListed site sample pairs reached) := by
  induction pairs with
  | nil =>
    intro reached
    exact lock_pure
  | cons pair pairs ih =>
    intro reached
    exact lock_bind (lock_addReferenceAt hsite) fun reached => ih reached

theorem lock_takeLists {naming : Site} :
    ∀ reached, F.Lock T N (takeLists site naming db texts reached) := by
  induction texts with
  | nil =>
    intro reached
    exact lock_pure
  | cons sample texts ih =>
    intro reached
    unfold takeLists
    split
    · exact lock_bind lock_warnInjection fun _ => ih reached
    · refine lock_reads (fun _ _ _ => rfl) fun r => ?_
      exact lock_bind (lock_addListed hsite _) fun reached => ih reached

theorem lock_addKeyed : ∀ reached, F.Lock T N (addKeyed site d pairs reached) := by
  induction pairs with
  | nil =>
    intro reached
    exact lock_pure
  | cons pair pairs ih =>
    intro reached
    exact lock_bind (lock_addReferenceAt hsite) fun reached => ih reached

end Findings

/-! ## Commands. -/

theorem lock_databaseName [F.Reads] (hsite : site.path ∈ N) : F.Lock T N (databaseName site) := by
  have hunknown : F.Lock T N (do
      site.warn ("ambiguous db name for " ++ receiverText site.node) "ambiguous-db"
      return "unknown" : Audit String) :=
    lock_then (lock_warn (by simp [Warning.at]) rfl)
  unfold databaseName
  split
  · refine lock_bind (lock_databaseOf? N _ _ hsite) fun found => ?_
    dsimp only
    split
    · exact lock_pure
    · exact hunknown
  · refine lock_bind lock_pure fun found => ?_
    dsimp only
    split
    · exact lock_pure
    · exact hunknown

theorem namingCall?_beside {settings : Settings} {directory : Option String} {above : List Cursor} :
    ∀ current, namingCall? { settings with cacheDir := directory } current above
      = namingCall? settings current above := by
  induction above with
  | nil => exact fun current => rfl
  | cons parent above ih =>
    intro current
    unfold namingCall?
    rw [ih parent]
    rfl

section Eager

variable [F.Eager]

theorem lock_listSamples (arg : Cursor) (path : String) : F.Lock T N (listSamples arg path) := by
  unfold listSamples
  refine lock_bind lock_arrayItems fun items => ?_
  split
  · refine lock_bind (lock_mapM fun item _ => lock_samples _ _) fun _ => ?_
    exact lock_pure
  · exact lock_samples _ _

theorem lock_finderParams (more : List Cursor) (path : String) :
    F.Lock T N (finderParams more path) := by
  unfold finderParams
  split
  · exact lock_paramsOf
  · exact lock_pure

theorem lock_finderTexts (arg : Cursor) (path : String) (params : Catalog String)
    (criteria : Option Criteria) (table : String) :
    F.Lock T N (finderTexts arg path params criteria table) := by
  unfold finderTexts
  split
  · exact lock_criteriaTexts
  · exact lock_conditionTexts

end Eager

section Open

variable [F.Open]

theorem lock_checkUnresolved : F.Lock T N (checkUnresolved site) := by
  have hwarn : ∀ kind sample, F.Lock T N (do
      site.warnInjection kind sample
      return .yield ⟨⟩ : Audit (ForInStep PUnit)) := fun kind sample =>
    lock_then lock_warnInjection
  unfold checkUnresolved
  split
  · exact lock_pure
  refine lock_reads (fun _ _ _ => rfl) fun r => ?_
  split
  · exact lock_pure
  refine lock_bind (lock_criteriaOf _ _ _) fun criteria => ?_
  cases criteria with
  | none =>
    refine lock_bind (lock_samples _ _) fun found => ?_
    refine lock_then (lock_forIn fun sample _ _ => ?_)
    split
    · exact hwarn _ _
    · exact lock_pure
  | some criteria =>
    refine lock_bind (lock_columnSamples _) fun columns => ?_
    refine lock_bind (lock_conditionSamples _) fun conditions => lock_bind lock_pure fun found => ?_
    refine lock_then (lock_forIn fun sample _ _ => ?_)
    split
    · exact hwarn _ _
    · exact lock_pure

variable (hsite : site.path ∈ N)

include hsite

theorem lock_checkChain : F.Lock T N (checkChain site db) := by
  refine lock_reads (fun l p _ => ?_) fun r => ?_
  · funext s
    simp only [Run.beside, namingCall?_beside]
  refine lock_bind (Reads.above T N _ _ hsite) fun above => ?_
  split
  · exact lock_siteWarn (by simp)
  split
  · exact lock_siteWarn (by simp)
  · refine lock_bind (lock_listSamples _ _) fun texts => ?_
    exact lock_then (lock_takeLists hsite _)

theorem lock_checkCommand : F.Lock T N (checkCommand site) := by
  unfold checkCommand
  refine lock_bind (lock_databaseName hsite) fun db => ?_
  split
  · exact lock_checkChain hsite
  refine lock_bind (lock_samples _ _) fun found => ?_
  have htake : F.Lock T N (do let _ ← takeAllSql site db found [] : Audit Unit) :=
    lock_then (lock_takeAllSql hsite _)
  split
  · refine lock_reads (fun _ _ _ => rfl) fun r => ?_
    exact lock_bind (lock_siteWarn (by simp)) fun _ => htake
  · exact htake

/-! ## Finders. -/

theorem lock_takeFinder {arg : Cursor} {params : Catalog String} {criteria : Option Criteria} :
    ∀ reached, F.Lock T N (takeFinder site arg params criteria pairs reached) := by
  induction pairs with
  | nil =>
    intro reached
    exact lock_pure
  | cons pair pairs ih =>
    intro reached
    refine lock_bind (lock_finderTexts _ _ _ _ _) fun texts => ?_
    exact lock_bind (lock_takeAllSql hsite _) fun reached => ih reached

theorem lock_checkRecord : F.Lock T N (checkRecord site d) := by
  have hkeyed : ∀ pairs, F.Lock T N (do let _ ← addKeyed site d pairs [] : Audit Unit) :=
    fun pairs => lock_then (lock_addKeyed hsite _)
  unfold checkRecord
  refine lock_reads (fun _ _ _ => rfl) fun r => ?_
  dsimp only
  split
  · exact lock_siteWarn (by simp)
  split
  · exact hkeyed _
  split
  · exact hkeyed _
  · refine lock_bind (lock_finderParams _ _) fun params => ?_
    refine lock_bind (lock_criteriaOf _ _ _) fun criteria => ?_
    exact lock_then (lock_takeFinder hsite _)

theorem lock_checkReceiver (name : Option String) : F.Lock T N (checkReceiver site name) := by
  cases name with
  | none =>
    refine lock_bind (lock_siteWarn (by simp)) fun _ => ?_
    exact lock_checkUnresolved
  | some name =>
    refine lock_bind (lock_knownRecord? name _) fun known => ?_
    split
    · exact lock_bind lock_shown fun view => lock_log
    · exact lock_checkRecord hsite

theorem lock_checkFinder : F.Lock T N (checkFinder site) := by
  unfold checkFinder
  split
  · exact lock_bind (lock_receiverClass? N _ _ hsite) (lock_checkReceiver hsite)
  · exact lock_bind lock_pure (lock_checkReceiver hsite)

/-! ## Calls. -/

theorem lock_checkCall : F.Lock T N (checkCall site) := by
  unfold checkCall
  refine lock_reads (fun _ _ _ => rfl) fun r => ?_
  dsimp only
  split
  · exact lock_checkCommand hsite
  · split
    · exact lock_checkFinder hsite
    · exact lock_pure

end Open

def passOver : Failure → Audit Unit
  | .hard e => do
    modify fun r => { r with active := [] }
    Audit.hardError e
  | other => throw other

section Calls

variable [F.Sound]

theorem lock_passOver (failure : Failure) : F.Lock T N (passOver failure) := by
  cases failure with
  | hard e =>
    refine lock_bind (lock_modify (fun r => ?_) fun _ _ => rfl) fun _ => Basic.hardError T N e
    exact .of_rest r.searched r.hierarchy _
  | _ => exact lockTo_throw (Basic.plain fun _ => nofun)

/-- **Checking a call keeps two runs in lockstep.** -/
theorem lock_checkSite (hsite : site.path ∈ N) : F.Lock T N (checkSite site) :=
  lock_tryCatch (f := passOver) (fun _ => True) (lock_checkCall (F := F.opened) hsite)
    (fun failure _ => lock_passOver failure) fun e _ hl => ⟨_, hardError_strict e hl, hl⟩

theorem lock_checkSites {sites : List (Cursor × Closure)} (hpath : path ∈ N) :
    F.Lock T N (do
      for (node, _) in sites do checkSite ⟨node, path⟩ : Audit Unit) := by
  refine lock_then (lock_forIn fun entry _ _ => ?_)
  exact lock_then (lock_checkSite hpath)

end Calls

end Query

/-! ## Files. -/

def Run.targets (r : Run) (target : String) : List String :=
  (r.disk.scripts target).filter fun path => !r.settings.excludes (Path.shownFrom r.root path)

/-- What a frame has to provide for whole analyses. -/
class Frame.Analyses (F : Frame) : Prop extends F.Sound where
  /-- What is known about a file that is still to come may be forgotten. -/
  done : ∀ {path T N l p}, F.At (path :: T) N l p → F.At T N l p
  /-- The definitions of a file that is still to come are the same, with the calls in it. -/
  opens : ∀ {path T l p}, F.Target path → (∀ other ∈ T, F.Apart path other) → F.At (path :: T) [] l p →
    F.Agree (fun s l p => (∀ other ∈ T, F.Apart s.path other) ∧ F.At (path :: T) [s.path] l p)
      (F.At (path :: T) []) (Audit.scopesOf path l) (Audit.scopesOf path (l.beside p))
  clears : ∀ {path T} N, (∀ other ∈ T, F.Apart path other) → F.Lock T N (modify fun r =>
    { r with scopes := r.scopes.modify path fun s => { s with callSites := [] } } : Audit Unit)
  evict : ∀ {path T l p}, F.Target path → (∀ other ∈ T, F.Apart path other) → F.At T [] l p →
    F.Agree (fun _ => F.At T []) (F.At T []) (Audit.evict path l) (Audit.evict path (l.beside p))
  aloneEvict : ∀ {e c} path, F.Gone e c → F.Alone e (Audit.evict path c)
  aloneScopesOf : ∀ {e c} path, F.Gone e c → F.Alone e (Audit.scopesOf path c)

theorem Frame.Analyses.forget [F.Analyses] (files : List String) : F.At files [] l p → F.At [] [] l p := by
  induction files with
  | nil => exact fun h => h
  | cons path files ih => exact fun h => ih (Analyses.done h)

namespace Audit

variable {files : List String} {target : String}

def passMissing (path : String) (failure : Failure) : Audit (Option FileScopes) :=
  if failure.isMissingFile then do
    skipFile path failure
    pure none
  else throw failure

theorem agree_passMissing [F.Basic] (hf : F.fine failure) (h : F.At T N l p) :
    F.Agree (fun found l p => found = none ∧ F.At T N l p) (F.At T N) (passMissing path failure l)
      (passMissing path failure (l.beside p)) := by
  unfold passMissing
  by_cases hmissing : failure.isMissingFile = true
  · rw [if_pos hmissing]
    exact agree_bind (lock_skipFile.agree l p h) (fun _ _ h => h)
      (fun _ _ _ h => .ok ⟨rfl, h⟩) fun _ _ _ h => h
  · rw [if_neg hmissing]
    exact .error h hf

theorem alone_passMissing [F.Basic] (hf : F.fine failure) (h : F.Gone e c) :
    F.Alone e (passMissing path failure c) := by
  unfold passMissing
  by_cases hmissing : failure.isMissingFile = true
  · rw [if_pos hmissing]
    exact alone_bind ((lock_skipFile (T := []) (N := [])).alone e c h) fun _ _ h => h
  · rw [if_neg hmissing]
    exact ⟨h, hf⟩

/-- Check the calls of a file whose definitions were found, and put it aside. -/
def checkFound (path : String) : Option FileScopes → Audit Unit
  | none => return
  | some scopes => do
    Query.checkFile scopes
    evict path

theorem analyzeFile_eq : analyzeFile path
    = tryCatch (some <$> scopesOf path) (passMissing path) >>= checkFound path := rfl

section Analyses

variable [F.Analyses]

theorem lock_checkFile {scopes : FileScopes} (h : ∀ other ∈ T, F.Apart scopes.path other) :
    F.Lock T [scopes.path] (Query.checkFile scopes) :=
  lock_bind (Analyses.clears _ h) fun _ => Query.lock_checkSites mem_cons_self

/-- Once its definitions were found a file is not one that is still to come. -/
theorem agree_checkFound (htarget : F.Target path)
    (hpath : ∀ other ∈ T, F.Apart path other) {scopes : FileScopes} (hscopes : ∀ other ∈ T, F.Apart scopes.path other)
    (h : F.At T [scopes.path] l p) :
    F.Agree (fun _ => F.At T []) (F.At T []) (checkFound path (some scopes) l)
      (checkFound path (some scopes) (l.beside p)) := by
  have hforget : ∀ l p, F.At T [scopes.path] l p → F.At T [] l p := fun l p h =>
    Basic.fewer (nil_subset _) h
  exact agree_bind ((lock_checkFile hscopes).agree l p h) hforget
    (fun _ l p h => Analyses.evict htarget hpath (hforget l p h)) fun _ _ _ => Analyses.aloneEvict path

theorem alone_checkFound {found : Option FileScopes} (h : F.Gone e c) :
    F.Alone e (checkFound path found c) := by
  cases found with
  | none => exact h
  | some scopes =>
    exact alone_bind ((lock_checkFile (T := []) nofun).alone e c h) fun _ _ => Analyses.aloneEvict path

theorem alone_analyzeFile (h : F.Alone e (scopesOf path c)) : F.Alone e (analyzeFile path c) := by
  refine alone_bind ?_ fun found c h => alone_checkFound h
  generalize hscopes : scopesOf path c = found at h
  cases found with
  | ok scopes c =>
    rw [tryCatch_of_ok (map_of_ok hscopes)]
    exact h
  | error failure c =>
    rw [tryCatch_of_error (map_of_error hscopes)]
    exact alone_passMissing h.2 h.1

/-- **Analysing a file keeps two runs in lockstep**, and uses up what is known about it. -/
theorem agree_analyzeFile (htarget : F.Target path)
    (hpath : ∀ other ∈ T, F.Apart path other) (h : F.At (path :: T) [] l p) :
    F.Agree (fun _ => F.At T []) (F.At T []) (analyzeFile path l) (analyzeFile path (l.beside p)) := by
  have hopens := Analyses.opens htarget hpath h
  generalize hleft : scopesOf path l = left at hopens
  generalize hright : scopesOf path (l.beside p) = right at hopens
  cases hopens with
  | ok hafter =>
    rw [analyzeFile_eq, bind_of_ok (tryCatch_of_ok (map_of_ok hleft)),
      bind_of_ok (tryCatch_of_ok (map_of_ok hright))]
    exact agree_checkFound htarget hpath hafter.1 (Analyses.done hafter.2)
  | error hafter hf =>
    refine agree_bind (Q := fun found l p => found = none ∧ F.At (path :: T) [] l p)
      (R := F.At (path :: T) []) ?_ (fun _ _ h => Analyses.done h) ?_ fun found e c h =>
        alone_checkFound h
    · rw [tryCatch_of_error (map_of_error hleft), tryCatch_of_error (map_of_error hright)]
      exact agree_passMissing hf hafter
    · rintro _ l p ⟨rfl, h⟩
      exact .ok (Analyses.done h)
  | gone hl hother =>
    rw [← hright] at hother
    rename_i e t
    have hend : analyzeFile path l = .error (.hard e) t := by
      exact bind_of_error (tryCatch_of_error (map_of_error hleft))
    rw [hend]
    exact .gone hl (alone_analyzeFile hother)

def analyzeAll : List String → Audit Unit
  | [] => return
  | path :: rest => do
    analyzeFile path
    analyzeAll rest

theorem analyzeAll_eq :
    (forIn files PUnit.unit fun path _ => do analyzeFile path; pure (ForInStep.yield PUnit.unit))
      = analyzeAll files := by
  induction files with
  | nil => rfl
  | cons path files ih =>
    rw [forIn_cons, analyzeAll, ← ih]
    simp only [bind_assoc, pure_bind]

theorem alone_analyzeAll : ∀ c, F.Gone e c → F.Alone e (analyzeAll files c) := by
  induction files with
  | nil => exact fun c h => h
  | cons path files ih =>
    intro c h
    refine alone_bind ?_ fun _ => ih
    exact alone_analyzeFile (Analyses.aloneScopesOf path h)

theorem agree_analyzeAll (htargets : ∀ path ∈ files, F.Target path)
    (hfiles : files.Pairwise F.Apart) :
    ∀ {l p}, F.At files [] l p →
      F.Agree (fun _ => F.At [] []) (F.At [] []) (analyzeAll files l) (analyzeAll files (l.beside p)) := by
  induction files with
  | nil =>
    intro l p h
    exact .ok h
  | cons path files ih =>
    intro l p h
    rw [pairwise_cons] at hfiles
    rw [forall_mem_cons] at htargets
    exact agree_bind (agree_analyzeFile htargets.1 hfiles.1 h) (fun _ _ => Analyses.forget files)
      (fun _ _ _ h => ih htargets.2 hfiles.2 h) fun _ _ => alone_analyzeAll

end Analyses

/-! ## Analyses. -/

/-- The start of an analysis: the record classes around a target. -/
def prepareTarget (target : String) : Audit Unit := do
  checkTarget target
  resolveHierarchy (← get).root

/-- Check the calls in the files of a target; the files that were looked at. -/
def checkTargetFiles (target : String) : Audit (List String) := do
  let files ← targetFiles target
  analyzeAll files
  return files

def checkAll (target : String) : Audit (List String) := do
  prepareTarget target
  checkTargetFiles target

def report (target : String) (files : List String) : Audit Findings := do
  let (references, warnings) ← collecting Diagnostics.drain
  log (toString references.length ++ " references, " ++ toString warnings.length ++
    " warnings in " ++ toString files.length ++ " files")
  handOver target files.length references warnings

theorem analyze_eq : analyze target = checkAll target >>= report target := by
  unfold analyze checkAll prepareTarget checkTargetFiles
  simp only [bind_assoc, ← analyzeAll_eq]
  rfl

def foundIn (r : Run) (target : String) (files : List String) : Findings where
  target := target
  root := r.root
  records := ((r.hierarchy.map Hierarchy.records).getD []).filterMap r.classes.get?
  references := r.diagnostics.references
  warnings := r.diagnostics.warnings
  fileCount := files.length
  defaultDb := r.settings.defaultDbName

/-- Findings that were not handed over yet are handed over. -/
theorem report_open (target : String) (files : List String) (h : r.diagnostics.drained = false) :
    ∃ t, report target files r = .ok (foundIn r target files) t ∧ t.hardErrors = r.hardErrors := by
  have hdrain : collecting Diagnostics.drain r
      = .ok (r.diagnostics.references, r.diagnostics.warnings) { r with diagnostics :=
          { r.diagnostics with references := [], warnings := [], drained := true } } := by
    simp only [collecting, Diagnostics.drain, run_bind, run_get, checkOpen_eq, h]
    rfl
  unfold report
  rw [bind_of_ok hdrain]
  dsimp only
  rw [bind_of_ok (log_eq _ _)]
  exact ⟨_, rfl, rfl⟩

theorem lock_prepareTarget [F.Reads] (target : String) : F.Lock T N (prepareTarget target) := by
  unfold prepareTarget checkTarget
  refine lock_bind (lock_reads (fun _ _ _ => rfl) fun r => ?_) fun _ => ?_
  · split
    · exact lockTo_throw (Basic.plain fun _ => nofun)
    · exact lock_pure
  · exact lock_reads (fun _ _ _ => rfl) fun r => lock_resolveHierarchy

theorem keeps_prepareTarget (target : String) : Keeps (prepareTarget target) :=
  keeps_of_lock (T := []) (N := []) fun _ => lock_prepareTarget target

theorem checkTargetFiles_eq :
    checkTargetFiles target r
      = (analyzeAll (r.targets target) >>= fun _ => pure (r.targets target)) r := rfl

theorem targets_of_steps {t : Run} (h : SameFindings r t) (target : String) :
    t.targets target = r.targets target := by
  unfold Run.targets
  rw [h.root, h.disk, h.settings]

/-- **Two runs in lockstep at the start of an analysis are in lockstep at its end.** -/
theorem agree_checkAll [F.Analyses] (target : String)
    (htargets : ∀ path ∈ l.targets target, F.Target path)
    (hfiles : (l.targets target).Pairwise F.Apart) (h : F.At (l.targets target) [] l p) :
    F.Agree (fun files t q => files = l.targets target ∧ F.At [] [] t q) (F.At [] [])
      (checkAll target l) (checkAll target (l.beside p)) := by
  have hprepare := ((lock_prepareTarget (T := l.targets target) target).agree l p h).and_left
    (P := fun t => t.targets target = l.targets target) fun _ t ht =>
      targets_of_steps ((keeps_prepareTarget target).of_ok ht) target
  refine agree_bind hprepare (fun _ _ => Analyses.forget _) (fun _ t q hat => ?_) fun _ e c hgone => ?_
  · obtain ⟨hsame, hat⟩ := hat
    have hbeside : (t.beside q).targets target = t.targets target := rfl
    rw [checkTargetFiles_eq, checkTargetFiles_eq, hbeside, hsame]
    exact agree_bind (agree_analyzeAll htargets hfiles hat) (fun _ _ h => h)
      (fun _ _ _ hafter => .ok ⟨rfl, hafter⟩) fun _ _ _ hgone => hgone
  · rw [checkTargetFiles_eq]
    exact alone_bind (alone_analyzeAll c hgone) fun _ _ hgone => hgone

end Audit

end QueryAudit
