/-
  QueryAudit.Proofs.Query.TaintGate — tainted samples go no further

  On every way that samples reach the findings, a tainted one gives one warning and nothing else,
  and everything else that is found stems from samples without taint.

  Main results: `recorded_analyzeFiles`, `analysis_taint_gate`.
-/

import QueryAudit.Cli.Execute
import QueryAudit.Proofs.Query.Accounting

namespace QueryAudit.Query

open Audit Php Record Sample Scope List
open Text

variable {acts : List Act} {dialect : Sql.Dialect} {findings : Findings} {r r' : Run}
  {references : List Reference} {sample target : String} {settings : Settings} {site : Site}
  {tables : List Sql.TableName} {warnings : List Warning}

variable {db path : String} {reached : Reached} {d : ClassDecl} {pairs : List (String × String)}

/-! ## Samples. -/

variable {modes : Bool → Prop}

theorem account_injection {kind : Taint} {u : Unit}
    (htaint : taintOf sample = some kind) (h : site.warnInjection kind sample r = .ok u r') :
    Account r [.sample site sample none [] [injectionWarning site kind sample]] r' where
  adds := warn_adds rfl h
  sound := by
    intro act hmem
    obtain rfl := mem_singleton.mp hmem
    simp only [Act.Sound, htaint, and_self]

theorem account_clean {read : Option String}
    (htaint : taintOf sample = none) (hadds : Adds r references warnings r')
    (hread : ∀ sql ∈ read, sql = expandTablePrefix sample r.settings.tablePrefix)
    (hreferences : ∀ reference ∈ references,
      reference.file = site.path ∧ Stems r.settings sample reference)
    (hwarnings : ∀ w ∈ warnings, w.code = "sql-parse") :
    Account r [.sample site sample read references warnings] r' where
  adds := by
    rw [flatMap_singleton, flatMap_singleton]
    exact hadds
  sound := by
    intro act hmem
    obtain rfl := mem_singleton.mp hmem
    simp only [Act.Sound, htaint]
    exact ⟨hread, hreferences, hwarnings⟩

theorem tablesOf_ok {sql : String} {found : Except Sql.Issue (List Sql.TableName)}
    (h : tablesOf sql r = .ok found r') :
    r' = r ∧ ∃ dialect, Sql.Dialect.named? r.settings.sqlDialect = some dialect
      ∧ Sql.tables dialect sql = found := by
  unfold tablesOf at h
  obtain ⟨s, t, hget, h⟩ := bind_ok_iff.mp h
  obtain ⟨rfl, rfl⟩ := get_ok_iff.mp hget
  cases hdialect : Sql.Dialect.named? r.settings.sqlDialect with
  | none =>
    rw [hdialect] at h
    exact absurd h throw_ne_ok
  | some dialect =>
    rw [hdialect] at h
    obtain ⟨rfl, rfl⟩ := pure_ok_iff.mp h
    exact ⟨rfl, dialect, rfl, rfl⟩

/-- The references that an SQL text gives stem from the sample it was made from. -/
theorem refers_sql (hdialect : Sql.Dialect.named? settings.sqlDialect = some dialect)
    (htables : Sql.tables dialect (expandTablePrefix sample settings.tablePrefix) = .ok tables) :
    Refers (fun reference => reference.file = site.path ∧ Stems settings sample reference)
      (addReferences site db (expandTablePrefix sample settings.tablePrefix) tables reached) := by
  refine refers_addReferences ?_ reached
  intro t ht reference hdb htable hsql hfile
  exact ⟨hfile, .inl ⟨dialect, tables, db, hdialect, htables, hsql, t, ht, hdb, htable⟩⟩

/-- A sample that was read for tables accounts for the references that were added. -/
theorem account_read {reached' : Reached} {s : Run} (htaint : taintOf sample = none)
    (hdialect : Sql.Dialect.named? r.settings.sqlDialect = some dialect)
    (htables : Sql.tables dialect (expandTablePrefix sample r.settings.tablePrefix) = .ok tables)
    (hadds : Adds r [] warnings s) (hwarnings : ∀ w ∈ warnings, w.code = "sql-parse")
    (h : Traced.collect (addReferences site db (expandTablePrefix sample r.settings.tablePrefix)
      tables reached) s = .ok (reached', references) r') :
    Account r [.sample site sample (some (expandTablePrefix sample r.settings.tablePrefix))
      references warnings] r' := by
  obtain ⟨hmore, hstems⟩ := collect_ok (refers_sql hdialect htables) h
  have hall := hadds.trans hmore
  rw [append_nil] at hall
  exact account_clean htaint hall (fun sql hsql => (Option.mem_some.mp hsql).symm) hstems hwarnings

theorem accounted_takeSql :
    Accounted modes [] Prod.snd (Traced.takeSql site db sample reached) := by
  unfold Traced.takeSql
  cases htaint : taintOf sample with
  | some kind =>
    exact accounted_act (fun r _ s h => account_injection htaint h) fun _ => accounted_pure rfl
  | none =>
    intro r b r' _ h
    obtain ⟨r, _, hget, h⟩ := bind_ok_iff.mp h
    obtain ⟨rfl, rfl⟩ := get_ok_iff.mp hget
    obtain ⟨found, s, hfound, h⟩ := bind_ok_iff.mp h
    obtain ⟨rfl, dialect, hdialect, htables⟩ := tablesOf_ok hfound
    have hsingle : ∀ {w w' : Warning}, w'.code = "sql-parse" → w ∈ [w'] → w.code = "sql-parse" := by
      intro w w' hcode hw
      rw [mem_singleton.mp hw]
      exact hcode
    cases found with
    | error issue =>
      obtain ⟨_, hwarn, rfl⟩ := bind_pure_ok_iff.mp h
      refine ⟨_, rfl, account_clean htaint (warn_adds rfl hwarn) ?_ ?_ fun w => hsingle rfl⟩
      · exact fun sql hsql => (Option.mem_some.mp hsql).symm
      · exact fun _ hmem => nomatch hmem
    | ok found =>
      dsimp only at h
      split at h
      · obtain ⟨_, t, hwarn, h⟩ := bind_ok_iff.mp h
        obtain ⟨⟨reached', references⟩, u, hcollect, h⟩ := bind_ok_iff.mp h
        obtain ⟨rfl, rfl⟩ := pure_ok_iff.mp h
        exact ⟨_, rfl, account_read htaint hdialect htables (warn_adds rfl hwarn)
          (fun w => hsingle rfl) hcollect⟩
      · obtain ⟨⟨reached', references⟩, u, hcollect, h⟩ := bind_ok_iff.mp h
        obtain ⟨rfl, rfl⟩ := pure_ok_iff.mp h
        exact ⟨_, rfl, account_read htaint hdialect htables (.of_steps {})
          (fun _ hmem => nomatch hmem) hcollect⟩

theorem recorded_takeSql :
    Recorded modes [] Prod.fst Prod.snd (Traced.takeSql site db sample reached)
      (takeSql site db sample reached) :=
  ⟨Traced.erases_takeSql, accounted_takeSql⟩

theorem recorded_takeAllSql (site : Site) (db : String) (texts : List String) :
    ∀ reached, Recorded modes [] Prod.fst Prod.snd (Traced.takeAllSql site db texts reached)
      (takeAllSql site db texts reached) := by
  induction texts with
  | nil => exact fun reached => recorded_pure rfl
  | cons sample texts ih =>
    intro reached
    refine recorded_bind recorded_takeSql fun first => ?_
    exact recorded_tail (ih first.1) fun more => recorded_pure (nil_append _).symm

theorem recorded_takeLists (site naming : Site) (db : String) (hpath : site.path = naming.path)
    (texts : List String) :
    ∀ reached, Recorded modes [] Prod.fst Prod.snd (Traced.takeLists site naming db texts reached)
      (takeLists site naming db texts reached) := by
  induction texts with
  | nil => exact fun reached => recorded_pure rfl
  | cons sample texts ih =>
    intro reached
    unfold Traced.takeLists takeLists
    cases htaint : taintOf sample with
    | some kind =>
      have hrest := (ih reached).accounted
      refine ⟨Traced.erases_both fun _ => Traced.erases_tail (ih reached).erases fun _ =>
        Traced.erases_pure, accounted_act (fun r _ s h => account_injection htaint h) fun _ => ?_⟩
      exact accounted_bind hrest fun more => accounted_pure rfl
    | none =>
      refine ⟨Traced.erases_both fun r => Traced.erases_bind (Traced.erases_collect) fun added =>
        Traced.erases_tail (ih added.1).erases fun _ => Traced.erases_pure, ?_⟩
      intro r b r' hdebug h
      obtain ⟨r, _, hget, h⟩ := bind_ok_iff.mp h
      obtain ⟨rfl, rfl⟩ := get_ok_iff.mp hget
      obtain ⟨⟨reached', references⟩, s, hcollect, h⟩ := bind_ok_iff.mp h
      have hlisted : Refers
          (fun reference => reference.file = naming.path ∧ Stems r.settings sample reference)
          (addListed site sample (listedTables db sample r.settings.tablePrefix) reached) := by
        refine refers_addListed ?_ reached
        intro pair hpair reference hdb htable hsql hfile
        refine ⟨hfile.trans hpath, .inr ⟨db, hsql, ?_⟩⟩
        rw [hdb, htable]
        exact hpair
      obtain ⟨hadds, hstems⟩ := collect_ok hlisted hcollect
      have hfirst : Account r [.sample naming sample none references []] s :=
        account_clean htaint hadds (fun _ hread => by cases hread) hstems
          (fun _ hmem => by cases hmem)
      obtain ⟨⟨reached'', more⟩, t, hmore, h⟩ := bind_ok_iff.mp h
      obtain ⟨rfl, rfl⟩ := pure_ok_iff.mp h
      obtain ⟨more', heq, hrest⟩ := (ih reached').accounted s _ t
        (by rw [hadds.setup.debug]; exact hdebug) hmore
      obtain rfl : more = more' := heq
      exact ⟨_, rfl, hfirst.trans hrest⟩

/-! ## Calls. -/

theorem recorded_checkChain :
    Recorded modes [] Traced.forget id (Traced.checkChain site db) (checkChain site db) := by
  unfold Traced.checkChain checkChain
  refine recorded_keeps keeps_get fun r => ?_
  refine recorded_keeps keeps_above fun above => ?_
  cases namingCall? r.settings site.node above with
  | none => exact recorded_silent (keeps_siteWarn _ _ _ _ (by decide)) rfl
  | some call =>
    dsimp only
    cases firstArgument? call with
    | none => exact recorded_silent (keeps_siteWarn _ _ _ _ (by decide)) rfl
    | some arg =>
      refine recorded_keeps keeps_listSamples fun texts => ?_
      exact recorded_bind (recorded_takeLists site ⟨call, site.path⟩ db rfl texts [])
        fun _ => recorded_pure rfl

theorem recorded_checkCommand :
    Recorded modes [] Traced.forget id (Traced.checkCommand site) (checkCommand site) := by
  unfold Traced.checkCommand checkCommand
  refine recorded_keeps keeps_databaseName fun db => ?_
  cases firstArgument? site.node with
  | none => exact recorded_checkChain
  | some arg =>
    refine recorded_keeps keeps_samples fun found => ?_
    have htake : Recorded modes [] Traced.forget id (do
        let taken ← Traced.takeAllSql site db found []
        return taken.2) (do let _ ← takeAllSql site db found []) :=
      recorded_bind (recorded_takeAllSql _ _ _ _) fun _ => recorded_pure rfl
    split
    · refine recorded_keeps keeps_get fun r => ?_
      exact recorded_keeps (keeps_siteWarn _ _ _ _ (by decide)) fun _ => htake
    · exact htake

theorem recorded_warnTainted {texts : List String} :
    Recorded modes [] Traced.forget id (Traced.warnTainted site texts) (do
      for sample in texts do
        match taintOf sample with
        | some kind => site.warnInjection kind sample
        | none => pure ()) := by
  induction texts with
  | nil => exact recorded_pure rfl
  | cons sample texts ih =>
    unfold Traced.warnTainted
    rw [forIn_cons]
    cases htaint : taintOf sample with
    | some kind =>
      simp only [bind_assoc]
      refine ⟨Traced.erases_both fun _ => Traced.erases_tail ih.erases fun _ => Traced.erases_pure,
        accounted_act (fun r _ s h => account_injection htaint h) fun _ => ?_⟩
      exact accounted_bind ih.accounted fun more => accounted_pure rfl
    | none =>
      refine ⟨Traced.erases_tail ih.erases fun _ => Traced.erases_pure, accounted_note (fun r => ?_)
        (accounted_bind ih.accounted fun more => accounted_pure rfl)⟩
      exact account_clean htaint (.of_steps {}) (fun _ hread => by cases hread)
        (fun _ hmem => by cases hmem) (fun _ hmem => by cases hmem)

theorem recorded_checkUnresolved :
    Recorded modes [] Traced.forget id (Traced.checkUnresolved site) (checkUnresolved site) := by
  unfold Traced.checkUnresolved checkUnresolved
  cases callArguments site.node with
  | nil => exact recorded_pure rfl
  | cons arg rest =>
    refine recorded_keeps keeps_get fun r => ?_
    split
    · exact recorded_pure rfl
    refine recorded_keeps keeps_criteriaOf fun criteria => ?_
    cases criteria with
    | none =>
      exact recorded_keeps keeps_samples fun found => recorded_warnTainted
    | some criteria =>
      refine recorded_keeps keeps_columnSamples fun columns => ?_
      refine recorded_keeps keeps_conditionSamples fun conditions => ?_
      exact recorded_warnTainted

theorem account_addKeyed (h : Traced.addKeyed site d pairs r = .ok acts r')
    (hkeyed : callArguments site.node = [] ∨ r.settings.isPkFinder site.node.nameText = true) :
    Account r acts r' := by
  obtain ⟨⟨reached, references⟩, s, hcollect, h⟩ := bind_ok_iff.mp h
  obtain ⟨rfl, rfl⟩ := pure_ok_iff.mp h
  obtain ⟨hadds, _⟩ := collect_ok (refers_addKeyed []) hcollect
  constructor
  · rw [flatMap_singleton]
    exact hadds
  · intro act hmem
    obtain rfl := mem_singleton.mp hmem
    exact hkeyed

theorem recorded_takeFinder {arg : Cursor} {params : Catalog String} {criteria : Option Criteria} :
    ∀ reached, Recorded modes [] Prod.fst Prod.snd
      (Traced.takeFinder site arg params criteria pairs reached)
      (takeFinder site arg params criteria pairs reached) := by
  induction pairs with
  | nil => exact fun reached => recorded_pure rfl
  | cons pair pairs ih =>
    intro reached
    refine recorded_keeps keeps_finderTexts fun texts => ?_
    refine recorded_bind (recorded_takeAllSql _ _ _ _) fun first => ?_
    exact recorded_tail (ih first.1) fun more => recorded_pure (nil_append _).symm

theorem recorded_checkRecord :
    Recorded modes [] Traced.forget id (Traced.checkRecord site d) (checkRecord site d) := by
  have hfinder : ∀ r : Run, ∀ arg more, Recorded modes [] Traced.forget id (do
      let params ← finderParams more site.path
      let criteria ← criteriaOf arg site.path site.node
      let found ← Traced.takeFinder site arg params criteria (recordPairs d r.settings.defaultDbName) []
      return found.2) (do
      let params ← finderParams more site.path
      let criteria ← criteriaOf arg site.path site.node
      let _ ← takeFinder site arg params criteria (recordPairs d r.settings.defaultDbName) []) := by
    intro r arg more
    refine recorded_keeps keeps_finderParams fun params => ?_
    refine recorded_keeps keeps_criteriaOf fun criteria => ?_
    exact recorded_bind (recorded_takeFinder _) fun _ => recorded_pure rfl
  have hkeyed : ∀ pairs, Traced.Erases Traced.forget (Traced.addKeyed site d pairs)
      (do let _ ← addKeyed site d pairs []) := fun pairs =>
    Traced.erases_bind (Traced.erases_collect) fun _ => Traced.erases_pure
  have hsilent : Recorded modes [] Traced.forget id _ _ := recorded_silent (keeps_siteWarn site
    ("record class " ++ d.name ++ " has no table for " ++ site.node.nameText ++ "()")
    "missing-accessor" d.name (by decide)) rfl
  unfold Traced.checkRecord checkRecord
  constructor
  · refine Traced.erases_both fun r => ?_
    dsimp only
    split
    · exact hsilent.erases
    cases callArguments site.node with
    | nil => exact hkeyed _
    | cons arg more =>
      dsimp only
      split
      · exact hkeyed _
      · exact (hfinder r arg more).erases
  · intro r acts r' hdebug h
    obtain ⟨_, _, hget, h⟩ := bind_ok_iff.mp h
    obtain ⟨rfl, rfl⟩ := get_ok_iff.mp hget
    split at h
    · exact hsilent.accounted r acts r' hdebug h
    cases harguments : callArguments site.node with
    | nil =>
      rw [harguments] at h
      exact ⟨acts, rfl, account_addKeyed h (.inl harguments)⟩
    | cons arg more =>
      rw [harguments] at h
      dsimp only at h
      split at h
      · next hkey => exact ⟨acts, rfl, account_addKeyed h (.inr hkey)⟩
      · exact (hfinder r arg more).accounted r acts r' hdebug h

theorem recorded_checkReceiver {name : Option String} :
    Recorded modes [] Traced.forget id (Traced.checkReceiver site name) (checkReceiver site name) := by
  cases name with
  | none =>
    exact recorded_keeps (keeps_siteWarn _ _ _ _ (by decide)) fun _ =>
      recorded_checkUnresolved
  | some name =>
    refine recorded_keeps keeps_knownRecord? fun known => ?_
    cases known with
    | none => exact recorded_keeps keeps_shown fun view => recorded_silent keeps_log rfl
    | some d => exact recorded_checkRecord

theorem recorded_checkFinder :
    Recorded modes [] Traced.forget id (Traced.checkFinder site) (checkFinder site) := by
  unfold Traced.checkFinder checkFinder
  cases site.node.inRole? "object" with
  | none => exact recorded_keeps (keeps_pure) fun name => recorded_checkReceiver
  | some receiver =>
    exact recorded_keeps keeps_receiverClass? fun name =>
      recorded_checkReceiver

theorem recorded_checkCall :
    Recorded modes [] Traced.forget id (Traced.checkCall site) (checkCall site) := by
  unfold Traced.checkCall checkCall
  refine recorded_keeps keeps_get fun r => ?_
  dsimp only
  split
  · exact recorded_checkCommand
  · split
    · exact recorded_checkFinder
    · exact recorded_pure rfl

/-! ## Whole analyses. -/

theorem hardError_of_not_debug {e : HardError} (hdebug : r.debug = false) :
    ∃ s, Audit.hardError e r = .error (.hard e) s := by
  refine ⟨{ r with hardErrors := r.hardErrors + 1 }, ?_⟩
  simp only [Audit.hardError, run_bind, run_modify, run_get, hdebug, Bool.not_false, if_true,
    run_throw]

theorem recorded_checkSite :
    Recorded (· = false) [] Traced.forget id (Traced.checkSite site) (checkSite site) := by
  have hchecked : Recorded (· = false) [] Traced.forget id (Traced.checkCall site) (checkCall site) :=
    recorded_checkCall
  unfold Traced.checkSite checkSite
  constructor
  · refine Traced.erases_tryCatch hchecked.erases fun failure => ?_
    cases failure with
    | hard e =>
      refine Traced.erases_both fun _ => ?_
      exact Traced.erases_tail (id_map (hardError e)) fun _ => Traced.erases_pure
    | _ => exact Traced.erases_throw
  intro r acts r' hdebug h
  cases hcall : Traced.checkCall site r with
  | ok found s =>
    rw [tryCatch_of_ok hcall] at h
    cases h
    exact hchecked.accounted r acts r' hdebug hcall
  | error failure s =>
    rw [tryCatch_of_error hcall] at h
    -- the failed call left the run outside of debugging, so nothing is passed over
    have hdebug' : s.debug = false := by
      rw [(setup_checkCall.of_error (hchecked.erases.of_error hcall)).debug]
      exact hdebug
    cases failure with
    | hard e =>
      obtain ⟨_, t, hmodify, h⟩ := bind_ok_iff.mp h
      obtain rfl := modify_ok_iff.mp hmodify
      obtain ⟨_, u, herror, _⟩ := bind_ok_iff.mp h
      obtain ⟨v, hthrow⟩ := hardError_of_not_debug (e := e) (r := { s with active := [] }) hdebug'
      rw [hthrow] at herror
      cases herror
    | _ => exact absurd h throw_ne_ok

theorem recorded_checkSites {sites : List (Cursor × Closure)} :
    Recorded (· = false) [] Traced.forget id (Traced.checkSites path sites) (do
      for (node, _) in sites do checkSite ⟨node, path⟩) := by
  induction sites with
  | nil => exact recorded_pure rfl
  | cons entry sites ih =>
    unfold Traced.checkSites
    rw [forIn_cons]
    simp only [bind_assoc]
    refine recorded_bind recorded_checkSite fun first => ?_
    exact recorded_tail ih fun more => recorded_pure (nil_append _).symm

theorem recorded_analyzeFile :
    Recorded (· = false) [] Traced.forget id (Traced.analyzeFile path) (analyzeFile path) := by
  have hskip : ∀ failure, Keeps (Audit.skipFile path failure) := fun failure =>
    keeps_of_eager path fun _ => lock_skipFile
  unfold Traced.analyzeFile
  refine recorded_keeps (keeps_tryCatch (keeps_map keeps_scopesOf) fun failure => ?_)
    fun found => ?_
  · grind
  cases found with
  | none => exact recorded_pure rfl
  | some scopes =>
    refine recorded_bind (recorded_keeps (keeps_modify fun _ => {}) fun _ =>
      recorded_checkSites) fun acts => ?_
    exact recorded_silent keeps_evict (nil_append _).symm

/-- **Checking the calls of files accounts for all findings about SQL texts.** -/
theorem recorded_analyzeFiles (files : List String) :
    Recorded (· = false) [] Traced.forget id (Traced.analyzeFiles files) (do
      for path in files do analyzeFile path) := by
  induction files with
  | nil => exact recorded_pure rfl
  | cons path files ih =>
    unfold Traced.analyzeFiles
    rw [forIn_cons]
    simp only [bind_assoc]
    refine recorded_bind recorded_analyzeFile fun first => ?_
    exact recorded_tail ih fun more => recorded_pure (nil_append _).symm

/-- **The traced analysis is the analysis, with a record.** -/
theorem Traced.analyze_erases (target : String) :
    Erases Prod.fst (analyze target) (Audit.analyze target) := by
  unfold analyze Audit.analyze
  refine erases_both fun _ => erases_both fun r => erases_both fun _ => erases_both fun files => ?_
  have hfiles := (recorded_analyzeFiles files).erases
  rw [bind_pure_unit] at hfiles
  refine erases_bind hfiles fun acts => ?_
  refine erases_both fun found => erases_both fun _ => ?_
  have hfindings : ∀ x : Audit Findings, Erases id x x := fun x => id_map x
  exact erases_tail (hfindings _) fun _ => erases_pure

theorem keeps_targetFiles : Keeps (Audit.targetFiles target) := by
  unfold Audit.targetFiles
  grind

theorem handOver_ok {count : Nat}
    (h : Audit.handOver target count references warnings r = .ok findings r') :
    findings.references = references ∧ findings.warnings = warnings := by
  obtain ⟨s, t, _, h⟩ := bind_ok_iff.mp h
  obtain ⟨records, _, rfl⟩ := bind_pure_ok_iff.mp h
  exact ⟨rfl, rfl⟩

/-- What is on the record of an analysis that succeeds is what it found about SQL texts. -/
theorem analyze_account (hdebug : r.debug = false) (hempty : r.diagnostics = {})
    (h : Traced.analyze target r = .ok (findings, acts) r') :
    findings.references = acts.flatMap Act.references
      ∧ findings.warnings.filter Warning.aboutSql = acts.flatMap Act.warnings
      ∧ ∀ act ∈ acts, act.Sound r.settings := by
  unfold Traced.analyze at h
  obtain ⟨_, r₁, htarget, h⟩ := bind_ok_iff.mp h
  obtain ⟨r₂, _, hget, h⟩ := bind_ok_iff.mp h
  obtain ⟨rfl, rfl⟩ := get_ok_iff.mp hget
  obtain ⟨_, r₃, hhierarchy, h⟩ := bind_ok_iff.mp h
  obtain ⟨files, r₄, hfiles, h⟩ := bind_ok_iff.mp h
  obtain ⟨found, r₅, hacts, h⟩ := bind_ok_iff.mp h
  obtain ⟨⟨references, warnings⟩, r₆, hdrain, h⟩ := bind_ok_iff.mp h
  obtain ⟨_, r₇, _, h⟩ := bind_ok_iff.mp h
  obtain ⟨findings', hhand, heq⟩ := bind_pure_ok_iff.mp h
  obtain ⟨rfl, rfl⟩ := Prod.mk.inj heq
  -- up to the first file nothing is found about SQL texts
  have hprepare : prepareTarget target r = .ok ⟨⟩ r₃ := by
    unfold prepareTarget
    rw [bind_of_ok htarget]
    exact hhierarchy
  have hstart : SameFindings r r₄ :=
    trans_of SameFindings ((keeps_prepareTarget target).of_ok hprepare)
      (keeps_targetFiles.of_ok hfiles)
  obtain ⟨acts, hrecord, haccount⟩ := (recorded_analyzeFiles files).accounted r₄ found r₅
    (by rw [hstart.debug]; exact hdebug) hacts
  obtain rfl : found = acts := hrecord
  have hall := (Account.of_steps hstart).trans haccount
  obtain ⟨hfound, _⟩ := collecting_drain_ok hdrain
  obtain ⟨rfl, rfl⟩ := Prod.mk.inj hfound
  obtain ⟨hreferences, hwarnings⟩ := handOver_ok hhand
  refine ⟨?_, ?_, hall.sound⟩
  · rw [hreferences, hall.adds.references, hempty]
    rfl
  · rw [hwarnings, hall.adds.warnings, hempty]
    rfl

theorem sound_warnings {act : Act} (h : act.Sound settings) :
    (∃ w ∈ act.warnings, w.code = "sql-injection") ↔ act.isTainted = true := by
  cases act with
  | keyed site references => simp [Act.warnings, Act.isTainted]
  | sample site text read references warnings =>
    simp only [Act.Sound] at h
    cases htaint : taintOf text with
    | some kind =>
      rw [htaint] at h
      obtain ⟨_, _, rfl⟩ := h
      simp [Act.warnings, Act.isTainted, htaint, injectionWarning, Warning.at]
    | none =>
      rw [htaint] at h
      simp only [Act.isTainted, htaint, Option.isSome_none, Bool.false_eq_true,
        iff_false]
      rintro ⟨w, hw, hcode⟩
      have hparse := h.2.2 w hw
      rw [hcode] at hparse
      exact absurd hparse (by decide)

/-- Injections are suspected exactly when a tainted sample is on the record. -/
theorem injections_ne_nil_iff
    (hwarnings : findings.warnings.filter Warning.aboutSql = acts.flatMap Act.warnings)
    (hsound : ∀ act ∈ acts, act.Sound settings) :
    findings.injections ≠ [] ↔ ∃ act ∈ acts, act.isTainted = true := by
  have hmem : ∀ w, w ∈ findings.injections
      ↔ w ∈ acts.flatMap Act.warnings ∧ w.code = "sql-injection" := by
    intro w
    rw [← hwarnings, Findings.injections, mem_filter, mem_filter, decide_eq_true_eq]
    constructor
    · rintro ⟨hw, hcode⟩
      exact ⟨⟨hw, by simp [Warning.aboutSql, hcode]⟩, hcode⟩
    · rintro ⟨⟨hw, _⟩, hcode⟩
      exact ⟨hw, hcode⟩
  constructor
  · intro hne
    obtain ⟨w, hw⟩ := exists_mem_of_ne_nil _ hne
    obtain ⟨hw, hcode⟩ := (hmem w).mp hw
    obtain ⟨act, hact, hw⟩ := mem_flatMap.mp hw
    exact ⟨act, hact, (sound_warnings (hsound act hact)).mp ⟨w, hw, hcode⟩⟩
  · rintro ⟨act, hact, htainted⟩
    obtain ⟨w, hw, hcode⟩ := (sound_warnings (hsound act hact)).mpr htainted
    exact ne_nil_of_mem ((hmem w).mpr ⟨mem_flatMap.mpr ⟨act, hact, hw⟩, hcode⟩)

theorem deliver_exit {disk : Disk} {request : Cli.Request} {date : String}
    {messages : List String} {execution : Cli.Execution}
    (h : Cli.deliver disk request date findings messages = .ok execution) :
    execution.exit = Cli.exitFor findings := by
  -- a report that is written may fail to be, and is delivered when it is
  have hwritten : ∀ {x : Except Cli.Breakdown Disk} {f : Disk → Cli.Execution},
      (∀ d, (f d).exit = Cli.exitFor findings) → (x >>= fun d => pure (f d)) = .ok execution →
      execution.exit = Cli.exitFor findings := by
    intro x f hf hx
    cases x with
    | error breakdown => cases hx
    | ok d =>
      cases hx
      exact hf d
  unfold Cli.deliver at h
  split at h
  · exact hwritten (fun _ => rfl) h
  · cases h
    rfl
  · exact hwritten (fun _ => rfl) h
  · cases h
    rfl

/-- A request for an analysis that succeeds is answered by delivering its findings. -/
theorem execute_analyzed {disk : Disk} {request : Cli.Request} {settings : Settings}
    {findings : Findings} {r' : Run} (hcommand : request.command = .analyze)
    (hdebug : request.debug = false) (hsettings : Cli.settingsFor disk request = .ok settings)
    (h : Audit.analyze request.target (Run.start disk request.target settings request.verbose false)
      = .ok findings r') (date : String) :
    Cli.execute disk date request = Cli.deliver r'.disk request date findings r'.log := by
  have hrun : (request.command.audit request.target).run
      (Run.start disk request.target settings request.verbose request.debug) = .ok findings r' := by
    rw [hcommand, hdebug]
    exact h
  rw [Cli.execute, hsettings]
  simp only [hrun]

/-- A project with one file: a command that takes a parameter, and one with a known text. -/
def twoCommands : Disk :=
  ({ base := "/p" } : Disk).write "a.php"
    ("<?php function f($x) \x7b $db->createCommand($x); " ++
      "$db->createCommand('SELECT * FROM user'); \x7d").toUTF8

end QueryAudit.Query
