/-
  QueryAudit.Proofs.Query.FinderTables — tables that finders register

  A finder by primary key registers the tables of its class directly, one with a condition what a
  query on each table reaches. The two agree exactly when no table name is qualified: a query on
  `a.b` reaches the table `b` of the database `a`.

  Main results: `registers_addKeyed`, `registers_takeFinder`, `finders_register_same_iff`.
-/

import QueryAudit.Proofs.Query.FinderTaint
import QueryAudit.Proofs.Record.WrittenNames
import QueryAudit.Proofs.Sample.Literals

namespace QueryAudit.Query

open Audit Php Record Sample StraightLine List
open Text

variable {pairs : List (String × String)} {pair : String × String}

/-! ## What a call registers. -/

/-- The file of a call is at hand, as it is while the calls of the file are checked. -/
structure Checking (settings : Settings) (site : Site) (r : Run) : Prop where
  ready : ∃ scopes, StraightLine.Ready r site.path site.node.tree scopes
  named : site.node.node.named = true
  undrained : r.diagnostics.drained = false
  same : r.settings = settings

def pairsOf (references : List Reference) : List (String × String) :=
  references.map fun reference => (reference.db, reference.table)

/-- What is reached once some databases and tables were, in order and each once. -/
def Reached.after (reached : Reached) (pairs : List (String × String)) : Reached :=
  pairs.foldl (fun seen pair => if pair ∈ seen then seen else seen ++ [pair]) reached

theorem mem_after {reached : Reached} :
    pair ∈ reached.after pairs ↔ pair ∈ reached ∨ pair ∈ pairs := by
  induction pairs generalizing reached with
  | nil => simp [Reached.after]
  | cons first pairs ih =>
    rw [Reached.after, foldl_cons, ← Reached.after, ih]
    split <;> grind

/-- A call can register references in some states, and is in one of them again afterwards. -/
structure Site.Registering (site : Site) (I : Run → Prop) : Prop where
  undrained : ∀ {r}, I r → r.diagnostics.drained = false
  above : ∀ {r}, I r → ∃ nodes s, Audit.above site.path site.node r = .ok nodes s ∧ I s
    ∧ s.diagnostics.references = r.diagnostics.references
  added : ∀ {r} (reference : Reference), I r → I { r with diagnostics :=
    { r.diagnostics with references := r.diagnostics.references ++ [reference] } }

theorem registering_checking (settings : Settings) (site : Site) :
    site.Registering (Checking settings site) where
  undrained h := h.undrained
  above h := by
    obtain ⟨scopes, hready⟩ := h.ready
    exact ⟨_, _, hready.above rfl h.named, h, rfl⟩
  added _ h := by
    obtain ⟨scopes, hready⟩ := h.ready
    exact ⟨⟨scopes, hready.resolve, hready.scopes, hready.source, hready.samples⟩, h.named,
      h.undrained, h.same⟩

/-- A step returns and registers some databases and tables in order, each that was not reached
before. -/
def Registers (I : Run → Prop) (step : Reached → Audit Reached) (pairs : List (String × String)) :
    Prop :=
  ∀ r reached, I r → ∃ added r', step reached r = .ok (reached ++ pairsOf added) r' ∧ I r'
    ∧ r'.diagnostics.references = r.diagnostics.references ++ added
    ∧ reached ++ pairsOf added = reached.after pairs

section Registers

variable {I : Run → Prop} {site : Site} {x y : Reached → Audit Reached}
  {pairs more : List (String × String)}

theorem registers_pure : Registers I pure [] := by
  intro r reached hr
  refine ⟨[], r, ?_, hr, (append_nil _).symm, append_nil _⟩
  rw [pairsOf, map_nil, append_nil]
  rfl

theorem registers_bind (hx : Registers I x pairs) (hy : Registers I y more) :
    Registers I (fun reached => x reached >>= y) (pairs ++ more) := by
  intro r reached hr
  obtain ⟨first, s, hfirst, hs, hreferences, hafter⟩ := hx r reached hr
  obtain ⟨second, t, hsecond, ht, hreferences', hafter'⟩ := hy s (reached ++ pairsOf first) hs
  have happend : reached ++ pairsOf (first ++ second) = reached ++ pairsOf first ++ pairsOf second := by
    rw [pairsOf, map_append, append_assoc]
    rfl
  refine ⟨first ++ second, t, ?_, ht, ?_, ?_⟩
  · rw [happend, ← hsecond]
    exact bind_of_ok hfirst
  · rw [hreferences', hreferences, append_assoc]
  · rw [happend, hafter', hafter, Reached.after, Reached.after, Reached.after, foldl_append]

theorem registers_addReference (hI : site.Registering I) (db table sql : String) :
    Registers I (addReference site db table sql) [(db, table)] := by
  intro r reached hr
  by_cases hknown : reached.contains (db, table) = true
  · refine ⟨[], r, ?_, hr, (append_nil _).symm, ?_⟩
    · rw [addReference, if_pos hknown, pairsOf, map_nil, append_nil]
      rfl
    · exact (append_nil _).trans (if_pos (contains_iff_mem.mp hknown)).symm
  · obtain ⟨nodes, s, habove, hs, hreferences⟩ := hI.above hr
    let reference : Reference :=
      { db, table, sql, file := site.path, line := site.node.line,
        className := (enclosingNames nodes "").1, methodName := (enclosingNames nodes "").2 }
    have hcollect := collecting_addReference_eq (r := s) reference
    rw [hI.undrained hs] at hcollect
    refine ⟨[reference], _, ?_, hI.added reference hs, ?_, ?_⟩
    · rw [addReference, if_neg hknown, bind_of_ok habove]
      exact bind_of_ok hcollect
    · rw [← hreferences]
    · exact (if_neg fun hmem => hknown (contains_iff_mem.mpr hmem)).symm

theorem registers_addKeyed (hI : site.Registering I) (d : ClassDecl) (pairs : List (String × String)) :
    Registers I (addKeyed site d pairs) pairs := by
  induction pairs with
  | nil => exact registers_pure
  | cons pair pairs ih => exact registers_bind (registers_addReference hI _ _ _) ih

end Registers

/-! ## Conditions. -/

section Conditions

variable {settings : Settings} {site : Site} {arg : Cursor} {condition : String}
  {params : Catalog String} {dialect : Sql.Dialect} {r : Run}

/-- The argument of a finder is a literal text. -/
structure IsText (arg : Cursor) (condition : String) : Prop where
  kind : arg.kind.isStringLiteral = true
  value : literalValue? arg = .ok (some condition)

theorem IsText.samples (h : IsText arg condition) (hr : Checking settings site r) :
    samples arg site.path r = .ok [condition] r := by
  obtain ⟨scopes, hready⟩ := hr.ready
  rw [Sample.samples, bind_of_ok run_get]
  refine samplesWith_of_hasSample hready.samples (hasSample_text hready.samples h.kind h.value) ?_
  rw [evaluationDepth]
  omega

theorem IsText.criteriaOf (h : IsText arg condition) (path : String) (call : Cursor) (r : Run) :
    criteriaOf arg path call r = .ok none r := by
  have hitems : arrayItems arg path r = .ok none r := by
    rw [arrayItems, bind_of_ok run_get]
    exact itemsRule_eq_none 0 (.inl h.kind)
  have hvariable : arg.kind ≠ .variableName := by
    intro hkind
    have hliteral := h.kind
    rw [hkind] at hliteral
    exact Bool.false_ne_true hliteral
  have hcreation : criteriaCreation? arg path r = .ok none r := by
    rw [criteriaCreation?, if_pos hvariable]
    rfl
  rw [Query.criteriaOf, bind_of_ok run_get, Run.extent, criteriaFrom, bind_of_ok hitems]
  exact bind_of_ok hcreation

/-- The database and the table that a query on a written name reaches. -/
def reachedBy (w : WrittenName) (before db : String) : String × String :=
  ((w.source before).database.getD db, w.table before)

/-- A condition on one table registers the table that the query is read to reach. -/
theorem registers_condition (w : WrittenName) {text : String} (db : String)
    (hbefore : IsPlain settings.tablePrefix.toList)
    (hdialect : Sql.Dialect.named? settings.sqlDialect = some dialect)
    (huntainted : taintOf text = none)
    (hreads : Sql.tables dialect (expandTablePrefix text settings.tablePrefix)
        = .ok [w.source settings.tablePrefix]) :
    Registers (Checking settings site) (takeAllSql site db [text])
      [reachedBy w settings.tablePrefix db] := by
  have hown : ((w.source settings.tablePrefix).database.filter (· ≠ "")).getD db
      = (w.source settings.tablePrefix).database.getD db := by
    cases hdatabase : w.database with
    | none => simp [WrittenName.source, hdatabase]
    | some a =>
      have hne : String.ofList a.chars ≠ "" := by
        rw [ne_eq, ← String.toList_inj, String.toList_ofList]
        exact a.ne
      simp [WrittenName.source, hdatabase, Option.filter, hne]
  intro r reached hr
  have htables : tablesOf (expandTablePrefix text settings.tablePrefix) r
      = .ok (.ok [w.source settings.tablePrefix]) r := by
    simp only [tablesOf, run_bind, run_get, hr.same, hdialect, hreads, run_pure]
  obtain ⟨added, r', hadd, hrest⟩ := registers_addReference (registering_checking settings site)
    ((w.source settings.tablePrefix).database.getD db) (w.table settings.tablePrefix)
    (expandTablePrefix text settings.tablePrefix) r reached hr
  refine ⟨added, r', ?_, hrest⟩
  rw [takeAllSql, takeSql, huntainted]
  simp only [run_bind, run_get, hr.same, htables, isEmpty_cons, Bool.false_eq_true, if_false,
    addReferences, hown]
  rw [show (w.source settings.tablePrefix).name = w.table settings.tablePrefix from rfl,
    w.normalize_table hbefore]
  simp only [hadd, takeAllSql, run_pure]

theorem registers_takeFinder (hbefore : IsPlain settings.tablePrefix.toList)
    (hdialect : Sql.Dialect.named? settings.sqlDialect = some dialect) (harg : IsText arg condition)
    (entries : List (String × WrittenName))
    (h : ∀ e ∈ entries, taintOf (conditionText params (e.2.spelled settings.tablePrefix) condition) = none
      ∧ Sql.tables dialect (expandTablePrefix
        (conditionText params (e.2.spelled settings.tablePrefix) condition) settings.tablePrefix)
          = .ok [e.2.source settings.tablePrefix]) :
    Registers (Checking settings site)
      (takeFinder site arg params none (entries.map fun e => (e.1, e.2.spelled settings.tablePrefix)))
      (entries.map fun e => reachedBy e.2 settings.tablePrefix e.1) := by
  induction entries with
  | nil => exact registers_pure
  | cons e entries ih =>
    obtain ⟨⟨huntainted, hreads⟩, hrest⟩ := forall_mem_cons.mp h
    have hfirst : Registers (Checking settings site) _ _ :=
      registers_condition e.2 e.1 hbefore hdialect huntainted hreads
    intro r reached hr
    have htexts : finderTexts arg site.path params none (e.2.spelled settings.tablePrefix) r
        = .ok [conditionText params (e.2.spelled settings.tablePrefix) condition] r :=
      map_of_ok (harg.samples hr)
    rw [map_cons, takeFinder, bind_of_ok htexts]
    exact registers_bind hfirst (ih hrest) r reached hr

theorem taintOf_eq_none {sample : String} (h : ':' ∉ sample.toList) : taintOf sample = none := by
  rw [← Option.not_isSome_iff_eq_none, taintOf_isSome_iff]
  rintro ⟨start, kind, rest, htext, _⟩
  refine h ?_
  rw [htext, Taint.chars]
  simp

/-- A clean condition on a clean table makes a clean text. -/
theorem untainted_condition (w : WrittenName) (hparams : Placeholders params)
    (hbefore : IsPlain settings.tablePrefix.toList)
    (hcondition : taintOf condition = none) :
    taintOf (conditionText params (w.spelled settings.tablePrefix) condition) = none := by
  have hcolon : ':' ∉ (w.spelled settings.tablePrefix).toList := by
    have htable := fun hc => (isTableChar_iff.mp (w.plain_table hbefore ':' hc)).2.2.2.2.2.2 rfl
    rw [WrittenName.spelled, WrittenName.lead, String.toList_ofList]
    cases w.database with
    | none => exact htable
    | some a =>
      have ha : ':' ∉ a.chars := fun hc => (isTableChar_iff.mp (a.plain ':' hc)).2.2.2.2.2.2 rfl
      simpa [ha] using htable
  rw [← Option.not_isSome_iff_eq_none, taintOf_conditionText_iff hparams]
  rintro (hmarked | ⟨start, kind, rest, htext, hinside, _⟩)
  · rw [taintOf_eq_none hcolon] at hmarked
    exact Bool.false_ne_true hmarked
  · have hmarked := marked_trim_iff.mp ⟨start, kind, rest, htext, hinside⟩
    rw [← taintOf_isSome_iff, hcondition] at hmarked
    exact Bool.false_ne_true hmarked

end Conditions

/-! ## Finders on a record class. -/

section Finders

variable {settings : Settings} {site : Site} {d : ClassDecl} {written : List WrittenName} {r : Run}

/-- The databases of a record class, the usual one standing in for none. -/
def databasesOf (d : ClassDecl) (settings : Settings) : List String :=
  if d.dbNames.isEmpty then [settings.defaultDbName] else d.dbNames

def entriesOf (d : ClassDecl) (settings : Settings) (written : List WrittenName) :
    List (String × WrittenName) :=
  (databasesOf d settings).flatMap fun db => written.map fun w => (db, w)

theorem recordPairs_eq (hbefore : IsPlain settings.tablePrefix.toList)
    (hd : d.tableNames = written.map fun w => normalizeTable w.text settings.tablePrefix) :
    recordPairs d settings.defaultDbName
      = (entriesOf d settings written).map fun e => (e.1, e.2.spelled settings.tablePrefix) := by
  have htables : d.tableNames = written.map (WrittenName.spelled · settings.tablePrefix) := by
    rw [hd]
    exact map_congr_left fun w _ => normalizeTable_text w hbefore
  simp only [recordPairs, htables, entriesOf, map_flatMap, map_map]
  rfl

theorem mem_entriesOf {f : String × WrittenName → String × String} :
    pair ∈ (entriesOf d settings written).map f
      ↔ ∃ db ∈ databasesOf d settings, ∃ w ∈ written, pair = f (db, w) := by
  simp only [entriesOf, mem_map, mem_flatMap]
  constructor
  · rintro ⟨_, ⟨db, hdb, w, hw, rfl⟩, rfl⟩
    exact ⟨db, hdb, w, hw, rfl⟩
  · rintro ⟨db, hdb, w, hw, rfl⟩
    exact ⟨_, ⟨db, hdb, w, hw, rfl⟩, rfl⟩

theorem exists_mem_databasesOf (d : ClassDecl) (settings : Settings) : ∃ db, db ∈ databasesOf d settings := by
  rw [databasesOf]
  split
  · exact ⟨_, mem_singleton_self _⟩
  · next h => exact exists_mem_of_ne_nil _ fun hnil => h (isEmpty_iff.mpr hnil)

/-- What a finder comes to whose tables are registered by a step. -/
theorem checkRecord_registers (hr : Checking settings site r) {step : Reached → Audit Reached}
    (hstep : Registers (Checking settings site) step pairs)
    (hempty : recordPairs d settings.defaultDbName = [] → pairs = [])
    (hcheck : recordPairs d settings.defaultDbName ≠ [] →
      checkRecord site d r = (do let _ ← step []) r) :
    ∃ r', checkRecord site d r = .ok () r' ∧ ∀ pair, pair ∈ pairsOf (newReferences r r') ↔ pair ∈ pairs := by
  by_cases hpairs : recordPairs d settings.defaultDbName = []
  · obtain ⟨w, hw⟩ : ∃ w, checkRecord site d r = Audit.warn w r := by
      simp only [checkRecord, run_bind, run_get, hr.same, hpairs]
      exact ⟨_, rfl⟩
    rw [warn_eq, hr.undrained] at hw
    refine ⟨_, hw, fun pair => ?_⟩
    rw [hempty hpairs]
    simp [newReferences, pairsOf]
  · obtain ⟨added, r', hok, _, hreferences, hafter⟩ := hstep r [] hr
    refine ⟨r', ?_, fun pair => ?_⟩
    · rw [hcheck hpairs]
      exact bind_of_ok hok
    · rw [newReferences, hreferences, drop_left, ← nil_append (pairsOf added), hafter, mem_after]
      simp

/-- **Finders without a condition keep a qualified name whole**, while one with a condition
registers the table under the database that qualifies it. So the two register the same exactly when
no name is qualified, whatever forms the accessors write the tables in. -/
theorem finders_register_same_iff {dialect : Sql.Dialect} {condition : String}
    (hbefore : IsPlain settings.tablePrefix.toList)
    (hd : d.tableNames = written.map fun w => normalizeTable w.text settings.tablePrefix)
    (hdialect : Sql.Dialect.named? settings.sqlDialect = some dialect)
    (hcondition : taintOf condition = none)
    {keyed : Site} (hr : Checking settings keyed r)
    (hkeyed : callArguments keyed.node = [] ∨ settings.isPkFinder keyed.node.nameText = true)
    {asked : Site} {s : Run} (hs : Checking settings asked s) {arg : Cursor} {more : List Cursor}
    (harguments : callArguments asked.node = arg :: more)
    (hasked : settings.isPkFinder asked.node.nameText = false) (harg : IsText arg condition)
    {params : Catalog String} (hparams : finderParams more asked.path s = .ok params s)
    (hreads : ∀ w ∈ written, Sql.tables dialect (expandTablePrefix
      (conditionText params (w.spelled settings.tablePrefix) condition) settings.tablePrefix)
        = .ok [w.source settings.tablePrefix]) :
    ∃ r' s', checkRecord keyed d r = .ok () r' ∧ checkRecord asked d s = .ok () s'
      ∧ (∀ pair, pair ∈ pairsOf (newReferences r r') ↔
          ∃ db ∈ databasesOf d settings, ∃ w ∈ written, pair = (db, w.spelled settings.tablePrefix))
      ∧ (∀ pair, pair ∈ pairsOf (newReferences s s') ↔
          ∃ db ∈ databasesOf d settings, ∃ w ∈ written, pair = reachedBy w settings.tablePrefix db)
      ∧ ((∀ pair, pair ∈ pairsOf (newReferences r r') ↔ pair ∈ pairsOf (newReferences s s'))
          ↔ ∀ w ∈ written, w.database = none) := by
  have hpairs := recordPairs_eq hbefore hd
  obtain ⟨r', hrun, hmem⟩ := checkRecord_registers hr
    (registers_addKeyed (registering_checking _ _) d (recordPairs d settings.defaultDbName)) id (by
      intro hne
      rw [← List.isEmpty_eq_false_iff] at hne
      rcases hkeyed with hnone | hkey
      · simp only [checkRecord, run_bind, run_get, hr.same, hne, hnone, Bool.false_eq_true, if_false]
      · cases hargs : callArguments keyed.node <;>
          simp only [checkRecord, run_bind, run_get, hr.same, hne, hargs, hkey, Bool.false_eq_true,
            if_false, if_true])
  have hfinder := @registers_takeFinder settings asked arg condition params dialect hbefore hdialect harg
    (entriesOf d settings written) (by
      intro e he
      obtain ⟨_, _, w, hw, rfl⟩ : ∃ db ∈ databasesOf d settings, ∃ w ∈ written, e = (db, w) := by
        simpa [entriesOf, eq_comm] using he
      exact ⟨untainted_condition w (finderParams_ok hparams) hbefore hcondition, hreads w hw⟩)
  rw [← hpairs] at hfinder
  obtain ⟨s', hrun', hmem'⟩ := checkRecord_registers (d := d) hs hfinder (by
      intro hnil
      rw [hpairs, List.map_eq_nil_iff] at hnil
      rw [hnil, List.map_nil]) (by
      intro hne
      rw [← List.isEmpty_eq_false_iff] at hne
      simp only [checkRecord, run_bind, run_get, hs.same, hne, harguments, hasked, hparams,
        harg.criteriaOf, Bool.false_eq_true, if_false])
  have hwhole := fun pair => (hmem pair).trans (hpairs ▸ mem_entriesOf)
  have hparted := fun pair => (hmem' pair).trans mem_entriesOf
  refine ⟨r', s', hrun, hrun', hwhole, hparted, ?_, ?_⟩
  · intro hsame w hw
    obtain ⟨db, hdb⟩ := exists_mem_databasesOf d settings
    obtain ⟨_, _, other, _, heq⟩ := (hparted _).mp ((hsame _).mp ((hwhole _).mpr ⟨db, hdb, w, hw, rfl⟩))
    exact w.database_eq_none hbefore (Prod.mk.inj heq).2
  · intro hnone pair
    rw [hwhole, hparted]
    refine exists_congr fun db => and_congr_right fun _ => exists_congr fun w => and_congr_right fun hw => ?_
    simp [reachedBy, WrittenName.source, WrittenName.spelled, WrittenName.lead, hnone w hw]

end Finders

def identifier (name : String) (ne : name.toList ≠ []) (plain : name.toList.all isTableChar = true) :
    Identifier :=
  ⟨name.toList, ne, all_eq_true.mp plain⟩

def userName : Identifier := identifier "user" (by decide) (by decide)

def backquotes : Quotes := ⟨'\x60', '\x60', rfl, rfl⟩

/-- A table in braces and quotes, and one with its database in quotes. -/
def twoWritten : List WrittenName :=
  [{ name := userName, braced := true, quotes := some backquotes },
   { database := some (identifier "db2" (by decide) (by decide)),
     name := identifier "log" (by decide) (by decide), quotes := some ⟨'[', ']', rfl, rfl⟩ }]

def prefixed : Settings := { tablePrefix := "t_" }

def twoTables : ClassDecl :=
  { name := "U", parentName := none, file := "a.php", line := 1,
    tableNames := twoWritten.map fun w => normalizeTable w.text "t_" }

def twoFinders : Disk :=
  ({ base := "/p" } : Disk).write "a.php" "<?php $u->find(); $u->find('id = 1');".toUTF8

/-- What is seen of the two calls of the file. -/
def findersSeen (r : Run) : List (Cursor × Closure) → Bool
  | [(a, _), (b, _)] => r.disk.resolve "/p/a.php" = "/p/a.php" && a.tree = b.tree
    && a.node.named && b.node.named && (callArguments a).isEmpty && r.diagnostics.drained = false
    && ((r.sources.get? "/p/a.php").map (·.linked)) = some (some a.tree)
    && prefixed.isPkFinder b.nameText = false && (callArguments b).length = 1
    && (callArguments b).all fun arg => arg.kind.isStringLiteral
      && literalValue? arg = .ok (some "id = 1")
  | _ => false

/-- One finder registers the qualified table whole, the other under its database. -/
theorem finders_register_same_iff_two :
    ∃ keyed asked r r' s', callArguments keyed.node = [] ∧ (callArguments asked.node).length = 1
      ∧ checkRecord keyed twoTables r = .ok () r' ∧ checkRecord asked twoTables r = .ok () s'
      ∧ ("db", "t_user") ∈ pairsOf (newReferences r r') ∧ ("db", "t_user") ∈ pairsOf (newReferences r s')
      ∧ ("db", "db2.log") ∈ pairsOf (newReferences r r')
      ∧ ("db2", "log") ∈ pairsOf (newReferences r s')
      ∧ ¬ ∀ pair, pair ∈ pairsOf (newReferences r r') ↔ pair ∈ pairsOf (newReferences r s') := by
  have hseen : sees (Audit.scopesOf "/p/a.php") (Run.start twoFinders "/p" prefixed false false)
      (fun _ r => (r.scopes.get? "/p/a.php").any fun scopes => findersSeen r scopes.callSites) = true := by
    decide +kernel
  obtain ⟨_, r, hok, htest⟩ := of_sees hseen
  have hsettings : r.settings = prefixed := (setup_of_steps (keeps_scopesOf.of_ok hok)).settings
  obtain ⟨scopes, hscopes, htest⟩ := (Option.any_eq_true _ _).mp htest
  unfold findersSeen at htest
  split at htest
  next a _ b _ _ =>
    simp only [Bool.and_eq_true, decide_eq_true_eq, List.isEmpty_iff] at htest
    obtain ⟨⟨⟨⟨⟨⟨⟨⟨⟨hresolve, htree⟩, ha⟩, hb⟩, hnone⟩, hdrained⟩, hlinked⟩, hkey⟩, hone⟩, htext⟩ := htest
    obtain ⟨arg, hargs⟩ := List.length_eq_one_iff.mp hone
    obtain ⟨hkind, hvalue⟩ : arg.kind.isStringLiteral = true ∧ literalValue? arg = .ok (some "id = 1") := by
      simpa [hargs] using htext
    obtain ⟨source, hsource, hnumber⟩ := Option.map_eq_some_iff.mp hlinked
    have hready : StraightLine.Ready r "/p/a.php" a.tree scopes :=
      ⟨hresolve, hscopes, ⟨source, hsource, hnumber⟩, by rw [hsettings]; decide⟩
    have hreads : ∀ w ∈ twoWritten, Sql.tables .mysql (expandTablePrefix
        (conditionText .empty (w.spelled "t_") "id = 1") "t_") = .ok [w.source "t_"] := by
      decide +kernel
    obtain ⟨r', s', hr', hs', hwhole, hparted, hsame⟩ :=
      @finders_register_same_iff prefixed twoTables twoWritten r .mysql "id = 1"
        (List.all_eq_true.mp (by decide)) rfl rfl (by decide)
        ⟨a, "/p/a.php"⟩ ⟨⟨scopes, hready⟩, ha, hdrained, hsettings⟩ (.inl hnone)
        ⟨b, "/p/a.php"⟩ r ⟨⟨scopes, htree ▸ hready⟩, hb, hdrained, hsettings⟩ arg [] hargs hkey
        ⟨hkind, hvalue⟩ .empty rfl hreads
    have hfirst : twoWritten[0] ∈ twoWritten := List.getElem_mem _
    have hsecond : twoWritten[1] ∈ twoWritten := List.getElem_mem _
    have hdb : "db" ∈ databasesOf twoTables prefixed := List.mem_singleton_self _
    refine ⟨_, _, r, r', s', hnone, hone, hr', hs', ?_, ?_, ?_, ?_, ?_⟩
    · exact (hwhole _).mpr ⟨"db", hdb, _, hfirst, by decide⟩
    · exact (hparted _).mpr ⟨"db", hdb, _, hfirst, by decide⟩
    · exact (hwhole _).mpr ⟨"db", hdb, _, hsecond, by decide⟩
    · exact (hparted _).mpr ⟨"db", hdb, _, hsecond, by decide⟩
    · intro hall
      cases hsame.mp hall _ hsecond
  cases htest

/-- A record class with a table whose name its accessor qualifies, and two finders on it. -/
def qualifiedFile : Disk :=
  ({ base := "/p" } : Disk).write "a.php"
    ("<?php class U extends CActiveRecord \x7b function tableName() \x7b return 'db2.user'; \x7d \x7d " ++
      "U::model()->find(); U::model()->find('id = 1');").toUTF8

/-- The finder without a condition and the one with it register different tables. -/
theorem qualified_registered_apart :
    (match Audit.analyze "/p" (Run.start qualifiedFile "/p" {} false false) with
      | .ok findings _ => pairsOf findings.references
      | .error _ _ => []) = [("db", "db2.user"), ("db2", "user")] := by
  decide +kernel

end QueryAudit.Query
