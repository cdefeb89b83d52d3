/-
  QueryAudit.Proofs.Query.Accounting — what checks add to the findings

  A record accounts for a step when the findings that the step added are those on the record and
  every act on it is sound: a tainted sample gave a warning and nothing else.

  Main results: `accounted_bind`, `recorded_bind`, `setup_checkCall`.
-/

import QueryAudit.Proofs.Lockstep.Checking
import QueryAudit.Proofs.Query.Trace

namespace QueryAudit.Query

open Audit Php Record Sample Scope List
open Text QueryAudit.Frame

variable {r r' s t : Run} {x : Audit Reached}

variable {path table : String} {site : Site} {arg : Cursor} {criteria : Criteria}
  {references more : List Reference} {u : Unit}

/-! ## What stays in every check. -/

/-- What an analysis works with is the same in two states. -/
structure SameSetup (r r' : Run) : Prop where
  settings : r'.settings = r.settings
  debug : r'.debug = r.debug
  disk : r'.disk = r.disk

instance : IsPreorder Run SameSetup where
  refl _ := ⟨rfl, rfl, rfl⟩
  trans _ _ _ h k :=
    ⟨k.settings.trans h.settings, k.debug.trans h.debug, k.disk.trans h.disk⟩

theorem setup_of_steps (h : SameFindings r r') : SameSetup r r' :=
  ⟨h.settings, h.debug, h.disk⟩

instance : (only (SameSetup r)).Open where
  toReads := (only_eager setup_of_steps).toReads
  tame _ h := h.elim
  goneTame htame h := by
    refine trans_of SameSetup h ?_
    rw [htame.rest]
    exact ⟨rfl, rfl, rfl⟩
  all _ := trivial

theorem setup_checkCall : KeepsTo SameSetup (checkCall site) :=
  keeps_of_lock (T := []) (N := [site.path]) fun _ =>
    lock_checkCall mem_cons_self

/-! Everything else that a check calls for leaves the findings alone. -/

theorem keeps_siteWarn (site : Site) (message code subject : String)
    (h : code ≠ "sql-injection" ∧ code ≠ "sql-parse") :
    Keeps (site.warn message code subject) := by
  refine keeps_warn ?_
  simp [Warning.aboutSql, Warning.at, h.1, h.2]

theorem keeps_of_eager {α : Type} {x : Audit α} (path : String)
    (h : ∀ r, (only (SameFindings r)).Lock [] [path] x) : Keeps x :=
  keeps_of_lock h

theorem keeps_samples {node : Cursor} : Keeps (samples node path) :=
  keeps_of_eager path fun _ => lock_samples node path

theorem keeps_databaseName : Keeps (databaseName site) :=
  keeps_of_eager site.path fun _ => lock_databaseName mem_cons_self

theorem keeps_listSamples : Keeps (listSamples arg path) :=
  keeps_of_eager path fun _ => lock_listSamples arg path

theorem keeps_criteriaOf {call : Cursor} : Keeps (criteriaOf arg path call) :=
  keeps_of_eager path fun _ => lock_criteriaOf arg path call

theorem keeps_columnSamples : Keeps (columnSamples criteria) :=
  keeps_of_eager "" fun _ => lock_columnSamples criteria

theorem keeps_conditionSamples : Keeps (conditionSamples criteria) :=
  keeps_of_eager "" fun _ => lock_conditionSamples criteria

theorem keeps_finderParams {more : List Cursor} : Keeps (finderParams more path) :=
  keeps_of_eager path fun _ => lock_finderParams more path

theorem keeps_finderTexts {params : Catalog String} {criteria : Option Criteria} :
    Keeps (finderTexts arg path params criteria table) :=
  keeps_of_eager path fun _ => lock_finderTexts arg path params criteria table

theorem keeps_receiverClass? {steps : Nat} {receiver : Cursor} :
    Keeps (receiverClass? steps receiver path) :=
  keeps_of_eager path fun _ => lock_receiverClass? _ receiver path mem_cons_self

theorem keeps_knownRecord? {name : String} : Keeps (knownRecord? name path) :=
  keeps_of_eager path fun _ => lock_knownRecord? name path

/-! ## What is added. -/

/-- Between two states some references and some warnings about SQL texts were added, and nothing
else that matters to a report. -/
structure Adds (r : Run) (references : List Reference) (warnings : List Warning) (r' : Run) :
    Prop where
  setup : SameSetup r r'
  references : r'.diagnostics.references = r.diagnostics.references ++ references
  warnings : r'.diagnostics.warnings.filter Warning.aboutSql
    = r.diagnostics.warnings.filter Warning.aboutSql ++ warnings

theorem Adds.of_steps (h : SameFindings r r') : Adds r [] [] r' where
  setup := setup_of_steps h
  references := by rw [h.references, append_nil]
  warnings := by rw [h.warnings, append_nil]

theorem Adds.trans {warnings others : List Warning} (h : Adds r references warnings s)
    (k : Adds s more others t) : Adds r (references ++ more) (warnings ++ others) t where
  setup := trans_of SameSetup h.setup k.setup
  references := by rw [k.references, h.references, append_assoc]
  warnings := by rw [k.warnings, h.warnings, append_assoc]

theorem warn_adds {w : Warning} (hw : w.aboutSql = true) (h : Audit.warn w r = .ok u r') :
    Adds r [] [w] r' := by
  rw [warn_eq] at h
  cases hd : r.diagnostics.drained with
  | true =>
    rw [hd] at h
    cases h
  | false =>
    rw [hd] at h
    cases h
    refine ⟨⟨rfl, rfl, rfl⟩, (append_nil _).symm, ?_⟩
    show (r.diagnostics.warnings ++ [w]).filter Warning.aboutSql = _
    rw [filter_append, filter_cons_of_pos hw, filter_nil]

theorem addReference_adds {reference : Reference}
    (h : collecting (Diagnostics.addReference reference) r = .ok u r') :
    Adds r [reference] [] r' := by
  rw [collecting_addReference_eq] at h
  cases hd : r.diagnostics.drained with
  | true =>
    rw [hd] at h
    cases h
  | false =>
    rw [hd] at h
    cases h
    exact ⟨⟨rfl, rfl, rfl⟩, rfl, (append_nil _).symm⟩

def Refers (P : Reference → Prop) (x : Audit Reached) : Prop :=
  ∀ r reached r', x r = .ok reached r' →
    ∃ references, Adds r references [] r' ∧ ∀ reference ∈ references, P reference

section Refers

variable {P : Reference → Prop}

variable {reached : Reached} {db sql : String} {pairs : List (String × String)}

theorem refers_pure : Refers P (pure reached) := by
  intro r reached' r' h
  obtain ⟨_, rfl⟩ := pure_ok_iff.mp h
  exact ⟨[], .of_steps {}, fun _ hmem => nomatch hmem⟩

theorem refers_bind {f : Reached → Audit Reached} (hx : Refers P x)
    (hf : ∀ reached, Refers P (f reached)) : Refers P (x >>= f) := by
  intro r reached r' h
  obtain ⟨between, s, h, h'⟩ := bind_ok_iff.mp h
  obtain ⟨first, hfirst, hP⟩ := hx r between s h
  obtain ⟨more, hmore, hP'⟩ := hf between s reached r' h'
  refine ⟨first ++ more, hfirst.trans hmore, ?_⟩
  intro reference hmem
  rcases mem_append.mp hmem with hmem | hmem
  · exact hP reference hmem
  · exact hP' reference hmem

theorem refers_addReference
    (hP : ∀ reference : Reference, reference.db = db → reference.table = table →
      reference.sql = sql → reference.file = site.path → P reference) :
    Refers P (addReference site db table sql reached) := by
  intro r reached' r' h
  unfold addReference at h
  split at h
  · exact refers_pure r reached' r' h
  obtain ⟨above, s, habove, h⟩ := bind_ok_iff.mp h
  obtain ⟨_, hcollect, _⟩ := bind_pure_ok_iff.mp h
  have hsteps := Adds.of_steps (keeps_above.of_ok habove)
  refine ⟨_, hsteps.trans (addReference_adds hcollect), ?_⟩
  intro reference hmem
  rw [nil_append, mem_singleton] at hmem
  rw [hmem]
  exact hP _ rfl rfl rfl rfl

theorem refers_addReferences {tables : List Sql.TableName}
    (hP : ∀ t ∈ tables, ∀ reference : Reference,
      reference.db = (t.database.filter (· ≠ "")).getD db →
      reference.table = normalizeTable t.name "" → reference.sql = sql →
      reference.file = site.path → P reference) :
    ∀ reached, Refers P (addReferences site db sql tables reached) := by
  induction tables with
  | nil => exact fun reached => refers_pure
  | cons t tables ih =>
    obtain ⟨hfirst, hrest⟩ := forall_mem_cons.mp hP
    exact fun reached => refers_bind (refers_addReference hfirst) (ih hrest)

theorem refers_addListed {sample : String}
    (hP : ∀ pair ∈ pairs, ∀ reference : Reference, reference.db = pair.1 →
      reference.table = pair.2 → reference.sql = sample → reference.file = site.path →
      P reference) : ∀ reached, Refers P (addListed site sample pairs reached) := by
  induction pairs with
  | nil => exact fun reached => refers_pure
  | cons pair pairs ih =>
    obtain ⟨hfirst, hrest⟩ := forall_mem_cons.mp hP
    exact fun reached => refers_bind (refers_addReference hfirst) (ih hrest)

theorem refers_addKeyed {d : ClassDecl} :
    ∀ reached, Refers (fun _ => True) (addKeyed site d pairs reached) := by
  induction pairs with
  | nil => exact fun reached => refers_pure
  | cons pair pairs ih =>
    exact fun reached => refers_bind (refers_addReference fun _ _ _ _ _ => trivial) ih

/-- Collecting gives exactly the references that were added. -/
theorem collect_ok (hx : Refers P x) (h : Traced.collect x r = .ok (reached, references) r') :
    Adds r references [] r' ∧ ∀ reference ∈ references, P reference := by
  obtain ⟨before, s, hget, h⟩ := bind_ok_iff.mp h
  obtain ⟨rfl, rfl⟩ := get_ok_iff.mp hget
  obtain ⟨reached', t, hstep, h⟩ := bind_ok_iff.mp h
  obtain ⟨found, hadds, hP⟩ := hx r reached' t hstep
  obtain ⟨after, u, hget, h⟩ := bind_ok_iff.mp h
  obtain ⟨rfl, rfl⟩ := get_ok_iff.mp hget
  obtain ⟨heq, rfl⟩ := pure_ok_iff.mp h
  have hfound : references = found := by
    rw [← (Prod.mk.inj heq).2, newReferences, hadds.references, drop_left]
  rw [hfound]
  exact ⟨hadds, hP⟩

end Refers

/-! ## Sound records. -/

/-- A reference stems from a sample: it names a table that the sample is read to reach, as an SQL
text in the dialect of the settings or as a list of tables. -/
def Stems (settings : Settings) (text : String) (reference : Reference) : Prop :=
  (∃ dialect tables db, Sql.Dialect.named? settings.sqlDialect = some dialect
    ∧ Sql.tables dialect (expandTablePrefix text settings.tablePrefix) = .ok tables
    ∧ reference.sql = expandTablePrefix text settings.tablePrefix
    ∧ ∃ t ∈ tables, reference.db = (t.database.filter (· ≠ "")).getD db
        ∧ reference.table = normalizeTable t.name "")
  ∨ ∃ db, reference.sql = text
      ∧ (reference.db, reference.table) ∈ listedTables db text settings.tablePrefix

/-- What may come of a call. A tainted sample gives a warning and nothing else. What is read of any
other sample is its text with table prefixes put in, and every reference stems from it. Only finders
without arguments and by primary key get along without a sample. -/
def Act.Sound (settings : Settings) : Act → Prop
  | .sample site text read references warnings =>
    match taintOf text with
    | some kind =>
      read = none ∧ references = [] ∧ warnings = [injectionWarning site kind text]
    | none =>
      (∀ sql ∈ read, sql = expandTablePrefix text settings.tablePrefix)
      ∧ (∀ reference ∈ references, reference.file = site.path ∧ Stems settings text reference)
      ∧ ∀ w ∈ warnings, w.code = "sql-parse"
  | .keyed site _ =>
    callArguments site.node = [] ∨ settings.isPkFinder site.node.nameText = true

/-- Between two states exactly the findings of some acts were added, and each act is sound. -/
structure Account (r : Run) (acts : List Act) (r' : Run) : Prop where
  adds : Adds r (acts.flatMap Act.references) (acts.flatMap Act.warnings) r'
  sound : ∀ act ∈ acts, act.Sound r.settings

theorem Account.of_steps (h : SameFindings r r') : Account r [] r' :=
  ⟨.of_steps h, fun _ hmem => nomatch hmem⟩

theorem Account.trans {first more : List Act} (h : Account r first s)
    (k : Account s more t) : Account r (first ++ more) t where
  adds := by
    rw [flatMap_append, flatMap_append]
    exact h.adds.trans k.adds
  sound := by
    intro act hmem
    rcases mem_append.mp hmem with hmem | hmem
    · exact h.sound act hmem
    · rw [← h.adds.setup.settings]
      exact k.sound act hmem

/-- The record of a step that succeeds, debugging or not as the modes allow, accounts for what it
did after what is on record already. -/
def Accounted {β : Type} (modes : Bool → Prop) (before : List Act) (record : β → List Act)
    (t : Audit β) : Prop :=
  ∀ r b r', modes r.debug → t r = .ok b r' →
    ∃ more, record b = before ++ more ∧ Account r more r'

section Accounted

variable {α β γ : Type} {modes : Bool → Prop} {before : List Act} {record : β → List Act}
  {last : γ → List Act}

theorem accounted_pure {b : β} (h : record b = before) : Accounted modes before record (pure b) := by
  intro r b' r' _ hpure
  obtain ⟨rfl, rfl⟩ := pure_ok_iff.mp hpure
  exact ⟨[], by rw [h, append_nil], .of_steps {}⟩

theorem accounted_keeps {x : Audit α} {f : α → Audit γ} (hx : Keeps x)
    (hf : ∀ a, Accounted modes before last (f a)) : Accounted modes before last (x >>= f) := by
  intro r c r' hdebug h
  obtain ⟨a, s, h, h'⟩ := bind_ok_iff.mp h
  have hsteps := hx.of_ok h
  obtain ⟨more, hlast, haccount⟩ := hf a s c r' (by rw [hsteps.debug]; exact hdebug) h'
  exact ⟨more, hlast, (Account.of_steps hsteps).trans haccount⟩

/-- What a step recorded goes on record before what follows. -/
theorem accounted_bind {t : Audit β} {f : β → Audit γ} (ht : Accounted modes [] record t)
    (hf : ∀ b, Accounted modes (before ++ record b) last (f b)) :
    Accounted modes before last (t >>= f) := by
  intro r c r' hdebug h
  obtain ⟨b, s, h, h'⟩ := bind_ok_iff.mp h
  obtain ⟨first, hfirst, haccount⟩ := ht r b s hdebug h
  have hdebug' : modes s.debug := by
    rw [haccount.adds.setup.debug]
    exact hdebug
  obtain ⟨more, hlast, haccount'⟩ := hf b s c r' hdebug' h'
  refine ⟨first ++ more, ?_, haccount.trans haccount'⟩
  rw [hlast, hfirst, nil_append, append_assoc]

theorem accounted_act {x : Audit α} {f : α → Audit γ} {act : α → Act}
    (hx : ∀ r a s, x r = .ok a s → Account r [act a] s)
    (hf : ∀ a, Accounted modes (before ++ [act a]) last (f a)) :
    Accounted modes before last (x >>= f) := by
  have hrecord : Accounted modes [] (fun a => [act a]) x := by
    intro r a s _ h
    exact ⟨[act a], rfl, hx r a s h⟩
  exact accounted_bind hrecord hf

theorem accounted_note {act : Act} {t : Audit β} (hact : ∀ r, Account r [act] r)
    (ht : Accounted modes (before ++ [act]) record t) : Accounted modes before record t := by
  intro r b r' hdebug h
  obtain ⟨more, hrecord, haccount⟩ := ht r b r' hdebug h
  exact ⟨act :: more, by rw [hrecord, append_assoc]; rfl, (hact r).trans haccount⟩

end Accounted

/-! ## Traced steps against plain ones. -/

/-- A traced step does what a step does, and its record accounts for what it did. -/
structure Recorded {α β : Type} (modes : Bool → Prop) (before : List Act) (view : β → α)
    (record : β → List Act) (t : Audit β) (x : Audit α) : Prop where
  erases : Traced.Erases view t x
  accounted : Accounted modes before record t

section Recorded

variable {α β γ δ ι : Type} {modes : Bool → Prop} {before : List Act} {view : β → α}
  {record : β → List Act} {last : δ → List Act} {t : Audit β} {x : Audit α} {f : β → Audit δ}

theorem recorded_pure {b : β} (h : record b = before) :
    Recorded modes before view record (pure b) (pure (view b)) :=
  ⟨Traced.erases_pure, accounted_pure h⟩

theorem recorded_keeps {x : Audit ι} {f : ι → Audit β} {g : ι → Audit α} (hx : Keeps x)
    (h : ∀ a, Recorded modes before view record (f a) (g a)) :
    Recorded modes before view record (x >>= f) (x >>= g) :=
  ⟨Traced.erases_both fun a => (h a).erases, accounted_keeps hx fun a => (h a).accounted⟩

theorem recorded_bind {rest : δ → γ} {g : α → Audit γ} (h : Recorded modes [] view record t x)
    (hf : ∀ b, Recorded modes (before ++ record b) rest last (f b) (g (view b))) :
    Recorded modes before rest last (t >>= f) (x >>= g) :=
  ⟨Traced.erases_bind h.erases fun b => (hf b).erases,
    accounted_bind h.accounted fun b => (hf b).accounted⟩

theorem recorded_tail {rest : δ → α} (h : Recorded modes [] view record t x)
    (hf : ∀ b, Recorded modes (before ++ record b) rest last (f b) (pure (view b))) :
    Recorded modes before rest last (t >>= f) x := by
  rw [← bind_pure x]
  exact recorded_bind h hf

theorem recorded_silent {x : Audit Unit} (hx : Keeps x) {acts : List Act} (h : acts = before) :
    Recorded modes before Traced.forget id (do x; return acts) x :=
  ⟨Traced.erases_tail (id_map x) fun _ => Traced.erases_pure,
    accounted_keeps hx fun _ => accounted_pure h⟩

end Recorded

end QueryAudit.Query
