/-
  QueryAudit.Proofs.Query.FinderTaint — tainted conditions of finders

  A condition with a mark is warned about exactly when the placeholders leave a mark of it alone;
  one that is spelled like the end of a mark takes it away.

  Main results: `finder_warns_iff`, `applyParams_launders_const`.
-/

import QueryAudit.Proofs.Query.TaintGate
import QueryAudit.Proofs.Taint.Placeholders

namespace QueryAudit.Query

open Audit Php Record Sample Scope List
open Text

variable {acts : List Act} {more : List Cursor} {r r' t : Run} {site : Site} {texts : List String}
  {db table text : String} {arg : Cursor}

/-! ## What a finder asks for. -/

/-- A finder asks a table for columns under a condition: the samples that its argument gives in some
state, and the text that is put together from them. -/
inductive AsksFor (arg : Cursor) (path table : String) (params : Catalog String) (s : Run) :
    Option Criteria → (columns condition : String) → (all : Catalog String) → (text : String) → Prop
  | condition {found : List String} {t : Run} {sample : String} :
      samples arg path s = .ok found t → sample ∈ found →
      AsksFor arg path table params s none "*" (trim sample) params
        (conditionText params table sample)
  | criteria {criteria : Criteria} {all : Catalog String} {columns conditions : List String}
      {t u v : Run} {column sample : String} :
      replacementsWith criteria params s = .ok all t →
      columnSamples criteria t = .ok columns u →
      conditionSamples criteria u = .ok conditions v →
      column ∈ (if columns.isEmpty then ["*"] else columns) →
      sample ∈ (if conditions.isEmpty then [""] else conditions) →
      AsksFor arg path table params s (some criteria) column sample all
        (criteriaText all table column sample)

section AsksFor

variable {arg : Cursor} {path table : String} {params : Catalog String} {s : Run}
  {criteria : Option Criteria} {columns condition : String} {all : Catalog String} {text : String}

/-- What is asked for is among the texts of the finder. -/
theorem AsksFor.mem_texts (h : AsksFor arg path table params s criteria columns condition all text)
    (htexts : finderTexts arg path params criteria table s = .ok texts t) : text ∈ texts := by
  cases h with
  | condition hfound hsample =>
    obtain ⟨found, u, hfound', hpure⟩ := bind_ok_iff.mp htexts
    rw [hfound] at hfound'
    cases hfound'
    obtain ⟨rfl, _⟩ := pure_ok_iff.mp hpure
    exact mem_map_of_mem hsample
  | criteria hall hcolumns hconditions hcolumn hsample =>
    obtain ⟨all', t₁, hall', htexts⟩ := bind_ok_iff.mp htexts
    rw [hall] at hall'
    cases hall'
    obtain ⟨columns', t₂, hcolumns', htexts⟩ := bind_ok_iff.mp htexts
    rw [hcolumns] at hcolumns'
    cases hcolumns'
    obtain ⟨conditions', t₃, hconditions', hpure⟩ := bind_ok_iff.mp htexts
    rw [hconditions] at hconditions'
    cases hconditions'
    obtain ⟨rfl, _⟩ := pure_ok_iff.mp hpure
    exact mem_flatMap.mpr ⟨_, hcolumn, mem_map_of_mem hsample⟩

theorem replacementsWith_ok {criteria : Criteria} (hparams : Placeholders params)
    (h : replacementsWith criteria params s = .ok all t) : Placeholders all := by
  unfold replacementsWith at h
  cases hgiven : criteria.params with
  | none =>
    rw [hgiven] at h
    obtain ⟨rfl, _⟩ := pure_ok_iff.mp h
    exact hparams
  | some given =>
    rw [hgiven] at h
    obtain ⟨own, hown, rfl⟩ := bind_pure_ok_iff.mp h
    exact placeholders_merge hparams (paramsOf_ok hown)

theorem finderParams_ok (h : finderParams more path s = .ok params t) : Placeholders params := by
  cases more with
  | nil =>
    obtain ⟨rfl, _⟩ := pure_ok_iff.mp h
    exact fun p hp => nomatch hp
  | cons second more => exact paramsOf_ok h

theorem AsksFor.placeholders (hparams : Placeholders params)
    (h : AsksFor arg path table params s criteria columns condition all text) : Placeholders all := by
  cases h with
  | condition _ _ => exact hparams
  | criteria hall _ _ _ _ => exact replacementsWith_ok hparams hall

/-- The text is tainted exactly when its columns or its table are, or the condition has a mark that
the placeholders leave alone. -/
theorem AsksFor.tainted_iff (hparams : Placeholders params)
    (h : AsksFor arg path table params s criteria columns condition all text) :
    (taintOf text).isSome = true ↔
      (taintOf columns).isSome = true ∨ (taintOf table).isSome = true
        ∨ KeepsMark (passes all) condition.toList := by
  have hall := h.placeholders hparams
  cases h with
  | condition _ _ =>
    have hstar : (taintOf "*").isSome = false := by decide
    rw [taintOf_conditionText_iff hall, hstar]
    simp only [Bool.false_eq_true, false_or]
  | criteria _ _ _ _ _ => exact taintOf_criteriaText_iff hall

end AsksFor

/-! ## The texts on record. -/

/-- Every tainted text of several is on record with its warning. -/
theorem mem_acts_of_takeAllSql :
    ∀ {reached reached' : Reached} {acts : List Act} {r r' : Run},
      Traced.takeAllSql site db texts reached r = .ok (reached', acts) r' →
      ∀ text ∈ texts, ∀ kind, taintOf text = some kind →
        Act.sample site text none [] [injectionWarning site kind text] ∈ acts := by
  induction texts with
  | nil => exact fun _ _ hmem => nomatch hmem
  | cons sample texts ih =>
    intro reached reached' acts r r' h text hmem kind hkind
    obtain ⟨⟨reached₁, first⟩, s, hfirst, h⟩ := bind_ok_iff.mp h
    obtain ⟨⟨reached₂, more⟩, t, hmore, h⟩ := bind_ok_iff.mp h
    obtain ⟨heq, _⟩ := pure_ok_iff.mp h
    obtain ⟨_, rfl⟩ := Prod.mk.inj heq
    rcases mem_cons.mp hmem with rfl | hmem
    · unfold Traced.takeSql at hfirst
      rw [hkind] at hfirst
      obtain ⟨_, _, heq⟩ := bind_pure_ok_iff.mp hfirst
      obtain ⟨_, rfl⟩ := Prod.mk.inj heq
      exact mem_append_left _ mem_cons_self
    · exact mem_append_right _ (ih hmore text hmem kind hkind)

/-- A finder comes to each table of its record class after the tables before it, and every tainted
text it then asks for is on record with its warning. -/
theorem takeFinder_reaches {params : Catalog String} {criteria : Option Criteria}
    {before after : List (String × String)} :
    ∀ {reached reached' : Reached} {acts : List Act} {r r' : Run},
      Traced.takeFinder site arg params criteria (before ++ (db, table) :: after) reached r
        = .ok (reached', acts) r' →
      ∃ reached₁ s texts t, takeFinder site arg params criteria before reached r = .ok reached₁ s
        ∧ finderTexts arg site.path params criteria table s = .ok texts t
        ∧ ∀ text ∈ texts, ∀ kind, taintOf text = some kind →
            Act.sample site text none [] [injectionWarning site kind text] ∈ acts := by
  induction before with
  | nil =>
    intro reached reached' acts r r' h
    obtain ⟨texts, t, htexts, h⟩ := bind_ok_iff.mp h
    obtain ⟨⟨reached₁, first⟩, u, hfirst, h⟩ := bind_ok_iff.mp h
    obtain ⟨⟨reached₂, more⟩, v, _, h⟩ := bind_ok_iff.mp h
    obtain ⟨heq, _⟩ := pure_ok_iff.mp h
    obtain ⟨_, rfl⟩ := Prod.mk.inj heq
    refine ⟨reached, r, texts, t, rfl, htexts, ?_⟩
    intro text hmem kind hkind
    exact mem_append_left _ (mem_acts_of_takeAllSql hfirst text hmem kind hkind)
  | cons pair before ih =>
    intro reached reached' acts r r' h
    obtain ⟨texts, t, htexts, h⟩ := bind_ok_iff.mp h
    obtain ⟨⟨reached₁, first⟩, u, hfirst, h⟩ := bind_ok_iff.mp h
    obtain ⟨⟨reached₂, more⟩, v, hmore, h⟩ := bind_ok_iff.mp h
    obtain ⟨heq, _⟩ := pure_ok_iff.mp h
    obtain ⟨_, rfl⟩ := Prod.mk.inj heq
    obtain ⟨reached₃, s, texts', t', hbefore, htexts', hacts⟩ := ih hmore
    have hplain : takeAllSql site pair.1 texts reached t = .ok reached₁ u :=
      (@recorded_takeAllSql (fun _ => True) site pair.1 texts reached).erases.of_ok hfirst
    refine ⟨reached₃, s, texts', t', ?_, htexts', ?_⟩
    · rw [takeFinder, run_bind, htexts]
      show (takeAllSql site pair.1 texts reached >>= _) t = _
      rw [run_bind, hplain]
      exact hbefore
    · intro text hmem kind hkind
      exact mem_append_right _ (hacts text hmem kind hkind)

/-! ## Finder calls. -/

/-- The warnings about SQL texts that were given between two states. -/
def addedWarnings (before after : Run) : List Warning :=
  (after.diagnostics.warnings.filter Warning.aboutSql).drop
    (before.diagnostics.warnings.filter Warning.aboutSql).length

theorem mem_addedWarnings {kind : Taint} (haccount : Account r acts r')
    (hact : Act.sample site text none [] [injectionWarning site kind text] ∈ acts) :
    injectionWarning site kind text ∈ addedWarnings r r' := by
  rw [addedWarnings, haccount.adds.warnings, drop_left]
  exact mem_flatMap.mpr ⟨_, hact, mem_cons_self⟩

/-- How a finder with arguments goes through the tables of its record class. -/
theorem traced_checkRecord_ok {d : ClassDecl} (harguments : callArguments site.node = arg :: more)
    (hkey : r.settings.isPkFinder site.node.nameText = false)
    (hpairs : recordPairs d r.settings.defaultDbName ≠ [])
    (h : Traced.checkRecord site d r = .ok acts r') :
    ∃ params p criteria q reached, finderParams more site.path r = .ok params p
      ∧ criteriaOf arg site.path site.node p = .ok criteria q
      ∧ Traced.takeFinder site arg params criteria (recordPairs d r.settings.defaultDbName) [] q
        = .ok (reached, acts) r' := by
  obtain ⟨_, _, hget, h⟩ := bind_ok_iff.mp h
  obtain ⟨rfl, rfl⟩ := get_ok_iff.mp hget
  have hsome : (recordPairs d r.settings.defaultDbName).isEmpty = false := by
    rw [isEmpty_eq_false_iff]
    exact hpairs
  simp only [hsome, harguments, hkey] at h
  obtain ⟨params, p, hparams, h⟩ := bind_ok_iff.mp h
  obtain ⟨criteria, q, hcriteria, h⟩ := bind_ok_iff.mp h
  obtain ⟨⟨reached, found⟩, s, hfinder, h⟩ := bind_ok_iff.mp h
  obtain ⟨rfl, rfl⟩ := pure_ok_iff.mp h
  exact ⟨params, p, criteria, q, reached, hparams, hcriteria, hfinder⟩

/-- **What placeholders do to the taint of a condition.** The text that a finder asks of a table is
warned about exactly when its columns or the table are tainted, or its condition has a mark that
every pass leaves alone. -/
theorem finder_warns_iff (site : Site) (d : ClassDecl) (r : Run) :
    (∀ (params : Catalog String) (condition : String), Placeholders params →
      ((taintOf (applyParams condition params)).isSome = true
        ↔ KeepsMark (passes params) condition.toList))
    ∧ ∀ (arg : Cursor) (more : List Cursor) (r' : Run),
      callArguments site.node = arg :: more →
      r.settings.isPkFinder site.node.nameText = false →
      checkRecord site d r = .ok () r' →
      ∀ before db table after,
        recordPairs d r.settings.defaultDbName = before ++ (db, table) :: after →
        ∃ params p criteria q reached s,
          finderParams more site.path r = .ok params p
          ∧ criteriaOf arg site.path site.node p = .ok criteria q
          ∧ takeFinder site arg params criteria before [] q = .ok reached s
          ∧ ∀ columns condition all text,
            AsksFor arg site.path table params s criteria columns condition all text →
            Placeholders all
            ∧ ((∃ kind, taintOf text = some kind
                  ∧ injectionWarning site kind text ∈ addedWarnings r r')
              ↔ (taintOf columns).isSome = true ∨ (taintOf table).isSome = true
                  ∨ KeepsMark (passes all) condition.toList) := by
  refine ⟨fun params condition h => ?_, ?_⟩
  · rw [taintOf_isSome_iff]
    exact marked_applyParams_iff h condition
  intro arg more r' harguments hkey h before db table after hpairs
  have hrecorded : Recorded (fun _ => True) [] Traced.forget id (Traced.checkRecord site d)
      (checkRecord site d) := recorded_checkRecord
  obtain ⟨acts, htraced, _⟩ := hrecorded.erases.lift_ok h
  obtain ⟨_, rfl, haccount⟩ := hrecorded.accounted r acts r' trivial htraced
  have hne : recordPairs d r.settings.defaultDbName ≠ [] := by
    rw [hpairs]
    simp
  obtain ⟨params, p, criteria, q, reached, hparams, hcriteria, hfinder⟩ :=
    traced_checkRecord_ok harguments hkey hne htraced
  rw [hpairs] at hfinder
  obtain ⟨reached₁, s, texts, t, hbefore, htexts, hacts⟩ := takeFinder_reaches hfinder
  refine ⟨params, p, criteria, q, reached₁, s, hparams, hcriteria, hbefore, ?_⟩
  intro columns condition all text hasks
  have hplaceholders := finderParams_ok hparams
  refine ⟨hasks.placeholders hplaceholders, ?_⟩
  rw [← hasks.tainted_iff hplaceholders, Option.isSome_iff_exists]
  refine exists_congr fun kind => and_iff_left_of_imp fun hkind => ?_
  exact mem_addedWarnings haccount (hacts text (hasks.mem_texts htexts) kind hkind)

/-- A project with one file: a finder with a parameter in its condition, and a placeholder. -/
def finderFile : Disk :=
  ({ base := "/p" } : Disk).write "a.php"
    ("<?php function f($x) \x7b $user->find('id = :id OR id = ' . $x, array(':id' => 1)); " ++
      "\x7d").toUTF8

def userRecord : ClassDecl :=
  { name := "User", parentName := none, file := "a.php", line := 1, tableNames := ["user"] }

theorem keepsMark_parameter :
    KeepsMark (passes ⟨[(":id", "?")]⟩) (trim "id = :id OR id = PARAM::$x").toList := by
  have hpasses : passes ⟨[(":id", "?")]⟩ = [":id".toList] := by decide +kernel
  rw [hpasses]
  refine ⟨"id = :id OR id = ".toList, .param, "$x".toList, by decide +kernel, by decide, ?_⟩
  exact ⟨cut ":id".toList 0 "id = :id OR id = ".toList, cut ":id".toList 0 "$x".toList,
    by decide +kernel, by decide +kernel, trivial⟩

/-- What is seen of a call of the file. -/
def finderSeen (r : Run) (node : Cursor) : Bool :=
  match callArguments node with
  | [] => false
  | arg :: more => !r.settings.isPkFinder node.nameText
    && sees (checkRecord ⟨node, "/p/a.php"⟩ userRecord) r (fun _ _ => true)
    && sees (finderParams more "/p/a.php") r fun params p => params.entries = [(":id", "?")]
      && sees (criteriaOf arg "/p/a.php" node) p fun criteria q => criteria.isNone
        && sees (samples arg "/p/a.php") q fun found _ => found = ["id = :id OR id = PARAM::$x"]

/-- The finder is warned about for its parameter. -/
theorem finder_warns_iff_parameter :
    ∃ site arg more r r', callArguments site.node = arg :: more
      ∧ r.settings.isPkFinder site.node.nameText = false
      ∧ checkRecord site userRecord r = .ok () r'
      ∧ ∃ condition kind text, KeepsMark (passes ⟨[(":id", "?")]⟩) (String.toList condition)
        ∧ taintOf text = some kind ∧ injectionWarning site kind text ∈ addedWarnings r r' := by
  have hseen : sees (Audit.scopesOf "/p/a.php") (Run.start finderFile "/p" {} false false)
      (fun scopes r => scopes.callSites.any fun site => finderSeen r site.1) = true := by
    decide +kernel
  obtain ⟨scopes, r, _, htest⟩ := of_sees hseen
  obtain ⟨⟨node, _⟩, _, htest⟩ := List.any_eq_true.mp htest
  rw [finderSeen] at htest
  split at htest
  · cases htest
  next arg more harguments =>
  simp only [Bool.and_eq_true, Bool.not_eq_true'] at htest
  obtain ⟨⟨hkey, hcheck⟩, htest⟩ := htest
  obtain ⟨_, r', hcheck, _⟩ := of_sees hcheck
  obtain ⟨⟨params⟩, p, hparams, htest⟩ := of_sees htest
  simp only [Bool.and_eq_true, decide_eq_true_eq] at htest
  obtain ⟨rfl, htest⟩ := htest
  obtain ⟨criteria, q, hcriteria, htest⟩ := of_sees htest
  rw [Bool.and_eq_true, Option.isNone_iff_eq_none] at htest
  obtain ⟨rfl, htest⟩ := htest
  obtain ⟨found, v, hfound, htest⟩ := of_sees htest
  obtain rfl := of_decide_eq_true htest
  obtain ⟨params', p', criteria', q', reached, t, hparams', hcriteria', hreached, hasks⟩ :=
    (finder_warns_iff ⟨node, "/p/a.php"⟩ userRecord r).2 arg more r' harguments hkey
      hcheck [] r.settings.defaultDbName "user" [] rfl
  rw [hparams] at hparams'
  cases hparams'
  rw [hcriteria] at hcriteria'
  cases hcriteria'
  obtain ⟨_, rfl⟩ := pure_ok_iff.mp hreached
  have hasked := hasks _ _ _ _ (.condition hfound List.mem_cons_self)
  obtain ⟨kind, hkind, hwarned⟩ := hasked.2.mpr (.inr (.inr keepsMark_parameter))
  exact ⟨⟨node, "/p/a.php"⟩, arg, more, r, r', harguments, hkey, hcheck, _, kind, _,
    keepsMark_parameter, hkind, hwarned⟩

/-- A placeholder that is spelled like the end of a mark takes the mark away. -/
theorem applyParams_launders_const :
    (taintOf "CONST::id").isSome = true
      ∧ Placeholders ⟨[(":id", "?")]⟩
      ∧ (taintOf (applyParams "CONST::id" ⟨[(":id", "?")]⟩)).isSome = false := by
  refine ⟨by decide, ?_, by decide +kernel⟩
  intro p hp
  obtain rfl := List.mem_singleton.mp hp
  exact ⟨rfl, rfl⟩

end QueryAudit.Query
