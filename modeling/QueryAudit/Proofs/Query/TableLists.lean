/-
  QueryAudit.Proofs.Query.TableLists — lists of tables in chained calls

  The list is expanded as a whole and cut at commas, each entry at blanks and at a dot. None of
  these steps gets in the way of another.

  Main results: `listedTables_text`, `command_registers_list`.
-/

import QueryAudit.Proofs.Query.FinderTables

namespace QueryAudit.Query

open Audit Php Record Sample List
open Text

variable {entries : List ListEntry} {site : Site} {before sample : String} {settings : Settings}

/-! ## Entries. -/

/-- An entry of a list of tables: a table, maybe in quotes or between double braces, maybe with a
database before it and an alias behind it. -/
structure ListEntry where
  margin : List Char
  database : Option (Identifier × Option Quotes)
  name : Identifier
  braced : Bool
  quotes : Option Quotes
  behind : List Char
  margin_blank : ∀ c ∈ margin, isBlank c
  database_plain : ∀ d ∈ database, ',' ∉ d.1.chars
  name_plain : ',' ∉ name.chars
  behind_apart : ∀ c ∈ behind.head?, isBlank c
  behind_plain : ',' ∉ behind ∧ '{' ∉ behind ∧ ':' ∉ behind

namespace ListEntry

def written (e : ListEntry) : WrittenName :=
  { name := e.name, braced := e.braced, quotes := e.quotes }

def lead (e : ListEntry) : List Char :=
  match e.database with
  | none => []
  | some (i, quotes) => quoted quotes i.chars ++ ['.']

/-- The first word of an entry, given what is written for its table. -/
def first (e : ListEntry) (core : List Char) : List Char := e.lead ++ quoted e.quotes core

def chars (e : ListEntry) (core : List Char) : List Char := e.margin ++ (e.first core ++ e.behind)

def text (e : ListEntry) : String := String.ofList (e.chars e.written.core)

def expanded (e : ListEntry) (before : String) : String :=
  String.ofList (e.chars (e.written.table before).toList)

/-- The database and the table of an entry, given the database of the chain and the prefix. -/
def pair (e : ListEntry) (db before : String) : String × String :=
  ((e.database.map fun d => String.ofList d.1.chars).getD db, e.written.table before)

end ListEntry

section Entries

variable {before : String} {core cs margin word behind : List Char} {x : Char} (e : ListEntry)

/-- A character that entries may only have behind their table, or between them. -/
def Separate (x : Char) : Prop :=
  isBlank x = false ∧ isNameQuote x = false ∧ x ≠ '.' ∧ (isTableChar x = true → x = ',')

instance : Decidable (Separate x) := inferInstanceAs (Decidable (_ ∧ _))

theorem notMem_quoted {quotes : Option Quotes} (hx : isNameQuote x = false) (h : x ∉ core) :
    x ∉ quoted quotes core :=
  fun hmem => forall_mem_quoted (p := (· ≠ x)) (fun c hc => by rintro rfl; simp [hx] at hc)
    (fun c hc => by rintro rfl; exact h hc) x hmem rfl

theorem Separate.notMem (hx : Separate x) {i : Identifier} (hi : ',' ∉ i.chars) : x ∉ i.chars :=
  fun hmem => hi (hx.2.2.2 (i.plain x hmem) ▸ hmem)

theorem ListEntry.notMem_lead (hx : Separate x) : x ∉ e.lead := by
  rw [lead]
  split
  · exact not_mem_nil
  · next i quotes hd =>
    have hi : ',' ∉ i.chars := e.database_plain _ hd
    simp [notMem_quoted hx.2.1 (hx.notMem hi), hx.2.2.1]

theorem ListEntry.notMem_chars (hx : Separate x) (h : x ∉ core) (hbehind : x ∉ e.behind) :
    x ∉ e.chars core := by
  have hmargin : x ∉ e.margin := fun hmem => by simpa [hx.1] using e.margin_blank x hmem
  simp [chars, first, hmargin, e.notMem_lead hx, notMem_quoted hx.2.1 h, hbehind]

/-- An entry is expanded where it stands. -/
theorem ListEntry.expandFrom_chars (rest : List Char) :
    expandFrom before.toList (e.chars e.written.core ++ rest)
      = e.chars (e.written.table before).toList ++ expandFrom before.toList rest := by
  have hstart : ∀ c ∈ e.margin ++ e.lead, c ≠ '{' := by
    rintro c hc rfl
    rcases mem_append.mp hc with hc | hc
    · exact absurd (e.margin_blank _ hc) (by decide)
    · exact e.notMem_lead (by decide) hc
  have hbehind : ∀ c ∈ e.behind, c ≠ '{' := by
    rintro c hc rfl
    exact e.behind_plain.2.1 hc
  have hexpanded := @expandFrom_append before.toList _ hstart
    (quoted e.written.quotes e.written.core ++ (e.behind ++ rest))
  rw [e.written.expandFrom_quoted, expandFrom_append hbehind] at hexpanded
  simpa only [chars, first, append_assoc, written] using hexpanded

theorem wordsFrom_append (h : ∀ c ∈ cs, isBlank c = false) (rest : List Char) :
    ∀ word, wordsFrom word (cs ++ rest) = wordsFrom (cs.reverse ++ word) rest := by
  induction cs with
  | nil => exact fun _ => rfl
  | cons c cs ih =>
    intro word
    obtain ⟨hc, hcs⟩ := forall_mem_cons.mp h
    rw [cons_append, wordsFrom, hc, if_neg Bool.false_ne_true, ih hcs, reverse_cons, append_assoc]
    rfl

/-- The first word of a text. -/
theorem exists_wordsFrom (hmargin : ∀ c ∈ margin, isBlank c) (hne : word ≠ [])
    (hword : ∀ c ∈ word, isBlank c = false) (hbehind : ∀ c ∈ behind.head?, isBlank c) :
    ∃ more, wordsFrom [] (margin ++ (word ++ behind)) = word :: more := by
  induction margin with
  | nil =>
    have hempty : word.reverse.isEmpty = false := by simpa using hne
    rw [nil_append, wordsFrom_append hword, append_nil]
    cases behind with
    | nil => exact ⟨[], by rw [wordsFrom, hempty, if_neg Bool.false_ne_true, reverse_reverse]⟩
    | cons c behind =>
      refine ⟨wordsFrom [] behind, ?_⟩
      rw [wordsFrom, if_pos (hbehind c rfl), hempty, if_neg Bool.false_ne_true, reverse_reverse]
  | cons c margin ih =>
    obtain ⟨hc, hmargin⟩ := forall_mem_cons.mp hmargin
    rw [cons_append, wordsFrom, if_pos hc]
    exact ih hmargin

theorem decide_ne_of_notMem (h : x ∉ cs) : ∀ c ∈ cs, decide (c ≠ x) = true := by
  rintro c hc
  simpa using fun heq : c = x => h (heq ▸ hc)

theorem cutAt_of_notMem (h : x ∉ cs) : cutAt x (String.ofList cs) = (String.ofList cs, none) := by
  have hdrop := @dropWhile_append_of_pos _ _ _ [] (decide_ne_of_notMem h)
  rw [append_nil, dropWhile_nil] at hdrop
  rw [cutAt, String.toList_ofList]
  simp only [hdrop]

theorem cutAt_append (h : x ∉ cs) (rest : List Char) :
    cutAt x (String.ofList (cs ++ x :: rest)) = (String.ofList cs, some (String.ofList rest)) := by
  have hcs := decide_ne_of_notMem h
  rw [cutAt, String.toList_ofList]
  simp only [dropWhile_append_of_pos hcs, takeWhile_append_of_pos hcs]
  simp

/-- The first word of an entry tells its database and its table, whatever else stands in it. -/
theorem ListEntry.entryTable?_chars (i : Identifier) (db : String) :
    entryTable? db (String.ofList (e.chars i.chars))
      = some ((e.database.map fun d => String.ofList d.1.chars).getD db, String.ofList i.chars) := by
  have hdot : ∀ i : Identifier, '.' ∉ i.chars := fun i hmem => (isTableChar_iff.mp (i.plain _ hmem)).2.2.1 rfl
  have hquoted : ∀ quotes (i : Identifier), ∀ c ∈ quoted quotes i.chars, isBlank c = false := fun quotes i =>
    forall_mem_quoted (fun c hc => (of_isNameQuote hc).1) fun c hc => (isTableChar_iff.mp (i.plain c hc)).1
  have hblank : ∀ c ∈ e.first i.chars, isBlank c = false := by
    refine forall_mem_append.mpr ⟨?_, hquoted _ i⟩
    rw [lead]
    split
    · exact fun c hc => absurd hc not_mem_nil
    · exact forall_mem_append.mpr ⟨hquoted _ _, forall_mem_singleton.mpr (by decide)⟩
  have hne : e.first i.chars ≠ [] := by
    refine append_ne_nil_of_right_ne_nil _ ?_
    cases e.quotes with
    | none => exact i.ne
    | some q => exact cons_ne_nil _ _
  obtain ⟨more, hwords⟩ := exists_wordsFrom e.margin_blank hne hblank e.behind_apart
  rw [entryTable?, words, String.toList_ofList, chars, hwords, map_cons]
  dsimp only
  rw [first, lead]
  cases e.database with
  | none =>
    rw [nil_append, cutAt_of_notMem (notMem_quoted (by decide) (hdot i))]
    dsimp only
    rw [normalizeTable_quoted]
    rfl
  | some d =>
    dsimp only
    rw [append_assoc, singleton_append, cutAt_append (notMem_quoted (by decide) (hdot d.1))]
    dsimp only
    rw [normalizeTable_quoted, normalizeTable_quoted]
    rfl

end Entries

theorem expandFrom_list :
    expandFrom before.toList (joinWith "," (entries.map ListEntry.text)).toList
      = (joinWith "," (entries.map (·.expanded before))).toList := by
  have hcomma : "," = String.singleton ',' := rfl
  induction entries with
  | nil => simp [joinWith, expandFrom]
  | cons e entries ih =>
    have hchars := @ListEntry.expandFrom_chars before e
    cases entries with
    | nil =>
      have hchars := hchars []
      rw [append_nil, expandFrom, append_nil] at hchars
      simpa [joinWith, ListEntry.text, ListEntry.expanded] using hchars
    | cons next entries =>
      rw [hcomma, map_cons, map_cons] at ih ⊢
      rw [map_cons, map_cons, toList_joinWith, toList_joinWith, ListEntry.text, String.toList_ofList,
        ListEntry.expanded, String.toList_ofList, hchars, ← ih]
      exact congrArg _ (@expandFrom_append before.toList [','] (forall_mem_singleton.mpr (by decide)) _)

/-- **A list of tables is read back.** -/
theorem listedTables_text (hne : entries ≠ []) (hbefore : IsPlain before.toList)
    (hcomma : ',' ∉ before.toList) (db : String) :
    listedTables db (joinWith "," (entries.map ListEntry.text)) before
      = entries.map fun e => e.pair db before := by
  have hexpanded : ∀ e : ListEntry, ',' ∉ (e.expanded before).toList
      ∧ entryTable? db (e.expanded before) = some (e.pair db before) := by
    intro e
    have htable : ',' ∉ (e.written.table before).toList := by
      rw [WrittenName.table, String.toList_ofList, mem_append, not_or]
      refine ⟨?_, e.name_plain⟩
      split
      · exact hcomma
      · exact not_mem_nil
    rw [ListEntry.expanded, String.toList_ofList]
    refine ⟨e.notMem_chars (by decide) htable e.behind_plain.1, ?_⟩
    simpa [WrittenName.own, ListEntry.pair] using e.entryTable?_chars (e.written.own hbefore) db
  have hsplit := @splitAt_joinWith ',' (entries.map (·.expanded before)) (by simpa using hne)
    (by simpa using fun e _ => (hexpanded e).1)
  rw [listedTables, expandTablePrefix, expandFrom_list, String.ofList_toList,
    show "," = String.singleton ',' from rfl, hsplit, filterMap_map, ← filterMap_eq_map]
  exact filterMap_congr fun e _ => (hexpanded e).2

/-! ## What a call registers. -/

/-- The file of a call is there, and findings are still taken. -/
structure Standing (settings : Settings) (site : Site) (r : Run) : Prop where
  same : r.settings = settings
  undrained : r.diagnostics.drained = false
  file : r.disk.isFile (r.disk.resolve site.path) = true

theorem Standing.keeps {r s : Run} (h : Standing settings site r) (hs : SameFindings r s) :
    Standing settings site s :=
  ⟨hs.settings.trans h.same, hs.drained.trans h.undrained, by rw [hs.disk]; exact h.file⟩

theorem registering_standing : site.Registering (Standing settings site) where
  undrained h := h.undrained
  above {r} h := by
    obtain ⟨source, s, hsource⟩ : ∃ source s, Audit.source site.path r = .ok source s := by
      rw [Audit.source, bind_of_ok run_get]
      cases r.sources.get? (r.disk.resolve site.path) with
      | some known => exact ⟨_, _, rfl⟩
      | none =>
        dsimp only
        rw [if_pos h.file]
        exact ⟨_, _, rfl⟩
    have habove : Audit.above site.path site.node r = .ok _ s := bind_of_ok hsource
    have hkeeps : SameFindings r s := keeps_above.of_ok habove
    exact ⟨_, s, habove, h.keeps hkeeps, hkeeps.references⟩
  added _ h := ⟨h.same, h.undrained, h.file⟩

theorem registers_addListed {I : Run → Prop} (hI : site.Registering I)
    {pairs : List (String × String)} : Registers I (addListed site sample pairs) pairs := by
  induction pairs with
  | nil => exact registers_pure
  | cons pair pairs ih => exact registers_bind (registers_addReference hI _ _ _) ih

theorem notMem_joinWith {x separator : Char} (hx : x ≠ separator) {texts : List String}
    (h : ∀ t ∈ texts, x ∉ t.toList) : x ∉ (joinWith (String.singleton separator) texts).toList := by
  induction texts with
  | nil => simp [joinWith]
  | cons text texts ih =>
    obtain ⟨htext, h⟩ := forall_mem_cons.mp h
    cases texts with
    | nil => simpa [joinWith] using htext
    | cons next texts => simp [toList_joinWith, htext, hx, ih h]

theorem taintOf_list : taintOf (joinWith "," (entries.map ListEntry.text)) = none := by
  refine taintOf_eq_none (@notMem_joinWith ':' ',' (by decide) _ fun t ht => ?_)
  obtain ⟨e, _, rfl⟩ := mem_map.mp ht
  have hcolon : Separate ':' := by decide
  have hcore : ∀ c ∈ e.written.core, c ≠ ':' := e.written.forall_mem_core (by decide) (by decide) fun c hc => by
    rintro rfl
    exact hcolon.notMem e.name_plain hc
  rw [ListEntry.text, String.toList_ofList]
  exact e.notMem_chars hcolon (fun hc => hcore _ hc rfl) e.behind_plain.2.2

/-- **The tables that a chained call names are registered**, in order and each once, under the
database that qualifies them or that of the chain. -/
theorem command_registers_list {site : Site} {r s t u : Run} {db : String} {nodes : List Cursor}
    {call arg : Cursor} {entries : List ListEntry} (hne : entries ≠ [])
    (hbefore : IsPlain r.settings.tablePrefix.toList) (hcomma : ',' ∉ r.settings.tablePrefix.toList)
    (hfile : r.disk.isFile (r.disk.resolve site.path) = true) (hopen : r.diagnostics.drained = false)
    (hcommand : firstArgument? site.node = none) (hdb : databaseName site r = .ok db s)
    (habove : Audit.above site.path site.node s = .ok nodes t)
    (hcall : namingCall? r.settings site.node nodes = some call) (harg : firstArgument? call = some arg)
    (hlist : listSamples arg site.path t = .ok [joinWith "," (entries.map ListEntry.text)] u) :
    ∃ r', checkCommand site r = .ok () r'
      ∧ pairsOf (newReferences r r')
        = (entries.map fun e => e.pair db r.settings.tablePrefix).eraseDups := by
  have hs := keeps_databaseName.of_ok hdb
  have ht := trans_of SameFindings hs (keeps_above.of_ok habove)
  have hu := trans_of SameFindings ht (keeps_listSamples.of_ok hlist)
  have hstanding := (Standing.mk rfl hopen hfile : Standing r.settings site r).keeps hu
  obtain ⟨added, r', hadd, _, hreferences, hafter⟩ := registers_addListed
    registering_standing u [] hstanding
  refine ⟨r', ?_, ?_⟩
  · rw [checkCommand, bind_of_ok hdb, hcommand]
    show checkChain site db s = _
    rw [checkChain, bind_of_ok run_get, hs.settings]
    dsimp only
    rw [bind_of_ok habove, hcall]
    dsimp only
    rw [harg]
    dsimp only
    have htake : takeLists site ⟨call, site.path⟩ db [joinWith "," (entries.map ListEntry.text)] [] u
        = .ok ([] ++ pairsOf added) r' := by
      rw [takeLists, taintOf_list]
      dsimp only
      rw [bind_of_ok run_get, hu.settings, listedTables_text hne hbefore hcomma, bind_of_ok hadd]
      rfl
    rw [bind_of_ok hlist, bind_of_ok htake]
    rfl
  · rw [newReferences, hreferences, hu.references, drop_left, ← foldl_eq_eraseDups]
    exact hafter

/-- Three entries: one with an alias, one with its database, and the first table once more. -/
def threeEntries : List ListEntry :=
  [⟨[], none, userName, true, none, " u".toList,
      all_eq_true.mp rfl, by decide, by decide, Option.all_eq_true _ _ |>.mp rfl, by decide⟩,
   ⟨[' '], some (identifier "shop" (by decide) (by decide), some backquotes),
      identifier "item" (by decide) (by decide), false, none, " AS i".toList,
      all_eq_true.mp rfl, by decide, by decide, Option.all_eq_true _ _ |>.mp rfl, by decide⟩,
   ⟨[], none, userName, true, some backquotes, [],
      all_eq_true.mp rfl, by decide, by decide, Option.all_eq_true _ _ |>.mp rfl, by decide⟩]

def threeListed : String := "\x7b\x7buser\x7d\x7d u, \x60shop\x60.item AS i,\x60\x7b\x7buser\x7d\x7d\x60"

def listFile : Disk :=
  ({ base := "/p" } : Disk).write "a.php"
    ("<?php Yii::app()->db->createCommand()->from('" ++ threeListed ++ "');").toUTF8

/-- What is seen of a command of the file and of the call that names its tables. -/
def listSeen (r : Run) (node : Cursor) : Bool :=
  (firstArgument? node).isNone && sees (databaseName ⟨node, "/p/a.php"⟩) r fun db s =>
    db = "db" && sees (above "/p/a.php" node) s fun nodes t =>
      (namingCall? prefixed node nodes).any fun call => (firstArgument? call).any fun arg =>
        sees (listSamples arg "/p/a.php") t fun texts _ => texts = [threeListed]

/-- Two tables are registered, the one that is listed twice only once. -/
theorem command_registers_list_three :
    ∃ site r r', firstArgument? site.node = none ∧ checkCommand site r = .ok () r'
      ∧ pairsOf (newReferences r r') = [("db", "t_user"), ("shop", "item")] := by
  have hseen : sees (Audit.scopesOf "/p/a.php") (Run.start listFile "/p" prefixed false false)
      (fun scopes r => !r.diagnostics.drained && r.disk.isFile (r.disk.resolve "/p/a.php")
        && scopes.callSites.any fun site => listSeen r site.1) = true := by
    decide +kernel
  obtain ⟨scopes, r, hok, htest⟩ := of_sees hseen
  have hsettings : r.settings = prefixed := (keeps_scopesOf.of_ok hok : SameFindings _ _).settings
  simp only [Bool.and_eq_true, Bool.not_eq_true', any_eq_true, listSeen, Option.isNone_iff_eq_none] at htest
  obtain ⟨⟨hopen, hfile⟩, ⟨node, _⟩, _, hcommand, htest⟩ := htest
  obtain ⟨db, s, hdb, htest⟩ := of_sees htest
  simp only [Bool.and_eq_true, decide_eq_true_eq] at htest
  obtain ⟨rfl, htest⟩ := htest
  obtain ⟨nodes, t, habove, htest⟩ := of_sees htest
  obtain ⟨call, hcall, htest⟩ := (Option.any_eq_true _ _).mp htest
  obtain ⟨arg, harg, htest⟩ := (Option.any_eq_true _ _).mp htest
  obtain ⟨texts, u, hlist, htest⟩ := of_sees htest
  have htexts : texts = [joinWith "," (threeEntries.map ListEntry.text)] := of_decide_eq_true htest
  rw [htexts] at hlist
  have hregisters := @command_registers_list ⟨node, "/p/a.php"⟩ r s t u "db" nodes call arg threeEntries
    (by decide)
  rw [hsettings] at hregisters
  obtain ⟨r', hrun, hpairs⟩ := hregisters (all_eq_true.mp (by decide)) (by decide) hfile hopen hcommand
    hdb habove hcall harg hlist
  exact ⟨_, r, r', hcommand, hrun, hpairs.trans (by decide)⟩

end QueryAudit.Query
