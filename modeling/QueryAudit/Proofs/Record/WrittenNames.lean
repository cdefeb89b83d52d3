/-
  QueryAudit.Proofs.Record.WrittenNames — forms of table names

  An accessor of a record class may write a table name with quotes around its identifiers, with its
  database before it, and with the table between double braces, which stand for a prefix. All these
  forms are normalised to one spelling: the identifiers with a dot between them.

  Main results: `expandFrom_braced`, `normalizeTable_text`.
-/

import QueryAudit.Proofs.Php.Escape
import QueryAudit.Proofs.Text.Pieces
import QueryAudit.Record.TableName
import QueryAudit.Sql.Statement

namespace QueryAudit.Record

open Php Text List

variable {before cs : List Char} {p : Char → Prop} {quotes : Option Quotes} {c : Char}

/-! ## Written names. -/

def isTableChar (c : Char) : Bool :=
  !isBlank c && !isNameQuote c && !(['.', '{', '}', '%', ':'].contains c)

def IsPlain (cs : List Char) : Prop := ∀ c ∈ cs, isTableChar c = true

structure Identifier where
  chars : List Char
  ne : chars ≠ []
  plain : IsPlain chars

/-- Characters that may stand on both sides of an identifier. -/
structure Quotes where
  first : Char
  last : Char
  first_quote : isNameQuote first = true
  last_quote : isNameQuote last = true

/-- A table name as an accessor writes it: an identifier, maybe between double braces, maybe with a
database before it, and maybe with quotes around the identifiers. -/
structure WrittenName where
  database : Option Identifier := none
  name : Identifier
  braced : Bool := false
  quotes : Option Quotes := none

def quoted (quotes : Option Quotes) (cs : List Char) : List Char :=
  match quotes with
  | none => cs
  | some q => q.first :: (cs ++ [q.last])

namespace WrittenName

def core (w : WrittenName) : List Char :=
  if w.braced then '{' :: '{' :: (w.name.chars ++ ['}', '}']) else w.name.chars

/-- What stands before the table, given how an identifier is written. -/
def lead (w : WrittenName) (write : List Char → List Char) : List Char :=
  match w.database with
  | none => []
  | some a => write a.chars ++ ['.']

def text (w : WrittenName) : String :=
  String.ofList (w.lead (quoted w.quotes) ++ quoted w.quotes w.core)

def table (w : WrittenName) (before : String) : String :=
  String.ofList ((if w.braced then before.toList else []) ++ w.name.chars)

def spelled (w : WrittenName) (before : String) : String :=
  String.ofList (w.lead id ++ (w.table before).toList)

def source (w : WrittenName) (before : String) : Sql.TableName :=
  ⟨w.database.map fun a => String.ofList a.chars, w.table before⟩

end WrittenName

theorem isTableChar_iff : isTableChar c = true ↔
    isBlank c = false ∧ isNameQuote c = false ∧ c ≠ '.' ∧ c ≠ '{' ∧ c ≠ '}' ∧ c ≠ '%' ∧ c ≠ ':' := by
  simp [isTableChar, and_assoc]

theorem expandFrom_append (h : ∀ c ∈ cs, c ≠ '{') (rest : List Char) :
    expandFrom before (cs ++ rest) = cs ++ expandFrom before rest := by
  induction cs with
  | nil => rfl
  | cons c cs ih =>
    obtain ⟨hc, hcs⟩ := forall_mem_cons.mp h
    have hnone : bracedName? (c :: (cs ++ rest)) = none := by
      rw [bracedName?]
      intro rest' heq
      exact hc (cons.inj heq).1
    rw [cons_append, expandFrom, hnone, ih hcs]
    rfl

/-- An identifier between double braces is replaced by the prefix and the identifier. -/
theorem expandFrom_braced {name : Identifier} {rest : List Char} :
    expandFrom before ('{' :: '{' :: (name.chars ++ '}' :: '}' :: rest))
      = before ++ name.chars ++ expandFrom before rest := by
  have hplain := fun c hc => isTableChar_iff.mp (name.plain c hc)
  have hrun : (name.chars ++ '}' :: '}' :: rest).takeWhile (fun c => c ≠ '{' && c ≠ '}')
      = name.chars := by
    rw [takeWhile_append_of_pos]
    · simp
    · intro c hc
      simp [(hplain c hc).2.2.2.1, (hplain c hc).2.2.2.2.1]
  have hname : bracedName? ('{' :: '{' :: (name.chars ++ '}' :: '}' :: rest))
      = some (name.chars, name.chars.length + 4) := by
    have hne : name.chars.isEmpty = false := by simpa using name.ne
    simp only [bracedName?, hrun, hne, drop_left, take_succ_cons, take_zero,
      ne_eq, not_true_eq_false, decide_false, Bool.or_self, Bool.false_eq_true, if_false]
    split
    · next c more heq =>
      exact absurd rfl (hplain '%' (heq ▸ mem_cons_self)).2.2.2.2.2.1
    · rfl
  have hdrop : ('{' :: (name.chars ++ '}' :: '}' :: rest)).drop (name.chars.length + 4 - 1) = rest := by
    rw [show name.chars.length + 4 - 1 = name.chars.length + 2 + 1 by omega, drop_succ_cons,
      ← drop_drop, drop_left]
    rfl
  rw [expandFrom, hname]
  simp only [hdrop, trimList_of_forall fun c hc => (hplain c hc).1]

theorem of_isNameQuote (h : isNameQuote c = true) : isBlank c = false ∧ c ≠ '.' ∧ c ≠ '{' := by
  have hall : ['\x60', '"', '\'', '[', ']'].all
      (fun q => !isBlank q && q != '.' && q != '{') = true := by decide
  simpa [and_assoc] using List.all_eq_true.mp hall c (List.contains_iff_mem.mp h)

theorem forall_mem_quoted
    (hp : ∀ c, isNameQuote c = true → p c) (h : ∀ c ∈ cs, p c) : ∀ c ∈ quoted quotes cs, p c := by
  cases quotes with
  | none => exact h
  | some q =>
    refine List.forall_mem_cons.mpr ⟨hp _ q.first_quote, List.forall_mem_append.mpr ⟨h, ?_⟩⟩
    exact List.forall_mem_singleton.mpr (hp _ q.last_quote)

theorem trimList_quoted (hne : cs ≠ [])
    (h : ∀ c ∈ cs, isNameQuote c = false) : trimList isNameQuote (quoted quotes cs) = cs := by
  cases quotes with
  | none => exact trimList_of_forall h
  | some q =>
    obtain ⟨c, cs, rfl⟩ := List.exists_cons_of_ne_nil hne
    have hreverse := dropWhile_of_forall fun x hx => h x (List.mem_reverse.mp hx)
    rw [trimList, quoted, List.dropWhile_cons_of_pos q.first_quote, List.cons_append,
      List.dropWhile_cons_of_neg (by simp [h c List.mem_cons_self]), ← List.cons_append,
      List.reverse_append, List.reverse_singleton, List.singleton_append,
      List.dropWhile_cons_of_pos q.last_quote, hreverse, List.reverse_reverse]

/-- Quotes around the segments of a name are taken off. -/
theorem normalize_segments {segments : List Identifier} (hne : segments ≠ []) :
    (splitAt '.' (joinWith "." (segments.map fun i => String.ofList (quoted quotes i.chars)))).map
        (fun segment => trimBoth isNameQuote (trim segment))
      = segments.map fun i => String.ofList i.chars := by
  have hplain := fun (i : Identifier) c hc => isTableChar_iff.mp (i.plain c hc)
  have hsplit := @splitAt_joinWith '.' (segments.map fun i => String.ofList (quoted quotes i.chars))
    (by simpa using hne) (by
      intro text htext
      obtain ⟨i, -, rfl⟩ := List.mem_map.mp htext
      rw [String.toList_ofList]
      intro hmem
      exact forall_mem_quoted (p := (· ≠ '.')) (fun c hc => (of_isNameQuote hc).2.1)
        (fun c hc => (hplain i c hc).2.2.1) '.' hmem rfl)
  rw [show "." = String.singleton '.' from rfl, hsplit, List.map_map]
  refine List.map_congr_left fun i _ => ?_
  have hblank : ∀ c ∈ quoted quotes i.chars, isBlank c = false :=
    forall_mem_quoted (fun c hc => (of_isNameQuote hc).1) fun c hc => (hplain i c hc).1
  simp only [Function.comp_apply, trim, trimBoth, String.toList_ofList, trimList_of_forall hblank,
    trimList_quoted i.ne fun c hc => (hplain i c hc).2.1]

section Written

variable {before : String} (w : WrittenName)

theorem WrittenName.plain_table (hbefore : IsPlain before.toList) : IsPlain (w.table before).toList := by
  rw [table, String.toList_ofList]
  refine List.forall_mem_append.mpr ⟨?_, w.name.plain⟩
  split
  · exact hbefore
  · exact fun c hc => absurd hc List.not_mem_nil

def WrittenName.own (hbefore : IsPlain before.toList) : Identifier where
  chars := (w.table before).toList
  ne := by
    rw [table, String.toList_ofList]
    exact List.append_ne_nil_of_right_ne_nil _ w.name.ne
  plain := w.plain_table hbefore

theorem WrittenName.forall_mem_core (hopen : p '{') (hclose : p '}')
    (h : ∀ c ∈ w.name.chars, p c) : ∀ c ∈ w.core, p c := by
  rw [core]
  split
  · simpa [hopen, hclose, or_imp, forall_and] using h
  · exact h

theorem WrittenName.forall_mem_lead (hdot : p '.')
    (hquote : ∀ c, isNameQuote c = true → p c) (h : ∀ c, isTableChar c = true → p c) :
    ∀ c ∈ w.lead (quoted w.quotes), p c := by
  rw [lead]
  split
  · exact fun c hc => absurd hc List.not_mem_nil
  · next a _ =>
    refine List.forall_mem_append.mpr ⟨?_, List.forall_mem_singleton.mpr hdot⟩
    exact forall_mem_quoted hquote fun c hc => h c (a.plain c hc)

theorem WrittenName.expandFrom_core (rest : List Char) :
    expandFrom before.toList (w.core ++ rest)
      = (w.table before).toList ++ expandFrom before.toList rest := by
  rw [core, table]
  cases w.braced with
  | true => simpa using expandFrom_braced
  | false =>
    have hplain : ∀ c ∈ w.name.chars, c ≠ '{' := fun c hc => (isTableChar_iff.mp (w.name.plain c hc)).2.2.2.1
    simp [expandFrom_append hplain]

theorem WrittenName.expandFrom_quoted (rest : List Char) :
    expandFrom before.toList (quoted w.quotes w.core ++ rest)
      = quoted w.quotes (w.table before).toList ++ expandFrom before.toList rest := by
  cases w.quotes with
  | none => exact w.expandFrom_core rest
  | some q =>
    have hclose : ∀ c ∈ [q.last], c ≠ '{' := by simpa using (of_isNameQuote q.last_quote).2.2
    have hopen : ∀ c ∈ [q.first], c ≠ '{' := by simpa using (of_isNameQuote q.first_quote).2.2
    have happend := @expandFrom_append before.toList _ hopen (w.core ++ ([q.last] ++ rest))
    rw [w.expandFrom_core, expandFrom_append hclose] at happend
    simpa [quoted] using happend

theorem WrittenName.joinWith_segments (write : List Char → List Char) (own : Identifier) :
    joinWith "." ((w.database.toList ++ [own]).map fun i => String.ofList (write i.chars))
      = String.ofList (w.lead write ++ write own.chars) := by
  rw [lead]
  cases w.database <;> simp [joinWith, ← String.toList_inj]

/-- Every written form of a name is normalised to the name itself. -/
theorem normalizeTable_text (hbefore : IsPlain before.toList) :
    normalizeTable w.text before = w.spelled before := by
  have hbraces : isBlank '{' = false ∧ isBlank '}' = false ∧ isBlank '.' = false := by decide
  have hblank : ∀ c ∈ w.lead (quoted w.quotes) ++ quoted w.quotes w.core, isBlank c = false := by
    refine List.forall_mem_append.mpr ⟨?_, ?_⟩
    · exact w.forall_mem_lead hbraces.2.2 (fun c hc => (of_isNameQuote hc).1)
        fun c hc => (isTableChar_iff.mp hc).1
    · exact forall_mem_quoted (fun c hc => (of_isNameQuote hc).1) (w.forall_mem_core hbraces.1 hbraces.2.1
        fun c hc => (isTableChar_iff.mp (w.name.plain c hc)).1)
  have hlead : ∀ c ∈ w.lead (quoted w.quotes), c ≠ '{' := w.forall_mem_lead (by decide)
    (fun c hc => (of_isNameQuote hc).2.2) fun c hc => (isTableChar_iff.mp hc).2.2.2.1
  have hquoted := @WrittenName.expandFrom_quoted before w []
  rw [append_nil, expandFrom, append_nil] at hquoted
  have hwritten : expandTablePrefix (trim w.text) before = joinWith "."
      ((w.database.toList ++ [w.own hbefore]).map fun i => String.ofList (quoted w.quotes i.chars)) := by
    simp only [w.joinWith_segments, expandTablePrefix, trim, trimBoth, WrittenName.text,
      String.toList_ofList, trimList_of_forall hblank, expandFrom_append hlead, hquoted]
    rfl
  rw [normalizeTable, hwritten, normalize_segments (by simp)]
  exact w.joinWith_segments id (w.own hbefore)

theorem normalizeTable_quoted (quotes : Option Quotes) (i : Identifier) :
    normalizeTable (String.ofList (quoted quotes i.chars)) "" = String.ofList i.chars := by
  have hplain := @normalizeTable_text "" { name := i, quotes } fun c hc => absurd hc not_mem_nil
  simpa [WrittenName.text, WrittenName.spelled, WrittenName.table, WrittenName.core,
    WrittenName.lead] using hplain

theorem WrittenName.normalize_table (hbefore : IsPlain before.toList) :
    normalizeTable (w.table before) "" = w.table before := by
  simpa [quoted, own] using normalizeTable_quoted none (w.own hbefore)

theorem WrittenName.database_eq_none {other : WrittenName} (hbefore : IsPlain before.toList)
    (h : w.spelled before = other.table before) : w.database = none := by
  cases hdatabase : w.database with
  | none => rfl
  | some a =>
    have hdot : '.' ∈ (other.table before).toList := by
      rw [← h, spelled, lead, hdatabase]
      simp
    exact absurd rfl (isTableChar_iff.mp (other.plain_table hbefore '.' hdot)).2.2.1

end Written

end QueryAudit.Record
