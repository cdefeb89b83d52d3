/-
  QueryAudit.Proofs.Record.TableIndex — the record classes of each table

  The index of tables turns the mapping from record classes to tables around: its tables are those
  that some class is mapped to, and under a table stand the classes that are mapped to it. A class
  stands there once for every pair of database and table that spells the table. Values of accessors
  are told apart before quotes are taken off, so a class may have one table twice.

  Main results: `mem_names_foldl_alter`, `tableIndex_exact`, `tableIndex_twice`.
-/

import QueryAudit.Analysis
import QueryAudit.Proofs.Catalog

namespace QueryAudit

open Record List

/-! ## Sorting. -/

theorem pairwise_sorted {α : Type} {key : α → String} {items : List α} :
    (items.mergeSort fun a b => !(key b < key a)).Pairwise fun a b => key a ≤ key b := by
  have hle : ∀ a b : String, (!decide (b < a)) = true ↔ a ≤ b := by
    intro a b
    rw [Bool.not_eq_true', decide_eq_false_iff_not]
    rfl
  refine (pairwise_mergeSort (fun a b c hab hbc => ?_) (fun a b => ?_) items).imp
    fun h => (hle _ _).mp h
  · rw [hle] at hab hbc ⊢
    exact String.le_trans hab hbc
  · rw [Bool.or_eq_true, hle, hle]
    exact String.le_total _ _

/-! ## The index before it is sorted. -/

theorem Catalog.mem_names_foldl_alter {β : Type} (name : String) (items : List (String × List β)) :
    ∀ t : Catalog (List β),
      name ∈ (items.foldl (fun t item => t.alter item.1 [] (· ++ item.2)) t).names
        ↔ name ∈ t.names ∨ name ∈ items.map Prod.fst := by
  induction items with
  | nil => simp
  | cons item items ih =>
    intro t
    have hset : (t.alter item.1 [] (· ++ item.2)).names
        = if item.1 ∈ t.names then t.names else t.names ++ [item.1] := names_set _ _
    grind

namespace Findings

variable (f : Findings)

variable {table : String}

/-- The tables with the classes mapped to them, a class for each of its pairs. -/
def mapping : List (String × List String) :=
  f.records.flatMap fun d => (f.tablesOf d).map fun table => (table, [d.name])

def index : Catalog (List String) :=
  f.mapping.foldl (fun t item => t.alter item.1 [] (· ++ item.2)) .empty

theorem tableIndex_eq :
    f.tableIndex = (f.index.entries.mergeSort fun a b => !(b.1 < a.1)).map fun entry =>
      (entry.1, entry.2.mergeSort fun a b => !(b < a)) := by
  have hindex : f.records.foldl (fun index d => (f.tablesOf d).foldl
      (fun index table => index.alter table [] (· ++ [d.name])) index) .empty = f.index := by
    rw [index, mapping, foldl_flatMap]
    simp only [foldl_map]
  rw [tableIndex, hindex]

theorem nodup_names_index : f.index.names.Nodup :=
  Catalog.nodup_names_foldl_alter nodup_nil

theorem mem_names_index : table ∈ f.index.names ↔ ∃ d ∈ f.records, table ∈ f.tablesOf d := by
  rw [index, Catalog.mem_names_foldl_alter, mapping, map_flatMap]
  simp [Catalog.names, Catalog.empty]

/-- Under a table stands a class once for each of its pairs that spell the table. -/
theorem names_index {names : List String} (h : (table, names) ∈ f.index.entries) :
    names = f.records.flatMap fun d => replicate ((f.tablesOf d).count table) d.name := by
  have hnames : f.index.get? table = some names :=
    Catalog.get?_of_mem_entries f.nodup_names_index h
  calc names = (f.index.get? table).getD [] := by rw [hnames, Option.getD_some]
    _ = (f.mapping.filter (·.1 = table)).flatMap Prod.snd :=
      Catalog.getD_foldl_alter .empty
    _ = _ := by
      rw [mapping, filter_flatMap, flatMap_assoc]
      congr 1
      funext d
      induction f.tablesOf d with
      | nil => rfl
      | cons other tables ih =>
        by_cases hother : other = table
        · simp_all [replicate_succ]
        · simp_all

theorem mem_tablesOf {d : ClassDecl} :
    table ∈ f.tablesOf d ↔ ∃ pair ∈ recordPairs d f.defaultDb, table = pair.1 ++ "." ++ pair.2 := by
  simp only [tablesOf, mem_map, eq_comm]

/-- **The index turns the mapping around.** -/
theorem tableIndex_exact :
    (f.tableIndex.map Prod.fst).Pairwise (· < ·)
      ∧ (∀ table, table ∈ f.tableIndex.map Prod.fst ↔
          ∃ d ∈ f.records, ∃ pair ∈ recordPairs d f.defaultDb, table = pair.1 ++ "." ++ pair.2)
      ∧ ∀ entry ∈ f.tableIndex, entry.2.Pairwise (· ≤ ·)
        ∧ entry.2.Perm (f.records.flatMap fun d =>
          replicate ((f.tablesOf d).count entry.1) d.name) := by
  have hkeys : f.tableIndex.map Prod.fst
      = (f.index.entries.mergeSort fun a b => !(b.1 < a.1)).map Prod.fst := by
    rw [tableIndex_eq, map_map]
    rfl
  have hperm : (f.tableIndex.map Prod.fst).Perm f.index.names := by
    rw [hkeys]
    exact (mergeSort_perm _ _).map _
  refine ⟨?_, fun table => ?_, fun entry hentry => ?_⟩
  · -- sorted without repetition is strictly sorted
    have hle : (f.tableIndex.map Prod.fst).Pairwise (· ≤ ·) := by
      rw [hkeys, pairwise_map]
      exact pairwise_sorted
    have hne : (f.tableIndex.map Prod.fst).Pairwise (· ≠ ·) :=
      hperm.nodup_iff.mpr f.nodup_names_index
    exact hle.imp₂ (fun a b hab hne =>
      Decidable.byContradiction fun h => hne (String.le_antisymm hab h)) hne
  · rw [hperm.mem_iff, mem_names_index]
    simp only [mem_tablesOf]
  · rw [tableIndex_eq] at hentry
    obtain ⟨stored, hstored, rfl⟩ := mem_map.mp hentry
    refine ⟨pairwise_sorted, (mergeSort_perm _ _).trans ?_⟩
    rw [← f.names_index (mem_mergeSort.mp hstored)]

/-! ## Two classes of one table, and one class with a table twice. -/

def ofTables (classes : List (String × List String)) : Findings where
  target := "."
  root := "."
  records := classes.map fun (name, tableNames) =>
    { name, parentName := none, file := "a.php", line := 1, tableNames }
  warnings := []
  fileCount := 1
  defaultDb := "db"

theorem tableIndex_of_sorted {f : Findings} {entries : List (String × List String)}
    (hindex : f.index.entries = entries)
    (hkeys : entries.Pairwise fun a b => !(b.1 < a.1))
    (hnames : ∀ entry ∈ entries, entry.2.Pairwise fun a b => !(b < a)) :
    f.tableIndex = entries := by
  have hsame : ∀ entry ∈ entries, (entry.1, entry.2.mergeSort fun a b => !(b < a)) = entry :=
    fun entry hentry => by rw [mergeSort_of_pairwise (hnames entry hentry)]
  rw [tableIndex_eq, hindex, mergeSort_of_pairwise hkeys, map_congr_left hsame, map_id']

theorem tableIndex_exact_shared :
    ("db.user", ["Member", "User"])
        ∈ (ofTables [("Member", ["user"]), ("User", ["user", "vote"])]).tableIndex
      ∧ ["Member", "User"].Pairwise (· ≤ ·) := by
  have hindex : (ofTables [("Member", ["user"]), ("User", ["user", "vote"])]).index.entries
      = [("db.user", ["Member", "User"]), ("db.vote", ["User"])] := by
    decide +kernel
  have hmem : ("db.user", ["Member", "User"])
      ∈ (ofTables [("Member", ["user"]), ("User", ["user", "vote"])]).tableIndex := by
    rw [tableIndex_of_sorted hindex (by decide) (by decide)]
    exact mem_cons_self ..
  exact ⟨hmem, ((tableIndex_exact _).2.2 _ hmem).1⟩

/-- Values of an accessor are told apart before their quotes are taken off. -/
theorem tableIndex_twice :
    (ofTables [("User", (addValues [] ["user", "\x60user\x60"]).map (normalizeTable · ""))]).tableIndex
      = [("db.user", ["User", "User"])] :=
  tableIndex_of_sorted (by decide +kernel) (by decide) (by decide)

end Findings

end QueryAudit
