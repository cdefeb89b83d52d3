/-
  QueryAudit.Proofs.Sql.VisibleTables — which tables of a statement are found

  A place knows the WITH expressions that come earlier in its scope and those in whose bodies it
  stands: the search hides the names of both, while only the first are to be hidden.

  Main results: `Statement.tells`, `tables_exact`, `tables_without_own_names`.
-/

import QueryAudit.Proofs.Text.Pieces
import QueryAudit.Sql.Statement

namespace QueryAudit.Sql

open Text List

variable {scope : List Expression}

/-! ## Places. -/

/-- An expression of a WITH clause, as seen from its own body or from behind it. -/
structure Expression where
  name : String
  isOwn : Bool

/-- The expressions behind a WITH clause. -/
def behind (scope : List Expression) : List Definition → List Expression
  | [] => scope
  | .named name _ :: rest => behind (⟨name, false⟩ :: scope) rest

/-- A source that is not a derived table or, without one, a statement of another kind. -/
structure Place where
  scope : List Expression
  source : Option Source

mutual

/-- The places of a statement. Of an INSERT the query counts when it is a SELECT or a UNION. -/
def Statement.places (scope : List Expression) : Statement → List Place
  | .select sources => placesAll scope sources
  | .combined _ left right => left.places scope ++ right.places scope
  | .wrapped inner => inner.places scope
  | .binding _ definitions body =>
    placesOfBodies scope definitions ++ body.places (behind scope definitions)
  | .change kind target query sources =>
    target.places scope
      ++ (match query with
        | some q => if kind = .insert && q.feedsInsert then q.places scope else []
        | none => [])
      ++ placesAll scope sources
  | .other _ => [⟨scope, none⟩]

def Source.places (scope : List Expression) : Source → List Place
  | .derived query => query.places scope
  | source => [⟨scope, some source⟩]

def placesAll (scope : List Expression) : List Source → List Place
  | [] => []
  | source :: rest => source.places scope ++ placesAll scope rest

def placesOfBodies (scope : List Expression) : List Definition → List Place
  | [] => []
  | .named name body :: rest =>
    body.places (⟨name, true⟩ :: scope) ++ placesOfBodies (⟨name, false⟩ :: scope) rest

end

/-- There is no table with a name. -/
def Place.fails (p : Place) : Bool :=
  match p.source with
  | some (.table _ name) => name.isEmpty
  | _ => true

/-- The names of expressions, ignoring case. -/
def names (scope : List Expression) : List String := scope.map (lower ·.name)

/-- An earlier expression goes by a name. -/
def hides (scope : List Expression) (name : String) : Bool :=
  (names (scope.filter (!·.isOwn))).contains (lower name)

/-- The table of a source that is qualified or goes by the name of no earlier expression in scope. -/
def Place.table? (p : Place) : Option TableName :=
  match p.source with
  | some (.table database name) =>
    if database.isSome || !hides p.scope name then some ⟨database, name⟩ else none
  | _ => none

/-- An unqualified source goes by the name of expressions, but only of such as it stands in. -/
def Place.usesOwnName (p : Place) : Bool :=
  match p.source with
  | some (.table none name) => (names p.scope).contains (lower name) && !hides p.scope name
  | _ => false

/-- The tables of the places that do not use their own name. -/
def tablesAt (places : List Place) : List TableName :=
  (places.filter (!·.usesOwnName)).filterMap Place.table?

def Statement.visible (s : Statement) : List TableName := (s.places []).filterMap Place.table?

/-! ## The search. -/

/-- A search through some places stops at one that fails, and otherwise finds their tables in order,
except where one uses its own name. -/
def Tells (places : List Place) : Except Issue (List TableName) → Prop
  | .error _ => ∃ p ∈ places, p.fails
  | .ok found => (∀ p ∈ places, p.fails = false) ∧ found = tablesAt places

theorem tells_nil : Tells [] (pure []) := ⟨nofun, rfl⟩

section Combining

variable {places others more : List Place} {first second third : Except Issue (List TableName)}

theorem Tells.append (hfirst : Tells places first) (hsecond : Tells others second) :
    Tells (places ++ others) (do return (← first) ++ (← second)) := by
  cases first with
  | error issue =>
    obtain ⟨p, hp, hfails⟩ := hfirst
    exact ⟨p, mem_append_left _ hp, hfails⟩
  | ok found =>
    cases second with
    | error issue =>
      obtain ⟨p, hp, hfails⟩ := hsecond
      exact ⟨p, mem_append_right _ hp, hfails⟩
    | ok found' =>
      refine ⟨forall_mem_append.mpr ⟨hfirst.1, hsecond.1⟩, ?_⟩
      rw [tablesAt, filter_append, filterMap_append, hfirst.2, hsecond.2]
      rfl

theorem Tells.append_three (hfirst : Tells places first) (hsecond : Tells others second)
    (hthird : Tells more third) :
    Tells (places ++ others ++ more) (do
      let found ← first
      let found' ← second
      return found ++ found' ++ (← third)) := by
  simpa only [bind_assoc, pure_bind] using (hfirst.append hsecond).append hthird

end Combining

theorem names_cons {e : Expression} : names (e :: scope) = lower e.name :: names scope := rfl

theorem mem_names_of_hides {scope : List Expression} {name : String} (h : hides scope name = true) :
    lower name ∈ names scope :=
  map_subset _ filter_sublist.subset (contains_iff_mem.mp h)

theorem tells_table {database : Option String} {name : String} :
    Tells [⟨scope, some (.table database name)⟩] (visibleTable (names scope) database name) := by
  unfold visibleTable
  split_ifs with hempty hhides
  · exact ⟨_, mem_singleton_self _, hempty⟩
  all_goals
    refine ⟨forall_mem_singleton.mpr (Bool.eq_false_iff.mpr hempty), ?_⟩
    have hnames := @mem_names_of_hides scope name
    cases database <;> cases hhides : hides scope name <;>
      simp_all [tablesAt, Place.usesOwnName, Place.table?]

mutual

/-- **The search tells the tables of the places.** -/
theorem Statement.tells (scope : List Expression) :
    ∀ s : Statement, Tells (s.places scope) (s.reached (names scope))
  | .select sources => tells_all scope sources
  | .combined _ left right => (left.tells scope).append (right.tells scope)
  | .wrapped inner => inner.tells scope
  | .binding _ definitions body => by
    obtain ⟨hbodies, hnames⟩ := tells_bodies scope definitions
    rw [Statement.places, Statement.reached]
    cases hfound : reachedDefinitions (names scope) definitions with
    | error issue =>
      rw [hfound] at hbodies
      obtain ⟨p, hp, hfails⟩ := hbodies
      exact ⟨p, mem_append_left _ hp, hfails⟩
    | ok found =>
      rw [hfound] at hbodies
      have hbody := body.tells (behind scope definitions)
      rw [← hnames found hfound] at hbody
      exact hbodies.append hbody
  | .change _ target none sources =>
    (target.tells scope).append_three tells_nil (tells_all scope sources)
  | .change kind target (some q) sources => by
    simp only [Statement.places, Statement.reached]
    cases kind = .insert && q.feedsInsert with
    | true => exact (target.tells scope).append_three (q.tells scope) (tells_all scope sources)
    | false => exact (target.tells scope).append_three tells_nil (tells_all scope sources)
  | .other _ => ⟨_, mem_singleton_self _, rfl⟩

theorem Source.tells (scope : List Expression) :
    ∀ s : Source, Tells (s.places scope) (s.reached (names scope))
  | .table database name => tells_table
  | .derived query => query.tells scope
  | .other _ | .missing => ⟨_, mem_singleton_self _, rfl⟩

theorem tells_all (scope : List Expression) :
    ∀ sources : List Source, Tells (placesAll scope sources) (reachedAll (names scope) sources)
  | [] => tells_nil
  | source :: rest => (source.tells scope).append (tells_all scope rest)

theorem tells_bodies (scope : List Expression) : ∀ definitions : List Definition,
    Tells (placesOfBodies scope definitions)
        ((reachedDefinitions (names scope) definitions).map Prod.snd)
      ∧ ∀ found, reachedDefinitions (names scope) definitions = .ok found →
        found.1 = names (behind scope definitions)
  | [] => ⟨tells_nil, by rintro _ ⟨⟩; rfl⟩
  | .named name body :: rest => by
    obtain ⟨hrest, hnames⟩ := tells_bodies (⟨name, false⟩ :: scope) rest
    have happend := (body.tells (⟨name, true⟩ :: scope)).append hrest
    rw [placesOfBodies, reachedDefinitions]
    revert happend hnames
    simp only [names_cons]
    cases body.reached (lower name :: names scope) with
    | error issue => exact fun _ happend => ⟨happend, nofun⟩
    | ok first =>
      cases reachedDefinitions (lower name :: names scope) rest with
      | error issue => exact fun _ happend => ⟨happend, nofun⟩
      | ok found =>
        refine fun hnames happend => ⟨happend, ?_⟩
        rintro _ ⟨⟩
        exact hnames found rfl

end

/-! ## The tables. -/

theorem tables_eq {s : Statement} :
    ((∃ issue, s.tables = .error issue) ↔ ∃ p ∈ s.places [], p.fails)
      ∧ ((∀ p ∈ s.places [], p.fails = false) → s.tables = .ok (tablesAt (s.places [])).eraseDups) := by
  have htells : Tells (s.places []) (s.reached []) := s.tells []
  rw [Statement.tables]
  cases hreached : s.reached [] with
  | error issue =>
    rw [hreached] at htells
    obtain ⟨p, hp, hfails⟩ := htells
    exact ⟨⟨fun _ => ⟨p, hp, hfails⟩, fun _ => ⟨issue, rfl⟩⟩,
      fun hnone => absurd hfails (by simp [hnone p hp])⟩
  | ok found =>
    rw [hreached] at htells
    obtain ⟨hnone, rfl⟩ := htells
    refine ⟨⟨nofun, fun ⟨p, hp, hfails⟩ => ?_⟩, fun _ => ?_⟩
    · exact absurd hfails (by simp [hnone p hp])
    · exact congrArg _ foldl_eq_eraseDups

/-- **The tables that are found are the visible ones**, each once, in the order in which they occur
first. None are found exactly when some place is not that of a table with a name. -/
theorem tables_exact (s : Statement) (hown : ∀ p ∈ s.places [], p.usesOwnName = false) :
    ((∃ issue, s.tables = .error issue) ↔ ∃ p ∈ s.places [], p.fails)
      ∧ ((∀ p ∈ s.places [], p.fails = false) → s.tables = .ok s.visible.eraseDups) := by
  have htables : tablesAt (s.places []) = s.visible := by
    rw [tablesAt, filter_eq_self.mpr fun p hp => by rw [hown p hp]; rfl]
    rfl
  rw [← htables]
  exact tables_eq

/-- `WITH recent AS (SELECT .. FROM Orders) SELECT .. FROM Recent JOIN archive.recent`. -/
theorem tables_exact_recent :
    let s : Statement := .binding false [.named "recent" (.select [.table none "Orders"])]
      (.select [.table none "Recent", .table (some "archive") "recent"])
    (∀ p ∈ s.places [], p.usesOwnName = false) ∧ (∀ p ∈ s.places [], p.fails = false)
      ∧ s.visible = [⟨none, "Orders"⟩, ⟨some "archive", "recent"⟩]
      ∧ s.tables = .ok s.visible.eraseDups :=
  ⟨by decide, by decide, by decide, (tables_exact _ (by decide)).2 (by decide)⟩

/-- **A name is hidden in its own body as well**, whether or not its clause is recursive. -/
theorem tables_without_own_names (s : Statement) :
    s.tables = .ok (((s.places []).filter (!·.usesOwnName)).filterMap Place.table?).eraseDups
      ∨ ∃ issue, s.tables = .error issue ∧ ∃ p ∈ s.places [], p.fails := by
  obtain ⟨hfails, hfound⟩ := tables_eq
  cases htables : s.tables with
  | error issue => exact .inr ⟨issue, rfl, hfails.mp ⟨issue, htables⟩⟩
  | ok found =>
    refine .inl ((hfound fun p hp => eq_false_of_ne_true fun hfailing => ?_).symm.trans htables).symm
    obtain ⟨issue, herror⟩ := hfails.mpr ⟨p, hp, hfailing⟩
    cases htables.symm.trans herror

/-- `WITH t AS (SELECT .. FROM t) SELECT .. FROM t` reads a table and none is found. -/
theorem tables_wrapper :
    let s : Statement := .binding false [.named "t" (.select [.table none "t"])]
      (.select [.table none "t"])
    s.visible = [⟨none, "t"⟩] ∧ s.tables = .ok [] :=
  ⟨by decide, by decide⟩

end QueryAudit.Sql
