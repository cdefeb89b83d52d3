/-
  QueryAudit.Sql.Statement — statements and the tables they read

  A statement tree keeps what decides which tables are reached: WITH clauses, set operations,
  FROM and JOIN sources, and the targets of INSERT, UPDATE and DELETE. `Statement.tables` walks
  it in the order of writing. A name bound by a WITH clause hides an unqualified table of that
  name, ignoring case, from the binding's own body on and for the rest of the statement.
-/

import QueryAudit.Text.Case

namespace QueryAudit.Sql

/-! ## The tree. -/

inductive SetOperator where
  | union
  | intersection
  | difference
  deriving DecidableEq, Repr

inductive Change where
  | insert
  | update
  | delete
  deriving DecidableEq, Repr

mutual

/-- A statement, reduced to what decides the tables it reaches. -/
inductive Statement where
  /-- A query with its FROM source, if it has one, and then its JOIN sources. -/
  | select (sources : List Source)
  | combined (operator : SetOperator) (left right : Statement)
  | wrapped (inner : Statement)
  | binding (isRecursive : Bool) (definitions : List Definition) (body : Statement)
  /-- A change of a target, with the query an INSERT takes its rows from and further sources. -/
  | change (kind : Change) (target : Source) (query : Option Statement) (sources : List Source)
  | other (kind : String)

inductive Source where
  | table (database : Option String) (name : String)
  | derived (query : Statement)
  | other (kind : String)
  | missing

inductive Definition where
  | named (name : String) (body : Statement)

end

instance : Inhabited Statement := ⟨.other ""⟩

structure TableName where
  database : Option String
  name : String
  deriving DecidableEq, Repr

inductive Issue where
  | unreadable
  | statement (kind : String)
  | source (kind : String)
  | nameless
  deriving DecidableEq, Repr

def Issue.message : Issue → String
  | .unreadable => "<sqlglot>"
  | .statement kind => "unsupported statement " ++ kind
  | .source kind => "unsupported FROM source " ++ kind
  | .nameless => "table without a name"

/-! ## The tables of a tree. -/

/-- Whether an INSERT walks a query: a SELECT or a UNION that is not in parentheses. -/
def Statement.feedsInsert : Statement → Bool
  | .select _ => true
  | .combined .union _ _ => true
  | .binding _ _ body => body.feedsInsert
  | _ => false

def visibleTable (bound : List String) (database : Option String) (name : String) :
    Except Issue (List TableName) :=
  if name.isEmpty then .error .nameless
  else if database.isNone && bound.contains (Text.lower name) then .ok []
  else .ok [⟨database, name⟩]

mutual

/-- The tables a statement reaches where some names are bound, with repetitions. -/
def Statement.reached (bound : List String) : Statement → Except Issue (List TableName)
  | .select sources => reachedAll bound sources
  | .combined _ left right => do return (← left.reached bound) ++ (← right.reached bound)
  | .wrapped inner => inner.reached bound
  | .binding _ definitions body => do
    let (names, first) ← reachedDefinitions bound definitions
    return first ++ (← body.reached names)
  | .change kind target query sources => do
    let first ← target.reached bound
    let second ← match query with
      | some q => if kind = .insert && q.feedsInsert then q.reached bound else pure []
      | none => pure []
    return first ++ second ++ (← reachedAll bound sources)
  | .other kind => .error (.statement kind)

def Source.reached (bound : List String) : Source → Except Issue (List TableName)
  | .table database name => visibleTable bound database name
  | .derived query => query.reached bound
  | .other kind => .error (.source kind)
  | .missing => .error (.source "nothing")

def reachedAll (bound : List String) : List Source → Except Issue (List TableName)
  | [] => .ok []
  | source :: rest => do return (← source.reached bound) ++ (← reachedAll bound rest)

/-- The tables behind the definitions of a WITH clause, and the names bound after it. -/
def reachedDefinitions (bound : List String) :
    List Definition → Except Issue (List String × List TableName)
  | [] => .ok (bound, [])
  | .named name body :: rest => do
    let inside := Text.lower name :: bound
    let first ← body.reached inside
    let (names, others) ← reachedDefinitions inside rest
    return (names, first ++ others)

end

/-- The tables a statement reaches, each once, in the order of first occurrence. -/
def Statement.tables (statement : Statement) : Except Issue (List TableName) :=
  (statement.reached []).map Text.distinct

end QueryAudit.Sql
