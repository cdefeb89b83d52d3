/-
  QueryAudit.Record.ClassDecl — declarations of classes

  A class with its parent, methods and constants, and, once it has been placed in the hierarchy,
  its ancestors and the tables it stands for.
-/

import QueryAudit.Catalog
import QueryAudit.Php.Shape
import QueryAudit.Text.Case

namespace QueryAudit.Record

open Php Text

structure ClassDecl where
  name : String
  parentName : Option String
  file : String
  line : Nat
  methods : Catalog Cursor := .empty
  constants : Catalog Cursor := .empty
  ancestors : List String := []
  children : List String := []
  isRecord : Option Bool := none
  cyclic : Bool := false
  dbNames : List String := []
  tableNames : List String := []
  primaryKey : List String := []
  deriving Repr

namespace ClassDecl

def key (d : ClassDecl) : String := lower d.name

def isLeaf (d : ClassDecl) : Bool := d.children.isEmpty

def parentOf? (node : Cursor) : Option String :=
  ((node.ofKind? .baseClause).bind (·.parts.head?)).map fun name => stripClassName name.text

/-- Add the constants of a declaration, later values of a name replacing earlier ones. -/
def addConstants (found : Catalog Cursor) (declaration : Cursor) : Catalog Cursor :=
  (declaration.allOfKind .constElement).foldl (fun found element =>
    match element.parts with
    | first :: second :: rest => found.set first.text ((rest.getLast?).getD second)
    | _ => found) found

def membersOf (node : Cursor) : List Cursor :=
  match node.inRole? "body" with
  | some body => body.parts
  | none => ((node.ofKind? .declarationList).map Cursor.parts).getD []

/-- The declaration that a node makes. The first of several methods of a name counts. -/
def ofNode (node : Cursor) (file : String) : ClassDecl :=
  let members := membersOf node
  { name := node.nameText
    parentName := parentOf? node
    file
    line := node.line
    methods := (members.filter (·.kind = .methodDeclaration)).foldl
      (fun found m => found.setDefault (lower m.nameText) m) .empty
    constants := (members.filter (·.kind = .constDeclaration)).foldl addConstants .empty }

end ClassDecl

/-- The databases and tables of a record class, the usual database standing in for none. -/
def recordPairs (d : ClassDecl) (defaultDb : String) : List (String × String) :=
  let dbs := if d.dbNames.isEmpty then [defaultDb] else d.dbNames
  dbs.flatMap fun db => d.tableNames.map fun table => (db, table)

end QueryAudit.Record
