/-
  QueryAudit.Proofs.Record.Constants — the constants of a class

  The constants of a class can be read off the node that declares it. The last element of a name
  counts.

  Main results: `get?_constants_ofNode`, `Cursor.map_node_preorder`.
-/

import Mathlib.Data.List.Basic
import QueryAudit.Proofs.Catalog
import QueryAudit.Proofs.Php.Tree
import QueryAudit.Record.ClassDecl

namespace QueryAudit.Php

open List

/-! ## The nodes of a tree. -/

namespace Node

variable {d child n : Node}

mutual

def nodes : Node → List Node
  | ⟨kind, named, role, span, text, children⟩ =>
    ⟨kind, named, role, span, text, children⟩ :: nodesIn children

def nodesIn : List Node → List Node
  | [] => []
  | n :: rest => n.nodes ++ nodesIn rest

end

theorem nodes_eq (n : Node) : n.nodes = n :: nodesIn n.children := by
  cases n
  rw [nodes]

theorem nodesIn_eq (nodes : List Node) : nodesIn nodes = nodes.flatMap Node.nodes := by
  induction nodes with
  | nil => rw [nodesIn]; rfl
  | cons n nodes ih => rw [nodesIn, ih]; rfl

theorem mem_nodesIn {nodes : List Node} : d ∈ nodesIn nodes ↔ ∃ n ∈ nodes, d ∈ n.nodes := by
  rw [nodesIn_eq, mem_flatMap]

theorem mem_nodes_self (n : Node) : n ∈ n.nodes := nodes_eq n ▸ mem_cons_self

theorem mem_nodes_of_child (hchild : child ∈ d.children) (h : d ∈ n.nodes) : child ∈ n.nodes := by
  induction n using induct with
  | step n ih =>
    rw [nodes_eq, mem_cons, mem_nodesIn] at h ⊢
    rcases h with rfl | ⟨m, hm, h⟩
    · exact .inr ⟨child, hchild, child.mem_nodes_self⟩
    · exact .inr ⟨m, hm, ih m hm h⟩

theorem nodesIn_append {left right : List Node} :
    nodesIn (left ++ right) = nodesIn left ++ nodesIn right := by
  simp only [nodesIn_eq, flatMap_append]

mutual

theorem all_iff {p : Node → Bool} : ∀ {n : Node}, n.all p = true ↔ ∀ d ∈ n.nodes, p d = true
  | ⟨kind, named, role, span, text, children⟩ => by
    rw [all, nodes, Bool.and_eq_true, forall_mem_cons, allIn_iff_nodesIn]

theorem allIn_iff_nodesIn {p : Node → Bool} :
    ∀ {nodes : List Node}, allIn p nodes = true ↔ ∀ d ∈ nodesIn nodes, p d = true
  | [] => by simp [allIn, nodesIn]
  | n :: rest => by
    rw [allIn, nodesIn, Bool.and_eq_true, forall_mem_append, all_iff, allIn_iff_nodesIn]

end

end Node

namespace Cursor

theorem map_node_preorder (c : Cursor) : c.preorder.map node = c.node.nodes := by
  induction c using induct with
  | step c ih =>
    rw [preorder_eq, map_cons, map_flatMap, flatMap_congr ih, Node.nodes_eq,
      ← map_node_children, Node.nodesIn_eq, flatMap_map]

end Cursor

/-! ## Constants. -/

namespace Node

/-- The name and the expression of an element of a constant declaration. -/
def constantOf? (element : Node) : Option (String × Node) :=
  match element.parts with
  | first :: second :: rest => some (first.text, (rest.getLast?).getD second)
  | _ => none

def declaredConstants (n : Node) : List (String × Node) :=
  (n.children.filter (·.kind = .constElement)).filterMap constantOf?

def members (n : Node) : List Node :=
  match n.inRole? "body" with
  | some body => body.parts
  | none => ((n.ofKind? .declarationList).map parts).getD []

def constants (n : Node) : List (String × Node) :=
  (n.members.filter (·.kind = .constDeclaration)).flatMap declaredConstants

def under (x : String) (found : List (String × Node)) : List Node :=
  (found.filter (·.1 = x)).map Prod.snd

/-- The expression of a constant of a class: the last one under its name. -/
def constant? (n : Node) (x : String) : Option Node := (under x n.constants).getLast?

def parentName? (n : Node) : Option String :=
  ((n.ofKind? .baseClause).bind (·.parts.head?)).map fun name => stripClassName name.text

end Node

end QueryAudit.Php

namespace QueryAudit

open Php Record List ClassDecl Cursor

/-- Where values are put under names one after another, the last one of a name counts. -/
theorem Catalog.get?_foldl_set {α : Type} (x : String) (items : List (String × α)) :
    ∀ start : Catalog α, (items.foldl (fun found item => found.set item.1 item.2) start).get? x
      = (((items.filter (·.1 = x)).getLast?).map Prod.snd).or (start.get? x) := by
  induction items with
  | nil => exact fun _ => rfl
  | cons item items ih =>
    intro start
    rw [foldl_cons, ih, Catalog.get?_set]
    by_cases hname : item.1 = x
    · rw [filter_cons_of_pos (by simpa using hname), if_pos hname.symm, getLast?_cons]
      cases (items.filter (·.1 = x)).getLast? <;> rfl
    · rw [filter_cons_of_neg (by simpa using hname), if_neg (Ne.symm hname)]

namespace Record

variable {c declaration : Cursor} {file : String}

/-- The name and the expression of an element of a constant declaration, with the way to it. -/
def constantAt? (element : Cursor) : Option (String × Cursor) :=
  match element.parts with
  | first :: second :: rest => some (first.text, (rest.getLast?).getD second)
  | _ => none

/-- The constants that a declaration makes, with the way to them. -/
def constantsAt (declaration : Cursor) : List (String × Cursor) :=
  (declaration.allOfKind .constElement).filterMap constantAt?

theorem map_constantAt? {element : Cursor} :
    (constantAt? element).map (fun item => (item.1, item.2.node)) = element.node.constantOf? := by
  unfold constantAt? Node.constantOf?
  rw [← map_node_parts]
  match element.parts with
  | [] => rfl
  | [_] => rfl
  | first :: second :: rest =>
    show some (first.text, ((rest.getLast?).getD second).node)
      = some (first.text, ((rest.map node).getLast?).getD second.node)
    rw [getLast?_map]
    cases rest.getLast? <;> rfl

theorem map_allOfKind {kind : Kind} :
    (c.allOfKind kind).map node = c.node.children.filter (·.kind = kind) := by
  rw [← map_node_children, filter_map]
  rfl

theorem map_constantsAt :
    (constantsAt declaration).map (fun item => (item.1, item.2.node))
      = declaration.node.declaredConstants := by
  rw [constantsAt, Node.declaredConstants, ← map_allOfKind, filterMap_map, map_filterMap]
  congr 1
  funext element
  exact map_constantAt?

theorem map_membersOf : (membersOf c).map node = c.node.members := by
  unfold membersOf Node.members
  rw [← map_node_inRole?, ← map_node_ofKind?]
  cases c.inRole? "body" with
  | some body => exact map_node_parts body
  | none =>
    cases c.ofKind? .declarationList with
    | none => rfl
    | some list => exact map_node_parts list

theorem addConstants_eq (found : Catalog Cursor) :
    addConstants found declaration
      = (constantsAt declaration).foldl (fun found item => found.set item.1 item.2) found := by
  rw [addConstants, constantsAt]
  induction declaration.allOfKind .constElement generalizing found with
  | nil => rfl
  | cons element rest ih =>
    rw [foldl_cons, ih, filterMap_cons, constantAt?]
    match element.parts with
    | [] => rfl
    | [_] => rfl
    | first :: second :: others => rfl

theorem foldl_addConstants {declarations : List Cursor} (found : Catalog Cursor) :
    declarations.foldl addConstants found
      = (declarations.flatMap constantsAt).foldl (fun found item => found.set item.1 item.2) found := by
  induction declarations generalizing found with
  | nil => rfl
  | cons declaration rest ih =>
    rw [foldl_cons, ih, flatMap_cons, foldl_append, addConstants_eq]

/-- **The constant that a declaration keeps under a name** is the last one of that name. -/
theorem get?_constants_ofNode (x : String) :
    ((ofNode c file).constants.get? x).map node = c.node.constant? x := by
  have hnodes : (((membersOf c).filter (·.kind = .constDeclaration)).flatMap constantsAt).map
      (fun item => (item.1, item.2.node)) = c.node.constants := by
    rw [Node.constants, ← map_membersOf, filter_map, flatMap_map, map_flatMap]
    congr 1
    funext declaration
    exact map_constantsAt
  show ((((membersOf c).filter (·.kind = .constDeclaration)).foldl addConstants
    .empty).get? x).map node = _
  rw [foldl_addConstants, Catalog.get?_foldl_set, Node.constant?, Node.under, ← hnodes, filter_map,
    map_map, getLast?_map]
  show (((_ : Option (String × Cursor)).map Prod.snd).or none).map node = _
  rw [Option.or_none, Option.map_map]
  rfl

theorem parentName_ofNode : (ofNode c file).parentName = c.node.parentName? := by
  show parentOf? c = _
  rw [parentOf?, Node.parentName?, ← map_node_ofKind?]
  cases c.ofKind? .baseClause with
  | none => rfl
  | some clause =>
    rw [Option.map_some, Option.bind_some, Option.bind_some, ← map_node_parts, head?_map,
      Option.map_map]
    rfl

end Record

end QueryAudit
