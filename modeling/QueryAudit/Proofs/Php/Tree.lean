/-
  QueryAudit.Proofs.Php.Tree — nodes, cursors and what is below them

  What holds in a whole tree holds in each child. A cursor sees the children of its node, one step
  further down.

  Main results: `Node.all_of_mem`, `Cursor.mem_children`, `Cursor.mem_preorder_of_ancestor`.
-/

import QueryAudit.Php.Shape

namespace QueryAudit.Php

open List

variable {n child : Node} {nodes : List Node} {role : String}

/-! ## All nodes of a tree. -/

namespace Node

variable {p : Node → Bool}

mutual

def decEq : (a b : Node) → Decidable (a = b)
  | ⟨kind, named, role, span, text, children⟩, ⟨kind', named', role', span', text', children'⟩ =>
    if h : kind = kind' ∧ named = named' ∧ role = role' ∧ span = span' ∧ text = text' then
      match decEqAll children children' with
      | isTrue hc => isTrue (by obtain ⟨rfl, rfl, rfl, rfl, rfl⟩ := h; rw [hc])
      | isFalse hc => isFalse fun heq => hc (congrArg Node.children heq)
    else isFalse fun heq => h (by cases heq; exact ⟨rfl, rfl, rfl, rfl, rfl⟩)

def decEqAll : (as bs : List Node) → Decidable (as = bs)
  | [], [] => isTrue rfl
  | [], _ :: _ => isFalse nofun
  | _ :: _, [] => isFalse nofun
  | a :: as, b :: bs =>
    match decEq a b, decEqAll as bs with
    | isTrue ha, isTrue has => isTrue (by rw [ha, has])
    | isFalse ha, _ => isFalse fun heq => ha (cons.inj heq).1
    | _, isFalse has => isFalse fun heq => has (cons.inj heq).2

end

instance : DecidableEq Node := decEq

mutual

def all (p : Node → Bool) : Node → Bool
  | ⟨kind, named, role, span, text, children⟩ =>
    p ⟨kind, named, role, span, text, children⟩ && allIn p children

def allIn (p : Node → Bool) : List Node → Bool
  | [] => true
  | n :: rest => n.all p && allIn p rest

end

theorem all_eq : n.all p = (p n && allIn p n.children) := by
  cases n
  rw [all]

theorem allIn_iff : allIn p nodes = true ↔ ∀ n ∈ nodes, n.all p = true := by
  induction nodes with
  | nil => simp [allIn]
  | cons n nodes ih => rw [allIn, Bool.and_eq_true, ih, forall_mem_cons]

theorem of_all (h : n.all p = true) : p n = true := by
  rw [all_eq, Bool.and_eq_true] at h
  exact h.1

theorem all_of_mem (h : n.all p = true) (hchild : child ∈ n.children) : child.all p = true := by
  rw [all_eq, Bool.and_eq_true, allIn_iff] at h
  exact h.2 child hchild

theorem size_eq (n : Node) : n.size = sizeAll n.children + 1 := by
  cases n
  rw [size]

theorem sizeAll_append {left right : List Node} :
    sizeAll (left ++ right) = sizeAll left + sizeAll right := by
  induction left with
  | nil => rw [nil_append, sizeAll, Nat.zero_add]
  | cons n left ih => rw [cons_append, sizeAll, sizeAll, ih, Nat.add_assoc]

theorem size_le_sizeAll (h : n ∈ nodes) : n.size ≤ sizeAll nodes := by
  obtain ⟨left, right, rfl⟩ := append_of_mem h
  rw [sizeAll_append, sizeAll]
  omega

theorem size_lt_of_mem (h : child ∈ n.children) : child.size < n.size := by
  have hle := size_le_sizeAll h
  rw [size_eq n]
  omega

theorem induct {p : Node → Prop} (step : ∀ n, (∀ child ∈ n.children, p child) → p n) (n : Node) :
    p n :=
  step n fun child hchild =>
    have := size_lt_of_mem hchild
    induct step child
termination_by n.size

theorem mem_of_inRole? (h : n.inRole? role = some child) : child ∈ n.children :=
  mem_of_find?_eq_some h

/-- The children of a node in two different roles take up no more than the node. -/
theorem size_add_size_lt {left right : Node} {other : String} (hleft : n.inRole? role = some left)
    (hright : n.inRole? other = some right) (hne : role ≠ other) : left.size + right.size < n.size := by
  have hdiff : left ≠ right := by
    intro heq
    have hrole := find?_some hleft
    have hother := find?_some hright
    rw [heq, decide_eq_true_eq] at hrole
    rw [decide_eq_true_eq, hrole, Option.some.injEq] at hother
    exact hne hother
  have hmem := mem_of_inRole? hright
  obtain ⟨before, after, hchildren⟩ := append_of_mem (mem_of_inRole? hleft)
  rw [hchildren] at hmem
  have hother : right ∈ before ++ after := by
    rcases mem_append.mp hmem with h | h
    · exact mem_append_left _ h
    · rcases mem_cons.mp h with rfl | h
      · exact absurd rfl hdiff
      · exact mem_append_right _ h
  have hle := size_le_sizeAll hother
  rw [size_eq n, hchildren, sizeAll_append, sizeAll]
  rw [sizeAll_append] at hle
  omega

end Node

/-! ## Children of cursors. -/

namespace Cursor

variable {c child d call a : Cursor} {p : Cursor → Prop} {tree number : Nat} {parent : Node}
  {above : List (Nat × Node)}

theorem mem_siblings :
    ∀ {i : Nat}, c ∈ siblings tree parent above i nodes →
      c.tree = tree ∧ c.node ∈ nodes ∧ ∃ j, c.above = (j, parent) :: above := by
  induction nodes with
  | nil => exact fun h => nomatch h
  | cons n nodes ih =>
    intro i h
    rcases mem_cons.mp h with rfl | h
    · exact ⟨rfl, mem_cons_self, i, rfl⟩
    · obtain ⟨htree, hnode, habove⟩ := ih h
      exact ⟨htree, mem_cons_of_mem _ hnode, habove⟩

theorem mem_children (h : child ∈ c.children) : child.tree = c.tree ∧ child.node ∈ c.node.children
      ∧ ∃ i, child.above = (i, c.node) :: c.above :=
  mem_siblings h

theorem map_node_siblings : ∀ i, (siblings tree parent above i nodes).map Cursor.node = nodes := by
  induction nodes with
  | nil => exact fun _ => rfl
  | cons n nodes ih =>
    intro i
    rw [siblings, map_cons, ih]

theorem map_node_children : c.children.map Cursor.node = c.node.children :=
  map_node_siblings _

theorem find?_children (p : Node → Bool) :
    (c.children.find? fun child => p child.node).map Cursor.node = c.node.children.find? p := by
  conv => rhs; rw [← map_node_children, find?_map]
  rfl

theorem map_node_parts (c : Cursor) : c.parts.map Cursor.node = c.node.parts := by
  rw [Node.parts, ← map_node_children, filter_map]
  rfl

theorem mem_children_of_mem_parts (h : child ∈ c.parts) : child ∈ c.children :=
  (mem_filter.mp h).1

theorem map_node_inRole? (c : Cursor) (role : String) :
    (c.inRole? role).map Cursor.node = c.node.inRole? role :=
  find?_children fun n => decide (n.role = some role)

theorem map_node_ofKind? {kind : Kind} : (c.ofKind? kind).map Cursor.node = c.node.ofKind? kind :=
  find?_children fun n => decide (n.kind = kind)

theorem exists_inRole? (h : c.node.inRole? role = some n) :
    ∃ child ∈ c.children, c.inRole? role = some child ∧ child.node = n := by
  rw [← map_node_inRole?, Option.map_eq_some_iff] at h
  obtain ⟨child, hchild, hnode⟩ := h
  exact ⟨child, mem_of_find?_eq_some hchild, hchild, hnode⟩

theorem exists_getLast?_parts (h : c.node.parts.getLast? = some n) :
    ∃ child ∈ c.children, c.parts.getLast? = some child ∧ child.node = n := by
  rw [← map_node_parts, getLast?_map, Option.map_eq_some_iff] at h
  obtain ⟨child, hchild, hnode⟩ := h
  exact ⟨child, mem_children_of_mem_parts (mem_of_getLast? hchild), hchild, hnode⟩

/-! ## What is below a cursor. -/

/-- Going through what is below a cursor, the cursor comes first and then its children in turn. -/
theorem preorder_eq : c.preorder = c :: c.children.flatMap preorder := by
  have hall : ∀ (nodes : List Node) (i : Nat), belowAll c.tree c.node c.above i nodes
      = (siblings c.tree c.node c.above i nodes).flatMap preorder := by
    intro nodes
    induction nodes with
    | nil => exact fun i => by rw [belowAll]; rfl
    | cons n nodes ih => exact fun i => by rw [belowAll, ih]; rfl
  rw [children, ← hall]
  obtain ⟨tree, ⟨kind, named, role, span, text, children⟩, above⟩ := c
  rw [preorder, below]

theorem induct (step : ∀ c, (∀ child ∈ c.children, p child) → p c) (c : Cursor) : p c :=
  step c fun child hchild =>
    have := Node.size_lt_of_mem (mem_children hchild).2.1
    induct step child
termination_by c.node.size

theorem mem_preorder_self (c : Cursor) : c ∈ c.preorder := preorder_eq ▸ mem_cons_self

theorem mem_preorder_of_child (hd : d ∈ c.preorder) (hchild : child ∈ d.children) :
    child ∈ c.preorder := by
  induction c using induct with
  | step c ih =>
    rw [preorder_eq, mem_cons, mem_flatMap] at hd ⊢
    rcases hd with rfl | ⟨e, he, hd⟩
    · exact .inr ⟨child, hchild, mem_preorder_self child⟩
    · exact .inr ⟨e, he, ih e he hd⟩

theorem forall_preorder (hchild : ∀ c, p c → ∀ child ∈ c.children, p child) (h : p c) :
    ∀ d ∈ c.preorder, p d := by
  induction c using induct with
  | step c ih =>
    rw [preorder_eq]
    refine forall_mem_cons.mpr ⟨h, fun d hd => ?_⟩
    obtain ⟨child, hmem, hd⟩ := mem_flatMap.mp hd
    exact ih child hmem (hchild c h child hmem) d hd

/-- The arguments of a call are below its children. -/
theorem forall_callArguments_of_children (hchild : ∀ c, p c → ∀ child ∈ c.children, p child)
    (h : ∀ child ∈ call.children, p child) : ∀ arg ∈ callArguments call, p arg := by
  have hvalue : ∀ c, p c → p (argumentValue c) := by
    intro c hc
    rw [argumentValue]
    cases hlast : c.parts.getLast? with
    | none => exact hc
    | some part => exact hchild c hc part (mem_children_of_mem_parts (mem_of_getLast? hlast))
  have hlist : ∀ list, p list → ∀ arg ∈ list.children.filterMap (fun child =>
      if child.kind = .argument then some (argumentValue child)
      else if child.node.named && child.kind ≠ .comment then some child else none), p arg := by
    intro list hp arg harg
    obtain ⟨child, hmem, heq⟩ := mem_filterMap.mp harg
    have hc := hchild list hp child hmem
    split at heq
    · exact Option.some.inj heq ▸ hvalue child hc
    · split at heq
      · exact Option.some.inj heq ▸ hc
      · cases heq
  unfold callArguments
  cases hrole : call.inRole? "arguments" with
  | some list => exact hlist list (h list (mem_of_find?_eq_some hrole))
  | none =>
    cases hkind : call.ofKind? .arguments with
    | some list => exact hlist list (h list (mem_of_find?_eq_some hkind))
    | none => simp

theorem forall_callArguments (hchild : ∀ c, p c → ∀ child ∈ c.children, p child) (h : p call) :
    ∀ arg ∈ callArguments call, p arg :=
  forall_callArguments_of_children hchild (hchild call h)

/-! ## What stands above a node. -/

theorem ancestors_child (h : child ∈ c.children) : child.ancestors = c :: c.ancestors := by
  obtain ⟨htree, -, i, habove⟩ := mem_children h
  rw [ancestors, htree, habove]
  rfl

theorem mem_preorder_above (hd : d ∈ c.preorder) :
    d.tree = c.tree ∧ ∀ a ∈ d.ancestors, a ∈ c.ancestors ∨ a ∈ c.preorder := by
  refine (forall_preorder (p := fun d => d ∈ c.preorder ∧ d.tree = c.tree
    ∧ ∀ a ∈ d.ancestors, a ∈ c.ancestors ∨ a ∈ c.preorder) (fun d h child hchild => ?_)
    ⟨c.mem_preorder_self, rfl, fun a => .inl⟩ d hd).2
  refine ⟨mem_preorder_of_child h.1 hchild, (mem_children hchild).1.trans h.2.1, ?_⟩
  rw [ancestors_child hchild]
  exact forall_mem_cons.mpr ⟨.inr h.1, h.2.2⟩

theorem mem_preorder_of_ancestor (hc : c ∈ (root number n).preorder) (ha : a ∈ c.ancestors) :
    a ∈ (root number n).preorder :=
  ((mem_preorder_above hc).2 a ha).resolve_left nofun

theorem tree_of_mem_preorder (hc : c ∈ (root number n).preorder) : c.tree = number := (mem_preorder_above hc).1

end Cursor

end QueryAudit.Php
