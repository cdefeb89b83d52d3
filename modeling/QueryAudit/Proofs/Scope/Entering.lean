/-
  QueryAudit.Proofs.Scope.Entering — a pass, node by node

  A pass enters the named nodes of a tree one after the other. What is seen of its state changes
  only when a node is entered, if leaving a node does not change it: so the definitions that a pass
  has made are those that it made at one node, then at the next, and so on.

  Main results: `Tracker.map_fst_entered`, `Tracker.visit_seen`, `Tracker.entries_finish`.
-/

import QueryAudit.Proofs.Php.Placing
import QueryAudit.Proofs.Scope.Closing

namespace QueryAudit.Scope.Tracker

open Audit Php Cursor List

variable {path key x : String} {t t' : Tracker} {root c : Cursor}

/-! ## Nodes that are entered. -/

theorem Goes.map_fst {nodes : List Cursor} {inside : List (Cursor × Tracker)}
    (h : Goes nodes t inside t') (hsolid : ∀ c ∈ nodes, c.node.all Node.isSolid) :
    inside.map Prod.fst = (nodes.flatMap preorder).filter (·.node.named) := by
  induction h with
  | nil => rfl
  | @skip c rest _ _ _ hnamed _ ih =>
    obtain ⟨hc, hrest⟩ := forall_mem_cons.mp hsolid
    -- words and punctuation have nothing below them
    have hbelow : c.preorder = [c] := by
      have hempty := Node.of_all hc
      rw [Node.isSolid, hnamed, Bool.false_or, List.isEmpty_iff] at hempty
      rw [preorder_eq, children, hempty]
      rfl
    rw [ih hrest, flatMap_cons, hbelow, singleton_append, filter_cons_of_neg (by simp [hnamed])]
  | node hnamed _ _ ihinside ihrest =>
    obtain ⟨hc, hrest⟩ := forall_mem_cons.mp hsolid
    rw [map_append, map_cons, ihrest hrest, flatMap_cons, filter_append, preorder_eq,
      filter_cons, if_pos hnamed, ihinside fun child hchild => Node.all_of_mem hc (mem_children hchild).2.1]

/-- What is entered are the named nodes, each of them once and in order. -/
theorem map_fst_entered (c : Cursor) (t : Tracker) (hnamed : c.node.named = true)
    (hsolid : c.node.all Node.isSolid = true) :
    (entered c.tree c.above c.node t).map Prod.fst = c.preorder.filter (·.node.named) := by
  obtain ⟨inside, u, hgoes, hentered, -⟩ := exists_goes c t
  rw [hentered, map_cons, preorder_eq, filter_cons, if_pos hnamed,
    hgoes.map_fst fun child hchild => Node.all_of_mem hsolid (mem_children hchild).2.1]

/-! ## What is seen of the state. -/

/-- Nodes are entered one after the other, in states that are reached from a first one. Between them
and after the last one, what is seen of the state stays as it is. -/
inductive Seen {α : Type} (start : Tracker) (view : Tracker → α) :
    α → List (Cursor × Tracker) → α → Prop where
  | nil (a : α) : Seen start view a [] a
  | cons {rest : List (Cursor × Tracker)} {a : α} (c : Cursor) (t : Tracker) : start.Steps t →
      Seen start view (view (t.enter c)) rest a → Seen start view (view t) ((c, t) :: rest) a

section Seen

variable {α : Type} {start t t' : Tracker} {view : Tracker → α}

theorem Seen.append {a b c : α} {first rest : List (Cursor × Tracker)}
    (h : Seen start view a first b) (h' : Seen start view b rest c) :
    Seen start view a (first ++ rest) c := by
  induction h with
  | nil => exact h'
  | cons c t ht _ ih => exact .cons c t ht (ih h')

theorem Goes.seen (hleave : ∀ t c, start.Steps t → view (t.leave c) = view t) {nodes : List Cursor}
    {inside : List (Cursor × Tracker)} (h : Goes nodes t inside t') (ht : start.Steps t) :
    Seen start view (view t) inside (view t') := by
  induction h with
  | nil => exact .nil _
  | skip _ _ ih => exact ih ht
  | @node c _ t u _ _ _ _ hinside _ ihinside ihrest =>
    have hentered := ht.trans (enter_steps t c)
    have hdone := hentered.trans hinside.steps
    have hrest := ihrest (hdone.trans (leave_steps u c))
    rw [hleave u c hdone] at hrest
    exact .cons c t ht ((ihinside hentered).append hrest)

/-- **What is seen of the state changes only when a node is entered**, if leaving a node does not
change it. -/
theorem visit_seen (hleave : ∀ t c, start.Steps t → view (t.leave c) = view t) (c : Cursor)
    (t : Tracker) (ht : start.Steps t) :
    Seen start view (view t) (entered c.tree c.above c.node t)
      (view (visit c.tree c.above c.node t)) := by
  obtain ⟨inside, u, hgoes, hentered, hvisit⟩ := exists_goes c t
  have hsteps := ht.trans (enter_steps t c)
  rw [hentered, hvisit, hleave u c (hsteps.trans hgoes.steps)]
  exact .cons c t ht (hgoes.seen hleave hsteps)

end Seen

/-! ## Definitions. -/

/-- The definitions of a scope and identifier that are made when a node is entered. -/
def madeAt (key x : String) (e : Cursor × Tracker) : List Binding :=
  ((e.2.enter e.1).entries key x).drop (e.2.entries key x).length

theorem entries_leave (h : t.Filing path) (c : Cursor) : (t.leave c).entries = t.entries :=
  leave_within (R := Same entries) (fun _ _ _ _ _ _ _ => rfl)
    (fun closure => entries_flush t closure h.names)

theorem entries_enter (h : t.Filing path) (c : Cursor) (key x : String) :
    (t.enter c).entries key x = t.entries key x ++ madeAt key x (c, t) := by
  obtain ⟨made, hmade⟩ := exists_makes (enter_steps t c)
  have hentries := hmade.entries h key x
  rw [madeAt, hentries, drop_left]

theorem Seen.entries {start : Tracker} (hstart : start.Filing path)
    {first last : String → String → List Binding} {nodes : List (Cursor × Tracker)}
    (h : Seen start Tracker.entries first nodes last) (key x : String) :
    last key x = first key x ++ nodes.flatMap (madeAt key x) := by
  induction h with
  | nil => exact (append_nil _).symm
  | cons c t ht _ ih =>
    rw [ih, entries_enter (hstart.steps ht), flatMap_cons, append_assoc]

/-- The nodes that a pass over a file enters, each with the state in which it is entered. -/
def states (names : List String) (path : String) (root : Cursor) : List (Cursor × Tracker) :=
  entered root.tree root.above root.node ((start names path).openScope .global)

theorem map_fst_states (names : List String) (path : String) (hnamed : root.node.named = true)
    (hsolid : root.node.all Node.isSolid = true) :
    (states names path root).map Prod.fst = root.preorder.filter (·.node.named) :=
  map_fst_entered root _ hnamed hsolid

theorem states_seen {α : Type} (view : Tracker → α) (names : List String) (path : String)
    (root : Cursor) (hleave : ∀ t c, (start names path).Steps t → view (t.leave c) = view t) :
    Seen (start names path) view (view ((start names path).openScope .global))
      (states names path root) (view (visit root.tree root.above root.node
        ((start names path).openScope .global))) :=
  visit_seen hleave root _ (Step.openScope _ .global).steps

/-- **The definitions that a pass makes are those made at the nodes that it enters, in order.** -/
theorem entries_finish {names : List String} :
    (finish names path root).entries key x = (states names path root).flatMap (madeAt key x) := by
  have hfiling := start_filing names path
  have hseen := states_seen entries names path root fun t c ht => entries_leave (hfiling.steps ht) c
  have hvisited := hfiling.steps ((Step.openScope _ .global).steps.trans (visit_steps root _))
  rw [finish, entries_flush _ _ hvisited.names, hseen.entries hfiling, entries_openScope]
  rfl

end QueryAudit.Scope.Tracker
