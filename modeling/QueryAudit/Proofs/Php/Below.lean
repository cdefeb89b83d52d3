/-
  QueryAudit.Proofs.Php.Below — what stands below a node

  Children and the shapes read from them (roles, parts, pieces of a string, elements of an array,
  arguments of a call) stand below the node they are read from, so each is smaller than it.
-/

import Mathlib.Logic.Relation
import QueryAudit.Php.Literal
import QueryAudit.Proofs.Php.Tree

namespace QueryAudit.Php.Cursor

open List

variable {inner value last node arg : Cursor} {parts : List StringPart} {key : Option Cursor}

def Below : Cursor → Cursor → Prop := Relation.TransGen fun c child => child ∈ c.children

variable {c d child : Cursor}

theorem Below.of_child (h : child ∈ c.children) : Below c child := .single h

theorem Below.step (h : Below c d) (hchild : child ∈ d.children) : Below c child :=
  Relation.TransGen.tail h hchild

theorem Below.trans (h : Below c d) (h' : Below d child) : Below c child :=
  Relation.TransGen.trans h h'

/-- **What stands below a node is smaller.** -/
theorem Below.size_lt (h : Below c d) : d.node.size < c.node.size := by
  induction h with
  | single hchild => exact Node.size_lt_of_mem (mem_children hchild).2.1
  | tail _ hchild ih => exact Nat.lt_trans (Node.size_lt_of_mem (mem_children hchild).2.1) ih

theorem below_of_inRole? {role : String} (h : c.inRole? role = some child) : Below c child :=
  .of_child (mem_of_find?_eq_some h)

theorem below_of_mem_parts (h : child ∈ c.parts) : Below c child :=
  .of_child (mem_children_of_mem_parts h)

theorem below_of_last {rest : List Cursor} (h : last :: rest ⊆ c.parts) :
    Below c ((rest.getLast?).getD last) := by
  refine below_of_mem_parts (h ?_)
  cases hlast : rest.getLast? with
  | none => exact mem_cons_self
  | some found => exact mem_cons_of_mem _ (mem_of_getLast? hlast)

theorem below_of_getLast?_parts (h : c.parts.getLast? = some child) : Below c child :=
  below_of_mem_parts (mem_of_getLast? h)

theorem below_of_mem_literalNodes (h : child ∈ literalNodes c) : Below c child := by
  obtain ⟨part, hpart, hchild⟩ := mem_flatMap.mp (mem_filter.mp h).1
  split at hchild
  · exact (Below.of_child hpart).step hchild
  · rw [mem_singleton.mp hchild]
    exact .of_child hpart

theorem mem_of_mem_pushPart {part : StringPart}
    (h : .code inner ∈ pushPart parts part) : .code inner ∈ parts ∨ part = .code inner := by
  unfold pushPart at h
  split at h
  · rcases mem_append.mp h with h | h
    · exact .inl (dropLast_subset _ h)
    · cases mem_singleton.mp h
  · rcases mem_append.mp h with h | h
    · exact .inl h
    · exact .inr (mem_singleton.mp h).symm

theorem mem_of_mem_foldl_pushPart :
    ∀ before, .code inner ∈ parts.foldl pushPart before →
      .code inner ∈ before ∨ .code inner ∈ parts := by
  induction parts with
  | nil => exact fun before h => .inl h
  | cons part parts ih =>
    intro before h
    rcases ih _ h with h | h
    · rcases mem_of_mem_pushPart h with h | rfl
      · exact .inl h
      · exact .inr mem_cons_self
    · exact .inr (mem_cons_of_mem _ h)

theorem code_of_partOf (h : partOf node = .ok (.code inner)) : inner = node := by
  unfold partOf at h
  split at h
  · cases h
  · cases h
  · cases hvalue : unescape node.text with
    | error e =>
      rw [hvalue] at h
      cases h
    | ok value =>
      rw [hvalue] at h
      cases h
  · exact (StringPart.code.inj (Except.ok.inj h)).symm

theorem mem_of_mapM_partOf :
    ∀ {nodes : List Cursor} {parts : List StringPart}, nodes.mapM partOf = .ok parts →
      .code inner ∈ parts → inner ∈ nodes := by
  intro nodes
  induction nodes with
  | nil =>
    intro parts hparts h
    obtain rfl := Except.ok.inj hparts
    cases h
  | cons node nodes ih =>
    intro parts hparts h
    rw [mapM_cons] at hparts
    cases hpart : partOf node with
    | error e =>
      rw [hpart] at hparts
      cases hparts
    | ok part =>
      rw [hpart] at hparts
      cases hrest : nodes.mapM partOf with
      | error e =>
        rw [hrest] at hparts
        cases hparts
      | ok rest =>
        rw [hrest] at hparts
        obtain rfl := Except.ok.inj hparts
        rcases mem_cons.mp h with rfl | h
        · rw [code_of_partOf hpart]
          exact mem_cons_self
        · exact mem_cons_of_mem _ (ih hrest h)

theorem below_of_mem_stringParts
    (hparts : stringParts c = .ok parts) (h : .code inner ∈ parts) : Below c inner := by
  unfold stringParts at hparts
  split at hparts
  · obtain rfl := Except.ok.inj hparts
    cases mem_singleton.mp h
  cases hnodes : (literalNodes c).mapM partOf with
  | error e =>
    rw [hnodes] at hparts
    cases hparts
  | ok found =>
    rw [hnodes] at hparts
    obtain rfl := Except.ok.inj hparts
    have hmem := (mem_of_mem_foldl_pushPart [] h).resolve_left not_mem_nil
    exact below_of_mem_literalNodes (mem_of_mapM_partOf hnodes hmem)

/-- What stands right below an element of an array, or below the mark of a reference in it. -/
def ElementPart (c d : Cursor) : Prop :=
  ∃ parent, Below c parent ∧ (parent.kind = .arrayElementInitializer ∨ parent.kind = .byRef)
    ∧ d ∈ parent.parts

theorem elementPart_of_mem_arrayElements (h : (key, value) ∈ arrayElements c) :
    ElementPart c value ∧ ∀ k, key = some k → ElementPart c k := by
  obtain ⟨element, helement, heq⟩ := mem_filterMap.mp h
  obtain ⟨hchild, hkind⟩ := mem_filter.mp helement
  have hpart : ∀ d ∈ element.parts, ElementPart c d := fun d hd =>
    ⟨element, .of_child hchild, .inl (of_decide_eq_true hkind), hd⟩
  unfold elementOf? at heq
  split at heq
  · cases heq
  · next first rest hparts =>
    have hfirst : ElementPart c first := hpart first (hparts ▸ mem_cons_self)
    have hlast : (rest.getLast?).getD first ∈ element.parts := by
      rw [hparts]
      cases hrest : rest.getLast? with
      | none => exact mem_cons_self
      | some last => exact mem_cons_of_mem _ (mem_of_getLast? hrest)
    dsimp only at heq
    split at heq
    · obtain ⟨rfl, rfl⟩ := Prod.mk.inj (Option.some.inj heq)
      exact ⟨hpart _ hlast, fun k hk => Option.some.inj hk ▸ hfirst⟩
    split at heq
    · next href =>
      obtain ⟨rfl, rfl⟩ := Prod.mk.inj (Option.some.inj heq)
      refine ⟨?_, nofun⟩
      cases hhead : ((rest.getLast?).getD first).parts.head? with
      | none => exact hpart _ hlast
      | some inner =>
        exact ⟨_, (Below.of_child hchild).trans (below_of_mem_parts hlast), .inr href,
          mem_of_head? hhead⟩
    · obtain ⟨rfl, rfl⟩ := Prod.mk.inj (Option.some.inj heq)
      exact ⟨hpart _ hlast, nofun⟩

theorem below_of_mem_arrayElements (h : (key, value) ∈ arrayElements c) :
    Below c value ∧ ∀ k, key = some k → Below c k := by
  have hbelow : ∀ {d}, ElementPart c d → Below c d := fun ⟨_, hparent, _, hd⟩ =>
    hparent.trans (below_of_mem_parts hd)
  obtain ⟨hvalue, hkey⟩ := elementPart_of_mem_arrayElements h
  exact ⟨hbelow hvalue, fun k hk => hbelow (hkey k hk)⟩

theorem below_of_mem_callArguments (h : arg ∈ callArguments c) : Below c arg :=
  forall_callArguments_of_children (p := Below c) (fun _ h _ => h.step) (fun _ => .of_child) arg h

end QueryAudit.Php.Cursor
