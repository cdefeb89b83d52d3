/-
  QueryAudit.Proofs.Php.Placing — where the nodes of a tree stand

  Children lie inside of their node, one behind the other, and none repeats kind and byte range of a
  node around it. So a node with some text is found again by these two.

  Main results: `parse_distinct`, `Cursor.locate?_eq`, `Cursor.preorder_apart`.
-/

import Mathlib.Data.List.Nodup
import QueryAudit.Php.Parse
import QueryAudit.Proofs.Php.Below

namespace QueryAudit.Php

open List

variable {bytes : ByteArray} {nodes left right children : List Node} {kind : Kind}

/-! ## Marks. -/

abbrev Imprint := Nat × Nat × Kind

def Imprint.hasText (m : Imprint) : Bool := m.1 < m.2.1

namespace Node

def mark (n : Node) : Imprint := (n.span.start, n.span.stop, n.kind)

mutual

/-- The marks of a node and everything below it, parents before children. -/
def marks : Node → List Imprint
  | ⟨kind, named, role, span, text, children⟩ =>
    mark ⟨kind, named, role, span, text, children⟩ :: marksAll children

def marksAll : List Node → List Imprint
  | [] => []
  | n :: rest => n.marks ++ marksAll rest

end

theorem marks_eq {n : Node} : n.marks = n.mark :: marksAll n.children := by
  obtain ⟨kind, named, role, span, text, children⟩ := n
  rw [marks]

theorem marksAll_eq : marksAll nodes = nodes.flatMap marks := by
  induction nodes with
  | nil => rw [marksAll]; rfl
  | cons n nodes ih => rw [marksAll, ih]; rfl

theorem marksAll_append : marksAll (left ++ right) = marksAll left ++ marksAll right := by
  simp only [marksAll_eq, flatMap_append]

/-- No two nodes of a tree with some text share kind and byte range. -/
def Distinct (n : Node) : Prop := (n.marks.filter Imprint.hasText).Nodup

def isSolid (n : Node) : Bool := n.named || n.children.isEmpty

end Node

/-! ## Placing. -/

/-- What placing gives: nodes between two bytes that repeat neither one another nor the nodes around
them, and words and punctuation without children. -/
structure Placed (around : List Imprint) (first last : Nat) (nodes : List Node) : Prop where
  within : ∀ m ∈ Node.marksAll nodes, first ≤ m.1 ∧ m.1 ≤ m.2.1 ∧ m.2.1 ≤ last
  fresh : ∀ m ∈ Node.marksAll nodes, m ∉ around
  once : ((Node.marksAll nodes).filter Imprint.hasText).Nodup
  solid : Node.allIn Node.isSolid nodes = true

namespace Placed

variable {around : List Imprint} {first last : Nat}

theorem nil : Placed around first last [] where
  within _ h := nomatch h
  fresh _ h := nomatch h
  once := nodup_nil
  solid := rfl

theorem single {named : Bool} {role : Option String} {span : Span} {text : String}
    (hspan : span.start ≤ span.stop) (hfresh : (span.start, span.stop, kind) ∉ around)
    (hnamed : named = true ∨ children = [])
    (h : Placed ((span.start, span.stop, kind) :: around) span.start span.stop children) :
    Placed around span.start span.stop [⟨kind, named, role, span, text, children⟩] := by
  have hmarks : Node.marksAll [⟨kind, named, role, span, text, children⟩]
      = (span.start, span.stop, kind) :: Node.marksAll children := by
    rw [Node.marksAll, Node.marksAll, append_nil]
    rfl
  refine ⟨?_, ?_, ?_, ?_⟩
  · rw [hmarks]
    exact forall_mem_cons.mpr ⟨⟨Nat.le_refl _, hspan, Nat.le_refl _⟩, h.within⟩
  · rw [hmarks]
    refine forall_mem_cons.mpr ⟨hfresh, fun m hm hmem => ?_⟩
    exact h.fresh m hm (mem_cons_of_mem _ hmem)
  · rw [hmarks, filter_cons]
    split
    · refine nodup_cons.mpr ⟨fun hmem => ?_, h.once⟩
      exact h.fresh _ (mem_filter.mp hmem).1 mem_cons_self
    · exact h.once
  · have hsolid : Node.isSolid ⟨kind, named, role, span, text, children⟩ = true := by
      rcases hnamed with rfl | rfl
      · rfl
      · exact Bool.or_true _
    rw [Node.allIn, Node.all_eq, hsolid, h.solid]
    rfl

/-- Siblings, one part of them behind the other. -/
theorem append {middle : Nat} (hfirst : first ≤ middle) (hlast : middle ≤ last)
    (hleft : Placed around first middle left) (hright : Placed around middle last right) :
    Placed around first last (left ++ right) := by
  refine ⟨?_, ?_, ?_, ?_⟩
  · rw [Node.marksAll_append]
    refine forall_mem_append.mpr ⟨fun m hm => ?_, fun m hm => ?_⟩
    · have := hleft.within m hm
      omega
    · have := hright.within m hm
      omega
  · rw [Node.marksAll_append]
    exact forall_mem_append.mpr ⟨hleft.fresh, hright.fresh⟩
  · rw [Node.marksAll_append, filter_append]
    refine nodup_append.mpr ⟨hleft.once, hright.once, ?_⟩
    -- a range with some text does not end before and start after the middle
    rintro m hm _ hm' rfl
    obtain ⟨hm, htext⟩ := mem_filter.mp hm
    have hbefore := hleft.within m hm
    have hafter := hright.within m (mem_filter.mp hm').1
    have htext : m.1 < m.2.1 := of_decide_eq_true htext
    omega
  · rw [Node.allIn_iff]
    exact forall_mem_append.mpr ⟨Node.allIn_iff.mp hleft.solid, Node.allIn_iff.mp hright.solid⟩

theorem widen {first' : Nat} (h : Placed around first' last nodes) (hfirst : first ≤ first') :
    Placed around first last nodes where
  __ := h
  within m hm := by
    have := h.within m hm
    omega

end Placed

namespace Draft

variable {d : Draft}

theorem spanIn_bounds (l : Layout) {first last : Nat} (h : first ≤ last) (d : Draft) :
    first ≤ (d.spanIn l first last).start
      ∧ (d.spanIn l first last).start ≤ (d.spanIn l first last).stop
      ∧ (d.spanIn l first last).stop ≤ last := by
  simp only [spanIn, Span.clamp]
  omega

mutual

theorem placed_place (l : Layout) (around : List Imprint) (first last : Nat) (h : first ≤ last) :
    ∀ d : Draft, Placed around (d.spanIn l first last).start (d.spanIn l first last).stop
      (d.place l around first last)
  | ⟨kind, named, role, start, stop, children⟩ => by
    have hbounds := spanIn_bounds l h ⟨kind, named, role, start, stop, children⟩
    rw [place]
    generalize spanIn l first last ⟨kind, named, role, start, stop, children⟩ = span at hbounds ⊢
    split
    · exact placed_placeAll l around _ _ hbounds.2.1 children
    · next hfresh =>
      rw [contains_iff_mem] at hfresh
      refine .single hbounds.2.1 hfresh ?_ ?_
      · cases named with
        | true => exact .inl rfl
        | false => exact .inr rfl
      · cases named with
        | true => exact placed_placeAll l _ _ _ hbounds.2.1 children
        | false => exact .nil

theorem placed_placeAll (l : Layout) (around : List Imprint) (first last : Nat) (h : first ≤ last) :
    ∀ drafts : List Draft, Placed around first last (placeAll l around first last drafts)
  | [] => by
    rw [placeAll]
    exact .nil
  | d :: rest => by
    have hbounds := spanIn_bounds l h d
    rw [placeAll]
    refine .append (Nat.le_trans hbounds.1 hbounds.2.1) hbounds.2.2 ?_ ?_
    · exact (placed_place l around first last h d).widen hbounds.1
    · exact placed_placeAll l around _ last hbounds.2.2 rest

end

theorem finish_eq (l : Layout) (d : Draft) :
    [d.finish l] = d.place l [] 0 (l.bytes.back?.getD 0) ∧ (d.finish l).kind = d.kind
      ∧ (d.finish l).named = d.named := by
  obtain ⟨kind, named, role, start, stop, children⟩ := d
  exact ⟨rfl, rfl, rfl⟩

theorem placed_finish {l : Layout} :
    Placed [] (d.spanIn l 0 (l.bytes.back?.getD 0)).start
      (d.spanIn l 0 (l.bytes.back?.getD 0)).stop [d.finish l] := by
  rw [(d.finish_eq l).1]
  exact placed_place l [] 0 _ (Nat.zero_le _) d

theorem insert_same {extra : Draft} :
    (insert extra d).kind = d.kind ∧ (insert extra d).named = d.named := by
  obtain ⟨kind, named, role, start, stop, children⟩ := d
  exact ⟨rfl, rfl⟩

theorem foldl_insert_same {extras : List Draft} :
    ∀ d : Draft, (extras.foldl (fun tree extra => insert extra tree) d).kind = d.kind
      ∧ (extras.foldl (fun tree extra => insert extra tree) d).named = d.named := by
  induction extras with
  | nil => exact fun d => ⟨rfl, rfl⟩
  | cons extra extras ih =>
    intro d
    obtain ⟨hkind, hnamed⟩ := ih (insert extra d)
    exact ⟨hkind.trans insert_same.1, hnamed.trans insert_same.2⟩

end Draft

/-! ## Trees of files. -/

theorem parse_program : (parse bytes).kind = .program ∧ (parse bytes).named = true := by
  unfold parse program
  obtain ⟨-, hkind, hnamed⟩ := Draft.finish_eq (.ofGlyphs (Text.glyphs bytes.data.toList))
    (program (tokenize ((Text.glyphs bytes.data.toList).map Text.Glyph.char))
      (Text.glyphs bytes.data.toList).length)
  unfold program at hkind hnamed
  exact ⟨hkind.trans (Draft.foldl_insert_same _).1, hnamed.trans (Draft.foldl_insert_same _).2⟩

theorem parse_placed : ∃ first last, Placed [] first last [parse bytes] := by
  unfold parse
  exact ⟨_, _, Draft.placed_finish⟩

/-- **In the tree of a file, nodes with some text differ in kind or byte range.** -/
theorem parse_distinct : (parse bytes).Distinct := by
  obtain ⟨first, last, h⟩ := parse_placed
  have honce := h.once
  rw [Node.marksAll, Node.marksAll, append_nil] at honce
  exact honce

theorem parse_solid : (parse bytes).all Node.isSolid = true := by
  obtain ⟨first, last, h⟩ := parse_placed
  exact Node.allIn_iff.mp h.solid _ mem_cons_self

/-! ## Finding nodes. -/

namespace Cursor

variable {c root d child : Cursor}

theorem map_mark_preorder : c.preorder.map (fun d => d.node.mark) = c.node.marks := by
  induction c using induct with
  | step c ih =>
    rw [preorder_eq, map_cons, map_flatMap, flatMap_congr ih, Node.marks_eq, ← map_node_children,
      Node.marksAll_eq, flatMap_map]

/-- **A node with some text is found by its kind and byte range**, if no other node has both. -/
theorem locate?_eq (hroot : root.node.Distinct) (hc : c ∈ root.preorder)
    (htext : c.node.span.start < c.node.span.stop) :
    root.locate? c.node.span.start c.node.span.stop c.kind = some c := by
  have hnodup : ((root.preorder.filter fun d => d.node.mark.hasText).map fun d =>
      d.node.mark).Nodup := by
    have hfilter := filter_map (f := fun d : Cursor => d.node.mark) (p := Imprint.hasText)
      (l := root.preorder)
    rw [Node.Distinct, ← map_mark_preorder, hfilter] at hroot
    exact hroot
  have hmem : c ∈ root.preorder.filter fun d => d.node.mark.hasText :=
    mem_filter.mpr ⟨hc, decide_eq_true htext⟩
  -- whatever is found has the mark of the node, so it is the node
  have honly : ∀ d ∈ root.preorder.filter (fun d => d.kind = c.kind
      && (d.node.span.start : Int) = c.node.span.start && (d.node.span.stop : Int) = c.node.span.stop),
      d = c := by
    intro d hd
    obtain ⟨hd, hsame⟩ := mem_filter.mp hd
    simp only [Bool.and_eq_true, decide_eq_true_eq, Int.natCast_inj] at hsame
    obtain ⟨⟨hkind, hstart⟩, hstop⟩ := hsame
    have hmark : d.node.mark = c.node.mark := by
      show (_, _, d.kind) = (_, _, c.kind)
      rw [hkind, hstart, hstop]
    refine inj_on_of_nodup_map hnodup (mem_filter.mpr ⟨hd, ?_⟩) hmem hmark
    rw [hmark]
    exact decide_eq_true htext
  have hfound : c ∈ root.preorder.filter (fun d => d.kind = c.kind
      && (d.node.span.start : Int) = c.node.span.start
      && (d.node.span.stop : Int) = c.node.span.stop) :=
    mem_filter.mpr ⟨hc, by simp⟩
  rw [locate?, if_pos (by omega), getLast?_eq_getLast_of_ne_nil (ne_nil_of_mem hfound)]
  exact congrArg some (honly _ (getLast_mem _))

theorem locate?_of_no_text {start stop : Nat} (h : ¬ start < stop) :
    root.locate? start stop kind = none := by
  rw [locate?, if_neg (by omega)]

/-! ## Going through a tree. -/

def place (c : Cursor) : List Nat := c.above.map Prod.fst

theorem place_child (h : child ∈ c.children) : ∃ i, child.place = i :: c.place := by
  obtain ⟨-, -, i, habove⟩ := mem_children h
  exact ⟨i, congrArg (map Prod.fst) habove⟩

theorem suffix_of_mem_preorder (hd : d ∈ c.preorder) : c.place <:+ d.place := by
  refine forall_preorder (p := fun d => c.place <:+ d.place) (fun d h child hchild => ?_)
    (suffix_refl _) d hd
  obtain ⟨i, hi⟩ := place_child hchild
  exact hi ▸ h.trans (suffix_cons i _)

theorem place_siblings {tree : Nat} {parent : Node} {above : List (Nat × Node)} :
    ∀ i, (siblings tree parent above i nodes).map place
      = (range' i nodes.length).map fun j => j :: above.map Prod.fst := by
  induction nodes with
  | nil => exact fun i => rfl
  | cons n nodes ih => exact fun i => congrArg (_ :: ·) (ih (i + 1))

/-- **Going through a tree comes by no place twice.** -/
theorem preorder_apart (c : Cursor) : (c.preorder.map place).Nodup := by
  induction c using induct with
  | step c ih =>
    have hchildren : c.children.Pairwise fun a b => a.place ≠ b.place := by
      rw [← pairwise_map, children, place_siblings]
      exact (nodup_range' ..).map fun _ _ h => (cons.inj h).1
    rw [preorder_eq, map_cons, map_flatMap]
    refine nodup_cons.mpr ⟨fun hmem => ?_, nodup_flatMap.mpr ⟨ih, hchildren.imp_of_mem ?_⟩⟩
    · obtain ⟨child, hchild, hmem⟩ := mem_flatMap.mp hmem
      obtain ⟨d, hd, hplace⟩ := mem_map.mp hmem
      obtain ⟨i, hi⟩ := place_child hchild
      have hlength := (suffix_of_mem_preorder hd).length_le
      rw [hplace, hi, length_cons] at hlength
      omega
    · -- ways that end alike and are as long are the same
      intro a b ha hb hne way hway hway'
      obtain ⟨d, hd, rfl⟩ := mem_map.mp hway
      obtain ⟨e, he, hplace⟩ := mem_map.mp hway'
      obtain ⟨i, hi⟩ := place_child ha
      obtain ⟨j, hj⟩ := place_child hb
      have hlength : a.place.length = b.place.length := by rw [hi, hj]; rfl
      have hb := hplace ▸ suffix_of_mem_preorder he
      exact hne ((suffix_of_suffix_length_le (suffix_of_mem_preorder hd) hb (Nat.le_of_eq hlength)).eq_of_length
        hlength)

theorem mem_preorder_of_below (hc : c ∈ root.preorder) (h : Below c d) : d ∈ root.preorder := by
  induction h with
  | single hchild => exact mem_preorder_of_child hc hchild
  | tail _ hchild ih => exact mem_preorder_of_child ih hchild

end Cursor

end QueryAudit.Php
