/-
  QueryAudit.Proofs.Scope.LineOrder — definitions of variables in the order of lines

  Where the nodes of a tree come in the order of the source, a pass enters them in the order of
  their lines. Every definition of a variable is made at the line of the node that is entered, so
  the definitions of one scope and variable are in the order of lines, whenever they are filed.

  Main results: `preorder_inOrder`, `enter_atLine`, `entries_inOrder`.
-/

import Mathlib.Data.List.Nodup
import QueryAudit.Proofs.Scope.Entering
import QueryAudit.Proofs.Scope.Lookup

namespace QueryAudit.Php.Cursor

open List

variable {root c : Cursor}

/-- A child never starts before its parent, and siblings come in the order of the source: nothing of
one starts after a later one. -/
def InSourceOrder (root : Cursor) : Prop :=
  ∀ c ∈ root.preorder, (∀ child ∈ c.children, c.line ≤ child.line)
    ∧ c.children.Pairwise fun a b => ∀ d ∈ a.preorder, d.line ≤ b.line

instance : Decidable root.InSourceOrder := inferInstanceAs (Decidable (∀ _ ∈ _, _))

/-- Then all nodes, parents before children, come in the order of their lines. -/
theorem preorder_inOrder (h : c.InSourceOrder) :
    (∀ d ∈ c.preorder, c.line ≤ d.line) ∧ c.preorder.Pairwise fun a b => a.line ≤ b.line := by
  induction c using Cursor.induct with
  | step c ih =>
    obtain ⟨hchild, hsiblings⟩ := h c c.mem_preorder_self
    replace ih := fun child hmem => ih child hmem fun d hd => h d <| by
      rw [preorder_eq]
      exact mem_cons_of_mem _ (mem_flatMap.mpr ⟨child, hmem, hd⟩)
    have hfirst : ∀ d ∈ c.children.flatMap preorder, c.line ≤ d.line := by
      intro d hd
      obtain ⟨child, hmem, hd⟩ := mem_flatMap.mp hd
      exact Nat.le_trans (hchild child hmem) ((ih child hmem).1 d hd)
    rw [preorder_eq]
    refine ⟨forall_mem_cons.mpr ⟨Nat.le_refl _, hfirst⟩, pairwise_cons.mpr ⟨hfirst,
      pairwise_flatMap.mpr ⟨fun child hmem => (ih child hmem).2, ?_⟩⟩⟩
    exact hsiblings.imp_of_mem fun _ hb hle d hd e he => Nat.le_trans (hle d hd) ((ih _ hb).1 e he)

end QueryAudit.Php.Cursor

namespace QueryAudit.Scope

open Audit Php List Cursor

variable {x key : String} {c node root : Cursor} {line : Int} {b : Binding}

namespace Tracker

variable {t t' : Tracker}

/-! ## Lines of definitions. -/

/-- From one state to another definitions of variables are made at one line only. -/
def AtLine (line : Int) (t t' : Tracker) : Prop :=
  ∀ key x, isVariable x → ∃ added, t'.entries key x = t.entries key x ++ added
    ∧ ∀ b ∈ added, b.line = line

instance (line : Int) : IsPreorder Tracker (AtLine line) where
  refl t key x _ := ⟨[], (append_nil _).symm, fun _ hb => nomatch hb⟩
  trans t t' t'' h h' key x hx := by
    obtain ⟨first, heq, hfirst⟩ := h key x hx
    obtain ⟨rest, heq', hrest⟩ := h' key x hx
    exact ⟨first ++ rest, by rw [heq', heq, append_assoc], forall_mem_append.mpr ⟨hfirst, hrest⟩⟩

theorem atLine_of_same (h : t'.entries = t.entries) : AtLine line t t' := by
  intro key x _
  exact ⟨[], by rw [h, append_nil], fun _ hb => nomatch hb⟩

theorem atLine_bind (t : Tracker) (closure : Closure) (h : isVariable b.identifier → b.line = line) :
    AtLine line t (t.bind closure b) := by
  intro key x hx
  rw [entries_bind]
  refine ⟨_, rfl, fun made hmade => ?_⟩
  split at hmade
  · next hsame =>
    rw [mem_singleton.mp hmade]
    exact h (hsame.2 ▸ hx)
  · cases hmade

theorem atLine_binds (line : Int) :
    Binds (fun _ => True) (fun _ => True) (fun _ => True) line (AtLine line) where
  below _ _ _ _ := trivial
  fine _ _ _ _ := trivial
  bind t closure _ _ _ _ _ _ hline := atLine_bind t closure hline
  known _ _ h := h fun _ _ _ _ _ _ => trivial

/-- The name that an element of a constant declaration is defined under. -/
def constantName (element : Cursor) : String :=
  if element.nameText = "" then ((element.parts.head?).map text).getD "" else element.nameText

theorem atLine_registerConstants
    (h : ∀ element ∈ node.allOfKind .constElement, isVariable (constantName element) = false) :
    KeepsTo (AtLine line) (Pass.registerConstants node) := by
  unfold Pass.registerConstants
  refine keeps_bind (keeps_forIn_mem fun element helement _ => ?_) fun _ => keeps_pure
  split
  · next first second rest hparts =>
    refine keeps_bind keeps_get fun t => ?_
    refine keeps_bind (keeps_modify fun t => atLine_bind t _ fun hvariable => ?_) fun _ => keeps_pure
    have hname := h element helement
    rw [constantName, hparts] at hname
    exact absurd hvariable (ne_true_of_eq_false hname)
  · exact keeps_pure

/-- **Entering a node defines variables at its line.** -/
theorem enter_atLine (h : ∀ child ∈ node.children, child.kind = .constElement →
    isVariable (constantName child) = false) : AtLine node.line t (t.enter node) := by
  have hsame : ∀ {t t' : Tracker}, t'.entries = t.entries → AtLine node.line t t' := atLine_of_same
  have hopened : AtLine node.line t (t.opened node) :=
    Pass.opened_within (fun _ _ _ _ _ _ _ => hsame rfl) (fun t closure => hsame (entries_openScope t closure))
      (fun _ _ _ => hsame rfl) t node
  have hnote : KeepsTo (AtLine node.line) (Pass.noteCall node) := by
    unfold Pass.noteCall
    refine keeps_get_bind fun t => ?_
    split
    · exact hsame rfl
    · exact keeps_pure t
  refine enter_of_after (fun t _ => hsame rfl) (trans_of (AtLine node.line) hopened ?_)
  exact Pass.binds_enter (atLine_binds _) trivial trivial t (fun _ => hsame rfl)
    (fun _ => atLine_registerConstants fun element helement =>
      h element (mem_filter.mp helement).1 (of_decide_eq_true (mem_filter.mp helement).2))
    (fun _ => hnote) (fun _ => trivial) fun _ _ => trivial

theorem line_of_mem_madeAt (h : ∀ child ∈ node.children, child.kind = .constElement →
    isVariable (constantName child) = false) (hx : isVariable x) (hb : b ∈ madeAt key x (node, t)) :
    b.line = node.line := by
  obtain ⟨added, heq, hadded⟩ := enter_atLine (t := t) h key x hx
  rw [madeAt, heq, drop_left] at hb
  exact hadded b hb

/-! ## The order of a pass. -/

theorem Goes.sublist {nodes : List Cursor} {inside : List (Cursor × Tracker)}
    (h : Goes nodes t inside t') : (inside.map Prod.fst).Sublist (nodes.flatMap preorder) := by
  induction h with
  | nil => exact nil_sublist _
  | skip _ _ ih =>
    rw [flatMap_cons]
    exact ih.trans (sublist_append_right _ _)
  | node _ _ _ ihinside ihrest =>
    rw [map_append, map_cons, flatMap_cons, preorder_eq]
    exact (ihinside.cons_cons _).append ihrest

theorem states_sublist (names : List String) (path : String) (root : Cursor) :
    ((states names path root).map Prod.fst).Sublist root.preorder := by
  obtain ⟨inside, _, hgoes, hentered, -⟩ := exists_goes root ((start names path).openScope .global)
  rw [states, hentered, map_cons, preorder_eq]
  exact hgoes.sublist.cons_cons _

theorem entries_finish_inOrder (names : List String) (path : String) (h : root.InSourceOrder)
    (hnames : ∀ c ∈ root.preorder, c.kind = .constElement → isVariable (constantName c) = false)
    (hx : isVariable x) :
    ((finish names path root).entries key x).Pairwise fun a b => a.line ≤ b.line := by
  have hsublist := states_sublist names path root
  have hlines : ∀ e ∈ states names path root, ∀ b ∈ madeAt key x e, b.line = e.1.line :=
    fun e he b => line_of_mem_madeAt (fun child hchild => hnames child
      (mem_preorder_of_child (hsublist.subset (mem_map_of_mem he)) hchild)) hx
  rw [entries_finish, pairwise_flatMap]
  refine ⟨fun e he => pairwise_of_forall_mem_list fun a ha b hb => ?_, ?_⟩
  · exact Int.le_of_eq ((hlines e he a ha).trans (hlines e he b hb).symm)
  · refine (pairwise_map.mp ((preorder_inOrder h).2.sublist hsublist)).imp_of_mem ?_
    intro e e' he he' hle a ha b hb
    rw [hlines e he a ha, hlines e' he' b hb]
    exact Int.ofNat_le.mpr hle

end Tracker

/-! ## Looking up. -/

theorem lastBefore_eq_getLast? {entries : List Binding} (h : ∀ e ∈ entries, e.line ≤ line) :
    lastBefore entries (some line) = entries.getLast? := by
  rw [lastBefore, ← head?_reverse]
  cases hreverse : entries.reverse with
  | nil => rfl
  | cons e rest =>
    have he : e ∈ entries := mem_reverse.mp (hreverse ▸ mem_cons_self)
    rw [find?_cons_of_pos (by simpa using h e he), head?_cons]

/-- **Definitions of variables are in the order of lines.** So a look-up gives, in the first scope
that has a definition not after the line, one with the greatest such line; and a definition with
earlier ones in its list, made by no loop of its own, hides the last of these. -/
theorem entries_inOrder (names : List String) (path : String) (h : root.InSourceOrder)
    (hnames : ∀ c ∈ root.preorder, c.kind = .constElement →
      isVariable (Tracker.constantName c) = false) (hx : isVariable x) :
    let s := (Tracker.run names path root).1
    (∀ key, (s.entries key x).Pairwise fun a b => a.line ≤ b.line)
      ∧ (∀ owner line b, s.lookup owner x (some line) = some b ↔ ∃ inner c outer,
          s.levels owner (some line) = inner ++ c :: outer
            ∧ (∀ d ∈ inner, ∀ e ∈ s.entries d.key x, line < e.line)
            ∧ ∃ before after, s.entries c.key x = before ++ b :: after ∧ b.line ≤ line
              ∧ (∀ e ∈ before, e.line ≤ b.line) ∧ ∀ e ∈ after, line < e.line)
      ∧ ∀ key, ∀ b ∈ s.entries key x, s.earlier b ≠ [] → s.previous b = (s.earlier b).getLast? := by
  intro s
  have hsorted : ∀ key, (s.entries key x).Pairwise fun a b => a.line ≤ b.line := by
    intro key
    rw [show s = _ from congrArg Prod.fst (Tracker.run_eq names path root)]
    exact (pairwise_append.mp (Tracker.entries_finish_inOrder names path h hnames hx)).1
  refine ⟨hsorted, fun owner line b => ?_, fun key b hb hearlier => ?_⟩
  · have hnot : ∀ d : Binding, ¬ d.NotAfter (some line) ↔ line < d.line := fun d => by
      simp [Binding.NotAfter]
    rw [FileScopes.lookup, FileScopes.lookupIn, findSome?_eq_some_iff]
    refine exists_congr fun inner => exists_congr fun c => exists_congr fun outer =>
      and_congr_right fun _ => and_comm.trans (and_congr (forall₂_congr fun d _ => ?_) ?_)
    · simp only [lastBefore_eq_none_iff, hnot]
    rw [lastBefore_eq_some_iff]
    constructor
    · rintro ⟨hline, before, after, heq, hafter⟩
      have hbefore := (pairwise_append.mp (heq ▸ hsorted c.key)).2.2
      exact ⟨before, after, heq, hline line rfl, fun e he => hbefore e he b mem_cons_self,
        fun e he => (hnot e).mp (hafter e he)⟩
    · rintro ⟨before, after, heq, hline, _, hafter⟩
      exact ⟨fun n hn => Option.some.inj hn ▸ hline, before, after, heq,
        fun e he => (hnot e).mpr (hafter e he)⟩
  · have hfiled := (run_wellFiled names path root).2
    obtain ⟨hclosure, hidentifier, _⟩ := hfiled.place key x b hb
    have hlines : ∀ e ∈ s.earlier b, e.line ≤ b.line := by
      intro e he
      obtain ⟨_, same, hserial, hpair⟩ := FileScopes.mem_earlier he
      rw [hclosure, hidentifier] at hpair
      -- definitions of one list have different numbers
      obtain rfl : same = b := inj_on_of_nodup_map
        (pairwise_map.mpr ((hfiled.ordered key x).imp Nat.ne_of_lt)) (hpair.subset (by simp)) hb hserial
      exact rel_of_pairwise_cons ((hsorted key).sublist hpair) mem_cons_self
    rw [FileScopes.previous]
    split
    · next hnone => exact absurd hnone hearlier
    · exact lastBefore_eq_getLast? hlines

/-- Two loops on one line, one inside the other, and definitions before, inside and after them. -/
def loopsInLoops : Cursor :=
  .root 0 (parse ("<?php\nfunction f($x) \x7b\nforeach ($x as $k => $x) foreach ($x as $x)\n  $x = $k;\n"
    ++ "$x =\n$x . 'a';\nreturn $x; \x7d").toUTF8)

theorem entries_inOrder_loops :
    let s := (Tracker.run [] "a.php" loopsInLoops).1
    (s.entries "::f" "$x").map (·.line) = [2, 4, 5]
      ∧ (s.entries "::f::FOREACH_3" "$x").Pairwise (fun a b => a.line ≤ b.line)
      ∧ ∀ b ∈ s.entries "::f" "$x", s.earlier b ≠ [] → s.previous b = (s.earlier b).getLast? := by
  have hfacts : loopsInLoops.InSourceOrder
      ∧ (∀ c ∈ loopsInLoops.preorder, c.kind = .constElement →
        isVariable (Tracker.constantName c) = false)
      ∧ ((Tracker.run [] "a.php" loopsInLoops).1.entries "::f" "$x").map (·.line) = [2, 4, 5] := by
    decide +kernel
  obtain ⟨horder, hnames, hlines⟩ := hfacts
  obtain ⟨hsorted, _, hprevious⟩ := entries_inOrder (x := "$x") [] "a.php" horder hnames (by decide)
  exact ⟨hlines, hsorted _, hprevious _⟩

end QueryAudit.Scope
