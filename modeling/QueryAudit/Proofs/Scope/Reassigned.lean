/-
  QueryAudit.Proofs.Scope.Reassigned — variables that are assigned inside of loops

  Variables of a loop are filed under its block, and what is assigned in its body under the function
  around it. So an assignment is found by the references after it exactly if no loop around them
  binds the variable.

  Main results: `mem_blocksOf_run`, `entries_run_of_flat`, `resolve_assigned`,
    `resolve_hides_assignment`.
-/

import QueryAudit.Proofs.Scope.Lookup
import QueryAudit.Proofs.Scope.Standing
import QueryAudit.Proofs.StraightLine.Definitions

namespace QueryAudit.Php

open Node

variable {place : String × Node}

/-! ## Trees without nested declarations. -/

theorem Cursor.mem_ancestors_of_below {c d : Cursor} (h : c.Below d) : c ∈ d.ancestors := by
  induction h with
  | single h => exact Cursor.ancestors_child h ▸ List.mem_cons_self
  | tail _ h ih => exact Cursor.ancestors_child h ▸ List.mem_cons_of_mem _ ih

/-- What a node holds of a sort stands below it. -/
theorem Cursor.exists_below_of_meetsIn {sort : Kind → Bool} (c : Cursor)
    (h : meetsIn sort c.node.children) : ∃ d, c.Below d ∧ sort d.kind := by
  induction c using Cursor.induct with
  | step c ih =>
    rw [meetsIn_eq, ← Cursor.map_node_children, List.any_map, List.any_eq_true] at h
    obtain ⟨child, hchild, hmeets⟩ := h
    have hmeets := (Bool.and_eq_true .. ▸ hmeets).2
    rw [meets_eq, Bool.or_eq_true] at hmeets
    rcases hmeets with hsort | hmeets
    · exact ⟨child, .of_child hchild, hsort⟩
    · obtain ⟨d, hd, hsort⟩ := ih child hchild hmeets
      exact ⟨d, (Cursor.Below.of_child hchild).trans hd, hsort⟩

theorem Node.mem_passedIn {nodes : List Node} :
    ∀ {className : String}, place ∈ passedIn className nodes →
      ∃ n ∈ nodes, ∃ around, place ∈ n.passed around := by
  induction nodes with
  | nil =>
    intro className h
    cases h
  | cons n nodes ih =>
    intro className h
    have hlater : ∀ {around}, place ∈ passedIn around nodes →
        ∃ m ∈ n :: nodes, ∃ around, place ∈ m.passed around := fun h => by
      obtain ⟨m, hm, hplace⟩ := ih h
      exact ⟨m, List.mem_cons_of_mem _ hm, hplace⟩
    rw [passedIn] at h
    split at h
    · rcases List.mem_append.mp h with h | h
      · exact ⟨n, List.mem_cons_self, _, h⟩
      · exact hlater h
    · exact hlater h

/-- What is gone through stands at or below a node. -/
theorem Cursor.exists_of_passed (c : Cursor) {className : String}
    (h : place ∈ c.node.passed className) : ∃ d ∈ c.preorder, d.node = place.2 := by
  induction c using Cursor.induct generalizing className with
  | step c ih =>
    rw [passed_eq, List.mem_cons] at h
    rcases h with rfl | h
    · exact ⟨c, c.mem_preorder_self, rfl⟩
    obtain ⟨n, hn, around, hplace⟩ := mem_passedIn h
    rw [← Cursor.map_node_children] at hn
    obtain ⟨child, hchild, rfl⟩ := List.mem_map.mp hn
    obtain ⟨d, hd, hnode⟩ := ih child hchild hplace
    refine ⟨d, ?_, hnode⟩
    rw [Cursor.preorder_eq]
    exact List.mem_cons_of_mem _ (List.mem_flatMap.mpr ⟨child, hchild, hd⟩)

/-- In a tree without nested declarations no class holds a class and no function a function. -/
theorem holdsOwnSort_of_flat {root : Cursor} (hflat : ∀ c ∈ root.preorder, c.isFlat)
    (hplace : place ∈ root.node.passed "") : place.2.holdsOwnSort = false := by
  obtain ⟨c, hmem, hnode⟩ := root.exists_of_passed hplace
  rw [← hnode, ← Bool.not_eq_true, holdsOwnSort]
  intro hholds
  rw [Bool.or_eq_true, Bool.and_eq_true, Bool.and_eq_true] at hholds
  rcases hholds with ⟨hsort, hmeets⟩ | ⟨hsort, hmeets⟩
  all_goals
    obtain ⟨d, hd, hkind⟩ := c.exists_below_of_meetsIn hmeets
    have hnested := hflat d (Cursor.mem_preorder_of_below hmem hd)
    have habove := Cursor.mem_ancestors_of_below hd
  · obtain ⟨hnone, -⟩ := Cursor.isFlat_class hnested hkind
    exact List.find?_eq_none.mp hnone c habove hsort
  · have hnone := Cursor.isFlat_function hnested hkind
    exact List.find?_eq_none.mp hnone c habove hsort

end QueryAudit.Php

namespace QueryAudit.Scope

open Audit Php StraightLine Tracker List

variable {names : List String} {path key x : String} {root a right : Cursor} {e : Cursor × Tracker}
  {b : Binding} {line : Int} {owner c : Closure}

/-! ## What is filed for a tree. -/

/-- The block of a loop, in the scope that it stands in. -/
def blockOf (owner : Closure) (loop : Cursor) : Closure :=
  { kind := .block, className := owner.className, methodName := owner.methodName
    line := loop.line, endLine := loop.node.lastLine }

namespace Tracker

variable {t : Tracker} {c : Cursor}

/-- The definitions of a scope and identifier that a pass makes, in the order of its nodes. -/
def definitions (names : List String) (path : String) (root : Cursor) (key x : String) :
    List Binding :=
  (states names path root).flatMap (madeAt key x)

theorem enter_blocksOf :
    (t.enter c).scopes.blocksOf key = if c.kind = .foreachStatement ∧ isComplete c = true then
      (t.scopes.addBlock (blockOf t.activeClosure c)).blocksOf key else t.scopes.blocksOf key := by
  rw [FileScopes.blocksOf, enter_defines.blocks]
  exact opened_loop (·.scopes.blocksOf key) rfl rfl

theorem leave_blocks : (t.leave c).scopes.blocks = t.scopes.blocks :=
  leave_within (R := Same fun t => t.scopes.blocks) (fun _ _ _ _ _ _ _ => rfl) (fun _ => rfl)

/-- Blocks are noted for the loops that are entered. -/
theorem Seen.blocks {start : Tracker} {first last : List Closure} {nodes : List (Cursor × Tracker)}
    (h : Seen start (·.scopes.blocksOf key) first nodes last) (c : Closure) :
    c ∈ last ↔ c ∈ first ∨ ∃ e ∈ nodes, (e.1.kind = .foreachStatement ∧ isComplete e.1)
      ∧ blockOf e.2.activeClosure e.1 = c ∧ c.owner.key = key := by
  induction h with
  | nil => simp
  | cons d t _ _ ih =>
    rw [ih, enter_blocksOf, FileScopes.blocksOf_addBlock]
    simp only [mem_cons, exists_eq_or_imp]
    split <;> grind

end Tracker

/-- **What a pass files are the definitions made at the nodes, in order**, if no declarations are
nested. -/
theorem entries_run_of_flat (hflat : ∀ c ∈ root.preorder, c.isFlat) (names : List String)
    (path key x : String) : (run names path root).1.entries key x
      = definitions names path root key x := by
  rw [definitions, ← entries_finish, entries_eq,
    pending_finish names path fun place hplace => holdsOwnSort_of_flat hflat hplace, append_nil,
    run_eq]

/-- A loop over a collection that stands in the scope with a key, around a line. -/
structure LoopAround (root : Cursor) (key : String) (line : Int) (loop : Cursor) : Prop where
  mem : loop ∈ root.preorder
  named : loop.node.named = true
  kind : loop.kind = .foreachStatement
  complete : isComplete loop = true
  scope : (blockOf (closureAbove loop.ancestors none) loop).owner.key = key
  first : loop.line ≤ line
  last : line ≤ loop.node.lastLine

def loopBlock (loop : Cursor) : Closure := blockOf (closureAbove loop.ancestors none) loop

section Parsed

variable {number : Nat} {bytes : ByteArray} (hroot : root = .root number (parse bytes))
  (hflat : root.preorder.all Cursor.isFlat)

include hroot hflat

theorem active_of_mem_states (he : e ∈ states names path root) :
    e.1 ∈ root.preorder ∧ e.1.node.named = true
      ∧ e.2.activeClosure = closureAbove e.1.ancestors none := by
  subst hroot
  exact states_active parse_program.2 parse_solid (all_eq_true.mp hflat) he

/-- **The blocks of a scope around a line are those of the loops in it around the line.** -/
theorem mem_blocksAround_run (names : List String) (path : String) (owner : Closure) (line : Int)
    (c : Closure) : c ∈ (run names path root).1.blocksAround owner line
      ↔ ∃ loop, LoopAround root owner.key line loop ∧ loopBlock loop = c := by
  have hseen := states_seen (·.scopes.blocksOf owner.key) names path root
    fun t c _ => by rw [FileScopes.blocksOf, leave_blocks, FileScopes.blocksOf]
  have hmem : c ∈ (finish names path root).scopes.blocksOf owner.key ↔ _ := hseen.blocks c
  rw [run_eq, FileScopes.blocksAround, mem_mergeSort, mem_filter, ← FileScopes.blocksOf, hmem]
  constructor
  · rintro ⟨hnone | ⟨⟨loop, t⟩, he, ⟨hkind, hcomplete⟩, hblock, hkey⟩, hcontains⟩
    · cases hnone
    obtain ⟨htree, hnamed, hactive⟩ := active_of_mem_states hroot hflat he
    rw [hactive] at hblock
    subst hblock
    simp only [Closure.contains, Bool.and_eq_true, decide_eq_true_eq] at hcontains
    exact ⟨loop, ⟨htree, hnamed, hkind, hcomplete, hkey, hcontains.1, hcontains.2⟩, rfl⟩
  · rintro ⟨loop, h, rfl⟩
    have hentered : loop ∈ (states names path root).map Prod.fst := by
      have hnamed : root.node.named := by rw [hroot]; exact parse_program.2
      have hnodes := map_fst_states names path hnamed (by rw [hroot]; exact parse_solid)
      exact hnodes ▸ mem_filter.mpr ⟨h.mem, h.named⟩
    obtain ⟨⟨_, t⟩, he, rfl⟩ := mem_map.mp hentered
    obtain ⟨-, -, hactive⟩ := active_of_mem_states hroot hflat he
    refine ⟨.inr ⟨_, he, ⟨h.kind, h.complete⟩, by rw [hactive]; rfl, h.scope⟩, ?_⟩
    simp only [Closure.contains, Bool.and_eq_true, decide_eq_true_eq]
    exact ⟨h.first, h.last⟩

end Parsed

/-! ## Assignments. -/

/-- An expression is assigned to a variable. -/
structure Assigns (a : Cursor) (x : String) (right : Cursor) : Prop where
  kind : a.kind = .assignmentExpression
  left : ∃ left, a.inRole? "left" = some left ∧ left.kind = .variableName ∧ left.text = x
  right : a.inRole? "right" = some right

/-- **An assignment makes one definition, in the scope that is active.** -/
theorem Assigns.enter (h : Assigns a x right) (t : Tracker) : t.enter a = t.bind t.activeClosure
    { identifier := x, closure := "", line := a.line, node := some right } := by
  obtain ⟨left, hleft, hkind, rfl⟩ := h.left
  have henter : Pass.enter a = Pass.registerAssignment a := by
    unfold Pass.enter
    rw [h.kind]
  have hregister : Pass.registerAssignment a = Pass.registerTarget left right a.line none := by
    unfold Pass.registerAssignment
    rw [hleft, h.right]
    simp [h.kind, hkind, Kind.isPattern]
  rw [enter, henter, hregister, registerTarget_variable hkind]

theorem Assigns.madeAt (h : Assigns a x right) (t : Tracker) :
    Tracker.madeAt t.activeClosure.key x (a, t) = [t.placed t.activeClosure
      { identifier := x, closure := "", line := a.line, node := some right }] := by
  rw [Tracker.madeAt, h.enter, Tracker.entries_bind, if_pos ⟨rfl, rfl⟩, drop_left]

/-- The last definition not after a line is the one made at a node, if none that is made later comes
before the line. -/
theorem isLast_definitions {before after : List (Cursor × Tracker)}
    (hstates : states names path root = before ++ e :: after) (hb : madeAt key x e = [b])
    (hline : b.line ≤ line) (hlast : ∀ e ∈ after, ∀ d ∈ madeAt key x e, line < d.line) :
    IsLast (definitions names path root key x) (some line) b := by
  have hnot : ∀ d : Binding, d.NotAfter (some line) ↔ d.line ≤ line := fun d => by
    simp [Binding.NotAfter]
  refine ⟨(hnot b).mpr hline, before.flatMap (madeAt key x),
    after.flatMap (madeAt key x), ?_, fun d hd => ?_⟩
  · rw [definitions, hstates, flatMap_append, flatMap_cons, hb]
    rfl
  · obtain ⟨e, he, hd⟩ := mem_flatMap.mp hd
    rw [hnot]
    exact Int.not_le.mpr (hlast e he d hd)

/-! ## References. -/

/-- In a function a look-up finds the last definition of the first block around the line that has
one, or else of the function. -/
theorem lookup_method {s : FileScopes} (howner : owner.kind = .methodBody)
    (hb : IsLast (s.entries owner.key x) (some line) b) :
    (s.lookup owner x (some line) = some b ∧ ∀ c ∈ s.blocksAround owner line,
        ∀ d ∈ s.entries c.key x, ¬ d.line ≤ line)
      ∨ ∃ c ∈ s.blocksAround owner line, ∃ d, s.lookup owner x (some line) = some d
        ∧ IsLast (s.entries c.key x) (some line) d ∧ ∀ other ∈ s.blocksAround owner line,
          (∃ d ∈ s.entries other.key x, d.line ≤ line) → c.Before other := by
  have hnot : ∀ d : Binding, d.NotAfter (some line) ↔ d.line ≤ line := fun d => by
    simp [Binding.NotAfter]
  have hlookup : s.lookup owner x (some line) = ((s.blocksAround owner line).findSome? fun c =>
      lastBefore (s.entries c.key x) (some line)).or (some b) := by
    rw [FileScopes.lookup, FileScopes.lookupIn, FileScopes.levels, howner, if_neg (by simp),
      findSome?_append, findSome?_cons, lastBefore_eq_some_iff.mpr hb]
  rw [hlookup]
  cases hfound : (s.blocksAround owner line).findSome? fun c =>
      lastBefore (s.entries c.key x) (some line) with
  | none =>
    rw [findSome?_eq_none_iff] at hfound
    simp only [lastBefore_eq_none_iff, hnot] at hfound
    exact .inl ⟨rfl, hfound⟩
  | some d =>
    obtain ⟨outside, c, inside, hsplit, hd, hnone⟩ := findSome?_eq_some_iff.mp hfound
    have hsorted := hsplit ▸ s.blocksAround_sorted owner line
    refine .inr ⟨c, by simp [hsplit], d, rfl, lastBefore_eq_some_iff.mp hd, fun other hother hbinds => ?_⟩
    obtain ⟨e, he, hline⟩ := hbinds
    rw [hsplit, mem_append, mem_cons] at hother
    rcases hother with hother | rfl | hother
    · exact absurd ((hnot e).mpr hline) (lastBefore_eq_none_iff.mp (hnone other hother) e he)
    · exact .inr ⟨rfl, Int.le_refl _⟩
    · exact (pairwise_cons.mp (pairwise_append.mp hsorted).2.1).1 other hother

theorem key_ne_of_owner (hc : c.kind = .block) (howner : c.owner.key = owner.key) :
    c.key ≠ owner.key := by
  have hkey : c.key = owner.key ++ "::FOREACH_" ++ toString c.line := by
    rw [Closure.key, if_pos hc, ← howner, key_owner]
  have hpositive : 0 < ("::FOREACH_" : String).length := by decide
  intro heq
  have hlength := congrArg String.length (hkey.symm.trans heq)
  rw [String.length_append, String.length_append] at hlength
  omega

/-- Not after a line, a loop defines a variable. -/
def Binds (names : List String) (path : String) (root : Cursor) (x : String) (line : Int)
    (loop : Cursor) : Prop :=
  ∃ d ∈ definitions names path root (loopBlock loop).key x, d.line ≤ line

/-- **A reference after an assignment stands for it exactly if no loop around the reference binds
the variable.** If loops do, the reference stands for the last definition that the innermost of them
made. -/
theorem resolve_assigned {r : Run} {number : Nat} {bytes : ByteArray}
    (hroot : root = .root number (parse bytes)) (hflat : root.preorder.all Cursor.isFlat = true)
    (hready : Ready r path number (Tracker.run names path root).1)
    {use : Cursor} (huse : use ∈ root.preorder) (hvariable : use.kind = .variableName)
    (hnamed : use.node.named = true) {owner : Closure} (howner : owner.kind = .methodBody)
    (hfunction : closureAbove use.ancestors none = owner)
    (hsame : closureAbove a.ancestors none = owner) (hassigns : Assigns a use.text right)
    {before after : List (Cursor × Tracker)} {t : Tracker}
    (hstates : Tracker.states names path root = before ++ (a, t) :: after)
    (hline : a.line ≤ use.line)
    (hlast : ∀ e ∈ after, ∀ d ∈ Tracker.madeAt owner.key use.text e, use.line < d.line) :
    ∃ b, Tracker.madeAt owner.key use.text (a, t) = [b] ∧ b.node = some right ∧ b.line = a.line
      ∧ (resolve path use none r = .ok (some b) r ↔ ¬ ∃ loop,
        LoopAround root owner.key use.line loop ∧ Binds names path root use.text use.line loop)
      ∧ ((∃ loop, LoopAround root owner.key use.line loop
          ∧ Binds names path root use.text use.line loop) →
        ∃ inner d, LoopAround root owner.key use.line inner ∧ resolve path use none r = .ok (some d) r
          ∧ IsLast (Tracker.definitions names path root (loopBlock inner).key use.text) (some use.line) d
          ∧ ∀ loop, LoopAround root owner.key use.line loop →
            Binds names path root use.text use.line loop →
            (loopBlock inner).Before (loopBlock loop)) := by
  have hentries := entries_run_of_flat (List.all_eq_true.mp hflat) names path
  have hblocks := mem_blocksAround_run hroot hflat names path owner use.line
  -- the definition that the assignment makes is the last one of the function
  have hmem : (a, t) ∈ Tracker.states names path root := by simp [hstates]
  have hactive : t.activeClosure = owner := (active_of_mem_states hroot hflat hmem).2.2.trans hsame
  obtain ⟨b, hb, hmade⟩ : ∃ b, b = t.placed owner
      { identifier := use.text, closure := "", line := a.line, node := some right }
      ∧ Tracker.madeAt owner.key use.text (a, t) = [b] := ⟨_, rfl, hactive ▸ hassigns.madeAt t⟩
  have hown : IsLast (Tracker.definitions names path root owner.key use.text) (some use.line) b :=
    isLast_definitions hstates hmade (by rw [hb]; exact Int.ofNat_le.mpr hline) hlast
  refine ⟨b, hmade, hb ▸ rfl, hb ▸ rfl, ?_⟩
  have htree : use.tree = number := Cursor.tree_of_mem_preorder (hroot ▸ huse)
  have hresolve := hready.resolve_local htree hvariable hnamed
  rw [hfunction] at hresolve
  rw [hresolve]
  rw [← hentries] at hown
  rcases lookup_method howner hown with ⟨hfound, hnone⟩ | ⟨c, hc, d, hfound, hd, hinner⟩
  · have hunbound : ¬ ∃ loop, LoopAround root owner.key use.line loop
        ∧ Binds names path root use.text use.line loop := by
      rintro ⟨loop, hloop, d, hd, hle⟩
      rw [← hentries] at hd
      exact hnone _ ((hblocks _).mpr ⟨loop, hloop, rfl⟩) d hd hle
    exact ⟨⟨fun _ => hunbound, fun _ => by rw [hfound]⟩, fun hbound => absurd hbound hunbound⟩
  · obtain ⟨inner, hloop, rfl⟩ := (hblocks c).mp hc
    have hbinds : d ∈ (Tracker.run names path root).1.entries (loopBlock inner).key use.text
        ∧ d.line ≤ use.line := ⟨mem_of_lastBefore (lastBefore_eq_some_iff.mpr hd), hd.1 _ rfl⟩
    have hother : d ≠ b := by
      rintro rfl
      have hplace := ((run_wellFiled names path root).2.place _ _ d hbinds.1).1
      exact key_ne_of_owner rfl hloop.scope (hplace.symm.trans (congrArg Binding.closure hb))
    have hbound : ∃ loop, LoopAround root owner.key use.line loop
        ∧ Binds names path root use.text use.line loop :=
      ⟨inner, hloop, d, hentries _ _ ▸ hbinds.1, hbinds.2⟩
    rw [hfound]
    refine ⟨⟨fun heq => ?_, fun hunbound => absurd hbound hunbound⟩, fun _ => ?_⟩
    · exact absurd (Option.some.inj (EStateM.Result.ok.inj heq).1) hother
    · refine ⟨inner, d, hloop, rfl, hentries _ _ ▸ hd, fun loop hloop hbinds => ?_⟩
      obtain ⟨e, he, hline⟩ := hbinds
      exact hinner _ ((hblocks _).mpr ⟨loop, hloop, rfl⟩) ⟨e, hentries _ _ ▸ he, hline⟩

namespace LoopFile

/-- A function with a loop, in which a variable is assigned on the third line and used on the fourth. -/
def text (loop : String) : String :=
  "<?php function f($r) \x7b\n foreach (" ++ loop ++ ") \x7b\n  $x = 'b';\n  echo $x;\n \x7d\n\x7d"

def tree (loop : String) : Cursor := .root 0 (parse (text loop).toUTF8)

def scopes (loop : String) : FileScopes := (run [] "/w/a.php" (tree loop)).1

/-- A run in which the definitions of the file are known. -/
def run (loop : String) : Run :=
  { Run.start { base := "/w" } "/w" {} false false with
    scopes := Catalog.empty.set "/w/a.php" (scopes loop)
    sources := Catalog.empty.set "/w/a.php" { linked := some 0 } }

theorem ready (loop : String) : Ready (run loop) "/w/a.php" 0 (scopes loop) := by
  refine ⟨?_, (Catalog.get?_set ..).trans (if_pos rfl),
    ⟨{ linked := some 0 }, (Catalog.get?_set ..).trans (if_pos rfl), rfl⟩, ?_⟩
  · show ({ base := "/w" } : Disk).resolve "/w/a.php" = "/w/a.php"
    decide +kernel
  · show 1 ≤ ({} : Settings).maxSamples
    decide

def isUse (c : Cursor) : Bool := c.kind = .variableName && c.line = 4

def use (loop : String) : Cursor := ((tree loop).preorder.find? isUse).getD (tree loop)

/-- Whether the variable is used, in the function. -/
def isUsed (loop : String) : Bool :=
  ((tree loop).preorder.find? isUse).isSome && (use loop).node.named && (use loop).text = "$x"
    && closureAbove (use loop).ancestors none = .ofMethod "" "f"

theorem isUsed_iff {loop : String} (h : isUsed loop) :
    use loop ∈ (tree loop).preorder ∧ (use loop).kind = .variableName ∧ (use loop).line = 4
      ∧ (use loop).node.named ∧ (use loop).text = "$x"
      ∧ closureAbove (use loop).ancestors none = .ofMethod "" "f" := by
  rw [isUsed, Bool.and_eq_true, Bool.and_eq_true, Bool.and_eq_true, decide_eq_true_eq,
    decide_eq_true_eq, Option.isSome_iff_exists] at h
  obtain ⟨⟨⟨⟨c, hc⟩, hnamed⟩, htext⟩, hfunction⟩ := h
  have heq : use loop = c := by rw [use, hc, Option.getD_some]
  have hisUse := find?_some hc
  rw [isUse, Bool.and_eq_true, decide_eq_true_eq, decide_eq_true_eq] at hisUse
  rw [heq] at hnamed htext hfunction ⊢
  exact ⟨mem_of_find?_eq_some hc, hisUse.1, hisUse.2, hnamed, htext, hfunction⟩

/-- The nodes that are entered from the assignment on. -/
def later (loop : String) : List (Cursor × Tracker) :=
  (states [] "/w/a.php" (tree loop)).dropWhile fun e => e.1.kind ≠ .assignmentExpression

def isAssignment (a : Cursor) : Bool :=
  a.kind = .assignmentExpression && a.line = 3 && closureAbove a.ancestors none = .ofMethod "" "f"
    && (a.inRole? "left").any (fun left => left.kind = .variableName && left.text = "$x")
    && (a.inRole? "right").isSome

theorem facts : (tree "$r as $k").preorder.all Cursor.isFlat ∧ isUsed "$r as $k" = true
    ∧ (later "$r as $k").head?.any (fun e => isAssignment e.1) = true
    ∧ ((later "$r as $k").tail.all fun e => (madeAt "::f" "$x" e).isEmpty) = true
    ∧ ((tree "$r as $k").preorder.all fun c => c.kind ≠ .foreachStatement
      || (definitions [] "/w/a.php" (tree "$r as $k") (loopBlock c).key "$x").isEmpty)
        := by
  decide +kernel

theorem blockFacts : isUsed "['a'] as $x" = true
    ∧ ((scopes "['a'] as $x").blocks.get? "::f").getD []
      = [{ kind := .block, methodName := "f", line := 2, endLine := 5 }]
    ∧ (lastBefore ((scopes "['a'] as $x").entries "::f::FOREACH_2" "$x") (some 4)).map
        (fun d => (d.line, d.node.map Cursor.text)) = some (2, some "'a'")
    ∧ (definitions [] "/w/a.php" (tree "['a'] as $x") "::f" "$x").map (·.line) = [3] := by
  decide +kernel

end LoopFile

open LoopFile in
/-- The assignment is found: the loop binds another variable. -/
theorem resolve_assigned_found : ∃ b, b.line = 3
    ∧ resolve "/w/a.php" (use "$r as $k") none (run "$r as $k") = .ok (some b) (run "$r as $k") := by
  obtain ⟨hflat, hused, hhead, htail, hloops⟩ := facts
  obtain ⟨huse, hvariable, hline, hnamed, htext, hfunction⟩ := isUsed_iff hused
  cases hlater : later "$r as $k" with
  | nil =>
    rw [hlater] at hhead
    cases hhead
  | cons e after =>
    obtain ⟨a, t⟩ := e
    rw [hlater] at hhead htail
    replace hhead : isAssignment a = true := hhead
    simp only [isAssignment, Bool.and_eq_true, decide_eq_true_eq, Option.any_eq_true] at hhead
    obtain ⟨⟨⟨⟨hkind, haline⟩, hsame⟩, left, hleft, hvar, hleftText⟩, hright⟩ := hhead
    obtain ⟨right, hright⟩ := Option.isSome_iff_exists.mp hright
    have hstates := List.takeWhile_append_dropWhile (p := fun e : Cursor × Tracker =>
      decide (e.1.kind ≠ .assignmentExpression)) (l := Tracker.states [] "/w/a.php" (tree "$r as $k"))
    rw [show List.dropWhile _ _ = later "$r as $k" from rfl, hlater] at hstates
    have hroot : tree "$r as $k" = .root 0 (parse (text "$r as $k").toUTF8) := rfl
    have hlast : ∀ e ∈ after, ∀ d ∈ Tracker.madeAt (Closure.ofMethod "" "f").key (use "$r as $k").text e,
        ((use "$r as $k").line : Int) < d.line := by
      intro e he d hd
      have hnone := List.isEmpty_iff.mp (List.all_eq_true.mp htail e he)
      rw [htext, show (Closure.ofMethod "" "f").key = "::f" from rfl, hnone] at hd
      cases hd
    obtain ⟨b, -, -, hb, hfound, -⟩ := resolve_assigned hroot hflat (ready _) huse hvariable hnamed rfl
      hfunction hsame ⟨hkind, ⟨left, hleft, hvar, hleftText.trans htext.symm⟩, hright⟩ hstates.symm
      (by omega) hlast
    refine ⟨b, by rw [hb, haline]; rfl, hfound.mpr ?_⟩
    rintro ⟨loop, hloop, d, hd, -⟩
    have hnone := List.all_eq_true.mp hloops loop hloop.mem
    rw [hloop.kind, decide_eq_false (by simp), Bool.false_or, List.isEmpty_iff] at hnone
    rw [htext, hnone] at hd
    cases hd

open LoopFile in
/-- **A loop hides the assignment to its variable**: the variable stands for the element of the
loop. -/
theorem resolve_hides_assignment : (use "['a'] as $x").line = 4
    ∧ (Tracker.definitions [] "/w/a.php" (tree "['a'] as $x") "::f" "$x").map (·.line) = [3]
    ∧ ∃ d, d.line = 2 ∧ d.node.map Cursor.text = some "'a'"
      ∧ resolve "/w/a.php" (use "['a'] as $x") none (run "['a'] as $x")
        = .ok (some d) (run "['a'] as $x") := by
  obtain ⟨hused, hblocks, hloop, hassigned⟩ := blockFacts
  obtain ⟨huse, hvariable, hline, hnamed, htext, hfunction⟩ := isUsed_iff hused
  refine ⟨hline, hassigned, ?_⟩
  obtain ⟨d, hd, hseen⟩ := Option.map_eq_some_iff.mp hloop
  refine ⟨d, congrArg Prod.fst hseen, congrArg Prod.snd hseen, ?_⟩
  have hresolve := (ready "['a'] as $x").resolve_local (Cursor.tree_of_mem_preorder huse) hvariable hnamed
  rw [hresolve, hfunction, htext, hline, FileScopes.lookup, FileScopes.lookupIn, FileScopes.levels,
    FileScopes.blocksAround]
  rw [show (Closure.ofMethod "" "f").key = "::f" from rfl, hblocks, if_neg (by decide),
    List.filter_cons_of_pos (by decide), List.filter_nil, List.mergeSort_singleton,
    List.singleton_append, List.findSome?_cons, show Closure.key _ = "::f::FOREACH_2" from by decide,
    show ((4 : Nat) : Int) = 4 from rfl, hd]

end QueryAudit.Scope
