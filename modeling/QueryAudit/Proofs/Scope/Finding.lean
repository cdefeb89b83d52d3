/-
  QueryAudit.Proofs.Scope.Finding — what a pass finds in a tree

  A pass comes by every named node once and notes the calls that are asked for in the order of the
  tree. A definition is bound to a node of the tree, and comes back if nodes are told apart by kind
  and range.

  Main results: `run_callSites`, `run_bound`, `run_relocate`.
-/

import QueryAudit.Proofs.Scope.Entering
import QueryAudit.Proofs.Scope.Restoring

namespace QueryAudit.Scope

open Audit Php Text Tracker List

variable {names : List String} {path : String} {root c : Cursor} {t t' : Tracker}

/-! ## Calls. -/

/-- Whether a node is a call with one of the given names, which are in small letters. -/
def isNoted (names : List String) (c : Cursor) : Bool :=
  c.node.named && c.kind.isMethodCall && names.contains (lower c.nameText)

namespace Tracker

/-- The calls that were noted, and the names that are asked for, stay. -/
structure SameCalls (t t' : Tracker) : Prop where
  names : t'.callNames = t.callNames
  calls : t'.scopes.callSites = t.scopes.callSites

instance : IsPreorder Tracker SameCalls where
  refl _ := ⟨rfl, rfl⟩
  trans _ _ _ h k := ⟨k.names.trans h.names, k.calls.trans h.calls⟩

theorem sameCalls_moves : Moves (fun _ => True) SameCalls where
  below _ _ _ _ := trivial
  openScope _ _ := ⟨rfl, rfl⟩
  bind _ _ _ _ := ⟨rfl, rfl⟩
  flush _ _ := ⟨rfl, rfl⟩
  block _ _ _ := ⟨rfl, rfl⟩
  report _ _ := ⟨rfl, rfl⟩
  move _ _ _ _ _ _ _ := ⟨rfl, rfl⟩
  known _ _ h := h fun _ _ _ _ _ _ => trivial

/-- Entering a call notes it if its name is asked for; entering any other node notes nothing. -/
theorem enter_callSites (t : Tracker) (c : Cursor) : (t.enter c).callNames = t.callNames
    ∧ (t.enter c).scopes.callSites = t.scopes.callSites ++ if c.kind.isMethodCall
      && t.callNames.contains (lower c.nameText) then [(c, t.activeClosure)] else [] := by
  by_cases hcall : c.kind.isMethodCall = true
  · have henter : Pass.enter c = Pass.noteCall c := by
      unfold Pass.enter
      generalize c.kind = kind at hcall ⊢
      cases kind <;> first | rfl | cases hcall
    rw [enter, henter, hcall, Bool.true_and, Pass.noteCall, bind_of_ok run_get]
    cases t.callNames.contains (lower c.nameText) with
    | true => exact ⟨rfl, rfl⟩
    | false => exact ⟨rfl, (append_nil _).symm⟩
  · have hsame := enter_moves sameCalls_moves t trivial fun h => absurd h hcall
    rw [eq_false_of_ne_true hcall, Bool.false_and, if_neg Bool.false_ne_true, append_nil]
    exact ⟨hsame.names, hsame.calls⟩

/-- Nodes that are entered one after the other note the calls among them. -/
theorem Seen.notes {start : Tracker} {first last : List String × List (Cursor × Closure)}
    {nodes : List (Cursor × Tracker)}
    (h : Seen start (fun t => (t.callNames, t.scopes.callSites)) first nodes last)
    (hnamed : ∀ e ∈ nodes, e.1.node.named = true) :
    last.2.map Prod.fst = first.2.map Prod.fst ++ (nodes.map Prod.fst).filter (isNoted first.1) := by
  induction h with
  | nil => exact (append_nil _).symm
  | @cons nodes _ c t _ _ ih =>
    rw [forall_mem_cons] at hnamed
    obtain ⟨hnames, hcalls⟩ := enter_callSites t c
    have hnoted : isNoted t.callNames c
        = (c.kind.isMethodCall && t.callNames.contains (lower c.nameText)) := by
      rw [isNoted, hnamed.1, Bool.true_and]
    rw [ih hnamed.2, hnames, hcalls, map_append, append_assoc, map_cons, filter_cons, hnoted]
    split <;> rfl

end Tracker

/-- **The calls that a pass notes are those in its tree with a name that is asked for, each of them
once and in order.** -/
theorem run_callSites (hnamed : root.node.named = true) (hsolid : root.node.all Node.isSolid = true)
    : (run names path root).1.callSites.map Prod.fst
      = root.preorder.filter (isNoted (names.map lower)) := by
  have hentered := map_fst_states names path hnamed hsolid
  have hseen := states_seen (fun t => (t.callNames, t.scopes.callSites)) names path root
    fun t c _ => have hsame := leave_moves sameCalls_moves t c
      Prod.ext hsame.names hsame.calls
  have hnotes := hseen.notes fun e he => by
    have hmem : e.1 ∈ root.preorder.filter (·.node.named) := hentered ▸ mem_map_of_mem he
    exact (mem_filter.mp hmem).2
  rw [hentered, filter_filter] at hnotes
  rw [run_eq]
  refine hnotes.trans (filter_congr fun c _ => ?_)
  show (isNoted (names.map lower) c && c.node.named) = isNoted (names.map lower) c
  unfold isNoted
  cases c.node.named <;> simp

/-! ## Nodes of definitions. -/

namespace Tracker

variable {Good : Cursor → Prop}

/-- The definitions that a pass has made so far are filed well and bound to good nodes. -/
structure BoundTo (Good : Cursor → Prop) (path : String) (t : Tracker) : Prop where
  filing : t.Filing path
  good : ∀ key identifier, ∀ b ∈ t.entries key identifier, ∀ n, b.node = some n → Good n

def KeepsBound (Good : Cursor → Prop) (path : String) (t t' : Tracker) : Prop :=
  t.BoundTo Good path → t'.BoundTo Good path

instance (Good : Cursor → Prop) (path : String) : IsPreorder Tracker (KeepsBound Good path) where
  refl _ h := h
  trans _ _ _ h k := fun hbound => k (h hbound)

theorem keepsBound_of_same (hstep : t.Step t') (hentries : t.Filing path → t'.entries = t.entries) :
    KeepsBound Good path t t' := fun h =>
  ⟨h.filing.step hstep, by rw [hentries h.filing]; exact h.good⟩

theorem keepsBound_moves (path : String) (hbelow : ∀ c d, Good c → c.Below d → Good d) :
    Moves Good (KeepsBound Good path) where
  below := hbelow
  openScope t c := keepsBound_of_same (.openScope t c) fun _ => entries_openScope t c
  bind t c b hb := by
    intro h
    refine ⟨h.filing.step (.bind t c b), fun key x other hother => ?_⟩
    rcases mem_entries_bind hother with hother | ⟨rfl, -⟩
    · exact h.good key x other hother
    · exact hb
  flush t c := keepsBound_of_same (.flush t c) fun h => entries_flush t c h.names
  block t b hb := keepsBound_of_same (.block t b hb) fun _ => rfl
  report t e := keepsBound_of_same (.report t e) fun _ => rfl
  move t p c m cs ms l := keepsBound_of_same (.move t p c m cs ms l) fun _ => rfl
  known _ _ h := fun hbound => h hbound.good hbound

theorem noteCall_keepsBound (path : String) (c : Cursor) :
    KeepsTo (KeepsBound Good path) (Pass.noteCall c) := by
  unfold Pass.noteCall
  refine keeps_get_bind fun t => ?_
  split
  · exact keepsBound_of_same (.calls t _) fun _ => rfl
  · exact refl_of (KeepsBound Good path) t

end Tracker

/-- **Definitions are bound to nodes of the tree.** -/
theorem run_bound {b : Binding} (hb : (run names path root).1.Has b) (hnode : b.node = some c) :
    c ∈ root.preorder := by
  rw [run_eq] at hb
  have hmoves : Moves (· ∈ root.preorder) (KeepsBound (· ∈ root.preorder) path) :=
    keepsBound_moves path fun _ _ => Cursor.mem_preorder_of_below
  have hstart : (start names path).BoundTo (· ∈ root.preorder) path :=
    ⟨start_filing names path, fun _ _ _ hb => nomatch hb⟩
  have hvisited := visit_moves hmoves (fun c _ => noteCall_keepsBound path c)
    root.mem_preorder_self ((start names path).openScope .global)
  have hdone := hmoves.flush _ .global (hvisited (hmoves.openScope _ .global hstart))
  exact hdone.good b.closure b.identifier b (mem_append_left _ hb) c hnode

/-! ## Coming back. -/

/-- What is found stays or fails as a whole. -/
theorem mapM_self_or_none {α : Type} {f : α → Option α} {items : List α}
    (h : ∀ item ∈ items, f item = none ∨ f item = some item) :
    items.mapM f = none ∨ items.mapM f = some items := by
  induction items with
  | nil => exact .inr rfl
  | cons item items ih =>
    rw [forall_mem_cons] at h
    rw [mapM_cons]
    rcases h.1 with hitem | hitem
    · rw [hitem]
      exact .inl rfl
    rw [hitem]
    rcases ih h.2 with hitems | hitems
    · rw [hitems]
      exact .inl rfl
    · rw [hitems]
      exact .inr rfl

/-- Definitions whose nodes stay or are not found come back as they were, without the calls, or not
at all. -/
theorem FileScopes.relocate_self_or_none {s : FileScopes} (h : s.Orderly)
    (hfiled : WellFiled s.path s.entries)
    (hfound : ∀ b, s.Has b → b.relocate root = none ∨ b.relocate root = some b) :
    s.relocate root = none ∨ s.relocate root = some { s with callSites := [] } := by
  have hlist : ∀ entry ∈ s.closures.entries, ∀ item ∈ entry.2.entries,
      relocateList root item = none ∨ relocateList root item = some item := by
    intro entry hentry item hitem
    have hentries : s.entries entry.1 item.1 = item.2 := by
      rw [FileScopes.entries, Catalog.get?_of_mem_entries h.scopes hentry, Option.bind_some,
        Catalog.get?_of_mem_entries (h.identifiers entry hentry) hitem, Option.getD_some]
    have hbindings : item.2.mapM (Binding.relocate root) = none
        ∨ item.2.mapM (Binding.relocate root) = some item.2 :=
      mapM_self_or_none fun b hb => hfound b (hfiled.has (hentries.symm ▸ hb))
    rw [relocateList]
    rcases hbindings with hbindings | hbindings
    · exact .inl (by rw [hbindings, Option.map_none])
    · exact .inr (by rw [hbindings, Option.map_some])
  have hscope : ∀ entry ∈ s.closures.entries,
      relocateScope root entry = none ∨ relocateScope root entry = some entry := by
    intro entry hentry
    rw [relocateScope]
    rcases mapM_self_or_none (hlist entry hentry) with hlists | hlists
    · exact .inl (by rw [hlists, Option.map_none])
    · exact .inr (by rw [hlists, Option.map_some])
  rw [FileScopes.relocate]
  rcases mapM_self_or_none hscope with hscopes | hscopes
  · exact .inl (by rw [hscopes, Option.map_none])
  · exact .inr (by rw [hscopes, Option.map_some])

/-- **What a pass found comes back from its own tree as it was, or not at all.** -/
theorem run_relocate (names : List String) (path : String) {root : Cursor}
    (hroot : root.node.Distinct) :
    (run names path root).1.relocate root = none
      ∨ (run names path root).1.relocate root
        = some { (run names path root).1 with callSites := [] } := by
  have hfiled : WellFiled (run names path root).1.path (run names path root).1.entries := by
    rw [(run_wellFiled names path root).1]
    exact (run_wellFiled names path root).2
  refine FileScopes.relocate_self_or_none (run_orderly names path root) hfiled fun b hb => ?_
  rw [Binding.relocate]
  cases hnode : b.node with
  | none => exact .inr rfl
  | some c =>
    by_cases htext : c.node.span.start < c.node.span.stop
    · right
      show Option.map _ _ = _
      rw [Cursor.locate?_eq hroot (run_bound hb hnode) htext, Option.map_some, ← hnode]
    · left
      show Option.map _ _ = _
      rw [Cursor.locate?_of_no_text htext, Option.map_none]

end QueryAudit.Scope
