/-
  QueryAudit.Proofs.Scope.Filing — definitions stand where they are filed

  A definition names the scope, the identifier and the file it is filed under, and those of one name
  are numbered in order. So the definition that another hides stands earlier, or in a scope further
  out.

  Main results: `run_wellFiled`, `WellFiled.previous_before`.
-/

import QueryAudit.Proofs.Catalog
import QueryAudit.Proofs.Scope.Passes

namespace QueryAudit.Scope

open Php List Catalog

variable {b p : Binding} {c d : Closure} {identifier key : String} {t t' : Tracker}

/-! ## Filed definitions. -/

/-- Definitions of a file, given by scope and identifier, stand where they are filed, in the order
in which they were made. -/
structure WellFiled (path : String) (view : String → String → List Binding) : Prop where
  place : ∀ key identifier, ∀ b ∈ view key identifier,
    b.closure = key ∧ b.identifier = identifier ∧ b.path = path
  ordered : ∀ key identifier, (view key identifier).Pairwise fun a b => a.serial < b.serial

variable {path : String}

theorem FileScopes.entries_flush (s : FileScopes) (key other x : String)
    (known : Catalog (List Binding)) :
    (s.flush key known).entries other x
      = if other = key then s.entries key x ++ (known.entries.filter (·.1 = x)).flatMap Prod.snd
        else s.entries other x := by
  simp only [FileScopes.entries, FileScopes.flush, get?_alter]
  split
  · rw [Option.bind_some, getD_foldl_alter]
    cases s.closures.get? key <;> rfl
  · rfl

/-! ## Passes. -/

namespace Tracker

/-- The definitions that a pass has made so far are filed well. -/
structure Filing (path : String) (t : Tracker) : Prop where
  file : t.scopes.path = path
  filed : WellFiled path t.entries
  numbered : ∀ key identifier, ∀ b ∈ t.entries key identifier, b.serial < t.serial
  names : ∀ key known, t.live.get? key = some known → known.names.Nodup

theorem entries_openScope (t : Tracker) (closure : Closure) :
    (t.openScope closure).entries = t.entries := by
  funext key x
  simp only [entries, openScope, get?_setDefault]
  split
  · next hkey =>
    subst hkey
    cases t.live.get? closure.key <;> rfl
  · rfl

/-- A definition as a pass makes it: with its scope, its file and its number. -/
def placed (t : Tracker) (closure : Closure) (b : Binding) : Binding :=
  { b with closure := closure.key, path := t.scopes.path, serial := t.serial }

/-- A new definition is put after those of its scope and identifier. -/
theorem entries_bind {closure : Closure} {x : String} :
    (t.bind closure b).entries key x = t.entries key x
      ++ if key = closure.key ∧ x = b.identifier then [t.placed closure b] else [] := by
  simp only [entries, bind, get?_alter]
  by_cases hkey : key = closure.key
  · subst hkey
    rw [if_pos rfl, Option.bind_some, get?_alter, append_assoc]
    congr 1
    by_cases hx : x = b.identifier
    · subst hx
      rw [if_pos rfl, if_pos ⟨rfl, rfl⟩]
      cases t.live.get? closure.key <;> rfl
    · rw [if_neg hx, if_neg fun hsame => hx hsame.2, append_nil]
      cases t.live.get? closure.key <;> rfl
  · rw [if_neg hkey, if_neg fun hsame => hkey hsame.1, append_nil]

theorem mem_entries_bind {closure : Closure} {x : String} {made : Binding}
    (h : made ∈ (t.bind closure b).entries key x) : made ∈ t.entries key x
      ∨ made = t.placed closure b ∧ key = closure.key ∧ x = b.identifier := by
  rw [entries_bind, mem_append] at h
  refine h.imp_right fun h => ?_
  split at h
  · next hsame => exact ⟨mem_singleton.mp h, hsame⟩
  · cases h

/-- Filing a scope moves its definitions and loses none. -/
theorem entries_flush (t : Tracker) (closure : Closure)
    (hnames : ∀ key known, t.live.get? key = some known → known.names.Nodup) :
    (t.flush closure).entries = t.entries := by
  funext key x
  simp only [entries, flush, FileScopes.entries_flush, get?_erase]
  split
  · next hkey =>
    subst hkey
    rw [Option.bind_none, Option.getD_none, append_nil]
    cases hlive : t.live.get? closure.key with
    | none => rfl
    | some known =>
      rw [Option.getD_some, flatMap_filter_entries (hnames _ known hlive)]
      rfl
  · rfl

theorem Filing.bind (h : t.Filing path) (closure : Closure) (b : Binding) :
    (t.bind closure b).Filing path := by
  refine ⟨h.file, ⟨fun key x made hmade => ?_, fun key x => ?_⟩, fun key x made hmade => ?_, ?_⟩
  · rcases mem_entries_bind hmade with hmade | ⟨rfl, rfl, rfl⟩
    · exact h.filed.place key x made hmade
    · exact ⟨rfl, rfl, h.file⟩
  · rw [entries_bind, pairwise_append]
    split
    · refine ⟨h.filed.ordered key x, pairwise_singleton _ _, fun a ha made hmade => ?_⟩
      exact mem_singleton.mp hmade ▸ h.numbered key x a ha
    · exact ⟨h.filed.ordered key x, .nil, fun _ _ _ hnone => nomatch hnone⟩
  · rcases mem_entries_bind hmade with hmade | ⟨rfl, -⟩
    · exact Nat.lt_succ_of_lt (h.numbered key x made hmade)
    · exact Nat.lt_succ_self _
  · intro key known hknown
    replace hknown : (t.live.alter _ _ _).get? key = some known := hknown
    rw [get?_alter] at hknown
    split at hknown
    · obtain rfl := Option.some.inj hknown
      refine nodup_names_set ?_ _ _
      cases hlive : t.live.get? closure.key with
      | none => exact nodup_nil
      | some known => exact h.names _ known hlive
    · exact h.names key known hknown

/-- **A step of a pass keeps definitions filed well.** -/
theorem Filing.step (h : t.Filing path) (hstep : t.Step t') : t'.Filing path := by
  cases hstep with
  | openScope closure =>
    refine ⟨h.file, ?_, ?_, ?_⟩
    · rw [entries_openScope]
      exact h.filed
    · rw [entries_openScope]
      exact h.numbered
    intro key known hknown
    replace hknown : (t.live.setDefault _ _).get? key = some known := hknown
    rw [get?_setDefault] at hknown
    split at hknown
    · obtain rfl := Option.some.inj hknown
      cases hlive : t.live.get? closure.key with
      | none => exact nodup_nil
      | some known => exact h.names _ known hlive
    · exact h.names key known hknown
  | bind closure b => exact h.bind closure b
  | flush closure =>
    refine ⟨h.file, ?_, ?_, ?_⟩
    · rw [entries_flush t closure h.names]
      exact h.filed
    · rw [entries_flush t closure h.names]
      exact h.numbered
    intro key known hknown
    replace hknown : (t.live.erase _).get? key = some known := hknown
    rw [get?_erase] at hknown
    split at hknown
    · cases hknown
    · exact h.names key known hknown
  | block block hblock => exact ⟨h.file, h.filed, h.numbered, h.names⟩
  | calls calls => exact ⟨h.file, h.filed, h.numbered, h.names⟩
  | report event => exact ⟨h.file, h.filed, h.numbered, h.names⟩
  | move => exact ⟨h.file, h.filed, h.numbered, h.names⟩

theorem Filing.steps (h : t.Filing path) (hsteps : t.Steps t') : t'.Filing path := by
  induction hsteps with
  | refl => exact h
  | tail _ hlast ih => exact ih.step hlast

/-! ## A whole pass. -/

def start (callNames : List String) (path : String) : Tracker :=
  { callNames := callNames.map Text.lower, scopes := { path } }

def finish (callNames : List String) (path : String) (root : Cursor) : Tracker :=
  (visit root.tree root.above root.node ((start callNames path).openScope .global)).flush .global

theorem run_eq (callNames : List String) (path : String) (root : Cursor) :
    run callNames path root
      = ((finish callNames path root).scopes, (finish callNames path root).events) := by
  unfold run
  rfl

theorem start_filing (callNames : List String) (path : String) :
    (start callNames path).Filing path :=
  ⟨rfl, ⟨fun _ _ _ hb => (nomatch hb), fun _ _ => Pairwise.nil⟩, fun _ _ _ hb => (nomatch hb),
    fun _ _ hknown => (nomatch hknown)⟩

theorem finish_steps (callNames : List String) (path : String) (root : Cursor) :
    (start callNames path).Steps (finish callNames path root) :=
  (Step.openScope _ .global).steps.trans ((visit_steps root _).tail (.flush _ .global))

end Tracker

/-- **What a pass files stands where it is filed.** -/
theorem run_wellFiled (callNames : List String) (path : String) (root : Cursor) :
    (Tracker.run callNames path root).1.path = path
      ∧ WellFiled path (Tracker.run callNames path root).1.entries := by
  have hdone := (Tracker.start_filing callNames path).steps (Tracker.finish_steps callNames path root)
  rw [Tracker.run_eq]
  refine ⟨hdone.file, fun key x b hb => ?_, fun key x => ?_⟩
  · exact hdone.filed.place key x b (mem_append_left _ hb)
  · exact (pairwise_append.mp (hdone.filed.ordered key x)).1

def Snapshot.RestoresWell (saved : Snapshot) : Prop :=
  ∀ path root scopes, saved.restore? path root = some scopes →
    scopes.path = path ∧ WellFiled path scopes.entries

/-! ## Looking up. -/

def FileScopes.Has (s : FileScopes) (b : Binding) : Prop := b ∈ s.entries b.closure b.identifier

section LookingUp

variable {s : FileScopes} (h : WellFiled s.path s.entries)

include h

theorem WellFiled.has (hb : b ∈ s.entries key identifier) : s.Has b := by
  obtain ⟨hclosure, hidentifier, _⟩ := h.place key identifier b hb
  rw [FileScopes.Has, hclosure, hidentifier]
  exact hb

theorem WellFiled.lookup_has {owner : Closure} {line : Option Int}
    (hb : s.lookup owner identifier line = some b) : s.Has b := by
  obtain ⟨c, _, hc⟩ := exists_of_findSome?_eq_some hb
  exact h.has (mem_of_lastBefore hc)

theorem WellFiled.alternatives_has (hb : s.Has b) : ∀ a ∈ s.alternatives b, s.Has a := by
  intro a ha
  rw [FileScopes.alternatives] at ha
  split at ha
  · rw [mem_singleton.mp ha]
    exact hb
  split at ha
  · rw [mem_singleton.mp ha]
    exact hb
  · exact h.has (mem_filter.mp ha).1

end LookingUp

/-! ## Hidden definitions. -/

/-- How far in a scope is: global code is outermost, and the key of a scope is longer than those of
the scopes around it. -/
def scopeRank (key : String) : Nat := if key = "<global>" then 0 else key.length + 1

theorem splitColons_eq {before after : List Char} :
    ∀ {cs : List Char}, FileScopes.closureOfKey.splitColons cs = some (before, after) →
      cs = before ++ ':' :: ':' :: after := by
  intro cs h
  fun_induction FileScopes.closureOfKey.splitColons cs generalizing before with
  | case1 => cases h
  | case2 rest =>
    obtain ⟨rfl, rfl⟩ := Prod.mk.inj (Option.some.inj h)
    rfl
  | case3 c rest _ ih =>
    obtain ⟨⟨inner, _⟩, hinner, heq⟩ := Option.map_eq_some_iff.mp h
    obtain ⟨rfl, rfl⟩ := Prod.mk.inj heq
    rw [ih hinner]
    rfl

theorem splitColons_append {before after : List Char} (h : ':' ∉ before) :
    FileScopes.closureOfKey.splitColons (before ++ ':' :: ':' :: after) = some (before, after) := by
  induction before with
  | nil => rfl
  | cons c before ih =>
    rw [mem_cons, not_or] at h
    rw [cons_append, FileScopes.closureOfKey.splitColons, ih h.2]
    · rfl
    · exact fun _ hc => absurd hc.symm h.1

theorem toList_key_method {className name : String} :
    (Closure.ofMethod className name).key.toList = className.toList ++ ':' :: ':' :: name.toList := by
  simp [Closure.key, Closure.plainKey, Closure.ofMethod]

/-- A key of a method that no block has stands for the method. -/
theorem closureOfKey_ofMethod {s : FileScopes} {className name : String}
    (hclass : ':' ∉ className.toList) (hblocks : s.blocks.values.flatten.find?
      (·.key = (Closure.ofMethod className name).key) = none) :
    s.closureOfKey (Closure.ofMethod className name).key = .ofMethod className name := by
  have hne : (Closure.ofMethod className name).key ≠ "<global>" := fun heq => by
    have hmem := congrArg (':' ∈ String.toList ·) heq
    simp [toList_key_method] at hmem
  rw [FileScopes.closureOfKey, if_neg hne, hblocks]
  dsimp only
  rw [toList_key_method, splitColons_append hclass]
  dsimp only
  rw [String.ofList_toList, String.ofList_toList]

/-- The scope of a key is filed under that key. -/
theorem key_closureOfKey (s : FileScopes) (key : String) : (s.closureOfKey key).key = key := by
  rw [FileScopes.closureOfKey]
  split
  · next hkey =>
    rw [hkey]
    rfl
  · split
    · next block hblock =>
      have hkey := find?_some hblock
      exact of_decide_eq_true hkey
    · dsimp only
      split
      · next before after hsplit =>
        show String.ofList before ++ "::" ++ String.ofList after = key
        rw [← String.toList_inj, splitColons_eq hsplit]
        simp
      · rfl

theorem kind_owner : c.owner.kind ≠ .block := by
  rw [Closure.owner]
  split
  · split
    · exact nofun
    · split <;> exact nofun
  · assumption

theorem key_owner : c.owner.key = c.owner.plainKey := by
  rw [Closure.key, if_neg kind_owner]

theorem scopeRank_lt {key' : String} (hkey : key' ≠ "<global>")
    (h : key = "<global>" ∨ key.length < key'.length) : scopeRank key < scopeRank key' := by
  rw [scopeRank, scopeRank]
  split
  · exact Nat.succ_pos _
  · next hne => exact Nat.succ_lt_succ (h.resolve_left hne)

theorem key_outer (h : d ∈ c.outer) : d.key = "<global>" ∨ d.key.length < c.key.length := by
  obtain ⟨kind, className, methodName, line, endLine⟩ := c
  cases kind with
  | global => cases h
  | block => cases h
  | classBody =>
    rw [mem_singleton.mp h]
    exact .inl rfl
  | methodBody =>
    have hglobal : d = .global → d.key = "<global>" := fun hd => by rw [hd]; rfl
    replace h : d ∈ if className ≠ "" then [Closure.ofClass className, .global] else [.global] := h
    split at h
    · rcases mem_cons.mp h with rfl | h
      · refine .inr ?_
        show className.length < (className ++ "::" ++ methodName).length
        rw [String.length_append, String.length_append]
        have : ("::" : String).length = 2 := by decide
        omega
      · exact .inl (hglobal (mem_singleton.mp h))
    · exact .inl (hglobal (mem_singleton.mp h))

theorem scopeRank_beyond (hc : c.key ≠ "<global>")
    (hd : d ∈ FileScopes.scopesBeyond c) : scopeRank d.key < scopeRank c.key := by
  refine scopeRank_lt hc ?_
  rw [FileScopes.scopesBeyond] at hd
  split at hd
  · next hblock =>
    have howner : c.owner.key.length < c.key.length := by
      have hkey : c.key = c.owner.plainKey ++ "::FOREACH_" ++ toString c.line := if_pos hblock
      have hpositive : 0 < ("::FOREACH_" : String).length := by decide
      rw [hkey, key_owner, String.length_append, String.length_append]
      omega
    rcases mem_cons.mp hd with rfl | hd
    · exact .inr howner
    · exact (key_outer hd).imp_right fun hlt => Nat.lt_trans hlt howner
  · exact key_outer hd

/-- What stands before a definition in its list, made by another loop. -/
theorem FileScopes.mem_earlier {s : FileScopes} (hp : p ∈ s.earlier b) :
    (p.origin ≠ b.origin ∨ b.origin = 0)
      ∧ ∃ e, e.serial = b.serial ∧ [p, e].Sublist (s.entries b.closure b.identifier) := by
  rw [FileScopes.earlier] at hp
  split at hp
  · obtain ⟨hp, horigin⟩ := mem_filter.mp hp
    refine ⟨by simpa using horigin, ?_⟩
    have hsuffix := dropWhile_suffix (l := (s.entries b.closure b.identifier).reverse)
      fun e => !e.same b
    have hhead := head?_dropWhile_not (fun e => !e.same b)
      (s.entries b.closure b.identifier).reverse
    rw [mem_reverse] at hp
    cases hdrop : (s.entries b.closure b.identifier).reverse.dropWhile fun e => !e.same b with
    | nil =>
      rw [hdrop] at hp
      cases hp
    | cons e rest =>
      rw [hdrop] at hp hsuffix hhead
      refine ⟨e, by simpa [Binding.same] using hhead, ?_⟩
      have hpair : [e, p].Sublist (e :: rest) := (singleton_sublist.mpr hp).cons_cons e
      simpa using (hpair.trans hsuffix.sublist).reverse
  · cases hp

section Hidden

variable {s : FileScopes} (h : WellFiled s.path s.entries)

include h

theorem WellFiled.earlier_before (hp : p ∈ s.earlier b) :
    p ∈ s.entries b.closure b.identifier ∧ p.serial < b.serial := by
  obtain ⟨_, e, hserial, hpair⟩ := FileScopes.mem_earlier hp
  have hordered := (h.ordered b.closure b.identifier).sublist hpair
  exact ⟨hpair.subset mem_cons_self, hserial ▸ rel_of_pairwise_cons hordered (mem_singleton_self e)⟩

/-- **A definition that is hidden comes before the one that hides it**: it stands in a scope further
out, or earlier in the same one. -/
theorem WellFiled.previous_before (hp : s.previous b = some p) :
    s.Has p ∧ (scopeRank p.closure < scopeRank b.closure
      ∨ p.closure = b.closure ∧ p.serial < b.serial) := by
  rw [FileScopes.previous] at hp
  split at hp
  · obtain ⟨c, hc, hp⟩ := exists_of_findSome?_eq_some hp
    have hmem := mem_of_lastBefore hp
    refine ⟨h.has hmem, .inl ?_⟩
    rw [(h.place _ _ p hmem).1]
    have hrank : (s.closureOfKey b.closure).key ≠ "<global>" := by
      intro hglobal
      rw [key_closureOfKey] at hglobal
      rw [hglobal] at hc
      cases hc
    have := scopeRank_beyond hrank hc
    rwa [key_closureOfKey] at this
  · obtain ⟨hmem, hlt⟩ := h.earlier_before (mem_of_lastBefore hp)
    exact ⟨h.has hmem, .inr ⟨(h.place _ _ p hmem).1, hlt⟩⟩

end Hidden

end QueryAudit.Scope
