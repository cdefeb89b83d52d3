/-
  QueryAudit.Proofs.Scope.Hidden — going back from definition to definition

  A definition hides an earlier one of its list that another loop made, or one of a scope around it.
  Going back ends and meets no definition twice.

  Main results: `hides_of_previous`, `exists_hidden_chain`.
-/

import Mathlib.Data.List.Flatten
import Mathlib.Data.List.Nodup
import QueryAudit.Proofs.Scope.Lookup

namespace QueryAudit.Scope

open FileScopes List Filed

variable {b p : Binding} {filed : List Filed}

/-! ## Definitions where they belong. -/

namespace Filed

variable {key identifier : String}

def bindings : Filed → List Binding
  | .block _ _ => []
  | .scope _ bindings => bindings.entries.flatMap Prod.snd

/-- What is filed for an identifier under a key is of this identifier and names this key. -/
def IsOwn : Filed → Prop
  | .block _ _ => True
  | .scope key bindings => ∀ entry ∈ bindings.entries, ∀ b ∈ entry.2,
    b.closure = key ∧ b.identifier = entry.1

instance : DecidablePred IsOwn
  | .block _ _ => .isTrue trivial
  | .scope key bindings => inferInstanceAs (Decidable (∀ entry ∈ bindings.entries, ∀ b ∈ entry.2,
    b.closure = key ∧ b.identifier = entry.1))

/-- Every definition is filed where it belongs, and filed once. -/
structure Own (filed : List Filed) : Prop where
  own : ∀ f ∈ filed, f.IsOwn
  once : ((filed.flatMap bindings).map Binding.serial).Nodup

variable {filed : List Filed}

theorem Own.place (h : Own filed) (hb : b ∈ entries filed key identifier) :
    b.closure = key ∧ b.identifier = identifier := by
  obtain ⟨f, hf, hb⟩ := mem_flatMap.mp hb
  cases f with
  | block c hc => cases hb
  | scope k known =>
    rw [entriesFor] at hb
    split at hb
    · next hk =>
      obtain ⟨entry, hentry, hb⟩ := mem_flatMap.mp hb
      obtain ⟨hentry, hname⟩ := mem_filter.mp hentry
      obtain ⟨hclosure, hidentifier⟩ := h.own _ hf entry hentry b hb
      exact ⟨hclosure.trans hk, hidentifier.trans (of_decide_eq_true hname)⟩
    · cases hb

theorem entries_sublist : (entries filed key identifier).Sublist (filed.flatMap bindings) := by
  refine Sublist.flatMap_right filed fun f _ => ?_
  cases f with
  | block c hc => exact Sublist.refl _
  | scope k known =>
    rw [entriesFor]
    split
    · exact filter_sublist.flatMap Prod.snd
    · exact nil_sublist _

theorem Own.nodup (h : Own filed) (key identifier : String) :
    ((entries filed key identifier).map Binding.serial).Nodup :=
  h.once.sublist (entries_sublist.map _)

end Filed

/-! ## One step. -/

/-- The scopes around a scope: for a block first the one it belongs to. -/
def Closure.enclosing (c : Closure) : List Closure :=
  if c.kind = .block then c.owner :: c.owner.around else c.around

theorem scopesBeyond_eq_enclosing {c : Closure} : scopesBeyond c = c.enclosing := by
  rw [scopesBeyond, Closure.enclosing]
  split
  · rw [Closure.outer_eq_around kind_owner]
  · next hkind => exact Closure.outer_eq_around hkind

/-- A definition hides another of the same identifier that stands earlier in the same list and was
not made by the same loop, or belongs to a scope around its own. -/
structure Hides (filed : List Filed) (b p : Binding) : Prop where
  isFiled : p ∈ entries filed p.closure p.identifier
  identifier : p.identifier = b.identifier
  line : p.line ≤ b.line
  place : [p, b].Sublist (entries filed b.closure b.identifier)
      ∧ (b.origin ≠ 0 → p.origin ≠ b.origin)
    ∨ b.closure ≠ "<global>"
      ∧ ∃ c d : Closure, c.key = b.closure ∧ d ∈ c.enclosing ∧ d.key = p.closure

section Steps

variable {path : String} {filed : List Filed} (h : Own filed) {b p : Binding}
  (hb : b ∈ entries filed b.closure b.identifier)

include h hb

theorem hides_of_previous (hp : (ofFiled path filed).previous b = some p) : Hides filed b p := by
  have hline : ∀ {l}, lastBefore l (some b.line) = some p → p ∈ l ∧ p.line ≤ b.line := fun hlast =>
    ⟨mem_of_lastBefore hlast, (lastBefore_eq_some_iff.mp hlast).1 _ rfl⟩
  rw [previous] at hp
  split at hp
  · obtain ⟨d, hd, hlast⟩ := exists_of_findSome?_eq_some hp
    obtain ⟨hmem, hle⟩ := hline hlast
    rw [entries_ofFiled] at hmem
    obtain ⟨hclosure, hidentifier⟩ := h.place hmem
    have hglobal : b.closure ≠ "<global>" := by
      intro hglobal
      rw [hglobal] at hd
      cases hd
    rw [scopesBeyond_eq_enclosing] at hd
    refine ⟨?_, hidentifier, hle, .inr ⟨hglobal, _, d, key_closureOfKey _ _, hd, hclosure.symm⟩⟩
    rwa [hclosure, hidentifier]
  · obtain ⟨hmem, hle⟩ := hline hp
    obtain ⟨horigin, e, hserial, hpair⟩ := mem_earlier hmem
    rw [entries_ofFiled] at hpair
    -- the definition that was looked for in its list is the one given
    obtain rfl : e = b := inj_on_of_nodup_map (h.nodup _ _) (hpair.subset (by simp)) hb hserial
    have hmem : p ∈ entries filed e.closure e.identifier := hpair.subset (by simp)
    obtain ⟨hclosure, hidentifier⟩ := h.place hmem
    refine ⟨?_, hidentifier, hle, .inl ⟨hpair, fun hloop => horigin.resolve_right hloop⟩⟩
    rwa [hclosure, hidentifier]

end Steps

/-! ## All the way. -/

/-- Where a definition stands in its list. -/
def Filed.position (filed : List Filed) (b : Binding) : Nat :=
  (entries filed b.closure b.identifier).findIdx (·.same b)

theorem findIdx_lt_of_sublist {l : List Binding} (hl : (l.map Binding.serial).Nodup)
    (h : [p, b].Sublist l) : l.findIdx (·.same p) < l.findIdx (·.same b) := by
  induction l with
  | nil => cases h
  | cons a l ih =>
    obtain ⟨hfresh, hl⟩ := nodup_cons.mp hl
    have hother : ∀ {e}, e ∈ l → a.same e = false := fun he =>
      decide_eq_false fun heq => hfresh (heq ▸ mem_map_of_mem he)
    rw [findIdx_cons, findIdx_cons]
    cases h with
    | cons _ h =>
      rw [hother (h.subset (by simp)), hother (h.subset (by simp))]
      exact Nat.succ_lt_succ (ih hl h)
    | cons_cons _ h =>
      have hself : p.same p = true := decide_eq_true rfl
      rw [hself, hother (singleton_sublist.mp h)]
      exact Nat.succ_pos _

/-- What is hidden is further out, or stands earlier in the same scope. -/
def Precedes (filed : List Filed) (p b : Binding) : Prop :=
  Prod.Lex (· < ·) (· < ·) (scopeRank p.closure, position filed p)
    (scopeRank b.closure, position filed b)

theorem Hides.precedes (h : Own filed) (hp : Hides filed b p) : Precedes filed p b := by
  rcases hp.place with ⟨hpair, _⟩ | ⟨hglobal, c, d, hc, hd, hkey⟩
  · obtain ⟨hclosure, hidentifier⟩ := h.place (hpair.subset mem_cons_self)
    have hlt := findIdx_lt_of_sublist (h.nodup _ _) hpair
    rw [Precedes, position, hclosure, hidentifier]
    exact Prod.Lex.right _ hlt
  · refine Prod.Lex.left _ _ ?_
    rw [← hc, ← hkey]
    exact scopeRank_beyond (hc ▸ hglobal) (scopesBeyond_eq_enclosing ▸ hd)

instance (filed : List Filed) : IsStrictOrder Binding (Precedes filed) where
  irrefl b h := by
    rw [Precedes, Prod.lex_def] at h
    omega
  trans a b c hab hbc := by
    rw [Precedes, Prod.lex_def] at *
    omega

theorem exists_chain_of_own (path : String) (h : Own filed) (b : Binding)
    (hb : b ∈ entries filed b.closure b.identifier) : ∃ chain : List Binding,
      IsChain (fun a p => (ofFiled path filed).previous a = some p ∧ Hides filed a p) (b :: chain)
      ∧ (ofFiled path filed).previous (chain.getLastD b) = none := by
  cases hp : (ofFiled path filed).previous b with
  | none => exact ⟨[], .singleton b, hp⟩
  | some p =>
    have hhides := hides_of_previous h hb hp
    have hless := hhides.precedes h
    obtain ⟨chain, hsteps, hend⟩ := exists_chain_of_own path h p hhides.isFiled
    refine ⟨p :: chain, isChain_cons_cons.mpr ⟨⟨hp, hhides⟩, hsteps⟩, ?_⟩
    rwa [getLastD_cons]
termination_by (scopeRank b.closure, position filed b)
decreasing_by exact hless

end QueryAudit.Scope
