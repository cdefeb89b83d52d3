/-
  QueryAudit.Proofs.Sample.Settling — steps that settle with depth

  A family of steps, one for each depth, settles when from some depth on it has one outcome, other
  than an endless evaluation. `rank` measures what gets less: files that are not tracked, then
  definitions that are not active, then what is still to be drawn from.

  Main results: `settles_bind`, `settles_mapM`, `rank_le`, `rank_activate_lt`.
-/

import Mathlib.Data.Finset.Union
import Mathlib.Data.Prod.Lex
import QueryAudit.Proofs.Scope.Growth
import QueryAudit.Sample.Evaluator

namespace QueryAudit

open Audit Php Scope Sample Catalog List

variable {wanted v w : Nat} {d : Drawn} {b : Binding}

/-! ## Settling. -/

/-- From some depth on a family of steps has one outcome in a state, which is not an endless
evaluation; when it is a success it has a property. -/
def Settles {α : Type} (X : Nat → Audit α) (r : Run) (Q : α → Run → Prop) : Prop :=
  ∃ start outcome, (∀ n, start ≤ n → X n r = outcome) ∧ (∀ s, outcome ≠ .error .endless s)
    ∧ ∀ a s, outcome = .ok a s → Q a s

section Combining

variable {α β : Type} {r s : Run} {X Y : Nat → Audit α} {F : Nat → α → Audit β}
  {P Q : α → Run → Prop} {S : β → Run → Prop}

theorem Settles.mono (h : Settles X r P) (hPQ : ∀ a s, P a s → Q a s) : Settles X r Q := by
  obtain ⟨start, outcome, hX, hne, hok⟩ := h
  exact ⟨start, outcome, hX, hne, fun a s ho => hPQ a s (hok a s ho)⟩

theorem settles_of_ok {x : Audit α} {a : α} (hx : x r = .ok a s) (h : Q a s) :
    Settles (fun _ => x) r Q := by
  refine ⟨0, .ok a s, fun _ _ => hx, nofun, fun b t ho => ?_⟩
  obtain ⟨rfl, rfl⟩ := EStateM.Result.ok.inj ho
  exact h

theorem settles_pure {a : α} (h : Q a r) : Settles (fun _ => pure a) r Q := settles_of_ok rfl h

theorem settles_throw {e : Failure} (he : e ≠ .endless) :
    Settles (fun _ => (throw e : Audit α)) r Q := by
  refine ⟨0, .error e r, fun _ _ => rfl, fun s ho => he ?_, nofun⟩
  exact (EStateM.Result.error.inj ho).1

theorem settles_quiet {x : Audit α} (hx : Quiet Growing x) (hr : r.Sound)
    (h : ∀ a s, x r = .ok a s → r.Grows s → Q a s) : Settles (fun _ => x) r Q := by
  refine ⟨0, x r, fun _ _ => rfl, fun s => hx.ends r s, fun a s ho => ?_⟩
  exact h a s ho (hx.keeps.of_ok ho hr.toGrounded)

theorem settles_resolve (hr : r.Sound) {path : String} {node : Cursor} {line : Option Int} :
    Settles (fun _ => resolve path node line) r
      fun found t => r.Grows t ∧ ∀ b, found = some b → t.Has b :=
  settles_quiet quiet_resolve hr fun _ _ h hgrows =>
    ⟨hgrows, fun _ hb => resolve_has hr (hb ▸ h)⟩

/-- The larger of two depths is enough for both steps. -/
theorem settles_bind (hX : Settles X r P) (hF : ∀ a s, P a s → Settles (fun n => F n a) s S) :
    Settles (fun n => X n >>= F n) r S := by
  obtain ⟨start, outcome, hX, hne, hok⟩ := hX
  cases outcome with
  | error e s =>
    refine ⟨start, .error e s, fun n hn => bind_of_error (hX n hn), ?_, nofun⟩
    intro t ho
    exact hne s (by rw [(EStateM.Result.error.inj ho).1])
  | ok a s =>
    obtain ⟨start', outcome, hF, hne, hok⟩ := hF a s (hok a s rfl)
    refine ⟨max start start', outcome, fun n hn => ?_, hne, hok⟩
    refine (bind_of_ok (hX n (Nat.le_trans (Nat.le_max_left _ _) hn))).trans ?_
    exact hF n (Nat.le_trans (Nat.le_max_right _ _) hn)

theorem settles_bind_of_ok {x : Audit α} {a : α} (hx : x r = .ok a s)
    (hF : Settles (fun n => F n a) s S) : Settles (fun n => x >>= F n) r S :=
  settles_bind (settles_of_ok hx (Q := fun b t => b = a ∧ t = s) ⟨rfl, rfl⟩) fun _ _ h => by
    rw [h.1, h.2]
    exact hF

theorem settles_succ (h : Settles X r Q) (hY : ∀ n, Y (n + 1) = X n) : Settles Y r Q := by
  obtain ⟨start, outcome, hX, hne, hok⟩ := h
  refine ⟨start + 1, outcome, fun n hn => ?_, hne, hok⟩
  cases n with
  | zero => exact absurd hn (Nat.not_succ_le_zero start)
  | succ n =>
    rw [hY]
    exact hX n (Nat.le_of_succ_le_succ hn)

/-- The steps for the elements of a list, one after another. -/
theorem settles_mapM {R : Run → Run → Prop} [IsPreorder Run R]
    (hQ : ∀ b s t, S b s → R s t → S b t) {items : List α} :
    ∀ {r : Run}, (∀ a ∈ items, ∀ s, R r s → Settles (fun n => F n a) s fun b t => R s t ∧ S b t) →
      Settles (fun n => items.mapM (F n)) r fun found t => R r t ∧ ∀ b ∈ found, S b t := by
  induction items with
  | nil =>
    intro r _
    exact settles_pure ⟨refl_of R r, fun _ hb => nomatch hb⟩
  | cons a items ih =>
    intro r h
    simp only [mapM_cons]
    refine settles_bind (h a mem_cons_self r (refl_of R r)) fun b s ⟨hs, hb⟩ => ?_
    have hrest : ∀ c ∈ items, ∀ t, R s t → Settles (fun n => F n c) t fun d u => R t u ∧ S d u :=
      fun c hc t ht => h c (mem_cons_of_mem _ hc) t (trans_of R hs ht)
    refine settles_bind (ih hrest) fun found t ⟨ht, hfound⟩ => settles_pure ⟨trans_of R hs ht, ?_⟩
    exact forall_mem_cons.mpr ⟨hQ b s t hb ht, hfound⟩

end Combining

/-! ## States of an evaluation. -/

variable {r s t : Run}

/-- A run was added to, and the same definitions are active. -/
structure Calm (r t : Run) : Prop where
  added : r.Extends t
  active : t.active.Perm r.active

instance : IsPreorder Run Calm where
  refl r := ⟨.refl r, .refl _⟩
  trans _ _ _ h h' := ⟨h.added.trans h'.added, h'.active.trans h.active⟩

theorem Calm.active_subset (h : Calm r t) : r.active ⊆ t.active := h.active.symm.subset

theorem Run.Grows.calm (h : r.Grows t) : Calm r t := ⟨h.toExtends, by rw [h.active]⟩

/-- Samples were drawn: the definitions that are held are active as well, and none is held when less
was found than was wanted. -/
structure Drew (r : Run) (wanted : Nat) (d : Drawn) (t : Run) : Prop where
  added : r.Extends t
  active : t.active.Perm (d.held ++ r.active)
  held : d.values.length < wanted → d.held = []

theorem Calm.drew (h : Calm r s) (h' : Drew s wanted d t) : Drew r wanted d t :=
  ⟨h.added.trans h'.added, h'.active.trans (h.active.append_left _), h'.held⟩

theorem Drew.calm (h : Drew r wanted d t) (hheld : d.held = []) : Calm r t := by
  refine ⟨h.added, ?_⟩
  have hactive := h.active
  rw [hheld] at hactive
  exact hactive

theorem Calm.drew_nothing (h : Calm r t) (values : List String) (wanted : Nat) :
    Drew r wanted ⟨values, []⟩ t :=
  ⟨h.added, h.active, fun _ => rfl⟩

theorem settles_nothing {values : List String} :
    Settles (fun _ => (pure ⟨values, []⟩ : Audit Drawn)) r (Drew r wanted) :=
  settles_pure ((refl_of Calm r).drew_nothing values wanted)

theorem foldl_erase_perm {marks : List Mark} :
    ∀ {active rest : List Mark}, active.Perm (marks ++ rest) →
      (marks.foldl List.erase active).Perm rest := by
  induction marks with
  | nil => exact fun h => h
  | cons mark marks ih =>
    intro active rest h
    refine ih ?_
    have herase := h.erase mark
    rw [cons_append, erase_cons_head] at herase
    exact herase

theorem releaseMarks_calm {held : List Mark} (hadded : r.Extends t)
    (hactive : t.active.Perm (held ++ r.active)) :
    ∃ u, releaseMarks held t = .ok ⟨⟩ u ∧ Calm r u :=
  ⟨_, rfl, ⟨hadded.disk, hadded.cache, hadded.reach, hadded.kept, hadded.fresh⟩,
    foldl_erase_perm hactive⟩

/-! ## How much is left. -/

def Scope.FileScopes.marks (s : FileScopes) : Finset Mark :=
  ((s.closures.values.flatMap fun known => known.values.flatten).map markOf).toFinset

def Run.marks (r : Run) : Finset Mark :=
  r.scopes.names.toFinset.biUnion fun path => ((r.scopes.get? path).map FileScopes.marks).getD ∅

def Run.untracked (r : Run) : Nat := (r.reach \ r.scopes.names.toFinset).card

def Run.inactive (r : Run) : Nat := (r.marks \ r.active.toFinset).card

/-- What is left for an evaluation: files to track, definitions to draw from, and a weight. -/
def rank (r : Run) (weight : Nat) : Nat ×ₗ Nat ×ₗ Nat :=
  toLex (r.untracked, toLex (r.inactive, weight))

theorem mem_marks {mark : Mark} :
    mark ∈ r.marks ↔ ∃ path s, r.scopes.get? path = some s ∧ mark ∈ s.marks := by
  simp only [Run.marks, Finset.mem_biUnion, mem_toFinset]
  constructor
  · rintro ⟨path, _, hmark⟩
    cases hs : r.scopes.get? path with
    | none =>
      rw [hs] at hmark
      exact absurd hmark (Finset.notMem_empty _)
    | some s =>
      rw [hs] at hmark
      exact ⟨path, s, hs, hmark⟩
  · rintro ⟨path, s, hs, hmark⟩
    refine ⟨path, get?_isSome_iff.mp (Option.isSome_of_eq_some hs), ?_⟩
    rw [hs]
    exact hmark

theorem Run.Has.mark_mem (h : r.Has b) : markOf b ∈ r.marks := by
  obtain ⟨s, hs, hb⟩ := h
  refine mem_marks.mpr ⟨b.path, s, hs, mem_toFinset.mpr (mem_map_of_mem ?_)⟩
  rw [FileScopes.Has, FileScopes.entries] at hb
  cases hknown : s.closures.get? b.closure with
  | none =>
    rw [hknown] at hb
    cases hb
  | some known =>
    rw [hknown, Option.bind_some] at hb
    cases hentries : known.get? b.identifier with
    | none =>
      rw [hentries] at hb
      cases hb
    | some entries =>
      rw [hentries] at hb
      refine mem_flatMap.mpr ⟨known, mem_values_of_get? hknown, ?_⟩
      exact mem_flatten.mpr ⟨entries, mem_values_of_get? hentries, hb⟩

theorem Run.Extends.names_subset (h : r.Extends t) :
    r.scopes.names.toFinset ⊆ t.scopes.names.toFinset := by
  intro path hpath
  rw [mem_toFinset, ← get?_isSome_iff] at hpath ⊢
  obtain ⟨s, hs⟩ := Option.isSome_iff_exists.mp hpath
  rw [h.kept path s hs]
  rfl

/-- Unless there are fewer files left to track, no file was tracked. -/
theorem Run.Extends.untracked_lt_or (h : r.Extends t) :
    t.untracked < r.untracked
      ∨ t.untracked = r.untracked ∧ t.scopes.names.toFinset ⊆ r.scopes.names.toFinset := by
  have hsub : t.reach \ t.scopes.names.toFinset ⊆ r.reach \ r.scopes.names.toFinset :=
    Finset.sdiff_subset_sdiff h.reach h.names_subset
  by_cases hnames : t.scopes.names.toFinset ⊆ r.scopes.names.toFinset
  · rcases Nat.lt_or_eq_of_le (Finset.card_le_card hsub) with hlt | heq
    · exact .inl hlt
    · exact .inr ⟨heq, hnames⟩
  · obtain ⟨path, hpath, hnew⟩ := Finset.not_subset.mp hnames
    refine .inl (Finset.card_lt_card (Finset.ssubset_iff_of_subset hsub |>.mpr ⟨path, ?_, ?_⟩))
    · rw [mem_toFinset, ← get?_isSome_iff] at hpath hnew
      obtain ⟨s, hs⟩ := Option.isSome_iff_exists.mp hpath
      rcases h.fresh path s hs with hold | ⟨hreach, _⟩
      · exact absurd (by rw [hold]; rfl) hnew
      · refine Finset.mem_sdiff.mpr ⟨hreach, fun hmem => hnew ?_⟩
        exact get?_isSome_iff.mpr (mem_toFinset.mp hmem)
    · exact fun hmem => (Finset.mem_sdiff.mp hmem).2 hpath

/-- **What an evaluation does never adds to the rank.** -/
theorem rank_le (h : r.Extends t) (hactive : r.active ⊆ t.active) (hle : v ≤ w) :
    rank t v ≤ rank r w := by
  rw [rank, rank, Prod.Lex.toLex_le_toLex]
  rcases h.untracked_lt_or with hlt | ⟨heq, hnames⟩
  · exact .inl hlt
  refine .inr ⟨heq, ?_⟩
  have hmarks : t.marks \ t.active.toFinset ⊆ r.marks \ r.active.toFinset := by
    refine Finset.sdiff_subset_sdiff (fun mark hmark => ?_) fun mark hmark => ?_
    · obtain ⟨path, s, hs, hmark⟩ := mem_marks.mp hmark
      have hpath : path ∈ t.scopes.names.toFinset :=
        mem_toFinset.mpr (get?_isSome_iff.mp (by rw [hs]; rfl))
      have hold := get?_isSome_iff.mpr (mem_toFinset.mp (hnames hpath))
      obtain ⟨s', hs'⟩ := Option.isSome_iff_exists.mp hold
      rw [h.kept path s' hs', Option.some.injEq] at hs
      exact mem_marks.mpr ⟨path, s', hs', hs ▸ hmark⟩
    · exact mem_toFinset.mpr (hactive (mem_toFinset.mp hmark))
  rw [Prod.Lex.toLex_le_toLex]
  rcases Nat.lt_or_eq_of_le (Finset.card_le_card hmarks) with hlt | heq
  · exact .inl hlt
  · exact .inr ⟨heq, hle⟩

theorem rank_lt (h : v < w) : rank r v < rank r w := by
  rw [rank, rank, Prod.Lex.toLex_lt_toLex]
  refine .inr ⟨rfl, ?_⟩
  rw [Prod.Lex.toLex_lt_toLex]
  exact .inr ⟨rfl, h⟩

/-- **Drawing from a definition that is not active takes away from the rank.** -/
theorem rank_activate_lt (hb : r.Has b) (hactive : markOf b ∉ r.active) (v w : Nat) :
    rank { r with active := markOf b :: r.active } v < rank r w := by
  rw [rank, rank, Prod.Lex.toLex_lt_toLex]
  refine .inr ⟨rfl, ?_⟩
  rw [Prod.Lex.toLex_lt_toLex]
  refine .inl (Finset.card_lt_card ?_)
  rw [toFinset_cons]
  refine Finset.ssubset_iff_of_subset ?_ |>.mpr ⟨markOf b, ?_, ?_⟩
  · exact Finset.sdiff_subset_sdiff (Finset.Subset.refl _) (Finset.subset_insert _ _)
  · exact Finset.mem_sdiff.mpr ⟨hb.mark_mem, fun h => hactive (mem_toFinset.mp h)⟩
  · exact fun h => (Finset.mem_sdiff.mp h).2 (Finset.mem_insert_self _ _)

end QueryAudit
