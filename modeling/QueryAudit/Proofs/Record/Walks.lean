/-
  QueryAudit.Proofs.Record.Walks — walks up the parents of a class

  A walk starts at a class that was not placed and goes from parent to parent. Classes are known by
  copies of what the table declares; what was found out about them since then does not matter for
  where the walk goes, only for where it stops.

  Main results: `ascend_walks`, `Trail.lineage`, `Climb.onCycle_iff`.
-/

import Mathlib.Data.List.Nodup
import Mathlib.Data.List.Perm.Subperm
import QueryAudit.Proofs.Audit.Change
import QueryAudit.Proofs.Catalog
import QueryAudit.Proofs.Record.Lineage

namespace QueryAudit.Record

open Php Text List ClassDecl Relation

variable {c d : ClassDecl} {chain : List ClassDecl} {key : String}

/-! ## Tables and copies of their classes. -/

/-- A class as a table declares it, whatever was found out about it later. -/
def Copy (table : Catalog ClassDecl) (d : ClassDecl) : Prop :=
  (table.get? d.key).map bare = some d.bare

/-- A table of classes none of which was placed. -/
structure Unplaced (table : Catalog ClassDecl) : Prop where
  keyed : ∀ key d, table.get? key = some d → d.key = key
  fresh : ∀ key d, table.get? key = some d → d.isRecord = none ∧ d.cyclic = false
  plain : ∀ key d, table.get? key = some d → ',' ∉ key.toList

/-- Two tables with the same classes, whatever was found out about them. -/
structure SameClasses (table classes : Catalog ClassDecl) : Prop where
  names : classes.names = table.names
  bare : ∀ key, (classes.get? key).map bare = (table.get? key).map bare

def Placed (classes : Catalog ClassDecl) (key : String) : Prop :=
  ∃ d known, classes.get? key = some d ∧ d.isRecord = some known

variable {base : String} {table classes : Catalog ClassDecl}

theorem name_of_bare (h : c.bare = d.bare) : c.name = d.name := by
  have hname := congrArg name h
  exact hname

theorem key_of_bare (h : c.bare = d.bare) : c.key = d.key := by
  rw [key, key, name_of_bare h]

theorem parentName_of_bare (h : c.bare = d.bare) : c.parentName = d.parentName := by
  have hparent := congrArg parentName h
  exact hparent

theorem Copy.get (h : Copy table d) : ∃ own, table.get? d.key = some own ∧ own.bare = d.bare :=
  Option.map_eq_some_iff.mp h

theorem SameClasses.get (h : SameClasses table classes)
    (hc : classes.get? key = some c) : ∃ d, table.get? key = some d ∧ c.bare = d.bare := by
  have hbare := h.bare key
  rw [hc, Option.map_some, eq_comm, Option.map_eq_some_iff] at hbare
  obtain ⟨d, hd, hsame⟩ := hbare
  exact ⟨d, hd, hsame.symm⟩

theorem SameClasses.get_of_table (h : SameClasses table classes)
    (hd : table.get? key = some d) : ∃ c, classes.get? key = some c ∧ c.bare = d.bare := by
  have hbare := h.bare key
  rw [hd, Option.map_some, Option.map_eq_some_iff] at hbare
  exact hbare

theorem SameClasses.copy (h : SameClasses table classes)
    (hkeyed : ∀ key d, table.get? key = some d → d.key = key) (hc : classes.get? key = some c) :
    c.key = key ∧ Copy table c := by
  obtain ⟨d, hd, hbare⟩ := h.get hc
  have hkey : c.key = key := (key_of_bare hbare).trans (hkeyed key d hd)
  refine ⟨hkey, ?_⟩
  rw [Copy, hkey, hd, Option.map_some, hbare]

/-! ## What a class says about its parent. -/

theorem Copy.parent_iff (h : Copy table d) {P : String → Prop} :
    (∃ own parent, table.get? d.key = some own ∧ own.parentName = some parent ∧ parent ≠ "" ∧ P parent)
      ↔ ∃ parent, d.parentName.filter (· ≠ "") = some parent ∧ P parent := by
  obtain ⟨own, hown, hbare⟩ := h.get
  have hparent := parentName_of_bare hbare
  constructor
  · rintro ⟨d', parent, hd', hname, hne, hP⟩
    obtain rfl := Option.some.inj (hown.symm.trans hd')
    refine ⟨parent, ?_, hP⟩
    rw [← hparent, hname]
    simp [hne]
  · rintro ⟨parent, hfilter, hP⟩
    obtain ⟨hname, hne⟩ := Option.filter_eq_some_iff.mp hfilter
    exact ⟨own, parent, hown, hparent.trans hname, of_decide_eq_true hne, hP⟩

theorem Copy.namesBase_iff (h : Copy table d) (name : String) :
    NamesBase base table d.key name ↔ ∃ parent, d.parentName.filter (· ≠ "") = some parent
      ∧ name = shortClassName parent ∧ lower name = base := h.parent_iff

theorem Copy.hasParent_iff (h : Copy table d) (parent : String) :
    HasParent table d.key parent ↔ ∃ name, d.parentName.filter (· ≠ "") = some name
      ∧ parent = lower (shortClassName name) ∧ (table.get? parent).isSome = true := h.parent_iff

theorem SameClasses.isSome_iff (h : SameClasses table classes) (key : String) :
    (table.get? key).isSome = (classes.get? key).isSome := by
  have hbare := congrArg Option.isSome (h.bare key)
  rw [Option.isSome_map, Option.isSome_map] at hbare
  exact hbare.symm

/-! ## Walks. -/

/-- The classes of a walk so far: each linked to the next, none placed and none twice. -/
structure Trail (base : String) (table classes : Catalog ClassDecl) (chain : List ClassDecl) :
    Prop where
  copies : ∀ d ∈ chain, Copy table d
  links : (chain.map ClassDecl.key).IsChain (Extends base table)
  nodup : (chain.map ClassDecl.key).Nodup
  unplaced : ∀ d ∈ chain, ¬ Placed classes d.key

/-- How a walk ends whose last class is given. -/
inductive Walked (base : String) (table classes : Catalog ClassDecl) (last : ClassDecl) :
    Ascent → Prop where
  | top {chain : List ClassDecl} (hbase : ∀ name, ¬ NamesBase base table last.key name)
      (hparent : ∀ parent, ¬ HasParent table last.key parent) :
      Walked base table classes last { chain }
  | base {chain : List ClassDecl} {name : String} (h : NamesBase base table last.key name) :
      Walked base table classes last { chain, beyond := [name], isRecord := true }
  | known {chain : List ClassDecl} {parent : ClassDecl} {known : Bool}
      (hext : Extends base table last.key parent.key) (hget : classes.get? parent.key = some parent)
      (hknown : parent.isRecord = some known) :
      Walked base table classes last
        { chain, beyond := parent.name :: parent.ancestors, isRecord := known }
  | cycle {before rest : List ClassDecl} {first : ClassDecl}
      (hext : Extends base table last.key first.key) :
      Walked base table classes last
        { chain := before ++ first :: rest, cycle := first :: rest }

/-- A walk as a whole: the classes it passes up to the last one, and how it ends there. -/
structure Climb (base : String) (table classes : Catalog ClassDecl) (last : ClassDecl) (w : Ascent) :
    Prop where
  trail : Trail base table classes w.chain
  arrives : w.chain.getLast? = some last
  ends : Walked base table classes last w

theorem Trail.length_le (h : Trail base table classes chain) : chain.length ≤ table.size := by
  have hsub : chain.map ClassDecl.key ⊆ table.names := by
    intro key hkey
    obtain ⟨d, hd, rfl⟩ := mem_map.mp hkey
    obtain ⟨own, hown, -⟩ := (h.copies d hd).get
    exact (Catalog.get?_isSome_iff).mp (Option.isSome_iff_exists.mpr ⟨own, hown⟩)
  have hlen := (Nodup.subperm h.nodup hsub).length_le
  rw [length_map] at hlen
  calc chain.length ≤ table.names.length := hlen
    _ = table.size := length_map _

theorem Trail.snoc {current parent : ClassDecl}
    (h : Trail base table classes chain) (hlast : chain.getLast? = some current)
    (hext : Extends base table current.key parent.key) (hcopy : Copy table parent)
    (hnew : ∀ d ∈ chain, d.key ≠ parent.key) (hunplaced : ¬ Placed classes parent.key) :
    Trail base table classes (chain ++ [parent]) where
  copies := forall_mem_append.mpr ⟨h.copies, forall_mem_singleton.mpr hcopy⟩
  links := by
    rw [map_append, isChain_append]
    refine ⟨h.links, isChain_singleton _, ?_⟩
    intro a ha b hb
    rw [getLast?_map, hlast] at ha
    obtain rfl := Option.some.inj ha
    obtain rfl := Option.some.inj hb
    exact hext
  nodup := by
    rw [map_append]
    refine nodup_append.mpr ⟨h.nodup, nodup_singleton _, ?_⟩
    intro a ha b hb hab
    obtain ⟨d, hd, rfl⟩ := mem_map.mp ha
    rw [map_singleton, mem_singleton] at hb
    exact hnew d hd (hab.trans hb)
  unplaced := forall_mem_append.mpr ⟨h.unplaced, forall_mem_singleton.mpr hunplaced⟩

theorem dropWhile_key (h : chain.any (·.key = key) = true) :
    ∃ before first rest, chain = before ++ first :: rest
      ∧ chain.dropWhile (·.key ≠ key) = first :: rest ∧ first.key = key := by
  induction chain with
  | nil => cases h
  | cons d chain ih =>
    by_cases hd : d.key = key
    · exact ⟨[], d, chain, rfl, dropWhile_cons_of_neg (by simp [hd]), hd⟩
    rw [any_cons, decide_eq_false hd] at h
    obtain ⟨before, first, rest, hchain, hdrop, hfirst⟩ := ih h
    refine ⟨d :: before, first, rest, by rw [hchain]; rfl, ?_, hfirst⟩
    rw [dropWhile_cons_of_pos (by simp [hd]), hdrop]

/-- **How a walk ends**: at the top, at the base class, at a class that was placed, or in a cycle.
The count is no limit, since no class comes twice. -/
theorem ascend_walks (hsame : SameClasses table classes)
    (hkeyed : ∀ key d, table.get? key = some d → d.key = key) {n : Nat} :
    ∀ {chain : List ClassDecl} {current : ClassDecl}, Trail base table classes chain →
      chain.getLast? = some current → table.size < chain.length + n →
      ∃ last more, (ascend base classes n chain current).chain = chain ++ more
        ∧ Climb base table classes last (ascend base classes n chain current) := by
  induction n with
  | zero =>
    intro chain current htrail _ hfuel
    have := htrail.length_le
    omega
  | succ n ih =>
    intro chain current htrail hlast hfuel
    have hcopy := htrail.copies current (mem_of_getLast? hlast)
    unfold ascend
    split
    · next hnone =>
      refine ⟨current, [], (append_nil _).symm, htrail, hlast, .top ?_ ?_⟩
      · intro name hname
        obtain ⟨parent, hparent, -⟩ := (hcopy.namesBase_iff name).mp hname
        cases hnone.symm.trans hparent
      · intro parent hparent
        obtain ⟨name, hname, -⟩ := (hcopy.hasParent_iff parent).mp hparent
        cases hnone.symm.trans hname
    · next name hname =>
      split
      · next hbase =>
        have hnames : NamesBase base table current.key (shortClassName name) :=
          (hcopy.namesBase_iff _).mpr ⟨name, hname, rfl, hbase⟩
        exact ⟨current, [], (append_nil _).symm, htrail, hlast, .base hnames⟩
      · next hbase =>
        have hnot : ∀ own, ¬ NamesBase base table current.key own := by
          intro own hown
          obtain ⟨parent, hparent, hshort, hlower⟩ := (hcopy.namesBase_iff own).mp hown
          obtain rfl := Option.some.inj (hname.symm.trans hparent)
          exact hbase (hshort ▸ hlower)
        have hget : declared? classes (some name) = classes.get? (lower (shortClassName name)) := by
          have hne : name ≠ "" := of_decide_eq_true (Option.filter_eq_some_iff.mp hname).2
          simp [declared?, Option.filter, hne]
        rw [hget]
        split
        · next hundeclared =>
          refine ⟨current, [], (append_nil _).symm, htrail, hlast, .top hnot ?_⟩
          intro parent hparent
          obtain ⟨own, hown, rfl, hsome⟩ := (hcopy.hasParent_iff parent).mp hparent
          obtain rfl := Option.some.inj (hname.symm.trans hown)
          rw [hsame.isSome_iff, hundeclared] at hsome
          cases hsome
        · next parent hparent =>
          obtain ⟨hkey, hparentCopy⟩ := hsame.copy hkeyed hparent
          have hext : Extends base table current.key parent.key := by
            refine ⟨(hcopy.hasParent_iff _).mpr ⟨name, hname, hkey, ?_⟩, hnot⟩
            rw [hkey, hsame.isSome_iff, hparent]
            rfl
          rw [← hkey] at hparent
          split
          · next hseen =>
            obtain ⟨before, first, rest, hchain, hdrop, hfirst⟩ := dropWhile_key hseen
            refine ⟨current, [], (append_nil _).symm, htrail, hlast, ?_⟩
            rw [hdrop]
            subst hchain
            exact .cycle (hfirst ▸ hext)
          · next hunseen =>
            have hnew : ∀ d ∈ chain, d.key ≠ parent.key := by
              intro d hd hdkey
              exact hunseen (any_eq_true.mpr ⟨d, hd, decide_eq_true hdkey⟩)
            split
            · next known hknown =>
              exact ⟨current, [], (append_nil _).symm, htrail, hlast, .known hext hparent hknown⟩
            · next hunknown =>
              have hunplaced : ¬ Placed classes parent.key := by
                rintro ⟨d, known, hd, hknown⟩
                obtain rfl := Option.some.inj (hparent.symm.trans hd)
                cases hunknown.symm.trans hknown
              have hlonger : table.size < (chain ++ [parent]).length + n := by
                rw [length_append, length_singleton]
                omega
              obtain ⟨last, more, hchain, hrest⟩ := ih
                (htrail.snoc hlast hext hparentCopy hnew hunplaced)
                getLast?_concat hlonger
              refine ⟨last, parent :: more, ?_, hrest⟩
              rw [hchain, append_assoc]
              rfl

/-! ## What a walk says about its classes. -/

section Places

variable {last d : ClassDecl} {w : Ascent} {before rest : List ClassDecl}

theorem Trail.reaches_last (h : Trail base table classes (before ++ d :: rest))
    (hlast : (before ++ d :: rest).getLast? = some last) :
    ReflTransGen (Extends base table) d.key last.key := by
  have hlinks := h.links
  rw [map_append] at hlinks
  refine reaches_of_chain (isChain_append.mp hlinks).2.1 ?_
  rw [getLast?_append_of_ne_nil _ (cons_ne_nil _ _)] at hlast
  exact mem_map_of_mem (mem_of_getLast? hlast)

/-- Where the walk from the last class ends, there ends the walk from each class. -/
theorem Trail.lineage {beyond : List String} {known : Bool}
    (h : Trail base table classes (before ++ d :: rest))
    (hlast : (before ++ d :: rest).getLast? = some last)
    (hlineage : Lineage base table last.key beyond known) :
    Lineage base table d.key (rest.map ClassDecl.name ++ beyond) known := by
  induction rest generalizing before d with
  | nil =>
    rw [getLast?_concat] at hlast
    obtain rfl := Option.some.inj hlast
    exact hlineage
  | cons next rest ih =>
    have hsplit : before ++ d :: next :: rest = (before ++ [d]) ++ next :: rest := by
      rw [append_assoc]
      rfl
    rw [hsplit] at h hlast
    have habove := ih h hlast
    have hcopy := h.copies next (mem_append_right _ mem_cons_self)
    obtain ⟨own, hown, hbare⟩ := hcopy.get
    have hext : Extends base table d.key next.key := by
      have hlinks := h.links
      rw [← hsplit, map_append, map_cons] at hlinks
      exact (isChain_cons_cons.mp (isChain_append.mp hlinks).2.1).1
    rw [map_cons, ← name_of_bare hbare]
    exact .step hext hown habove

/-- A walk that ends in a cycle is followed by that cycle. -/
theorem Climb.isCycle (h : Climb base table classes last w) (hne : w.cycle ≠ []) :
    IsCycle base table (w.cycle.map ClassDecl.key) := by
  obtain ⟨htrail, hlast, hw⟩ := h
  cases hw with
  | cycle hext =>
    have hlinks := htrail.links
    have hnodup := htrail.nodup
    rw [map_append] at hlinks hnodup
    rw [getLast?_append_of_ne_nil _ (cons_ne_nil _ _)] at hlast
    refine ⟨(isChain_append.mp hlinks).2.1, (nodup_append.mp hnodup).2.1, _, _, rfl, ?_, hext⟩
    rw [getLast?_map, hlast]
    rfl
  | _ => exact absurd rfl hne

/-- The parent of a class of a walk belongs to the walk or was placed before. -/
theorem Climb.closed {parent : String} (h : Climb base table classes last w)
    (hkey : key ∈ w.chain.map ClassDecl.key) (hext : Extends base table key parent) :
    parent ∈ w.chain.map ClassDecl.key ∨ Placed classes parent := by
  obtain ⟨htrail, hlast, hw⟩ := h
  obtain ⟨before, after, hsplit⟩ := append_of_mem hkey
  have hlinks := htrail.links
  rw [hsplit] at hlinks
  cases after with
  | cons next after =>
    -- not the last class: its parent is the next one
    have hnext := (isChain_cons_cons.mp (isChain_append.mp hlinks).2.1).1
    obtain rfl := hext.unique hnext
    refine .inl ?_
    rw [hsplit]
    simp
  | nil =>
    have hkeyLast : key = last.key := by
      have hmap := congrArg getLast? hsplit
      rw [getLast?_map, hlast, getLast?_concat] at hmap
      exact (Option.some.inj hmap).symm
    subst hkeyLast
    cases hw with
    | top _ hparent => exact absurd hext.1 (hparent _)
    | base h => exact absurd h (hext.2 _)
    | known hknownExt hget hknown =>
      obtain rfl := hext.unique hknownExt
      exact .inr ⟨_, _, hget, hknown⟩
    | cycle hcycleExt =>
      obtain rfl := hext.unique hcycleExt
      exact .inl (by simp)

/-- A class of a walk lies on a cycle exactly when it belongs to the cycle that the walk found. -/
theorem Climb.onCycle_iff (h : Climb base table classes last w)
    (hclosed : ∀ key parent, Placed classes key → Extends base table key parent →
      Placed classes parent)
    (hkey : key ∈ w.chain.map ClassDecl.key) :
    key ∈ w.cycle.map ClassDecl.key ↔ OnCycle base table key := by
  obtain ⟨d, hd, rfl⟩ := mem_map.mp hkey
  obtain ⟨before, rest, hsplit⟩ := append_of_mem hd
  have hreach : ReflTransGen (Extends base table) d.key last.key :=
    (hsplit ▸ h.trail).reaches_last (hsplit ▸ h.arrives)
  constructor
  · intro hmem
    have hne : w.cycle ≠ [] := by
      rintro hnil
      rw [hnil] at hmem
      cases hmem
    exact (h.isCycle hne).onCycle hmem
  · intro hcycle
    have hback := hcycle.reaches_back hreach
    have hisCycle := h.isCycle
    cases h.ends with
    | top _ hparent =>
      obtain ⟨parent, hext⟩ := (MeetsCycle.of_reaches hback hcycle.meetsCycle).exists_parent
      exact absurd hext.1 (hparent _)
    | base hbase =>
      obtain ⟨parent, hext⟩ := (MeetsCycle.of_reaches hback hcycle.meetsCycle).exists_parent
      exact absurd hbase (hext.2 _)
    | known hext hget hknown =>
      -- a class on a cycle below a placed class would be placed
      exact absurd (hcycle.mem_of_closed hclosed ⟨_, _, hget, hknown⟩ (hreach.tail hext))
        (h.trail.unplaced d hd)
    | @cycle before rest first hext =>
      have hfirst : first.key ∈ (first :: rest).map key := by simp
      exact hcycle.mem_of_closed (S := (· ∈ (first :: rest).map key))
        (fun a b ha hab => (hisCycle (cons_ne_nil _ _)).closed ha hab) hfirst (hreach.tail hext)

end Places

end QueryAudit.Record
