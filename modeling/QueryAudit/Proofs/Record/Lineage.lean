/-
  QueryAudit.Proofs.Record.Lineage — what a table of classes says about descent

  Without any walking code: which classes lead to the base class of records, what they descend from,
  and which lie on a cycle.

  Main results: `lineage_unique`, `reachesBase_iff`, `OnCycle.mem_of_closed`,
    `Lineage.not_meetsCycle`.
-/

import Mathlib.Data.List.Chain
import Mathlib.Logic.Relation
import QueryAudit.Record.Hierarchy

namespace QueryAudit.Record

open Php Text List Relation

variable {S : String → Prop} {a b met : String} {cycle names walk : List String} {known : Bool}

/-! ## Descent in a table. -/

section Descent

variable (base : String) (table : Catalog ClassDecl)

/-- A class extends the base class, which it names by a last segment. -/
def NamesBase (key name : String) : Prop :=
  ∃ d parent, table.get? key = some d ∧ d.parentName = some parent ∧ parent ≠ ""
    ∧ name = shortClassName parent ∧ lower name = base

def HasParent (key parent : String) : Prop :=
  ∃ d name, table.get? key = some d ∧ d.parentName = some name ∧ name ≠ ""
    ∧ parent = lower (shortClassName name) ∧ (table.get? parent).isSome = true

/-- A link between declared classes that does not name the base class. -/
def Extends (key parent : String) : Prop :=
  HasParent table key parent ∧ ∀ name, ¬ NamesBase base table key name

/-- Following declared parents leads, without repeating a class, to one that extends the base
class. -/
def ReachesBase (key : String) : Prop :=
  ∃ (walk : List String) (last name : String), walk.head? = some key ∧ walk.Nodup ∧ walk.IsChain (HasParent table)
    ∧ walk.getLast? = some last ∧ NamesBase base table last name

def OnCycle (key : String) : Prop := TransGen (Extends base table) key key

def MeetsCycle (key : String) : Prop :=
  ∃ met, ReflTransGen (Extends base table) key met ∧ OnCycle base table met

/-- The classes of a cycle, each linked to the next and the last one to the first. -/
structure IsCycle (cycle : List String) : Prop where
  links : cycle.IsChain (Extends base table)
  nodup : cycle.Nodup
  closes : ∃ first last, cycle.head? = some first ∧ cycle.getLast? = some last
    ∧ Extends base table last first

/-- The walk from a class ends: the names of the declared classes it passes, nearest first, then the
name of the base class when it leads there. -/
inductive Lineage : String → List String → Bool → Prop where
  | base {key name : String} (h : NamesBase base table key name) : Lineage key [name] true
  | top {key : String} (hbase : ∀ name, ¬ NamesBase base table key name)
      (hparent : ∀ parent, ¬ HasParent table key parent) : Lineage key [] false
  | step {key parent : String} {d : ClassDecl} {names : List String} {known : Bool}
      (h : Extends base table key parent) (hd : table.get? parent = some d)
      (above : Lineage parent names known) : Lineage key (d.name :: names) known

end Descent

variable {base : String} {table : Catalog ClassDecl} {key : String}

/-! ## One way up. -/

theorem HasParent.unique (ha : HasParent table key a) (hb : HasParent table key b) : a = b := by
  obtain ⟨d, name, hd, hname, -, rfl, -⟩ := ha
  obtain ⟨d', name', hd', hname', -, rfl, -⟩ := hb
  obtain rfl := Option.some.inj (hd.symm.trans hd')
  obtain rfl := Option.some.inj (hname.symm.trans hname')
  rfl

theorem NamesBase.unique (ha : NamesBase base table key a)
    (hb : NamesBase base table key b) : a = b := by
  obtain ⟨d, parent, hd, hparent, -, ha, -⟩ := ha
  obtain ⟨d', parent', hd', hparent', -, hb, -⟩ := hb
  obtain rfl := Option.some.inj (hd.symm.trans hd')
  obtain rfl := Option.some.inj (hparent.symm.trans hparent')
  exact ha.trans hb.symm

theorem Extends.unique (ha : Extends base table key a) (hb : Extends base table key b) : a = b :=
  ha.1.unique hb.1

/-- A walk that ends gives one list of ancestors and one answer. -/
theorem lineage_unique {names' : List String} {known' : Bool}
    (h : Lineage base table key names known) (h' : Lineage base table key names' known') :
    names = names' ∧ known = known' := by
  induction h generalizing names' known' with
  | base h =>
    cases h' with
    | base h' => exact ⟨by rw [h.unique h'], rfl⟩
    | top hbase _ => exact absurd h (hbase _)
    | step hext _ _ => exact absurd h (hext.2 _)
  | top hbase hparent =>
    cases h' with
    | base h' => exact absurd h' (hbase _)
    | top _ _ => exact ⟨rfl, rfl⟩
    | step hext _ _ => exact absurd hext.1 (hparent _)
  | step hext hd _ ih =>
    cases h' with
    | base h' => exact absurd h' (hext.2 _)
    | top _ hparent => exact absurd hext.1 (hparent _)
    | step hext' hd' above' =>
      obtain rfl := hext.unique hext'
      obtain rfl := Option.some.inj (hd.symm.trans hd')
      obtain ⟨rfl, rfl⟩ := ih above'
      exact ⟨rfl, rfl⟩

/-! ## Cycles. -/

theorem MeetsCycle.of_reaches
    (h : ReflTransGen (Extends base table) key met) (hmet : MeetsCycle base table met) :
    MeetsCycle base table key := by
  obtain ⟨cyclic, hreach, hcycle⟩ := hmet
  exact ⟨cyclic, h.trans hreach, hcycle⟩

/-- A walk that meets a cycle meets it from the parent on. -/
theorem MeetsCycle.parent {parent : String} (h : MeetsCycle base table key)
    (hext : Extends base table key parent) : MeetsCycle base table parent := by
  obtain ⟨met, hreach, hcycle⟩ := h
  rcases ReflTransGen.cases_head hreach with rfl | ⟨next, hnext, hrest⟩
  · obtain ⟨next, hnext, hback⟩ := TransGen.head'_iff.mp hcycle
    obtain rfl := hext.unique hnext
    exact ⟨key, hback, hcycle⟩
  · obtain rfl := hext.unique hnext
    exact ⟨met, hrest, hcycle⟩

theorem MeetsCycle.exists_parent (h : MeetsCycle base table key) :
    ∃ parent, Extends base table key parent := by
  obtain ⟨met, hreach, hcycle⟩ := h
  rcases ReflTransGen.cases_head hreach with rfl | ⟨next, hnext, -⟩
  · obtain ⟨next, hnext, -⟩ := TransGen.head'_iff.mp hcycle
    exact ⟨next, hnext⟩
  · exact ⟨next, hnext⟩

theorem Lineage.not_meetsCycle
    (h : Lineage base table key names known) : ¬ MeetsCycle base table key := by
  induction h with
  | base h =>
    intro hmeets
    obtain ⟨parent, hext⟩ := hmeets.exists_parent
    exact hext.2 _ h
  | top _ hparent =>
    intro hmeets
    obtain ⟨parent, hext⟩ := hmeets.exists_parent
    exact hparent _ hext.1
  | step hext _ _ ih => exact fun hmeets => ih (hmeets.parent hext)

theorem OnCycle.meetsCycle (h : OnCycle base table key) : MeetsCycle base table key :=
  ⟨key, .refl, h⟩

/-- What a class on a cycle leads to leads back to it. -/
theorem OnCycle.reaches_back (h : OnCycle base table key)
    (hreach : ReflTransGen (Extends base table) key met) :
    ReflTransGen (Extends base table) met key := by
  induction hreach with
  | refl => exact .refl
  | tail _ hlast ih =>
    -- the way back from the class before starts with the only link it has
    rcases ReflTransGen.cases_head ih with rfl | ⟨next, hnext, hrest⟩
    · obtain ⟨next, hnext, hback⟩ := TransGen.head'_iff.mp h
      obtain rfl := hlast.unique hnext
      exact hback
    · obtain rfl := hlast.unique hnext
      exact hrest

theorem OnCycle.mem_of_closed (h : OnCycle base table key)
    (hclosed : ∀ a b, S a → Extends base table a b → S b) (hmet : S met)
    (hreach : ReflTransGen (Extends base table) key met) : S key := by
  have hback := h.reaches_back hreach
  clear h hreach
  induction hback with
  | refl => exact hmet
  | tail _ hlast ih => exact hclosed _ _ ih hlast

theorem reaches_of_chain
    (h : (key :: walk).IsChain (Extends base table)) (hmet : met ∈ key :: walk) :
    ReflTransGen (Extends base table) key met := by
  rcases mem_cons.mp hmet with rfl | hmet
  · exact .refl
  · exact rel_of_pairwise_cons (isChain_iff_pairwise.mp (h.imp fun _ _ => .single)) hmet

/-- The parent of a class of a cycle is a class of the cycle. -/
theorem IsCycle.closed (h : IsCycle base table cycle)
    (ha : a ∈ cycle) (hext : Extends base table a b) : b ∈ cycle := by
  obtain ⟨before, after, rfl⟩ := append_of_mem ha
  cases after with
  | nil =>
    obtain ⟨first, last, hfirst, hlast, hcloses⟩ := h.closes
    rw [getLast?_append_of_ne_nil _ (cons_ne_nil _ _), getLast?_singleton,
      Option.some.injEq] at hlast
    subst hlast
    obtain rfl := hext.unique hcloses
    exact mem_of_head? hfirst
  | cons next after =>
    have hnext := (isChain_append.mp h.links).2.1
    rw [isChain_cons_cons] at hnext
    obtain rfl := hext.unique hnext.1
    simp

theorem IsCycle.onCycle (h : IsCycle base table cycle) (ha : a ∈ cycle) : OnCycle base table a := by
  obtain ⟨first, last, hfirst, hlast, hcloses⟩ := h.closes
  cases cycle with
  | nil => cases ha
  | cons head walk =>
    obtain rfl := Option.some.inj hfirst
    have hround : OnCycle base table head :=
      TransGen.tail' (reaches_of_chain h.links (mem_of_getLast? hlast)) hcloses
    have hout := reaches_of_chain h.links ha
    have hback := hround.reaches_back hout
    exact TransGen.trans_left (TransGen.trans_right hback hround) hout

/-! ## The base class. -/

/-- Following declared parents to a class that extends the base class is a walk that ends there. -/
theorem lineage_of_chain {last name : String}
    (hchain : (key :: walk).IsChain (HasParent table)) (hlast : (key :: walk).getLast? = some last)
    (hbase : NamesBase base table last name) : ∃ names, Lineage base table key names true := by
  induction walk generalizing key with
  | nil =>
    rw [getLast?_singleton, Option.some.injEq] at hlast
    exact ⟨[name], .base (hlast ▸ hbase)⟩
  | cons next walk ih =>
    rw [isChain_cons_cons] at hchain
    obtain ⟨names, hnames⟩ := ih hchain.2 hlast
    by_cases hkey : ∃ own, NamesBase base table key own
    · obtain ⟨own, hown⟩ := hkey
      exact ⟨[own], .base hown⟩
    obtain ⟨d, hd⟩ : ∃ d, table.get? next = some d := by
      obtain ⟨_, _, _, _, _, _, hsome⟩ := hchain.1
      exact Option.isSome_iff_exists.mp hsome
    exact ⟨_, .step ⟨hchain.1, fun own hown => hkey ⟨own, hown⟩⟩ hd hnames⟩

/-- A walk that ends at the base class passes every class once: later classes have shorter lists of
ancestors. -/
theorem Lineage.exists_walk (h : Lineage base table key names true) :
    ∃ walk last name, (key :: walk).Nodup ∧ (key :: walk).IsChain (HasParent table)
      ∧ (key :: walk).getLast? = some last ∧ NamesBase base table last name
      ∧ ∀ met ∈ key :: walk, ∃ above, Lineage base table met above true
        ∧ above.length ≤ names.length := by
  generalize hknown : true = known at h
  induction h with
  | @base key name h =>
    refine ⟨[], key, name, by simp, isChain_singleton key, rfl, h, ?_⟩
    intro met hmet
    rw [mem_singleton] at hmet
    exact ⟨[name], hmet ▸ .base h, Nat.le_refl _⟩
  | top _ _ => cases hknown
  | @step key parent d names known hext hd above ih =>
    obtain ⟨walk, last, name, hnodup, hchain, hlast, hbase, hshorter⟩ := ih hknown
    subst hknown
    have hown : Lineage base table key (d.name :: names) true := .step hext hd above
    have hkey : key ∉ parent :: walk := by
      intro hmem
      obtain ⟨again, hagain, hle⟩ := hshorter key hmem
      have hlen := congrArg length (lineage_unique hagain hown).1
      rw [length_cons] at hlen
      omega
    refine ⟨parent :: walk, last, name, nodup_cons.mpr ⟨hkey, hnodup⟩,
      isChain_cons_cons.mpr ⟨hext.1, hchain⟩, ?_, hbase, ?_⟩
    · rw [getLast?_cons_cons]
      exact hlast
    intro met hmet
    rcases mem_cons.mp hmet with rfl | hmet
    · exact ⟨_, hown, Nat.le_refl _⟩
    · obtain ⟨more, hmore, hle⟩ := hshorter met hmet
      exact ⟨more, hmore, Nat.le_trans hle (Nat.le_succ _)⟩

/-- **The classes that lead to the base class** are those whose walk ends there. -/
theorem reachesBase_iff :
    ReachesBase base table key ↔ ∃ names, Lineage base table key names true := by
  constructor
  · rintro ⟨walk, last, name, hhead, -, hchain, hlast, hbase⟩
    cases walk with
    | nil => cases hhead
    | cons first walk =>
      obtain rfl := Option.some.inj hhead
      exact lineage_of_chain hchain hlast hbase
  · rintro ⟨names, h⟩
    obtain ⟨walk, last, name, hnodup, hchain, hlast, hbase, -⟩ := h.exists_walk
    exact ⟨key :: walk, last, name, rfl, hnodup, hchain, hlast, hbase⟩

theorem Lineage.known_iff (h : Lineage base table key names known) :
    known = true ↔ ReachesBase base table key := by
  rw [reachesBase_iff]
  constructor
  · rintro rfl
    exact ⟨names, h⟩
  · rintro ⟨names', h'⟩
    exact (lineage_unique h h').2

theorem MeetsCycle.not_reachesBase (h : MeetsCycle base table key) :
    ¬ ReachesBase base table key := by
  rw [reachesBase_iff]
  rintro ⟨names, hnames⟩
  exact hnames.not_meetsCycle h

end QueryAudit.Record
