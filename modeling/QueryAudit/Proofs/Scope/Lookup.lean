/-
  QueryAudit.Proofs.Scope.Lookup — what a look-up finds

  A look-up finds the last definition not after a line in the first scope that has one: the blocks
  around the line from the inside out, the scope itself, its class, and global code.

  Main results: `lookup_eq_findSome?`, `lookup_ofFiled`.
-/

import QueryAudit.Proofs.Scope.Filing

namespace QueryAudit.Scope

open List FileScopes Closure

variable {bindings : List Binding} {c owner : Closure} {filed : List Filed} {line : Option Int}

variable {identifier : String} {b : Binding}

/-! ## What is filed. -/

/-- What is filed about a file: a loop block of a scope, or the definitions of a scope. -/
inductive Filed where
  | block (block : Closure) (isBlock : block.kind = .block)
  | scope (key : String) (bindings : Catalog (List Binding))

namespace Filed

def block? : Filed → Option Closure
  | .block c _ => some c
  | .scope _ _ => none

/-- The definitions that are filed for an identifier under a key. -/
def entriesFor (key identifier : String) : Filed → List Binding
  | .block _ _ => []
  | .scope k bindings =>
    if k = key then (bindings.entries.filter (·.1 = identifier)).flatMap Prod.snd else []

def isUnder (key : String) : Filed → Bool
  | .block _ _ => false
  | .scope k _ => k = key

def blocks (filed : List Filed) : List Closure := filed.filterMap block?

def entries (filed : List Filed) (key identifier : String) : List Binding :=
  filed.flatMap (entriesFor key identifier)

theorem kind_of_mem_blocks (h : c ∈ blocks filed) : c.kind = .block := by
  obtain ⟨f, _, hf⟩ := mem_filterMap.mp h
  cases f with
  | block c' hc' =>
    obtain rfl := Option.some.inj hf
    exact hc'
  | scope key bindings => cases hf

/-- What is filed under other keys is nothing to a key. -/
theorem entries_filter {key other : String} (hne : key ≠ other) :
    entries (filed.filter fun f => !f.isUnder other) key identifier = entries filed key identifier := by
  induction filed with
  | nil => rfl
  | cons f filed ih =>
    rw [filter_cons]
    split
    · exact congrArg (f.entriesFor key identifier ++ ·) ih
    · next hunder =>
      cases f with
      | block c hc => exact absurd rfl hunder
      | scope k bindings =>
        have hk : k = other := by simpa [isUnder] using hunder
        have hnone : (scope k bindings).entriesFor key identifier = [] :=
          if_neg fun h => hne (h.symm.trans hk)
        rw [ih, entries, entries, flatMap_cons, hnone, nil_append]

end Filed

namespace FileScopes

variable {key : String}

def file (s : FileScopes) : Filed → FileScopes
  | .block block _ => s.addBlock block
  | .scope key bindings => s.flush key bindings

/-- The definitions of a file after blocks and scopes were filed. -/
def ofFiled (path : String) (filed : List Filed) : FileScopes := filed.foldl file { path }

def blocksOf (s : FileScopes) (key : String) : List Closure := (s.blocks.get? key).getD []

theorem entries_foldl_file :
    ∀ s : FileScopes, (filed.foldl file s).entries key identifier
      = s.entries key identifier ++ Filed.entries filed key identifier := by
  induction filed with
  | nil => exact fun s => (append_nil _).symm
  | cons f filed ih =>
    intro s
    have hcons : Filed.entries (f :: filed) key identifier
        = f.entriesFor key identifier ++ Filed.entries filed key identifier := flatMap_cons
    rw [foldl_cons, ih, hcons, ← append_assoc]
    congr 1
    cases f with
    | block c hc => exact (append_nil _).symm
    | scope k bindings =>
      rw [file, entries_flush, Filed.entriesFor]
      by_cases hk : k = key
      · rw [if_pos hk, if_pos hk.symm, hk]
      · rw [if_neg hk, if_neg (Ne.symm hk), append_nil]

theorem entries_ofFiled {path : String} :
    (ofFiled path filed).entries key identifier = Filed.entries filed key identifier :=
  entries_foldl_file { path }

theorem blocksOf_addBlock (s : FileScopes) (block : Closure) (key : String) :
    (s.addBlock block).blocksOf key = if key = block.owner.key ∧ block ∉ s.blocksOf key
      then s.blocksOf key ++ [block] else s.blocksOf key := by
  rw [addBlock, blocksOf, Catalog.get?_alter]
  by_cases hkey : key = block.owner.key
  · subst hkey
    rw [if_pos rfl, blocksOf]
    by_cases hmem : block ∈ (s.blocks.get? block.owner.key).getD [] <;> simp [hmem]
  · rw [if_neg hkey, if_neg fun h => hkey h.1, blocksOf]

/-- The blocks of a scope are those that were filed for it, each of them once. -/
theorem blocksOf_foldl_file :
    ∀ s : FileScopes, (s.blocksOf key).Nodup → ((filed.foldl file s).blocksOf key).Nodup
      ∧ ∀ c, c ∈ (filed.foldl file s).blocksOf key
        ↔ c ∈ s.blocksOf key ∨ c ∈ Filed.blocks filed ∧ c.owner.key = key := by
  induction filed with
  | nil => exact fun s hs => ⟨hs, fun c => ⟨.inl, fun h => h.resolve_right fun h => nomatch h.1⟩⟩
  | cons f filed ih =>
    intro s hs
    cases f with
    | scope k bindings =>
      exact ih (s.flush k bindings) hs
    | block block hblock =>
      have hfirst := blocksOf_addBlock s block key
      obtain ⟨hnodup, hmem⟩ := ih (s.addBlock block) (by
        rw [hfirst]
        split
        · next h =>
          rw [nodup_append]
          exact ⟨hs, by simp, fun a ha b hb heq => h.2 (mem_singleton.mp hb ▸ heq ▸ ha)⟩
        · exact hs)
      refine ⟨hnodup, fun c => (hmem c).trans ?_⟩
      have hcons : Filed.blocks (.block block hblock :: filed) = block :: Filed.blocks filed := rfl
      grind

end FileScopes

/-! ## In which order scopes are searched. -/

/-- Lines of a block: the shorter comes first, of equal ones the later. -/
def Closure.Before (a b : Closure) : Prop :=
  a.endLine - a.line < b.endLine - b.line
    ∨ a.endLine - a.line = b.endLine - b.line ∧ b.line ≤ a.line

/-- The blocks in which a reference is looked up: those of its scope around the line, from short to
long and from later to earlier ones of the same length. -/
structure BlockOrder (filed : List Filed) (owner : Closure) (line : Option Int)
    (blocks : List Closure) : Prop where
  nodup : blocks.Nodup
  mem : ∀ c, c ∈ blocks ↔ owner.kind ≠ .classBody ∧ c ∈ Filed.blocks filed
    ∧ c.owner.key = owner.key ∧ ∃ n, line = some n ∧ c.line ≤ n ∧ n ≤ c.endLine
  sorted : blocks.Pairwise Before

/-- The class of a method that has one, and global code around all else. -/
def Closure.around (owner : Closure) : List Closure :=
  (if owner.kind = .methodBody ∧ owner.className ≠ "" then [.ofClass owner.className] else [])
    ++ if owner.kind = .global then [] else [.global]

theorem Closure.outer_eq_around (hc : c.kind ≠ .block) : c.outer = c.around := by
  unfold outer around
  cases hkind : c.kind with
  | block => exact absurd hkind hc
  | global => rfl
  | classBody => rfl
  | methodBody => by_cases hname : c.className = "" <;> simp [hname]

theorem narrower_iff {a b : Closure} : narrower a b = true ↔ a.Before b := by
  simp [narrower, Before]

theorem FileScopes.blocksAround_sorted (s : FileScopes) (owner : Closure) (line : Int) :
    (s.blocksAround owner line).Pairwise Before := by
  refine (pairwise_mergeSort ?_ ?_ _).imp fun h => narrower_iff.mp h
  · intro a b c hab hbc
    rw [narrower_iff, Before] at *
    omega
  · intro a b
    rw [Bool.or_eq_true, narrower_iff, narrower_iff, Before, Before]
    omega

/-- The blocks that a look-up goes through are in order. -/
theorem levels_ofFiled (path : String) (filed : List Filed)
    (howner : owner.kind ≠ .block) (line : Option Int) :
    ∃ blocks, BlockOrder filed owner line blocks
      ∧ (ofFiled path filed).levels owner line = blocks ++ owner :: owner.around := by
  obtain ⟨hnodup, hmem⟩ := blocksOf_foldl_file { path } nodup_nil
  unfold levels
  rw [outer_eq_around howner]
  refine ⟨_, ⟨?_, ?_, ?_⟩, rfl⟩
  · cases line with
    | none => exact nodup_nil
    | some n =>
      dsimp only
      split
      · exact nodup_nil
      · exact (mergeSort_perm _ _).nodup_iff.mpr (hnodup.filter _)
  · intro c
    cases line with
    | none => simp
    | some n =>
      dsimp only
      split
      · next hclass => simp [hclass]
      · next hclass =>
        have := hmem c
        simp only [blocksAround, Closure.contains]
        simp_all [blocksOf, ofFiled, and_assoc, Catalog.get?_empty]
  · cases line with
    | none => exact Pairwise.nil
    | some n =>
      dsimp only
      split
      · exact Pairwise.nil
      · exact blocksAround_sorted _ owner n

/-- Two lists of blocks in order have the same keys: blocks that may be exchanged have the same
lines. -/
theorem BlockOrder.keys_eq {blocks others : List Closure} (h : BlockOrder filed owner line blocks)
    (k : BlockOrder filed owner line others) : blocks.map key = others.map key := by
  let range : Closure → Int × Int := fun c => (c.line, c.endLine)
  have hperm : blocks.Perm others :=
    (perm_ext_iff_of_nodup h.nodup k.nodup).mpr fun c => (h.mem c).trans (k.mem c).symm
  have hranges : blocks.map range = others.map range := by
    have hsorted : ∀ {l}, BlockOrder filed owner line l → (l.map range).Pairwise
        fun a b => a.2 - a.1 < b.2 - b.1 ∨ a.2 - a.1 = b.2 - b.1 ∧ b.1 ≤ a.1 :=
      fun hl => pairwise_map.mpr hl.sorted
    refine (hperm.map range).eq_of_pairwise (fun a b _ _ hab hba => ?_) (hsorted h) (hsorted k)
    refine Prod.ext ?_ ?_ <;> omega
  have hkeys : ∀ {l}, BlockOrder filed owner line l → l.map key
      = (l.map range).map fun r => owner.key ++ "::FOREACH_" ++ toString r.1 := by
    intro l hl
    rw [map_map]
    refine map_congr_left fun c hc => ?_
    obtain ⟨_, hblock, hkey, _⟩ := (hl.mem c).mp hc
    rw [key, if_pos (Filed.kind_of_mem_blocks hblock), ← key_owner, hkey]
    rfl
  rw [hkeys h, hkeys k, hranges]

/-! ## What is found. -/

/-- Without a line every definition counts. -/
def Binding.NotAfter (b : Binding) (line : Option Int) : Prop := ∀ n, line = some n → b.line ≤ n

/-- The last definition of some that is not after a line. -/
def IsLast (bindings : List Binding) (line : Option Int) (b : Binding) : Prop :=
  b.NotAfter line ∧ ∃ before after, bindings = before ++ b :: after ∧ ∀ e ∈ after, ¬ e.NotAfter line

theorem notAfter_iff : line.all (fun n => decide (b.line ≤ n)) = true ↔ b.NotAfter line := by
  cases line <;> simp [Binding.NotAfter]

theorem lastBefore_eq_find? :
    lastBefore bindings line = bindings.reverse.find? fun b => line.all fun n => b.line ≤ n := by
  cases line <;> rfl

theorem lastBefore_eq_some_iff : lastBefore bindings line = some b ↔ IsLast bindings line b := by
  rw [lastBefore_eq_find?, find?_eq_some_iff_append]
  simp only [Bool.not_eq_true', ← Bool.not_eq_true, notAfter_iff]
  refine and_congr_right fun _ => ⟨?_, ?_⟩
  · rintro ⟨after, before, heq, hafter⟩
    refine ⟨before.reverse, after.reverse, ?_, fun e he => hafter e (mem_reverse.mp he)⟩
    rw [← reverse_reverse bindings, heq]
    simp
  · rintro ⟨before, after, rfl, hafter⟩
    exact ⟨after.reverse, before.reverse, by simp, fun e he => hafter e (mem_reverse.mp he)⟩

theorem lastBefore_eq_none_iff :
    lastBefore bindings line = none ↔ ∀ e ∈ bindings, ¬ e.NotAfter line := by
  rw [lastBefore_eq_find?, find?_eq_none]
  simp only [mem_reverse, notAfter_iff]

section LookUp

variable (path : String) {filed : List Filed} {owner : Closure} (howner : owner.kind ≠ .block)
  (identifier : String) {line : Option Int} {blocks : List Closure}

include howner

/-- **A look-up goes through every list of blocks that is in order**, then through the scope and
those around it. -/
theorem lookup_eq_findSome? (h : BlockOrder filed owner line blocks) :
    (ofFiled path filed).lookup owner identifier line
      = (blocks ++ owner :: owner.around).findSome? fun c =>
        lastBefore (Filed.entries filed c.key identifier) line := by
  obtain ⟨inner, hinner, hlevels⟩ := levels_ofFiled path filed howner line
  rw [FileScopes.lookup, FileScopes.lookupIn, hlevels]
  simp only [FileScopes.entries_ofFiled]
  have hmap : ∀ order : List Closure, (order.findSome? fun c =>
      lastBefore (Filed.entries filed c.key identifier) line) = (order.map key).findSome?
        fun key => lastBefore (Filed.entries filed key identifier) line := by
    intro order
    rw [findSome?_map]
    rfl
  rw [hmap, hmap, map_append, map_append, hinner.keys_eq h]

/-- What is filed under a key that no scope on the way has may as well be left out. -/
theorem lookup_filter (h : BlockOrder filed owner line blocks) {key : String}
    (hkey : ∀ c ∈ blocks ++ owner :: owner.around, c.key ≠ key) :
    (ofFiled path (filed.filter fun f => !f.isUnder key)).lookup owner identifier line
      = (ofFiled path filed).lookup owner identifier line := by
  have hblocks : Filed.blocks (filed.filter fun f => !f.isUnder key) = Filed.blocks filed := by
    rw [Filed.blocks, filterMap_filter]
    congr 1
    funext f
    cases f with
    | block c hc => rfl
    | scope k bindings => exact ite_self _
  have hentries : ∀ c ∈ blocks ++ owner :: owner.around,
      Filed.entries (filed.filter fun f => !f.isUnder key) c.key identifier
        = Filed.entries filed c.key identifier := by
    exact fun c hc => Filed.entries_filter (hkey c hc)
  have horder : BlockOrder (filed.filter fun f => !f.isUnder key) owner line blocks :=
    ⟨h.nodup, hblocks ▸ h.mem, h.sorted⟩
  rw [lookup_eq_findSome? path howner identifier h, lookup_eq_findSome? path howner identifier horder]
  generalize blocks ++ owner :: owner.around = order at hentries
  induction order with
  | nil => rfl
  | cons c order ih =>
    rw [forall_mem_cons] at hentries
    rw [findSome?_cons, findSome?_cons, hentries.1, ih hentries.2]

end LookUp

/-- The lines of a block are some of those of another, but not all. -/
def Closure.StrictlyInside (a b : Closure) : Prop :=
  b.line ≤ a.line ∧ a.endLine ≤ b.endLine ∧ (a.line ≠ b.line ∨ a.endLine ≠ b.endLine)

/-- **A look-up finds the last definition not after a line in the first scope that has one**,
whatever was filed and in which order: the blocks in the order of `BlockOrder`, the scope itself,
the class of a method, and global code. For a line outside all blocks with a key, what is filed
under that key alone is never found. -/
theorem lookup_ofFiled (path : String) (filed : List Filed) (owner : Closure)
    (howner : owner.kind ≠ .block) (identifier : String) (line : Option Int) :
    (∃ blocks, BlockOrder filed owner line blocks)
    ∧ ∀ blocks, BlockOrder filed owner line blocks →
      (∀ b, (FileScopes.ofFiled path filed).lookup owner identifier line = some b
        ↔ ∃ before c after, blocks ++ owner :: owner.around = before ++ c :: after
          ∧ (∀ d ∈ before, ∀ e ∈ Filed.entries filed d.key identifier, ¬ e.NotAfter line)
          ∧ IsLast (Filed.entries filed c.key identifier) line b)
      ∧ ((FileScopes.ofFiled path filed).lookup owner identifier line = none
        ↔ ∀ c ∈ blocks ++ owner :: owner.around,
          ∀ e ∈ Filed.entries filed c.key identifier, ¬ e.NotAfter line)
      ∧ (∀ a ∈ blocks, ∀ b before after, a.StrictlyInside b → blocks = before ++ b :: after →
        a ∈ before)
      ∧ ∀ key, (∀ c ∈ owner :: owner.around, c.key ≠ key) →
        (owner.kind = .classBody ∨ ∀ n, line = some n →
          ∀ c ∈ Filed.blocks filed, c.key = key → ¬ (c.line ≤ n ∧ n ≤ c.endLine)) →
        (FileScopes.ofFiled path (filed.filter fun f => !f.isUnder key)).lookup owner identifier line
            = (FileScopes.ofFiled path filed).lookup owner identifier line
          ∧ ∀ b, (∀ other, b ∈ Filed.entries filed other identifier → other = key) →
            (FileScopes.ofFiled path filed).lookup owner identifier line ≠ some b := by
  obtain ⟨inner, hinner, _⟩ := levels_ofFiled path filed howner line
  refine ⟨⟨inner, hinner⟩, fun blocks h => ?_⟩
  have hlookup := lookup_eq_findSome? path howner identifier h
  refine ⟨fun b => ?_, ?_, ?_, ?_⟩
  · simp only [hlookup, List.findSome?_eq_some_iff, lastBefore_eq_some_iff, lastBefore_eq_none_iff]
    exact exists_congr fun _ => exists_congr fun _ => exists_congr fun _ =>
      and_congr_right fun _ => and_comm
  · simp only [hlookup, List.findSome?_eq_none_iff, lastBefore_eq_none_iff]
  · rintro a ha b before after ⟨hline, hend, hne⟩ rfl
    have hafter := (List.pairwise_cons.mp (List.pairwise_append.mp h.sorted).2.1).1
    rcases List.mem_append.mp ha with ha | ha
    · exact ha
    rcases List.mem_cons.mp ha with rfl | ha
    · exact absurd hne (by simp)
    · have := hafter a ha
      rw [Closure.Before] at this
      omega
  · intro key howners houtside
    have hkey : ∀ c ∈ blocks ++ owner :: owner.around, c.key ≠ key := by
      intro c hc
      rcases List.mem_append.mp hc with hc | hc
      · intro hck
        obtain ⟨hclass, hblock, _, n, hn, hcontains⟩ := (h.mem c).mp hc
        exact (houtside.resolve_left hclass) n hn c hblock hck hcontains
      · exact howners c hc
    refine ⟨lookup_filter path howner identifier h hkey, fun b hb hfound => ?_⟩
    obtain ⟨c, hc, hlast⟩ := List.exists_of_findSome?_eq_some (hlookup ▸ hfound)
    exact hkey c hc (hb c.key (mem_of_lastBefore hlast))

def loopLines (first last : Int) : Closure :=
  { kind := .block, className := "A", methodName := "f", line := first, endLine := last }

def definedAt (key : String) (line : Int) (serial : Nat) : Binding :=
  { identifier := "$x", closure := key, line, serial }

/-- Two loops, one in the other, with a definition before them, one in each, and one after the inner
loop. -/
def twoLoops : List Filed :=
  let define (key : String) (line : Int) (serial : Nat) : Filed :=
    .scope key ⟨[("$x", [definedAt key line serial])]⟩
  [define "A::f" 3 0, .block (loopLines 5 20) rfl, define "A::f::FOREACH_5" 5 1,
    .block (loopLines 7 12) rfl, define "A::f::FOREACH_7" 7 2, .block (loopLines 5 20) rfl,
    define "A::f" 14 3]

theorem lookup_ofFiled_twoLoops : (Closure.ofMethod "A" "f").kind ≠ .block
    ∧ BlockOrder twoLoops (.ofMethod "A" "f") (some 9) [loopLines 7 12, loopLines 5 20]
    ∧ (FileScopes.ofFiled "/p/a.php" twoLoops).lookup (.ofMethod "A" "f") "$x" (some 9)
      = some (definedAt "A::f::FOREACH_7" 7 2) := by
  have howner : (Closure.ofMethod "A" "f").kind ≠ .block := by decide
  have hblocks : Filed.blocks twoLoops = [loopLines 5 20, loopLines 7 12, loopLines 5 20] := rfl
  have horder : BlockOrder twoLoops (.ofMethod "A" "f") (some 9)
      [loopLines 7 12, loopLines 5 20] := by
    refine ⟨by decide, fun c => ⟨fun hc => ?_, fun hc => ?_⟩, ?_⟩
    · have hmem : c ∈ Filed.blocks twoLoops := by grind
      have hlines : c.line ≤ 9 ∧ 9 ≤ c.endLine ∧ c.owner = .ofMethod "A" "f" := by
        revert c
        decide
      exact ⟨by decide, hmem, by rw [hlines.2.2], 9, rfl, hlines.1, hlines.2.1⟩
    · have := hblocks ▸ hc.2.1
      grind
    · simp [Closure.Before, loopLines]
  obtain ⟨hlookup, _⟩ :=
    (lookup_ofFiled "/p/a.php" twoLoops (.ofMethod "A" "f") howner "$x" (some 9)).2 _ horder
  refine ⟨howner, horder, (hlookup _).mpr ⟨[], loopLines 7 12, _, rfl, by simp, ?_⟩⟩
  exact ⟨by simp [Binding.NotAfter, definedAt], [], [], rfl, by simp⟩

end QueryAudit.Scope
