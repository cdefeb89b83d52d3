/-
  QueryAudit.Proofs.StraightLine.Definitions — looking definitions up backwards

  A variable is resolved to the last definition not after its line, and a definition that is drawn
  from gives way to the one it hides. The invariant: while a definition is drawn from, only it and
  later ones are active, so whatever stands before it can be drawn from.

  Main results: `Filed.lookup_eq`, `Filed.previous_eq`, `Defined.gives`, `Defined.reads`.
-/

import QueryAudit.Proofs.Scope.Filing
import QueryAudit.Proofs.StraightLine.Expressions

namespace QueryAudit.StraightLine

open Php Sample Scope Text List FileScopes

variable {active : List Mark} {b : Binding} {c expr node : Cursor} {later older : List Binding}
  {on : Node → Bool} {value : String} {n : Node}

/-! ## Definitions of a function. -/

def functionScope (name : String) : Closure := .ofMethod "" name

/-- The definitions of a file with one function and no loops, the latest first. -/
structure Filed (scopes : FileScopes) (name : String) (bindings : List Binding) : Prop where
  entries : ∀ x, scopes.entries (functionScope name).key x
    = (bindings.filter (·.identifier = x)).reverse
  outside : ∀ x, scopes.entries Closure.global.key x = []
  blocks : scopes.blocks = .empty
  closure : ∀ b ∈ bindings, b.closure = (functionScope name).key
  origin : ∀ b ∈ bindings, b.origin = 0
  serial : bindings.Pairwise fun a b => a.serial ≠ b.serial

section Filed

variable {scopes : FileScopes} {name : String} {bindings : List Binding}

theorem lastBefore_reverse {entries : List Binding} {line : Int} :
    lastBefore entries.reverse (some line) = entries.find? fun b => b.line ≤ line := by
  rw [lastBefore, reverse_reverse]

theorem functionScope_outer : (functionScope name).outer = [.global] := rfl

/-- A look-up finds the latest definition of a name that is not after the line. -/
theorem Filed.lookup_eq (h : Filed scopes name bindings) (x : String) (line : Int) :
    scopes.lookup (functionScope name) x (some line)
      = bindings.find? fun b => b.identifier = x && b.line ≤ line := by
  have hlevels : scopes.levels (functionScope name) (some line) = [functionScope name, .global] := by
    have hnone : (Catalog.empty : Catalog (List Closure)).get? (functionScope name).key = none := rfl
    simp only [levels, blocksAround, h.blocks, hnone, Option.getD_none,
      filter_nil, mergeSort_nil, ite_self, nil_append, functionScope_outer]
  have hfound : lastBefore (bindings.filter (·.identifier = x)).reverse (some line)
      = bindings.find? fun b => b.identifier = x && b.line ≤ line := by
    rw [lastBefore_reverse, find?_filter]
    simp only [decide_eq_true_eq, Bool.decide_and]
  rw [FileScopes.lookup, FileScopes.lookupIn, hlevels, findSome?_cons, h.entries, hfound,
    findSome?_singleton, h.outside]
  cases bindings.find? fun b => b.identifier = x && b.line ≤ line <;> rfl

/-- The key of a function stands for its scope. -/
theorem closureOfKey_function (h : scopes.blocks = .empty) (name : String) :
    scopes.closureOfKey (functionScope name).key = functionScope name := by
  refine closureOfKey_ofMethod (by decide) ?_
  rw [h]
  rfl

/-- What stands before a definition in the list of its name. -/
theorem Filed.earlier_eq (h : Filed scopes name (later ++ b :: older)) :
    scopes.earlier b = (older.filter (·.identifier = b.identifier)).reverse := by
  have hmem : b ∈ later ++ b :: older := by simp
  have hlater : ∀ e ∈ later, e.same b = false := by
    intro e he
    have hne := (pairwise_append.mp h.serial).2.2 e he b (mem_cons_self ..)
    simpa [Binding.same] using hne
  have hself : b.same b := by simp [Binding.same]
  have hentries : (scopes.entries b.closure b.identifier).reverse
      = later.filter (·.identifier = b.identifier)
        ++ b :: older.filter (·.identifier = b.identifier) := by
    rw [h.closure b hmem, h.entries, filter_append]
    simp
  have hany : (scopes.entries b.closure b.identifier).any (·.same b) := by
    rw [← any_reverse, hentries]
    simp [hself]
  have hdrop : (scopes.entries b.closure b.identifier).reverse.dropWhile (fun e => !e.same b)
      = b :: older.filter (·.identifier = b.identifier) := by
    rw [hentries, dropWhile_append_of_pos]
    · rw [dropWhile_cons_of_neg (by simp [hself])]
    · intro e he
      simp [hlater e (mem_filter.mp he).1]
  have horigin : b.origin = 0 := h.origin b hmem
  simp only [earlier, hany, if_true, hdrop, tail_cons, horigin, decide_true,
    Bool.or_true, filter_true]

/-- One step back from a definition is the definition of its name before it. -/
theorem Filed.previous_eq
    (h : Filed scopes name (later ++ b :: older)) (hlines : ∀ e ∈ older, e.line ≤ b.line) :
    scopes.previous b = older.find? (·.identifier = b.identifier) := by
  have hmem : b ∈ later ++ b :: older := by simp
  have hfind : (older.filter (·.identifier = b.identifier)).find? (fun e => e.line ≤ b.line)
      = older.find? (·.identifier = b.identifier) := by
    rw [← head?_filter, ← head?_filter, filter_eq_self.mpr]
    intro e he
    simpa using hlines e (mem_filter.mp he).1
  rw [previous, h.earlier_eq]
  split
  · next hnil =>
    have hnone : older.filter (·.identifier = b.identifier) = [] := reverse_eq_nil_iff.mp hnil
    rw [h.closure b hmem, closureOfKey_function h.blocks]
    show [Closure.global].findSome? _ = _
    rw [findSome?_singleton, h.outside, ← hfind, hnone]
    rfl
  · rw [lastBefore_reverse, hfind]

end Filed

/-! ## A file that is at hand. -/

/-- The definitions of a file are known, and its nodes know what is above them. -/
structure Ready (r : Run) (path : String) (tree : Nat) (scopes : FileScopes) : Prop where
  resolve : r.disk.resolve path = path
  scopes : r.scopes.get? path = some scopes
  source : ∃ s, r.sources.get? path = some s ∧ s.linked = some tree
  samples : 1 ≤ r.settings.maxSamples

def InFunction (scope : List (Nat × Node)) (name : String) : Prop :=
  ∀ tree, closureAbove (Cursor.climb tree scope) none = functionScope name

section Ready

variable {r : Run} {path name : String} {tree : Nat} {scopes : FileScopes} {bindings : List Binding}
  {scope : List (Nat × Node)}

theorem Ready.withActive (h : Ready r path tree scopes) (active : List Mark) :
    Ready { r with active } path tree scopes :=
  ⟨h.resolve, h.scopes, h.source, h.samples⟩

theorem Ready.scopesOf (h : Ready r path tree scopes) : Audit.scopesOf path r = .ok scopes r := by
  simp only [Audit.scopesOf, run_bind, run_get, h.resolve, h.scopes, run_pure]

theorem Ready.above (h : Ready r path tree scopes) (htree : c.tree = tree)
    (hnamed : c.node.named) : Audit.above path c r = .ok c.ancestors r := by
  obtain ⟨s, hs, hlinked⟩ := h.source
  simp only [Audit.above, Audit.source, run_bind, run_get, h.resolve, hs, run_pure, hlinked, htree,
    hnamed, decide_true, Bool.and_self, if_true]

/-- Nodes that open no scope do not matter for the scope of what is below them. -/
theorem InFunction.append (h : InFunction scope name) {inner : List (Nat × Node)}
    (hopens : ∀ entry ∈ inner, opensScope entry.2 = false) : InFunction (inner ++ scope) name := by
  induction inner with
  | nil => exact h
  | cons entry inner ih =>
    obtain ⟨hentry, hopens⟩ := forall_mem_cons.mp hopens
    obtain ⟨hfunction, hclass⟩ := Bool.or_eq_false_iff.mp hentry
    intro tree
    have hnone : (entry.2.kind.isFunctionLike && (none : Option String).isNone) = false := by
      rw [hfunction]
      rfl
    simp only [cons_append, Cursor.climb, closureAbove, Cursor.kind, hnone, hclass]
    exact ih hopens tree

theorem nodeKey?_variable (h : n.kind = .variableName) :
    nodeKey? n = some ⟨n.text, false, none⟩ := by
  obtain ⟨kind, named, role, span, text, children⟩ := n
  obtain rfl : kind = .variableName := h
  simp [nodeKey?]

/-- A variable is bound in the scope that is open. -/
theorem registerTarget_variable {target : Cursor} (hkind : target.kind = .variableName)
    {line : Int} {tag : Option Tag} {t : Tracker} :
    Pass.registerTarget target expr line tag t = .ok ⟨⟩ (t.bind t.activeClosure
      { identifier := target.text, closure := "", line, node := some expr, tag }) := by
  have hkey : Pass.targetKey? target t = .ok (some ⟨target.text, false, none⟩) t := by
    rw [Pass.targetKey?, hkind, show referenceKey? target = _ from nodeKey?_variable hkind]
    rfl
  rw [Pass.registerTarget, bind_of_ok hkey]
  rfl

/-- A variable is looked up in the scope it stands in, from its line. -/
theorem Ready.resolve_local (h : Ready r path tree scopes) (htree : c.tree = tree)
    (hkind : c.kind = .variableName) (hnamed : c.node.named) :
    Audit.resolve path c none r
      = .ok (scopes.lookup (closureAbove c.ancestors none) c.text (some c.line)) r := by
  have hclosure : Audit.closureOf path c r = .ok (closureAbove c.ancestors none) r := by
    simp only [Audit.closureOf, run_bind, h.above htree hnamed, run_pure]
  have hkey : referenceKey? c = some ⟨c.text, false, none⟩ := nodeKey?_variable hkind
  have hclass : (⟨c.text, false, none⟩ : RefKey).namedClass? = none := rfl
  simp only [Audit.resolve, hkey, run_bind, h.scopesOf, hclosure, Audit.resolveKey, hclass,
    Bool.false_eq_true, if_false, run_pure, Option.getD_none]

/-- A variable is looked up in its function from its line. -/
theorem Ready.resolve_variable (h : Ready r path tree scopes) (hscope : InFunction scope name)
    (hc : Placed tree scope on c) (hkind : c.kind = .variableName) (hnamed : c.node.named) :
    Audit.resolve path c none r
      = .ok (scopes.lookup (functionScope name) c.text (some c.line)) r := by
  obtain ⟨inner, habove, hopens⟩ := hc.above
  have heq : closureAbove c.ancestors none = functionScope name := by
    rw [Cursor.ancestors, habove]
    exact hscope.append hopens c.tree
  rw [h.resolve_local hc.tree hkind hnamed, heq]

end Ready

/-! ## Definitions of straight-line code. -/

def memoryOf (steps : List (Binding × String)) : Memory :=
  steps.map fun step => (step.1.identifier, step.2)

/-- A definition by a store of an expression, in place of what the variable held or after it. -/
structure StoreBinding (path : String) (line serial : Nat) (appends : Bool) (expr : Cursor)
    (b : Binding) : Prop where
  path : b.path = path
  line : b.line = (line : Int)
  serial : b.serial = serial
  tag : b.tag = none
  literal : b.literal = none
  /-- It is defined by the expression, or by the assignment that appends it. -/
  node : if appends then ∃ c, b.node = some c ∧ c.kind = .augmentedAssignmentExpression
      ∧ operatorText c = ".=" ∧ c.inRole? "right" = some expr
    else b.node = some expr

/-- Definitions with the values they give, the latest first; a line above which they all stand, and
the depth down to which drawing from them goes. -/
inductive Defined (tree : Nat) (scope : List (Nat × Node)) (path : String) :
    List (Binding × String) → Nat → Nat → Prop
  | start (line : Nat) : Defined tree scope path [] line 1
  | parameter {steps : List (Binding × String)} {line depth : Nat} {b : Binding} :
      Defined tree scope path steps line depth → b.path = path → b.line = (line : Int) →
      b.serial = steps.length → b.isParameter = true →
      Defined tree scope path ((b, tainted .param b.identifier) :: steps) line depth
  | store {steps : List (Binding × String)} {line first next depth : Nat} {b : Binding}
      {expr : Cursor} {appends : Bool} {value : String} :
      Defined tree scope path steps line depth →
      StoreBinding path first steps.length appends expr b → line ≤ first → first < next →
      Placed tree scope (onLines first next) expr →
      Evaluates (memoryOf steps) expr.node value →
      Defined tree scope path ((b, stored (memoryOf steps) appends b.identifier value) :: steps)
        next (depth + expr.node.size + 2)

section Defined

variable {tree line depth : Nat} {scope : List (Nat × Node)} {path : String}
  {steps : List (Binding × String)}

theorem lookup_memoryOf {x : String} :
    (memoryOf steps).lookup x = (steps.find? (·.1.identifier = x)).map Prod.snd := by
  induction steps with
  | nil => rfl
  | cons step steps ih =>
    by_cases h : step.1.identifier = x
    · simp [memoryOf, h]
    · have hne : (x == step.1.identifier) = false := by simpa using Ne.symm h
      simpa [memoryOf, lookup_cons, hne, h] using ih

/-- All definitions are of the file, not below the line and numbered in the order they were made. -/
theorem Defined.bounds (h : Defined tree scope path steps line depth) :
    ∀ step ∈ steps, step.1.path = path ∧ step.1.line ≤ line ∧ step.1.serial < steps.length := by
  induction h with
  | start => simp
  | parameter _ hpath hline hserial _ ih =>
    refine forall_mem_cons.mpr
      ⟨⟨hpath, Int.le_of_eq hline, by simp [hserial]⟩, fun step hstep => ?_⟩
    obtain ⟨hp, hl, hs⟩ := ih step hstep
    exact ⟨hp, hl, by simp only [length_cons]; omega⟩
  | store _ hb hfirst hnext _ _ ih =>
    have hline := hb.line
    refine forall_mem_cons.mpr
      ⟨⟨hb.path, by dsimp only; omega, by simp [hb.serial]⟩, fun step hstep => ?_⟩
    obtain ⟨hp, hl, hs⟩ := ih step hstep
    exact ⟨hp, by omega, by simp only [length_cons]; omega⟩

end Defined

/-! ## Drawing from definitions. -/

/-- From a depth on, a definition gives one sample, in a state that stays as it is. -/
def Gives (r : Run) (depth : Nat) (b : Binding) (value : String) : Prop :=
  ∀ n ≥ depth, ∀ wanted ≥ 2, drawSingle (evaluation n) b wanted r = .ok ⟨[value], []⟩ r

section Drawing

variable {r : Run} {path name : String} {tree depth : Nat} {scopes : FileScopes}
  {scope : List (Nat × Node)} {on : Node → Bool} {steps : List (Binding × String)} {s : Sequence}

theorem Gives.mono {deeper : Nat} (h : Gives r depth b value)
    (hle : depth ≤ deeper) : Gives r deeper b value :=
  fun n hn => h n (Nat.le_trans hle hn)

theorem single_closed {wanted : Nat} (h : 2 ≤ wanted) :
    (⟨[value], []⟩ : Drawn).isOpen wanted = false := by
  rw [Drawn.isOpen, length_singleton, decide_eq_false_iff_not]
  omega

theorem Gives.drawEach (h : Gives r depth b value) {n wanted : Nat}
    (hn : depth ≤ n) (hwanted : 2 ≤ wanted) :
    drawEach (fun b wanted => drawSingle (evaluation n) b wanted) wanted [b] r
      = .ok ⟨[value], []⟩ r := by
  have hpos : wanted ≠ 0 := by omega
  simp only [Sample.drawEach, hpos, if_false, run_bind, h n hn wanted hwanted, single_closed hwanted,
    Bool.false_eq_true, run_pure, append_nil]

theorem definitionFor_inactive (h : markOf b ∉ r.active) : definitionFor b r = .ok (.ok b) r := by
  have hfalse : r.active.contains (markOf b) = false := by simpa using h
  simp only [definitionFor, isActive, run_bind, run_get, run_pure, hfalse, Bool.not_false, if_true]

/-- A definition that is being drawn from gives way to the one it hides. -/
theorem definitionFor_active {hidden : Binding} (hready : Ready r b.path tree scopes)
    (h : markOf b ∈ r.active) (hprevious : scopes.previous b = some hidden)
    (hhidden : markOf hidden ∉ r.active) : definitionFor b r = .ok (.ok hidden) r := by
  have htrue : r.active.contains (markOf b) := by simpa using h
  have hfalse : r.active.contains (markOf hidden) = false := by simpa using hhidden
  simp only [definitionFor, isActive, run_bind, run_get, run_pure, htrue, Bool.not_true,
    Bool.false_eq_true, if_false, Audit.previousOf, hready.scopesOf, hprevious, hfalse]

theorem yields_binding {actual : Binding}
    (hready : Ready r actual.path tree scopes) (hfor : definitionFor b r = .ok (.ok actual) r)
    (horigin : actual.origin = 0) (h : Gives r depth actual value) :
    Yields r (depth + 1) (.binding b) value := by
  refine ⟨rfl, ?_⟩
  intro n hn wanted hwanted
  obtain ⟨n, rfl⟩ := Nat.exists_eq_add_of_le' hn
  have hpos : wanted ≠ 0 := by omega
  have halternatives : Audit.alternativesOf actual r = .ok [actual] r := by
    simp only [Audit.alternativesOf, run_bind, hready.scopesOf, run_pure, alternatives,
      horigin, if_true]
  show drawRule (evaluation (n + depth)) (.binding b) wanted r = _
  rw [drawRule, if_neg hpos]
  show drawBinding (evaluation (n + depth)) b wanted r = _
  rw [drawBinding, drawAlternatives, bind_of_ok hfor]
  exact (bind_of_ok halternatives).trans (h.drawEach (Nat.le_add_left depth n) hwanted)

theorem prepares_variable (hready : Ready r path tree scopes) (hscope : InFunction scope name)
    (hc : Placed tree scope on c) (hkind : c.kind = .variableName) (hnamed : c.node.named)
    (hlookup : scopes.lookup (functionScope name) c.text (some c.line) = some b) :
    Prepares r 1 c path (.binding b) := by
  refine prepares_of_rule fun n _ => ?_
  rw [prepareRule, hkind]
  show prepareReference c path r = _
  rw [prepareReference, bind_of_ok (hready.resolve_variable hscope hc hkind hnamed), hlookup]
  rfl

/-- Definitions that can be drawn from while variables on certain lines are read. -/
structure Readable (r : Run) (on : Node → Bool) (path : String) (depth : Nat)
    (step : Binding × String) : Prop where
  inactive : markOf step.1 ∉ r.active
  path : step.1.path = path
  line : ∀ n, on n → step.1.line ≤ n.line
  gives : Gives r depth step.1 step.2

/-- Every variable is read from the latest of the definitions that can be drawn from. One definition
may be active: the one that is being made. -/
theorem reads_of_readable (later : List Binding) (own : Option Binding)
    (hready : Ready r path tree scopes) (hscope : InFunction scope name)
    (hfiled : Filed scopes name (later ++ (own.toList ++ steps.map Prod.fst)))
    (hlater : ∀ b ∈ later, ∀ n, on n → (n.line : Int) < b.line)
    (hown : ∀ b ∈ own, markOf b ∈ r.active ∧ b.path = path
      ∧ (∀ n, on n → b.line ≤ n.line) ∧ ∀ step ∈ steps, step.1.line ≤ b.line)
    (hsteps : ∀ step ∈ steps, Readable r on path depth step) :
    Reads r tree scope on path (memoryOf steps) (depth + 1) := by
  intro c value hc hkind hnamed hlookup
  have hon : on c.node := Node.of_all hc.lines
  rw [lookup_memoryOf, Option.map_eq_some_iff] at hlookup
  obtain ⟨step, hfind, rfl⟩ := hlookup
  have hstep := hsteps step (mem_of_find?_eq_some hfind)
  have horigin : step.1.origin = 0 := by
    refine hfiled.origin _ (mem_append_right _ (mem_append_right _ ?_))
    exact mem_map_of_mem (mem_of_find?_eq_some hfind)
  have hlatest : (steps.map Prod.fst).find? (·.identifier = c.text) = some step.1 := by
    rw [find?_map, Function.comp_def, hfind]
    rfl
  have hpast : later.find? (fun b => b.identifier = c.text && b.line ≤ (c.line : Int)) = none := by
    refine find?_eq_none.mpr fun b hb => ?_
    have hlt := hlater b hb c.node hon
    simp only [Bool.and_eq_true, decide_eq_true_eq, not_and]
    exact fun _ => Int.not_le.mpr hlt
  have hbefore : (steps.map Prod.fst).find?
      (fun b => b.identifier = c.text && b.line ≤ (c.line : Int)) = some step.1 := by
    rw [← hlatest, ← head?_filter, ← head?_filter, filter_congr]
    intro b hb
    obtain ⟨other, hother, rfl⟩ := mem_map.mp hb
    have hle : other.1.line ≤ (c.line : Int) := (hsteps other hother).line c.node hon
    simp [hle]
  -- which definition is looked up depends on whether the one being made is of the same name
  suffices h : ∃ b, scopes.lookup (functionScope name) c.text (some c.line) = some b
      ∧ definitionFor b r = .ok (.ok step.1) r by
    obtain ⟨b, hb, hfor⟩ := h
    exact ⟨.binding b, (prepares_variable hready hscope hc hkind hnamed hb).mono (by omega),
      yields_binding (hstep.path.symm ▸ hready) hfor horigin hstep.gives⟩
  rw [hfiled.lookup_eq, find?_append, hpast, find?_append, hbefore]
  cases own with
  | none => exact ⟨step.1, rfl, definitionFor_inactive hstep.inactive⟩
  | some b =>
    obtain ⟨hactive, hpath, hline, holder⟩ := hown b rfl
    have hle : b.line ≤ (c.line : Int) := hline c.node hon
    have hfiled : Filed scopes name (later ++ b :: steps.map Prod.fst) := hfiled
    by_cases hname : b.identifier = c.text
    · refine ⟨b, by simp [hname, hle], ?_⟩
      have hprevious : scopes.previous b = some step.1 := by
        rw [hfiled.previous_eq, hname, hlatest]
        intro e he
        obtain ⟨other, hother, rfl⟩ := mem_map.mp he
        exact holder other hother
      subst hpath
      exact definitionFor_active hready hactive hprevious hstep.inactive
    · exact ⟨step.1, by simp [hname], definitionFor_inactive hstep.inactive⟩

theorem gives_parameter (h : b.isParameter) : Gives r depth b (tainted .param b.identifier) := by
  intro n _ wanted _
  rw [drawSingle, h]
  rfl

/-- A definition gives what its expression gives while it is active. -/
theorem gives_of_drawDefinition
    (htag : b.tag = none) (hliteral : b.literal = none) (hnode : b.node = some node)
    (h : ∀ n ≥ depth, ∀ wanted ≥ 2, drawDefinition (evaluation n) b node wanted
      { r with active := markOf b :: active }
        = .ok ⟨[value], []⟩ { r with active := markOf b :: active }) :
    Gives { r with active } depth b value := by
  intro n hn wanted hwanted
  have hparameter : b.isParameter = false := by simp [Binding.isParameter, htag]
  simp only [drawSingle, hparameter, hliteral, hnode, activate, run_bind, run_modify,
    h n hn wanted hwanted, single_closed hwanted, Bool.false_eq_true, if_false, releaseMarks, foldl_cons,
    foldl_nil, erase_cons_head, run_pure]

theorem Evaluates.kind_ne {memory : Memory} (h : Evaluates memory n value) :
    n.kind ≠ .augmentedAssignmentExpression := by
  cases h <;> simp_all

/-- A definition without a combining assignment is drawn from its expression. -/
theorem drawDefinition_plain (htag : b.tag = none)
    (hkind : expr.kind ≠ .augmentedAssignmentExpression)
    (hprepares : Prepares r depth expr b.path s) (hyields : Yields r depth s value) :
    ∀ n ≥ depth, ∀ wanted ≥ 2,
      drawDefinition (evaluation n) b expr wanted r = .ok ⟨[value], []⟩ r := by
  intro n hn wanted hwanted
  have hprepare : (evaluation n).prepare expr b.path r = .ok s r := hprepares n hn
  have hdraw : (evaluation n).draw s wanted r = .ok ⟨[value], []⟩ r := hyields.draws n hn wanted hwanted
  have helement : ¬ (none : Option Tag) = some .element := nofun
  simp only [drawDefinition, htag, helement, hkind, if_false, Option.map_none, Option.getD_none,
    Bool.false_eq_true, run_bind, run_pure, drawNode, hprepare, hdraw]

/-- What is appended comes after what the variable held, which is nothing when it held none. -/
theorem drawDefinition_append {before : String} (hready : Ready r b.path tree scopes)
    (htag : b.tag = none) (hkind : node.kind = .augmentedAssignmentExpression)
    (hoperator : operatorText node = ".=") (hright : node.inRole? "right" = some expr)
    (hprepares : Prepares r depth expr b.path s) (hyields : Yields r depth s value)
    (hbefore : Yields r depth (((scopes.previous b).map Sequence.binding).getD (.ready [""])) before)
    : ∀ n ≥ depth + 1, ∀ wanted ≥ 2,
      drawDefinition (evaluation n) b node wanted r = .ok ⟨[before ++ value], []⟩ r := by
  intro n hn wanted hwanted
  have hjoined : joinWith "" [before, value] = before ++ value := by simp [joinWith]
  have hconcat := yields_concat hready.samples node b.path (.cons hbefore (.cons hyields .nil))
  have hdraw := hconcat.draws n hn wanted hwanted
  rw [hjoined] at hdraw
  have hdraw : (evaluation n).draw _ wanted r = _ := hdraw
  have helement : ¬ (none : Option Tag) = some .element := by decide
  have hrole := prepareRole_of_prepares hright hprepares (show depth ≤ n by omega)
  simp only [drawDefinition, htag, helement, hkind, if_false, if_true, Audit.previousOf, run_bind,
    hready.scopesOf, run_pure, prepareCombined, hoperator, hrole, hdraw]

end Drawing

/-! ## Running forwards and looking backwards. -/

section Backwards

variable {r : Run} {path name : String} {tree line depth : Nat} {scopes : FileScopes}
  {scope : List (Nat × Node)} {steps : List (Binding × String)}

theorem Defined.notMem_active (h : Defined tree scope path steps line depth)
    (hserial : b.serial = steps.length) (hactive : ∀ step ∈ steps, markOf step.1 ∉ active) :
    ∀ step ∈ steps, markOf step.1 ∉ markOf b :: active := by
  intro step hstep hmem
  rcases mem_cons.mp hmem with heq | hmem
  · have hlt := (h.bounds step hstep).2.2
    have hsame : step.1.serial = b.serial := congrArg Prod.snd heq
    omega
  · exact hactive step hstep hmem

/-- What a combining assignment starts from: the definition before it, which holds what the variable
holds at that point. -/
theorem yields_previous (hready : Ready r path tree scopes)
    (hfiled : Filed scopes name (later ++ b :: steps.map Prod.fst))
    (hlines : ∀ step ∈ steps, step.1.line ≤ b.line)
    (hsteps : ∀ step ∈ steps, Readable r on path depth step) :
    Yields r (depth + 1) (((scopes.previous b).map Sequence.binding).getD (.ready [""]))
      (((memoryOf steps).lookup b.identifier).getD "") := by
  have hprevious : scopes.previous b = (steps.find? (·.1.identifier = b.identifier)).map Prod.fst := by
    rw [hfiled.previous_eq, find?_map, Function.comp_def]
    intro e he
    obtain ⟨step, hstep, rfl⟩ := mem_map.mp he
    exact hlines step hstep
  rw [hprevious, lookup_memoryOf]
  cases hfind : steps.find? (·.1.identifier = b.identifier) with
  | none => exact yields_ready.mono (by omega)
  | some step =>
    have hmem := mem_of_find?_eq_some hfind
    have hstep := hsteps step hmem
    have horigin : step.1.origin = 0 :=
      hfiled.origin _ (mem_append_right _ (mem_cons_of_mem _ (mem_map_of_mem hmem)))
    exact yields_binding (hstep.path.symm ▸ hready) (definitionFor_inactive hstep.inactive) horigin
      hstep.gives

/-- **Every definition has as its only sample the value it was given**, as long as no definition up
to it is active. -/
theorem Defined.gives (h : Defined tree scope path steps line depth)
    (hready : Ready r path tree scopes) (hscope : InFunction scope name) :
    ∀ later, Filed scopes name (later ++ steps.map Prod.fst) →
      (∀ b ∈ later, (line : Int) ≤ b.line) →
      ∀ active, (∀ step ∈ steps, markOf step.1 ∉ active) →
      ∀ step ∈ steps, Gives { r with active } depth step.1 step.2 := by
  induction h with
  | start => simp
  | @parameter steps line depth b hsteps hpath hline hserial hparameter ih =>
    intro later hfiled hlater active hactive
    obtain ⟨_, hactive⟩ := forall_mem_cons.mp hactive
    refine forall_mem_cons.mpr ⟨gives_parameter hparameter, ?_⟩
    refine ih (later ++ [b]) (by simpa using hfiled) ?_ active hactive
    exact forall_mem_append.mpr ⟨hlater, by simp [hline]⟩
  | @store steps line first next depth b expr appends value hsteps hb hfirst hnext hplaced hvalue ih =>
    intro later hfiled hlater active hactive
    have hline := hb.line
    obtain ⟨_, hactive⟩ := forall_mem_cons.mp hactive
    have holder : ∀ e ∈ later ++ [b], (line : Int) ≤ e.line := by
      refine forall_mem_append.mpr ⟨fun e he => ?_, by simp [hline]; omega⟩
      have := hlater e he
      omega
    have hgives := ih (later ++ [b]) (by simpa using hfiled) holder
    refine forall_mem_cons.mpr ⟨?_, fun step hstep =>
      (hgives active hactive step hstep).mono (by omega)⟩
    -- while the new definition is active, everything before it can still be drawn from
    have hfresh := hsteps.notMem_active hb.serial hactive
    have hready' := hready.withActive (markOf b :: active)
    have hlines : ∀ step ∈ steps, step.1.line ≤ b.line := by
      intro step hstep
      have := (hsteps.bounds step hstep).2.1
      omega
    have hreadable : ∀ step ∈ steps, Readable { r with active := markOf b :: active }
        (onLines first next) path depth step := by
      intro step hstep
      refine ⟨hfresh step hstep, (hsteps.bounds step hstep).1, fun n hn => ?_,
        hgives _ hfresh step hstep⟩
      have := hlines step hstep
      simp only [onLines, Bool.and_eq_true, decide_eq_true_eq] at hn
      omega
    have hreads : Reads { r with active := markOf b :: active } tree scope (onLines first next)
        path (memoryOf steps) (depth + 1) := by
      refine reads_of_readable later (some b) hready' hscope (by simpa using hfiled) ?_ ?_ hreadable
      · intro e he n hn
        have := hlater e he
        simp only [onLines, Bool.and_eq_true, decide_eq_true_eq] at hn
        omega
      · intro e he
        obtain rfl := Option.mem_some.mp he
        refine ⟨mem_cons_self .., hb.path, fun n hn => ?_, hlines⟩
        simp only [onLines, Bool.and_eq_true, decide_eq_true_eq] at hn
        omega
    obtain ⟨s, hprepares, hyields⟩ := expression_yields hready'.samples (Nat.le_add_left 1 depth)
      hreads hvalue expr rfl hplaced
    obtain rfl := hb.path
    cases appends with
    | false =>
      refine gives_of_drawDefinition hb.tag hb.literal hb.node fun n hn => ?_
      exact drawDefinition_plain hb.tag hvalue.kind_ne hprepares hyields n (by omega)
    | true =>
      obtain ⟨node, hnode, hkind, hoperator, hright⟩ := hb.node
      have hbefore := yields_previous hready' (by simpa using hfiled) hlines hreadable
      refine gives_of_drawDefinition hb.tag hb.literal hnode fun n hn => ?_
      exact drawDefinition_append hready' hb.tag hkind hoperator hright hprepares hyields
        (hbefore.mono (by omega)) n (by omega)

/-- **Every variable after the definitions has as its only sample what it holds**, if none of them is
active. -/
theorem Defined.reads (h : Defined tree scope path steps line depth)
    (hready : Ready r path tree scopes) (hscope : InFunction scope name)
    (hfiled : Filed scopes name (steps.map Prod.fst))
    (hactive : ∀ step ∈ steps, markOf step.1 ∉ r.active) :
    Reads r tree scope (fun n => line ≤ n.line) path (memoryOf steps) (depth + 1) := by
  have hgives := h.gives hready hscope [] hfiled (by simp) r.active hactive
  refine reads_of_readable [] none hready hscope hfiled (by simp) (by simp) ?_
  intro step hstep
  refine ⟨hactive step hstep, (h.bounds step hstep).1, fun n hn => ?_, hgives step hstep⟩
  have := (h.bounds step hstep).2.1
  simp only [decide_eq_true_eq] at hn
  omega

end Backwards

end QueryAudit.StraightLine
