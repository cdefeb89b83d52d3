/-
  QueryAudit.Proofs.StraightLine.Tracking — the pass over a straight-line function

  The pass makes one definition for every parameter and every store, in order, and nothing else.
  Inside of the function the open scope holds the definitions made so far (`Inside`).

  Main results: `visit_plain`, `tracks_code`, `run_tracks`.
-/

import QueryAudit.Proofs.Scope.Closing
import QueryAudit.Proofs.Scope.Restoring
import QueryAudit.Proofs.StraightLine.Definitions

namespace QueryAudit.StraightLine

open Php Sample Scope Text Tracker List Catalog Cursor

variable {c : Cursor}

variable {t t' t'' : Tracker} {tree : Nat} {above : List (Nat × Node)} {n parent : Node}
  {bindings : List Binding} {function target expr param : Cursor} {path name x : String}
  {known : Catalog (List Binding)}

/-! ## Code without definitions. -/

/-- Two states of a pass are the same up to the calls that were noted. -/
def SameButCalls (t t' : Tracker) : Prop :=
  ∃ calls, t' = { t with scopes := { t.scopes with callSites := calls } }

theorem SameButCalls.refl (t : Tracker) : SameButCalls t t := ⟨t.scopes.callSites, rfl⟩

theorem SameButCalls.trans (h : SameButCalls t t') (h' : SameButCalls t' t'') :
    SameButCalls t t'' := by
  obtain ⟨_, rfl⟩ := h
  obtain ⟨calls, rfl⟩ := h'
  exact ⟨calls, rfl⟩

theorem noteCall_ok : ∃ t', Pass.noteCall c t = .ok ⟨⟩ t' ∧ SameButCalls t t' := by
  simp only [Pass.noteCall, run_bind, run_get]
  split
  · exact ⟨_, rfl, _, rfl⟩
  · exact ⟨t, rfl, .refl t⟩

theorem registerDefine_plain (hkind : c.node.kind = .functionCallExpression) (h : isPlain c.node) :
    Pass.registerDefine c t = .ok ⟨⟩ t := by
  have hrole := map_node_inRole? c "function"
  cases hfunction : c.inRole? "function" with
  | none =>
    rw [Pass.registerDefine, hfunction]
    rfl
  | some function =>
    rw [hfunction] at hrole
    have hne : lower function.text ≠ "define" := by
      show lower function.node.text ≠ "define"
      simpa [isPlain, hkind, ← hrole] using h
    simp only [Pass.registerDefine, hfunction]
    rw [if_pos hne]
    rfl

theorem passEnter_cases (h : isPlain c.node) :
    Pass.enter c = Pass.noteCall c ∨ Pass.enter c = pure ⟨⟩
      ∨ (c.node.kind = .functionCallExpression ∧ Pass.enter c = Pass.registerDefine c) := by
  unfold Pass.enter
  split
  all_goals first
    | exact .inl rfl
    | exact .inr (.inl rfl)
    | exact .inr (.inr ⟨‹_›, rfl⟩)
    | exact absurd h (by simp_all [isPlain, kind])

theorem passEnter_plain (h : isPlain c.node) :
    ∃ t', Pass.enter c t = .ok ⟨⟩ t' ∧ SameButCalls t t' := by
  rcases passEnter_cases h with heq | heq | ⟨hkind, heq⟩
  · rw [heq]
    exact noteCall_ok
  · rw [heq]
    exact ⟨t, rfl, .refl t⟩
  · rw [heq]
    exact ⟨t, registerDefine_plain hkind h, .refl t⟩

theorem enter_plain (h : isPlain c.node) (t : Tracker) : SameButCalls t (t.enter c) := by
  obtain ⟨t', ht', hsame⟩ := passEnter_plain h
  rw [enter, ht']
  exact hsame

theorem leave_eq (hopens : opensScope c.node = false)
    (hloop : c.kind ≠ .foreachStatement) (t : Tracker) : t.leave c = t := by
  obtain ⟨hfunction, hclass⟩ := Bool.or_eq_false_iff.mp hopens
  have hfunction : c.kind.isFunctionLike = false := hfunction
  have hclass : c.kind.isClassLike = false := hclass
  rw [leave, hclass, hfunction]
  simp [hloop]

theorem leave_plain (h : isPlain c.node) (t : Tracker) : t.leave c = t := by
  refine leave_eq (opensScope_of_isPlain h) ?_ t
  intro hkind
  have hkind : c.node.kind = .foreachStatement := hkind
  simp [isPlain, hkind] at h

/-- **Code that stores nothing makes no definition.** -/
theorem visit_plain (h : Plain n) : SameButCalls t (visit tree above n t) :=
  visit_keeps (G := fun c => Plain c.node) (c := ⟨tree, n, above⟩)
    (fun _ hc _ hchild => Node.all_of_mem hc (mem_children hchild).2.1)
    (fun _ u hc hu => hu.trans (enter_plain (Node.of_all hc) u))
    (fun _ _ hc hu => by rwa [leave_plain (Node.of_all hc)]) h (.refl t)

theorem visitAll_plain (tree : Nat) (parent : Node) (above : List (Nat × Node)) (i : Nat)
    (nodes : List Node) (h : ∀ n ∈ nodes, Plain n) :
    SameButCalls t (visitAll tree parent above i nodes t) := by
  induction nodes generalizing i t with
  | nil =>
    rw [visitAll]
    exact .refl t
  | cons n nodes ih =>
    rw [forall_mem_cons] at h
    rw [visitAll]
    split
    · exact (visit_plain h.1).trans (ih _ h.2)
    · exact ih _ h.2

/-! ## The open scope of a function. -/

/-- A pass is inside of a function of a file, and made definitions there, given the latest first. -/
structure Inside (t : Tracker) (function : Cursor) (path name : String) (bindings : List Binding) :
    Prop where
  position : t.position = .inMethod
  currentClass : t.currentClass = none
  currentMethod : t.currentMethod = some function
  methodScope : t.methodScope = some (functionScope name)
  filing : t.Filing path
  entries : ∀ key x, t.entries key x
    = if key = (functionScope name).key then (bindings.filter (·.identifier = x)).reverse else []
  blocks : t.scopes.blocks = .empty
  events : t.events = []
  serial : t.serial = bindings.length
  /-- Every definition belongs to the function, and none to a loop. -/
  closure : ∀ b ∈ bindings, b.closure = (functionScope name).key ∧ b.origin = 0
  serials : bindings.map (·.serial) = (range bindings.length).reverse

section Inside

variable {t t' : Tracker} {function : Cursor} {path name : String} {bindings : List Binding}

theorem Inside.ofSame (h : Inside t function path name bindings) (hsame : SameButCalls t t') :
    Inside t' function path name bindings := by
  obtain ⟨calls, rfl⟩ := hsame
  exact ⟨h.position, h.currentClass, h.currentMethod, h.methodScope, h.filing.step (.calls t calls),
    h.entries, h.blocks, h.events, h.serial, h.closure, h.serials⟩

theorem Inside.activeClosure (h : Inside t function path name bindings) :
    t.activeClosure = functionScope name := by
  rw [Tracker.activeClosure, h.position, h.methodScope]

theorem functionScope_key_ne (name : String) : (functionScope name).key ≠ Closure.global.key := by
  intro heq
  have hlist : (functionScope name).key.toList = ':' :: ':' :: name.toList := by
    show ("" ++ "::" ++ name).toList = _
    simp
  rw [heq] at hlist
  exact absurd (cons.inj hlist).1 (by decide)

/-- **A step of the pass**: a new definition is put after those made before. -/
theorem Inside.bind (h : Inside t function path name bindings) (b : Binding) (horigin : b.origin = 0) :
    Inside (t.bind (functionScope name) b) function path name
      ({ b with closure := (functionScope name).key, path := path, serial := bindings.length }
        :: bindings) := by
  refine ⟨h.position, h.currentClass, h.currentMethod, h.methodScope, h.filing.bind _ b,
    fun key x => ?_, h.blocks, h.events, ?_, ?_, ?_⟩
  · rw [entries_bind, h.entries, placed, h.filing.file, h.serial, filter_cons]
    by_cases hkey : key = (functionScope name).key
    · by_cases hx : b.identifier = x
      · simp [hkey, hx]
      · simp [hkey, hx, Ne.symm hx]
    · simp [hkey]
  · show t.serial + 1 = _
    rw [h.serial, length_cons]
  · exact forall_mem_cons.mpr ⟨⟨rfl, horigin⟩, h.closure⟩
  · rw [map_cons, h.serials, length_cons, range_succ, reverse_append]
    rfl

end Inside

/-! ## Statements. -/

theorem visit_eq :
    visit tree above n t
      = (visitAll tree n above 0 n.children (t.enter ⟨tree, n, above⟩)).leave ⟨tree, n, above⟩ := by
  cases n
  rw [visit]

theorem visitAll_append {right left : List Node} :
    ∀ (i : Nat) (t : Tracker), visitAll tree parent above i (left ++ right) t
      = visitAll tree parent above (i + left.length) right
          (visitAll tree parent above i left t) := by
  induction left with
  | nil => exact fun _ _ => rfl
  | cons n left ih =>
    intro i t
    rw [cons_append, visitAll, ih, length_cons]
    congr 1
    omega

theorem visitAll_named {i : Nat} (h : n.named) (rest : List Node) (t : Tracker) :
    visitAll tree parent above i (n :: rest) t
      = visitAll tree parent above (i + 1) rest (visit tree ((i, parent) :: above) n t) := by
  rw [visitAll, if_pos h]

section Statements

variable {statement store value : Node} {appends : Bool} {x : String}

theorem passEnter_store (h : Stores statement store appends x value) (hc : c.node = store) :
    ∃ expr ∈ c.children, c.inRole? "right" = some expr ∧ expr.node = value
      ∧ Pass.enter c t = .ok ⟨⟩ (t.bind t.activeClosure
          { identifier := x, closure := "", line := c.line
            node := some (if appends then c else expr) }) := by
  subst hc
  obtain ⟨target, htarget, hkind, rfl⟩ := h.left
  obtain ⟨left, _, hleft, rfl⟩ := exists_inRole? htarget
  obtain ⟨expr, hmem, hright, hexpr⟩ := exists_inRole? h.right
  have hkind : left.kind = .variableName := hkind
  refine ⟨expr, hmem, hright, hexpr, ?_⟩
  have henter : Pass.enter c = Pass.registerAssignment c := by
    have hck : c.kind = _ := h.kind
    rw [Pass.enter, hck]
    cases appends <;> rfl
  rw [henter]
  cases appends with
  | true =>
    have hck : c.kind = .augmentedAssignmentExpression := h.kind
    simp only [Pass.registerAssignment, hleft, hright, hck]
    exact registerTarget_variable hkind
  | false =>
    have hck : c.kind = .assignmentExpression := h.kind
    have hpattern : left.kind.isPattern = false := by rw [hkind]; rfl
    have hindexed : ¬ left.kind = .subscriptExpression := by rw [hkind]; decide
    have hplain : ¬ c.kind = .augmentedAssignmentExpression := by rw [hck]; decide
    simp only [Pass.registerAssignment, hleft, hright, hplain, hpattern, hindexed, if_false]
    exact registerTarget_variable hkind

theorem operatorText_store (h : Stores statement store true x value) (hc : c.node = store) :
    operatorText c = ".=" := by
  subst hc
  obtain ⟨operator, hoperator, htext⟩ := h.operator rfl
  obtain ⟨mark, _, hmark, rfl⟩ := exists_inRole? hoperator
  rw [operatorText, hmark]
  exact htext

theorem opensScope_store (h : Stores statement store appends x value) : opensScope store = false := by
  rw [opensScope, h.kind]
  cases appends <;> rfl

/-- The store of a statement makes one definition. -/
theorem visit_store (h : Stores statement store appends x value)
    (hinside : Inside t function path name bindings) (tree : Nat) (above : List (Nat × Node)) :
    ∃ b expr, Inside (visit tree above store t) function path name (b :: bindings)
      ∧ b.identifier = x ∧ StoreBinding path store.line bindings.length appends expr b
      ∧ expr.tree = tree ∧ expr.node = value ∧ ∃ i, expr.above = (i, store) :: above := by
  have hkind : (⟨tree, store, above⟩ : Cursor).kind = _ := h.kind
  have hopens : opensScope (⟨tree, store, above⟩ : Cursor).node = false := opensScope_store h
  have hloop : (⟨tree, store, above⟩ : Cursor).kind ≠ .foreachStatement := by
    rw [hkind]
    cases appends <;> decide
  obtain ⟨expr, hmem, hright, hexpr, henter⟩ := passEnter_store h (c := ⟨tree, store, above⟩) rfl
  obtain ⟨htree, _, habove⟩ := mem_children hmem
  rw [hinside.activeClosure] at henter
  have hbound := hinside.bind
    { identifier := x, closure := "", line := store.line
      node := some (if appends then ⟨tree, store, above⟩ else expr) } rfl
  rw [visit_eq, leave_eq hopens hloop, enter, henter]
  refine ⟨_, expr, hbound.ofSame (visitAll_plain tree store above 0 _ h.plain), rfl, ?_, htree, hexpr,
    habove⟩
  refine ⟨rfl, rfl, rfl, rfl, rfl, ?_⟩
  cases appends with
  | false => rfl
  | true => exact ⟨_, rfl, hkind, operatorText_store h rfl, hright⟩

/-- **One statement makes one definition**, and code around it makes none. -/
theorem visit_stores (h : Stores statement store appends x value)
    (hinside : Inside t function path name bindings) :
    ∃ b expr, Inside (visit tree above statement t) function path name (b :: bindings)
      ∧ b.identifier = x ∧ StoreBinding path store.line bindings.length appends expr b
      ∧ expr.tree = tree ∧ expr.node = value
      ∧ ∃ i j, expr.above = (i, store) :: (j, statement) :: above := by
  obtain ⟨before, after, hchildren, hplain⟩ := h.statement_children
  obtain ⟨hbefore, hafter⟩ := forall_mem_append.mp hplain
  have hstatement : isPlain (⟨tree, statement, above⟩ : Cursor).node := h.statement_plain
  have hstart := hinside.ofSame
    ((enter_plain hstatement t).trans (visitAll_plain tree statement above 0 before hbefore))
  obtain ⟨b, expr, hstored, hname, hb, htree, hexpr, i, habove⟩ :=
    visit_store h hstart tree ((0 + before.length, statement) :: above)
  refine ⟨b, expr, ?_, hname, hb, htree, hexpr, i, _, habove⟩
  rw [visit_eq, leave_plain hstatement, hchildren, visitAll_append, visitAll_named h.named]
  exact hstored.ofSame (visitAll_plain tree statement above _ after hafter)

end Statements

/-! ## Code. -/

section Code

variable {tree : Nat} {scope : List (Nat × Node)} {body : Node} {function : Cursor}
  {path name : String}

theorem size_lt_of_stores {statement store value : Node} {appends : Bool}
    (h : Stores statement store appends x value) : value.size + 2 ≤ statement.size := by
  obtain ⟨before, after, hchildren, _⟩ := h.statement_children
  have hstore : store.size < statement.size := Node.size_lt_of_mem (by simp [hchildren])
  have hvalue : value.size < store.size := Node.size_lt_of_mem (Node.mem_of_inRole? h.right)
  omega

/-- **The definitions made for statements are those that running them gives**: the pass keeps, step
for step, the values that the variables have. -/
theorem tracks_code (hbody : opensScope body = false) {memory after : Memory} {line last : Nat}
    {nodes : List Node} (h : Runs memory line nodes after last) :
    ∀ (i : Nat) (t : Tracker) (steps : List (Binding × String)) (depth : Nat),
      Inside t function path name (steps.map Prod.fst) → Defined tree scope path steps line depth →
      memoryOf steps = memory →
      ∃ steps' depth', Inside (visitAll tree body scope i nodes t) function path name
          (steps'.map Prod.fst)
        ∧ Defined tree scope path steps' last depth' ∧ memoryOf steps' = after
        ∧ depth' ≤ depth + Node.sizeAll nodes := by
  induction h with
  | done =>
    intro i t steps depth hinside hdefined hmemory
    exact ⟨steps, depth, hinside, hdefined, hmemory, Nat.le_add_right ..⟩
  | @skip memory after line last n rest hplain _ ih =>
    intro i t steps depth hinside hdefined hmemory
    have hsame : SameButCalls t (if n.named then visit tree ((i, body) :: scope) n t else t) := by
      split
      · exact visit_plain hplain
      · exact .refl t
    obtain ⟨steps', depth', hinside', hdefined', hmemory', hle⟩ :=
      ih (i + 1) _ steps depth (hinside.ofSame hsame) hdefined hmemory
    refine ⟨steps', depth', hinside', hdefined', hmemory', ?_⟩
    rw [Node.sizeAll]
    omega
  | @store memory after line next last n assignment expr appends x value rest hstores hfirst hnext
      hlines hvalue _ ih =>
      rintro i t steps depth hinside hdefined rfl
      obtain ⟨b, c, hinside', rfl, hb, htree, rfl, j, k, habove⟩ :=
        visit_stores hstores hinside
      rw [length_map] at hb
      have hplaced : Placed tree scope (onLines assignment.line next) c := by
        refine ⟨htree, ⟨[(j, assignment), (k, n), (i, body)], habove, ?_⟩, hlines⟩
        simp [opensScope_store hstores, opensScope_of_isPlain hstores.statement_plain, hbody]
      obtain ⟨steps', depth', hinside'', hdefined', hmemory', hle⟩ :=
        ih (i + 1) _ ((b, stored (memoryOf steps) appends b.identifier value) :: steps) _ hinside'
          (.store hdefined hb hfirst hnext hplaced hvalue) rfl
      refine ⟨steps', depth', ?_, hdefined', hmemory', ?_⟩
      · rw [visitAll_named hstores.statement_named]
        exact hinside''
      · have hsize := size_lt_of_stores hstores
        rw [Node.sizeAll]
        omega

end Code

/-! ## Parameters. -/

theorem map_node_declaredVariable? :
    (Pass.declaredVariable? c).map node
      = (c.node.inRole? "name").or (c.node.ofKind? .variableName) := by
  rw [← map_node_inRole?, ← map_node_ofKind?, Pass.declaredVariable?]
  cases c.inRole? "name" <;> rfl

/-- A parameter that is no property makes one definition. -/
theorem registerParameter_eq (h : parameterName? param.node = some x) (closure : Closure)
    (line : Int) (t : Tracker) :
    Pass.registerParameter closure line param t = .ok ⟨⟩ (t.bind closure
      { identifier := x, closure := "", line, node := some param, tag := some .parameter }) := by
  unfold parameterName? at h
  split at h
  case isFalse => cases h
  case isTrue hkind =>
    rw [← map_node_declaredVariable?, Option.map_map, Option.map_eq_some_iff] at h
    obtain ⟨declared, hdeclared, rfl⟩ := h
    have hkind : param.kind = .simpleParameter ∨ param.kind = .variadicParameter := hkind
    rcases hkind with hkind | hkind
    all_goals
      simp only [Pass.registerParameter, hkind, hdeclared]
      rfl

section Parameters

variable {tree : Nat} {scope : List (Nat × Node)} {function : Cursor} {path name : String}
  {callNames names parameters : List String}

/-- The parameters of a function are defined in order. -/
theorem registerParameters_ok {params : List Cursor}
    (h : Forall₂ (fun param x => parameterName? param.node = some x) params names) :
    ∀ (t : Tracker) (steps : List (Binding × String)) (line depth : Nat),
      Inside t function path name (steps.map Prod.fst) → Defined tree scope path steps line depth →
      ∃ t' steps', (forIn params PUnit.unit fun param _ => do
            Pass.registerParameter (functionScope name) line param
            pure (ForInStep.yield PUnit.unit) : Pass PUnit) t = .ok ⟨⟩ t'
        ∧ Inside t' function path name (steps'.map Prod.fst)
        ∧ Defined tree scope path steps' line depth
        ∧ memoryOf steps' = initialMemory names ++ memoryOf steps := by
  induction h with
  | nil =>
    intro t steps line depth hinside hdefined
    exact ⟨t, steps, rfl, hinside, hdefined, rfl⟩
  | @cons param x params names hparam _ ih =>
    intro t steps line depth hinside hdefined
    have hbound := hinside.bind
      { identifier := x, closure := "", line, node := some param, tag := some .parameter } rfl
    rw [length_map] at hbound
    obtain ⟨t', steps', hloop, hinside', hdefined', hmemory⟩ :=
      ih _ ((_, tainted .param x) :: steps) line depth hbound (.parameter hdefined rfl rfl rfl rfl)
    refine ⟨t', steps', ?_, hinside', hdefined', ?_⟩
    · rw [forIn_cons]
      simp only [run_bind, registerParameter_eq hparam]
      exact hloop
    · rw [hmemory]
      simp [initialMemory, memoryOf]

/-- The state in which the parameters of a function are defined: nothing is there yet. -/
theorem inside_openScope (hsame : SameButCalls ((start callNames path).openScope .global) t)
    (function : Cursor) (name : String) :
    Inside (openScope
      { t with currentMethod := some function, position := .inMethod
               methodScope := some (functionScope name) } (functionScope name))
      function path name [] := by
  obtain ⟨calls, rfl⟩ := hsame
  refine ⟨rfl, rfl, rfl, rfl, ?_, fun key x => ?_, rfl, rfl, rfl, by simp, rfl⟩
  · exact ((((start_filing callNames path).step (.openScope _ .global)).step (.calls _ calls)).step
      (.move _ .inMethod none (some function) none _ [])).step (.openScope _ _)
  · rw [entries_openScope, filter_nil, reverse_nil, ite_self]
    exact congrFun (congrFun (entries_openScope (start callNames path) .global) key) x

/-- Entering a function defines its parameters. -/
theorem enterFunction_ok (tree : Nat) (scope : List (Nat × Node)) (function : Cursor)
    (hsame : SameButCalls ((start callNames path).openScope .global) t)
    (h : parameterNames? function.node = some parameters) :
    ∃ t' steps, Pass.enterFunction function t = .ok ⟨⟩ t'
      ∧ Inside t' function path function.nameText (steps.map Prod.fst)
      ∧ Defined tree scope path steps function.line 1
      ∧ memoryOf steps = initialMemory parameters := by
  have hopened := inside_openScope hsame function function.nameText
  have hstart : Defined tree scope path [] function.line 1 := .start _
  have hlist : ∀ list : Cursor, list.node.parts.mapM parameterName? = some parameters → _ :=
    fun list hnames => registerParameters_ok (forall₂_map_left_iff.mp
      (mapM_eq_some_iff.mp (list.map_node_parts ▸ hnames))) _ [] function.line 1 hopened hstart
  have hnothing : initialMemory parameters ++ memoryOf [] = initialMemory parameters :=
    append_nil _
  simp only [hnothing] at hlist
  rw [parameterNames?, ← map_node_inRole?, ← map_node_ofKind?] at h
  obtain ⟨calls, rfl⟩ := hsame
  unfold Pass.enterFunction
  -- the list is found by its role or by its kind, and a function may have none
  cases hrole : function.inRole? "parameters" with
  | some list =>
    rw [hrole] at h
    obtain ⟨t', steps, hloop, hrest⟩ := hlist list h
    exact ⟨t', steps, bind_of_ok hloop, hrest⟩
  | none =>
    cases hkind : function.ofKind? .formalParameters with
    | some list =>
      rw [hrole, hkind] at h
      obtain ⟨t', steps, hloop, hrest⟩ := hlist list h
      exact ⟨t', steps, bind_of_ok hloop, hrest⟩
    | none =>
      rw [hrole, hkind] at h
      obtain rfl : [] = parameters := Option.some.inj h
      exact ⟨_, [], rfl, hopened, hstart, rfl⟩

end Parameters

/-! ## Whole files. -/

def outOf (name : String) (t : Tracker) : Tracker :=
  { t.flush (functionScope name) with
    methodScope := none
    currentMethod := none
    position := .inGlobal }

/-- Leaving a function files what it defined. -/
theorem Inside.leave {t : Tracker} {function : Cursor} {path name : String} {bindings : List Binding}
    (h : Inside t function path name bindings) (hkind : function.kind = .functionDefinition) :
    t.leave function = outOf name t := by
  have hself : function.same function := by simp [same]
  simp only [Tracker.leave, hkind, Kind.isClassLike, Kind.isFunctionLike, h.currentMethod,
    h.methodScope, h.currentClass, Tracker.flushOpen, Option.map_some, Option.getD_some, hself,
    Bool.false_eq_true, if_false, if_true, Option.isSome_none, outOf]

/-- What is filed when the pass has left the function and ends. -/
theorem Inside.filed (h : Inside t function path name bindings)
    (hsame : SameButCalls (outOf name t) t') :
    Filed (t'.flush .global).scopes name bindings ∧ (t'.flush .global).events = [] := by
  obtain ⟨calls, rfl⟩ := hsame
  let left := t.flush (functionScope name)
  have hleft : left.Filing path := h.filing.step (.flush t (functionScope name))
  -- both scopes are closed, so that nothing of them is pending
  have hclosed : ∀ key x, key = (functionScope name).key ∨ key = Closure.global.key →
      (left.flush .global).scopes.entries key x = t.entries key x := by
    intro key x hkey
    have hnone : (left.flush .global).pending key x = [] := by
      by_contra hne
      obtain ⟨hbefore, hglobal⟩ := pending_flush hne
      exact (pending_flush hbefore).2 (hkey.resolve_right hglobal)
    have hentries : (left.flush .global).entries key x = t.entries key x := by
      rw [Tracker.entries_flush left _ hleft.names, Tracker.entries_flush t _ h.filing.names]
    rwa [entries_eq, hnone, append_nil] at hentries
  refine ⟨⟨fun x => ?_, fun x => ?_, h.blocks, fun b hb => (h.closure b hb).1,
    fun b hb => (h.closure b hb).2, ?_⟩, h.events⟩
  · exact (hclosed _ x (.inl rfl)).trans ((h.entries _ x).trans (if_pos rfl))
  · exact (hclosed _ x (.inr rfl)).trans ((h.entries _ x).trans (if_neg (functionScope_key_ne name).symm))
  · have hnodup : (bindings.map (·.serial)).Nodup := by
      rw [h.serials]
      exact pairwise_reverse.mpr (nodup_range.imp Ne.symm)
    exact pairwise_map.mp hnodup

def Program.functionCursor (p : Program) (tree : Nat) : Cursor :=
  ⟨tree, p.function, [(p.leading.length, p.root)]⟩

/-- What a pass made of a function so far: definitions that give what its variables hold. -/
structure Tracked (p : Program) (tree : Nat) (path : String) (memory : Memory) (line bound : Nat)
    (t : Tracker) (steps : List (Binding × String)) (depth : Nat) : Prop where
  inside : Inside t (p.functionCursor tree) path p.name (steps.map Prod.fst)
  defined : Defined tree p.scope path steps line depth
  memory : memoryOf steps = memory
  depth : depth ≤ bound

section Program

variable (p : Program) (callNames : List String) (path : String) (tree : Nat)

/-- The body of the function defines what its statements store. -/
theorem visit_body {steps : List (Binding × String)} {depth : Nat}
    (h : Tracked p tree path (initialMemory p.parameters) p.function.line 1 t steps depth) :
    ∃ steps' depth', Tracked p tree path p.memory p.line (1 + Node.sizeAll p.code)
      (visit tree p.scope p.body t) steps' depth' := by
  have hplain : ∀ n ∈ p.call :: p.rest, Plain n :=
    fun n hn => p.plain n (mem_append_right _ hn)
  have hbody : isPlain (⟨tree, p.body, p.scope⟩ : Cursor).node := p.body_plain
  obtain ⟨steps', depth', hinside, hdefined, hmemory, hle⟩ :=
    tracks_code (opensScope_of_isPlain p.body_plain) p.runs 0 _ steps depth
      (h.inside.ofSame (enter_plain hbody t)) h.defined h.memory
  refine ⟨steps', depth', ?_, hdefined, hmemory, Nat.le_trans hle (Nat.add_le_add_right h.depth _)⟩
  rw [visit_eq, leave_plain hbody, p.body_children, visitAll_append]
  exact hinside.ofSame (visitAll_plain tree p.body p.scope _ _ hplain)

/-- The function files the definitions of its parameters and statements when it is left. -/
theorem visit_function (hsame : SameButCalls ((start callNames path).openScope .global) t) :
    ∃ t' steps depth, Tracked p tree path p.memory p.line (1 + Node.sizeAll p.code) t' steps depth
      ∧ visit tree [(p.leading.length, p.root)] p.function t = outOf p.name t' := by
  have hplain : ∀ n ∈ p.heading ++ p.ending, Plain n :=
    fun n hn => p.plain n (mem_append_left _ (mem_append_right _ hn))
  obtain ⟨hheading, hending⟩ := forall_mem_append.mp hplain
  have hkind : (p.functionCursor tree).kind = .functionDefinition := p.function_kind
  obtain ⟨entered, params, henter, hinside, hparams, hmemory⟩ :=
    enterFunction_ok tree p.scope (p.functionCursor tree) hsame p.declares
  have hentered : t.enter ⟨tree, p.function, [(p.leading.length, p.root)]⟩ = entered := by
    have hpass : Pass.enter (p.functionCursor tree) = Pass.enterFunction (p.functionCursor tree) := by
      rw [Pass.enter, hkind]
    show t.enter (p.functionCursor tree) = entered
    rw [enter, hpass, henter]
  obtain ⟨steps, depth, htracked⟩ := visit_body p path tree
    ⟨hinside.ofSame (visitAll_plain tree p.function [(p.leading.length, p.root)] 0 p.heading hheading),
      hparams, hmemory, Nat.le_refl 1⟩
  have hdone := htracked.inside.ofSame
    (visitAll_plain tree p.function [(p.leading.length, p.root)] (p.heading.length + 1) p.ending
      hending)
  refine ⟨_, steps, depth, ⟨hdone, htracked.defined, htracked.memory, htracked.depth⟩, ?_⟩
  rw [← hdone.leave hkind, visit_eq, p.function_children, visitAll_append,
    visitAll_named p.body_named, hentered, Nat.zero_add]
  rfl

/-- **The definitions of a file with one straight-line function** are those that running it gives,
and nothing is reported. -/
theorem run_tracks :
    ∃ scopes steps depth, run callNames path (.root tree p.root) = (scopes, [])
      ∧ Filed scopes p.name (steps.map Prod.fst) ∧ Defined tree p.scope path steps p.line depth
      ∧ memoryOf steps = p.memory ∧ depth ≤ 1 + Node.sizeAll p.code := by
  have hplain : ∀ n ∈ p.leading ++ p.trailing, Plain n :=
    fun n hn => p.plain n (mem_append_left _ (mem_append_left _ hn))
  obtain ⟨hleading, htrailing⟩ := forall_mem_append.mp hplain
  have hroot : isPlain (⟨tree, p.root, []⟩ : Cursor).node := by
    rw [isPlain, p.root_kind]
  obtain ⟨t, steps, depth, htracked, hfunction⟩ := visit_function p callNames path tree
    ((enter_plain hroot _).trans (visitAll_plain tree p.root [] 0 p.leading hleading))
  obtain ⟨hfiled, hevents⟩ := htracked.inside.filed
    (visitAll_plain tree p.root [] (p.leading.length + 1) p.trailing htrailing)
  refine ⟨_, steps, depth, ?_, hfiled, htracked.defined, htracked.memory, htracked.depth⟩
  have hvisit : visit tree [] p.root ((start callNames path).openScope .global)
      = visitAll tree p.root [] (p.leading.length + 1) p.trailing (outOf p.name t) := by
    rw [visit_eq, leave_plain hroot, p.root_children, visitAll_append,
      visitAll_named p.function_named, Nat.zero_add, hfunction]
  rw [← hevents, ← hvisit, run_eq]
  rfl

end Program

end QueryAudit.StraightLine
