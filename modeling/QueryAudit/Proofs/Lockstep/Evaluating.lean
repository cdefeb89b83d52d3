/-
  QueryAudit.Proofs.Lockstep.Evaluating — evaluating expressions in lockstep

  Each rule is in lockstep when the evaluators for what nests in it are, and so is the whole by
  induction on the depth.
-/

import QueryAudit.Proofs.Lockstep.Reading
import QueryAudit.Query.Criteria
import QueryAudit.Query.Receiver

namespace QueryAudit

open Audit Php Record Scope QueryAudit.Frame List

variable {F : Frame} {T N : List String}

variable {path : String} {node arg : Cursor} {items : List Item}

namespace Sample

variable {b : Binding} {depth wanted : Nat} {α : Type} {e : Evaluation} {name : String}
  {sequence : Sequence}

/-! ## Active definitions. -/

theorem lock_isActive : F.Lock T N (isActive b) :=
  lock_reads (fun _ _ _ => rfl) fun _ => lock_pure

theorem lock_limit : F.Lock T N limit :=
  lock_reads (fun _ _ _ => rfl) fun _ => lock_pure

theorem lock_drawEach {draw : α → Nat → Audit Drawn} {sources : List α}
    (h : ∀ source ∈ sources, ∀ wanted, F.Lock T N (draw source wanted)) :
    ∀ wanted, F.Lock T N (drawEach draw wanted sources) := by
  induction sources with
  | nil =>
    intro wanted
    exact lock_pure
  | cons source sources ih =>
    intro wanted
    unfold drawEach
    split
    · exact lock_pure
    refine lock_bind (h source mem_cons_self wanted) fun first => ?_
    split
    · exact lock_pure
    · refine lock_bind (ih (fun s hs => h s (mem_cons_of_mem _ hs)) _) fun more => ?_
      exact lock_pure

/-! ## Rules. -/

/-- Evaluators that keep two runs in lockstep. -/
structure Evaluation.Locks (F : Frame) (T : List String) (e : Evaluation) : Prop where
  prepare : ∀ N node path, F.Lock T N (e.prepare node path)
  draw : ∀ N sequence wanted, F.Lock T N (e.draw sequence wanted)
  items : ∀ N node path depth, F.Lock T N (e.items node path depth)
  itemsOf : ∀ N b depth, F.Lock T N (e.itemsOf b depth)

theorem lock_drawNode (he : e.Locks F T) (wanted : Nat) :
    F.Lock T N (drawNode e node path wanted) :=
  lock_bind (he.prepare N node path) fun _ => he.draw N _ wanted

theorem lock_drawLoopVariable (he : e.Locks F T) :
    F.Lock T N (drawLoopVariable e b node wanted) := by
  unfold drawLoopVariable
  refine lock_bind (he.items N node b.path 0) fun items => ?_
  split
  · exact lock_drawNode he wanted
  · exact lock_drawNode he wanted
  refine lock_drawEach (fun source _ wanted => ?_) _
  dsimp only
  split
  · exact lock_drawNode he wanted
  · split
    · exact lock_drawNode he wanted
    · exact lock_pure

section Rules

variable [F.Eager]

theorem lock_activate {mark : Mark} : F.Lock T N (activate mark) :=
  lock_modify (fun r => .of_rest r.searched r.hierarchy _) fun _ _ => rfl

theorem lock_releaseMarks {marks : List Mark} : F.Lock T N (releaseMarks marks) :=
  lock_modify (fun r => .of_rest r.searched r.hierarchy _) fun _ _ => rfl

theorem lock_warnCap : F.Lock T N (warnCap node path) :=
  lock_bind lock_limit fun _ => lock_warnOnce (by simp [Warning.at]) rfl

theorem lock_warnCap_if {reason : Prop} [Decidable reason] {x : Audit α}
    (hx : F.Lock T N x) : F.Lock T N (if reason then warnCap node path >>= fun _ => x else x) := by
  split
  · exact lock_bind lock_warnCap fun _ => hx
  · exact hx

theorem lock_unhandled {message : String} : F.Lock T N (unhandled message node path : Audit α) :=
  lockTo_throw (Eager.all _)

theorem lock_prepareReference : F.Lock T N (prepareReference node path) := by
  unfold prepareReference
  refine lock_bind (lock_resolve _ _ _) fun found => ?_
  split
  · exact lock_pure
  · exact lock_pure

theorem lock_callSample {args : List Intrinsic.Argument} :
    F.Lock T N (callSample node path name args) := by
  unfold callSample
  split
  · exact lock_pure
  · refine lock_bind lock_shown fun view => ?_
    exact lock_then lock_log
  · exact lockTo_throw (Basic.plain fun _ => nofun)

theorem lock_isWholeCollection (hpath : path ∈ N) : F.Lock T N (isWholeCollection node path) := by
  unfold isWholeCollection
  refine lock_bind (Reads.above T N path node hpath) fun above => ?_
  split
  · split
    · exact lock_pure
    · exact lock_pure
  · exact lock_pure

theorem lock_definitionFor : F.Lock T N (definitionFor b) := by
  unfold definitionFor
  refine lock_bind lock_isActive fun active => ?_
  split
  · exact lock_pure
  refine lock_bind lock_previousOf fun before => ?_
  split
  · exact lock_pure
  refine lock_bind lock_isActive fun hidden => ?_
  split
  · exact lock_pure
  · exact lock_pure

theorem lock_drawCalls {combinations : List (List Intrinsic.Argument)} :
    ∀ wanted allowed, F.Lock T N (drawCalls node path name wanted allowed combinations) := by
  induction combinations with
  | nil =>
    intro wanted allowed
    unfold drawCalls
    exact lock_pure
  | cons args combinations ih =>
    intro wanted allowed
    cases wanted with
    | zero => exact lock_pure
    | succ wanted =>
      cases allowed with
      | zero => exact lock_then lock_warnCap
      | succ allowed =>
        unfold drawCalls
        refine lock_bind lock_callSample fun first => ?_
        exact lock_then (ih _ _)

variable (he : e.Locks F T)

include he

theorem lock_prepareRole (node : Cursor) (role path : String) :
    F.Lock T N (prepareRole e node role path) := by
  unfold prepareRole
  split
  · exact he.prepare N _ path
  · exact lockTo_throw (Basic.plain fun _ => nofun)

theorem lock_prepareString : F.Lock T N (prepareString e node path) := by
  unfold prepareString
  refine lock_bind lock_unescaped fun parts => ?_
  refine lock_then (lock_mapM fun part _ => ?_)
  cases part with
  | text value => exact lock_pure
  | code inner => exact he.prepare N inner path

theorem lock_prepareBinary : F.Lock T N (prepareBinary e node path) := by
  have hrole := fun role => lock_prepareRole (N := N) he node role path
  unfold prepareBinary
  split
  · exact lock_bind (hrole _) fun _ => lock_then (hrole _)
  · exact lock_bind (hrole _) fun _ => lock_then (hrole _)
  · exact lock_pure

theorem lock_prepareInner : F.Lock T N (prepareInner e node path) := by
  unfold prepareInner
  split
  · exact he.prepare N _ path
  · exact lock_unhandled

theorem lock_prepareCast : F.Lock T N (prepareCast e node path) := by
  unfold prepareCast
  dsimp only
  split
  · exact lock_pure
  · split
    · exact he.prepare N _ path
    · exact lock_unhandled

theorem lock_prepareCombined (node : Cursor)
    (before : Option Binding) (path : String) : F.Lock T N (prepareCombined e node before path) := by
  have hrole := lock_prepareRole (N := N) he node "right" path
  unfold prepareCombined
  split
  · exact lock_then hrole
  · exact lock_then hrole
  · exact lock_pure

theorem lock_prepareAugmented : F.Lock T N (prepareAugmented e node path) := by
  have hcombined := lock_prepareCombined (N := N) he node none path
  unfold prepareAugmented
  split
  · exact lockTo_throw (Basic.plain fun _ => nofun)
  refine lock_bind (lock_resolve _ _ _) fun found => ?_
  split
  · split
    · exact lock_pure
    · exact hcombined
  · exact hcombined

theorem lock_prepareRule : F.Lock T N (prepareRule e node path) := by
  unfold prepareRule
  split
  all_goals first
    | exact lock_pure
    | exact lock_prepareString he
    | exact lock_prepareBinary he
    | exact lock_prepareReference
    | exact lock_prepareCast he
    | exact lock_prepareInner he
    | exact lock_prepareRole he node _ path
    | exact lock_prepareAugmented he
    | exact lock_then (Basic.hardError T N _)

theorem lock_itemsRule : F.Lock T N (itemsRule e node path depth) := by
  unfold itemsRule
  split
  · exact lock_pure
  split
  · exact lock_pure
  · split
    · exact he.items N _ path _
    · exact lock_pure
  · split
    · exact he.items N _ path _
    · exact lock_pure
  · split
    · exact lock_pure
    refine lock_bind (lock_resolve _ _ _) fun found => ?_
    split
    · exact lock_pure
    refine lock_bind lock_isActive fun active => ?_
    split
    · exact lock_pure
    · exact he.itemsOf N _ _

theorem lock_itemsOfRule : F.Lock T N (itemsOfRule e b depth) := by
  have hplain : F.fine .absent := Basic.plain fun _ h => by cases h
  unfold itemsOfRule
  split
  · exact lock_pure
  split
  · exact lock_pure
  · exact lock_pure
  · exact lock_pure
  · refine lock_bind lock_previousOf fun before => ?_
    cases before with
    | none =>
      refine lock_bind lock_pure fun items => ?_
      split
      · exact lock_pure
      · exact lockTo_throw hplain
    | some hidden =>
      refine lock_bind (he.itemsOf N hidden _) fun items => lock_bind lock_pure fun items => ?_
      split
      · exact lock_pure
      · exact lockTo_throw hplain
  · exact he.items N _ _ _

theorem lock_drawNamed {kind : Taint} : F.Lock T N (drawNamed e node path kind wanted) := by
  unfold drawNamed
  refine lock_bind (lock_resolve _ _ _) fun found => ?_
  split
  · exact he.draw N _ _
  · exact lock_pure

theorem lock_drawClassConstant : F.Lock T N (drawClassConstant e node path wanted) := by
  unfold drawClassConstant
  split
  · split
    · exact lock_pure
    · exact lock_drawNamed he
  · exact lock_drawNamed he

theorem lock_drawConstant : F.Lock T N (drawConstant e node path wanted) := by
  unfold drawConstant
  split
  · exact lock_pure
  · exact lock_pure
  · exact lock_pure
  · exact lock_drawNamed he

theorem lock_takeFrom : F.Lock T N (takeFrom e sequence) := by
  unfold takeFrom
  refine lock_bind lock_limit fun n => ?_
  refine lock_bind (he.draw N sequence _) fun drawn => ?_
  dsimp only
  split
  · exact lock_then lock_releaseMarks
  · exact lock_pure

theorem lock_samplesWith (node : Cursor) (path : String) :
    F.Lock T N (samplesWith e node path) := by
  unfold samplesWith
  refine lock_bind (he.prepare N node path) fun sequence => ?_
  refine lock_bind (lock_takeFrom he) fun taken => ?_
  refine lock_bind lock_releaseMarks fun _ => ?_
  exact lock_warnCap_if lock_pure

theorem lock_arrayCandidates : F.Lock T N (arrayCandidates e path arg items) := by
  unfold arrayCandidates
  refine lock_bind (lock_mapM fun item _ => ?_) fun perItem => ?_
  · exact lock_then (lock_samplesWith he _ _)
  · refine lock_bind lock_limit fun n => ?_
    exact lock_warnCap_if lock_pure

theorem lock_argumentCandidates : F.Lock T N (argumentCandidates e path arg) := by
  unfold argumentCandidates
  refine lock_bind (he.items N _ _ _) fun items => ?_
  split
  · exact lock_then (lock_samplesWith he _ _)
  · exact lock_arrayCandidates he

theorem lock_drawFunction (node : Cursor) (path : String)
    (wanted : Nat) : F.Lock T N (drawFunction e node path wanted) := by
  unfold drawFunction drawCall
  dsimp only
  split
  · exact lock_pure
  refine lock_bind (lock_mapM fun arg _ => ?_) fun candidates => ?_
  · exact lock_argumentCandidates he
  · refine lock_bind lock_limit fun n => ?_
    exact lock_then (lock_drawCalls _ _)

theorem lock_takeParts {parts : List Sequence} : F.Lock T N (takeParts e node path parts) := by
  induction parts with
  | nil => exact lock_pure
  | cons part parts ih =>
    unfold takeParts
    refine lock_bind (lock_takeFrom he) fun taken => ?_
    refine lock_warnCap_if ?_
    exact lock_then ih

theorem lock_drawConcat (parts : List Sequence) (node : Cursor)
    (path : String) (wanted : Nat) : F.Lock T N (drawConcat e parts node path wanted) := by
  unfold drawConcat
  refine lock_bind (lock_takeParts he) fun taken => ?_
  refine lock_bind lock_limit fun n => ?_
  dsimp only
  split
  · refine lock_warnCap_if ?_
    exact lock_then lock_releaseMarks
  · exact lock_pure

theorem lock_itemText {item : Item} : F.Lock T N (itemText e item) := by
  unfold itemText
  refine lock_bind (lock_samplesWith he _ _) fun values => ?_
  split
  · exact lock_pure
  · exact lock_then (lock_samplesWith he _ _)

theorem lock_arrayMark : F.Lock T N (arrayMark e items) :=
  lock_then (lock_mapM fun _ _ => lock_itemText he)

theorem lock_drawSubscript : F.Lock T N (drawSubscript e node path wanted) := by
  have hconcat : ∀ base index : Sequence, F.Lock T N (do
      let drawn ← drawConcat e [base, .ready ["["], index, .ready ["]"]] node path wanted
      return { drawn with values := drawn.values.map (tainted .arrayFetch) }) := fun base index =>
    lock_then (lock_drawConcat he _ _ _ _)
  unfold drawSubscript
  split
  · exact lock_unhandled
  refine lock_bind (he.prepare N _ path) fun base => ?_
  split
  · exact lock_bind lock_pure (hconcat base)
  · exact lock_bind (he.prepare N _ path) (hconcat base)

theorem lock_drawLater : F.Lock T N (drawLater e node path wanted) := by
  unfold drawLater
  split
  · exact lock_then (lock_arrayMark he)
  · exact lock_drawSubscript he
  · exact lock_drawFunction he node path wanted
  · exact lock_drawClassConstant he
  · exact lock_drawConstant he

theorem lock_drawDefinition (hb : b.path ∈ N) : F.Lock T N (drawDefinition e b node wanted) := by
  have hwhole : ∀ whole : Bool, F.Lock T N
      (if whole = true then drawLoopVariable e b node wanted else drawNode e node b.path wanted) := by
    intro whole
    split
    · exact lock_drawLoopVariable he
    · exact lock_drawNode he wanted
  unfold drawDefinition
  split
  · refine lock_bind (he.itemsOf N b 0) fun items => ?_
    exact lock_then (lock_arrayMark he)
  split
  · refine lock_bind lock_previousOf fun before => ?_
    exact lock_bind (lock_prepareCombined he _ _ _) fun _ => he.draw N _ wanted
  refine lock_bind ?_ hwhole
  split
  · exact lock_isWholeCollection hb
  · exact lock_pure

theorem lock_drawSingle (hb : b.path ∈ N) : F.Lock T N (drawSingle e b wanted) := by
  unfold drawSingle
  split
  · exact lock_pure
  · exact lock_pure
  · exact lock_pure
  refine lock_bind lock_activate fun _ => ?_
  refine lock_bind (lock_drawDefinition he hb) fun drawn => ?_
  split
  · exact lock_pure
  · exact lock_then lock_releaseMarks

theorem lock_drawBinding : F.Lock T N (drawBinding e b wanted) := by
  unfold drawBinding drawAlternatives
  refine lock_bind lock_definitionFor fun found => ?_
  split
  · exact lock_pure
  -- the files of the alternatives are at hand once they were found
  refine lockTo_bind lockTo_alternativesOf fun others => ?_
  refine lock_drawEach (fun a ha wanted => ?_) _
  exact lock_drawSingle he (mem_append_left _ (mem_map_of_mem ha))

theorem lock_drawRule : F.Lock T N (drawRule e sequence wanted) := by
  unfold drawRule
  split
  · exact lock_pure
  cases sequence with
  | ready values => exact lock_pure
  | later node path => exact lock_drawLater he
  | binding b => exact lock_drawBinding he
  | concat parts node path => exact lock_drawConcat he parts node path wanted
  | chain parts => exact lock_drawEach (fun part _ => he.draw N part) wanted
  | branches nodes path => exact lock_drawEach (fun node _ => lock_drawNode he) wanted

end Rules

/-! ## The knot. -/

theorem evaluationDepth_beside [F.Reads] {l : Run} {p : Parts} (h : F.At T N l p) :
    evaluationDepth (l.beside p) = evaluationDepth l := by
  unfold evaluationDepth
  rw [Reads.treeSize h]
  rfl

variable [F.Eager]

/-- **Evaluating an expression keeps two runs in lockstep**, to every depth. -/
theorem evaluation_locks : (evaluation depth).Locks F T := by
  induction depth with
  | zero =>
    constructor
    all_goals
      intros
      exact lockTo_throw (Eager.all _)
  | succ depth ih =>
    constructor
    · exact fun N node path => lock_prepareRule ih
    · exact fun N sequence wanted => lock_drawRule ih
    · exact fun N node path items => lock_itemsRule ih
    · exact fun N b items => lock_itemsOfRule ih

theorem lock_samples (node : Cursor) (path : String) : F.Lock T N (samples node path) := by
  refine lock_reads (fun l p h => ?_) fun r => ?_
  · rw [evaluationDepth_beside h]
  · exact lock_samplesWith evaluation_locks node path

theorem lock_arrayItems : F.Lock T N (arrayItems node path) := by
  refine lock_reads (fun l p h => ?_) fun r => ?_
  · rw [evaluationDepth_beside h]
  · exact evaluation_locks.items N node path 0

theorem lock_joined {parts : List (List String)} {separator : String} :
    F.Lock T N (joined parts separator node path) := by
  unfold joined
  refine lock_bind lock_limit fun n => ?_
  exact lock_warnCap_if lock_pure

end Sample

namespace Query

open Sample

variable {steps : Nat} {params : Catalog String} {criteria : Criteria} {table : String}

/-! ## Receivers. -/

section Receivers

variable [F.Reads]

/-- The file of a definition that was followed is at hand. -/
theorem lockTo_definedBy? :
    F.LockTo T N (fun found => (found.map Prod.snd).toList) (definedBy? node path) := by
  unfold definedBy?
  refine lockTo_bind lockTo_resolve fun found => ?_
  cases found with
  | none => exact lockTo_pure (nil_subset _)
  | some b =>
    dsimp only
    split
    · exact lockTo_pure (nil_subset _)
    refine lockTo_pure ?_
    cases b.node with
    | none => exact nil_subset _
    | some value => exact cons_subset.mpr ⟨mem_cons_self, nil_subset _⟩

theorem lock_classAround (hpath : path ∈ N) : F.Lock T N (classAround node path) :=
  lock_then (Reads.above T N path node hpath)

theorem lock_classNamedBy? {text : String} (hpath : path ∈ N) :
    F.Lock T N (classNamedBy? text node path) := by
  unfold classNamedBy?
  dsimp only
  split
  · exact lock_then (lock_classAround hpath)
  split
  · refine lock_bind (lock_classAround hpath) fun around => ?_
    split
    · exact lock_pure
    · exact lock_reads (fun _ _ _ => rfl) fun _ => lock_pure
  · exact lock_pure

theorem lock_receiverClass? :
    ∀ (N : List String) (receiver : Cursor) (path : String), path ∈ N →
      F.Lock T N (receiverClass? steps receiver path) := by
  induction steps with
  | zero =>
    intro N receiver path _
    exact lock_pure
  | succ steps ih =>
    intro N receiver path hpath
    have hnamed : ∀ text : String, F.Lock T N (do
        return (← classNamedBy? text receiver path).filter (· ≠ "")) := fun text =>
      lock_then (lock_classNamedBy? hpath)
    unfold receiverClass?
    split
    · exact hnamed _
    split
    · split
      · split
        · exact hnamed _
        · exact lock_pure
      · exact lock_pure
    · split
      · exact lock_then (lock_classAround hpath)
      split
      · split
        · exact ih N _ path hpath
        · exact lock_pure
      · split
        · split
          · exact ih N _ path hpath
          · exact lock_pure
        · refine lockTo_bind lockTo_definedBy? fun found => ?_
          cases found with
          | none => exact lock_pure
          | some place => exact ih _ _ _ (mem_append_left _ mem_cons_self)

theorem lock_knownRecord? (name path : String) : F.Lock T N (knownRecord? name path) := by
  refine lock_reads (fun _ _ _ => rfl) fun r => ?_
  split
  · exact lock_pure
  · exact lock_recordClass?

theorem lock_recordDatabase? {receiver : Cursor} (hpath : path ∈ N) :
    F.Lock T N (recordDatabase? receiver path) := by
  unfold recordDatabase?
  refine lock_bind (lock_receiverClass? N receiver path hpath) fun name => ?_
  split
  · exact lock_pure
  · refine lock_reads (fun _ _ _ => rfl) fun r => ?_
    exact lock_then (lock_knownRecord? _ _)

theorem lock_databaseOf? :
    ∀ (N : List String) (expr : Cursor) (path : String), path ∈ N →
      F.Lock T N (databaseOf? steps expr path) := by
  induction steps with
  | zero =>
    intro N expr path _
    exact lock_pure
  | succ steps ih =>
    intro N expr path hpath
    unfold databaseOf?
    split
    · exact lock_pure
    split
    · refine lock_reads (fun _ _ _ => rfl) fun r => ?_
      split
      · split
        · exact lock_recordDatabase? hpath
        · exact lock_pure
      · exact lock_pure
    · split
      · split
        · exact ih N _ path hpath
        · exact lock_pure
      · refine lockTo_bind lockTo_definedBy? fun found => ?_
        cases found with
        | none => exact lock_pure
        | some place => exact ih _ _ _ (mem_append_left _ mem_cons_self)

theorem lock_criteriaCreation? : F.Lock T N (criteriaCreation? arg path) := by
  unfold criteriaCreation?
  split
  · exact lock_pure
  refine lock_bind (lock_resolve _ _ _) fun found => ?_
  split
  · exact lock_pure
  split
  · exact lock_pure
  split
  · exact lock_pure
  · split
    · exact lock_pure
    · exact lock_pure

theorem lock_criteriaOfProperties {object : String} {made : Binding} {call : Cursor}
    {found : Criteria} : F.Lock T N (criteriaOfProperties object made path call found) := by
  unfold criteriaOfProperties
  refine lock_scopesOf_bind (fun _ => rfl) fun scopes => ?_
  exact lock_then (lock_closureOf mem_cons_self)

end Receivers

/-! ## Criteria. -/

variable [F.Eager]

theorem lock_criteriaOfItems : ∀ found, F.Lock T N (criteriaOfItems found items) := by
  induction items with
  | nil =>
    intro found
    exact lock_pure
  | cons item items ih =>
    intro found
    have hwarn : ∀ message code subject, code ≠ "" → (Warning.at message item.value item.path code subject).aboutSql = false →
      F.Lock T N (do
        Audit.warn (.at message item.value item.path code subject)
        criteriaOfItems found items) := fun message code subject hcode hsql =>
      lock_bind (lock_warn hcode hsql) fun _ => ih found
    unfold criteriaOfItems
    split
    all_goals
      refine lock_bind (by first | exact lock_samples _ _ | exact lock_pure) fun names => ?_
      dsimp only
      split
      · exact hwarn _ _ _ (by simp) rfl
      split
      · exact ih _
      · split
        · exact hwarn _ _ _ (by simp) rfl
        · exact ih found

theorem lock_criteriaFrom :
    ∀ (arg : Cursor) (path : String) (call : Cursor), F.Lock T N (criteriaFrom steps arg path call) := by
  induction steps with
  | zero =>
    intro arg path call
    exact lockTo_throw (Eager.all _)
  | succ steps ih =>
    intro arg path call
    have hfill : ∀ (b : Binding) (given : Option Criteria), F.Lock T N (do
        return some (← criteriaOfProperties arg.text b path call (given.getD {}))) :=
      fun b given => lock_bind lock_criteriaOfProperties fun _ =>
        lock_pure
    unfold criteriaFrom
    refine lock_bind lock_arrayItems fun items => ?_
    split
    · exact lock_then (lock_criteriaOfItems _)
    refine lock_bind lock_criteriaCreation? fun creation => ?_
    split
    · exact lock_pure
    split
    · exact lock_bind (ih _ _ _) (hfill _)
    · exact lock_bind lock_pure (hfill _)

theorem lock_criteriaOf (arg : Cursor) (path : String) (call : Cursor) :
    F.Lock T N (criteriaOf arg path call) :=
  lock_reads (fun _ _ _ => rfl) fun _ => lock_criteriaFrom _ _ _

theorem lock_placeholdersOf : ∀ found, F.Lock T N (placeholdersOf found items) := by
  induction items with
  | nil =>
    intro found
    exact lock_pure
  | cons item items ih =>
    intro found
    unfold placeholdersOf
    split
    all_goals
      refine lock_bind (by first | exact lock_samples _ _ | exact lock_pure) fun names => ?_
      exact ih _

theorem lock_paramsOf : F.Lock T N (paramsOf arg path) := by
  unfold paramsOf
  refine lock_bind lock_arrayItems fun items => ?_
  split
  · exact lock_placeholdersOf _
  · exact lock_then (lock_warn (by simp [Warning.at]) rfl)

theorem lock_columnSamples (criteria : Criteria) : F.Lock T N (columnSamples criteria) := by
  unfold columnSamples
  split
  · exact lock_pure
  refine lock_bind lock_arrayItems fun items => ?_
  split
  · refine lock_bind (lock_mapM fun item _ => lock_samples _ _) fun columns => ?_
    exact lock_joined
  · exact lock_samples _ _

theorem lock_conditionSamples (criteria : Criteria) : F.Lock T N (conditionSamples criteria) := by
  unfold conditionSamples
  split
  · exact lock_pure
  · exact lock_bind lock_arrayItems fun _ => lock_samples _ _

theorem lock_replacementsWith : F.Lock T N (replacementsWith criteria params) := by
  unfold replacementsWith
  split
  · exact lock_then lock_paramsOf
  · exact lock_pure

theorem lock_criteriaTexts : F.Lock T N (criteriaTexts criteria table params) := by
  unfold criteriaTexts
  refine lock_bind lock_replacementsWith fun params => ?_
  refine lock_bind (lock_columnSamples _) fun columns => ?_
  exact lock_then (lock_conditionSamples _)

theorem lock_conditionTexts : F.Lock T N (conditionTexts arg path table params) :=
  lock_then (lock_samples _ _)

end Query

end QueryAudit
