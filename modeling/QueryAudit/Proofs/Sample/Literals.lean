/-
  QueryAudit.Proofs.Sample.Literals — literal values are samples

  An expression of literals, parentheses, dots and calls that has a literal value has this value as
  its only sample, however many are looked at. The argument goes along the expression.

  Main results: `Composed.finds`, `samples_eq_literalOf`.
-/

import QueryAudit.Proofs.Php.Placing
import QueryAudit.Proofs.StraightLine.Exactness
import QueryAudit.Record.LiteralValue

namespace QueryAudit.Sample

open Php Record StraightLine Text Intrinsic List Cursor

variable {arg c : Cursor} {args : List Argument} {name value : String}

/-! ## Expressions. -/

/-- An expression of string literals, numbers, parentheses, dots and calls. Arrays stand as arguments
of calls only. -/
inductive Composed : Cursor → Prop where
  | text {c : Cursor} (hkind : c.kind.isStringLiteral) : Composed c
  | number {c : Cursor} (hkind : c.kind = .integer ∨ c.kind = .float) : Composed c
  | paren {c inner : Cursor} (hkind : c.kind = .parenthesizedExpression) (hparts : c.parts = [inner])
      (hinner : Composed inner) : Composed c
  | concat {c left right : Cursor} (hkind : c.kind = .binaryExpression)
      (hoperator : (c.inRole? "operator").map text = some ".")
      (hleft : c.inRole? "left" = some left) (hright : c.inRole? "right" = some right)
      (left_composed : Composed left) (right_composed : Composed right) : Composed c
  | call {c : Cursor} (hkind : c.kind = .functionCallExpression)
      (hplain : ∀ arg ∈ callArguments c, arg.kind ≠ .arrayCreationExpression → Composed arg)
      (harray : ∀ arg ∈ callArguments c, arg.kind = .arrayCreationExpression →
        ∀ element ∈ arrayElements arg, Composed element.2) : Composed c

theorem isStringLiteral_iff {kind : Kind} : kind.isStringLiteral ↔
    kind = .string ∨ kind = .encapsedString ∨ kind = .heredoc ∨ kind = .nowdoc := by
  constructor
  · intro h
    unfold Kind.isStringLiteral at h
    split at h <;> simp_all
  · rintro (rfl | rfl | rfl | rfl) <;> rfl

theorem literalValue?_eq_none (h : c.kind.isStringLiteral = false) :
    literalValue? c = .ok none := by
  rw [literalValue?, if_neg (by rw [h]; decide)]

/-- A function that may stand in a literal value is called by its name in small letters. -/
theorem call_of_literalFunction {text : String} (hname : literalFunctions.contains (lower name))
    (h : call (lower name) args = .ok text) :
    isKnown name ∧ call name args = .ok text := by
  have hlower : ∀ known ∈ literalFunctions, lower known = known := by decide +kernel
  have hknown : ∀ known ∈ literalFunctions, (function? known).isSome := by
    decide +kernel
  have hmem := contains_iff_mem.mp hname
  have hknown := hknown _ hmem
  refine ⟨hknown, ?_⟩
  obtain ⟨f, hf⟩ := Option.isSome_iff_exists.mp hknown
  have hsame : function? (lower (lower name)) = some f := by rw [hlower _ hmem, hf]
  unfold call at h ⊢
  cases args with
  | nil =>
    rw [hsame] at h
    cases h
  | cons first rest =>
    rw [hsame] at h
    rw [hf]
    exact h

/-! ## One sample. -/

section Samples

variable {u : Run} {depth n deeper : Nat} {c : Cursor} {path value : String}

/-- From a depth on, a node is prepared to be a sequence with one sample. -/
def HasSample (u : Run) (depth : Nat) (c : Cursor) (path value : String) : Prop :=
  ∃ s, Prepares u depth c path s ∧ StraightLine.Yields u depth s value

theorem HasSample.mono (h : HasSample u depth c path value) (hle : depth ≤ deeper) :
    HasSample u deeper c path value := by
  obtain ⟨s, hprepares, hyields⟩ := h
  exact ⟨s, hprepares.mono hle, hyields.mono hle⟩

theorem samplesWith_of_hasSample (hmax : 1 ≤ u.settings.maxSamples)
    (h : HasSample u depth c path value) (hn : depth ≤ n) :
    samplesWith (evaluation n) c path u = .ok [value] u := by
  obtain ⟨s, hprepares, hyields⟩ := h
  have hprepare : (evaluation n).prepare c path u = .ok s u := hprepares n hn
  have hdistinct : distinct [value] = [value] := by simp [distinct]
  simp only [samplesWith, run_bind, hprepare, takeFrom_of_yields hmax hyields hn, releaseMarks,
    run_modify, foldl_nil, Bool.false_eq_true, if_false, run_pure, hdistinct]

theorem hasSample_ready (h : ∀ n, prepareRule (evaluation n) c path u = .ok (.ready [value]) u) :
    HasSample u 1 c path value :=
  ⟨_, prepares_of_rule fun n _ => h n, yields_ready⟩

/-- Parts of a string without code spell its known text. -/
theorem spells_of_knownText? {reads : Cursor → String → Prop} {parts : List StringPart} :
    ∀ {value : String}, knownText? parts = some value → Spells reads parts value := by
  induction parts with
  | nil =>
    intro value h
    obtain rfl := Option.some.inj h
    exact ⟨[], .nil, rfl⟩
  | cons part parts ih =>
    intro value h
    cases part with
    | code c => cases h
    | text first =>
      obtain ⟨rest, hrest, rfl⟩ := Option.map_eq_some_iff.mp h
      exact spells_append (spells_singleton (.text first)) (ih hrest)

/-- A sequence of one text, or of texts that are joined to it. -/
def Spelled (u : Run) (c : Cursor) (path value : String) (s : Sequence) : Prop :=
  s = .ready [value] ∨ ∃ parts texts, s = .concat parts c path ∧ value = joinWith "" texts
    ∧ Forall₂ (StraightLine.Yields u 1) parts texts

/-- A string literal without code in it is prepared to be its text. -/
theorem prepares_text (u : Run) (path : String) (hkind : c.kind.isStringLiteral)
    (h : literalValue? c = .ok (some value)) :
    ∃ s, Prepares u 2 c path s ∧ Spelled u c path value s := by
  rw [literalValue?, if_pos hkind] at h
  obtain ⟨parts, hparts, hknown⟩ : ∃ parts, stringParts c = .ok parts ∧ knownText? parts = some value := by
    cases hparts : stringParts c with
    | error e =>
      rw [hparts] at h
      cases h
    | ok parts =>
      rw [hparts] at h
      exact ⟨parts, rfl, Except.ok.inj h⟩
  by_cases hstring : c.kind = .string
  · rw [stringParts, if_pos hstring] at hparts
    obtain rfl := Except.ok.inj hparts
    have hvalue : singleQuotedValue c.text = value := by simpa [knownText?] using hknown
    refine ⟨.ready [value], prepares_of_rule fun n _ => ?_, .inl rfl⟩
    rw [prepareRule, hstring, hvalue]
    rfl
  · have hspells : Spells (HasSample u 1 · path ·) parts value := spells_of_knownText? hknown
    obtain ⟨texts, htexts, rfl⟩ := hspells
    obtain ⟨prepared, hprepared, hyields⟩ := mapM_prepare (Nat.le_refl 1) htexts
    refine ⟨.concat prepared c path, prepares_of_rule fun n hn => ?_, .inr ⟨prepared, texts, rfl, rfl, hyields⟩⟩
    have hrule : prepareRule (evaluation n) c path = prepareString (evaluation n) c path := by
      rcases isStringLiteral_iff.mp hkind with hk | hk | hk | hk
      · exact absurd hk hstring
      all_goals rw [prepareRule, hk]
    rw [hrule, prepareString, hparts]
    exact bind_of_ok (hprepared n hn)

theorem hasSample_text (hmax : 1 ≤ u.settings.maxSamples) (hkind : c.kind.isStringLiteral)
    (h : literalValue? c = .ok (some value)) : HasSample u 2 c path value := by
  obtain ⟨s, hprepares, rfl | ⟨parts, texts, rfl, rfl, hyields⟩⟩ := prepares_text u path hkind h
  · exact ⟨_, hprepares, yields_ready.mono (by omega)⟩
  · exact ⟨_, hprepares, yields_concat hmax c path hyields⟩

theorem hasSample_number (hkind : c.kind = .integer ∨ c.kind = .float) :
    HasSample u 1 c path c.text := by
  refine hasSample_ready fun n => ?_
  rcases hkind with hkind | hkind <;> rw [prepareRule, hkind] <;> rfl

theorem hasSample_paren {inner : Cursor} (hkind : c.kind = .parenthesizedExpression)
    (hparts : c.parts = [inner]) (h : HasSample u depth inner path value) :
    HasSample u (depth + 1) c path value := by
  obtain ⟨s, hprepares, hyields⟩ := h
  refine ⟨s, prepares_of_rule fun n hn => ?_, hyields.mono (Nat.le_succ depth)⟩
  simp only [prepareRule, hkind, prepareInner, hparts]
  exact hprepares n hn

theorem hasSample_concat (hmax : 1 ≤ u.settings.maxSamples) {left right : Cursor} {a b : String}
    (hkind : c.kind = .binaryExpression)
    (hoperator : (c.inRole? "operator").map text = some ".")
    (hleft : c.inRole? "left" = some left) (hright : c.inRole? "right" = some right)
    (ha : HasSample u depth left path a) (hb : HasSample u depth right path b) :
    HasSample u (depth + 1) c path (a ++ b) := by
  obtain ⟨s, hs, hsa⟩ := ha
  obtain ⟨t, ht, htb⟩ := hb
  have htext : operatorText c = "." := by rw [operatorText, hoperator, Option.getD_some]
  have hjoined : joinWith "" [a, b] = a ++ b := by simp [joinWith]
  refine ⟨.concat [s, t] c path, prepares_of_rule fun n hn => ?_, ?_⟩
  · simp only [prepareRule, hkind, prepareBinary, htext, run_bind, run_pure,
      prepareRole_of_prepares hleft hs hn, prepareRole_of_prepares hright ht hn]
  · rw [← hjoined]
    exact yields_concat hmax c path (.cons hsa (.cons htb .nil))

def HasCandidate (u : Run) (depth : Nat) (path : String) (arg : Cursor) (value : Argument) :
    Prop :=
  ∀ n ≥ depth, argumentCandidates (evaluation n) path arg u = .ok [value] u

theorem HasCandidate.mono {found : Argument} (h : HasCandidate u depth path arg found)
    (hle : depth ≤ deeper) : HasCandidate u deeper path arg found := fun n hn => h n (Nat.le_trans hle hn)

/-- A call of a built-in function whose arguments have one value each has one sample. -/
theorem hasSample_call (hmax : 1 ≤ u.settings.maxSamples) (hkind : c.kind = .functionCallExpression)
    (hname : ((c.inRole? "function").map fun f => shortClassName f.text).getD "" = name)
    (hknown : isKnown name)
    (hargs : Forall₂ (HasCandidate u depth path) (callArguments c) args)
    (hcall : call name args = .ok value) : HasSample u (depth + 1) c path value := by
  refine ⟨.later c path, (prepares_of_rule fun n (_ : n ≥ 0) => ?_).mono (by omega), rfl, ?_⟩
  · rw [prepareRule, hkind]
    rfl
  intro n hn wanted hwanted
  obtain ⟨n, rfl⟩ := Nat.exists_eq_add_of_le' hn
  have hcandidates : (callArguments c).mapM (argumentCandidates (evaluation (n + depth)) path) u
      = .ok (args.map fun arg => [arg]) u := by
    clear hcall
    generalize callArguments c = nodes at hargs
    induction hargs with
    | nil => rfl
    | cons harg _ ih =>
      rw [mapM_cons, bind_of_ok (harg (n + depth) (Nat.le_add_left depth n)), bind_of_ok ih]
      rfl
  obtain ⟨wanted, rfl⟩ := Nat.exists_eq_add_of_le' hwanted
  obtain ⟨allowed, hallowed⟩ := Nat.exists_eq_add_of_le' hmax
  have hdraws : drawCalls c path name (wanted + 2) u.settings.maxSamples [args] u = .ok [value] u := by
    rw [hallowed, drawCalls]
    have hsample : callSample c path name args u = .ok value u := by
      rw [callSample, hcall]
      rfl
    rw [bind_of_ok hsample]
    rfl
  show drawRule (evaluation (n + depth)) (.later c path) (wanted + 2) u = _
  show drawLater (evaluation (n + depth)) c path (wanted + 2) u = _
  rw [drawLater, hkind]
  show drawCall _ c path (wanted + 2) u = _
  rw [drawCall, hname]
  simp only [hknown, Bool.not_true, Bool.false_eq_true, if_false]
  rw [bind_of_ok hcandidates]
  simp only [limit, run_bind, run_get, run_pure, firstProducts_singletons, hdraws]

end Samples

/-! ## Arguments. -/

section Arguments

variable {u : Run} {path : String}

/-- Literals, concatenations and calls are no arrays. -/
theorem itemsRule_eq_none {e : Evaluation} (depth : Nat)
    (h : c.kind.isStringLiteral ∨ c.kind ∈ [.integer, .float, .binaryExpression,
      .functionCallExpression]) : itemsRule e c path depth u = .ok none u := by
  have hkinds : c.kind ∈ [.string, .encapsedString, .heredoc, .nowdoc, .integer, .float,
      .binaryExpression, .functionCallExpression] := by
    rw [isStringLiteral_iff] at h
    simp only [mem_cons] at h ⊢
    tauto
  simp only [mem_cons, not_mem_nil, or_false] at hkinds
  unfold itemsRule
  split
  · rfl
  · rcases hkinds with hk | hk | hk | hk | hk | hk | hk | hk <;> rw [hk] <;> rfl

/-- What is composed of literals is no array. -/
theorem Composed.items_eq_none (h : Composed c) :
    ∀ n > c.node.size, ∀ depth, itemsAt n c path depth u = .ok none u := by
  have hrule : ∀ {c : Cursor}, (∀ e depth, itemsRule e c path depth u = .ok none u) →
      ∀ n > c.node.size, ∀ depth, itemsAt n c path depth u = .ok none u := by
    intro c h n hn depth
    obtain ⟨n, rfl⟩ : ∃ m, n = m + 1 := ⟨n - 1, by omega⟩
    exact h (evaluation n) depth
  induction h with
  | text hkind => exact hrule fun e depth => itemsRule_eq_none depth (.inl hkind)
  | number hkind =>
    exact hrule fun e depth => itemsRule_eq_none depth (.inr (by rcases hkind with h | h <;> simp [h]))
  | @paren c inner hkind hparts _ ih =>
    intro n hn depth
    obtain ⟨n, rfl⟩ : ∃ m, n = m + 1 := ⟨n - 1, by omega⟩
    have hsize : inner.node.size < c.node.size :=
      (below_of_mem_parts (hparts ▸ mem_cons_self)).size_lt
    show itemsRule (evaluation n) c path depth u = _
    unfold itemsRule
    split
    · rfl
    · rw [hkind, hparts]
      exact ih n (by omega) (depth + 1)
  | concat hkind => exact hrule fun e depth => itemsRule_eq_none depth (.inr (by simp [hkind]))
  | call hkind => exact hrule fun e depth => itemsRule_eq_none depth (.inr (by simp [hkind]))

theorem Composed.hasCandidate (hmax : 1 ≤ u.settings.maxSamples) (h : Composed arg)
    (hsample : HasSample u (arg.node.size + 1) arg path value) :
    HasCandidate u (arg.node.size + 1) path arg (.text value) := by
  intro n hn
  have hitems : (evaluation n).items arg path 0 u = .ok none u := h.items_eq_none n (by omega) 0
  rw [argumentCandidates, bind_of_ok hitems]
  exact map_of_ok (samplesWith_of_hasSample hmax hsample hn)

/-- An array whose elements have one sample each has one value. -/
theorem hasCandidate_array (hmax : 1 ≤ u.settings.maxSamples)
    (hkind : arg.kind = .arrayCreationExpression) {values : List String}
    (h : Forall₂ (fun element value => HasSample u arg.node.size element path value)
      ((arrayElements arg).map Prod.snd) values) :
    HasCandidate u (arg.node.size + 1) path arg (.list values) := by
  intro n hn
  have hitems : (evaluation n).items arg path 0 u = .ok (some (literalItems arg path)) u := by
    obtain ⟨n, rfl⟩ : ∃ m, n = m + 1 := ⟨n - 1, by omega⟩
    show itemsRule (evaluation n) arg path 0 u = _
    rw [itemsRule, hkind]
    rfl
  rw [argumentCandidates, bind_of_ok hitems]
  show arrayCandidates (evaluation n) path arg (literalItems arg path) u = _
  have hper : ((literalItems arg path).mapM fun item => do
      let values ← samplesWith (evaluation n) item.value item.path
      return if values.isEmpty then [""] else values : Audit (List (List String))) u
        = .ok (values.map fun value => [value]) u := by
    rw [literalItems]
    generalize arrayElements arg = elements at h
    induction elements generalizing values with
    | nil =>
      cases h
      rfl
    | cons element elements ih =>
      cases h with
      | cons hfirst hrest =>
        rw [map_cons, mapM_cons, bind_assoc,
          bind_of_ok (samplesWith_of_hasSample hmax hfirst (by omega)), pure_bind,
          bind_of_ok (ih hrest)]
        rfl
  have hfew : ¬ u.settings.maxSamples < [values].length := by
    rw [length_singleton]
    omega
  have htake : [values].take u.settings.maxSamples = [values] :=
    take_of_length_le (by simpa using hmax)
  rw [arrayCandidates, bind_of_ok hper]
  simp only [limit, run_bind, run_get, run_pure, firstProducts_singletons, hfew, if_false, htake,
    map_singleton]

end Arguments

/-! ## Values. -/

section Values

variable {context : LiteralContext} {r t u : Run} {path : String}

theorem unescaped_ok {α : Type} {x : Except EscapeError α} {a : α}
    (h : Audit.unescaped x r = .ok a t) : x = .ok a ∧ r = t := by
  cases x with
  | ok b =>
    obtain ⟨rfl, rfl⟩ := pure_ok_iff.mp h
    exact ⟨rfl, rfl⟩
  | error e => cases h

/-- When a literal value is found, the state stays as it is, and the value has a property. -/
def Finds (value : Cursor → Audit (Option String)) (Has : Cursor → String → Prop) (node : Cursor) :
    Prop :=
  ∀ {r t : Run} {s : String}, value node r = .ok (some s) t → t = r ∧ Has node s

variable {value : Cursor → Audit (Option String)} {Has : Cursor → String → Prop}

/-- The values of a list of expressions are found one by one. -/
theorem allValues_ok {nodes : List Cursor} :
    ∀ {found : List String} {r : Run}, (∀ node ∈ nodes, Finds value Has node) →
      allValues value nodes r = .ok (some found) t → t = r ∧ Forall₂ Has nodes found := by
  induction nodes with
  | nil =>
    intro found r _ h
    obtain ⟨hfound, rfl⟩ := pure_ok_iff.mp h
    obtain rfl := Option.some.inj hfound
    exact ⟨rfl, .nil⟩
  | cons node nodes ih =>
    intro found r hfinds h
    rw [forall_mem_cons] at hfinds
    obtain ⟨first, s, hfirst, h⟩ := bind_ok_iff.mp h
    cases first with
    | none => cases (pure_ok_iff.mp h).1
    | some first =>
      obtain ⟨rest, hrest, heq⟩ := bind_pure_ok_iff.mp h
      obtain ⟨more, rfl, rfl⟩ := Option.map_eq_some_iff.mp heq
      obtain ⟨rfl, hhas⟩ := hfinds.1 hfirst
      obtain ⟨rfl, hmore⟩ := ih hfinds.2 hrest
      exact ⟨rfl, .cons hhas hmore⟩

/-- The value of an argument: that of an expression, or those of the elements of an array. -/
inductive ArgumentValue (Has : Cursor → String → Prop) (arg : Cursor) : Argument → Prop where
  | text {value : String} (hkind : arg.kind ≠ .arrayCreationExpression) (h : Has arg value) :
      ArgumentValue Has arg (.text value)
  | list {values : List String} (hkind : arg.kind = .arrayCreationExpression)
      (h : Forall₂ Has ((arrayElements arg).map Prod.snd) values) :
      ArgumentValue Has arg (.list values)

/-- The values of arguments are found one by one. -/
theorem argumentsWith_ok {args : List Cursor} :
    ∀ {found : List Argument} {r : Run},
      (∀ arg ∈ args, arg.kind ≠ .arrayCreationExpression → Finds value Has arg) →
      (∀ arg ∈ args, arg.kind = .arrayCreationExpression →
        ∀ element ∈ arrayElements arg, Finds value Has element.2) →
      argumentsWith value args r = .ok (some found) t →
      t = r ∧ Forall₂ (ArgumentValue Has) args found := by
  induction args with
  | nil =>
    intro found r _ _ h
    obtain ⟨hfound, rfl⟩ := pure_ok_iff.mp h
    obtain rfl := Option.some.inj hfound
    exact ⟨rfl, .nil⟩
  | cons arg args ih =>
    intro found r hplain harray h
    rw [forall_mem_cons] at hplain harray
    obtain ⟨first, s, hfirst, h⟩ := bind_ok_iff.mp h
    cases first with
    | none => cases (pure_ok_iff.mp h).1
    | some first =>
      obtain ⟨rest, hrest, heq⟩ := bind_pure_ok_iff.mp h
      obtain ⟨more, rfl, rfl⟩ := Option.map_eq_some_iff.mp heq
      obtain ⟨rfl, hmore⟩ := ih hplain.2 harray.2 hrest
      unfold valuesWith at hfirst
      by_cases hkind : arg.kind = .arrayCreationExpression
      · rw [if_pos hkind] at hfirst ⊢
        have helements : ∀ node ∈ (arrayElements arg).map Prod.snd, Finds value Has node := by
          intro node hnode
          obtain ⟨element, helement, rfl⟩ := mem_map.mp hnode
          exact harray.1 hkind element helement
        obtain ⟨rfl, hvalues⟩ := allValues_ok helements hfirst
        exact ⟨rfl, .cons (.list hkind hvalues) hmore⟩
      · rw [if_neg hkind] at hfirst ⊢
        obtain ⟨single, hsingle, heq⟩ := bind_pure_ok_iff.mp hfirst
        obtain ⟨one, rfl, rfl⟩ := Option.map_eq_some_iff.mp heq
        obtain ⟨rfl, hone⟩ := hplain.1 hkind hsingle
        exact ⟨rfl, .cons (.text hkind hone) hmore⟩

/-- A call with a literal value is a call of a built-in function with literal values. -/
theorem functionWith_ok {s : String}
    (hplain : ∀ arg ∈ callArguments c, arg.kind ≠ .arrayCreationExpression → Finds value Has arg)
    (harray : ∀ arg ∈ callArguments c, arg.kind = .arrayCreationExpression →
      ∀ element ∈ arrayElements arg, Finds value Has element.2)
    (h : functionWith value c r = .ok (some s) t) :
    t = r ∧ ∃ name args, ((c.inRole? "function").map fun f => shortClassName f.text).getD "" = name
      ∧ isKnown name = true
      ∧ Forall₂ (ArgumentValue Has) (callArguments c) args
      ∧ call name args = .ok s := by
  unfold functionWith at h
  have hlower : ((c.inRole? "function").map fun f => lower (shortClassName f.text)).getD ""
      = lower (((c.inRole? "function").map fun f => shortClassName f.text).getD "") := by
    cases c.inRole? "function" with
    | none => exact (by decide : "" = lower "")
    | some f => rw [Option.map_some, Option.map_some, Option.getD_some, Option.getD_some]
  rw [hlower] at h
  generalize hname : ((c.inRole? "function").map fun f => shortClassName f.text).getD "" = name at h ⊢
  cases hliteral : literalFunctions.contains (lower name) with
  | false =>
    rw [hliteral] at h
    cases (pure_ok_iff.mp h).1
  | true =>
    rw [hliteral] at h
    obtain ⟨found, s', hfound, hrest⟩ := bind_ok_iff.mp h
    cases found with
    | none => cases (pure_ok_iff.mp hrest).1
    | some args =>
      obtain ⟨rfl, hargs⟩ := argumentsWith_ok hplain harray hfound
      dsimp only at hrest
      cases hcall : call (lower name) args with
      | error fault =>
        rw [hcall] at hrest
        cases fault <;> cases hrest
      | ok text =>
        rw [hcall] at hrest
        obtain ⟨htext, rfl⟩ := pure_ok_iff.mp hrest
        obtain rfl := Option.some.inj htext
        obtain ⟨hknown, hsame⟩ := call_of_literalFunction hliteral hcall
        exact ⟨rfl, name, args, rfl, hknown, hargs, hsame⟩

/-- The literal value of an expression that is no string literal. -/
def literalRule (value : Evaluator) (context : LiteralContext) (node : Cursor) :
    Audit (Option String) := do
  match node.kind with
  | .integer | .float => return some node.text
  | .parenthesizedExpression =>
    match node.parts.head? with
    | some inner => value context inner
    | none => return none
  | .binaryExpression =>
    if ((node.inRole? "operator").map text) ≠ some "." then return none
    let left ← operandWith (value context) node "left"
    let right ← operandWith (value context) node "right"
    match left, right with
    | some a, some b => return some (a ++ b)
    | _, _ => return none
  | .functionCallExpression => functionWith (value context) node
  | .classConstantAccessExpression => constantWith value context node
  | .memberAccessExpression => return if context.app then appComponent? node else none
  | _ => return none

theorem literalFrom_succ {n : Nat} {node : Cursor} : literalFrom (n + 1) context node = (do
    match ← Audit.unescaped (literalValue? node) with
    | some text => return some text
    | none => literalRule (literalFrom n) context node) := rfl

theorem finds_of_rule (hkind : c.kind.isStringLiteral = false)
    (h : ∀ n, Finds (literalRule (literalFrom n) context) Has c) :
    ∀ n, Finds (literalFrom n context) Has c := by
  intro n r t s hfound
  cases n with
  | zero => cases hfound
  | succ n =>
    rw [literalFrom_succ, literalValue?_eq_none hkind] at hfound
    exact h n hfound

/-- **An expression with a literal value gives one sample**, from the depth of its size on. Finding
the value leaves the state as it was. -/
theorem Composed.finds (hmax : 1 ≤ u.settings.maxSamples) (h : Composed c) :
    ∀ n, Finds (literalFrom n context)
      (fun node s => HasSample u (node.node.size + 1) node path s) c := by
  induction h with
  | @text c hkind =>
    intro n r t s hfound
    cases n with
    | zero => cases hfound
    | succ n =>
      rw [literalFrom_succ] at hfound
      obtain ⟨known, s', hknown, hfound⟩ := bind_ok_iff.mp hfound
      obtain ⟨hvalue, rfl⟩ := unescaped_ok hknown
      have hsize := Node.size_eq c.node
      cases known with
      | some text =>
        obtain ⟨htext, rfl⟩ := pure_ok_iff.mp hfound
        obtain rfl := Option.some.inj htext
        exact ⟨rfl, (hasSample_text hmax hkind hvalue).mono (by omega)⟩
      | none =>
        -- a string with code in it has no literal value
        rcases isStringLiteral_iff.mp hkind with hk | hk | hk | hk <;>
          (rw [literalRule, hk] at hfound; cases (pure_ok_iff.mp hfound).1)
  | @number c hkind =>
    refine finds_of_rule (by rcases hkind with hk | hk <;> rw [hk] <;> rfl) fun n r t s hfound => ?_
    have hrule : literalRule (literalFrom n) context c = pure (some c.text) := by
      rcases hkind with hk | hk <;> rw [literalRule, hk]
    rw [hrule] at hfound
    obtain ⟨htext, rfl⟩ := pure_ok_iff.mp hfound
    obtain rfl := Option.some.inj htext
    exact ⟨rfl, (hasSample_number hkind).mono (by omega)⟩
  | @paren c inner hkind hparts _ ih =>
    refine finds_of_rule (by rw [hkind]; rfl) fun n r t s hfound => ?_
    rw [literalRule, hkind, hparts] at hfound
    obtain ⟨rfl, hsample⟩ := ih n hfound
    have hsize : inner.node.size < c.node.size :=
      (below_of_mem_parts (hparts ▸ mem_cons_self)).size_lt
    exact ⟨rfl, (hasSample_paren hkind hparts hsample).mono (by omega)⟩
  | @concat c left right hkind hoperator hleft hright _ _ ihleft ihright =>
    refine finds_of_rule (by rw [hkind]; rfl) fun n r t s hfound => ?_
    rw [literalRule, hkind] at hfound
    rw [if_neg (not_not_intro hoperator), operandWith, hleft, operandWith, hright] at hfound
    obtain ⟨first, r', hfirst, hfound⟩ := bind_ok_iff.mp hfound
    obtain ⟨second, r'', hsecond, hfound⟩ := bind_ok_iff.mp hfound
    cases first with
    | none => cases (pure_ok_iff.mp hfound).1
    | some a =>
      cases second with
      | none => cases (pure_ok_iff.mp hfound).1
      | some b =>
        obtain ⟨htext, rfl⟩ := pure_ok_iff.mp hfound
        obtain rfl := Option.some.inj htext
        obtain ⟨rfl, ha⟩ := ihleft n hfirst
        obtain ⟨rfl, hb⟩ := ihright n hsecond
        have hleftSize := (below_of_inRole? hleft).size_lt
        have hrightSize := (below_of_inRole? hright).size_lt
        refine ⟨rfl, hasSample_concat hmax hkind hoperator hleft hright ?_ ?_⟩
        · exact ha.mono hleftSize
        · exact hb.mono hrightSize
  | @call c hkind hplain harray ihplain iharray =>
    refine finds_of_rule (by rw [hkind]; rfl) fun n r t s hfound => ?_
    rw [literalRule, hkind] at hfound
    obtain ⟨rfl, name, args, hname, hknown, hargs, hcall⟩ := functionWith_ok
      (fun arg harg hk => ihplain arg harg hk n)
      (fun arg harg hk element helement => iharray arg harg hk element helement n) hfound
    refine ⟨rfl, hasSample_call hmax hkind hname hknown ?_ hcall⟩
    refine ((forall₂_and_left _ _).mpr ⟨fun _ => id, hargs⟩).imp fun arg found ⟨harg, hvalue⟩ => ?_
    have hargSize := (below_of_mem_callArguments harg).size_lt
    cases hvalue with
    | text hk hsample => exact ((hplain arg harg hk).hasCandidate hmax hsample).mono hargSize
    | list hk hsamples =>
      refine (hasCandidate_array hmax hk ?_).mono hargSize
      refine ((forall₂_and_left _ _).mpr ⟨fun _ => id, hsamples⟩).imp fun node value ⟨hnode, hsample⟩ => ?_
      obtain ⟨⟨key, element⟩, helement, rfl⟩ := mem_map.mp hnode
      exact hsample.mono (below_of_mem_arrayElements helement).1.size_lt

end Values

/-! ## Samples of literal values. -/

/-- A node of the tree of a file that was read, which may have been put aside since. -/
def HasRead (r : Run) (c : Cursor) : Prop :=
  ∃ path s number tree, r.sources.get? path = some s ∧ s.treeSize = Node.size tree
    ∧ c ∈ (root number tree).preorder

theorem size_lt_evaluationDepth {r : Run} (h : HasRead r c) :
    c.node.size + 1 ≤ evaluationDepth r := by
  obtain ⟨path, s, number, tree, hs, hsize, hc⟩ := h
  have hle := treeSize_le hs
  have hc : c.node.size ≤ tree.size := by
    refine forall_preorder (p := fun c => c.node.size ≤ tree.size) (fun c hc child hchild => ?_)
      (Nat.le_refl _) c hc
    exact Nat.le_trans (Nat.le_of_lt (Node.size_lt_of_mem (mem_children hchild).2.1)) hc
  rw [evaluationDepth]
  omega

/-- **The two evaluations agree.** An expression of literals, parentheses, dots and calls that has a
literal value has exactly this sample, and nothing is warned about. -/
theorem samples_eq_literalOf {c : Cursor} (hc : Composed c) {context : LiteralContext}
    {r t : Run} {value : String} (hvalue : literalOf context c r = .ok (some value) t)
    {u : Run} (hmax : 1 ≤ u.settings.maxSamples) (hread : HasRead u c) (path : String) :
    t = r ∧ samples c path u = .ok [value] u := by
  obtain ⟨r', s, hget, hvalue⟩ := bind_ok_iff.mp hvalue
  obtain ⟨rfl, rfl⟩ := get_ok_iff.mp hget
  have hfinds : Finds (literalFrom (literalDepth r.extent) context)
      (fun node s => HasSample u (node.node.size + 1) node path s) c := hc.finds hmax _
  obtain ⟨ht, hsample⟩ := hfinds hvalue
  refine ⟨ht, ?_⟩
  rw [samples, bind_of_ok run_get]
  exact samplesWith_of_hasSample hmax hsample (size_lt_evaluationDepth hread)

/-- Whether an expression is composed of literals, looked at down to a depth. -/
def isComposed : Nat → Cursor → Bool
  | 0, _ => false
  | n + 1, c =>
    match c.kind with
    | .integer | .float => true
    | .parenthesizedExpression =>
      match c.parts with
      | [inner] => isComposed n inner
      | _ => false
    | .binaryExpression =>
      (c.inRole? "operator").map text = some "." &&
        match c.inRole? "left", c.inRole? "right" with
        | some left, some right => isComposed n left && isComposed n right
        | _, _ => false
    | .functionCallExpression => (callArguments c).all fun arg =>
      if arg.kind = .arrayCreationExpression then
        (arrayElements arg).all fun element => isComposed n element.2
      else isComposed n arg
    | kind => kind.isStringLiteral

theorem Composed.of_isComposed (n : Nat) : ∀ {c : Cursor}, isComposed n c → Composed c := by
  induction n with
  | zero => exact fun h => nomatch h
  | succ n ih =>
    intro c h
    unfold isComposed at h
    split at h
    · next hkind => exact .number (.inl hkind)
    · next hkind => exact .number (.inr hkind)
    · next hkind =>
      split at h
      · next inner hparts => exact .paren hkind hparts (ih h)
      · cases h
    · next hkind =>
      obtain ⟨hoperator, hsides⟩ := Bool.and_eq_true_iff.mp h
      split at hsides
      · next left right hleft hright =>
        obtain ⟨ha, hb⟩ := Bool.and_eq_true_iff.mp hsides
        exact .concat hkind (of_decide_eq_true hoperator) hleft hright (ih ha) (ih hb)
      · cases hsides
    · next hkind =>
      rw [all_eq_true] at h
      refine .call hkind (fun arg harg hk => ?_) (fun arg harg hk element helement => ?_)
      · have hsome := h arg harg
        rw [if_neg hk] at hsome
        exact ih hsome
      · have hsome := h arg harg
        rw [if_pos hk, all_eq_true] at hsome
        exact ih (hsome element helement)
    · exact .text h

namespace Joined

def tree : Node := parse "<?php implode('-', array('a', (\"b\" . 3)));".toUTF8

def call : Cursor :=
  ((root 0 tree).preorder.find? (·.kind = .functionCallExpression)).getD (.root 0 tree)

def run : Run :=
  { settings := {}, verbose := false, debug := false, root := "/w", disk := { base := "/w" }
    sources := Catalog.empty.set "/w/a.php" { tree := some (0, tree) } }

def context : LiteralContext where
  owner := { name := "C", parentName := none, file := "/w/a.php", line := 1 }

end Joined

/-- The call has the joined text as its literal value and as its only sample. -/
theorem samples_eq_literalOf_joined :
    (∃ t, literalOf Joined.context Joined.call Joined.run = .ok (some "a-b3") t)
      ∧ samples Joined.call "/w/a.php" Joined.run = .ok ["a-b3"] Joined.run := by
  have hcomposed : Composed Joined.call := .of_isComposed 8 (by decide +kernel)
  have hseen : sees (literalOf Joined.context Joined.call) Joined.run
      (fun value _ => value = some "a-b3") = true := by
    decide +kernel
  have hmem : Joined.call ∈ (Cursor.root 0 Joined.tree).preorder := by
    rw [Joined.call]
    cases hfind : (Cursor.root 0 Joined.tree).preorder.find? (·.kind = .functionCallExpression) with
    | some found => exact List.mem_of_find?_eq_some hfind
    | none => exact Cursor.mem_preorder_self _
  have hread : HasRead Joined.run Joined.call := ⟨"/w/a.php", _, 0, Joined.tree, rfl, rfl, hmem⟩
  obtain ⟨value, t, ht, hvalue⟩ := of_sees hseen
  obtain rfl := of_decide_eq_true hvalue
  exact ⟨⟨t, ht⟩, (samples_eq_literalOf hcomposed ht (by decide) hread "/w/a.php").2⟩

end QueryAudit.Sample
