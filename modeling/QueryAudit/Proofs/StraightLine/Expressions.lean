/-
  QueryAudit.Proofs.StraightLine.Expressions — samples of expressions without choices

  An expression of literals, variables, parentheses and dots has its value as its only sample as
  soon as every variable has what it holds as its only sample. The state stays as it was.

  Main results: `yields_concat`, `expression_yields`.
-/

import QueryAudit.Proofs.Audit.Outcome
import QueryAudit.Proofs.Sample.Products
import QueryAudit.Proofs.StraightLine.Semantics
import QueryAudit.Sample.Evaluator

namespace QueryAudit.StraightLine

open Php Sample Text List Cursor

variable {a b path text value : String} {c : Cursor} {deeper depth : Nat}
  {left parts right : List StringPart} {memory : Memory} {part : StringPart} {r : Run}
  {reads : Cursor → String → Prop} {s : Sequence} {values : List String} {n : Node}

/-! ## Sequences with one sample. -/

/-- From a depth on, a sequence gives one sample and is closed afterwards, in a state that stays as
it is. -/
structure Yields (r : Run) (depth : Nat) (s : Sequence) (value : String) : Prop where
  closes : s.closes = true
  draws : ∀ n ≥ depth, ∀ wanted ≥ 2, drawAt n s wanted r = .ok ⟨[value], []⟩ r

/-- From a depth on, a node is prepared to be a sequence, in a state that stays as it is. -/
def Prepares (r : Run) (depth : Nat) (c : Cursor) (path : String) (s : Sequence) : Prop :=
  ∀ n ≥ depth, prepareAt n c path r = .ok s r

theorem Yields.mono (h : Yields r depth s value) (hle : depth ≤ deeper) : Yields r deeper s value :=
  ⟨h.closes, fun n hn => h.draws n (Nat.le_trans hle hn)⟩

theorem Prepares.mono
    (h : Prepares r depth c path s) (hle : depth ≤ deeper) : Prepares r deeper c path s :=
  fun n hn => h n (Nat.le_trans hle hn)

theorem yields_ready : Yields r 1 (.ready [value]) value := by
  refine ⟨rfl, ?_⟩
  intro n hn wanted hwanted
  obtain ⟨n, rfl⟩ := Nat.exists_eq_add_of_le' hn
  obtain ⟨wanted, rfl⟩ := Nat.exists_eq_add_of_le' hwanted
  rfl

section Taking

variable {r : Run} {n depth : Nat}

variable {node : Cursor}

/-- A sequence with one sample is taken as it is, and nothing is left of it. -/
theorem takeFrom_of_yields (hmax : 1 ≤ r.settings.maxSamples)
    (h : Yields r depth s value) (hn : depth ≤ n) :
    takeFrom (evaluation n) s r = .ok ([value], false, []) r := by
  have hdraw : (evaluation n).draw s (r.settings.maxSamples + 1) r = .ok ⟨[value], []⟩ r :=
    h.draws n hn _ (by omega)
  have hmore : decide (r.settings.maxSamples < [value].length) = false := by
    rw [decide_eq_false_iff_not, length_singleton]
    omega
  have htake : [value].take r.settings.maxSamples = [value] :=
    take_of_length_le (by simpa using hmax)
  simp only [takeFrom, limit, run_bind, run_get, run_pure, hdraw, hmore, htake, h.closes, if_true,
    releaseMarks, run_modify, foldl_nil]

theorem takeParts_of_yields (hmax : 1 ≤ r.settings.maxSamples) (hn : depth ≤ n)
    {parts : List Sequence} (h : Forall₂ (Yields r depth) parts values) :
    takeParts (evaluation n) node path parts r = .ok (values.map fun value => [value], []) r := by
  induction h with
  | nil => rfl
  | cons hpart _ ih =>
    simp only [takeParts, run_bind, takeFrom_of_yields hmax hpart hn, Bool.false_eq_true, if_false,
      run_pure, ih, map_cons, nil_append]

theorem drawConcat_of_yields (hmax : 1 ≤ r.settings.maxSamples) (hn : depth ≤ n) {wanted : Nat}
    (hwanted : 1 ≤ wanted) {parts : List Sequence} (h : Forall₂ (Yields r depth) parts values) :
    drawConcat (evaluation n) parts node path wanted r = .ok ⟨[joinWith "" values], []⟩ r := by
  have htake : [values].take (min r.settings.maxSamples wanted) = [values] :=
    take_of_length_le (by simp only [length_singleton]; omega)
  have hcap : ¬ r.settings.maxSamples < [values].length := by
    rw [length_singleton]
    omega
  simp only [drawConcat, run_bind, takeParts_of_yields hmax hn h, limit, run_get, run_pure,
    firstProducts_singletons, htake]
  split <;> rfl

/-- Sequences with one sample each are joined to one sample. -/
theorem yields_concat (hmax : 1 ≤ r.settings.maxSamples) (node : Cursor) (path : String)
    {parts : List Sequence} (h : Forall₂ (Yields r depth) parts values) :
    Yields r (depth + 1) (.concat parts node path) (joinWith "" values) := by
  refine ⟨rfl, ?_⟩
  intro n hn wanted hwanted
  obtain ⟨n, rfl⟩ := Nat.exists_eq_add_of_le' hn
  have hpos : wanted ≠ 0 := by omega
  show drawRule (evaluation (n + depth)) (.concat parts node path) wanted r = _
  rw [drawRule, if_neg hpos]
  exact drawConcat_of_yields hmax (Nat.le_add_left depth n) (by omega) h

end Taking

/-! ## Parts of a string. -/

/-- The text of a part of a string, given what interpolated code stands for. -/
inductive PartValue (reads : Cursor → String → Prop) : StringPart → String → Prop
  | text (value : String) : PartValue reads (.text value) value
  | code {c : Cursor} {value : String} : reads c value → PartValue reads (.code c) value

def Spells (reads : Cursor → String → Prop) (parts : List StringPart) (value : String) : Prop :=
  ∃ values, Forall₂ (PartValue reads) parts values ∧ joinWith "" values = value

section Spelling

variable {reads : Cursor → String → Prop}

theorem spells_append (hleft : Spells reads left a)
    (hright : Spells reads right b) : Spells reads (left ++ right) (a ++ b) := by
  obtain ⟨as, has, rfl⟩ := hleft
  obtain ⟨bs, hbs, rfl⟩ := hright
  exact ⟨as ++ bs, rel_append has hbs, joinWith_empty_append⟩

theorem spells_singleton (h : PartValue reads part value) : Spells reads [part] value :=
  ⟨[value], .cons h .nil, by simp [joinWith]⟩

theorem exists_of_spells_append : ∀ {value : String}, Spells reads (left ++ right) value →
      ∃ a b, Spells reads left a ∧ Spells reads right b ∧ value = a ++ b := by
  induction left with
  | nil =>
    intro value h
    exact ⟨"", value, ⟨[], .nil, rfl⟩, h, String.empty_append.symm⟩
  | cons part left ih =>
    rintro value ⟨values, hvalues, rfl⟩
    cases hvalues with
    | cons hpart hrest =>
      obtain ⟨a, b, ha, hb, heq⟩ := ih ⟨_, hrest, rfl⟩
      refine ⟨_, b, spells_append (spells_singleton hpart) ha, hb, ?_⟩
      rw [joinWith_empty_cons, heq, String.append_assoc]

theorem spells_text_iff : Spells reads [.text text] value ↔ value = text := by
  constructor
  · rintro ⟨values, hvalues, rfl⟩
    cases hvalues with
    | cons hpart hrest =>
      cases hpart
      cases hrest
      simp [joinWith]
  · rintro rfl
    exact spells_singleton (.text _)

/-- What is put after other parts is spelled after them, also when it is joined to a text. -/
theorem spells_pushPart (hparts : Spells reads parts a) (hpart : PartValue reads part b) :
    Spells reads (pushPart parts part) (a ++ b) := by
  unfold pushPart
  split
  · next more before hlast =>
    obtain ⟨init, rfl⟩ := getLast?_eq_some_iff.mp hlast
    obtain ⟨first, last, hfirst, hlast', rfl⟩ := exists_of_spells_append hparts
    obtain rfl := spells_text_iff.mp hlast'
    cases hpart
    rw [dropLast_concat, String.append_assoc]
    exact spells_append hfirst (spells_singleton (.text _))
  · exact spells_append hparts (spells_singleton hpart)

theorem spells_foldl_pushPart (h : Forall₂ (PartValue reads) parts values) :
    ∀ {before : List StringPart} {a : String}, Spells reads before a →
      Spells reads (parts.foldl pushPart before) (a ++ joinWith "" values) := by
  induction h with
  | nil =>
    intro before a hbefore
    rw [show joinWith "" [] = "" from rfl, String.append_empty]
    exact hbefore
  | cons hpart _ ih =>
    intro before a hbefore
    rw [joinWith_empty_cons, ← String.append_assoc]
    exact ih (spells_pushPart hbefore hpart)

end Spelling

def nodesOfPiece (child : Cursor) : List Cursor :=
  (if child.kind = .heredocBody || child.kind = .nowdocBody then child.children
    else [child]).filter (!isDelimiter ·)

theorem literalNodes_eq : literalNodes c = c.children.flatMap nodesOfPiece := by
  rw [literalNodes, filter_flatMap]
  rfl

theorem nodesOfPiece_named {child : Cursor} (hnamed : child.node.named = true)
    (hkind : child.kind ∈ [.stringContent, .escapeSequence, .variableName]) :
    nodesOfPiece child = [child] := by
  simp only [mem_cons, not_mem_nil, or_false] at hkind
  rcases hkind with h | h | h <;> simp [nodesOfPiece, isDelimiter, h, hnamed]

theorem nodesOfPiece_mark {child : Cursor} {mark : String} (hnamed : child.node.named = false)
    (hkind : child.kind = .token mark) : nodesOfPiece child = [] := by
  simp [nodesOfPiece, isDelimiter, hkind, hnamed]

/-- A piece of a double-quoted string gives one part with its text, or none without any text. -/
theorem parts_of_pieceValue {child : Cursor} (h : PieceValue memory child.node value)
    (hread : child.kind = .variableName → child.node.named = true →
      memory.lookup child.text = some value → reads child value) :
    ∃ parts values, (nodesOfPiece child).mapM partOf = .ok parts
      ∧ Forall₂ (PartValue reads) parts values ∧ joinWith "" values = value := by
  -- a named piece gives the part that is read off it
  have hone : ∀ {part}, nodesOfPiece child = [child] → partOf child = .ok part →
      PartValue reads part value → ∃ parts values, (nodesOfPiece child).mapM partOf = .ok parts
        ∧ Forall₂ (PartValue reads) parts values ∧ joinWith "" values = value := by
    intro part hnodes hpart hvalue
    refine ⟨[part], [value], ?_, .cons hvalue .nil, by simp [joinWith]⟩
    rw [hnodes, mapM_cons, hpart]
    rfl
  cases h with
  | content hkind hnamed =>
    have hkind : child.kind = .stringContent := hkind
    refine hone (nodesOfPiece_named hnamed (by simp [hkind])) ?_ (.text child.text)
    simp [partOf, hkind]
  | @escape c hkind hnamed hescape =>
    have hkind : child.kind = .escapeSequence := hkind
    have hunescape : unescape child.text = .ok (String.singleton c) := by
      rw [← unescape_of_escapeValue hescape, String.ofList_toList]
      rfl
    refine hone (nodesOfPiece_named hnamed (by simp [hkind])) ?_ (.text (String.singleton c))
    simp [partOf, hkind, hunescape]
  | read hkind hnamed hlookup =>
    have hkind : child.kind = .variableName := hkind
    refine hone (nodesOfPiece_named hnamed (by simp [hkind])) ?_ (.code (hread hkind hnamed hlookup))
    simp [partOf, hkind]
  | mark hkind hnamed =>
    refine ⟨[], [], ?_, .nil, rfl⟩
    rw [nodesOfPiece_mark hnamed hkind]
    rfl

theorem mapM_append_ok {others : List StringPart} {left right : List Cursor}
    (hleft : left.mapM partOf = .ok parts) (hright : right.mapM partOf = .ok others) :
    (left ++ right).mapM partOf = .ok (parts ++ others) := by
  rw [mapM_append, hleft, hright]
  rfl

/-- The parts of a double-quoted string spell the texts of its pieces. -/
theorem stringParts_of_pieces (hkind : c.kind = .encapsedString)
    (h : Forall₂ (PieceValue memory) c.node.children values)
    (hread : ∀ child ∈ c.children, ∀ value, child.kind = .variableName →
      child.node.named = true → memory.lookup child.text = some value → reads child value) :
    ∃ parts, stringParts c = .ok parts ∧ Spells reads parts (joinWith "" values) := by
  have hpieces : ∀ (children : List Cursor) (values : List String),
      Forall₂ (fun child value => PieceValue memory child.node value) children values →
      (∀ child ∈ children, child ∈ c.children) →
      ∃ parts texts, (children.flatMap nodesOfPiece).mapM partOf = .ok parts
        ∧ Forall₂ (PartValue reads) parts texts ∧ joinWith "" texts = joinWith "" values := by
    intro children values hforall
    induction hforall with
    | nil => exact fun _ => ⟨[], [], rfl, .nil, rfl⟩
    | @cons child value children values hpiece _ ih =>
      intro hmem
      obtain ⟨hchild, hmem⟩ := forall_mem_cons.mp hmem
      obtain ⟨first, a, hfirst, ha, rfl⟩ := parts_of_pieceValue hpiece (hread child hchild value)
      obtain ⟨more, b, hmore, hb, heq⟩ := ih hmem
      refine ⟨first ++ more, a ++ b, mapM_append_ok hfirst hmore, rel_append ha hb, ?_⟩
      rw [joinWith_empty_append, joinWith_empty_cons, heq]
  rw [← map_node_children, forall₂_map_left_iff] at h
  obtain ⟨parts, texts, hparts, htexts, heq⟩ := hpieces c.children values h fun _ => id
  refine ⟨parts.foldl pushPart [], ?_, ?_⟩
  · have hne : c.kind ≠ .string := by
      rw [hkind]
      decide
    rw [stringParts, if_neg hne, literalNodes_eq, hparts]
    rfl
  · have hnothing : Spells reads [] "" := ⟨[], .nil, rfl⟩
    have hspelled := spells_foldl_pushPart htexts hnothing
    rw [heq] at hspelled
    exact hspelled

/-! ## Expressions. -/

def opensScope (n : Node) : Bool := n.kind.isFunctionLike || n.kind.isClassLike

theorem opensScope_of_isPlain (h : isPlain n = true) : opensScope n = false := by
  unfold opensScope Kind.isFunctionLike Kind.isClassLike
  split <;> split <;> simp_all [isPlain]

/-- A cursor stands below a scope, with no other scope in between, and on certain lines. -/
structure Placed (tree : Nat) (scope : List (Nat × Node)) (on : Node → Bool) (c : Cursor) :
    Prop where
  tree : c.tree = tree
  above : ∃ inner, c.above = inner ++ scope ∧ ∀ entry ∈ inner, opensScope entry.2 = false
  lines : c.node.all on = true

theorem Placed.child {tree : Nat} {scope : List (Nat × Node)} {on : Node → Bool}
    {child : Cursor} (h : Placed tree scope on c) (hopens : opensScope c.node = false)
    (hchild : child ∈ c.children) : Placed tree scope on child := by
  obtain ⟨htree, hnode, i, habove⟩ := mem_children hchild
  obtain ⟨inner, hinner, hall⟩ := h.above
  refine ⟨htree.trans h.tree, ⟨(i, c.node) :: inner, ?_, ?_⟩, Node.all_of_mem h.lines hnode⟩
  · rw [habove, hinner, cons_append]
  · exact forall_mem_cons.mpr ⟨hopens, hall⟩

/-- Variables on certain lines below a scope have what they hold as their only sample. -/
def Reads (r : Run) (tree : Nat) (scope : List (Nat × Node)) (on : Node → Bool) (path : String)
    (memory : Memory) (depth : Nat) : Prop :=
  ∀ c value, Placed tree scope on c → c.kind = .variableName → c.node.named = true →
    memory.lookup c.text = some value →
    ∃ s, Prepares r depth c path s ∧ Yields r depth s value

/-- The parts of a string are prepared one by one. -/
theorem mapM_prepare (hdepth : 1 ≤ depth)
    (h : Forall₂ (PartValue fun c value =>
      ∃ s, Prepares r depth c path s ∧ Yields r depth s value) parts values) :
    ∃ prepared, (∀ n ≥ depth, (parts.mapM fun part => match part with
        | .text value => pure (Sequence.ready [value])
        | .code inner => (evaluation n).prepare inner path : Audit (List Sequence)) r
        = .ok prepared r)
      ∧ Forall₂ (Yields r depth) prepared values := by
  induction h with
  | nil => exact ⟨[], fun _ _ => rfl, .nil⟩
  | @cons part value parts values hpart _ ih =>
    obtain ⟨prepared, hprepared, hyields⟩ := ih
    cases hpart with
    | text value =>
      refine ⟨.ready [value] :: prepared, ?_, .cons (yields_ready.mono hdepth) hyields⟩
      intro n hn
      simp only [mapM_cons, run_bind, run_pure, hprepared n hn]
    | code hcode =>
      obtain ⟨s, hs, hvalue⟩ := hcode
      refine ⟨s :: prepared, ?_, .cons hvalue hyields⟩
      intro n hn
      have hprepare : (evaluation n).prepare _ path r = .ok s r := hs n hn
      simp only [mapM_cons, run_bind, run_pure, hprepare, hprepared n hn]

theorem prepares_of_rule (h : ∀ n ≥ depth, prepareRule (evaluation n) c path r = .ok s r) :
    Prepares r (depth + 1) c path s := by
  intro n hn
  obtain ⟨n, rfl⟩ := Nat.exists_eq_add_of_le' hn
  exact h (n + depth) (Nat.le_add_left depth n)

theorem prepareRole_of_prepares {n : Nat} {child : Cursor} {role : String}
    (hrole : c.inRole? role = some child) (h : Prepares r depth child path s)
    (hn : depth ≤ n) : prepareRole (evaluation n) c role path r = .ok s r := by
  rw [prepareRole, hrole]
  exact h n hn

section Expressions

variable {r : Run} {tree depth : Nat} {scope : List (Nat × Node)} {on : Node → Bool} {path : String}
  {memory : Memory}

/-- **The only sample of an expression is its value**, if that is so for the variables in it. -/
theorem expression_yields (hmax : 1 ≤ r.settings.maxSamples) (hdepth : 1 ≤ depth)
    (hreads : Reads r tree scope on path memory depth) (h : Evaluates memory n value) :
    ∀ c : Cursor, c.node = n → Placed tree scope on c →
      ∃ s, Prepares r (depth + n.size) c path s ∧ Yields r (depth + n.size) s value := by
  induction h with
  | @quoted n mark body hkind hmark htext hbody =>
    rintro c rfl hplaced
    have hkind : c.kind = .string := hkind
    have hvalue : singleQuotedValue c.text = String.ofList (unquote body) := by
      rw [← map_restored_unquote hbody]
      exact singleQuotedValue_eq hmark htext
    have hrule : ∀ m ≥ 0, prepareRule (evaluation m) c path r
        = .ok (.ready [String.ofList (unquote body)]) r := by
      intro m _
      rw [prepareRule, hkind, hvalue]
      rfl
    exact ⟨_, (prepares_of_rule hrule).mono (by omega), yields_ready.mono (by omega)⟩
  | @template n values hkind hpieces =>
    rintro c rfl hplaced
    have hopens : opensScope c.node = false := by
      rw [opensScope, hkind]
      rfl
    obtain ⟨parts, hparts, texts, htexts, heq⟩ := stringParts_of_pieces hkind hpieces
      fun child hchild value => hreads child value (hplaced.child hopens hchild)
    obtain ⟨prepared, hprepared, hyields⟩ := mapM_prepare hdepth htexts
    have hkind : c.kind = .encapsedString := hkind
    have hrule : ∀ m ≥ depth, prepareRule (evaluation m) c path r
        = .ok (.concat prepared c path) r := by
      intro m hm
      rw [prepareRule, hkind]
      show prepareString (evaluation m) c path r = _
      rw [prepareString, hparts]
      exact bind_of_ok (hprepared m hm)
    have hsize := Node.size_eq c.node
    refine ⟨_, (prepares_of_rule hrule).mono (by omega), ?_⟩
    rw [← heq]
    exact (yields_concat hmax c path hyields).mono (by omega)
  | @read n value hkind hnamed hlookup =>
    rintro c rfl hplaced
    obtain ⟨s, hprepares, hyields⟩ := hreads c value hplaced hkind hnamed hlookup
    exact ⟨s, hprepares.mono (by omega), hyields.mono (by omega)⟩
  | @parenthesized n inner value hkind hinner _ ih =>
    rintro c rfl hplaced
    have hopens : opensScope c.node = false := by
      rw [opensScope, hkind]
      rfl
    obtain ⟨child, hchild, hlast, hnode⟩ := exists_getLast?_parts hinner
    obtain ⟨s, hprepares, hyields⟩ := ih child hnode (hplaced.child hopens hchild)
    have hkind : c.kind = .parenthesizedExpression := hkind
    have hrule : ∀ m ≥ depth + inner.size, prepareRule (evaluation m) c path r = .ok s r := by
      intro m hm
      simp only [prepareRule, hkind, prepareInner, hlast]
      exact hprepares m hm
    have hsize : inner.size < c.node.size := by
      rw [← hnode]
      exact Node.size_lt_of_mem (mem_children hchild).2.1
    exact ⟨s, (prepares_of_rule hrule).mono (by omega), hyields.mono (by omega)⟩
  | @concat n operator left right a b hkind hoperator hdot hleft hright _ _ ihleft ihright =>
    rintro c rfl hplaced
    have hopens : opensScope c.node = false := by
      rw [opensScope, hkind]
      rfl
    have hsize := Node.size_add_size_lt hleft hright (by decide)
    obtain ⟨first, hfirst, hleft, hfirstNode⟩ := exists_inRole? hleft
    obtain ⟨second, hsecond, hright, hsecondNode⟩ := exists_inRole? hright
    obtain ⟨mark, _, hoperator, hmark⟩ := exists_inRole? hoperator
    obtain ⟨s, hs, ha⟩ := ihleft first hfirstNode (hplaced.child hopens hfirst)
    obtain ⟨t, ht, hb⟩ := ihright second hsecondNode (hplaced.child hopens hsecond)
    have hkind : c.kind = .binaryExpression := hkind
    have htext : operatorText c = "." := by
      rw [operatorText, hoperator]
      show mark.node.text = "."
      rw [hmark, hdot]
    have hrule : ∀ m ≥ depth + left.size + right.size, prepareRule (evaluation m) c path r
        = .ok (.concat [s, t] c path) r := by
      intro m hm
      simp only [prepareRule, hkind, prepareBinary, htext, run_bind, run_pure,
        prepareRole_of_prepares hleft hs (show depth + left.size ≤ m by omega),
        prepareRole_of_prepares hright ht (show depth + right.size ≤ m by omega)]
    refine ⟨_, (prepares_of_rule hrule).mono (by omega), ?_⟩
    have hjoined : joinWith "" [a, b] = a ++ b := by simp [joinWith]
    rw [← hjoined]
    refine (yields_concat hmax c path (.cons (ha.mono ?_) (.cons (hb.mono ?_) .nil))).mono
      (show depth + left.size + right.size + 1 ≤ depth + c.node.size by omega)
    · omega
    · omega

end Expressions

end QueryAudit.StraightLine
