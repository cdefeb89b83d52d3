/-
  QueryAudit.Proofs.StraightLine.Exactness — samples of straight-line code are what it computes

  The pass makes the definitions that running the function gives, and looking them up backwards
  lands on what each variable holds. Escape sequences for bytes above 127 have no value in these
  semantics: what is sampled for such a byte is the character of the same number.

  Main results: `samples_exact`.
-/

import Mathlib.Algebra.Order.BigOperators.Group.List
import Mathlib.Algebra.Order.Group.Nat
import QueryAudit.Proofs.StraightLine.Tracking

namespace QueryAudit.StraightLine

open Php Sample Scope Text Node List

variable {path : String} {r : Run} {tree : Nat}

variable {p : Program} {c : Cursor}

/-! ## A file that was read. -/

/-- A file was read, and nothing more is known of it yet. -/
structure Loaded (r : Run) (path : String) (tree : Nat) (root : Node) : Prop where
  resolve : r.disk.resolve path = path
  source : ∃ s, r.sources.get? path = some s ∧ s.tree = some (tree, root)
  untracked : r.scopes.get? path = none
  kept : path ∉ r.spilled
  inactive : ∀ mark ∈ r.active, mark.1 ≠ path

theorem treeSize_le {s : Source} (hs : r.sources.get? path = some s) : s.treeSize ≤ r.treeSize := by
  rw [Run.treeSize, ← foldl_map, ← sum_eq_foldl]
  exact le_sum_of_mem (mem_map_of_mem (Catalog.mem_values_of_get? hs))

theorem size_le_evaluationDepth {s : Source} {root : Node}
    (hs : r.sources.get? path = some s) (htree : s.tree = some (tree, root)) :
    root.size ≤ evaluationDepth r := by
  have hsize : root.size ≤ r.treeSize := by
    have hle := treeSize_le hs
    rw [Source.treeSize, htree] at hle
    exact hle
  rw [evaluationDepth]
  omega

theorem log_ok (message : String) (r : Run) :
    ∃ lines, Audit.log message r = .ok ⟨⟩ { r with log := lines } := by
  simp only [Audit.log, run_bind, run_get]
  split
  · exact ⟨_, rfl⟩
  · exact ⟨r.log, rfl⟩

/-- Looking for the definitions of a file that was read makes them known, and warns about nothing
when the pass reports nothing. -/
theorem Loaded.scopesOf {root : Node} {scopes : FileScopes}
    (h : Loaded r path tree root) (hsamples : 1 ≤ r.settings.maxSamples)
    (hrun : Tracker.run (Audit.callNames r.settings) path (.root tree root) = (scopes, [])) :
    ∃ r', Audit.scopesOf path r = .ok scopes r' ∧ Ready r' path tree scopes
      ∧ r'.active = r.active ∧ r'.diagnostics = r.diagnostics ∧ root.size ≤ evaluationDepth r' := by
  obtain ⟨s, hs, htree⟩ := h.source
  obtain ⟨lines, hlog⟩ := log_ok ("tracking scopes in " ++ Path.shownFrom r.root path) r
  have hroot : Audit.rootOf path { r with log := lines } = .ok (.root tree root) { r with log := lines } := by
    simp only [Audit.rootOf, Audit.source, run_bind, run_get, h.resolve, hs, run_pure, htree]
  have hkept : (r.settings.cacheDir.isSome && r.spilled.contains path) = false := by
    simp [h.kept]
  have hsource : (r.sources.modify path fun s => { s with linked := s.tree.map Prod.fst }).get? path
      = some { s with linked := some tree } := by
    rw [Catalog.get?_modify, if_pos rfl, hs, Option.map_some, htree]
    rfl
  refine ⟨{ r with
    log := lines
    sources := r.sources.modify path fun s => { s with linked := s.tree.map Prod.fst }
    scopes := r.scopes.set path scopes }, ?_, ⟨h.resolve, ?_, ⟨_, hsource, rfl⟩, hsamples⟩, rfl, rfl,
    size_le_evaluationDepth hsource htree⟩
  · simp only [Audit.scopesOf, run_bind, run_get, h.resolve, h.untracked, Audit.source, hs, run_pure,
      hkept, Bool.false_eq_true, if_false, Audit.track, Audit.shown, hlog, hroot, hrun, Audit.link,
      run_modify, Audit.replay]
  · show (r.scopes.set path scopes).get? path = _
    rw [Catalog.get?_set, if_pos rfl]

/-! ## The call at the end of the function. -/

/-- A cursor stands in the statement with the call. -/
structure InCall (p : Program) (tree : Nat) (c : Cursor) : Prop where
  placed : Placed tree p.scope (fun n => p.line ≤ n.line) c
  plain : Plain c.node
  size : c.node.size ≤ p.call.size

theorem InCall.child (c : Cursor) (h : InCall p tree c) :
    ∀ child ∈ c.children, InCall p tree child := by
  intro child hchild
  have hmem : child.node ∈ c.node.children := (Cursor.mem_children hchild).2.1
  have hopens := opensScope_of_isPlain (of_all h.plain)
  have hlt := size_lt_of_mem hmem
  exact ⟨h.placed.child hopens hchild, all_of_mem h.plain hmem, Nat.le_trans (Nat.le_of_lt hlt) h.size⟩

theorem inCall_of_below (h : c ∈ Cursor.below tree p.place p.call) : InCall p tree c := by
  refine Cursor.forall_preorder (c := ⟨tree, p.call, p.place⟩) InCall.child
    ⟨⟨rfl, ?_, p.call_below⟩, ?_, ?_⟩ c h
  · refine ⟨[(p.code.length, p.body)], rfl, ?_⟩
    simp [opensScope_of_isPlain p.body_plain]
  · exact p.plain p.call (mem_append_right _ (mem_cons_self ..))
  · exact Nat.le_refl _

theorem inFunction_scope : InFunction p.scope p.name := by
  intro tree
  have hfunction : (⟨tree, p.function, [(p.leading.length, p.root)]⟩ : Cursor).kind
      = .functionDefinition := p.function_kind
  have hroot : (⟨tree, p.root, []⟩ : Cursor).kind = .program := p.root_kind
  simp only [Program.scope, Cursor.climb, closureAbove, hfunction, hroot]
  rfl

theorem Program.size_le (p : Program) : 3 + sizeAll p.code + p.call.size ≤ p.root.size := by
  have hbody : p.body.size = sizeAll (p.code ++ p.call :: p.rest) + 1 := by
    rw [size_eq, p.body_children]
  have hfunction : p.body.size < p.function.size :=
    size_lt_of_mem (by simp [p.function_children])
  have hroot : p.function.size < p.root.size := size_lt_of_mem (by simp [p.root_children])
  rw [sizeAll_append, sizeAll] at hbody
  omega

/-- A sequence with one sample gives one sample to whoever asks for the samples of its node. -/
theorem samples_of_yields {depth : Nat} {value : String} {s : Sequence}
    (hsamples : 1 ≤ r.settings.maxSamples) (hprepares : Prepares r depth c path s)
    (hyields : Yields r depth s value) (hdepth : depth ≤ evaluationDepth r) :
    samples c path r = .ok [value] r := by
  have hprepare : (evaluation (evaluationDepth r)).prepare c path r = .ok s r := hprepares _ hdepth
  have hdistinct : distinct [value] = [value] := by simp [distinct]
  simp only [samples, samplesWith, run_bind, run_get, hprepare,
    takeFrom_of_yields hsamples hyields hdepth, releaseMarks, run_modify, foldl_nil,
    Bool.false_eq_true, if_false, run_pure, hdistinct]

/-! ## A function that appends to a variable. -/

namespace Appending

def mark (text : String) (start row : Nat) (role : Option String) : Node :=
  ⟨.token text, false, role, ⟨start, start + text.length, row, row⟩, text, []⟩

def part (kind : Kind) (role : Option String) (text : String) (start row : Nat)
    (children : List Node) : Node :=
  ⟨kind, true, role, ⟨start, start + text.length, row, row⟩, text, children⟩

def read (name : String) (start row : Nat) (role : Option String) : Node :=
  part .variableName role ("$" ++ name) start row
    [mark "$" start row none, part .name none name (start + 1) row []]

/-- The text of the body: a store, a store that appends to the same variable, and a call. -/
def bodyText : String :=
  "\x7b\n$x = '\\'';\n$x .= \"$p\\t\" . ($x);\n$p->createCommand($x);\n\x7d"

def text : String := "<?php\nfunction f($p) " ++ bodyText

def firstValue : Node :=
  part .string (some "right") "'\\''" 28 2
    [mark "'" 28 2 none, part .escapeSequence none "\\'" 29 2 [], mark "'" 31 2 none]

def firstStore : Node :=
  part .assignmentExpression none "$x = '\\''" 23 2
    [read "x" 23 2 (some "left"), mark "=" 26 2 none, firstValue]

def template : Node :=
  part .encapsedString (some "left") "\"$p\\t\"" 40 3
    [mark "\"" 40 3 none, read "p" 41 3 none, part .escapeSequence none "\\t" 43 3 [],
      mark "\"" 45 3 none]

def parenthesized : Node :=
  part .parenthesizedExpression (some "right") "($x)" 49 3
    [mark "(" 49 3 none, read "x" 50 3 none, mark ")" 52 3 none]

def secondValue : Node :=
  part .binaryExpression (some "right") "\"$p\\t\" . ($x)" 40 3
    [template, mark "." 47 3 (some "operator"), parenthesized]

def secondStore : Node :=
  part .augmentedAssignmentExpression none "$x .= \"$p\\t\" . ($x)" 34 3
    [read "x" 34 3 (some "left"), mark ".=" 37 3 (some "operator"), secondValue]

def argument : Node := read "x" 73 4 none

def site : Node :=
  part .memberCallExpression none "$p->createCommand($x)" 55 4
    [read "p" 55 4 (some "object"), mark "->" 57 4 none,
      part .name (some "name") "createCommand" 59 4 [],
      part .arguments (some "arguments") "($x)" 72 4
        [mark "(" 72 4 none, part .argument none "$x" 73 4 [argument], mark ")" 75 4 none]]

def first : Node := part .expressionStatement none "$x = '\\'';" 23 2 [firstStore, mark ";" 32 2 none]

def second : Node :=
  part .expressionStatement none "$x .= \"$p\\t\" . ($x);" 34 3 [secondStore, mark ";" 53 3 none]

def call : Node := part .expressionStatement none "$p->createCommand($x);" 55 4 [site, mark ";" 76 4 none]

def body : Node :=
  ⟨.compoundStatement, true, some "body", ⟨21, 79, 1, 5⟩, bodyText,
    [mark "\x7b" 21 1 none, first, second, call, mark "\x7d" 78 5 none]⟩

def heading : List Node :=
  [mark "function" 6 1 none, part .name (some "name") "f" 15 1 [],
    part .formalParameters (some "parameters") "($p)" 16 1
      [mark "(" 16 1 none, part .simpleParameter none "$p" 17 1 [read "p" 17 1 (some "name")],
        mark ")" 19 1 none]]

def function : Node :=
  ⟨.functionDefinition, true, none, ⟨6, 79, 1, 5⟩, "function f($p) " ++ bodyText, heading ++ [body]⟩

def root : Node :=
  ⟨.program, true, none, ⟨0, 79, 0, 5⟩, text, [part .phpTag none "<?php" 0 0 [], function]⟩

theorem parse_text : parse text.toUTF8 = root := by decide +kernel

def memory : Memory :=
  [("$x", "'PARAM::$p\t'"), ("$x", "'"), ("$p", "PARAM::$p")]

theorem firstValue_evaluates : Evaluates (initialMemory ["$p"]) firstValue "'" := by
  have h : Evaluates (initialMemory ["$p"]) firstValue (String.ofList (unquote ['\\', '\''])) :=
    .quoted rfl (mem_cons_self ..) (by decide) (by decide)
  exact h

theorem secondValue_evaluates :
    Evaluates (("$x", "'") :: initialMemory ["$p"]) secondValue ("PARAM::$p\t" ++ "'") := by
  have htab : EscapeValue "\\t".toList '\t' := by
    have h : EscapeValue ['\\', 't'] '\t' := .simple (by decide)
    exact h
  have hpieces : Forall₂ (PieceValue (("$x", "'") :: initialMemory ["$p"])) template.children
      ["", "PARAM::$p", String.singleton '\t', ""] :=
    .cons (.mark rfl rfl) (.cons (.read rfl rfl (by decide)) (.cons (.escape rfl rfl htab)
      (.cons (.mark rfl rfl) .nil)))
  have htemplate := Evaluates.template (n := template) rfl hpieces
  have hinner : Evaluates (("$x", "'") :: initialMemory ["$p"]) parenthesized "'" :=
    .parenthesized rfl rfl (.read rfl rfl (by decide))
  have hjoined : joinWith "" ["", "PARAM::$p", String.singleton '\t', ""] = "PARAM::$p\t" := by decide
  exact .concat rfl rfl rfl rfl rfl htemplate hinner

theorem first_stores : Stores first firstStore false "$x" firstValue where
  statement_named := rfl
  statement_plain := rfl
  statement_children := ⟨[], [mark ";" 32 2 none], rfl, by unfold Plain; decide +kernel⟩
  named := rfl
  kind := rfl
  operator := nofun
  left := ⟨read "x" 23 2 (some "left"), rfl, rfl, by decide⟩
  right := rfl
  plain := by unfold Plain; decide +kernel

theorem second_stores : Stores second secondStore true "$x" secondValue where
  statement_named := rfl
  statement_plain := rfl
  statement_children := ⟨[], [mark ";" 53 3 none], rfl, by unfold Plain; decide +kernel⟩
  named := rfl
  kind := rfl
  operator := fun _ => ⟨mark ".=" 37 3 (some "operator"), rfl, rfl⟩
  left := ⟨read "x" 34 3 (some "left"), rfl, rfl, by decide⟩
  right := rfl
  plain := by unfold Plain; decide +kernel

theorem code_runs :
    Runs (initialMemory ["$p"]) 2 [mark "\x7b" 21 1 none, first, second] memory 5 := by
  have hmemory : ("$x", stored (("$x", "'") :: initialMemory ["$p"]) true "$x" ("PARAM::$p\t" ++ "'"))
      :: ("$x", "'") :: initialMemory ["$p"] = memory := by decide
  have hdone : Runs (("$x", stored (("$x", "'") :: initialMemory ["$p"]) true "$x"
      ("PARAM::$p\t" ++ "'")) :: ("$x", "'") :: initialMemory ["$p"]) 5 [] memory 5 := by
    exact .done
  have hsecond : Runs (("$x", "'") :: initialMemory ["$p"]) 4 [second] memory 5 := by
    refine .store second_stores (by decide) ?_ (by decide +kernel) secondValue_evaluates hdone
    decide
  have hfirst : Runs (initialMemory ["$p"]) 2 [first, second] memory 5 := by
    refine .store first_stores (by decide) ?_ (by decide +kernel) firstValue_evaluates hsecond
    decide
  exact .skip (by unfold Plain; decide) hfirst

def program : Program where
  root := root
  leading := [part .phpTag none "<?php" 0 0 []]
  function := function
  trailing := []
  heading := heading
  body := body
  ending := []
  code := [mark "\x7b" 21 1 none, first, second]
  call := call
  rest := [mark "\x7d" 78 5 none]
  parameters := ["$p"]
  memory := memory
  line := 5
  root_kind := rfl
  root_children := rfl
  function_kind := rfl
  function_named := rfl
  function_children := rfl
  body_named := rfl
  body_plain := rfl
  body_children := rfl
  call_named := rfl
  call_below := by decide
  plain := by
    unfold Plain
    decide +kernel
  declares := by decide +kernel
  runs := code_runs

def run : Run :=
  { root := "/p"
    disk := ({ base := "/p" } : Disk).write "a.php" text.toUTF8
    sources := ⟨[("/p/a.php", { content := some text.toUTF8, tree := some (0, parse text.toUTF8) })]⟩
    nextTree := 1 }

def siteCursor : Cursor := ⟨0, site, (0, call) :: program.place⟩

def argumentCursor : Cursor :=
  ⟨0, argument, (0, part .argument none "$x" 73 4 [argument]) :: (1, part .arguments (some "arguments")
    "($x)" 72 4 [mark "(" 72 4 none, part .argument none "$x" 73 4 [argument], mark ")" 75 4 none])
    :: (3, site) :: (0, call) :: program.place⟩

theorem loaded : Loaded run "/p/a.php" 0 program.root := by
  refine ⟨by decide, ⟨_, rfl, ?_⟩, rfl, nofun, nofun⟩
  show some (0, parse text.toUTF8) = some (0, root)
  rw [parse_text]

theorem site_mem : siteCursor ∈ Cursor.below 0 program.place program.call :=
  Mem.tail _ (Mem.head _)

end Appending

/-! ## Exactness. -/

/-- **Samples of straight-line code are exact.** The argument of a call at the end of a
straight-line function has one sample, the value it has when the function is run; and no finding is
recorded on the way. -/
theorem samples_exact (p : Program) {r : Run} {path : String} {tree : Nat}
    (hloaded : Loaded r path tree p.root) (hsamples : 1 ≤ r.settings.maxSamples) {site arg : Cursor}
    (hsite : site ∈ Cursor.below tree p.place p.call) (harg : firstArgument? site = some arg)
    {value : String} (hvalue : Evaluates p.memory arg.node value) :
    ∃ r', (do let _ ← Audit.scopesOf path; samples arg path : Audit (List String)) r = .ok [value] r'
      ∧ r'.diagnostics = r.diagnostics := by
  obtain ⟨scopes, steps, depth, hrun, hfiled, hdefined, hmemory, hdepth⟩ :=
    run_tracks p (Audit.callNames r.settings) path tree
  obtain ⟨r', hscopes, hready, hactive, hdiagnostics, hsize⟩ := hloaded.scopesOf hsamples hrun
  have hinactive : ∀ step ∈ steps, markOf step.1 ∉ r'.active := by
    intro step hstep hmem
    rw [hactive] at hmem
    exact hloaded.inactive _ hmem (hdefined.bounds step hstep).1
  have hreads := hdefined.reads hready inFunction_scope hfiled hinactive
  have hcall : InCall p tree arg :=
    Cursor.forall_callArguments InCall.child (inCall_of_below hsite) arg (List.mem_of_head? harg)
  rw [← hmemory] at hvalue
  obtain ⟨s, hprepares, hyields⟩ := expression_yields hready.samples (Nat.le_add_left 1 depth) hreads
    hvalue arg rfl hcall.placed
  refine ⟨r', ?_, hdiagnostics⟩
  rw [bind_of_ok hscopes]
  refine samples_of_yields hready.samples hprepares hyields ?_
  have hroom := p.size_le
  have harg := hcall.size
  omega

open Appending in
/-- The argument of the call gets the value that was appended to, with the parameter in it. -/
theorem samples_exact_appending :
    ∃ r', (do let _ ← Audit.scopesOf "/p/a.php"; samples argumentCursor "/p/a.php" :
        Audit (List String)) Appending.run = .ok ["'PARAM::$p\t'"] r'
      ∧ r'.diagnostics = {} :=
  samples_exact program loaded (by decide) site_mem rfl (.read rfl rfl (by decide))

/-- The literal `"\xC3\xA9"`, whose two bytes are those of one letter. -/
def twoBytes : Node :=
  ⟨.encapsedString, true, none, ⟨0, 10, 0, 0⟩, "\"\\xC3\\xA9\"",
    [Appending.mark "\"" 0 0 none, Appending.part .escapeSequence none "\\xC3" 1 0 [],
      Appending.part .escapeSequence none "\\xA9" 5 0 [], Appending.mark "\"" 9 0 none]⟩

/-- Escape sequences for bytes above 127 give characters of the same numbers, not the bytes. -/
theorem literalValue?_twoBytes :
    (literalValue? (.root 0 twoBytes)).toOption.join.map (·.toUTF8.toList)
        = some [0xC3, 0x83, 0xC2, 0xA9]
      ∧ "é".toUTF8.toList = [0xC3, 0xA9] := by
  decide +kernel

end QueryAudit.StraightLine
