/-
  QueryAudit.Proofs.Taint.Functions — what built-in functions do to a mark

  A built-in function is applied to the text that stands for an unknown value, mark and all. Small
  letters leave no mark; joining puts texts around it, so it is found when it is found between them.

  Main results: `taintOf_lower`, `taintOf_lower_first`, `taintOf_of_starts`, `call_tainted_iff`.
-/

import QueryAudit.Proofs.Taint.Marks
import QueryAudit.Proofs.Text.Lowering
import QueryAudit.Query.Check

namespace QueryAudit.Text

variable {d c : Char}

/-! ## Small letters. -/

/-- Whether a code point is one of the capital letters of ASCII. -/
def isCapitalCode (n : Nat) : Bool := 65 ≤ n && n ≤ 90

theorem not_capital_lowerChar (h : d ∈ lowerChar c) : isCapitalCode d.toNat = false := by
  have hpassed : Passed (List.range' 65 26) := by decide +kernel
  have hplain : ∀ n : Fin 128, (Char.ofNat n).toLower.toNat ∉ List.range' 65 26 := by decide
  have hd := hpassed.notMem_of_mem_lowerChar (fun hc => by simpa using hplain ⟨c.toNat, hc⟩)
    (fun hc => by rw [List.mem_range'_1]; omega) h
  rw [List.mem_range'_1] at hd
  simp only [isCapitalCode, Bool.and_eq_false_iff, decide_eq_false_iff_not]
  omega

theorem not_capital_lowerFrom {cs : List Char} :
    ∀ before, d ∈ lowerFrom before cs → isCapitalCode d.toNat = false := by
  induction cs with
  | nil =>
    intro before h
    cases h
  | cons c cs ih =>
    intro before h
    unfold lowerFrom at h
    split at h
    · rcases List.mem_cons.mp h with rfl | h
      · split <;> decide
      · exact ih _ h
    · rcases List.mem_append.mp h with h | h
      · exact not_capital_lowerChar h
      · exact ih _ h

end QueryAudit.Text

namespace QueryAudit.Sample

open Intrinsic Text

variable {args : List Argument} {cs : List Char} {kind : Taint} {name path v : String}
  {node : Php.Cursor}

variable {payload text glue : String} {after before : List String} {c : Char}
  {rest word : List Char} {r r' : Run}

/-! ## Marks at the start of a text. -/

theorem markAt?_chars : markAt? (kind.chars ++ rest) = some kind := by
  have hsome : (markAt? (kind.chars ++ rest)).isSome = true :=
    markAt?_isSome_iff.mpr ⟨kind, rest, rfl⟩
  obtain ⟨found, hfound⟩ := Option.isSome_iff_exists.mp hsome
  -- the word before the first colon tells the kind
  have hstart := List.find?_some hfound
  rw [toList_word_colons] at hstart
  obtain ⟨more, hmore⟩ := (startsWith_iff _).mp hstart
  have hword : kind.word.toList = found.word.toList := by
    have hcolons : found.chars ++ more = found.word.toList ++ ':' :: ':' :: more := by
      rw [Taint.chars, List.append_assoc]
      rfl
    exact word_eq_of_append colon_notMem_word (hmore.symm.trans hcolons)
  have hkind : found = kind := by
    revert hword
    cases kind <;> cases found <;> decide
  rw [hfound, hkind]

theorem taintOf_of_starts (h : text.toList = kind.chars ++ rest) : taintOf text = some kind := by
  rw [taintOf, h]
  cases hcs : kind.chars ++ rest with
  | nil => exact absurd (List.append_eq_nil_iff.mp hcs).1 chars_ne_nil
  | cons c cs =>
    rw [firstMark?, ← hcs]
    simp only [Bool.false_eq_true, if_false, markAt?_chars]

theorem capital_head_chars : ∃ c more, kind.chars = c :: more ∧ isCapitalCode c.toNat = true := by
  cases kind <;> exact ⟨_, _, rfl, by decide⟩

theorem taintOf_lower : taintOf (lower text) = none := by
  rw [← Option.not_isSome_iff_eq_none, taintOf_isSome_iff, lower, String.toList_ofList]
  rintro ⟨before, kind, rest, h, _⟩
  obtain ⟨c, more, hchars, hc⟩ := capital_head_chars
  have hmem : c ∈ lowerFrom [] text.toList := by
    rw [h, hchars]
    simp
  rw [not_capital_lowerFrom _ hmem] at hc
  cases hc

/-! ## One text. -/

theorem upperChar_of_mem_chars : kind.chars.flatMap upperChar = kind.chars := by
  cases kind <;> decide

theorem toList_upper_tainted :
    (upper (tainted kind payload)).toList = kind.chars ++ (upper payload).toList := by
  rw [upper, upper, String.toList_ofList, String.toList_ofList, toList_tainted,
    List.flatMap_append, upperChar_of_mem_chars]

theorem changeFirst_toList (change : String → String) (h : text.toList = c :: cs) :
    (changeFirst change text).toList = (change (String.ofList [c])).toList ++ cs := by
  rw [changeFirst, h, String.toList_append, List.take_succ_cons, List.take_zero,
    List.drop_succ_cons, List.drop_zero, String.toList_ofList]

theorem toList_changeFirst_upper :
    (changeFirst upper (tainted kind payload)).toList = kind.chars ++ payload.toList := by
  have hcs := toList_tainted kind payload
  obtain ⟨c, more, hchars, hc⟩ : ∃ c more, kind.chars = c :: more
      ∧ (upper (String.ofList [c])).toList = [c] := by
    cases kind <;> exact ⟨_, _, rfl, by decide +kernel⟩
  rw [hchars] at hcs
  rw [changeFirst_toList upper hcs, hc, hchars]
  rfl

theorem toList_addSlashes_tainted :
    (addSlashes (tainted kind payload)).toList = kind.chars ++ (addSlashes payload).toList := by
  have hchars : kind.chars.flatMap (fun c =>
      if c = '\x00' then ['\\', '0']
      else if c = '\'' || c = '"' || c = '\\' then ['\\', c] else [c]) = kind.chars := by
    cases kind <;> decide
  rw [addSlashes, addSlashes, String.toList_ofList, String.toList_ofList, toList_tainted,
    List.flatMap_append, hchars]

theorem not_trimmed_of_mem_chars : ∀ c ∈ kind.chars, trimmedByDefault.contains c = false := by
  have hall : kind.chars.all (fun c => !trimmedByDefault.contains c) = true := by
    cases kind <;> decide
  simpa using hall

theorem dropWhile_append_of_not_trimmed
    (h : ∀ c ∈ cs, trimmedByDefault.contains c = false) (hne : cs ≠ []) (rest : List Char) :
    (cs ++ rest).dropWhile trimmedByDefault.contains = cs ++ rest := by
  cases cs with
  | nil => exact absurd rfl hne
  | cons c cs =>
      have hc := h c List.mem_cons_self
      rw [List.cons_append, List.dropWhile_cons_of_neg (by rw [hc]; decide)]

theorem trimStart_tainted :
    (trimStart trimmedByDefault.contains (tainted kind payload)).toList
      = kind.chars ++ payload.toList := by
  rw [trimStart, String.toList_ofList, toList_tainted,
    dropWhile_append_of_not_trimmed not_trimmed_of_mem_chars chars_ne_nil]

theorem trimEnd_tainted : ∃ kept,
    (trimEnd trimmedByDefault.contains (tainted kind payload)).toList = kind.chars ++ kept := by
  rw [trimEnd, String.toList_ofList, toList_tainted, List.reverse_append, List.dropWhile_append]
  split
  · -- the payload is trimmed away, and the mark stays
    have hmark : ∀ c ∈ kind.chars.reverse, trimmedByDefault.contains c = false := fun c hc =>
      not_trimmed_of_mem_chars c (List.mem_reverse.mp hc)
    have hkept := dropWhile_append_of_not_trimmed hmark
      (fun hnil => chars_ne_nil (List.reverse_eq_nil_iff.mp hnil)) []
    rw [List.append_nil] at hkept
    exact ⟨[], by rw [hkept, List.reverse_reverse, List.append_nil]⟩
  · exact ⟨_, by rw [List.reverse_append, List.reverse_reverse]⟩

theorem trimBoth_tainted : ∃ kept,
    (trimBoth trimmedByDefault.contains (tainted kind payload)).toList = kind.chars ++ kept := by
  have hstart : (tainted kind payload).toList.dropWhile trimmedByDefault.contains
      = (tainted kind payload).toList := by
    rw [toList_tainted, dropWhile_append_of_not_trimmed not_trimmed_of_mem_chars chars_ne_nil]
  obtain ⟨kept, hkept⟩ := trimEnd_tainted
  refine ⟨kept, ?_⟩
  rw [trimBoth, trimList, hstart]
  exact hkept

theorem markAt?_of_not_capital (h : isCapitalCode c.toNat = false) : markAt? (c :: cs) = none := by
  rw [← Option.not_isSome_iff_eq_none, markAt?_isSome_iff]
  rintro ⟨kind, rest, hcs⟩
  obtain ⟨d, more, hchars, hd⟩ := capital_head_chars
  rw [hchars, List.cons_append, List.cons.injEq] at hcs
  rw [← hcs.1, h] at hd
  cases hd

theorem firstMark?_word (h : ∀ c ∈ word, isPlainWordChar c = true) (rest : List Char) :
    firstMark? true (word ++ ':' :: rest) = firstMark? false rest := by
  induction word with
  | nil => rfl
  | cons c word ih =>
      show firstMark? (isPlainWordChar c) (word ++ ':' :: rest) = firstMark? false rest
      rw [h c List.mem_cons_self]
      exact ih fun d hd => h d (List.mem_cons_of_mem c hd)

theorem lower_head_word : ∃ c more, kind.word.toList = c :: more
    ∧ (lower (String.ofList [c])).toList = [c.toLower] ∧ isCapitalCode c.toLower.toNat = false
    ∧ isPlainWordChar c.toLower = true := by
  cases kind <;> exact ⟨_, _, rfl, by decide +kernel, by decide, by decide⟩

/-- **A small first letter leaves only the marks of the payload.** -/
theorem taintOf_lower_first :
    taintOf (changeFirst lower (tainted kind payload)) = taintOf payload := by
  obtain ⟨c, more, hword, hlower, hd, hplain⟩ := lower_head_word
  have hcs : (tainted kind payload).toList = c :: (more ++ ':' :: ':' :: payload.toList) := by
    rw [toList_tainted, Taint.chars, hword, List.append_assoc]
    rfl
  have hmore : ∀ x ∈ more, isPlainWordChar x = true := fun x hx =>
    (plain_of_mem_word x (by rw [hword]; exact List.mem_cons_of_mem c hx)).1
  -- the scan passes the word, then the second colon, where no mark starts either
  rw [taintOf, changeFirst_toList lower hcs, hlower, List.singleton_append, firstMark?, markAt?_of_not_capital hd]
  show firstMark? (isPlainWordChar c.toLower) (more ++ ':' :: ':' :: payload.toList) = taintOf payload
  rw [hplain, firstMark?_word hmore, firstMark?, if_neg Bool.false_ne_true]
  rfl

def textFunctions : List String :=
  ["strtolower", "lcfirst", "strtoupper", "ucfirst", "addslashes", "trim", "ltrim", "rtrim"]

def markAfter (name : String) (kind : Taint) (payload : String) : Option Taint :=
  if name = "strtolower" then none
  else if name = "lcfirst" then taintOf payload
  else some kind

theorem call_of_function {f : Function} (h : function? (lower name) = some f) {first : Argument}
    {rest : List Argument} : call name (first :: rest) = f first rest := by
  simp only [call, h]

/-- **What each function of one text does to a mark.** -/
theorem call_textFunction (hname : lower name ∈ textFunctions) :
    ∃ v, call name [.text (tainted kind payload)] = .ok v
      ∧ taintOf v = markAfter (lower name) kind payload := by
  generalize hlow : lower name = low at hname ⊢
  simp only [textFunctions, List.mem_cons, List.not_mem_nil, or_false] at hname
  rcases hname with rfl | rfl | rfl | rfl | rfl | rfl | rfl | rfl
  · exact ⟨_, call_of_function (by rw [hlow]; rfl), taintOf_lower⟩
  · exact ⟨_, call_of_function (by rw [hlow]; rfl), taintOf_lower_first⟩
  · exact ⟨_, call_of_function (by rw [hlow]; rfl), taintOf_of_starts toList_upper_tainted⟩
  · exact ⟨_, call_of_function (by rw [hlow]; rfl), taintOf_of_starts toList_changeFirst_upper⟩
  · exact ⟨_, call_of_function (by rw [hlow]; rfl), taintOf_of_starts toList_addSlashes_tainted⟩
  · obtain ⟨kept, hkept⟩ := trimBoth_tainted
    exact ⟨_, call_of_function (by rw [hlow]; rfl), taintOf_of_starts hkept⟩
  · exact ⟨_, call_of_function (by rw [hlow]; rfl), taintOf_of_starts trimStart_tainted⟩
  · obtain ⟨kept, hkept⟩ := trimEnd_tainted
    exact ⟨_, call_of_function (by rw [hlow]; rfl), taintOf_of_starts hkept⟩

/-! ## Joining. -/

def textBefore (glue : String) (before : List String) : String :=
  joinWith "" (before.map (· ++ glue))

def textAfter (glue : String) (after : List String) : String :=
  joinWith "" (after.map (glue ++ ·))

theorem joinWith_cons (text : String) :
    joinWith glue (text :: after) = text ++ textAfter glue after := by
  induction after generalizing text with
  | nil => simp [joinWith, textAfter]
  | cons next after ih =>
      have hnext := ih next
      unfold joinWith at hnext ⊢
      rw [String.intercalate_cons_cons, hnext, textAfter, textAfter, List.map_cons,
        joinWith_empty_cons, String.append_assoc, String.append_assoc]

theorem joinWith_append_cons :
    joinWith glue (before ++ text :: after)
      = textBefore glue before ++ text ++ textAfter glue after := by
  induction before with
  | nil =>
      rw [List.nil_append, joinWith_cons]
      simp [textBefore, joinWith]
  | cons first before ih =>
      have hne : before ++ text :: after ≠ [] := by simp
      have hcons : joinWith glue (first :: (before ++ text :: after))
          = first ++ glue ++ joinWith glue (before ++ text :: after) :=
        String.intercalate_cons_of_ne_nil hne
      rw [List.cons_append, hcons, ih, textBefore, textBefore, List.map_cons, joinWith_empty_cons]
      simp only [String.append_assoc]

/-- Arguments that ask for a list of texts to be joined with glue. -/
inductive JoinsBy : List Argument → String → List String → Prop where
  | bare (items : List String) : JoinsBy [.list items] "" items
  | glueFirst (glue : String) (items : List String) (more : List Argument) :
      JoinsBy (.text glue :: .list items :: more) glue items
  | glueLast (glue : String) (items : List String) (more : List Argument) :
      JoinsBy (.list items :: .text glue :: more) glue items

def joiningFunctions : List String := ["implode", "join"]

theorem call_joining (hname : lower name ∈ joiningFunctions) {items : List String}
    (h : JoinsBy args glue items) : call name args = .ok (joinWith glue items) := by
  have hjoin : function? (lower name) = some fun first rest => implode (first :: rest) := by
    generalize lower name = low at hname ⊢
    simp only [joiningFunctions, List.mem_cons, List.not_mem_nil, or_false] at hname
    rcases hname with rfl | rfl <;> rfl
  cases h <;> exact call_of_function hjoin

/-- **What joining does to a mark**: it is found exactly when it is found between its neighbours. -/
theorem joined_tainted_iff :
    (taintOf (joinWith glue (before ++ tainted kind payload :: after))).isSome = true
      ↔ SeenBetween (textBefore glue before) kind payload (textAfter glue after) := by
  rw [joinWith_append_cons]
  exact taintOf_between_iff _ _ _ _

/-! ## Samples of calls. -/

def functionName (node : Php.Cursor) : String :=
  ((node.inRole? "function").map fun f => Php.shortClassName f.text).getD ""

/-- A sample of a call of a built-in function with given arguments. -/
inductive SampleOf (name : String) (args : List Argument) : String → Prop where
  | value {v : String} (h : call name args = .ok v) : SampleOf name args v
  | rejected {why : Rejection} (h : call name args = .error (.rejected why)) :
      SampleOf name args (tainted .functionCall (name ++ "::" ++ firstTainted args))

theorem callSample_ok (h : callSample node path name args r = .ok v r') : SampleOf name args v := by
  cases hcall : call name args with
  | ok text =>
      simp only [callSample, hcall] at h
      obtain ⟨rfl, -⟩ := pure_ok_iff.mp h
      exact .value hcall
  | error fault =>
      simp only [callSample, hcall] at h
      cases fault with
      | rejected why =>
          obtain ⟨shown, s, -, h⟩ := bind_ok_iff.mp h
          obtain ⟨-, -, rfl⟩ := bind_pure_ok_iff.mp h
          exact .rejected hcall
      | _ => exact absurd h throw_ne_ok

theorem drawCalls_ok {combos : List (List Argument)} :
    ∀ {wanted allowed : Nat} {r r' : Run} {values : List String},
      drawCalls node path name wanted allowed combos r = .ok values r' →
      ∀ v ∈ values, ∃ args ∈ combos, SampleOf name args v := by
  induction combos with
  | nil =>
      intro wanted allowed r r' values h v hv
      rw [drawCalls] at h
      obtain ⟨rfl, -⟩ := pure_ok_iff.mp h
      cases hv
  | cons args rest ih =>
      intro wanted allowed r r' values h v hv
      match wanted, allowed with
      | 0, _ =>
          obtain ⟨rfl, -⟩ := pure_ok_iff.mp h
          cases hv
      | wanted + 1, 0 =>
          obtain ⟨-, -, rfl⟩ := bind_pure_ok_iff.mp h
          cases hv
      | wanted + 1, allowed + 1 =>
          obtain ⟨first, s, hfirst, h⟩ := bind_ok_iff.mp h
          obtain ⟨others, hothers, rfl⟩ := bind_pure_ok_iff.mp h
          rcases List.mem_cons.mp hv with rfl | hv
          · exact ⟨args, List.mem_cons_self, callSample_ok hfirst⟩
          · obtain ⟨found, hmem, hsample⟩ := ih hothers v hv
            exact ⟨found, List.mem_cons_of_mem args hmem, hsample⟩

/-- Every sample of a call is one for a combination of values of its arguments. -/
theorem drawFunction_ok {e : Evaluation} {wanted : Nat} {drawn : Drawn}
    (hknown : isKnown (functionName node) = true)
    (h : drawFunction e node path wanted r = .ok drawn r') :
    ∃ candidates s, (Php.callArguments node).mapM (argumentCandidates e path) r = .ok candidates s ∧
      ∀ v ∈ drawn.values, ∃ args ∈ product candidates, SampleOf (functionName node) args v := by
  unfold functionName at hknown ⊢
  simp only [drawFunction, drawCall, hknown] at h
  obtain ⟨candidates, s, hcand, h⟩ := bind_ok_iff.mp h
  obtain ⟨n, s', -, h⟩ := bind_ok_iff.mp h
  obtain ⟨values, hvalues, rfl⟩ := bind_pure_ok_iff.mp h
  refine ⟨candidates, s, hcand, ?_⟩
  intro v hv
  obtain ⟨args, hargs, hsample⟩ := drawCalls_ok hvalues v hv
  exact ⟨args, mem_product_of_mem_firstProducts _ hargs, hsample⟩

theorem isKnown_of_mem (h : lower name ∈ textFunctions ++ joiningFunctions) :
    isKnown name = true := by
  rw [isKnown]
  generalize lower name = low at h ⊢
  simp only [textFunctions, joiningFunctions, List.cons_append, List.nil_append, List.mem_cons,
    List.not_mem_nil, or_false] at h
  rcases h with rfl | rfl | rfl | rfl | rfl | rfl | rfl | rfl | rfl | rfl <;> rfl

theorem SampleOf.eq_value {w : String} (h : SampleOf name args v)
    (hcall : call name args = .ok w) : v = w := by
  cases h with
  | value h => exact Except.ok.inj (h.symm.trans hcall)
  | rejected h => cases h.symm.trans hcall

theorem takeSql_of_tainted (h : taintOf v = some kind)
    (site : Query.Site) (db : String) (reached : Query.Reached) :
    Query.takeSql site db v reached = (do site.warnInjection kind v; return reached) := by
  simp only [Query.takeSql, h]

/-- **What built-in functions do to marks.** A function of one text keeps a mark, except that small
letters leave none and a small first letter only those of the payload; a list joined with glue is
tainted exactly when the mark of an element is found between what joining puts around it. So it is
with every sample of a call. -/
theorem call_tainted_iff (name : String) :
    (∀ kind payload, lower name ∈ textFunctions →
      ∃ v, call name [.text (tainted kind payload)] = .ok v
        ∧ taintOf v = markAfter (lower name) kind payload) ∧
    (∀ args glue before kind payload after, lower name ∈ joiningFunctions →
      JoinsBy args glue (before ++ tainted kind payload :: after) →
      ∃ v, call name args = .ok v ∧ ((taintOf v).isSome = true
        ↔ SeenBetween (textBefore glue before) kind payload (textAfter glue after))) ∧
    ∀ e node path wanted r drawn r', functionName node = name →
      lower name ∈ textFunctions ++ joiningFunctions →
      drawFunction e node path wanted r = .ok drawn r' →
      ∃ candidates s,
        (Php.callArguments node).mapM (argumentCandidates e path) r = .ok candidates s ∧
        ∀ v ∈ drawn.values, ∃ args ∈ product candidates,
          (∀ kind payload, lower name ∈ textFunctions →
            args = [.text (tainted kind payload)] →
            taintOf v = markAfter (lower name) kind payload) ∧
          (∀ glue before kind payload after, lower name ∈ joiningFunctions →
            JoinsBy args glue (before ++ tainted kind payload :: after) →
            ((taintOf v).isSome = true
              ↔ SeenBetween (textBefore glue before) kind payload (textAfter glue after))) ∧
          ∀ kind, taintOf v = some kind → ∀ site db reached,
            Query.takeSql site db v reached
              = (do Query.Site.warnInjection site kind v; return reached) := by
  refine ⟨fun kind payload hname => call_textFunction hname, ?_, ?_⟩
  · intro args glue before kind payload after hname hjoins
    exact ⟨_, call_joining hname hjoins, joined_tainted_iff⟩
  rintro e node path wanted r drawn r' rfl hname h
  obtain ⟨candidates, s, hcand, hvalues⟩ := drawFunction_ok (isKnown_of_mem hname) h
  refine ⟨candidates, s, hcand, ?_⟩
  intro v hv
  obtain ⟨args, hargs, hsample⟩ := hvalues v hv
  refine ⟨args, hargs, ?_, ?_, fun kind hkind => takeSql_of_tainted hkind⟩
  · rintro kind payload htext rfl
    obtain ⟨w, hcall, hw⟩ := call_textFunction htext
    rw [hsample.eq_value hcall, hw]
  · intro glue before kind payload after hjoining hjoins
    rw [hsample.eq_value (call_joining hjoining hjoins)]
    exact joined_tainted_iff

/-- The call of a function with one argument, a variable whose name is not known. -/
def callOnVariable (function argument : String) : Php.Cursor :=
  let leaf (kind : Php.Kind) (role : Option String) (text : String) (below : List Php.Node) :=
    Php.Node.mk kind true role default text below
  .root 0 (leaf .functionCallExpression none "" [
    leaf .name (some "function") function [],
    leaf .arguments (some "arguments") "" [
      leaf .argument none "" [leaf .dynamicVariableName none argument []]]])

/-- A variable in capital letters, trimmed, and joined behind a text: its mark stays in the first
two, and in the third as the glue ends in a blank. -/
theorem call_tainted_iff_variable :
    (∃ v, call "StrToUpper" [.text (tainted .param "$x")] = .ok v
      ∧ taintOf v = markAfter (lower "StrToUpper") .param "$x") ∧
    (∃ v, call "join" [.text ", ", .list ["a", tainted .param "$x", "b"]] = .ok v
      ∧ ((taintOf v).isSome = true
        ↔ SeenBetween (textBefore ", " ["a"]) .param "$x" (textAfter ", " ["b"]))) ∧
    ∃ drawn r', drawFunction (evaluation 3) (callOnVariable "trim" "$$x") "a.php" 5
        { root := ".", disk := { base := "/" } } = .ok drawn r'
      ∧ drawn.values = [tainted .property "$$x"]
      ∧ ∀ v ∈ drawn.values, ∀ kind, taintOf v = some kind → ∀ site db reached,
          Query.takeSql site db v reached
            = (do Query.Site.warnInjection site kind v; return reached) := by
  refine ⟨(call_tainted_iff "StrToUpper").1 _ _ (by decide +kernel),
    (call_tainted_iff "join").2.1 _ ", " ["a"] _ _ ["b"] (by decide +kernel) (.glueFirst _ _ _),
    _, _, rfl, by decide +kernel, ?_⟩
  intro v hv kind hkind
  obtain ⟨candidates, s, -, hvalues⟩ := (call_tainted_iff "trim").2.2 (evaluation 3)
    (callOnVariable "trim" "$$x") "a.php" 5 { root := ".", disk := { base := "/" } } _ _
    (by decide +kernel) (by decide +kernel) rfl
  obtain ⟨args, -, -, -, htaken⟩ := hvalues v hv
  exact htaken kind hkind

/-- **Small letters make a mark unreadable**: nothing is found in the small letters of a
parameter. -/
theorem strtolower_clears_param :
    call "strtolower" [.text (tainted .param "$n")] = .ok "param::$n"
      ∧ taintOf "param::$n" = none := by
  have hname : lower "strtolower" = "strtolower" := by decide +kernel
  have hlower : lower (tainted .param "$n") = "param::$n" := by decide +kernel
  rw [← hlower]
  exact ⟨call_of_function (by rw [hname]; rfl), taintOf_lower⟩

end QueryAudit.Sample
