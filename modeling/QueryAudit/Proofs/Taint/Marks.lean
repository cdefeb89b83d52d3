/-
  QueryAudit.Proofs.Taint.Marks — where marks stand in a text

  A mark is a word for the kind of an unknown value with two colons after it. `taintOf` looks for
  one that no word character stands before. This module says declaratively what it finds, and what
  becomes of a mark when other text is put around it.

  Main results: `firstMark?_isSome_iff`, `marked_append_mark_iff`, `concat_tainted_iff`.
-/

import QueryAudit.Proofs.Audit.Outcome
import QueryAudit.Proofs.Sample.Products
import QueryAudit.Proofs.Text.Pieces
import QueryAudit.Sample.Evaluator

namespace QueryAudit.Sample

open Text List Taint

variable {overlap rest rest' start : List Char}

variable {kind inner outer : Taint} {inside : Bool} {cs : List Char} {c : Char}

/-! ## Marks as texts. -/

def Taint.chars (kind : Taint) : List Char := kind.word.toList ++ [':', ':']

theorem toList_word_colons : (kind.word ++ "::").toList = kind.chars := by
  rw [String.toList_append]
  rfl

theorem toList_tainted (kind : Taint) (payload : String) :
    (tainted kind payload).toList = kind.chars ++ payload.toList := by
  rw [tainted, String.toList_append, toList_word_colons]

theorem mem_all : kind ∈ Taint.all := by
  cases kind <;> decide

theorem markAt?_isSome_iff : (markAt? cs).isSome = true ↔ ∃ kind rest, cs = chars kind ++ rest := by
  rw [markAt?, find?_isSome]
  constructor
  · rintro ⟨kind, _, h⟩
    rw [toList_word_colons] at h
    obtain ⟨rest, hrest⟩ := (startsWith_iff _).mp h
    exact ⟨kind, rest, hrest.symm⟩
  · rintro ⟨kind, rest, hrest⟩
    refine ⟨kind, mem_all, ?_⟩
    rw [toList_word_colons]
    exact (startsWith_iff _).mpr ⟨rest, hrest.symm⟩

/-! ## Marks at the start of a word. -/

/-- Whether a scan is inside a word after a text, given whether it was inside one before. -/
def insideAfter (inside : Bool) (cs : List Char) : Bool :=
  (cs.getLast?.map isPlainWordChar).getD inside

def endsInWord (text : String) : Bool := insideAfter false text.toList

theorem insideAfter_cons : insideAfter inside (c :: cs) = insideAfter (isPlainWordChar c) cs := by
  rw [insideAfter, insideAfter, getLast?_cons]
  cases cs.getLast? <;> rfl

theorem insideAfter_append (inside : Bool) {a b : List Char} :
    insideAfter inside (a ++ b) = insideAfter (insideAfter inside a) b := by
  induction a generalizing inside with
  | nil => rfl
  | cons c a ih => rw [cons_append, insideAfter_cons, insideAfter_cons, ih]

def Marked (inside : Bool) (cs : List Char) : Prop :=
  ∃ before kind rest, cs = before ++ chars kind ++ rest ∧ insideAfter inside before = false

/-- A mark stands in a text that starts with a character: right there, or later. -/
theorem marked_cons_iff :
    Marked inside (c :: cs) ↔
      (inside = false ∧ ∃ kind rest, c :: cs = chars kind ++ rest)
        ∨ Marked (isPlainWordChar c) cs := by
  constructor
  · rintro ⟨before, kind, rest, h, hb⟩
    cases before with
    | nil => exact .inl ⟨hb, kind, rest, h⟩
    | cons d before =>
      rw [cons_append, cons_append, cons.injEq] at h
      obtain ⟨rfl, h⟩ := h
      rw [insideAfter_cons] at hb
      exact .inr ⟨before, kind, rest, h, hb⟩
  · rintro (⟨hi, kind, rest, h⟩ | ⟨before, kind, rest, h, hb⟩)
    · exact ⟨[], kind, rest, h, hi⟩
    · exact ⟨c :: before, kind, rest, by rw [h]; rfl, by rw [insideAfter_cons]; exact hb⟩

theorem chars_ne_nil : chars kind ≠ [] := by
  simp [chars]

theorem not_marked_nil : ¬ Marked inside [] := by
  rintro ⟨before, kind, rest, h, _⟩
  have hk : chars kind = [] := by
    have := congrArg length h
    simp only [length_nil, length_append] at this
    exact length_eq_zero_iff.mp (by omega)
  exact chars_ne_nil hk

/-- **The scan for a mark finds one exactly when one stands at the start of a word.** -/
theorem firstMark?_isSome_iff :
    ∀ inside : Bool, (firstMark? inside cs).isSome = true ↔ Marked inside cs := by
  induction cs with
  | nil =>
    intro inside
    simp only [firstMark?, Option.isSome_none, Bool.false_eq_true, false_iff]
    exact not_marked_nil
  | cons c cs ih =>
    intro inside
    rw [marked_cons_iff, ← ih, ← markAt?_isSome_iff]
    cases inside with
    | true => simp [firstMark?]
    | false =>
      simp only [firstMark?, true_and]
      cases h : markAt? (c :: cs) with
      | none => simp
      | some kind => simp

theorem taintOf_isSome_iff {sample : String} :
    (taintOf sample).isSome = true ↔ Marked false sample.toList :=
  firstMark?_isSome_iff false

/-! ## A mark with text around it. -/

theorem plain_of_mem_word : ∀ c ∈ kind.word.toList, isPlainWordChar c = true ∧ c ≠ ':' := by
  have hall : kind.word.toList.all (fun c => isPlainWordChar c && c != ':') = true := by
    cases kind <;> decide
  simpa using hall

theorem colon_notMem_word : ':' ∉ kind.word.toList :=
  fun h => (plain_of_mem_word _ h).2 rfl

theorem insideAfter_word_start (h : kind.word.toList = start ++ rest) (hs : start ≠ []) :
    insideAfter inside start = true := by
  rw [insideAfter, getLast?_eq_some_getLast hs]
  have hmem : start.getLast hs ∈ kind.word.toList := by
    rw [h]
    exact mem_append_left _ (getLast_mem hs)
  exact (plain_of_mem_word _ hmem).1

theorem insideAfter_chars : insideAfter inside kind.chars = false := by
  rw [chars, insideAfter_append]
  rfl

theorem word_suffix (h : outer.word.toList = start ++ inner.word.toList) :
    start = [] ∨ (inner = .const ∧ start = "CLASS_".toList) := by
  have hstart : start = outer.word.toList.take
      (outer.word.toList.length - inner.word.toList.length) := by
    rw [h, length_append, Nat.add_sub_cancel, take_left]
  rw [hstart] at h ⊢
  revert h
  cases inner <;> cases outer <;> decide

theorem chars_append_ne_colon {more : List Char} : kind.chars ++ rest ≠ ':' :: more := by
  cases kind <;> simp [chars, word]

/-- Two colons before a mark stand together, since no mark starts with a colon. -/
theorem colons_of_append {e : List Char} (h : ':' :: ':' :: rest' = e ++ (kind.chars ++ rest)) :
    ∃ more, e = ':' :: ':' :: more ∧ rest' = more ++ (kind.chars ++ rest) := by
  match e, h with
  | [], h => exact absurd h.symm chars_append_ne_colon
  | [_], h =>
    simp only [cons_append, cons.injEq] at h
    exact absurd h.2.symm chars_append_ne_colon
  | c :: d :: more, h =>
    simp only [cons_append, cons.injEq] at h
    obtain ⟨rfl, rfl, hrest⟩ := h
    exact ⟨more, rfl, hrest⟩

theorem takeWhile_colon (hs : ':' ∉ start) (rest : List Char) :
    (start ++ ':' :: rest).takeWhile (· ≠ ':') = start := by
  rw [takeWhile_append_of_pos (by
    intro c hc
    exact decide_eq_true (fun h => hs (h ▸ hc)))]
  simp

theorem word_eq_of_append (hs : ':' ∉ start) (h : kind.chars ++ rest = start ++ ':' :: rest') :
    kind.word.toList = start := by
  have h' : kind.word.toList ++ ':' :: ':' :: rest = start ++ ':' :: rest' := by
    rw [← h, chars, append_assoc]
    rfl
  rw [← takeWhile_colon colon_notMem_word (':' :: rest), h', takeWhile_colon hs]

/-- A mark that starts inside a text and reaches over its end: the text ends in the first part of
the word `CLASS_CONST`, and the mark behind it is one of a constant. -/
def JoinsClassConst (kind : Taint) (before : List Char) : Prop :=
  kind = .const ∧ ∃ start, before = start ++ "CLASS_".toList ∧ insideAfter false start = false

/-- A mark that starts before another one lies in the text before, or is made of both. -/
theorem mark_before_mark (h : outer.chars ++ rest' = overlap ++ (kind.chars ++ rest))
    (hover : overlap ≠ []) :
    (∃ more, overlap = outer.chars ++ more) ∨ (kind = .const ∧ overlap = "CLASS_".toList) := by
  rw [chars, append_assoc, append_eq_append_iff] at h
  rcases h with ⟨e, he, hrest⟩ | ⟨e, he, hrest⟩
  · -- the word of the outer mark lies in the text: so do its colons, since no mark starts there
    obtain ⟨more, rfl, -⟩ := colons_of_append hrest
    exact .inl ⟨more, by rw [he, chars, append_assoc]; rfl⟩
  · -- the word of the outer mark reaches into the inner one, and then it ends with its word
    have hcolon : ':' ∉ e := fun hmem => colon_notMem_word (by
      rw [he]; exact mem_append_right _ hmem)
    have hword : kind.word.toList = e := word_eq_of_append hcolon hrest
    rw [← hword] at he
    rcases word_suffix he with hnil | hconst
    · exact absurd hnil hover
    · exact .inr hconst

/-- A mark that starts inside another one starts after its colons. -/
theorem mark_after_mark (h : kind.chars ++ rest = overlap ++ (inner.chars ++ rest'))
    (hover : overlap ≠ []) (hin : insideAfter inside overlap = false) :
    ∃ more, overlap = kind.chars ++ more ∧ rest = more ++ (inner.chars ++ rest') := by
  rw [chars, append_assoc, append_eq_append_iff] at h
  rcases h with ⟨e, he, hrest⟩ | ⟨e, he, _⟩
  · obtain ⟨more, rfl, hmore⟩ := colons_of_append hrest
    exact ⟨more, by rw [he, chars, append_assoc]; rfl, hmore⟩
  · -- every start of a word ends in a word character
    rw [insideAfter_word_start he hover] at hin
    exact absurd hin (by decide)

/-- **A mark in the middle of a text is found exactly when** no word character stands before it,
or there is another mark: before it, made of it and what stands before it, or after it. -/
theorem marked_append_mark_iff {before : List Char} :
    Marked false (before ++ kind.chars ++ rest) ↔
      insideAfter false before = false ∨ Marked false before ∨ JoinsClassConst kind before
        ∨ Marked false rest := by
  constructor
  · rintro ⟨start, found, more, h, hstart⟩
    rw [append_assoc, append_assoc, append_eq_append_iff] at h
    rcases h with ⟨overlap, rfl, h⟩ | ⟨overlap, rfl, h⟩
    · by_cases hover : overlap = []
      · subst hover
        rw [append_nil] at hstart
        exact .inl hstart
      · obtain ⟨after, rfl, hafter⟩ := mark_after_mark h hover
          (by rw [← insideAfter_append]; exact hstart)
        rw [insideAfter_append, insideAfter_append, insideAfter_chars] at hstart
        exact .inr (.inr (.inr ⟨after, found, more, by rw [hafter, append_assoc], hstart⟩))
    · by_cases hover : overlap = []
      · subst hover
        rw [append_nil]
        exact .inl hstart
      · rcases mark_before_mark h hover with ⟨after, rfl⟩ | ⟨hk, rfl⟩
        · exact .inr (.inl ⟨start, found, after, by rw [append_assoc], hstart⟩)
        · exact .inr (.inr (.inl ⟨hk, start, rfl, hstart⟩))
  · rintro (hb | ⟨start, found, more, rfl, hs⟩ | ⟨rfl, start, rfl, hs⟩ | ⟨start, found, more, rfl, hs⟩)
    · exact ⟨before, kind, rest, rfl, hb⟩
    · exact ⟨start, found, more ++ kind.chars ++ rest, by simp only [append_assoc], hs⟩
    · exact ⟨start, .classConst, rest, by simp [chars, word], hs⟩
    · refine ⟨before ++ kind.chars ++ start, found, more, by simp only [append_assoc], ?_⟩
      rw [insideAfter_append, insideAfter_append, insideAfter_chars]
      exact hs

/-! ## Concatenations. -/

/-- Every sample of a concatenation joins one sample of each part. -/
theorem drawConcat_ok {e : Evaluation} {parts : List Sequence} {node : Php.Cursor} {path : String}
    {wanted : Nat} {r r' : Run} {drawn : Drawn}
    (h : drawConcat e parts node path wanted r = .ok drawn r') :
    ∃ lists held s, takeParts e node path parts r = .ok (lists, held) s ∧
      ∀ v ∈ drawn.values, ∃ combo ∈ product lists, v = joinWith "" combo := by
  obtain ⟨⟨lists, held⟩, s, htake, h⟩ := bind_ok_iff.mp h
  obtain ⟨n, s', _, h⟩ := bind_ok_iff.mp h
  -- whichever way the drawing ends, its samples are joined combinations
  have hvalues : drawn.values
      = ((firstProducts (n + 1) lists).take (min n wanted)).map (joinWith "") := by
    revert h
    split
    · split
      · intro h
        obtain ⟨_, _, _, h⟩ := bind_ok_iff.mp h
        obtain ⟨_, _, rfl⟩ := bind_pure_ok_iff.mp h
        rfl
      · intro h
        obtain ⟨_, _, rfl⟩ := bind_pure_ok_iff.mp h
        rfl
    · intro h
      obtain ⟨rfl, _⟩ := pure_ok_iff.mp h
      rfl
  refine ⟨lists, held, s, htake, ?_⟩
  intro v hv
  rw [hvalues, mem_map] at hv
  obtain ⟨combo, hcombo, rfl⟩ := hv
  exact ⟨combo, mem_product_of_mem_firstProducts _ (mem_of_mem_take hcombo), rfl⟩

/-- When a mark with a text before it and one after it is found, or another one made of them. -/
def SeenBetween (left : String) (kind : Taint) (payload right : String) : Prop :=
  endsInWord left = false ∨ (taintOf left).isSome = true
    ∨ (kind = .const ∧ ∃ start, left = start ++ "CLASS_" ∧ endsInWord start = false)
    ∨ (taintOf (payload ++ right)).isSome = true

theorem joinsClassConst_iff {left : String} :
    JoinsClassConst kind left.toList ↔
      kind = .const ∧ ∃ start, left = start ++ "CLASS_" ∧ endsInWord start = false := by
  constructor
  · rintro ⟨hk, start, h, hs⟩
    have hstart : (String.ofList start).toList = start := String.toList_ofList
    refine ⟨hk, String.ofList start, String.toList_inj.mp ?_, ?_⟩
    · rw [h, String.toList_append, hstart]
    · rw [endsInWord, hstart]
      exact hs
  · rintro ⟨hk, start, rfl, hs⟩
    exact ⟨hk, start.toList, String.toList_append, hs⟩

theorem taintOf_between_iff (left : String) (kind : Taint) (payload right : String) :
    (taintOf (left ++ tainted kind payload ++ right)).isSome = true
      ↔ SeenBetween left kind payload right := by
  have htext : (left ++ tainted kind payload ++ right).toList
      = left.toList ++ kind.chars ++ (payload ++ right).toList := by
    simp only [String.toList_append, toList_tainted, append_assoc]
  rw [taintOf_isSome_iff, htext, marked_append_mark_iff, joinsClassConst_iff, SeenBetween,
    taintOf_isSome_iff, taintOf_isSome_iff, endsInWord]

/-- **When marks survive concatenation.** A mark between two texts is found exactly when the text
before it does not end inside a word, or another mark can be found in their place. So it is with
every sample of a concatenation. -/
theorem concat_tainted_iff (e : Evaluation) (parts : List Sequence) (node : Php.Cursor)
    (path : String) (wanted : Nat) (r : Run) :
    (∀ left kind payload right, (taintOf (left ++ tainted kind payload ++ right)).isSome = true
      ↔ SeenBetween left kind payload right) ∧
    ∀ drawn r', drawConcat e parts node path wanted r = .ok drawn r' →
      ∃ lists held s, takeParts e node path parts r = .ok (lists, held) s ∧
        ∀ before marks after, lists = before ++ marks :: after →
          (∀ t ∈ marks, ∃ kind payload, t = tainted kind payload) →
          ∀ v ∈ drawn.values, ∃ left ∈ product before, ∃ right ∈ product after, ∃ kind payload,
            tainted kind payload ∈ marks
            ∧ v = joinWith "" left ++ tainted kind payload ++ joinWith "" right
            ∧ ((taintOf v).isSome = true
                ↔ SeenBetween (joinWith "" left) kind payload (joinWith "" right)) := by
  refine ⟨taintOf_between_iff, ?_⟩
  intro drawn r' h
  obtain ⟨lists, held, s, htake, hvalues⟩ := drawConcat_ok h
  refine ⟨lists, held, s, htake, ?_⟩
  intro before marks after hlists hmarks v hv
  obtain ⟨combo, hcombo, hv⟩ := hvalues v hv
  rw [hlists] at hcombo
  obtain ⟨left, hleft, rest, hrest, rfl⟩ := mem_product_append.mp hcombo
  obtain ⟨t, ht, right, hright, rfl⟩ := mem_product_cons.mp hrest
  obtain ⟨kind, payload, rfl⟩ := hmarks t ht
  have hjoin : v = joinWith "" left ++ tainted kind payload ++ joinWith "" right := by
    rw [hv, joinWith_empty_append, joinWith_empty_cons, String.append_assoc]
  refine ⟨left, hleft, right, hright, kind, payload, ht, hjoin, ?_⟩
  rw [hjoin]
  exact taintOf_between_iff _ _ _ _

/-- A parameter behind two texts, one of which ends inside a word. -/
theorem concat_tainted_iff_table :
    ∃ drawn r', drawConcat (evaluation 1)
        [.ready ["SELECT * FROM tbl_", "SELECT * FROM "], .ready [tainted .param "$t"]]
        default "a.php" 9 { root := ".", disk := { base := "/" } } = .ok drawn r' ∧
      drawn.values.length = 2 ∧
      ∀ v ∈ drawn.values, ∃ left ∈ product [["SELECT * FROM tbl_", "SELECT * FROM "]],
        ∃ right ∈ product [], ∃ kind payload, tainted kind payload ∈ [tainted .param "$t"]
          ∧ v = joinWith "" left ++ tainted kind payload ++ joinWith "" right
          ∧ ((taintOf v).isSome = true
              ↔ SeenBetween (joinWith "" left) kind payload (joinWith "" right)) := by
  refine ⟨_, _, rfl, rfl, ?_⟩
  obtain ⟨lists, held, s, htake, hvalues⟩ := (concat_tainted_iff (evaluation 1)
    [.ready ["SELECT * FROM tbl_", "SELECT * FROM "], .ready [tainted .param "$t"]]
    default "a.php" 9 { root := ".", disk := { base := "/" } }).2 _ _ rfl
  cases htake
  exact hvalues _ [tainted .param "$t"] [] rfl
    (fun t ht => ⟨.param, "$t", List.mem_singleton.mp ht⟩)

/-- **A mark behind a word character is lost**: no mark is found behind the start of a name. -/
theorem taintOf_param_in_name : taintOf ("tbl_" ++ tainted .param "$x" ++ "") = none := by
  decide +kernel

end QueryAudit.Sample
