/-
  QueryAudit.Proofs.Taint.Placeholders — marks and the placeholders of a condition

  One pass replaces the occurrences of one name. A mark is still found after all passes exactly when
  every character of it stayed in every pass, and no pass makes a mark.

  Main results: `marked_pass_iff`, `marked_applyParams_iff`, `taintOf_conditionText_iff`.
-/

import QueryAudit.Proofs.Taint.Marks
import QueryAudit.Proofs.Text.Lowering
import QueryAudit.Query.Criteria

namespace QueryAudit.Query

open Sample Text List

variable {blanks cs name rest start : List Char} {c : Char} {left pieces right : List Piece}
  {params : Catalog String}

variable {kind : Taint} {passed : Nat} {columns text table condition path : String}

/-! ## One pass. -/

/-- What a pass does with a stretch of a text. -/
inductive Piece where
  | kept (c : Char)
  /-- An occurrence of the placeholder goes, and a question mark stands for it. -/
  | hit
  deriving DecidableEq, Repr

def Piece.source (name : List Char) : Piece → List Char
  | .kept c => [c]
  | .hit => name

def Piece.char : Piece → Char
  | .kept c => c
  | .hit => '?'

def sourceOf (name : List Char) (pieces : List Piece) : List Char :=
  pieces.flatMap (Piece.source name)

/-- How a pass cuts a text. The count is the number of characters of an occurrence that are still
to be passed over. -/
def cut (name : List Char) : Nat → List Char → List Piece
  | _, [] => []
  | passed + 1, _ :: rest => cut name passed rest
  | 0, c :: rest =>
    match after? name (c :: rest) with
    | some following =>
      if (following.head?.map isPlainWordChar).getD false then .kept c :: cut name 0 rest
      else .hit :: cut name (name.length - 1) rest
    | none => .kept c :: cut name 0 rest

theorem eq_append_of_after? :
    ∀ {cs rest : List Char}, after? name cs = some rest → cs = name ++ rest := by
  induction name with
  | nil =>
    intro cs rest h
    rw [after?, Option.some.injEq] at h
    exact h
  | cons a name ih =>
    intro cs rest h
    cases cs with
    | nil => simp [after?] at h
    | cons c cs =>
      rw [after?] at h
      split at h
      · next heq => rw [heq, ih h, cons_append]
      · simp at h

theorem map_char_cut :
    (cut name passed cs).map Piece.char = replacePlaceholder name ['?'] passed cs := by
  fun_induction cut name passed cs <;> simp_all [replacePlaceholder, Piece.char]

theorem cut_passed (cs : List Char) : cut name passed cs = cut name 0 (cs.drop passed) := by
  induction passed generalizing cs with
  | zero => rfl
  | succ passed ih =>
    cases cs with
    | nil => rfl
    | cons c cs => rw [cut, ih, drop_succ_cons]

theorem cut_of_after? {following : List Char}
    (hname : name ≠ []) (h : after? name (c :: rest) = some following) :
    cut name (name.length - 1) rest = cut name 0 following := by
  have hcs := eq_append_of_after? h
  cases name with
  | nil => exact absurd rfl hname
  | cons a name =>
    rw [cons_append, cons.injEq] at hcs
    rw [cut_passed, hcs.2, length_cons, Nat.add_sub_cancel, drop_left]

/-- What the first piece says about a text: a character that stays is its first one, and an
occurrence that goes is its start and has no word character behind it. -/
theorem cut_eq_cons (hname : name ≠ []) {first : Piece} (h : cut name 0 cs = first :: pieces) :
    ∃ rest, cs = first.source name ++ rest ∧ cut name 0 rest = pieces ∧
      (first = .hit → (rest.head?.map isPlainWordChar).getD false = false) := by
  cases cs with
  | nil => simp [cut] at h
  | cons c rest =>
    have hkept : (.kept c :: cut name 0 rest) = first :: pieces →
        ∃ rest', c :: rest = first.source name ++ rest' ∧ cut name 0 rest' = pieces ∧
          (first = .hit → (rest'.head?.map isPlainWordChar).getD false = false) := by
      intro hcut
      obtain ⟨rfl, rfl⟩ := hcut
      exact ⟨rest, rfl, rfl, fun heq => nomatch heq⟩
    rw [cut] at h
    split at h
    · next following hafter =>
      split at h
      · exact hkept h
      · next hword =>
        rw [cut_of_after? hname hafter] at h
        obtain ⟨rfl, rfl⟩ := h
        exact ⟨following, eq_append_of_after? hafter, rfl, fun _ => by simpa using hword⟩
    · exact hkept h

theorem cut_eq_nil (h : cut name 0 cs = []) : cs = [] := by
  cases cs with
  | nil => rfl
  | cons c rest =>
    rw [cut] at h
    split at h
    · split at h <;> simp at h
    · simp at h

theorem cut_eq_append (hname : name ≠ []) : ∀ {cs : List Char}, cut name 0 cs = left ++ right →
      ∃ rest, cs = sourceOf name left ++ rest ∧ cut name 0 rest = right := by
  induction left with
  | nil =>
    intro cs h
    exact ⟨cs, rfl, h⟩
  | cons first left ih =>
    intro cs h
    obtain ⟨rest, rfl, hrest, _⟩ := cut_eq_cons hname h
    obtain ⟨rest', rfl, hright⟩ := ih hrest
    refine ⟨rest', ?_, hright⟩
    rw [← append_assoc]
    rfl

theorem sourceOf_cut (hname : name ≠ []) (cs : List Char) : sourceOf name (cut name 0 cs) = cs := by
  obtain ⟨rest, hcs, hrest⟩ := cut_eq_append hname (append_nil (cut name 0 cs)).symm
  rw [cut_eq_nil hrest, append_nil] at hcs
  exact hcs.symm

theorem plain_after_hit (hname : name ≠ []) (h : cut name 0 cs = left ++ .hit :: .kept c :: right) :
    isPlainWordChar c = false := by
  obtain ⟨rest, _, hrest⟩ := cut_eq_append hname h
  obtain ⟨following, _, hfollowing, hword⟩ := cut_eq_cons hname hrest
  obtain ⟨rest', rfl, _, _⟩ := cut_eq_cons hname hfollowing
  exact hword rfl

/-! ## Marks and one pass. -/

theorem eq_map_kept_of_map_char :
    ∀ {cs : List Char}, pieces.map Piece.char = cs → '?' ∉ cs → pieces = cs.map .kept := by
  induction pieces with
  | nil =>
    rintro cs rfl _
    rfl
  | cons first pieces ih =>
    rintro cs rfl hq
    rw [map_cons, mem_cons, not_or] at hq
    rw [map_cons, map_cons, ← ih rfl hq.2]
    cases first with
    | kept c => rfl
    | hit => exact absurd rfl hq.1

theorem map_char_map_kept : (cs.map Piece.kept).map Piece.char = cs := by
  rw [map_map]
  exact map_id cs

theorem sourceOf_map_kept : sourceOf name (cs.map .kept) = cs := by
  rw [sourceOf, flatMap_map]
  exact flatMap_singleton' cs

theorem sourceOf_append :
    sourceOf name (left ++ right) = sourceOf name left ++ sourceOf name right :=
  flatMap_append

theorem question_notMem_chars : '?' ∉ kind.chars := by
  cases kind <;> decide

theorem chars_eq_cons : ∃ c rest, kind.chars = c :: rest ∧ isPlainWordChar c := by
  cases kind <;> exact ⟨_, _, rfl, by decide⟩

/-- Whether a mark stands at the start of a word does not change in a pass that keeps it: what
stands right before it is not replaced. -/
theorem insideAfter_pass (hname : name ≠ [])
    (h : cut name 0 cs = left ++ kind.chars.map .kept ++ right) :
    insideAfter false (left.map Piece.char) = insideAfter false (sourceOf name left) := by
  rcases eq_nil_or_concat left with rfl | ⟨left, last, rfl⟩
  · rfl
  obtain ⟨c, rest, hchars, hplain⟩ := chars_eq_cons
  rw [hchars] at h
  rw [concat_eq_append] at h ⊢
  cases last with
  | kept d =>
    rw [map_append, sourceOf_append, insideAfter_append, insideAfter_append]
    rfl
  | hit =>
    have hcut : cut name 0 cs = left ++ .hit :: .kept c :: (rest.map .kept ++ right) := by
      rw [h]
      simp
    rw [plain_after_hit hname hcut] at hplain
    exact absurd hplain (by decide)

/-- **A pass keeps a mark exactly when it keeps all its characters**, and it makes no mark. -/
theorem marked_pass_iff (hname : name ≠ []) {before : List Char} :
    (replacePlaceholder name ['?'] 0 cs = before ++ kind.chars ++ rest
        ∧ insideAfter false before = false) ↔
      ∃ left right, cut name 0 cs = left ++ kind.chars.map .kept ++ right
        ∧ left.map Piece.char = before ∧ right.map Piece.char = rest
        ∧ insideAfter false (sourceOf name left) = false := by
  rw [← map_char_cut]
  constructor
  · rintro ⟨h, hbefore⟩
    rw [append_assoc] at h
    obtain ⟨left, others, hcut, hleft, hothers⟩ := map_eq_append_iff.mp h
    obtain ⟨mark, right, rfl, hmark, hright⟩ := map_eq_append_iff.mp hothers
    obtain rfl := eq_map_kept_of_map_char hmark question_notMem_chars
    have hcut' : cut name 0 cs = left ++ kind.chars.map .kept ++ right := by
      rw [hcut, append_assoc]
    refine ⟨left, right, hcut', hleft, hright, ?_⟩
    rw [← insideAfter_pass hname hcut', hleft]
    exact hbefore
  · rintro ⟨left, right, hcut, rfl, rfl, hleft⟩
    constructor
    · rw [hcut, map_append, map_append, map_char_map_kept]
    · rw [insideAfter_pass hname hcut]
      exact hleft

/-! ## All passes. -/

/-- Passes, one for each name, keep the mark that stands between two texts: in each of them, none
of its characters belongs to an occurrence that is replaced. -/
def Untouched : List (List Char) → List Char → Taint → List Char → Prop
  | [], _, _, _ => True
  | name :: names, before, kind, rest =>
    ∃ left right, cut name 0 (before ++ kind.chars ++ rest) = left ++ kind.chars.map .kept ++ right
      ∧ sourceOf name left = before
      ∧ Untouched names (left.map Piece.char) kind (right.map Piece.char)

/-- A mark stands at the start of a word of a text, and passes keep it. -/
def KeepsMark (names : List (List Char)) (cs : List Char) : Prop :=
  ∃ before kind rest, cs = before ++ kind.chars ++ rest ∧ insideAfter false before = false
    ∧ Untouched names before kind rest

theorem marked_replaceInTurn_iff {params : List (String × String)} :
    (∀ p ∈ params, p.1 ≠ "" ∧ p.2 = "?") → ∀ cs,
      (Marked false (replaceInTurn params cs) ↔ KeepsMark (params.map (·.1.toList)) cs) := by
  induction params with
  | nil =>
    intro _ cs
    simp [replaceInTurn, KeepsMark, Untouched, Marked]
  | cons p params ih =>
    intro hall cs
    obtain ⟨⟨hne, hmark⟩, hall⟩ := forall_mem_cons.mp hall
    have hname : p.1.toList ≠ [] := fun h => hne (String.toList_eq_nil_iff.mp h)
    have hpass : replaceInTurn (p :: params) cs
        = replaceInTurn params (replacePlaceholder p.1.toList ['?'] 0 cs) := by
      rw [replaceInTurn, if_neg hne, hmark]
      rfl
    rw [hpass, ih hall]
    constructor
    · rintro ⟨before, kind, rest, hcs, hbefore, hun⟩
      obtain ⟨left, right, hcut, rfl, rfl, hleft⟩ := (marked_pass_iff hname).mp ⟨hcs, hbefore⟩
      have hsource : cs = sourceOf p.1.toList left ++ kind.chars ++ sourceOf p.1.toList right := by
        have h := sourceOf_cut hname cs
        rw [hcut, sourceOf_append, sourceOf_append, sourceOf_map_kept] at h
        exact h.symm
      refine ⟨sourceOf p.1.toList left, kind, sourceOf p.1.toList right, hsource, hleft, ?_⟩
      exact ⟨left, right, by rw [← hsource]; exact hcut, rfl, hun⟩
    · rintro ⟨before, kind, rest, rfl, hbefore, left, right, hcut, rfl, hun⟩
      obtain ⟨hcs, hleft⟩ := (marked_pass_iff hname).mpr ⟨left, right, hcut, rfl, rfl, hbefore⟩
      exact ⟨left.map Piece.char, kind, right.map Piece.char, hcs, hleft, hun⟩

/-- Replacements as calls give them: every name starts with a colon, and a question mark stands for
each. -/
def Placeholders (params : Catalog String) : Prop :=
  ∀ p ∈ params.entries, p.1.toList.head? = some ':' ∧ p.2 = "?"

def passes (params : Catalog String) : List (List Char) := (longestFirst params).map (·.1.toList)

theorem mem_longestFirst {p : String × String} : p ∈ longestFirst params ↔ p ∈ params.entries :=
  mem_mergeSort

/-- **What replacing placeholders does to taint**: a condition is still tainted exactly when it has
a mark that every pass keeps. -/
theorem marked_applyParams_iff (h : Placeholders params) (condition : String) :
    Marked false (applyParams condition params).toList
      ↔ KeepsMark (passes params) condition.toList := by
  rw [applyParams, String.toList_ofList]
  refine marked_replaceInTurn_iff (fun p hp => ?_) _
  obtain ⟨hname, hmark⟩ := h p (mem_longestFirst.mp hp)
  refine ⟨?_, hmark⟩
  intro hempty
  rw [hempty] at hname
  cases hname

/-! ## Text around a condition. -/

theorem plain_or_colon_of_mem_chars (h : c ∈ kind.chars) : isPlainWordChar c ∨ c = ':' := by
  rw [Taint.chars, mem_append] at h
  rcases h with h | h
  · exact .inl (plain_of_mem_word c h).1
  · exact .inr (by simpa using h)

def Separates (c : Char) : Prop := isPlainWordChar c = false ∧ c ≠ ':'

theorem separates_notMem_chars (hc : Separates c) : c ∉ kind.chars := by
  intro h
  rcases plain_or_colon_of_mem_chars h with hplain | hcolon
  · rw [hc.1] at hplain
    exact absurd hplain (by decide)
  · exact hc.2 hcolon

/-- Marks of a text with a separating character in it lie on one side of that character. -/
theorem marked_append_separator_iff (hc : Separates c) (inside : Bool) (left right : List Char) :
    Marked inside (left ++ c :: right) ↔ Marked inside left ∨ Marked false right := by
  constructor
  · rintro ⟨before, kind, rest, h, hbefore⟩
    rw [append_assoc, append_eq_append_iff] at h
    rcases h with ⟨overlap, rfl, h⟩ | ⟨overlap, rfl, h⟩
    · -- the mark starts behind the left text, so it starts behind the character
      cases overlap with
      | nil =>
        obtain ⟨d, chars, hchars, _⟩ := chars_eq_cons
        rw [hchars, nil_append, cons_append, cons.injEq] at h
        have hmem : c ∈ kind.chars := by
          rw [hchars, h.1]
          exact mem_cons_self
        exact absurd hmem (separates_notMem_chars hc)
      | cons d overlap =>
        rw [cons_append, cons.injEq] at h
        obtain ⟨rfl, h⟩ := h
        rw [insideAfter_append, insideAfter_cons, hc.1] at hbefore
        exact .inr ⟨overlap, kind, rest, by rw [h, append_assoc], hbefore⟩
    · rw [append_eq_append_iff] at h
      rcases h with ⟨more, rfl, _⟩ | ⟨more, hmore, h⟩
      · exact .inl ⟨before, kind, more, by rw [append_assoc], hbefore⟩
      cases more with
      | nil =>
        rw [append_nil] at hmore
        exact .inl ⟨before, kind, [], by rw [hmore, append_nil], hbefore⟩
      | cons d more =>
        rw [cons_append, cons.injEq] at h
        have hmem : c ∈ kind.chars := by
          rw [hmore, h.1]
          exact mem_append_right _ mem_cons_self
        exact absurd hmem (separates_notMem_chars hc)
  · rintro (⟨before, kind, rest, rfl, hbefore⟩ | ⟨before, kind, rest, rfl, hbefore⟩)
    · exact ⟨before, kind, rest ++ c :: right, by simp only [append_assoc], hbefore⟩
    · refine ⟨left ++ c :: before, kind, rest, by simp, ?_⟩
      rw [insideAfter_append, insideAfter_cons, hc.1]
      exact hbefore

theorem separates_of_isBlank (h : isBlank c) : Separates c := by
  have hcodes : ∀ n ∈ breakCodes, isPlainWordChar (Char.ofNat n) = false ∧ Char.ofNat n ≠ ':' := by
    decide +kernel
  have hc := hcodes c.toNat (mem_breakCodes (by rw [isBreak, h]; rfl))
  rwa [Char.ofNat_toNat] at hc

theorem separates_space : Separates ' ' := separates_of_isBlank (by decide)

theorem marked_append_blanks_iff (inside : Bool) :
    (∀ c ∈ blanks, isBlank c) → ∀ cs : List Char,
      (Marked inside (cs ++ blanks) ↔ Marked inside cs) := by
  induction blanks generalizing inside with
  | nil =>
    intro _ cs
    rw [append_nil]
  | cons c blanks ih =>
    intro h cs
    obtain ⟨hc, h⟩ := forall_mem_cons.mp h
    have hblanks : ¬ Marked false blanks := fun hm =>
      not_marked_nil ((ih false h []).mp hm)
    rw [marked_append_separator_iff (separates_of_isBlank hc)]
    simp [hblanks]

theorem marked_blanks_append_iff (h : ∀ c ∈ blanks, isBlank c) :
    Marked false (blanks ++ cs) ↔ Marked false cs := by
  induction blanks with
  | nil => rfl
  | cons c blanks ih =>
    obtain ⟨hc, h⟩ := forall_mem_cons.mp h
    rw [cons_append, ← ih h, ← nil_append (c :: (blanks ++ cs)),
      marked_append_separator_iff (separates_of_isBlank hc)]
    simp [not_marked_nil]

theorem marked_dropEnd_iff {inside : Bool} :
    Marked inside (cs.reverse.dropWhile isBlank).reverse ↔ Marked inside cs := by
  have hcs : cs = (cs.reverse.dropWhile isBlank).reverse ++ (cs.reverse.takeWhile isBlank).reverse := by
    rw [← reverse_append, takeWhile_append_dropWhile, reverse_reverse]
  have htail : ∀ c ∈ (cs.reverse.takeWhile isBlank).reverse, isBlank c := by
    intro c hc
    exact all_eq_true.mp all_takeWhile c (mem_reverse.mp hc)
  conv => rhs; rw [hcs]
  exact (marked_append_blanks_iff inside htail _).symm

theorem marked_trim_iff : Marked false (trim text).toList ↔ Marked false text.toList := by
  rw [trim, trimBoth, String.toList_ofList, trimList, marked_dropEnd_iff]
  conv => rhs; rw [← takeWhile_append_dropWhile (p := isBlank) (l := text.toList)]
  exact (marked_blanks_append_iff (all_eq_true.mp all_takeWhile)).symm

theorem replacePlaceholder_append (hname : name.head? = some ':')
    (hstart : ':' ∉ start) (replacement cs : List Char) :
    replacePlaceholder name replacement 0 (start ++ cs)
      = start ++ replacePlaceholder name replacement 0 cs := by
  induction start with
  | nil => rfl
  | cons c start ih =>
    rw [mem_cons, not_or] at hstart
    have hafter : after? name (c :: (start ++ cs)) = none := by
      cases name with
      | nil => cases hname
      | cons a name =>
        rw [head?_cons, Option.some.injEq] at hname
        rw [after?, hname, if_neg hstart.1]
    rw [cons_append, replacePlaceholder, hafter]
    show c :: replacePlaceholder name replacement 0 (start ++ cs) = _
    rw [ih hstart.2, cons_append]

/-- Text without a colon stays as it is in front of a condition. -/
theorem replaceInTurn_append {params : List (String × String)} (hstart : ':' ∉ start) :
    (∀ p ∈ params, p.1.toList.head? = some ':') → ∀ cs,
      replaceInTurn params (start ++ cs) = start ++ replaceInTurn params cs := by
  induction params with
  | nil =>
    intro _ cs
    rfl
  | cons p params ih =>
    intro hall cs
    obtain ⟨hname, hall⟩ := forall_mem_cons.mp hall
    have hne : p.1 ≠ "" := by
      intro hempty
      rw [hempty] at hname
      cases hname
    rw [replaceInTurn, replaceInTurn, if_neg hne, if_neg hne,
      replacePlaceholder_append hname hstart, ih hall]

/-! ## The texts of finders. -/

theorem toList_applyParams_append (h : Placeholders params)
    {start : String} (hstart : ':' ∉ start.toList) (condition : String) :
    (applyParams (start ++ condition) params).toList
      = start.toList ++ (applyParams condition params).toList := by
  rw [applyParams, applyParams, String.toList_ofList, String.toList_ofList, String.toList_append]
  exact replaceInTurn_append hstart (fun p hp => (h p (mem_longestFirst.mp hp)).1) _

theorem marked_select_iff :
    Marked false ("SELECT ".toList ++ columns.toList ++ " FROM ".toList ++ cs)
      ↔ Marked false columns.toList ∨ Marked false cs := by
  have hselect : ¬ Marked false "SELECT".toList := by
    rw [← taintOf_isSome_iff]
    decide
  have hfrom : ¬ Marked false "FROM".toList := by
    rw [← taintOf_isSome_iff]
    decide
  have htext : "SELECT ".toList ++ columns.toList ++ " FROM ".toList ++ cs
      = "SELECT".toList ++ ' ' :: (columns.toList ++ ' ' :: ("FROM".toList ++ ' ' :: cs)) := by
    simp
  rw [htext, marked_append_separator_iff separates_space, marked_append_separator_iff separates_space,
    marked_append_separator_iff separates_space]
  simp only [hselect, hfrom, false_or]

theorem not_marked_where : ¬ Marked false "WHERE".toList := by
  rw [← taintOf_isSome_iff]
  decide

theorem marked_where_iff (h : Placeholders params) (condition : String) :
    Marked false (applyParams ("WHERE " ++ condition) params).toList
      ↔ Marked false (applyParams condition params).toList := by
  have htext : "WHERE ".toList ++ (applyParams condition params).toList
      = "WHERE".toList ++ ' ' :: (applyParams condition params).toList := rfl
  rw [toList_applyParams_append h (by decide), htext, marked_append_separator_iff separates_space]
  simp only [not_marked_where, false_or]

/-- **The text of a finder with a condition is tainted** exactly when its table is, or the condition
has a mark that the placeholders leave alone. -/
theorem taintOf_conditionText_iff (h : Placeholders params) (table condition : String) :
    (taintOf (conditionText params table condition)).isSome ↔
      (taintOf table).isSome ∨ KeepsMark (passes params) (trim condition).toList := by
  have hstar : ¬ Marked false "*".toList := by
    rw [← taintOf_isSome_iff]
    decide
  have hclause : ∀ clause : String,
      Marked false (trimEnd isBlank ("SELECT * FROM " ++ table ++ " " ++ clause)).toList
        ↔ Marked false table.toList ∨ Marked false clause.toList := by
    intro clause
    have htext : ("SELECT * FROM " ++ table ++ " " ++ clause).toList = "SELECT ".toList
        ++ "*".toList ++ " FROM ".toList ++ (table.toList ++ ' ' :: clause.toList) := by
      simp [String.toList_append]
    rw [trimEnd, String.toList_ofList, marked_dropEnd_iff, htext, marked_select_iff,
      marked_append_separator_iff separates_space]
    simp only [hstar, false_or]
  rw [taintOf_isSome_iff, taintOf_isSome_iff, ← marked_applyParams_iff h, conditionText, hclause]
  split
  · rw [marked_where_iff h]
  · rfl

theorem not_keepsMark_of_trim_eq_empty {names : List (List Char)} (h : (trim text).isEmpty) :
    ¬ KeepsMark names text.toList := by
  rintro ⟨before, kind, rest, htext, hbefore, _⟩
  have hmarked : Marked false (trim text).toList :=
    marked_trim_iff.mpr ⟨before, kind, rest, htext, hbefore⟩
  rw [String.isEmpty_iff.mp h] at hmarked
  exact not_marked_nil hmarked

/-- **The text of a finder with criteria is tainted** exactly when its columns or its table are, or
the condition has a mark that the placeholders leave alone. -/
theorem taintOf_criteriaText_iff (h : Placeholders params) :
    (taintOf (criteriaText params table columns condition)).isSome ↔
      (taintOf columns).isSome ∨ (taintOf table).isSome = true
        ∨ KeepsMark (passes params) condition.toList := by
  rw [taintOf_isSome_iff, taintOf_isSome_iff, taintOf_isSome_iff, criteriaText]
  split
  · next hempty =>
    rw [String.toList_append, String.toList_append, String.toList_append, marked_select_iff]
    simp only [not_keepsMark_of_trim_eq_empty hempty, or_false]
  · have htext : ("SELECT " ++ columns ++ " FROM " ++ table ++ " WHERE "
          ++ applyParams condition params).toList
        = "SELECT ".toList ++ columns.toList ++ " FROM ".toList ++ (table.toList ++ ' ' ::
            ("WHERE".toList ++ ' ' :: (applyParams condition params).toList)) := by
      simp [String.toList_append]
    rw [htext, marked_select_iff, marked_append_separator_iff separates_space,
      marked_append_separator_iff separates_space, ← marked_applyParams_iff h]
    simp only [not_marked_where, false_or]

/-! ## Placeholders of calls. -/

theorem mem_setIn {α : Type} {name : String} {value : α} {p : String × α} :
    ∀ {entries : List (String × α)}, p ∈ Catalog.setIn name value entries →
      p = (name, value) ∨ p ∈ entries := by
  intro entries
  induction entries with
  | nil =>
    intro h
    exact .inl (mem_singleton.mp h)
  | cons entry entries ih =>
    intro h
    rw [Catalog.setIn] at h
    split at h
    · next heq =>
      rcases mem_cons.mp h with rfl | h
      · exact .inl (by rw [heq])
      · exact .inr (mem_cons_of_mem _ h)
    · rcases mem_cons.mp h with rfl | h
      · exact .inr mem_cons_self
      · exact (ih h).imp id (mem_cons_of_mem _)

theorem placeholders_set (h : Placeholders params) {name : String}
    (hname : name.toList.head? = some ':') : Placeholders (params.set name "?") := by
  intro p hp
  rcases mem_setIn hp with rfl | hp
  · exact ⟨hname, rfl⟩
  · exact h p hp

theorem head?_placeholder {name : String} : (placeholder name).toList.head? = some ':' := by
  rw [placeholder]
  split
  · next h =>
    obtain ⟨rest, hrest⟩ := (startsWith_iff _).mp h
    rw [← hrest]
    rfl
  · rw [String.toList_append]
    rfl

theorem placeholders_foldl_set {names : List String} (h : Placeholders params) :
    Placeholders (names.foldl (fun found name => found.set (placeholder name) "?") params) := by
  induction names generalizing params with
  | nil => exact h
  | cons name names ih => exact ih (placeholders_set h head?_placeholder)

theorem placeholdersOf_ok {items : List Item} :
    ∀ {found params : Catalog String} {r r' : Run}, Placeholders found →
      placeholdersOf found items r = .ok params r' → Placeholders params := by
  induction items with
  | nil =>
    intro found params r r' hfound h
    obtain ⟨rfl, _⟩ := pure_ok_iff.mp h
    exact hfound
  | cons item items ih =>
    intro found params r r' hfound h
    rw [placeholdersOf] at h
    cases hkey : item.key with
    | none =>
      rw [hkey] at h
      exact ih (placeholders_foldl_set hfound) h
    | some key =>
      rw [hkey] at h
      obtain ⟨names, s, _, h⟩ := bind_ok_iff.mp h
      exact ih (placeholders_foldl_set hfound) h

theorem paramsOf_ok {arg : Php.Cursor} {r r' : Run} (h : paramsOf arg path r = .ok params r') :
    Placeholders params := by
  have hempty : Placeholders .empty := fun p hp => nomatch hp
  obtain ⟨items, s, _, h⟩ := bind_ok_iff.mp h
  cases items with
  | some items => exact placeholdersOf_ok hempty h
  | none =>
    obtain ⟨_, _, rfl⟩ := bind_pure_ok_iff.mp h
    exact hempty

theorem placeholders_merge {others : Catalog String} (h : Placeholders params)
    (hothers : Placeholders others) :
    Placeholders (others.entries.foldl (fun all p => all.set p.1 p.2) params) := by
  obtain ⟨entries⟩ := others
  induction entries generalizing params with
  | nil => exact h
  | cons p entries ih =>
    obtain ⟨⟨hname, hmark⟩, hrest⟩ := forall_mem_cons.mp hothers
    refine ih ?_ hrest
    show Placeholders (params.set p.1 p.2)
    rw [hmark]
    exact placeholders_set h hname

end QueryAudit.Query
