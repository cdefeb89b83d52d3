/-
  QueryAudit.Proofs.Intrinsic.Printing — what a format prints

  A format is put together from texts, in which percent signs are doubled, from directives for the
  next value and from directives for a value by its number. However these stand beside each other,
  every one of them is read as itself, and it prints its text or its value as it is.

  A number of more digits than are read is a failure of its own: such a directive is not taken for
  one without a value.

  Main results: `fill_portion`, `sprintf_format`, `sprintf_format_long`.
-/

import Mathlib.Data.List.Basic
import QueryAudit.Intrinsic.Call

namespace QueryAudit.Intrinsic

open Text List

variable {values : List String} {taken n : Nat} {rest : List Char} {c : Char}

/-! ## Digits. -/

theorem decimalValue?_of_isDigit (h : c.isDigit = true) :
    decimalValue? c = some (c.toNat - '0'.toNat) := by
  have hrange : 48 ≤ c.toNat ∧ c.toNat ≤ 57 := by
    simpa [Char.isDigit, UInt32.le_iff_toNat_le] using h
  have hfirst : (decimalZeros.find? fun first => first ≤ c.toNat && c.toNat ≤ first + 9) = some 48 := by
    refine find?_cons_of_pos ?_
    rw [Bool.and_eq_true, decide_eq_true_eq, decide_eq_true_eq]
    exact hrange
  rw [decimalValue?, hfirst]
  rfl

theorem isDecimal_of_isDigit (h : c.isDigit = true) : isDecimal c = true := by
  rw [isDecimal, decimalValue?_of_isDigit h]
  rfl

/-- A number is read from the digits it is written with. -/
theorem decimalNumber_toDigits : decimalNumber (Nat.toDigits 10 n) = n := by
  have hdigits : ∀ c ∈ Nat.toDigits 10 n, c.isDigit = true := fun c hc =>
    Nat.isDigit_of_mem_toDigits (by decide) (by decide) hc
  calc decimalNumber (Nat.toDigits 10 n)
      = Nat.ofDigitChars 10 (Nat.toDigits 10 n) 0 := by
        refine foldl_ext _ _ _ fun m c hc => ?_
        rw [decimalValue?_of_isDigit (hdigits c hc), Option.getD_some, Nat.mul_comm]
    _ = n := Nat.ofDigitChars_ten_toDigits

/-! ## Formats that are put together. -/

/-- A portion of a format. Values are numbered from zero here. -/
inductive Portion where
  | literal (text : String)
  | next
  | numbered (n : Nat)
  deriving DecidableEq, Repr

def doubled (c : Char) : List Char := if c = '%' then ['%', '%'] else [c]

def Portion.format : Portion → List Char
  | .literal text => text.toList.flatMap doubled
  | .next => ['%', 's']
  | .numbered n => '%' :: (Nat.toDigits 10 (n + 1) ++ ['$', 's'])

def format (portions : List Portion) : String := String.ofList (portions.flatMap Portion.format)

/-- The text a portion stands for, given how many values were taken in turn before it. -/
def Portion.text? (values : List String) (taken : Nat) : Portion → Option String
  | .literal text => some text
  | .next => values[taken]?
  | .numbered n => values[n]?

/-- The texts that the portions of a format stand for, one after the other. -/
def shown (values : List String) (portions : List Portion) : List (Option String) :=
  portions.mapIdx fun i p => p.text? values ((portions.take i).count .next)

/-- Whether the number of a portion has more digits than are read. -/
def Portion.isLong : Portion → Bool
  | .numbered n => digitLimit < (Nat.toDigits 10 (n + 1)).length
  | _ => false

def Portion.print (values : List String) (taken : Nat) (p : Portion) : Except Fault String :=
  if p.isLong then .error .digits
  else (p.text? values taken).elim (.error (.rejected .tooFewValues)) .ok

/-! ## Reading a format. -/

theorem pieces_cons (h : c ≠ '%') (cs : List Char) :
    pieces (c :: cs) = .literal c :: pieces cs := by
  rw [pieces, if_neg h]

theorem pieces_directive {cs : List Char} {d : Directive} (h : directive? cs = some (d, n)) :
    pieces ('%' :: cs) = .directive d :: pieces (cs.drop n) := by
  rw [pieces, if_pos rfl]
  simp only [h]

/-- A percent sign with a conversion right behind it, which is no digit and no flag. -/
theorem directive?_plain (hc : c = '%' ∨ c = 's') :
    directive? (c :: rest) = some ({ conversion := c }, 1) := by
  have hdecimal : isDecimal c = false := by rcases hc with rfl | rfl <;> decide +kernel
  rcases hc with rfl | rfl <;> simp [directive?, hdecimal, takeFlags, conversions]

theorem directive?_numbered {digits : List Char} (hne : digits ≠ [])
    (hdigits : ∀ c ∈ digits, isDecimal c = true) (rest : List Char) :
    directive? (digits ++ '$' :: 's' :: rest)
      = some ({ position := digits, conversion := 's' }, digits.length + 2) := by
  have hnumbered : (digits ++ '$' :: 's' :: rest).takeWhile isDecimal = digits := by
    rw [takeWhile_append_of_pos hdigits, takeWhile_cons_of_neg (by decide +kernel), append_nil]
  have hafter : (digits ++ '$' :: 's' :: rest).drop (digits.length + 1) = 's' :: rest := by
    simp [drop_append]
  have hdecimal : ∀ cs, takeWhile isDecimal ('s' :: cs) = [] := fun cs =>
    takeWhile_cons_of_neg (by decide +kernel)
  simp [directive?, hnumbered, hne, hdecimal, takeFlags, conversions]

/-! ## Printing. -/

theorem fill_doubled :
    fill values taken (pieces (doubled c ++ rest))
      = (String.singleton c ++ ·) <$> fill values taken (pieces rest) := by
  rw [map_eq_pure_bind, doubled]
  split
  · next h =>
    subst h
    show fill values taken (pieces ('%' :: '%' :: rest)) = _
    rw [pieces_directive (directive?_plain (.inl rfl)), fill]
    rfl
  · next h =>
    show fill values taken (pieces (c :: rest)) = _
    rw [pieces_cons h, fill]

theorem fill_text {text : List Char} :
    fill values taken (pieces (text.flatMap doubled ++ rest))
      = (String.ofList text ++ ·) <$> fill values taken (pieces rest) := by
  induction text with
  | nil => simp
  | cons c text ih =>
    rw [flatMap_cons, append_assoc, fill_doubled, ih, Functor.map_map]
    simp only [String.ofList_cons, String.append_assoc]

/-- A directive for a text prints its value as it is. -/
theorem fill_value {position : List Char} {rest : List Piece} :
    fill values taken (.directive { position, conversion := 's' } :: rest) = (do
      let text ← valueFor values taken { position, conversion := 's' }
      return text ++ (← fill values (if position.isEmpty then taken + 1 else taken) rest)) := by
  have hconversion : ('s' : Char) ≠ '%' := by decide
  rfl

theorem valueFor_numbered :
    valueFor values taken { position := Nat.toDigits 10 (n + 1), conversion := 's' }
      = (Portion.numbered n).print values taken := by
  have hne : (Nat.toDigits 10 (n + 1)).isEmpty = false := by simp [Nat.toDigits_ne_nil]
  simp only [valueFor, hne, Bool.false_eq_true, if_false, readDigits, Portion.print, Portion.isLong,
    decide_eq_true_eq]
  split
  · rfl
  · rw [decimalNumber_toDigits]
    rfl

/-- **Every portion is read as itself**, whatever stands behind it. -/
theorem fill_portion {p : Portion} :
    fill values taken (pieces (p.format ++ rest)) = (do
      let text ← p.print values taken
      return text ++ (← fill values (taken + [p].count .next) (pieces rest))) := by
  cases p with
  | literal text =>
    rw [Portion.format, fill_text, String.ofList_toList]
    rfl
  | next =>
    show fill values taken (pieces ('%' :: 's' :: rest)) = _
    rw [pieces_directive (directive?_plain (.inr rfl))]
    rfl
  | numbered n =>
    have hdigits : ∀ c ∈ Nat.toDigits 10 (n + 1), isDecimal c = true := fun c hc =>
      isDecimal_of_isDigit (Nat.isDigit_of_mem_toDigits (by decide) (by decide) hc)
    have hread := directive?_numbered Nat.toDigits_ne_nil hdigits rest
    have hdrop : (Nat.toDigits 10 (n + 1) ++ '$' :: 's' :: rest).drop
        ((Nat.toDigits 10 (n + 1)).length + 2) = rest := by
      simp [drop_append]
    have hformat : (Portion.numbered n).format ++ rest
        = '%' :: (Nat.toDigits 10 (n + 1) ++ '$' :: 's' :: rest) := by
      simp [Portion.format]
    have hne : (Nat.toDigits 10 (n + 1)).isEmpty = false := by simp [Nat.toDigits_ne_nil]
    rw [hformat, pieces_directive hread, hdrop, fill_value, valueFor_numbered, hne]
    rfl

theorem join_mapM_cons {first : Except Fault String} {rest : List (Except Fault String)} :
    String.join <$> (first :: rest).mapM id = (do
      let text ← first
      return text ++ (← String.join <$> rest.mapM id)) := by
  rw [mapM_cons]
  cases first with
  | error fault => rfl
  | ok text =>
    cases rest.mapM id with
    | error fault => rfl
    | ok texts =>
      show Except.ok (String.join (text :: texts)) = .ok (text ++ String.join texts)
      rw [String.join_cons]

theorem fill_format {portions : List Portion} :
    ∀ taken, fill values taken (pieces (portions.flatMap Portion.format))
      = String.join <$> (portions.mapIdx fun i p =>
          p.print values (taken + (portions.take i).count .next)).mapM id := by
  induction portions with
  | nil =>
    intro taken
    rw [flatMap_nil, pieces]
    rfl
  | cons p portions ih =>
    intro taken
    have hcount : ∀ i, taken + ((p :: portions).take (i + 1)).count .next
        = taken + [p].count .next + (portions.take i).count .next := by
      intro i
      rw [take_succ_cons, ← singleton_append, count_append, Nat.add_assoc]
    rw [flatMap_cons, fill_portion, ih, mapIdx_cons, join_mapM_cons]
    simp only [hcount]
    rfl

/-- Texts that are all there are joined; when one is not, nothing is printed. -/
theorem join_mapM_elim {fault : Fault} {texts : List (Option String)} :
    String.join <$> (texts.map fun text => text.elim (Except.error fault) .ok).mapM id
      = if none ∈ texts then .error fault else .ok (String.join (texts.filterMap id)) := by
  induction texts with
  | nil => rfl
  | cons text texts ih =>
    rw [map_cons, join_mapM_cons, ih]
    cases text with
    | none => rw [if_pos mem_cons_self]; rfl
    | some text =>
      have hmem : none ∈ some text :: texts ↔ none ∈ texts := by simp
      have hkept : (some text :: texts).filterMap id = text :: texts.filterMap id := rfl
      rw [hkept, String.join_cons, if_congr hmem rfl rfl]
      split
      · rfl
      · rfl

/-- **A format prints its texts and values one after the other**: texts as they are, the next value
that was not taken in turn before, and values by their number. The first portion that cannot be
printed decides about the failure. If no number is too long, printing fails exactly when some portion
has no value. -/
theorem sprintf_format (portions : List Portion) (values : List String) :
    sprintf (format portions) values = String.join <$> (portions.mapIdx fun i p =>
        p.print values ((portions.take i).count .next)).mapM id
    ∧ ((∀ p ∈ portions, p.isLong = false) → sprintf (format portions) values
      = if none ∈ shown values portions then .error (.rejected .tooFewValues)
        else .ok (String.join ((shown values portions).filterMap id))) := by
  have hall : sprintf (format portions) values = String.join <$> (portions.mapIdx fun i p =>
      p.print values ((portions.take i).count .next)).mapM id := by
    rw [sprintf, format, String.toList_ofList, fill_format]
    simp only [Nat.zero_add]
  refine ⟨hall, fun hshort => ?_⟩
  rw [hall, ← join_mapM_elim]
  congr 2
  refine List.ext_getElem? fun i => ?_
  rw [shown, List.getElem?_map, List.getElem?_mapIdx, List.getElem?_mapIdx, Option.map_map]
  cases hp : portions[i]? with
  | none => rfl
  | some p => simp [Portion.print, hshort p (List.mem_of_getElem? hp)]

/-- Percent signs, digits and a dollar sign beside directives, a value that looks like a directive,
and a value by its number that leaves the turn to the others. -/
theorem sprintf_format_beside :
    (∀ p ∈ [.literal "5%", .numbered 1, .literal "1$s", .next, .literal "%", .next],
      Portion.isLong p = false)
    ∧ sprintf (format [.literal "5%", .numbered 1, .literal "1$s", .next, .literal "%", .next])
        ["%s", "b"] = .ok "5%b1$s%s%b" := by
  have hshort : ∀ p ∈ [.literal "5%", .numbered 1, .literal "1$s", .next, .literal "%", .next],
      Portion.isLong p = false := by decide +kernel
  refine ⟨hshort, ?_⟩
  rw [(sprintf_format _ _).2 hshort]
  decide +kernel

theorem isLong_numbered (h : Nat.pow 10 digitLimit ≤ n) : (Portion.numbered n).isLong = true := by
  refine decide_eq_true (Nat.lt_of_not_le fun hle => ?_)
  have hlt : n + 1 < Nat.pow 10 digitLimit :=
    (Nat.length_toDigits_le_iff (by decide) (by decide)).mp hle
  omega

/-- **A number that is too long is a failure of its own**: there is no such value, but printing does
not fail for lack of a value. -/
theorem sprintf_format_long : (Portion.numbered (Nat.pow 10 digitLimit)).text? [] 0 = none
    ∧ sprintf (format [.numbered (Nat.pow 10 digitLimit)]) [] = .error .digits := by
  refine ⟨rfl, ?_⟩
  rw [sprintf, format, String.toList_ofList, fill_format, List.mapIdx_cons, join_mapM_cons,
    Portion.print, if_pos (isLong_numbered (Nat.le_refl _))]
  rfl

end QueryAudit.Intrinsic
