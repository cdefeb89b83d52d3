/-
  QueryAudit.Proofs.Text.Lowering — small letters and the segments of a name

  Lowering looks at neighbours for a capital sigma only, and no further than to white space or a
  backslash, so a text can be lowered piece by piece between them.

  Main results: `lowerFrom_cut`, `shortClassName_lower`, `lower_shortClassName_congr`.
-/

import Mathlib.Data.List.Induction
import QueryAudit.Php.Shape
import QueryAudit.Proofs.Text.Pieces
import QueryAudit.Text.Case

namespace QueryAudit.Text

open List

variable {c : Char}

variable {rest cs outer before left right : List Char}

/-! ## White space and backslashes. -/

def isBreak (c : Char) : Bool := isBlank c || c = '\\'

def breakCodes : List Nat :=
  92 :: blankRanges.flatMap fun (low, high) => range' low (high + 1 - low)

theorem mem_breakCodes (h : isBreak c) : c.toNat ∈ breakCodes := by
  rw [isBreak, Bool.or_eq_true, decide_eq_true_eq] at h
  rcases h with h | rfl
  · obtain ⟨⟨low, high⟩, hrange, hin⟩ := any_eq_true.mp h
    rw [Bool.and_eq_true, decide_eq_true_eq, decide_eq_true_eq] at hin
    refine mem_cons_of_mem _ (mem_flatMap.mpr ⟨(low, high), hrange, ?_⟩)
    rw [mem_range'_1]
    omega
  · decide

theorem meetsCased_break (h : isBreak c) : meetsCased (c :: rest) = false := by
  have hcodes : ∀ n ∈ breakCodes, inRanges caseIgnorableRanges n = false
      ∧ inRanges casedRanges n = false := by decide +kernel
  have hranges := hcodes c.toNat (mem_breakCodes h)
  rw [meetsCased, hranges.1, hranges.2]
  rfl

theorem lowerFrom_break (h : isBreak c) (before rest : List Char) :
    lowerFrom before (c :: rest) = c :: lowerFrom (c :: before) rest := by
  have hcodes : ∀ n ∈ breakCodes, Char.ofNat n ≠ 'Σ' ∧ lowerChar (Char.ofNat n) = [Char.ofNat n] := by
    decide +kernel
  have hlower := hcodes c.toNat (mem_breakCodes h)
  rw [Char.ofNat_toNat] at hlower
  rw [lowerFrom, if_neg hlower.1, hlower.2]
  rfl

/-! ## What a character becomes. -/

theorem toNat_ofNat_cases {n : Nat} : (Char.ofNat n).toNat = n ∨ (Char.ofNat n).toNat = 0 := by
  unfold Char.ofNat
  by_cases h : n.isValidChar
  · rw [dif_pos h]
    exact .inl rfl
  · rw [dif_neg h]
    exact .inr rfl

/-- One character becomes several, a small i and a dot; beyond ASCII the others become what a run
leads to, or stay. -/
theorem lowerChar_cases :
    c.toNat < 128 ∧ lowerChar c = [c.toLower] ∨ lowerChar c = [105, 775].map Char.ofNat
      ∨ 128 ≤ c.toNat ∧ ∃ d, lowerChar c = [d] ∧ (d = c ∨ runImage? lowerRuns c.toNat = some d) := by
  unfold lowerChar
  split
  · next hc => exact .inl ⟨hc, rfl⟩
  · next hc =>
    refine .inr ?_
    unfold tableImage
    split
    · next codes hcodes =>
      unfold lowerLong at hcodes
      rw [lookup_cons] at hcodes
      split at hcodes
      · exact .inl (congrArg _ (Option.some.inj hcodes).symm)
      · cases hcodes
    · refine .inr ⟨Nat.le_of_not_lt hc, _, rfl, ?_⟩
      cases runImage? lowerRuns c.toNat with
      | some image => exact .inr rfl
      | none => exact .inl rfl

/-- Code points that nothing else beyond ASCII becomes: the runs lead past them. -/
def Passed (codes : List Nat) : Prop :=
  (∀ n ∈ codes, n ∉ [0, 105, 775]) ∧ lowerRuns.all fun run => (run.last : Int) < 128
    || codes.all fun n => (n : Int) < run.first + run.shift || run.last + run.shift < (n : Int)

instance (codes : List Nat) : Decidable (Passed codes) := inferInstanceAs (Decidable (_ ∧ _))

theorem Passed.notMem_of_mem_lowerChar {codes : List Nat} {d : Char} (h : Passed codes)
    (hplain : c.toNat < 128 → c.toLower.toNat ∉ codes) (hself : 128 ≤ c.toNat → c.toNat ∉ codes)
    (hd : d ∈ lowerChar c) : d.toNat ∉ codes := by
  obtain ⟨hfixed, hruns⟩ := h
  rcases lowerChar_cases with ⟨hc, hlower⟩ | hlower | ⟨hc, image, hlower, hrun⟩
  all_goals rw [hlower] at hd
  · rw [mem_singleton.mp hd]
    exact hplain hc
  · have hlong : ∀ d ∈ [105, 775].map Char.ofNat, d.toNat ∈ [0, 105, 775] :=
      forall_mem_map.mpr (by decide)
    exact fun hmem => hfixed _ hmem (hlong d hd)
  rw [mem_singleton.mp hd]
  rcases hrun with rfl | hrun
  · exact hself hc
  rw [runImage?, Option.map_eq_some_iff] at hrun
  obtain ⟨run, hrun, rfl⟩ := hrun
  have hin := find?_some hrun
  have hpast := all_eq_true.mp hruns run (mem_of_find?_eq_some hrun)
  simp only [Bool.and_eq_true, decide_eq_true_eq] at hin
  rw [Bool.or_eq_true, decide_eq_true_eq] at hpast
  intro hmem
  rcases toNat_ofNat_cases with hcode | hcode
  · rw [hcode] at hmem
    have hpositive : (c.toNat + run.shift).toNat ≠ 0 := fun hzero => hfixed _ hmem (by simp [hzero])
    rcases hpast with hpast | hpast
    · omega
    · have hpast := all_eq_true.mp hpast _ hmem
      rw [Bool.or_eq_true, decide_eq_true_eq, decide_eq_true_eq] at hpast
      omega
  · rw [hcode] at hmem
    exact hfixed 0 hmem mem_cons_self

/-- What is no break becomes something, and no break. -/
theorem isBreak_lowerChar (h : isBreak c = false) :
    lowerChar c ≠ [] ∧ ∀ d ∈ lowerChar c, isBreak d = false := by
  have hpassed : Passed breakCodes := by decide +kernel
  have hcodes : ∀ n ∈ breakCodes, isBreak (Char.ofNat n) := by decide +kernel
  have hplain : ∀ n : Fin 128, isBreak (Char.ofNat n) = false →
      (Char.ofNat n).toLower.toNat ∉ breakCodes := by decide +kernel
  constructor
  · rcases lowerChar_cases with ⟨-, hlower⟩ | hlower | ⟨-, _, hlower, -⟩
    all_goals
      rw [hlower]
      exact cons_ne_nil _ _
  · refine fun d hd => eq_false_of_ne_true fun hbreak => ?_
    refine hpassed.notMem_of_mem_lowerChar (fun hc => ?_) (fun _ hmem => ?_) hd (mem_breakCodes hbreak)
    · have hlower := hplain ⟨c.toNat, hc⟩
      simp only [Char.ofNat_toNat] at hlower
      exact hlower h
    · have hself := hcodes _ hmem
      rw [Char.ofNat_toNat, h] at hself
      cases hself

/-! ## Lowering piece by piece. -/

theorem meetsCased_cut (h : isBreak c) (inner outer : List Char) :
    meetsCased (inner ++ c :: outer) = meetsCased inner := by
  induction inner with
  | nil => exact meetsCased_break h
  | cons d inner ih => rw [cons_append, meetsCased, meetsCased, ih]

theorem lowerFrom_after (h : isBreak c) :
    ∀ before, lowerFrom (before ++ c :: outer) cs = lowerFrom before cs := by
  induction cs with
  | nil => exact fun _ => rfl
  | cons d cs ih =>
    intro before
    rw [lowerFrom, lowerFrom, meetsCased_cut h, ← cons_append, ih]

/-- **A text is lowered piece by piece** between breaks. -/
theorem lowerFrom_cut (h : isBreak c) (left right : List Char) :
    ∀ before, lowerFrom before (left ++ c :: right) = lowerFrom before left ++ c :: lowerFrom [] right := by
  induction left with
  | nil =>
    intro before
    rw [nil_append, lowerFrom_break h, lowerFrom]
    exact congrArg _ (lowerFrom_after h [])
  | cons d left ih =>
    intro before
    rw [cons_append, lowerFrom, lowerFrom, ih, meetsCased_cut h]
    split
    · rw [cons_append]
    · rw [append_assoc]

theorem lowerFrom_single (h : isBreak c = false) :
    ∃ image, lowerFrom before (c :: rest) = image ++ lowerFrom (c :: before) rest
      ∧ image ≠ [] ∧ ∀ d ∈ image, isBreak d = false := by
  rw [lowerFrom]
  split
  · refine ⟨[_], rfl, cons_ne_nil _ _, fun d hd => ?_⟩
    rw [mem_singleton.mp hd]
    split <;> decide
  · exact ⟨_, rfl, isBreak_lowerChar h⟩

theorem lower_ne_empty {text : String} (h : text ≠ "") : lower text ≠ "" := by
  obtain ⟨c, rest, htext⟩ := exists_cons_of_ne_nil (mt String.toList_eq_nil_iff.mp h)
  rw [lower, htext, Ne, String.ofList_eq_empty_iff]
  cases hc : isBreak c with
  | true =>
    rw [lowerFrom_break hc]
    exact cons_ne_nil _ _
  | false =>
    obtain ⟨image, heq, hne, -⟩ := lowerFrom_single hc
    rw [heq]
    exact append_ne_nil_of_left_ne_nil hne _

/-- The first characters of a text that are lowered stand before the others. -/
theorem lowerFrom_append :
    ∀ before, ∃ image, lowerFrom before (left ++ right)
      = image ++ lowerFrom (left.reverse ++ before) right := by
  induction left with
  | nil => exact fun before => ⟨[], rfl⟩
  | cons c left ih =>
    intro before
    obtain ⟨image, himage⟩ := ih (c :: before)
    rw [cons_append, lowerFrom, himage, reverse_cons, append_assoc]
    split
    · exact ⟨_ :: image, rfl⟩
    · exact ⟨lowerChar c ++ image, (append_assoc _ _ _).symm⟩

theorem notMem_lowerFrom {b : Char} (hb : isBreak b) (h : b ∉ cs) :
    ∀ before, b ∉ lowerFrom before cs := by
  induction cs with
  | nil => exact fun _ => not_mem_nil
  | cons c cs ih =>
    intro before
    rw [mem_cons, not_or] at h
    cases hc : isBreak c with
    | true =>
      rw [lowerFrom_break hc, mem_cons, not_or]
      exact ⟨h.1, ih h.2 _⟩
    | false =>
      obtain ⟨image, heq, -, himage⟩ := lowerFrom_single hc
      rw [heq, mem_append, not_or]
      refine ⟨fun hmem => ?_, ih h.2 _⟩
      rw [himage b hmem] at hb
      cases hb

/-! ## Trimming and splitting. -/

section Trimming

variable {drop : Char → Bool} (hdrop : ∀ c, drop c → isBreak c)

include hdrop

theorem dropWhile_lowerFrom (cs : List Char) :
    (lowerFrom [] cs).dropWhile drop = lowerFrom [] (cs.dropWhile drop) := by
  induction cs with
  | nil => rfl
  | cons c cs ih =>
    cases hc : drop c with
    | true =>
      have hcut := lowerFrom_cut (hdrop c hc) [] cs []
      rw [nil_append, lowerFrom, nil_append] at hcut
      rw [hcut, dropWhile_cons_of_pos hc, dropWhile_cons_of_pos hc, ih]
    | false =>
      have hstays : ∀ first rest, lowerFrom [] (c :: cs) = first :: rest → drop first = false →
          (lowerFrom [] (c :: cs)).dropWhile drop = lowerFrom [] (c :: cs) := by
        intro first rest heq hfirst
        rw [heq, dropWhile_cons_of_neg (by simp [hfirst])]
      rw [dropWhile_cons_of_neg (by simp [hc])]
      cases hbreak : isBreak c with
      | true => exact hstays c _ (lowerFrom_break hbreak [] cs) hc
      | false =>
        obtain ⟨image, heq, hne, himage⟩ := lowerFrom_single hbreak
        obtain ⟨first, others, rfl⟩ := exists_cons_of_ne_nil hne
        refine hstays first _ heq (eq_false_of_ne_true fun hfirst => ?_)
        have hboth := himage first mem_cons_self
        rw [hdrop first hfirst] at hboth
        cases hboth

/-- Trimming the end, by going through the text from there. -/
theorem dropWhile_reverse_lowerFrom (cs : List Char) :
    ((lowerFrom [] cs).reverse.dropWhile drop).reverse
      = lowerFrom [] (cs.reverse.dropWhile drop).reverse := by
  induction cs using reverseRecOn with
  | nil => rfl
  | append_singleton cs c ih =>
    rw [reverse_append, reverse_singleton, singleton_append]
    cases hc : drop c with
    | true =>
      have hcut := lowerFrom_cut (hdrop c hc) cs [] []
      rw [hcut, reverse_append, reverse_cons, lowerFrom, reverse_nil,
        nil_append, singleton_append, dropWhile_cons_of_pos hc,
        dropWhile_cons_of_pos hc, ih]
    | false =>
      have hstays : ∀ start last, lowerFrom [] (cs ++ [c]) = start ++ [last] → drop last = false →
          ((lowerFrom [] (cs ++ [c])).reverse.dropWhile drop).reverse
            = lowerFrom [] (cs ++ [c]) := by
        intro start last heq hlast
        rw [heq, reverse_append, reverse_singleton, singleton_append,
          dropWhile_cons_of_neg (by simp [hlast]), reverse_cons, reverse_reverse]
      rw [dropWhile_cons_of_neg (by simp [hc]), reverse_cons, reverse_reverse]
      cases hbreak : isBreak c with
      | true => exact hstays _ c (lowerFrom_cut hbreak cs [] []) hc
      | false =>
        obtain ⟨start, hstart⟩ := lowerFrom_append []
        obtain ⟨image, heq, hne, himage⟩ := lowerFrom_single hbreak
        rw [heq, lowerFrom, append_nil, ← dropLast_concat_getLast hne, ← append_assoc] at hstart
        refine hstays _ _ hstart (eq_false_of_ne_true fun hlast => ?_)
        have hboth := himage _ (getLast_mem hne)
        rw [hdrop _ hlast] at hboth
        cases hboth

theorem trimList_lowerFrom (cs : List Char) :
    trimList drop (lowerFrom [] cs) = lowerFrom [] (trimList drop cs) := by
  rw [trimList, trimList, dropWhile_lowerFrom hdrop, dropWhile_reverse_lowerFrom hdrop]

end Trimming

theorem pieces_lowerFrom {separator : Char} (h : isBreak separator) (cs : List Char) :
    pieces separator (lowerFrom [] cs) = (pieces separator cs).map (lowerFrom []) := by
  by_cases hmem : separator ∈ cs
  · obtain ⟨left, right, hcs, hleft⟩ := eq_append_cons_of_mem hmem
    have hshort : right.length < cs.length := by
      rw [hcs, length_append, length_cons]
      omega
    rw [hcs, lowerFrom_cut h, pieces_append, pieces_append, map_append, pieces_lowerFrom h right,
      pieces_of_notMem (notMem_lowerFrom h hleft []), pieces_of_notMem hleft]
    rfl
  · rw [pieces_of_notMem (notMem_lowerFrom h hmem []), pieces_of_notMem hmem]
    rfl
termination_by cs.length

end QueryAudit.Text

namespace QueryAudit.Php

open Text

variable {name : String}

theorem stripClassName_lower : stripClassName (lower name) = lower (stripClassName name) := by
  have hblank : ∀ c, isBlank c → isBreak c := fun c hc => by rw [isBreak, hc]; rfl
  have hslash : ∀ c, decide (c = '\\') → isBreak c := fun c hc => by
    rw [isBreak, hc, Bool.or_true]
  unfold stripClassName trim trimBoth trimStart lower
  simp only [String.toList_ofList]
  rw [trimList_lowerFrom hblank, dropWhile_lowerFrom hslash]

/-- **The short name of a class in small letters.** -/
theorem shortClassName_lower : shortClassName (lower name) = lower (shortClassName name) := by
  unfold shortClassName splitAt
  rw [stripClassName_lower, lower, String.toList_ofList, pieces_lowerFrom (by decide), List.map_map,
    List.getLast?_map, List.getLast?_map]
  cases (pieces '\\' (stripClassName name).toList).getLast? with
  | none => decide
  | some piece =>
    show String.ofList (lowerFrom [] piece) = lower (String.ofList piece)
    rw [lower, String.toList_ofList]

theorem lower_shortClassName_congr {a b : String} (h : lower a = lower b) :
    lower (shortClassName a) = lower (shortClassName b) := by
  rw [← shortClassName_lower, ← shortClassName_lower, h]

end QueryAudit.Php
