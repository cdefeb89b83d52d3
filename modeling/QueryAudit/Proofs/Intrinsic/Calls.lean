/-
  QueryAudit.Proofs.Intrinsic.Calls — how calls of built-in functions end

  A call gives a text or is rejected, with two exceptions: a number that is too large for a double
  has no whole part to be printed by, and the numbers in the directives of a format may be out of
  range. The first fault of a format, in the order of its pieces, is the one that printing ends with.

  Quoting puts a backslash before quotes and backslashes. A scan that lets a backslash escape the
  next character finds every quote escaped, and undoing the escapes gives the text back.

  Main results: `fails_fill`, `call_fault_iff`, `scan_addSlashes`.
-/

import Mathlib.Data.List.Basic
import QueryAudit.Intrinsic.Call

namespace QueryAudit.Intrinsic

open Text Decimal List

variable {values : List String} {d : Directive} {args : List Argument} {taken : Nat}
  {rest : List Piece} {first : Argument} {name value text : String} {α : Type}
  {x : Except Fault String} {f : Function}

/-! ## Failures. -/

/-- What a computation comes to: a text, or a given failure. -/
def FailsBy (x : Except Fault String) : Option Fault → Prop
  | none => ∃ text, x = .ok text
  | some fault => x = .error fault

theorem FailsBy.bind {x : Except Fault String} {f : String → Except Fault String}
    {first second : Option Fault} (hx : FailsBy x first) (hf : ∀ text, FailsBy (f text) second) :
    FailsBy (x >>= f) (first.or second) := by
  cases first with
  | none =>
    obtain ⟨text, rfl⟩ := hx
    exact hf text
  | some fault =>
    rw [show x = .error fault from hx]
    rfl

theorem FailsBy.map {fault : Option Fault} (h : FailsBy x fault) (f : String → String) :
    FailsBy (x >>= fun text => pure (f text)) fault := by
  have hf : ∀ text, FailsBy (pure (f text) : Except Fault String) none := fun text => ⟨_, rfl⟩
  simpa using h.bind hf

theorem FailsBy.eq_error_iff {failure : Option Fault} (h : FailsBy x failure) (fault : Fault) :
    x = .error fault ↔ failure = some fault := by
  cases failure with
  | none =>
    obtain ⟨text, rfl⟩ := h
    simp
  | some other =>
    rw [show x = .error other from h]
    simp

/-! ## Directives. -/

/-- The fault of digits that stand for a number up to a limit. -/
def numberFault? (digits : List Char) (limit : Nat) (fault : Fault) : Option Fault :=
  if digitLimit < digits.length then some .digits
  else if limit < decimalNumber digits then some fault else none

/-- Whole numbers and characters are printed without a precision; doubles have a limit to it. -/
def Directive.precisionFault? (d : Directive) : Option Fault :=
  if ['d', 'u', 'x', 'X', 'o', 'b', 'c'].contains d.conversion then none
  else if ['f', 'F', 'e', 'E', 'g', 'G'].contains d.conversion then
    numberFault? d.precision precisionLimit .precision
  else numberFault? d.precision (decimalNumber d.precision) .precision

def Directive.valueFault? (values : List String) (taken : Nat) (d : Directive) : Option Fault :=
  if digitLimit < d.position.length then some .digits
  else
    let number := if d.position.isEmpty then taken + 1 else decimalNumber d.position
    if number = 0 ∨ values.length < number then some (.rejected .tooFewValues) else none

/-- What goes wrong with a directive: it is without a value, or a number in it is out of range. -/
def Directive.fault? (values : List String) (taken : Nat) (d : Directive) : Option Fault :=
  if d.conversion = '%' then none
  else (d.valueFault? values taken).or
    (d.precisionFault?.or (numberFault? d.width widthLimit .overflow))

theorem fails_doubleDirective (value : String) (layout : Layout) (precision : List Char) :
    FailsBy (doubleDirective value layout precision)
      (numberFault? precision precisionLimit .precision) := by
  unfold doubleDirective numberFault?
  cases precision with
  | nil => exact ⟨_, rfl⟩
  | cons c precision =>
    simp only [isEmpty_cons, Bool.false_eq_true, if_false, readDigits]
    split
    · rfl
    · show FailsBy (if decimalNumber (c :: precision) > precisionLimit then _ else _) _
      split
      · rfl
      · exact ⟨_, rfl⟩

theorem fails_convert : FailsBy (convert value d) d.precisionFault? := by
  have hdouble := fun layout => fails_doubleDirective value layout d.precision
  have hupper := fun layout => (hdouble layout).map upper
  unfold convert Directive.precisionFault?
  split
  case h_1 h | h_2 h | h_9 h | h_10 h | h_11 h | h_12 h | h_13 h =>
    rw [h]
    exact ⟨_, rfl⟩
  case h_3 h | h_4 h | h_5 h | h_7 h =>
    rw [h]
    exact hdouble _
  case h_6 h | h_8 h =>
    rw [h]
    exact hupper _
  case h_14 =>
    have hwhole : ['d', 'u', 'x', 'X', 'o', 'b', 'c'].contains d.conversion = false := by grind
    have hdoubles : ['f', 'F', 'e', 'E', 'g', 'G'].contains d.conversion = false := by grind
    simp only [hwhole, hdoubles, numberFault?, Nat.lt_irrefl, readDigits]
    cases d.precision with
    | nil => exact ⟨_, rfl⟩
    | cons c precision =>
      simp only [isEmpty_cons, Bool.false_eq_true, if_false]
      split
      · rfl
      · exact ⟨_, rfl⟩

theorem fails_pad : FailsBy (pad text d) (numberFault? d.width widthLimit .overflow) := by
  unfold pad numberFault? readDigits
  cases d.width with
  | nil => exact ⟨_, rfl⟩
  | cons c width =>
    simp only [isEmpty_cons, Bool.false_eq_true, if_false]
    split
    · rfl
    · show FailsBy (if decimalNumber (c :: width) > widthLimit then _ else _) _
      split
      · rfl
      · split
        · exact ⟨_, rfl⟩
        · exact ⟨_, rfl⟩

theorem fails_valueNumbered {number : Nat} :
    FailsBy (valueNumbered values number)
      (if number = 0 ∨ values.length < number then some (.rejected .tooFewValues) else none) := by
  unfold valueNumbered
  by_cases h : number = 0 ∨ values.length < number
  · have hnone : (if number = 0 then none else values[number - 1]?) = none := by
      rcases h with rfl | h
      · rfl
      · rw [getElem?_eq_none (by omega), ite_self]
    rw [if_pos h, hnone]
    rfl
  · have hlt : number - 1 < values.length := by omega
    rw [if_neg h, if_neg (by omega), getElem?_eq_getElem hlt]
    exact ⟨_, rfl⟩

theorem fails_valueFor : FailsBy (valueFor values taken d) (d.valueFault? values taken) := by
  unfold valueFor Directive.valueFault? readDigits
  cases d.position with
  | nil => exact fails_valueNumbered
  | cons c position =>
    simp only [isEmpty_cons, Bool.false_eq_true, if_false]
    split
    · rfl
    · exact fails_valueNumbered

/-! ## Formats. -/

def Piece.fault? (values : List String) (taken : Nat) : Piece → Option Fault
  | .literal _ => none
  | .directive d => d.fault? values taken

def Piece.takesNext : Piece → Bool
  | .literal _ => false
  | .directive d => d.conversion ≠ '%' && d.position.isEmpty

/-- The first fault of the pieces of a format. -/
def firstFault? (values : List String) (taken : Nat) (pieces : List Piece) : Option Fault :=
  (pieces.mapIdx fun i p => p.fault? values (taken + (pieces.take i).countP Piece.takesNext)).findSome?
    id

theorem firstFault?_cons {p : Piece} :
    firstFault? values taken (p :: rest)
      = (p.fault? values taken).or (firstFault? values (taken + [p].countP Piece.takesNext) rest) := by
  have hcount : ∀ i, taken + ((p :: rest).take (i + 1)).countP Piece.takesNext
      = taken + [p].countP Piece.takesNext + (rest.take i).countP Piece.takesNext := by
    intro i
    rw [take_succ_cons, ← singleton_append, countP_append, Nat.add_assoc]
  rw [firstFault?, mapIdx_cons]
  simp only [hcount, take_zero, countP_nil, id]
  cases p.fault? values taken with
  | none => rfl
  | some fault => rfl

/-- **Filling in a format ends with the first fault of its pieces**, and gives a text if there is
none. -/
theorem fails_fill : ∀ taken, FailsBy (fill values taken rest) (firstFault? values taken rest) := by
  induction rest with
  | nil => exact fun taken => ⟨"", rfl⟩
  | cons p rest ih =>
    intro taken
    rw [firstFault?_cons]
    cases p with
    | literal c => exact (ih taken).map _
    | directive d =>
      have htaken : [Piece.directive d].countP Piece.takesNext
          = if d.conversion ≠ '%' && d.position.isEmpty then 1 else 0 := countP_singleton
      rw [htaken, fill]
      split
      · next h =>
        have hfault : (Piece.directive d).fault? values taken = none := if_pos h
        rw [hfault, h]
        exact (ih taken).map _
      · next h =>
        have hprint : FailsBy (do pad (← convert (← valueFor values taken d) d) d)
            ((Piece.directive d).fault? values taken) := by
          rw [Piece.fault?, Directive.fault?, if_neg h]
          refine fails_valueFor.bind fun value => ?_
          exact fails_convert.bind fun text => fails_pad
        have hnext : (if d.position.isEmpty then taken + 1 else taken)
            = taken + if d.conversion ≠ '%' && d.position.isEmpty then 1 else 0 := by
          cases d.position.isEmpty <;> simp [h]
        rw [hnext]
        simpa only [bind_assoc] using hprint.bind fun text => (ih _).map _

/-! ## Calls. -/

/-- A computation gives a text or is rejected. -/
def Rejects {α : Type} (x : Except Fault α) : Prop :=
  ∀ fault, x = .error fault → ∃ why, fault = .rejected why

theorem rejects_ok {a : α} : Rejects (.ok a) := fun _ h => by cases h

theorem rejects_error {why : Rejection} : Rejects (.error (.rejected why) : Except Fault α) :=
  fun _ h => ⟨why, (Except.error.inj h).symm⟩

theorem rejects_scalar (arg : Argument) {f : String → Except Fault α}
    (hf : ∀ text, Rejects (f text)) : Rejects (arg.scalar name >>= f) := by
  cases arg with
  | text value => exact hf value
  | list items => exact rejects_error

theorem rejects_trimWith {cut : (Char → Bool) → String → String} {rest : List Argument} :
    Rejects (trimWith cut first rest) := by
  unfold trimWith
  cases rest with
  | nil => exact rejects_scalar first fun text => rejects_ok
  | cons chars rest =>
    cases chars with
    | text value => exact rejects_scalar first fun text => rejects_ok
    | list items => exact rejects_error

theorem rejects_strReplace : Rejects (strReplace args) := by
  unfold strReplace
  split
  · exact rejects_scalar _ fun subject => rejects_ok
  · exact rejects_error

theorem rejects_implode : Rejects (implode args) := by
  unfold implode
  split
  · exact rejects_ok
  · exact rejects_scalar _ fun glue => rejects_ok
  · exact rejects_ok
  · exact rejects_error

/-- **Apart from printing by a format and doubles, functions give a text or are rejected.** -/
theorem rejects_function (h : function? name = some f) (hprint : name ≠ "sprintf")
    (hdouble : name ≠ "floatval") {rest : List Argument} : Rejects (f first rest) := by
  unfold function? at h
  split at h
  case h_1 | h_2 | h_3 | h_4 | h_12 | h_13 | h_16 =>
    cases h
    exact rejects_scalar first fun text => rejects_ok
  case h_5 | h_6 | h_7 =>
    cases h
    exact rejects_trimWith
  case h_8 =>
    cases h
    exact rejects_strReplace
  case h_9 => exact absurd rfl hprint
  case h_10 | h_11 =>
    cases h
    exact rejects_implode
  case h_14 => exact absurd rfl hdouble
  case h_15 =>
    cases h
    exact rejects_ok
  case h_17 => cases h

theorem doubleText_eq_error_iff {x : Double} {fault : Fault} :
    doubleText x = .error fault ↔ fault = .overflow ∧ x.magnitude = .infinite := by
  cases hx : x.magnitude with
  | infinite => simp [doubleText, hx, eq_comm]
  | finite v =>
    simp only [doubleText, Double.truncate?, hx]
    generalize (if x.negative = true then -(v.floor : Int) else v.floor) = n
    split <;> simp

theorem mapM_scalar_text (name : String) (values : List String) :
    (values.map Argument.text).mapM (·.scalar name) = .ok values := by
  induction values with
  | nil => rfl
  | cons value values ih =>
    rw [map_cons, mapM_cons, ih]
    rfl

theorem rejects_mapM_scalar (name : String) (args : List Argument) :
    (∃ values : List String, args = values.map .text) ∨
      ∃ why, args.mapM (·.scalar name) = .error (.rejected why) := by
  induction args with
  | nil => exact .inl ⟨[], rfl⟩
  | cons arg args ih =>
    rw [mapM_cons]
    cases arg with
    | list items => exact .inr ⟨_, rfl⟩
    | text value =>
      rcases ih with ⟨values, rfl⟩ | ⟨why, herror⟩
      · exact .inl ⟨value :: values, rfl⟩
      · exact .inr ⟨why, by rw [herror]; rfl⟩

theorem call_known (h : function? (lower name) = some f) (first : Argument) (rest : List Argument) :
    call name (first :: rest) = f first rest := by
  unfold call
  rw [h]

theorem call_sprintf (hname : lower name = "sprintf") (format : String) (values : List String) :
    call name (.text format :: values.map .text) = sprintf format values := by
  have hvalues := mapM_scalar_text "sprintf" values
  refine (call_known (by rw [hname]; rfl) (.text format) (values.map .text)).trans ?_
  simp only [hvalues]
  rfl

theorem call_floatval (hname : lower name = "floatval") (text : String) (rest : List Argument) :
    call name (.text text :: rest) = doubleText (leadingDouble text) :=
  call_known (by rw [hname]; rfl) _ _

/-- Arguments of another sort than a function works on are turned down. -/
theorem rejects_call (hprint : lower name = "sprintf" →
      ∀ (format : String) (values : List String), args ≠ .text format :: values.map .text)
    (hdouble : lower name = "floatval" → ∀ text rest, args ≠ .text text :: rest) :
    Rejects (call name args) := by
  cases hf : function? (lower name) with
  | none =>
    unfold call
    rw [hf]
    exact rejects_error
  | some f =>
    cases args with
    | nil =>
      unfold call
      rw [hf]
      exact rejects_error
    | cons first rest =>
      rw [call_known hf]
      by_cases hname : lower name = "sprintf"
      · rw [hname] at hf
        cases hf
        cases first with
        | list items => exact rejects_error
        | text format =>
          rcases rejects_mapM_scalar "sprintf" rest with ⟨values, rfl⟩ | ⟨why, herror⟩
          · exact absurd rfl (hprint hname format values)
          · simp only [herror]
            exact rejects_error
      by_cases hname' : lower name = "floatval"
      · rw [hname'] at hf
        cases hf
        cases first with
        | list items => exact rejects_error
        | text text => exact absurd rfl (hdouble hname' text rest)
      · exact rejects_function hf hname hname'

/-- **How a call can end otherwise than with a text or a rejection**: a double is infinite, or the
first fault of a format is a number out of range. -/
theorem call_fault_iff {fault : Fault} (hfault : ∀ why, fault ≠ .rejected why) (name : String)
    (args : List Argument) :
    call name args = .error fault ↔
      (lower name = "floatval" ∧ fault = .overflow ∧ ∃ text rest, args = .text text :: rest
        ∧ (leadingDouble text).magnitude = .infinite)
      ∨ (lower name = "sprintf" ∧ ∃ (format : String) (values : List String),
        args = .text format :: values.map .text
        ∧ firstFault? values 0 (pieces format.toList) = some fault) := by
  constructor
  · intro h
    by_contra hnone
    rw [not_or] at hnone
    have hrejects : Rejects (call name args) := by
      refine rejects_call ?_ ?_
      · rintro hname format values rfl
        rw [call_sprintf hname, sprintf, (fails_fill 0).eq_error_iff] at h
        exact hnone.2 ⟨hname, format, values, rfl, h⟩
      · rintro hname text rest rfl
        rw [call_floatval hname, doubleText_eq_error_iff] at h
        exact hnone.1 ⟨hname, h.1, text, rest, rfl, h.2⟩
    obtain ⟨why, hwhy⟩ := hrejects fault h
    exact hfault why hwhy
  · rintro (⟨hname, rfl, text, rest, rfl, hinfinite⟩ | ⟨hname, format, values, rfl, hfirst⟩)
    · rw [call_floatval hname, doubleText_eq_error_iff]
      exact ⟨rfl, hinfinite⟩
    · rw [call_sprintf hname, sprintf, (fails_fill 0).eq_error_iff]
      exact hfirst

/-- The second directive asks for more digits than there may be, and the third value is missing. -/
theorem call_fault_iff_precision :
    call "SPRINTF" [.text "%d %.2147483648f %s", .text "7", .text "1.5"] = .error .precision := by
  refine (call_fault_iff (fun why h => by cases h) _ _).mpr (.inr ⟨by decide +kernel, ?_⟩)
  exact ⟨"%d %.2147483648f %s", ["7", "1.5"], rfl, by decide +kernel⟩

/-- A double that is infinite is not printed. -/
theorem call_floatval_infinite : call "floatval" [.text "1e999"] = .error .overflow := by
  decide +kernel

/-! ## Quoting. -/

/-- A character as a scan comes upon it: behind a backslash, or by itself. -/
structure Scanned where
  escaped : Bool
  char : Char
  deriving DecidableEq, Repr

/-- Scan a text from left to right, a backslash escaping the next character. Nothing comes of a text
that ends inside an escape. -/
def scan : List Char → Option (List Scanned)
  | [] => some []
  | ['\\'] => none
  | '\\' :: c :: rest => (scan rest).map (⟨true, c⟩ :: ·)
  | c :: rest => (scan rest).map (⟨false, c⟩ :: ·)

def Scanned.meaning (m : Scanned) : Char :=
  if m.escaped && m.char = '0' then '\x00' else m.char

def needsSlash (c : Char) : Bool := c = '\'' || c = '"' || c = '\\'

/-- How a character is come upon once it was quoted. -/
def quotedMark (c : Char) : Scanned :=
  if c = '\x00' then ⟨true, '0'⟩ else ⟨needsSlash c, c⟩

/-- A zero is never quoted, so an escaped one stands for the null character. -/
theorem meaning_quotedMark (c : Char) : (quotedMark c).meaning = c := by
  unfold quotedMark Scanned.meaning
  split
  · next h => rw [h]; rfl
  · split
    · next h =>
      have hzero : c = '0' := of_decide_eq_true (Bool.and_eq_true_iff.mp h).2
      subst hzero
      revert h
      decide
    · rfl

theorem scan_addSlashes_list {cs : List Char} :
    scan (cs.flatMap fun c =>
      if c = '\x00' then ['\\', '0'] else if needsSlash c then ['\\', c] else [c])
      = some (cs.map quotedMark) := by
  induction cs with
  | nil => rfl
  | cons c cs ih =>
    rw [List.flatMap_cons, List.map_cons, quotedMark]
    by_cases hnull : c = '\x00'
    · rw [if_pos hnull, if_pos hnull, List.cons_append, List.singleton_append, scan, ih]
      rfl
    rw [if_neg hnull, if_neg hnull]
    by_cases hneeds : needsSlash c = true
    · rw [if_pos hneeds, List.cons_append, List.singleton_append, scan, ih, hneeds]
      rfl
    · have hplain : c ≠ '\\' := fun h => hneeds (by rw [h]; rfl)
      rw [if_neg hneeds, List.singleton_append, scan, ih, Bool.not_eq_true _ |>.mp hneeds]
      · rfl
      · exact fun h _ => hplain h
      · exact fun _ _ h _ => hplain h

/-- **What is quoted can be embedded, and nothing is lost.** A scan of the quoted text does not end
inside an escape and comes upon the characters of the text one after the other: quotes and
backslashes escaped, and everything as it was once escapes are undone. -/
theorem scan_addSlashes (s : String) :
    call "addslashes" [.text s] = .ok (addSlashes s) ∧ '\x00' ∉ (addSlashes s).toList
    ∧ ∃ marks, scan (addSlashes s).toList = some marks
      ∧ marks.map Scanned.meaning = s.toList
      ∧ (∀ m ∈ marks, m.escaped = false → m.char ∉ ['\'', '"', '\\'])
      ∧ ∀ (i : Nat) (c : Char), s.toList[i]? = some c → c ∈ ['\'', '"', '\\'] →
        marks[i]? = some ⟨true, c⟩ := by
  have hslashes : (addSlashes s).toList = s.toList.flatMap fun c =>
      if c = '\x00' then ['\\', '0'] else if needsSlash c then ['\\', c] else [c] :=
    String.toList_ofList
  have hneeds : ∀ c, needsSlash c = true ↔ c ∈ ['\'', '"', '\\'] := by
    intro c
    simp [needsSlash, or_assoc]
  have hname : lower "addslashes" = "addslashes" := by decide +kernel
  refine ⟨call_known (by rw [hname]; rfl) (.text s) [], ?_, s.toList.map quotedMark, ?_, ?_, ?_, ?_⟩
  · rw [hslashes, List.mem_flatMap]
    rintro ⟨c, -, hc⟩
    split at hc
    · revert hc
      decide
    · next hnull =>
      have hne : ('\x00' : Char) ≠ c := fun h => hnull h.symm
      split at hc <;> simp [hne] at hc
  · rw [hslashes]
    exact scan_addSlashes_list
  · rw [List.map_map]
    exact List.map_id'' meaning_quotedMark _
  · intro m hm
    obtain ⟨c, -, rfl⟩ := List.mem_map.mp hm
    rw [← hneeds]
    unfold quotedMark
    split
    · exact fun h => by cases h
    · exact fun h => Bool.eq_false_iff.mp h
  · intro i c hc hmem
    have hnull : c ≠ '\x00' := by
      rintro rfl
      revert hmem
      decide
    rw [List.getElem?_map, hc, Option.map_some, quotedMark, if_neg hnull, (hneeds c).mpr hmem]

end QueryAudit.Intrinsic
