/-
  QueryAudit.Proofs.Php.Escape — what string literals mean

  The rules of the language for the text between quotes, stated on their own; the readers give these
  values. A sequence for a byte stands for a character only when the byte is one of the first 128.

  Main results: `plainValue_eq`, `singleQuotedValue_scans`, `unescape_of_escapeValue`.
-/

import QueryAudit.Php.Literal

namespace QueryAudit.Php

open Text List

variable {base m n : Nat} {c a b replacement : Char} {cs digits rest : List Char}
  {drop : Char → Bool}

/-! ## Single-quoted text. -/

/-- Single-quoted text read from left to right: a backslash before a backslash or a quote is left
out, everything else stands for itself. -/
def unquote : List Char → List Char
  | [] => []
  | '\\' :: '\\' :: rest => '\\' :: unquote rest
  | '\\' :: '\'' :: rest => '\'' :: unquote rest
  | c :: rest => c :: unquote rest

/-- The character for which another stands in when texts are replaced. -/
def restored (c : Char) : Char := if c = '\x00' then '\\' else c

def replacePair (a b replacement : Char) (cs : List Char) : List Char :=
  replaceFrom [a, b] [replacement] 0 cs

theorem replacePair_pair :
    replacePair a b replacement (a :: b :: rest)
      = replacement :: replacePair a b replacement rest := by
  have hstart : startsWith [a, b] (a :: b :: rest) = true := by simp [startsWith]
  rw [replacePair, replaceFrom, if_pos hstart]
  rfl

theorem replacePair_cons (h : c = a → rest.head? ≠ some b) :
    replacePair a b replacement (c :: rest) = c :: replacePair a b replacement rest := by
  have hstart : startsWith [a, b] (c :: rest) = false := by
    by_cases hc : a = c
    · cases rest with
      | nil => simp [startsWith]
      | cons d rest =>
        have hd : b ≠ d := fun heq => h hc.symm (by rw [head?_cons, heq])
        simp [startsWith, hd]
    · simp [startsWith, hc]
  rw [replacePair, replaceFrom, hstart]
  rfl

def withoutPairs : List Char → List Char := replacePair '\\' '\\' '\x00'

def withoutQuotes : List Char → List Char := replacePair '\\' '\'' '\''

theorem withoutPairs_cons
    (h : c = '\\' → rest.head? ≠ some '\\') : withoutPairs (c :: rest) = c :: withoutPairs rest :=
  replacePair_cons h

theorem withoutQuotes_cons
    (h : c = '\\' → rest.head? ≠ some '\'') : withoutQuotes (c :: rest) = c :: withoutQuotes rest :=
  replacePair_cons h

theorem head?_withoutPairs (h : rest.head? ≠ some '\\') :
    (withoutPairs rest).head? = rest.head? := by
  cases rest with
  | nil => rfl
  | cons c rest =>
    have hc : c ≠ '\\' := fun heq => h (by rw [head?_cons, heq])
    rw [withoutPairs_cons (fun heq => absurd heq hc)]
    rfl

theorem restore_eq_map : replaceFrom ['\x00'] ['\\'] 0 cs = cs.map restored := by
  induction cs with
  | nil => rfl
  | cons c cs ih =>
    rw [replaceFrom, map_cons, ← ih, restored]
    by_cases hc : c = '\x00'
    · rw [hc]
      rfl
    · rw [if_neg (by simpa [startsWith] using fun h => hc h.symm), if_neg hc]

theorem map_restored_withoutQuotes :
    (withoutQuotes (withoutPairs cs)).map restored = (unquote cs).map restored := by
  fun_induction unquote cs with
  | case1 => rfl
  | case2 rest ih =>
    have hpair : withoutPairs ('\\' :: '\\' :: rest) = '\x00' :: withoutPairs rest :=
      replacePair_pair
    rw [hpair, withoutQuotes_cons (fun heq => absurd heq (by decide)), map_cons, map_cons, ih]
    rfl
  | case3 rest ih =>
    have hquote : withoutQuotes ('\\' :: '\'' :: withoutPairs rest)
        = '\'' :: withoutQuotes (withoutPairs rest) := replacePair_pair
    rw [withoutPairs_cons (fun _ => by simp),
      withoutPairs_cons (fun heq => absurd heq (by decide)), hquote, map_cons,
      map_cons, ih]
  | case4 c rest hpair hquote ih =>
    have hnext : c = '\\' → rest.head? ≠ some '\\' ∧ rest.head? ≠ some '\'' := by
      rintro rfl
      cases rest with
      | nil => simp
      | cons d rest =>
        have hback : d ≠ '\\' := fun heq => hpair rest rfl (by rw [heq])
        have hmark : d ≠ '\'' := fun heq => hquote rest rfl (by rw [heq])
        simp [hback, hmark]
    have hquotes : c = '\\' → (withoutPairs rest).head? ≠ some '\'' := by
      intro hc
      rw [head?_withoutPairs (hnext hc).1]
      exact (hnext hc).2
    rw [withoutPairs_cons (fun hc => (hnext hc).1), withoutQuotes_cons hquotes, map_cons,
      map_cons, ih]

/-- **Single-quoted text read by replacements is the text read from left to right**, but that a
null character comes out as a backslash. -/
theorem plainValue_eq {body : String} :
    plainValue body = String.ofList ((unquote body.toList).map restored) := by
  have hpass : ∀ (needle replacement : String) (cs : List Char), needle.isEmpty = false →
      replaceAll needle replacement (String.ofList cs)
        = String.ofList (replaceFrom needle.toList replacement.toList 0 cs) := by
    intro needle replacement cs hneedle
    rw [replaceAll, hneedle, String.toList_ofList]
    rfl
  rw [plainValue]
  conv => lhs; rw [← String.ofList_toList (s := body)]
  rw [hpass _ _ _ (by decide), hpass _ _ _ (by decide), hpass _ _ _ (by decide)]
  show String.ofList (replaceFrom ['\x00'] ['\\'] 0 (withoutQuotes (withoutPairs body.toList))) = _
  rw [restore_eq_map, map_restored_withoutQuotes]

theorem notMem_unquote (h : c ∉ cs) : c ∉ unquote cs := by
  fun_induction unquote cs with
  | case1 => exact h
  | case2 rest ih => simp_all
  | case3 rest ih => simp_all
  | case4 d rest _ _ ih => simp_all

theorem map_restored_unquote (h : '\x00' ∉ cs) : (unquote cs).map restored = unquote cs := by
  refine (map_congr_left fun c hc => if_neg ?_).trans (map_id _)
  rintro rfl
  exact notMem_unquote h hc

theorem singleQuotedValue_eq {text : String} {mark body : List Char}
    (hmark : mark ∈ [[], ['b'], ['B']]) (htext : text.toList = mark ++ '\'' :: body ++ ['\'']) :
    singleQuotedValue text = String.ofList ((unquote body).map restored) := by
  have hquoted : quotedBody text = String.ofList body := by
    simp only [mem_cons, not_mem_nil, or_false] at hmark
    rcases hmark with rfl | rfl | rfl <;> simp [quotedBody, htext]
  rw [singleQuotedValue, hquoted, plainValue_eq, String.toList_ofList]

/-- **A single-quoted literal has the value that one reading from left to right gives**, but for
null characters, each of which comes out as a backslash. -/
theorem singleQuotedValue_scans {text : String} {mark body : List Char}
    (hmark : mark ∈ [[], ['b'], ['B']]) (htext : text.toList = mark ++ '\'' :: body ++ ['\'']) :
    singleQuotedValue text = String.ofList ((unquote body).map restored)
      ∧ ('\x00' ∉ body → singleQuotedValue text = String.ofList (unquote body)) := by
  refine ⟨singleQuotedValue_eq hmark htext, fun hbody => ?_⟩
  rw [singleQuotedValue_eq hmark htext, map_restored_unquote hbody]

/-- Of five backslashes before a quote two pairs are left, and the last one belongs to the quote. -/
theorem singleQuotedValue_scans_run :
    singleQuotedValue "'a\\\\\\\\\\'\x00'" = "a\\\\'\\" := by
  have htext : "'a\\\\\\\\\\'\x00'".toList
      = [] ++ '\'' :: "a\\\\\\\\\\'\x00".toList ++ ['\''] := by
    decide
  exact (singleQuotedValue_scans (by decide) htext).1

/-! ## Numerals. -/

def digitTable : List (Char × Nat) :=
  [('0', 0), ('1', 1), ('2', 2), ('3', 3), ('4', 4), ('5', 5), ('6', 6), ('7', 7), ('8', 8),
   ('9', 9), ('a', 10), ('b', 11), ('c', 12), ('d', 13), ('e', 14), ('f', 15), ('A', 10),
   ('B', 11), ('C', 12), ('D', 13), ('E', 14), ('F', 15)]

/-- The number written by a number and further digits in a base. -/
def numeral? (base : Nat) : Nat → List Char → Option Nat
  | n, [] => some n
  | n, c :: rest =>
    match digitTable.lookup c with
    | some d => if d < base then numeral? base (n * base + d) rest else none
    | none => none

theorem digitTable_reads : ∀ entry ∈ digitTable,
    digitValue? entry.1 = some entry.2 ∧ isBlank entry.1 = false
      ∧ entry.1 ∉ ['_', '-', '+', 'x', 'X', 'o', 'O'] := by
  decide

theorem notMem_marks (h : ∃ d < base, (c, d) ∈ digitTable) :
    c ∉ ['_', '-', '+', 'x', 'X', 'o', 'O'] := by
  obtain ⟨d, _, hd⟩ := h
  exact (digitTable_reads _ hd).2.2

theorem numeral?_cons (h : numeral? base n (c :: rest) = some m) :
    ∃ d, (c, d) ∈ digitTable ∧ d < base ∧ numeral? base (n * base + d) rest = some m := by
  rw [numeral?] at h
  split at h
  · next d hd =>
    split at h
    · next hbase =>
      obtain ⟨before, after, htable, _⟩ := lookup_eq_some_iff.mp hd
      exact ⟨d, by rw [htable]; simp, hbase, h⟩
    · cases h
  · cases h

theorem digitsFrom_of_numeral? : ∀ {n : Nat} {afterDigit : Bool}, numeral? base n digits = some m →
      (digits = [] → afterDigit = true) → digitsFrom base n afterDigit digits = some m := by
  induction digits with
  | nil =>
    intro n afterDigit h hafter
    rw [digitsFrom, hafter rfl]
    exact h
  | cons c digits ih =>
    intro n afterDigit h _
    obtain ⟨d, hmem, hbase, hrest⟩ := numeral?_cons h
    obtain ⟨hvalue, _, hmark⟩ := digitTable_reads _ hmem
    have hunder : c ≠ '_' := by
      rintro rfl
      exact hmark mem_cons_self
    rw [digitsFrom, if_neg hunder, hvalue]
    simp only [hbase, if_true]
    exact ih hrest (fun _ => rfl)

theorem mem_digitTable_of_numeral? : ∀ {n : Nat}, numeral? base n digits = some m →
      ∀ c ∈ digits, ∃ d < base, (c, d) ∈ digitTable := by
  induction digits with
  | nil => exact fun _ _ hmem => nomatch hmem
  | cons c digits ih =>
    intro n h
    obtain ⟨d, hmem, hbase, hrest⟩ := numeral?_cons h
    exact forall_mem_cons.mpr ⟨⟨d, hbase, hmem⟩, ih hrest⟩

theorem dropWhile_of_forall (h : ∀ c ∈ cs, drop c = false) : cs.dropWhile drop = cs := by
  cases cs with
  | nil => rfl
  | cons c cs => rw [dropWhile_cons_of_neg (by simp [h c mem_cons_self])]

theorem trimList_of_forall (h : ∀ c ∈ cs, drop c = false) : trimList drop cs = cs := by
  have hreverse : ∀ c ∈ cs.reverse, drop c = false := fun c hc => h c (mem_reverse.mp hc)
  rw [trimList, dropWhile_of_forall h, dropWhile_of_forall hreverse, reverse_reverse]

theorem dropBaseMark_of_digits
    (h : ∀ c ∈ digits, ∃ d < base, (c, d) ∈ digitTable) (hbase : base ≠ 2) :
    dropBaseMark base digits = digits := by
  unfold dropBaseMark
  split
  case h_7 => rfl
  case h_5 => exact absurd rfl hbase
  case h_6 => exact absurd rfl hbase
  all_goals
    exact absurd (notMem_marks (h _ (mem_cons_of_mem _ mem_cons_self))) (by decide)

/-- A numeral is read as the number it writes. -/
theorem readInt?_of_numeral? (hbase : base ≠ 2)
    (hne : digits ≠ []) (h : numeral? base 0 digits = some m) :
    readInt? base (String.ofList digits) = some (m : Int) := by
  have hdigits := mem_digitTable_of_numeral? h
  have hblank : ∀ c ∈ digits, isBlank c = false := by
    intro c hc
    obtain ⟨d, _, hd⟩ := hdigits c hc
    exact (digitTable_reads _ hd).2.1
  have hread : digitsFrom base 0 false (dropBaseMark base digits) = some m := by
    rw [dropBaseMark_of_digits hdigits hbase]
    exact digitsFrom_of_numeral? h (fun hnil => absurd hnil hne)
  rw [readInt?, String.toList_ofList, trimList_of_forall hblank]
  split
  · exact absurd (notMem_marks (hdigits _ mem_cons_self)) (by decide)
  · exact absurd (notMem_marks (hdigits _ mem_cons_self)) (by decide)
  · rw [hread]
    rfl

/-! ## Escape sequences. -/

def simpleEscapes : List (Char × Char) :=
  [('n', '\n'), ('t', '\t'), ('r', '\r'), ('v', '\x0b'), ('e', '\x1b'), ('f', '\x0c'),
   ('\\', '\\'), ('$', '$'), ('"', '"')]

/-- The character that an escape sequence of double-quoted text stands for. -/
inductive EscapeValue : List Char → Char → Prop
  | simple {c d : Char} : (c, d) ∈ simpleEscapes → EscapeValue ['\\', c] d
  | hexadecimal {digits : List Char} {n : Nat} : digits ≠ [] → digits.length ≤ 2 →
      numeral? 16 0 digits = some n → n < 128 →
      EscapeValue ('\\' :: 'x' :: digits) (Char.ofNat n)
  /-- A byte in up to three octal digits; what does not fit into a byte is left out. -/
  | octal {digits : List Char} {n : Nat} : digits ≠ [] → digits.length ≤ 3 →
      numeral? 8 0 digits = some n → n % 256 < 128 →
      EscapeValue ('\\' :: digits) (Char.ofNat (n % 256))
  | codePoint {digits : List Char} {n : Nat} : digits ≠ [] → numeral? 16 0 digits = some n →
      n.isValidChar → EscapeValue ('\\' :: 'u' :: '\x7b' :: digits ++ ['\x7d']) (Char.ofNat n)

theorem le_of_isValidChar (h : n.isValidChar) : n ≤ 0x10FFFF := by
  rcases h with h | h <;> omega

/-- The value of a numeral for a code point, which may be taken modulo a bound. -/
theorem codePoint_of_numeral? {modulus : Option Nat}
    (hbase : base ≠ 2) (hne : digits ≠ []) (h : numeral? base 0 digits = some n)
    (hvalue : (modulus.map (n % ·)).getD n = m) (hm : m ≤ 0x10FFFF) :
    codePoint base modulus digits = .ok (String.singleton (Char.ofNat m)) := by
  have hlarge : ¬ ((m : Int) ≥ 0x80000000 || (m : Int) < -0x80000000) = true := by
    simp only [Bool.or_eq_true, decide_eq_true_eq]
    omega
  have hinvalid : ¬ ((m : Int) < 0 || (m : Int) > 0x10FFFF) = true := by
    simp only [Bool.or_eq_true, decide_eq_true_eq]
    omega
  rw [Php.codePoint, readInt?_of_numeral? hbase hne h]
  cases modulus with
  | none =>
    obtain rfl : n = m := hvalue
    simp only [hlarge, hinvalid, Bool.false_eq_true, if_false, Int.toNat_natCast]
  | some k =>
    have hmod : (n : Int) % (k : Int) = (m : Int) := by
      rw [← Int.natCast_emod]
      exact congrArg _ hvalue
    simp only [hmod, hlarge, hinvalid, Bool.false_eq_true, if_false, Int.toNat_natCast]

theorem octalDigit_reads : ∀ entry ∈ digitTable, entry.2 < 8 →
    isDigit entry.1 = true ∧ entry.1 ≠ 'x' ∧ entry.1 ≠ 'u'
      ∧ (shortEscape? entry.1 = none ∨ entry = ('0', 0)) := by
  decide

/-- A sequence that is neither simple nor hexadecimal is a code point or octal, or stands for
itself. -/
theorem unescape_eq (hshort : ∀ a c, cs = [a, c] → shortEscape? c = none)
    (hx : ∀ digits, cs ≠ '\\' :: 'x' :: digits) :
    unescape (String.ofList cs) =
      if startsWith ['\\', 'u', '\x7b'] cs && cs.getLast? = some '\x7d' then
        codePoint 16 none (cs.drop 3).dropLast
      else if !cs.tail.isEmpty && cs.tail.all isDigit then codePoint 8 (some 256) cs.tail
      else .ok (String.ofList cs) := by
  rw [unescape, String.toList_ofList]
  split
  · next _ _ hshape =>
    split at hshape
    · rw [hshort _ _ rfl] at hshape
      cases hshape
    · cases hshape
  · exact absurd rfl (hx _)
  · rfl

/-- **An escape sequence has the value that the language gives it**, where that is a character. -/
theorem unescape_of_escapeValue (h : EscapeValue cs c) :
    unescape (String.ofList cs) = .ok (String.singleton c) := by
  cases h with
  | simple hmem =>
    have hshort : ∀ entry ∈ simpleEscapes, shortEscape? entry.1 = some entry.2 := by decide
    rw [unescape, String.toList_ofList]
    simp only [hshort _ hmem]
  | hexadecimal hne _ hn hlt =>
    obtain ⟨d, digits, rfl⟩ := exists_cons_of_ne_nil hne
    rw [unescape, String.toList_ofList]
    exact codePoint_of_numeral? (by decide) hne hn rfl (by omega)
  | @octal digits n hne _ hn hlt =>
    have hdigits := mem_digitTable_of_numeral? hn
    have hall : digits.all isDigit = true := by
      rw [all_eq_true]
      intro c hc
      obtain ⟨d, hd, hmem⟩ := hdigits c hc
      exact (octalDigit_reads _ hmem hd).1
    have hvalue : codePoint 8 (some 256) digits = .ok (String.singleton (Char.ofNat (n % 256))) :=
      codePoint_of_numeral? (by decide) hne hn rfl (by omega)
    obtain ⟨c, rest, rfl⟩ := exists_cons_of_ne_nil hne
    obtain ⟨d, hd, hmem⟩ := hdigits c mem_cons_self
    obtain ⟨_, hx, hu, hshort⟩ := octalDigit_reads _ hmem hd
    by_cases hzero : c :: rest = ['0']
    · rw [hzero] at hn ⊢
      obtain rfl : 0 = n := Option.some.inj hn
      rfl
    · have hshort' : ∀ a e, '\\' :: c :: rest = [a, e] → shortEscape? e = none := by
        intro a e heq
        obtain ⟨_, rfl, rfl⟩ : _ ∧ c = e ∧ rest = [] := by simpa using heq
        rcases hshort with h | h
        · exact h
        · exact absurd (by rw [(Prod.mk.inj h).1]) hzero
      rw [unescape_eq hshort' (fun digits heq => hx (cons.inj (cons.inj heq).2).1)]
      have hstart : startsWith ['\\', 'u', '\x7b'] ('\\' :: c :: rest) = false := by
        simp [startsWith, hu.symm]
      rw [hstart, Bool.false_and, if_neg (by decide), tail_cons, hall]
      exact hvalue
  | @codePoint digits n hne hn hvalid =>
    rw [unescape_eq (by simp) (by simp)]
    have hlast : ('\\' :: 'u' :: '\x7b' :: digits ++ ['\x7d']).getLast? = some '\x7d' :=
      getLast?_concat
    have hdigits : (('\\' :: 'u' :: '\x7b' :: digits ++ ['\x7d']).drop 3).dropLast = digits := by
      simp
    rw [hlast, hdigits]
    have hvalue : codePoint 16 none digits = .ok (String.singleton (Char.ofNat n)) :=
      codePoint_of_numeral? (by decide) hne hn rfl (le_of_isValidChar hvalid)
    exact hvalue

end QueryAudit.Php
