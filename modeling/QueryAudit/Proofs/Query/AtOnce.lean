/-
  QueryAudit.Proofs.Query.AtOnce — placeholders replaced at once

  A condition is gone through once for each name, the longest first. What comes out is what a single
  pass gives that replaces a colon and the whole word behind it exactly when they are a name.

  Main results: `replaceAtOnce_replaceAtOnce`, `replacePlaceholder_eq`, `applyParams_at_once`.
-/

import QueryAudit.Proofs.Taint.Placeholders

namespace QueryAudit.Query

open Text List

variable {c : Char} {cs name rest word : List Char} {names others : List (List Char)}

/-- One pass for all names: a colon and the longest word behind it are a placeholder or stay. -/
def replaceAtOnce (names : List (List Char)) : List Char → List Char
  | [] => []
  | c :: rest =>
    if c = ':' ∧ c :: rest.takeWhile isPlainWordChar ∈ names then
      '?' :: replaceAtOnce names (rest.dropWhile isPlainWordChar)
    else c :: replaceAtOnce names rest
termination_by cs => cs.length
decreasing_by
  · exact Nat.lt_succ_of_le (dropWhile_sublist _).length_le
  · exact Nat.lt_succ_self _

/-- A colon and a word. -/
def IsPlaceholder (name : List Char) : Prop :=
  ∃ word, name = ':' :: word ∧ word ≠ [] ∧ ∀ c ∈ word, isPlainWordChar c

/-! ## Words in a pass. -/

/-- No word goes on with a text. -/
def EndsWord (cs : List Char) : Prop := (cs.head?.map isPlainWordChar).getD false = false

theorem endsWord_dropWhile (cs : List Char) : EndsWord (cs.dropWhile isPlainWordChar) := by
  have h := head?_dropWhile_not isPlainWordChar cs
  rw [EndsWord]
  cases hhead : (cs.dropWhile isPlainWordChar).head? with
  | none => rfl
  | some c => simpa [hhead] using h

theorem span_append (hword : ∀ c ∈ word, isPlainWordChar c) (h : EndsWord rest) :
    (word ++ rest).takeWhile isPlainWordChar = word
      ∧ (word ++ rest).dropWhile isPlainWordChar = rest := by
  rw [takeWhile_append_of_pos hword, dropWhile_append_of_pos hword]
  cases rest with
  | nil => simp
  | cons c rest =>
    have hc : ¬ isPlainWordChar c := by simpa [EndsWord] using h
    rw [takeWhile_cons_of_neg hc, dropWhile_cons_of_neg hc, append_nil]
    exact ⟨rfl, rfl⟩

theorem endsWord_replaceAtOnce (names : List (List Char)) (h : EndsWord cs) :
    EndsWord (replaceAtOnce names cs) := by
  cases cs with
  | nil => rwa [replaceAtOnce]
  | cons c rest =>
    rw [replaceAtOnce]
    split
    · exact (by decide : isPlainWordChar '?' = false)
    · exact h

theorem replaceAtOnce_append (hword : ∀ c ∈ word, isPlainWordChar c) :
    replaceAtOnce names (word ++ rest) = word ++ replaceAtOnce names rest := by
  induction word with
  | nil => rfl
  | cons c word ih =>
    obtain ⟨hc, hword⟩ := forall_mem_cons.mp hword
    have hcolon : c ≠ ':' := by
      rintro rfl
      exact absurd hc (by decide)
    rw [cons_append, replaceAtOnce, if_neg fun h => hcolon h.1, ih hword, cons_append]

/-- A pass leaves the word at the start of a text, and goes on behind it. -/
theorem span_replaceAtOnce (names : List (List Char)) :
    (replaceAtOnce names cs).takeWhile isPlainWordChar = cs.takeWhile isPlainWordChar
      ∧ (replaceAtOnce names cs).dropWhile isPlainWordChar
        = replaceAtOnce names (cs.dropWhile isPlainWordChar) := by
  have hword := all_eq_true.mp (all_takeWhile (p := isPlainWordChar) (l := cs))
  have hspan := span_append hword (endsWord_replaceAtOnce names (endsWord_dropWhile cs))
  rwa [← replaceAtOnce_append hword, takeWhile_append_dropWhile] at hspan

/-! ## Passes in turn. -/

/-- **Two passes are one pass for the names of both.** -/
theorem replaceAtOnce_replaceAtOnce :
    replaceAtOnce names (replaceAtOnce others cs) = replaceAtOnce (others ++ names) cs := by
  fun_induction replaceAtOnce others cs with
  | case1 => simp [replaceAtOnce]
  | case2 c rest h ih =>
    rw [replaceAtOnce, if_neg fun h => absurd h.1 (by decide), ih, replaceAtOnce,
      if_pos ⟨h.1, mem_append_left _ h.2⟩]
  | case3 c rest h ih =>
    obtain ⟨htake, hdrop⟩ := span_replaceAtOnce others
    have hbehind := congrArg (dropWhile isPlainWordChar) ih
    rw [(span_replaceAtOnce names).2, (span_replaceAtOnce (others ++ names)).2] at hbehind
    rw [replaceAtOnce, replaceAtOnce, htake, hbehind, ih]
    by_cases hit : c = ':' ∧ c :: rest.takeWhile isPlainWordChar ∈ names
    · rw [if_pos hit, if_pos ⟨hit.1, mem_append_right _ hit.2⟩]
    · rw [if_neg hit, if_neg fun h' => ?_]
      exact (mem_append.mp h'.2).elim (fun hmem => h ⟨h'.1, hmem⟩) fun hmem => hit ⟨h'.1, hmem⟩

theorem replaceAtOnce_nil : replaceAtOnce [] cs = cs := by
  fun_induction replaceAtOnce [] cs with
  | case1 => rfl
  | case2 c rest h ih => cases h.2
  | case3 c rest h ih => rw [ih]

theorem replaceAtOnce_congr (h : ∀ name, name ∈ names ↔ name ∈ others) :
    replaceAtOnce names cs = replaceAtOnce others cs := by
  fun_induction replaceAtOnce names cs with
  | case1 => rw [replaceAtOnce]
  | case2 c rest hit ih => rw [replaceAtOnce, if_pos ⟨hit.1, (h _).mp hit.2⟩, ih]
  | case3 c rest hit ih => rw [replaceAtOnce, if_neg fun h' => hit ⟨h'.1, (h _).mpr h'.2⟩, ih]

theorem after?_append (name rest : List Char) : after? name (name ++ rest) = some rest := by
  induction name with
  | nil => rfl
  | cons c name ih => rw [cons_append, after?, if_pos rfl, ih]

/-- The pass for one name looks at whole words: the name is followed by no word character. -/
theorem replacePlaceholder_eq (h : IsPlaceholder name) (cs : List Char) :
    replacePlaceholder name ['?'] 0 cs = replaceAtOnce [name] cs := by
  obtain ⟨word, rfl, -, hword⟩ := h
  fun_induction replaceAtOnce [':' :: word] cs with
  | case1 => rfl
  | case2 c rest h ih =>
    obtain ⟨rfl, hmem⟩ := h
    obtain rfl := (cons.inj (mem_singleton.mp hmem)).2
    have hafter := after?_append (':' :: rest.takeWhile isPlainWordChar)
      (rest.dropWhile isPlainWordChar)
    rw [cons_append, takeWhile_append_dropWhile] at hafter
    have hrest := cut_of_after? (cons_ne_nil _ _) hafter
    rw [replacePlaceholder, hafter]
    dsimp only
    rw [endsWord_dropWhile, if_neg Bool.false_ne_true, ← map_char_cut, hrest, map_char_cut, ih]
    rfl
  | case3 c rest h ih =>
    rw [replacePlaceholder]
    split
    · next following hafter =>
      have hcs := eq_append_of_after? hafter
      rw [cons_append] at hcs
      obtain ⟨rfl, rfl⟩ := hcs
      split
      · rw [ih]
      · next hends =>
        refine absurd ⟨rfl, mem_singleton.mpr ?_⟩ h
        rw [(span_append hword (eq_false_of_ne_true hends)).1]
    · rw [ih]

theorem replaceInTurn_eq {params : List (String × String)}
    (h : ∀ p ∈ params, IsPlaceholder p.1.toList ∧ p.2 = "?") (cs : List Char) :
    replaceInTurn params cs = replaceAtOnce (params.map (·.1.toList)) cs := by
  induction params generalizing cs with
  | nil => rw [map_nil, replaceAtOnce_nil, replaceInTurn]
  | cons p params ih =>
    obtain ⟨⟨hname, hvalue⟩, h⟩ := forall_mem_cons.mp h
    have hnonempty : p.1 ≠ "" := by
      intro hempty
      obtain ⟨word, hword, -⟩ := hname
      rw [hempty] at hword
      cases hword
    rw [replaceInTurn, if_neg hnonempty, ih h, hvalue]
    show replaceAtOnce _ (replacePlaceholder _ ['?'] 0 cs) = _
    rw [replacePlaceholder_eq hname, replaceAtOnce_replaceAtOnce]
    rfl

/-- **Placeholders are replaced at once.** The passes for the names of a catalog come to one pass
that looks at whole words, so names that start alike do not get in each other's way. -/
theorem applyParams_at_once (params : Catalog String)
    (h : ∀ p ∈ params.entries, IsPlaceholder p.1.toList ∧ p.2 = "?") (condition : String) :
    applyParams condition params
        = String.ofList (replaceAtOnce (params.names.map String.toList) condition.toList)
      ∧ ∀ others : Catalog String, others.entries.Perm params.entries →
        applyParams condition others = applyParams condition params := by
  have hat : ∀ others : Catalog String, others.entries.Perm params.entries →
      applyParams condition others
        = String.ofList (replaceAtOnce (params.names.map String.toList) condition.toList) := by
    intro others hothers
    have hperm : (longestFirst others).Perm params.entries := (mergeSort_perm _ _).trans hothers
    rw [applyParams, replaceInTurn_eq fun p hp => h p (hperm.subset hp)]
    refine congrArg String.ofList (replaceAtOnce_congr (fun name => ?_))
    rw [Catalog.names, map_map]
    exact (hperm.map _).mem_iff
  have hself := hat params (.refl _)
  exact ⟨hself, fun others hothers => (hat others hothers).trans hself.symm⟩

/-- One name starts the other, and a word starts with both. -/
theorem applyParams_at_once_prefix :
    (∀ p ∈ [(":id", "?"), (":id2", "?")], IsPlaceholder p.1.toList ∧ p.2 = "?")
      ∧ applyParams "a = :id OR b = :id2 OR c = :id23" ⟨[(":id", "?"), (":id2", "?")]⟩
        = String.ofList (replaceAtOnce [":id".toList, ":id2".toList]
          "a = :id OR b = :id2 OR c = :id23".toList) := by
  have hnames : ∀ p ∈ [(":id", "?"), (":id2", "?")], IsPlaceholder p.1.toList ∧ p.2 = "?" := by
    simp only [forall_mem_cons, not_mem_nil, false_implies, implies_true, and_true]
    exact ⟨⟨"id".toList, rfl, by decide, all_eq_true.mp (by decide)⟩,
      "id2".toList, rfl, by decide, all_eq_true.mp (by decide)⟩
  exact ⟨hnames, (applyParams_at_once ⟨_⟩ hnames _).1⟩

end QueryAudit.Query
