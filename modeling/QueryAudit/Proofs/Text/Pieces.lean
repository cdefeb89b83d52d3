/-
  QueryAudit.Proofs.Text.Pieces — starts of texts and lists in texts

  When a text starts with another one, and how texts are read off a list of them that was joined
  with a separator.
-/

import Mathlib.Data.List.Induction
import QueryAudit.Text.Pieces

namespace QueryAudit.Text

open List

variable {separator : Char} {cs needle : List Char}

theorem startsWith_iff : ∀ cs : List Char, startsWith needle cs = true ↔ needle <+: cs := by
  induction needle with
  | nil => simp [startsWith]
  | cons a needle ih =>
    intro cs
    cases cs with
    | nil => simp [startsWith]
    | cons c cs => simp [startsWith, cons_prefix_cons, ih]

theorem pieces_ne_nil : pieces separator cs ≠ [] := by
  fun_cases pieces separator cs <;> exact cons_ne_nil _ _

theorem pieces_of_notMem (h : separator ∉ cs) : pieces separator cs = [cs] := by
  induction cs with
  | nil => rfl
  | cons c cs ih =>
    rw [mem_cons, not_or] at h
    rw [pieces, if_neg (Ne.symm h.1), ih h.2]

theorem pieces_append (left right : List Char) :
    pieces separator (left ++ separator :: right)
      = pieces separator left ++ pieces separator right := by
  induction left with
  | nil => simp [pieces]
  | cons c left ih =>
    rw [cons_append, pieces, pieces, ih]
    split
    · rfl
    · cases hleft : pieces separator left with
      | nil => exact absurd hleft pieces_ne_nil
      | cons piece others => rfl

theorem notMem_of_mem_pieces :
    ∀ cs : List Char, ∀ piece ∈ pieces separator cs, separator ∉ piece := by
  intro cs
  induction cs with
  | nil =>
    intro piece h
    rw [pieces, mem_singleton] at h
    simp [h]
  | cons c cs ih =>
    intro piece h
    rw [pieces] at h
    split at h
    · rcases mem_cons.mp h with rfl | h
      · exact not_mem_nil
      · exact ih piece h
    · next hc =>
      split at h
      · rw [mem_singleton] at h
        simpa [h] using Ne.symm hc
      · next first others hpieces =>
        rw [hpieces] at ih
        rcases mem_cons.mp h with rfl | h
        · rw [mem_cons, not_or]
          exact ⟨Ne.symm hc, ih first mem_cons_self⟩
        · exact ih piece (mem_cons_of_mem _ h)

theorem toList_joinWith {text next : String} {texts : List String} :
    (joinWith (String.singleton separator) (text :: next :: texts)).toList = text.toList ++ separator
      :: (joinWith (String.singleton separator) (next :: texts)).toList := by
  rw [joinWith, String.intercalate_cons_cons, String.toList_append, String.toList_append,
    String.toList_singleton, append_assoc]
  rfl

theorem foldl_eq_eraseDups {α : Type} [BEq α] [LawfulBEq α] {found : List α} :
    found.foldl (fun seen a => if a ∈ seen then seen else seen ++ [a]) [] = found.eraseDups := by
  induction found using reverseRecOn with
  | nil => rfl
  | append_singleton found a ih =>
    rw [foldl_append, ih, foldl_cons, foldl_nil, eraseDups_append]
    by_cases ha : a ∈ found
    · simp [ha, removeAll]
    · simp [ha, removeAll, eraseDups_cons]

/-- Texts without a separator can be read off the list that joins them with it. -/
theorem splitAt_joinWith (separator : Char) {texts : List String} (hne : texts ≠ [])
    (h : ∀ text ∈ texts, separator ∉ text.toList) :
    splitAt separator (joinWith (String.singleton separator) texts) = texts := by
  induction texts with
  | nil => exact absurd rfl hne
  | cons text texts ih =>
    have htext := h text mem_cons_self
    cases texts with
    | nil =>
      rw [joinWith, String.intercalate_singleton, splitAt, pieces_of_notMem htext]
      simp
    | cons next texts =>
      have hrest := ih (cons_ne_nil _ _) fun t ht => h t (mem_cons_of_mem _ ht)
      rw [splitAt] at hrest ⊢
      rw [toList_joinWith, pieces_append, pieces_of_notMem htext, singleton_append, map_cons, hrest,
        String.ofList_toList]

end QueryAudit.Text
