/-
  QueryAudit.Proofs.Path.Climbing — directories above a path

  One normal path lies inside another exactly when its components start with those of the other:
  `/ab` does not lie inside `/a`. Climbing leads through the directories that a path lies inside of.

  Main results: `within_iff`, `mem_upward`, `mem_takeWhile_upward`.
-/

import Mathlib.Data.List.Basic
import QueryAudit.Proofs.Path

namespace QueryAudit.Path

open Text List

variable {directory last path root : String} {parts : List String}

def Inside (path directory : String) : Prop := components directory <+: components path

instance (path directory : String) : Decidable (Inside path directory) :=
  inferInstanceAs (Decidable (_ <+: _))

theorem Inside.refl (path : String) : Inside path path := prefix_refl _

theorem Inside.trans {middle : String} (h : Inside path middle)
    (h' : Inside middle directory) : Inside path directory := IsPrefix.trans h' h

/-! ## Texts of components. -/

def ofParts (parts : List String) : String := "/" ++ joinWith "/" parts

def slashed (parts : List String) : List Char := parts.flatMap fun part => '/' :: part.toList

theorem slashed_append {left right : List String} :
    slashed (left ++ right) = slashed left ++ slashed right := flatMap_append

theorem toList_ofParts (h : parts ≠ []) : (ofParts parts).toList = slashed parts := by
  induction parts with
  | nil => exact absurd rfl h
  | cons part rest ih =>
    cases rest with
    | nil =>
      rw [ofParts, joinWith, String.toList_append]
      exact (append_nil _).symm
    | cons next rest =>
      have hrest : (joinWith "/" (next :: rest)).toList = (slashed (next :: rest)).tail := by
        have := ih (cons_ne_nil _ _)
        rw [ofParts, String.toList_append] at this
        exact congrArg tail this
      rw [ofParts, joinWith, String.intercalate_cons_cons, String.toList_append,
        String.toList_append, String.toList_append]
      show ['/'] ++ (part.toList ++ ['/'] ++ (joinWith "/" (next :: rest)).toList) = _
      rw [hrest, append_assoc]
      rfl

theorem components_ofParts (h : ∀ part ∈ parts, IsPlain part) :
    components (ofParts parts) = parts :=
  components_root_append h

theorem IsNormal.ofParts_components (h : IsNormal path) : ofParts (components path) = path := by
  obtain ⟨parts, hparts, rfl⟩ := h
  rw [components_root_append hparts]
  rfl

theorem IsNormal.plain (h : IsNormal path) : ∀ part ∈ components path, IsPlain part := by
  obtain ⟨parts, hparts, rfl⟩ := h
  rwa [components_root_append hparts]

theorem isNormal_ofParts (h : ∀ part ∈ parts, IsPlain part) :
    IsNormal (ofParts parts) := ⟨parts, h, rfl⟩

theorem IsPlain.reverse {part : String} (h : IsPlain part) :
    ∃ c rest, part.toList.reverse = c :: rest ∧ c ≠ '/' := by
  cases hrev : part.toList.reverse with
  | nil =>
    refine absurd ?_ h.2.1
    rw [← String.toList_inj]
    exact reverse_eq_nil_iff.mp hrev
  | cons c rest =>
    refine ⟨c, rest, rfl, ?_⟩
    rintro rfl
    exact h.1 (mem_reverse.mp (hrev ▸ mem_cons_self))

/-- The text of components does not end in a slash. -/
theorem dropWhile_slashed (h : ∀ part ∈ parts, IsPlain part) :
    (slashed parts).reverse.dropWhile (· = '/') = (slashed parts).reverse := by
  rcases eq_nil_or_concat' parts with rfl | ⟨before, last, rfl⟩
  · rfl
  obtain ⟨c, rest, hrev, hc⟩ := (h last (mem_append_right _ mem_cons_self)).reverse
  have hlast : slashed [last] = '/' :: last.toList := append_nil _
  rw [slashed_append, hlast, reverse_append, reverse_cons, hrev,
    cons_append, cons_append, dropWhile_cons_of_neg]
  simpa using hc

/-! ## Insideness. -/

/-- **The test on texts is about components.** -/
theorem within_iff (hp : IsNormal path) (hd : IsNormal directory) :
    within path directory = true ↔ Inside path directory := by
  have hparts := hp.plain
  have hdirectory := hd.plain
  rw [Inside, ← hp.ofParts_components, ← hd.ofParts_components, components_ofParts hparts,
    components_ofParts hdirectory]
  generalize components path = parts at hparts ⊢
  generalize components directory = above at hdirectory ⊢
  rw [within, Bool.or_eq_true, decide_eq_true_eq, startsWith_iff]
  rcases Decidable.em (above = []) with rfl | hne
  · refine iff_of_true (.inr ?_) nil_prefix
    exact ⟨(joinWith "/" parts).toList, String.toList_append.symm⟩
  · have htrim : trimEnd (· = '/') (ofParts above) = ofParts above := by
      rw [trimEnd, toList_ofParts hne, dropWhile_slashed hdirectory, reverse_reverse,
        ← toList_ofParts hne, String.ofList_toList]
    rw [htrim, String.toList_append, toList_ofParts hne]
    constructor
    · rintro (heq | ⟨rest, hrest⟩)
      · have := congrArg components heq
        rw [components_ofParts hparts, components_ofParts hdirectory] at this
        exact this ▸ prefix_refl _
      · have htext : ofParts parts = ofParts above ++ "/" ++ String.ofList rest := by
          rw [← String.toList_inj, ← hrest, ← toList_ofParts hne]
          simp
        have := congrArg components htext
        rw [components_append, components_ofParts hparts, components_ofParts hdirectory] at this
        exact this ▸ prefix_append _ _
    · rintro ⟨more, rfl⟩
      cases more with
      | nil =>
        rw [append_nil]
        exact .inl rfl
      | cons part more =>
        refine .inr ⟨part.toList ++ slashed more, ?_⟩
        rw [toList_ofParts (by simp), slashed_append, append_assoc]
        rfl

/-! ## Climbing. -/

theorem parent_ofParts (h : ∀ part ∈ parts, IsPlain part)
    (hlast : IsPlain last) : parent (ofParts (parts ++ [last])) = ofParts parts := by
  have htext : (ofParts (parts ++ [last])).toList = slashed parts ++ '/' :: last.toList := by
    rw [toList_ofParts (by simp), slashed_append]
    show slashed parts ++ ('/' :: last.toList ++ []) = _
    rw [append_nil]
  have hhead : ((ofParts (parts ++ [last])).toList.reverse.dropWhile (· ≠ '/')).reverse
      = slashed parts ++ ['/'] := by
    rw [htext, reverse_append, reverse_cons, append_assoc, dropWhile_append_of_pos]
    · simp
    · intro c hc
      have hne : c ≠ '/' := fun heq => hlast.1 (mem_reverse.mp (heq ▸ hc))
      simpa using hne
  rw [parent, hhead]
  cases parts with
  | nil => rfl
  | cons part rest =>
    obtain ⟨c, others, hrev, hc⟩ := (h part mem_cons_self).reverse
    have hmem : c ∈ slashed (part :: rest) ++ ['/'] := by
      refine mem_append_left _ (mem_flatMap.mpr ⟨part, mem_cons_self, ?_⟩)
      exact mem_cons_of_mem _ (mem_reverse.mp (hrev ▸ mem_cons_self))
    have hall : ¬ (slashed (part :: rest) ++ ['/']).all (· = '/') = true := by
      rw [all_eq_true]
      exact fun hall => hc (of_decide_eq_true (hall c hmem))
    rw [if_neg hall, reverse_append]
    show String.ofList ((('/' :: (slashed (part :: rest)).reverse).dropWhile _).reverse) = _
    rw [dropWhile_cons_of_pos (by decide), dropWhile_slashed h, reverse_reverse,
      ← toList_ofParts (cons_ne_nil _ _), String.ofList_toList]

theorem parent_top : parent (ofParts []) = ofParts [] := by decide

theorem length_le_ofParts : parts.length ≤ (ofParts parts).length := by
  cases parts with
  | nil => exact Nat.zero_le _
  | cons part rest =>
    rw [← String.length_toList, toList_ofParts (cons_ne_nil _ _), slashed, length_flatMap]
    generalize part :: rest = parts
    induction parts with
    | nil => exact Nat.le_refl _
    | cons part parts ih =>
      rw [map_cons, sum_cons, length_cons, length_cons]
      omega

theorem go_ofParts (h : ∀ part ∈ parts, IsPlain part) (hlast : IsPlain last) (n : Nat) :
    upward.go (n + 1) (ofParts (parts ++ [last]))
      = ofParts (parts ++ [last]) :: upward.go n (ofParts parts) := by
  have hne : parent (ofParts (parts ++ [last])) ≠ ofParts (parts ++ [last]) := by
    rw [parent_ofParts h hlast]
    intro heq
    have hplain : ∀ part ∈ parts ++ [last], IsPlain part :=
      forall_mem_append.mpr ⟨h, forall_mem_singleton.mpr hlast⟩
    have := congrArg (fun path => (components path).length) heq
    simp only [components_ofParts h, components_ofParts hplain, length_append,
      length_singleton] at this
    omega
  rw [upward.go, if_neg hne, parent_ofParts h hlast]

theorem go_top {n : Nat} : upward.go n (ofParts []) = [ofParts []] := by
  cases n with
  | zero => rfl
  | succ n => rw [upward.go, if_pos parent_top]

/-- Climbing leads through the first components of a path. -/
theorem prefix_of_mem_go : ∀ (n : Nat) {parts : List String}, (∀ part ∈ parts, IsPlain part) →
      directory ∈ upward.go n (ofParts parts) → ∃ above, above <+: parts ∧ directory = ofParts above := by
  intro n
  induction n with
  | zero =>
    intro parts _ hmem
    exact ⟨parts, prefix_refl _, mem_singleton.mp hmem⟩
  | succ n ih =>
    intro parts hparts hmem
    rcases eq_nil_or_concat' parts with rfl | ⟨before, last, rfl⟩
    · rw [go_top] at hmem
      exact ⟨[], prefix_refl _, mem_singleton.mp hmem⟩
    obtain ⟨hbefore, hlast⟩ := forall_mem_append.mp hparts
    rw [go_ofParts hbefore (hlast last mem_cons_self)] at hmem
    rcases mem_cons.mp hmem with rfl | hmem
    · exact ⟨_, prefix_refl _, rfl⟩
    · obtain ⟨above, habove, rfl⟩ := ih hbefore hmem
      exact ⟨above, habove.trans (prefix_append _ _), rfl⟩

/-- Climbing from inside a directory comes to that directory before it leaves it. -/
theorem mem_takeWhile_go {root : List String} (hroot : ∀ part ∈ root, IsPlain part) :
    ∀ (n : Nat) {parts : List String}, (∀ part ∈ parts, IsPlain part) → parts.length ≤ n →
      root <+: parts →
      ofParts root ∈ (upward.go n (ofParts parts)).takeWhile (within · (ofParts root)) := by
  have hinside : ∀ {parts : List String}, (∀ part ∈ parts, IsPlain part) → root <+: parts →
      within (ofParts parts) (ofParts root) = true := by
    intro parts hparts hprefix
    rw [within_iff (isNormal_ofParts hparts) (isNormal_ofParts hroot), Inside,
      components_ofParts hparts, components_ofParts hroot]
    exact hprefix
  intro n
  induction n with
  | zero =>
    intro parts hparts hlength hprefix
    obtain rfl := eq_nil_of_length_eq_zero (Nat.le_zero.mp hlength)
    obtain rfl := prefix_nil.mp hprefix
    exact mem_cons_self
  | succ n ih =>
    intro parts hparts hlength hprefix
    rcases eq_nil_or_concat' parts with rfl | ⟨before, last, rfl⟩
    · obtain rfl := prefix_nil.mp hprefix
      exact mem_cons_self
    · obtain ⟨hbefore, hlast⟩ := forall_mem_append.mp hparts
      rw [go_ofParts hbefore (hlast last mem_cons_self),
        takeWhile_cons_of_pos (p := (within · (ofParts _))) (hinside hparts hprefix)]
      rcases prefix_concat_iff.mp hprefix with rfl | hshorter
      · exact mem_cons_self
      · refine mem_cons_of_mem _ (ih hbefore ?_ hshorter)
        rw [length_append, length_singleton] at hlength
        omega

/-- **A path lies inside all directories above it.** -/
theorem mem_upward (h : IsNormal path) (hmem : directory ∈ upward path) :
    IsNormal directory ∧ Inside path directory := by
  have hplain := h.plain
  rw [← h.ofParts_components] at hmem ⊢
  obtain ⟨above, habove, rfl⟩ := prefix_of_mem_go _ hplain hmem
  have hparts : ∀ part ∈ above, IsPlain part := fun part hpart => hplain part (habove.subset hpart)
  refine ⟨isNormal_ofParts hparts, ?_⟩
  rw [Inside, components_ofParts hparts, components_ofParts hplain]
  exact habove

/-- **Climbing from inside a directory comes to that directory before it leaves it.** -/
theorem mem_takeWhile_upward (h : IsNormal path) (hroot : IsNormal root)
    (hinside : Inside path root) : root ∈ (upward path).takeWhile (within · root) := by
  have hmem := mem_takeWhile_go hroot.plain path.length h.plain
    (by rw [← h.ofParts_components, components_ofParts h.plain]; exact length_le_ofParts) hinside
  rwa [hroot.ofParts_components, h.ofParts_components] at hmem

/-- The parent of a path has all components of it but the last; the top is its own parent. -/
theorem parent_cases (h : IsNormal path) : (components path = [] ∧ parent path = path)
      ∨ ∃ before last, components path = before ++ [last] ∧ parent path = ofParts before
        ∧ ∀ part ∈ before, IsPlain part := by
  have hplain := h.plain
  have htext := h.ofParts_components
  rcases eq_nil_or_concat' (components path) with hnil | ⟨before, last, hparts⟩
  · rw [hnil] at htext
    exact .inl ⟨hnil, htext ▸ parent_top⟩
  rw [hparts] at hplain htext
  obtain ⟨hbefore, hlast⟩ := forall_mem_append.mp hplain
  refine .inr ⟨before, last, hparts, ?_, hbefore⟩
  rw [← htext, parent_ofParts hbefore (hlast last mem_cons_self)]

theorem isNormal_parent (h : IsNormal path) : IsNormal (parent path) := by
  rcases parent_cases h with ⟨-, heq⟩ | ⟨before, last, -, heq, hbefore⟩
  · rwa [heq]
  · rw [heq]
    exact isNormal_ofParts hbefore

theorem inside_parent (h : IsNormal path) : Inside path (parent path) := by
  rcases parent_cases h with ⟨-, heq⟩ | ⟨before, last, hparts, heq, hbefore⟩
  · rw [heq]
    exact .refl path
  · rw [heq, Inside, components_ofParts hbefore, hparts]
    exact prefix_append _ _

theorem Inside.parent (h : IsNormal path) (hroot : IsNormal root)
    (hinside : Inside path root) (hne : path ≠ root) : Inside (parent path) root := by
  rcases parent_cases h with ⟨-, heq⟩ | ⟨before, last, hparts, heq, hbefore⟩
  · rwa [heq]
  rw [heq, Inside, components_ofParts hbefore]
  rw [Inside, hparts] at hinside
  refine (prefix_concat_iff.mp hinside).resolve_left fun hsame => hne ?_
  rw [← h.ofParts_components, ← hroot.ofParts_components, hparts, hsame]

theorem not_inside_of_parent (h : IsNormal path) (hne : components path ≠ []) :
    ¬ Inside (parent path) path := by
  rcases parent_cases h with ⟨hnil, -⟩ | ⟨before, last, hparts, heq, hbefore⟩
  · exact absurd hnil hne
  rw [heq, Inside, components_ofParts hbefore, hparts]
  intro hprefix
  have := hprefix.length_le
  rw [length_append, length_singleton] at this
  omega

end QueryAudit.Path
