/-
  QueryAudit.Proofs.Path — normal paths

  An absolute path without empty components, single dots and two dots is normal: normalising it
  again changes nothing. Since the working directory is absolute, every path that was resolved is
  normal, so files are known, tracked and looked up under one name each.

  Main result:
    * `Disk.resolve_resolve` — resolving a path a second time changes nothing.
-/

import QueryAudit.Disk
import QueryAudit.Proofs.Text.Pieces

namespace QueryAudit.Path

open Text

variable {part path : String} {parts : List String}

/-! ## Components. -/

def IsPlain (part : String) : Prop :=
  '/' ∉ part.toList ∧ part ≠ "" ∧ part ≠ "." ∧ part ≠ ".."

theorem mem_components (h : part ∈ components path) :
    '/' ∉ part.toList ∧ part ≠ "" ∧ part ≠ "." := by
  obtain ⟨hmem, hplain⟩ := List.mem_filter.mp h
  obtain ⟨piece, hpiece, rfl⟩ := List.mem_map.mp hmem
  rw [Bool.and_eq_true, decide_eq_true_eq, decide_eq_true_eq] at hplain
  refine ⟨?_, hplain⟩
  rw [String.toList_ofList]
  exact notMem_of_mem_pieces _ piece hpiece

theorem components_append (left right : String) :
    components (left ++ "/" ++ right) = components left ++ components right := by
  have htext : (left ++ "/" ++ right).toList = left.toList ++ '/' :: right.toList := by
    rw [String.toList_append, String.toList_append, List.append_assoc]
    rfl
  rw [components, splitAt, htext, pieces_append, List.map_append, List.filter_append]
  rfl

theorem cancelDots_cons {absolute : Bool} (h : part ≠ "..") (kept rest : List String) :
    cancelDots absolute kept (part :: rest) = cancelDots absolute (part :: kept) rest := by
  cases kept <;> rw [cancelDots, if_neg h]

/-- Two dots are never kept at the start of an absolute path. -/
theorem mem_cancelDots : ∀ (parts kept : List String), (∀ k ∈ kept, k ≠ "..") →
      part ∈ cancelDots true kept parts → (part ∈ kept ∨ part ∈ parts) ∧ part ≠ ".." := by
  intro parts
  induction parts with
  | nil =>
    intro kept hkept h
    rw [cancelDots, List.mem_reverse] at h
    exact ⟨.inl h, hkept part h⟩
  | cons first rest ih =>
    intro kept hkept h
    by_cases hdots : first = ".."
    · cases kept with
      | nil =>
        simp only [hdots] at h
        obtain ⟨hmem, hne⟩ := ih [] hkept h
        exact ⟨hmem.imp_right (List.mem_cons_of_mem _), hne⟩
      | cons last before =>
        have hlast : last ≠ ".." := hkept last List.mem_cons_self
        simp only [cancelDots, hdots, hlast, if_true] at h
        obtain ⟨hmem, hne⟩ := ih before (fun k hk => hkept k (List.mem_cons_of_mem _ hk)) h
        exact ⟨hmem.imp (List.mem_cons_of_mem _) (List.mem_cons_of_mem _), hne⟩
    · rw [cancelDots_cons hdots] at h
      obtain ⟨hmem, hne⟩ := ih (first :: kept) (List.forall_mem_cons.mpr ⟨hdots, hkept⟩) h
      rw [List.mem_cons] at hmem
      refine ⟨?_, hne⟩
      rcases hmem with (rfl | hkept) | hrest
      · exact .inr List.mem_cons_self
      · exact .inl hkept
      · exact .inr (List.mem_cons_of_mem _ hrest)

theorem cancelDots_plain (h : ∀ part ∈ parts, part ≠ "..") :
    ∀ kept, cancelDots true kept parts = kept.reverse ++ parts := by
  induction parts with
  | nil =>
    intro kept
    rw [cancelDots, List.append_nil]
  | cons first rest ih =>
    intro kept
    obtain ⟨hfirst, hrest⟩ := List.forall_mem_cons.mp h
    rw [cancelDots_cons hfirst, ih hrest, List.reverse_cons, List.append_assoc]
    rfl

/-! ## Normal paths. -/

/-- A path is normal when it is a slash and plain components with slashes between them. -/
def IsNormal (path : String) : Prop :=
  ∃ parts : List String, (∀ part ∈ parts, IsPlain part) ∧ path = "/" ++ joinWith "/" parts

theorem isNormal_normalize (h : isAbsolute path) : IsNormal (normalize path) := by
  refine ⟨cancelDots true [] (components path), fun part hpart => ?_, ?_⟩
  · obtain ⟨hmem, hne⟩ := mem_cancelDots (components path) [] (fun _ hk => nomatch hk) hpart
    obtain ⟨hslash, hempty, hdot⟩ := mem_components (hmem.resolve_left fun hk => nomatch hk)
    exact ⟨hslash, hempty, hdot, hne⟩
  · rw [normalize, h]
    rfl

theorem IsNormal.isAbsolute (h : IsNormal path) : isAbsolute path := by
  obtain ⟨parts, _, rfl⟩ := h
  rw [Path.isAbsolute, String.toList_append]
  rfl

theorem components_joinWith (h : ∀ part ∈ parts, IsPlain part) :
    components (joinWith "/" parts) = parts := by
  cases parts with
  | nil => rfl
  | cons first rest =>
    have hsplit : splitAt '/' (joinWith "/" (first :: rest)) = first :: rest :=
      splitAt_joinWith '/' (List.cons_ne_nil _ _) fun part hpart => (h part hpart).1
    rw [components, hsplit, List.filter_eq_self]
    intro part hpart
    obtain ⟨_, hempty, hdot, _⟩ := h part hpart
    simp [hempty, hdot]

theorem components_root_append (h : ∀ part ∈ parts, IsPlain part) :
    components ("/" ++ joinWith "/" parts) = parts := by
  have happend := components_append "" (joinWith "/" parts)
  rwa [components_joinWith h] at happend

theorem IsNormal.normalize_eq (h : IsNormal path) : normalize path = path := by
  have habsolute := h.isAbsolute
  obtain ⟨parts, hparts, rfl⟩ := h
  rw [normalize, habsolute, components_root_append hparts,
    cancelDots_plain (fun part hpart => (hparts part hpart).2.2.2)]
  rfl

theorem isAbsolute_join {directory : String} (h : isAbsolute directory) :
    isAbsolute (join directory path) := by
  rw [join]
  split
  · assumption
  · rw [isAbsolute, decide_eq_true_eq] at h ⊢
    obtain ⟨rest, hrest⟩ := List.head?_eq_some_iff.mp h
    split <;> simp [hrest]

/-- A path inside an absolute directory is absolute. -/
theorem isAbsolute_of_within {root : String} (hroot : isAbsolute root)
    (h : within path root) : isAbsolute path := by
  rw [within, Bool.or_eq_true, decide_eq_true_eq, startsWith_iff] at h
  rcases h with rfl | ⟨rest, hrest⟩
  · exact hroot
  rw [isAbsolute, ← hrest, String.toList_append]
  rw [isAbsolute, decide_eq_true_eq] at hroot
  rw [trimEnd, String.toList_ofList]
  obtain ⟨after, hafter⟩ := List.head?_eq_some_iff.mp hroot
  rw [hafter]
  cases hrev : (('/' :: after).reverse.dropWhile (· = '/')).reverse with
  | nil => rfl
  | cons c cs =>
    have hsuffix : (c :: cs) <+: ('/' :: after) := by
      rw [← hrev, ← List.reverse_suffix, List.reverse_reverse]
      exact List.dropWhile_suffix _
    obtain ⟨tail, htail⟩ := hsuffix
    rw [List.cons_append, List.cons.injEq] at htail
    rw [htail.1]
    rfl

end QueryAudit.Path

namespace QueryAudit.Disk

open QueryAudit.Path

variable {disk : Disk}

theorem isNormal_resolve (h : isAbsolute disk.base) (path : String) :
    IsNormal (disk.resolve path) := by
  rw [resolve]
  split
  · next hplace =>
    rw [Bool.or_eq_true] at hplace
    exact isNormal_normalize (hplace.elim id (isAbsolute_of_within h))
  · exact isNormal_normalize (isAbsolute_join h)

/-- **Resolving a path a second time changes nothing.** -/
theorem resolve_resolve (h : isAbsolute disk.base) (path : String) :
    disk.resolve (disk.resolve path) = disk.resolve path := by
  have hnormal := isNormal_resolve h path
  rw [resolve, hnormal.isAbsolute, Bool.true_or, if_pos rfl, hnormal.normalize_eq]

end QueryAudit.Disk
