/-
  QueryAudit.Proofs.Path.Showing — paths as reports show them

  A path is shown as seen from a root when that view does not start with two dots. A path outside of
  the root has such a view, and so has one whose first component below the root starts with two dots.

  Main result: `shownFrom_relative_iff`.
-/

import QueryAudit.Proofs.Path.Climbing

namespace QueryAudit.Path

open Text List

variable {first path root : String} {down rest up : List String}

/-! ## What two paths share. -/

theorem dropShared_append (shared below : List String) :
    dropShared (shared ++ below) shared = (below, []) := by
  induction shared with
  | nil => cases below <;> rfl
  | cons part shared ih => rw [cons_append, dropShared, if_pos rfl, ih]

theorem prefix_of_dropShared (parts above : List String) (h : (dropShared parts above).2 = []) :
    above <+: parts := by
  fun_induction dropShared parts above with
  | case1 part parts above ih => exact cons_prefix_cons.mpr ⟨rfl, ih h⟩
  | case2 => exact absurd h (cons_ne_nil _ _)
  | case3 parts above => exact (show above = [] from h) ▸ nil_prefix

theorem toList_slashJoin {next : String} :
    (joinWith "/" (first :: next :: rest)).toList
      = first.toList ++ '/' :: (joinWith "/" (next :: rest)).toList := by
  rw [show "/" = String.singleton '/' from rfl, toList_joinWith]

/-- Whether a view starts with two dots is seen from its first component. -/
theorem dots_prefix_iff :
    "..".toList <+: (joinWith "/" (first :: rest)).toList ↔ "..".toList <+: first.toList := by
  cases rest with
  | nil => rfl
  | cons next rest =>
    rw [toList_slashJoin]
    rcases first.toList with _ | ⟨c, _ | ⟨d, cs⟩⟩ <;> simp [cons_prefix_cons]

/-- A view that climbs starts with two dots. -/
theorem dots_prefix_climb (h : up ≠ []) :
    "..".toList <+: (joinWith "/" (replicate up.length ".." ++ down)).toList := by
  obtain ⟨_, _, rfl⟩ := exists_cons_of_ne_nil h
  rw [length_cons, replicate_succ, cons_append]
  exact dots_prefix_iff.mpr prefix_rfl

/-! ## Views. -/

theorem isAbsolute_joinWith (h : IsPlain first) :
    isAbsolute (joinWith "/" (first :: rest)) = false := by
  obtain ⟨c, cs, hcs⟩ : ∃ c cs, first.toList = c :: cs := by
    refine exists_cons_of_ne_nil fun hnil => h.2.1 ?_
    rwa [← String.toList_inj]
  have hc : c ≠ '/' := fun heq => h.1 (by rw [hcs, heq]; exact mem_cons_self)
  cases rest with
  | nil =>
    rw [joinWith, String.intercalate_singleton, isAbsolute, hcs]
    simpa using hc
  | cons next rest =>
    rw [isAbsolute, toList_slashJoin, hcs]
    simpa using hc

/-- A path is shown unchanged when its view starts with two dots. -/
theorem shownFrom_eq (h : IsNormal path) : shownFrom root path
    = if "..".toList <+: (relative path root).toList then path else relative path root := by
  have hne : path ≠ "" := by
    rintro rfl
    exact absurd h.isAbsolute (by decide)
  rw [shownFrom]
  simp only [hne, decide_false, Bool.false_or, startsWith_iff]

theorem shownFrom_outside (h : IsNormal path) (hout : ¬ Inside path root) :
    shownFrom root path = path := by
  rw [shownFrom_eq h, if_pos]
  have hup : (dropShared (components path) (components root)).2 ≠ [] :=
    fun hnil => hout (prefix_of_dropShared _ _ hnil)
  rw [relative]
  dsimp only
  rw [if_neg]
  · exact dots_prefix_climb hup
  · simp [hup]

theorem relative_inside {below : List String} (h : components path = components root ++ below) :
    relative path root = if below.isEmpty then "." else joinWith "/" below := by
  rw [relative, h, dropShared_append]
  rfl

/-- **The tests of the boundary of a root agree apart from names that start with two dots.** A normal
path lies inside a root exactly when its components start with those of the root. It is shown as a
relative path exactly when it lies inside and the first component below the root does not start with
two dots. The relative path has the components below the root; any other path is shown unchanged. -/
theorem shownFrom_relative_iff (hp : IsNormal path) (hr : IsNormal root) :
    (within path root = true ↔ components root <+: components path)
      ∧ (isAbsolute (shownFrom root path) = false ↔ within path root = true
        ∧ ∀ part ∈ ((components path).drop (components root).length).head?,
          ¬ "..".toList <+: part.toList)
      ∧ (isAbsolute (shownFrom root path) = false →
        components root ++ components (shownFrom root path) = components path)
      ∧ (isAbsolute (shownFrom root path) = true → shownFrom root path = path) := by
  have hwithin := within_iff hp hr
  refine ⟨hwithin, ?_⟩
  rw [hwithin]
  by_cases hin : Inside path root
  · obtain ⟨below, hbelow⟩ := id hin
    rw [← hbelow, drop_left]
    cases below with
    | nil =>
      have hshown : shownFrom root path = "." := by
        rw [shownFrom_eq hp, relative_inside hbelow.symm]
        rfl
      rw [hshown]
      exact ⟨iff_of_true (by decide) ⟨hin, by simp⟩, fun _ => rfl, fun h => absurd h (by decide)⟩
    | cons first rest =>
      have hplain := hp.plain
      rw [← hbelow, forall_mem_append] at hplain
      have hshown : shownFrom root path
          = if "..".toList <+: first.toList then path else joinWith "/" (first :: rest) := by
        rw [shownFrom_eq hp, relative_inside hbelow.symm]
        exact if_congr dots_prefix_iff rfl rfl
      rw [hshown]
      split
      · next hdots =>
        rw [hp.isAbsolute]
        exact ⟨iff_of_false nofun fun h => h.2 first rfl hdots, nofun, fun _ => rfl⟩
      · next hdots =>
        rw [isAbsolute_joinWith (hplain.2 first mem_cons_self), components_joinWith hplain.2]
        exact ⟨iff_of_true rfl ⟨hin, by simpa using hdots⟩, fun _ => rfl, nofun⟩
  · rw [shownFrom_outside hp hin, hp.isAbsolute]
    exact ⟨iff_of_false nofun fun h => hin h.1, nofun, fun _ => rfl⟩

theorem shownFrom_relative_iff_models : within "/srv/app/models" "/srv/app" = true
    ∧ isAbsolute (shownFrom "/srv/app" "/srv/app/models") = false
    ∧ components (shownFrom "/srv/app" "/srv/app/models") = ["models"] := by
  have hnormal : ∀ path, isAbsolute path = true → normalize path = path → IsNormal path :=
    fun path h heq => heq ▸ isNormal_normalize h
  obtain ⟨hwithin, hview, hbelow, -⟩ := shownFrom_relative_iff
    (hnormal "/srv/app/models" (by decide) (by decide)) (hnormal "/srv/app" (by decide) (by decide))
  have hin := hwithin.mpr (by decide)
  have hrelative := hview.mpr ⟨hin, by decide⟩
  exact ⟨hin, hrelative, append_cancel_left (hbelow hrelative)⟩

theorem shownFrom_twoDots : within "/srv/..app" "/srv" = true
    ∧ shownFrom "/srv" "/srv/..app" = "/srv/..app" := by decide

end QueryAudit.Path
