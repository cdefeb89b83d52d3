/-
  QueryAudit.Proofs.Catalog — looking up after a change

  What a catalog gives for a name after each of its changes. A catalog that was built by changes has
  every name once, so putting its entries one by one after those of another catalog puts each list
  after the list of the same name.
-/

import QueryAudit.Catalog

namespace QueryAudit.Catalog

open List

variable {name : String}

variable {α β : Type}
variable {t : Catalog α} {value : α}

variable {other : String}

/-! ## Look-ups. -/

theorem get?_empty : (empty : Catalog α).get? name = none := rfl

theorem lookup_entry (name other : String) (value : α) (rest : List (String × α)) :
    ((name, value) :: rest).lookup other
      = if other = name then some value else rest.lookup other := by
  by_cases h : other = name
  · simp [h]
  · have hne : (other == name) = false := by simpa using h
    simp [lookup_cons, h, hne]

theorem lookup_setIn {entries : List (String × α)} :
    (setIn name value entries).lookup other
      = if other = name then some value else entries.lookup other := by
  induction entries with
  | nil => exact lookup_entry name other value []
  | cons entry rest ih =>
    obtain ⟨n, v⟩ := entry
    rw [setIn]
    split
    · next hn =>
      subst hn
      simp only [lookup_entry]
      split <;> rfl
    · next hn =>
      grind

theorem get?_set (t : Catalog α) (name other : String) (value : α) :
    (t.set name value).get? other = if other = name then some value else t.get? other :=
  lookup_setIn

theorem get?_set_some {found : α} (h : (t.set name value).get? other = some found) :
    (other = name ∧ value = found) ∨ t.get? other = some found := by
  rw [get?_set] at h
  split at h
  · next heq => exact .inl ⟨heq, Option.some.inj h⟩
  · exact .inr h

theorem get?_alter (t : Catalog α) (name other : String) (start : α) (f : α → α) :
    (t.alter name start f).get? other
      = if other = name then some (f ((t.get? name).getD start)) else t.get? other :=
  get?_set t name other _

theorem get?_setDefault :
    (t.setDefault name value).get? other
      = if other = name then some ((t.get? name).getD value) else t.get? other := by
  rw [setDefault, contains]
  cases h : t.get? name with
  | none => simp [get?_set]
  | some v =>
    by_cases ho : other = name
    · subst ho
      simp [h]
    · simp [ho]

theorem get?_erase : (t.erase name).get? other = if other = name then none else t.get? other := by
  obtain ⟨entries⟩ := t
  show (entries.filter fun e => e.1 ≠ name).lookup other
    = if other = name then none else entries.lookup other
  induction entries with
  | nil => simp
  | cons entry rest ih =>
    obtain ⟨n, v⟩ := entry
    by_cases hn : n = name
    · rw [filter_cons_of_neg (by simp [hn]), ih]
      grind
    · rw [filter_cons_of_pos (by simp [hn]), lookup_entry, ih]
      grind

theorem get?_modify {f : α → α} :
    (t.modify name f).get? other = if other = name then (t.get? name).map f else t.get? other := by
  obtain ⟨entries⟩ := t
  show (entries.map fun e => if e.1 = name then (e.1, f e.2) else (e.1, e.2)).lookup other
    = if other = name then (entries.lookup name).map f else entries.lookup other
  induction entries with
  | nil => simp
  | cons entry rest ih =>
    obtain ⟨n, v⟩ := entry
    by_cases hn : n = name
    · simp only [hn]
      grind
    · simp only [map_cons, hn, if_false]
      grind

theorem mem_entries_of_get? (h : t.get? name = some value) : (name, value) ∈ t.entries := by
  obtain ⟨before, after, hentries, -⟩ := lookup_eq_some_iff.mp h
  rw [hentries]
  simp

theorem mem_values_of_get? (h : t.get? name = some value) : value ∈ t.values :=
  mem_map_of_mem (mem_entries_of_get? h)

theorem get?_map {f : α → β} : (t.map f).get? name = (t.get? name).map f := by
  obtain ⟨entries⟩ := t
  show (entries.map fun e => (e.1, f e.2)).lookup name = (entries.lookup name).map f
  induction entries with
  | nil => rfl
  | cons entry rest ih =>
    obtain ⟨n, v⟩ := entry
    rw [map_cons, lookup_entry, lookup_entry, ih]
    split <;> rfl

/-- After a change every entry is the changed one or was there before. -/
theorem mem_entries_setIn {entry : String × α} :
    ∀ {entries : List (String × α)}, entry ∈ setIn name value entries →
      entry = (name, value) ∨ entry ∈ entries := by
  intro entries
  induction entries with
  | nil => exact fun h => .inl (mem_singleton.mp h)
  | cons first rest ih =>
    obtain ⟨n, v⟩ := first
    intro h
    rw [setIn] at h
    split at h
    · next hn =>
      subst hn
      exact (mem_cons.mp h).imp_right (mem_cons_of_mem _)
    · rcases mem_cons.mp h with rfl | h
      · exact .inr (mem_cons_self ..)
      · exact (ih h).imp_right (mem_cons_of_mem _)

/-! ## Names. -/

theorem names_setIn {entries : List (String × α)} :
    (setIn name value entries).map Prod.fst
      = if name ∈ entries.map Prod.fst then entries.map Prod.fst
        else entries.map Prod.fst ++ [name] := by
  induction entries with
  | nil => rfl
  | cons entry rest ih =>
    obtain ⟨n, v⟩ := entry
    rw [setIn]
    by_cases hn : n = name
    · simp [hn]
    · have hne : name ≠ n := Ne.symm hn
      by_cases h : name ∈ rest.map Prod.fst <;> simp_all

theorem nodup_names_set (h : t.names.Nodup) (name : String) (value : α) :
    (t.set name value).names.Nodup := by
  show ((setIn name value t.entries).map Prod.fst).Nodup
  rw [names_setIn]
  split
  · exact h
  · next hmem =>
    refine nodup_append.mpr ⟨h, by simp, ?_⟩
    intro a ha b hb hab
    rw [mem_singleton] at hb
    exact hmem (hb ▸ hab ▸ ha)

theorem get?_isSome_iff : (t.get? name).isSome = true ↔ name ∈ t.names := by
  rw [get?, lookup_isSome_iff, names, mem_map]
  simp only [beq_iff_eq, @eq_comm _ name]

theorem get?_eq_none_iff (t : Catalog α) (name : String) : t.get? name = none ↔ name ∉ t.names := by
  rw [← get?_isSome_iff, Bool.not_eq_true, Option.isSome_eq_false_iff, Option.isNone_iff_eq_none]

theorem get?_of_mem_entries (h : t.names.Nodup) (hmem : (name, value) ∈ t.entries) :
    t.get? name = some value := by
  obtain ⟨before, after, hentries⟩ := append_of_mem hmem
  rw [names, hentries, map_append, nodup_append] at h
  refine lookup_eq_some_iff.mpr ⟨before, after, hentries, fun entry hentry => bne_iff_ne.mpr ?_⟩
  exact (h.2.2 entry.1 (mem_map_of_mem hentry) name mem_cons_self).symm

theorem names_set (name : String) (value : α) :
    (t.set name value).names = if name ∈ t.names then t.names else t.names ++ [name] :=
  names_setIn

theorem names_modify {f : α → α} : (t.modify name f).names = t.names := by
  show (t.entries.map fun e => if e.1 = name then (e.1, f e.2) else (e.1, e.2)).map Prod.fst
    = t.entries.map Prod.fst
  rw [map_map]
  refine map_congr_left fun entry _ => ?_
  show (if entry.1 = name then (entry.1, f entry.2) else (entry.1, entry.2)).1 = entry.1
  split <;> rfl

/-- Catalogs with the same names in the same order and the same values are equal. -/
theorem ext_of_nodup {a b : Catalog α} (hnodup : a.names.Nodup) (hnames : a.names = b.names)
    (hget : ∀ name, a.get? name = b.get? name) : a = b := by
  obtain ⟨as⟩ := a
  obtain ⟨bs⟩ := b
  replace hnodup : (as.map Prod.fst).Nodup := hnodup
  replace hnames : as.map Prod.fst = bs.map Prod.fst := hnames
  replace hget : ∀ name ∈ as.map Prod.fst, as.lookup name = bs.lookup name := fun name _ => hget name
  refine congrArg Catalog.mk ?_
  induction as generalizing bs with
  | nil => exact (map_eq_nil_iff.mp hnames.symm).symm
  | cons entry as ih =>
    obtain ⟨n, v⟩ := entry
    cases bs with
    | nil => cases hnames
    | cons other bs =>
      obtain ⟨m, w⟩ := other
      obtain ⟨rfl, hrest⟩ : n = m ∧ _ := cons.inj hnames
      rw [map_cons, nodup_cons] at hnodup
      have hfirst := hget n mem_cons_self
      rw [lookup_entry, lookup_entry, if_pos rfl, if_pos rfl] at hfirst
      rw [Option.some.inj hfirst, ih bs hnodup.2 hrest]
      intro name hname
      have hlater := hget name (mem_cons_of_mem _ hname)
      have hne : name ≠ n := fun heq => hnodup.1 (heq ▸ hname)
      rwa [lookup_entry, lookup_entry, if_neg hne, if_neg hne] at hlater

theorem set_set (h : t.names.Nodup) (name : String) (a b : α) :
    (t.set name a).set name b = t.set name b := by
  refine ext_of_nodup (nodup_names_set (nodup_names_set h _ _) _ _) ?_ ?_
  · have hmem : name ∈ (t.set name a).names := by
      rw [← get?_isSome_iff, get?_set, if_pos rfl]
      rfl
    rw [names_set, if_pos hmem, names_set, names_set]
  · intro other
    simp only [get?_set]
    split <;> rfl

theorem modify_set (h : t.names.Nodup) (name : String) (a : α) (f : α → α) :
    (t.set name a).modify name f = t.set name (f a) := by
  refine ext_of_nodup ?_ ?_ fun other => ?_
  · rw [names_modify]
    exact nodup_names_set h _ _
  · rw [names_modify, names_set, names_set]
  · simp only [get?_modify, get?_set]
    split <;> rfl

theorem set_of_get? (h : t.names.Nodup) (hget : t.get? name = some value) : t.set name value = t := by
  have hmem : name ∈ t.names := get?_isSome_iff.mp (by rw [hget]; rfl)
  refine ext_of_nodup (nodup_names_set h _ _) (by rw [names_set, if_pos hmem]) fun other => ?_
  rw [get?_set]
  split
  · next heq => rw [heq, hget]
  · rfl

theorem modify_of_get? (h : t.names.Nodup) {f : α → α} (hget : t.get? name = some value)
    (hf : f value = value) : t.modify name f = t := by
  refine ext_of_nodup (by rw [names_modify]; exact h) names_modify fun other => ?_
  rw [get?_modify]
  split
  · next heq => rw [heq, hget, Option.map_some, hf]
  · rfl

theorem names_map {f : α → β} : (t.map f).names = t.names := by
  show (t.entries.map fun e => (e.1, f e.2)).map Prod.fst = t.entries.map Prod.fst
  rw [map_map]
  rfl

theorem map_set {f : α → β} : (t.set name value).map f = (t.map f).set name (f value) := by
  obtain ⟨entries⟩ := t
  refine congrArg Catalog.mk ?_
  show (setIn name value entries).map (fun e => (e.1, f e.2))
    = setIn name (f value) (entries.map fun e => (e.1, f e.2))
  induction entries with
  | nil => rfl
  | cons entry entries ih =>
    obtain ⟨n, v⟩ := entry
    rw [setIn, map_cons, setIn]
    split
    · rfl
    · rw [map_cons, ih]

theorem map_modify {f : α → β} {g : α → α} (h : ∀ value, f (g value) = f value) (t : Catalog α)
    (name : String) : (t.modify name g).map f = t.map f := by
  unfold modify map
  rw [map_map]
  congr 1
  refine map_congr_left fun entry _ => ?_
  simp only [Function.comp]
  split
  · rw [h]
  · rfl

/-! ## Fresh names. -/

theorem setIn_append (name : String) (value : α) {before : List (String × α)}
    (h : name ∉ before.map Prod.fst) (after : List (String × α)) :
    setIn name value (before ++ after) = before ++ setIn name value after := by
  induction before with
  | nil => rfl
  | cons entry before ih =>
    obtain ⟨n, v⟩ := entry
    rw [map_cons, mem_cons, not_or] at h
    rw [cons_append, setIn, if_neg (Ne.symm h.1), ih h.2, cons_append]

theorem alter_of_fresh (h : name ∉ t.names) (start : α) (f : α → α) :
    t.alter name start f = ⟨t.entries ++ [(name, f start)]⟩ := by
  rw [alter, (get?_eq_none_iff t name).mpr h, set]
  have hset := setIn_append name (f start) h []
  rw [append_nil] at hset
  rw [Option.getD_none, hset]
  rfl

/-- The name at the end is changed in place. -/
theorem alter_last {before : List (String × α)} (h : name ∉ before.map Prod.fst)
    (value start : α) (f : α → α) :
    (⟨before ++ [(name, value)]⟩ : Catalog α).alter name start f
      = ⟨before ++ [(name, f value)]⟩ := by
  have hget : (⟨before ++ [(name, value)]⟩ : Catalog α).get? name = some value := by
    show (before ++ [(name, value)]).lookup name = some value
    have hnone : before.lookup name = none := (get?_eq_none_iff ⟨before⟩ name).mpr h
    rw [lookup_append, hnone, lookup_entry, if_pos rfl]
    rfl
  rw [alter, hget, set, setIn_append name _ h]
  show _ = (⟨before ++ [(name, f value)]⟩ : Catalog α)
  rw [setIn, if_pos rfl]
  rfl

/-! ## Lists under names. -/

theorem nodup_names_foldl_alter {items : List (String × List β)} :
    ∀ {t : Catalog (List β)}, t.names.Nodup →
      (items.foldl (fun t (name, entries) => t.alter name [] (· ++ entries)) t).names.Nodup := by
  induction items with
  | nil => exact fun h => h
  | cons item items ih => exact fun h => ih (nodup_names_set h _ _)

theorem foldl_alter_of_fresh {items : List (String × List β)} :
    ∀ {t : Catalog (List β)}, (t.names ++ items.map Prod.fst).Nodup →
      items.foldl (fun t (name, entries) => t.alter name [] (· ++ entries)) t
        = ⟨t.entries ++ items⟩ := by
  induction items with
  | nil =>
    intro t _
    show t = ⟨t.entries ++ []⟩
    rw [append_nil]
  | cons item items ih =>
    intro t h
    obtain ⟨name, entries⟩ := item
    have hfresh : name ∉ t.names := fun hmem =>
      (nodup_append.mp h).2.2 name hmem name (mem_cons_self ..) rfl
    rw [foldl_cons]
    dsimp only
    rw [alter_of_fresh hfresh, ih]
    · show (⟨(t.entries ++ [(name, [] ++ entries)]) ++ items⟩ : Catalog (List β)) = _
      rw [append_assoc]
      rfl
    · show ((t.entries ++ [(name, [] ++ entries)]).map Prod.fst ++ items.map Prod.fst).Nodup
      rw [map_append, append_assoc]
      exact h

/-- Putting lists one by one after those that are there. -/
theorem getD_foldl_alter {x : String} {items : List (String × List β)} :
    ∀ t : Catalog (List β),
      ((items.foldl (fun t (name, entries) => t.alter name [] (· ++ entries)) t).get? x).getD []
        = (t.get? x).getD [] ++ (items.filter (·.1 = x)).flatMap Prod.snd := by
  induction items with
  | nil => simp
  | cons item items ih =>
    intro t
    obtain ⟨name, entries⟩ := item
    rw [foldl_cons, ih, get?_alter]
    by_cases h : x = name
    · subst h
      simp
    · have hne : ¬ name = x := Ne.symm h
      simp [h, hne]

/-- With every name once, a name stands for its list. -/
theorem flatMap_filter_entries {t : Catalog (List β)} (h : t.names.Nodup) (x : String) :
    (t.entries.filter (·.1 = x)).flatMap Prod.snd = (t.get? x).getD [] := by
  obtain ⟨entries⟩ := t
  show (entries.filter (·.1 = x)).flatMap Prod.snd = (entries.lookup x).getD []
  replace h : (entries.map Prod.fst).Nodup := h
  induction entries with
  | nil => rfl
  | cons entry rest ih =>
    obtain ⟨n, v⟩ := entry
    rw [map_cons, nodup_cons] at h
    rw [lookup_entry]
    by_cases hn : n = x
    · subst hn
      have hrest : rest.filter (·.1 = n) = [] := by
        refine filter_eq_nil_iff.mpr fun e he heq => h.1 ?_
        exact mem_map.mpr ⟨e, he, of_decide_eq_true heq⟩
      simp [hrest]
    · rw [filter_cons_of_neg (by simp [hn]), ih h.2, if_neg (Ne.symm hn)]

end QueryAudit.Catalog
