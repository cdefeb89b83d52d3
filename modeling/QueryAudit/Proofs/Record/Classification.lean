/-
  QueryAudit.Proofs.Record.Classification — classes get their place whatever the order

  `Placing`: every class that was placed has the place its table gives it, and the classes placed so
  far are closed under parents. A step keeps it, whichever class it is taken for.

  Main results: `Placing.step`, `classify_places`, `classification_correct`.
-/

import QueryAudit.Proofs.Record.Walks
import QueryAudit.Proofs.Text.Pieces

namespace QueryAudit.Record

open Php Text List Catalog

variable {before cycle rest : List ClassDecl} {cycles : List (List ClassDecl)} {d last : ClassDecl}
  {key : String} {now old : Diagnostics} {w : Ascent}

variable {base : String} {table classes : Catalog ClassDecl}

variable {beyond : List String} {known : Bool} {chain a b order : List ClassDecl} {r : Run}

/-! ## Giving places. -/

theorem names_markCyclic :
    ∀ classes : Catalog ClassDecl, (markCyclic classes cycle).names = classes.names := by
  induction cycle with
  | nil => exact fun _ => rfl
  | cons d cycle ih => exact fun classes => (ih _).trans names_modify

theorem get?_markCyclic :
    ∀ classes : Catalog ClassDecl, (markCyclic classes cycle).get? key = (classes.get? key).map
      fun d => if key ∈ cycle.map ClassDecl.key then { d with cyclic := true } else d := by
  induction cycle with
  | nil =>
    intro classes
    simp [markCyclic]
  | cons d cycle ih =>
    intro classes
    rw [show markCyclic classes (d :: cycle)
      = markCyclic (classes.modify d.key fun d => { d with cyclic := true }) cycle from rfl, ih,
      get?_modify, map_cons]
    by_cases hkey : key = d.key
    · subst hkey
      rw [if_pos rfl, Option.map_map]
      refine Option.map_congr fun c _ => ?_
      by_cases hmem : d.key ∈ cycle.map ClassDecl.key <;> simp [hmem]
    · rw [if_neg hkey]
      refine Option.map_congr fun c _ => ?_
      simp only [mem_cons, hkey, false_or]

theorem names_settle :
    ∀ classes : Catalog ClassDecl, (settle beyond known chain classes).names = classes.names := by
  induction chain with
  | nil => exact fun _ => rfl
  | cons d chain ih => exact fun classes => (ih _).trans names_modify

theorem get?_settle_of_notMem (h : key ∉ chain.map ClassDecl.key) :
    ∀ classes : Catalog ClassDecl, (settle beyond known chain classes).get? key = classes.get? key := by
  induction chain with
  | nil => exact fun _ => rfl
  | cons d chain ih =>
    intro classes
    rw [map_cons, mem_cons, not_or] at h
    rw [settle, ih h.2, get?_modify, if_neg h.1]

/-- A class of a walk gets the names behind it for its ancestors. -/
theorem get?_settle_of_mem (beyond : List String) (known : Bool)
    (hnodup : ((before ++ d :: rest).map ClassDecl.key).Nodup) : ∀ classes : Catalog ClassDecl,
      (settle beyond known (before ++ d :: rest) classes).get? d.key = (classes.get? d.key).map
        fun c => { c with ancestors := rest.map ClassDecl.name ++ beyond, isRecord := some known } := by
  induction before with
  | nil =>
    intro classes
    rw [nil_append, map_cons, nodup_cons] at hnodup
    rw [nil_append, settle, get?_settle_of_notMem hnodup.1, get?_modify, if_pos rfl]
  | cons first before ih =>
    intro classes
    rw [cons_append, map_cons, nodup_cons] at hnodup
    have hne : d.key ≠ first.key := by
      intro heq
      exact hnodup.1 (by simp [← heq])
    rw [cons_append, settle, ih hnodup.2, get?_modify, if_neg hne]

/-! ## Warnings about cycles. -/

/-- The keys of a cycle as they stand in the key of its warning. -/
def sortedKeys (cycle : List ClassDecl) : List String :=
  (cycle.map ClassDecl.key).mergeSort fun a b => !(b < a)

theorem mem_sortedKeys : key ∈ sortedKeys cycle ↔ key ∈ cycle.map ClassDecl.key :=
  mem_mergeSort

theorem cycleWarning?_key (h : cycle ≠ []) :
    (cycleWarning? cycle).map Prod.fst = some ("cycle:" ++ joinWith "," (sortedKeys cycle)) := by
  cases cycle with
  | nil => exact absurd rfl h
  | cons first rest =>
    rw [cycleWarning?, map_map]
    rfl

/-- Cycles with one key for their warnings have the same classes. -/
theorem keys_of_cycleWarning? (ha : a ≠ []) (hb : b ≠ [])
    (hplain : ∀ d, d ∈ a ∨ d ∈ b → ',' ∉ d.key.toList)
    (h : (cycleWarning? a).map Prod.fst = (cycleWarning? b).map Prod.fst) :
    key ∈ a.map ClassDecl.key ↔ key ∈ b.map ClassDecl.key := by
  have hsplit : ∀ cycle : List ClassDecl, cycle ≠ [] → (∀ d ∈ cycle, ',' ∉ d.key.toList) →
      splitAt ',' (joinWith "," (sortedKeys cycle)) = sortedKeys cycle := by
    intro cycle hne hcycle
    refine splitAt_joinWith ',' ?_ ?_
    · obtain ⟨d, hd⟩ := exists_mem_of_ne_nil cycle hne
      exact ne_nil_of_mem (mem_sortedKeys.mpr (mem_map_of_mem hd))
    · intro text htext
      obtain ⟨d, hd, rfl⟩ := mem_map.mp (mem_sortedKeys.mp htext)
      exact hcycle d hd
  rw [cycleWarning?_key ha, cycleWarning?_key hb, Option.some.injEq] at h
  have hjoin : joinWith "," (sortedKeys a) = joinWith "," (sortedKeys b) := by
    have hlist := congrArg String.toList h
    rw [String.toList_append, String.toList_append] at hlist
    exact String.toList_inj.mp (append_cancel_left hlist)
  rw [← mem_sortedKeys, ← hsplit a ha fun d hd => hplain d (.inl hd), hjoin,
    hsplit b hb fun d hd => hplain d (.inr hd), mem_sortedKeys]

/-! ## One class. -/

/-- The findings with the warning about a cycle, unless it was given before. -/
def withCycle (d : Diagnostics) (cycle : List ClassDecl) : Diagnostics :=
  match cycleWarning? cycle with
  | none => d
  | some (key, warning) =>
    if d.seen.contains key then d
    else { d with seen := d.seen ++ [key], warnings := d.warnings ++ [warning] }

theorem classify_eq (hopen : r.diagnostics.drained = false)
    (hunplaced : (r.classes.get? d.key).bind ClassDecl.isRecord = none)
    (hw : ascend (lower r.settings.recordBaseClass) r.classes (r.classes.size + 1) [d] d = w) :
    classify d r = .ok w.isRecord { r with
      classes := settle w.beyond w.isRecord w.chain (markCyclic r.classes w.cycle)
      diagnostics := withCycle r.diagnostics w.cycle } := by
  simp only [classify, run_bind, run_get, hunplaced, hw, run_set]
  cases hwarning : cycleWarning? w.cycle with
  | none => simp only [run_bind, run_pure, run_modify, withCycle, hwarning]
  | some found =>
    obtain ⟨key, warning⟩ := found
    cases hseen : r.diagnostics.seen.contains key with
    | true =>
      simp only [run_bind, warnOnce_eq, hseen, if_true, run_modify, run_pure, withCycle, hwarning]
    | false =>
      simp only [run_bind, warnOnce_eq, warn_eq, hseen, hopen, Bool.false_eq_true, if_false,
        run_modify, run_pure, withCycle, hwarning]

/-- The classes placed so far have the place that the table gives them, all they descend from was
placed too, and the cycles among them were warned about, each once. -/
structure Placing (base : String) (table : Catalog ClassDecl) (old : Diagnostics)
    (classes : Catalog ClassDecl) (now : Diagnostics) (cycles : List (List ClassDecl)) : Prop where
  same : SameClasses table classes
  place : ∀ key d known, classes.get? key = some d → d.isRecord = some known →
    (Lineage base table key d.ancestors known ∨ known = false ∧ MeetsCycle base table key)
      ∧ (d.cyclic = true ↔ OnCycle base table key)
  unmarked : ∀ key d, classes.get? key = some d → d.isRecord = none → d.cyclic = false
  closed : ∀ key parent, Placed classes key → Extends base table key parent → Placed classes parent
  cycles_isCycle : ∀ cycle ∈ cycles, IsCycle base table (cycle.map ClassDecl.key)
  cycles_copy : ∀ cycle ∈ cycles, ∀ d ∈ cycle, Copy table d
  cycles_mem : ∀ key, key ∈ cycles.flatten.map ClassDecl.key ↔
    Placed classes key ∧ OnCycle base table key
  cycles_nodup : (cycles.flatten.map ClassDecl.key).Nodup
  found : now = { old with
    seen := old.seen ++ cycles.filterMap fun cycle => (cycleWarning? cycle).map Prod.fst
    warnings := old.warnings ++ cycles.filterMap fun cycle => (cycleWarning? cycle).map Prod.snd }

section Step

variable {old now : Diagnostics} {cycles : List (List ClassDecl)} {w : Ascent} {last : ClassDecl}

def placedBy (w : Ascent) (classes : Catalog ClassDecl) : Catalog ClassDecl :=
  settle w.beyond w.isRecord w.chain (markCyclic classes w.cycle)

theorem Climb.cycle_subset (h : Climb base table classes last w) : w.cycle ⊆ w.chain := by
  cases h.ends with
  | cycle _ => exact subset_append_right _ _
  | _ => exact nil_subset _

theorem Climb.keys_subset (h : Climb base table classes last w) :
    w.cycle.map ClassDecl.key ⊆ w.chain.map ClassDecl.key :=
  map_subset _ h.cycle_subset

theorem Climb.get?_of_notMem (hw : Climb base table classes last w)
    (h : key ∉ w.chain.map ClassDecl.key) : (placedBy w classes).get? key = classes.get? key := by
  have hcycle : key ∉ w.cycle.map ClassDecl.key := fun hmem => h (hw.keys_subset hmem)
  rw [placedBy, get?_settle_of_notMem h, get?_markCyclic]
  simp only [hcycle, if_false, Option.map_id']

/-- What is known of a class of a walk afterwards. -/
theorem Climb.get?_of_mem (h : Climb base table classes last w) (hsame : SameClasses table classes)
    (hkey : key ∈ w.chain.map ClassDecl.key) :
    ∃ before d rest c c', w.chain = before ++ d :: rest ∧ d.key = key ∧ classes.get? key = some c
      ∧ c.isRecord = none ∧ (placedBy w classes).get? key = some c' ∧ c'.bare = c.bare
      ∧ c'.ancestors = rest.map ClassDecl.name ++ w.beyond ∧ c'.isRecord = some w.isRecord
      ∧ (c'.cyclic = true ↔ key ∈ w.cycle.map ClassDecl.key ∨ c.cyclic = true) := by
  have htrail := h.trail
  obtain ⟨d, hd, rfl⟩ := mem_map.mp hkey
  obtain ⟨before, rest, hsplit⟩ := append_of_mem hd
  obtain ⟨own, hown, -⟩ := (htrail.copies d hd).get
  obtain ⟨c, hc, -⟩ := hsame.get_of_table hown
  have hnone : c.isRecord = none := by
    cases hknown : c.isRecord with
    | none => rfl
    | some known => exact absurd ⟨c, known, hc, hknown⟩ (htrail.unplaced d hd)
  have hnodup := htrail.nodup
  rw [hsplit] at hnodup
  have hget := get?_settle_of_mem w.beyond w.isRecord hnodup (markCyclic classes w.cycle)
  rw [← hsplit, get?_markCyclic, hc, Option.map_some] at hget
  refine ⟨before, d, rest, c, _, hsplit, rfl, hc, hnone, hget, ?_⟩
  by_cases hmem : d.key ∈ w.cycle.map ClassDecl.key
  · rw [if_pos hmem]
    exact ⟨rfl, rfl, rfl, by simp [hmem]⟩
  · rw [if_neg hmem]
    exact ⟨rfl, rfl, rfl, by simp [hmem]⟩

/-- The place that a walk gives to its classes is theirs. -/
theorem Climb.place (h : Climb base table classes last w)
    (hplacing : Placing base table old classes now cycles)
    (hsplit : w.chain = before ++ d :: rest) :
    Lineage base table d.key (rest.map ClassDecl.name ++ w.beyond) w.isRecord
      ∨ w.isRecord = false ∧ MeetsCycle base table d.key := by
  have hcycle := h.isCycle
  obtain ⟨htrail, hlast, hw⟩ := h
  rw [hsplit] at htrail hlast
  cases hw with
  | top hbase hparent => exact .inl (htrail.lineage hlast (.top hbase hparent))
  | base h => exact .inl (htrail.lineage hlast (.base h))
  | @known chain parent known hext hget hknown =>
    rcases (hplacing.place _ parent known hget hknown).1 with hlineage | ⟨rfl, hmeets⟩
    · obtain ⟨own, hown, hbare⟩ := hplacing.same.get hget
      rw [name_of_bare hbare]
      exact .inl (htrail.lineage hlast (.step hext hown hlineage))
    · have hreach := (htrail.reaches_last hlast).tail hext
      exact .inr ⟨rfl, .of_reaches hreach hmeets⟩
  | cycle hext =>
    have hreach := (htrail.reaches_last hlast).tail hext
    have hfirst := (hcycle (cons_ne_nil _ _)).onCycle mem_cons_self
    exact .inr ⟨rfl, .of_reaches hreach hfirst.meetsCycle⟩

theorem Climb.placed_iff (h : Climb base table classes last w) (hsame : SameClasses table classes)
    (key : String) :
    Placed (placedBy w classes) key ↔ Placed classes key ∨ key ∈ w.chain.map ClassDecl.key := by
  by_cases hmem : key ∈ w.chain.map ClassDecl.key
  · obtain ⟨-, -, -, c, c', -, -, -, -, hc', -, -, hknown, -⟩ := h.get?_of_mem hsame hmem
    exact ⟨fun _ => .inr hmem, fun _ => ⟨c', _, hc', hknown⟩⟩
  · rw [Placed, h.get?_of_notMem hmem]
    exact ⟨.inl, fun h => h.resolve_right hmem⟩

theorem SameClasses.placedBy (hsame : SameClasses table classes)
    (hw : Climb base table classes last w) :
    SameClasses table (placedBy w classes) where
  names := by
    rw [Record.placedBy, names_settle, names_markCyclic, hsame.names]
  bare key := by
    by_cases hmem : key ∈ w.chain.map ClassDecl.key
    · obtain ⟨-, -, -, c, c', -, -, hc, -, hc', hbare, -⟩ := hw.get?_of_mem hsame hmem
      rw [← hsame.bare, hc, hc', Option.map_some, Option.map_some, hbare]
    · rw [hw.get?_of_notMem hmem, hsame.bare]

end Step

/-- **Placing the classes of a walk keeps the invariant**, with the cycle that was found among those
that were warned about. -/
theorem Placing.step {now' : Diagnostics} {found : List (List ClassDecl)}
    (hplacing : Placing base table old classes now cycles) (hw : Climb base table classes last w)
    (hcycles : found.flatten = w.cycle) (hfound : ∀ cycle ∈ found, cycle = w.cycle ∧ cycle ≠ [])
    (hnow : now' = { now with
      seen := now.seen ++ found.filterMap fun cycle => (cycleWarning? cycle).map Prod.fst
      warnings := now.warnings ++ found.filterMap fun cycle => (cycleWarning? cycle).map Prod.snd }) :
    Placing base table old (placedBy w classes) now' (cycles ++ found) where
  same := hplacing.same.placedBy hw
  place := by
    intro key c' known hc' hknown
    by_cases hmem : key ∈ w.chain.map ClassDecl.key
    · obtain ⟨before, d, rest, c, own, hsplit, rfl, hc, hnone, hown, -, hancestors, hrecord, hcyclic⟩ :=
        hw.get?_of_mem hplacing.same hmem
      obtain rfl := Option.some.inj (hown.symm.trans hc')
      obtain rfl := Option.some.inj (hrecord.symm.trans hknown)
      rw [hancestors]
      refine ⟨hw.place hplacing hsplit, ?_⟩
      rw [hcyclic, hplacing.unmarked _ c hc hnone, hw.onCycle_iff hplacing.closed hmem]
      simp
    · rw [hw.get?_of_notMem hmem] at hc'
      exact hplacing.place key c' known hc' hknown
  unmarked := by
    intro key c' hc' hnone
    by_cases hmem : key ∈ w.chain.map ClassDecl.key
    · obtain ⟨-, -, -, c, own, -, -, -, -, hown, -, -, hrecord, -⟩ :=
        hw.get?_of_mem hplacing.same hmem
      obtain rfl := Option.some.inj (hown.symm.trans hc')
      cases hnone.symm.trans hrecord
    · rw [hw.get?_of_notMem hmem] at hc'
      exact hplacing.unmarked key c' hc' hnone
  closed := by
    intro key parent hkey hext
    rw [hw.placed_iff hplacing.same] at hkey ⊢
    rcases hkey with hkey | hkey
    · exact .inl (hplacing.closed key parent hkey hext)
    · exact (hw.closed hkey hext).symm
  cycles_isCycle := by
    intro cycle hcycle
    rcases mem_append.mp hcycle with hcycle | hcycle
    · exact hplacing.cycles_isCycle cycle hcycle
    · obtain ⟨rfl, hne⟩ := hfound cycle hcycle
      exact hw.isCycle hne
  cycles_copy := by
    intro cycle hcycle d hd
    rcases mem_append.mp hcycle with hcycle | hcycle
    · exact hplacing.cycles_copy cycle hcycle d hd
    · obtain ⟨rfl, -⟩ := hfound cycle hcycle
      exact hw.trail.copies d (hw.cycle_subset hd)
  cycles_mem := by
    intro key
    rw [flatten_append, map_append, mem_append, hcycles, hplacing.cycles_mem,
      hw.placed_iff hplacing.same]
    constructor
    · rintro (⟨hplaced, hcycle⟩ | hmem)
      · exact ⟨.inl hplaced, hcycle⟩
      · have hchain := hw.keys_subset hmem
        exact ⟨.inr hchain, (hw.onCycle_iff hplacing.closed hchain).mp hmem⟩
    · rintro ⟨hplaced | hchain, hcycle⟩
      · exact .inl ⟨hplaced, hcycle⟩
      · exact .inr ((hw.onCycle_iff hplacing.closed hchain).mpr hcycle)
  cycles_nodup := by
    rw [flatten_append, map_append, hcycles]
    refine nodup_append.mpr ⟨hplacing.cycles_nodup, ?_, ?_⟩
    · by_cases hne : w.cycle = []
      · rw [hne]
        exact nodup_nil
      · exact (hw.isCycle hne).nodup
    · -- what was warned about before was placed before
      rintro a ha b hb rfl
      obtain ⟨d, hd, rfl⟩ := mem_map.mp (hw.keys_subset hb)
      exact hw.trail.unplaced d hd ((hplacing.cycles_mem _).mp ha).1
  found := by
    rw [hnow, hplacing.found]
    simp only [filterMap_append, append_assoc]

theorem IsCycle.ne_nil (h : IsCycle base table (cycle.map ClassDecl.key)) : cycle ≠ [] := by
  rintro rfl
  obtain ⟨first, -, hfirst, -⟩ := h.closes
  cases hfirst

/-- The warning about a new cycle was not given before. -/
theorem Placing.cycle_unseen {warning : Warning}
    (hplacing : Placing base table old classes now cycles) (hplain : Unplaced table)
    (hold : ∀ key ∈ old.seen, startsWith "cycle:".toList key.toList = false)
    (hw : Climb base table classes last w)
    (hwarning : cycleWarning? w.cycle = some (key, warning)) : key ∉ now.seen := by
  have hne : w.cycle ≠ [] := by
    rintro hnil
    rw [hnil] at hwarning
    cases hwarning
  have hkey : (cycleWarning? w.cycle).map Prod.fst = some key := by rw [hwarning]; rfl
  have hplainCopy : ∀ d, Copy table d → ',' ∉ d.key.toList := by
    intro d hd
    obtain ⟨own, hown, -⟩ := hd.get
    exact hplain.plain d.key own hown
  rw [hplacing.found]
  intro hmem
  rcases mem_append.mp hmem with hmem | hmem
  · -- keys of other warnings start otherwise
    have hstart := hold key hmem
    rw [cycleWarning?_key hne, Option.some.injEq] at hkey
    rw [← hkey, String.toList_append] at hstart
    cases hstart
  · -- another cycle with that key would have the same classes, but those were placed
    obtain ⟨cycle, hcycle, hsame⟩ := mem_filterMap.mp hmem
    have hcycleNe := (hplacing.cycles_isCycle cycle hcycle).ne_nil
    obtain ⟨d, hd⟩ := exists_mem_of_ne_nil w.cycle hne
    have hshared := (keys_of_cycleWarning? hne hcycleNe (fun d hd => hplainCopy d (hd.elim
      (fun hd => hw.trail.copies d (hw.cycle_subset hd)) fun hd => hplacing.cycles_copy cycle hcycle d hd))
      (hkey.trans hsame.symm)).mp (mem_map_of_mem hd)
    have hplaced : d.key ∈ cycles.flatten.map ClassDecl.key := by
      obtain ⟨c, hc, hcd⟩ := mem_map.mp hshared
      exact mem_map.mpr ⟨c, mem_flatten.mpr ⟨cycle, hcycle, hc⟩, hcd⟩
    exact hw.trail.unplaced d (hw.cycle_subset hd) ((hplacing.cycles_mem _).mp hplaced).1

/-- The findings after a walk: those before, and the warning about the cycle if one was found. -/
theorem Placing.withCycle_eq (hplacing : Placing base table old classes now cycles)
    (hplain : Unplaced table)
    (hold : ∀ key ∈ old.seen, startsWith "cycle:".toList key.toList = false)
    (hw : Climb base table classes last w) :
    ∃ found : List (List ClassDecl),
      found.flatten = w.cycle ∧ (∀ cycle ∈ found, cycle = w.cycle ∧ cycle ≠ []) ∧
      withCycle now w.cycle = { now with
        seen := now.seen ++ found.filterMap fun cycle => (cycleWarning? cycle).map Prod.fst
        warnings := now.warnings
          ++ found.filterMap fun cycle => (cycleWarning? cycle).map Prod.snd } := by
  by_cases hne : w.cycle = []
  · refine ⟨[], hne.symm, nofun, ?_⟩
    rw [hne, filterMap_nil, filterMap_nil, append_nil, append_nil]
    rfl
  · refine ⟨[w.cycle], flatten_singleton, ?_, ?_⟩
    · intro cycle hcycle
      rw [mem_singleton] at hcycle
      exact ⟨hcycle, hcycle ▸ hne⟩
    · have hkey := cycleWarning?_key hne
      cases hwarning : cycleWarning? w.cycle with
      | none =>
        rw [hwarning] at hkey
        cases hkey
      | some pair =>
        have hunseen := hplacing.cycle_unseen hplain hold hw hwarning
        have hcontains : now.seen.contains pair.1 = false := by
          rw [← Bool.not_eq_true, contains_iff_mem]
          exact hunseen
        simp only [withCycle, hwarning, hcontains, Bool.false_eq_true, if_false,
          filterMap_cons, filterMap_nil, Option.map_some]

theorem known_iff_of_place {names : List String}
    (h : Lineage base table key names known ∨ known = false ∧ MeetsCycle base table key) :
    known = true ↔ ReachesBase base table key := by
  rcases h with h | ⟨rfl, h⟩
  · exact h.known_iff
  · exact ⟨nofun, fun hreach => absurd hreach h.not_reachesBase⟩

theorem Trail.single (hcopy : Copy table d) (hunplaced : ¬ Placed classes d.key) :
    Trail base table classes [d] where
  copies _ hc := mem_singleton.mp hc ▸ hcopy
  links := isChain_singleton _
  nodup := nodup_singleton _
  unplaced _ hc := mem_singleton.mp hc ▸ hunplaced

/-- **One class is placed**: it gets its place and the right answer, and what was placed before keeps
its place. -/
theorem classify_places (hbase : base = lower r.settings.recordBaseClass) (hplain : Unplaced table)
    (hopen : old.drained = false)
    (hold : ∀ key ∈ old.seen, startsWith "cycle:".toList key.toList = false)
    (hplacing : Placing base table old r.classes r.diagnostics cycles) (hcopy : Copy table d) :
    ∃ answer r' cycles', classify d r = .ok answer r' ∧ r'.settings = r.settings
      ∧ Placing base table old r'.classes r'.diagnostics cycles'
      ∧ (∀ key, Placed r.classes key → Placed r'.classes key) ∧ Placed r'.classes d.key
      ∧ (answer = true ↔ ReachesBase base table d.key) := by
  cases hplaced : (r.classes.get? d.key).bind ClassDecl.isRecord with
  | some known =>
    obtain ⟨c, hc, hknown⟩ := Option.bind_eq_some_iff.mp hplaced
    refine ⟨known, r, cycles, ?_, rfl, hplacing, fun _ => id, ⟨c, known, hc, hknown⟩,
      known_iff_of_place (hplacing.place d.key c known hc hknown).1⟩
    simp only [classify, run_bind, run_get, hplaced, run_pure]
  | none =>
    have hunplaced : ¬ Placed r.classes d.key := by
      rintro ⟨c, known, hc, hknown⟩
      rw [hc, Option.bind_some, hknown] at hplaced
      cases hplaced
    have hfuel : table.size < [d].length + (r.classes.size + 1) := by
      have hsize : r.classes.size = table.size := by
        have hnames := congrArg length hplacing.same.names
        rw [names, names, length_map, length_map] at hnames
        exact hnames
      omega
    have hstart : Trail base table r.classes [d] := .single hcopy hunplaced
    have hfirst : [d].getLast? = some d := rfl
    obtain ⟨last, more, hchain, hw⟩ := ascend_walks hplacing.same hplain.keyed hstart hfirst hfuel
    have hclassify := classify_eq (hplacing.found ▸ hopen) hplaced (congrArg
      (ascend · r.classes (r.classes.size + 1) [d] d) hbase.symm)
    generalize ascend base r.classes (r.classes.size + 1) [d] d = w at *
    have hd : d.key ∈ w.chain.map ClassDecl.key := by
      rw [hchain]
      exact mem_cons_self
    obtain ⟨found, hcycles, hfound, hnow⟩ := hplacing.withCycle_eq hplain hold hw
    have hstep := hplacing.step hw hcycles hfound hnow
    have hplacedIff := hw.placed_iff hplacing.same
    have hsplit : w.chain = [] ++ d :: more := hchain
    exact ⟨w.isRecord, _, cycles ++ found, hclassify, rfl, hstep,
      fun key hkey => (hplacedIff key).mpr (.inl hkey), (hplacedIff d.key).mpr (.inr hd),
      known_iff_of_place (hw.place hplacing hsplit)⟩

/-! ## All classes. -/

/-- Any number of classes are placed one after another. -/
theorem classifyAll_places (hplain : Unplaced table) (hopen : old.drained = false)
    (hold : ∀ key ∈ old.seen, startsWith "cycle:".toList key.toList = false)
    (hcopies : ∀ d ∈ order, Copy table d) :
    ∀ {r : Run} {cycles : List (List ClassDecl)}, base = lower r.settings.recordBaseClass →
      Placing base table old r.classes r.diagnostics cycles →
      ∃ answers r' cycles', order.mapM classify r = .ok answers r'
        ∧ Placing base table old r'.classes r'.diagnostics cycles'
        ∧ (∀ key, Placed r.classes key → Placed r'.classes key)
        ∧ (∀ d ∈ order, Placed r'.classes d.key)
        ∧ Forall₂ (fun (d : ClassDecl) answer => answer = true ↔ ReachesBase base table d.key)
            order answers := by
  induction order with
  | nil =>
    intro r cycles _ hplacing
    exact ⟨[], r, cycles, rfl, hplacing, fun _ => id, nofun, .nil⟩
  | cons d order ih =>
    intro r cycles hbase hplacing
    obtain ⟨answer, s, found, hfirst, hsettings, hnext, hkeep, hd, hanswer⟩ := classify_places hbase
      hplain hopen hold hplacing (hcopies d mem_cons_self)
    obtain ⟨answers, r', all, hrest, hlast, hkeep', horder, hanswers⟩ := ih
      (fun c hc => hcopies c (mem_cons_of_mem d hc)) (by rw [hsettings]; exact hbase) hnext
    refine ⟨answer :: answers, r', all, ?_, hlast, fun key hkey => hkeep' key (hkeep key hkey), ?_,
      .cons hanswer hanswers⟩
    · rw [mapM_cons, bind_of_ok hfirst, bind_of_ok hrest]
      rfl
    intro c hc
    rcases mem_cons.mp hc with rfl | hc
    · exact hkeep' _ hd
    · exact horder c hc

/-- Nothing was placed in a table that is not placed. -/
theorem Unplaced.placing (h : Unplaced table) (old : Diagnostics) :
    Placing base table old table old [] := by
  have hnone : ∀ key, ¬ Placed table key := by
    rintro key ⟨d, known, hd, hknown⟩
    cases ((h.fresh key d hd).1).symm.trans hknown
  refine ⟨⟨rfl, fun _ => rfl⟩, ?_, fun key d hd _ => (h.fresh key d hd).2, ?_, nofun, nofun, ?_,
    nodup_nil, ?_⟩
  · intro key d known hd hknown
    exact absurd ⟨d, known, hd, hknown⟩ (hnone key)
  · intro key parent hkey
    exact absurd hkey (hnone key)
  · intro key
    exact ⟨nofun, fun hkey => absurd hkey.1 (hnone key)⟩
  · simp

/-- **Classes get their place whatever the order**: a class is a record class exactly when following
declared parents leads to the base class; a class whose walk meets no cycle gets the classes of its
walk for its ancestors; the classes on cycles are marked, with one warning for each cycle. -/
theorem classification_correct (r : Run) (order : List ClassDecl) (base : String)
    (hbase : base = lower r.settings.recordBaseClass) (htable : Unplaced r.classes)
    (hopen : r.diagnostics.drained = false)
    (hseen : ∀ key ∈ r.diagnostics.seen, startsWith "cycle:".toList key.toList = false)
    (hcopies : ∀ d ∈ order, Copy r.classes d)
    (hall : ∀ key d, r.classes.get? key = some d → ∃ c ∈ order, c.key = key) :
    ∃ (answers : List Bool) (r' : Run) (cycles : List (List ClassDecl)),
      order.mapM classify r = .ok answers r' ∧
      List.Forall₂ (fun (d : ClassDecl) answer => answer = true ↔ ReachesBase base r.classes d.key)
        order answers ∧
      (∀ key d, r.classes.get? key = some d →
        ∃ d' known, r'.classes.get? key = some d' ∧ d'.bare = d.bare ∧ d'.isRecord = some known ∧
          (known = true ↔ ReachesBase base r.classes key) ∧
          (¬ MeetsCycle base r.classes key → Lineage base r.classes key d'.ancestors known) ∧
          (d'.cyclic = true ↔ OnCycle base r.classes key)) ∧
      r'.diagnostics.warnings = r.diagnostics.warnings
        ++ cycles.filterMap (fun cycle => (cycleWarning? cycle).map Prod.snd) ∧
      (∀ cycle ∈ cycles, (∀ d ∈ cycle, Copy r.classes d) ∧
        IsCycle base r.classes (cycle.map ClassDecl.key)) ∧
      (cycles.flatten.map ClassDecl.key).Nodup ∧
      ∀ key, key ∈ cycles.flatten.map ClassDecl.key ↔ OnCycle base r.classes key := by
  obtain ⟨answers, r', cycles, hrun, hplacing, -, horder, hanswers⟩ := classifyAll_places htable hopen
    hseen hcopies hbase (htable.placing r.diagnostics)
  have hplaced : ∀ key d, r.classes.get? key = some d → Placed r'.classes key := by
    intro key d hd
    obtain ⟨c, hc, rfl⟩ := hall key d hd
    exact horder c hc
  refine ⟨answers, r', cycles, hrun, hanswers, ?_, ?_, ?_, hplacing.cycles_nodup, ?_⟩
  · intro key d hd
    obtain ⟨d', known, hd', hknown⟩ := hplaced key d hd
    obtain ⟨own, hown, hbare⟩ := hplacing.same.get hd'
    obtain rfl := Option.some.inj (hd.symm.trans hown)
    obtain ⟨hplace, hcyclic⟩ := hplacing.place key d' known hd' hknown
    exact ⟨d', known, hd', hbare, hknown, known_iff_of_place hplace,
      fun hmeets => hplace.resolve_right fun h => hmeets h.2, hcyclic⟩
  · rw [hplacing.found]
  · intro cycle hcycle
    exact ⟨hplacing.cycles_copy cycle hcycle, hplacing.cycles_isCycle cycle hcycle⟩
  intro key
  rw [hplacing.cycles_mem]
  refine ⟨And.right, fun hcycle => ⟨?_, hcycle⟩⟩
  obtain ⟨next, ⟨⟨d, _, hd, -⟩, -⟩, -⟩ := Relation.TransGen.head'_iff.mp hcycle
  exact hplaced key d hd

/-- A table in which two classes extend each other, a third one extends one of them, and a record
class is extended by another one that names it in other letters. -/
def fiveClasses : Catalog ClassDecl :=
  ⟨[("a", { name := "A", parentName := some "B", file := "x.php", line := 1 }),
    ("b", { name := "B", parentName := some "\\app\\a", file := "x.php", line := 2 }),
    ("c", { name := "C", parentName := some "A", file := "x.php", line := 3 }),
    ("user", { name := "User", parentName := some "CActiveRecord", file := "x.php", line := 4 }),
    ("admin", { name := "Admin", parentName := some "USER", file := "x.php", line := 5 })]⟩

def fiveRun : Run := { root := ".", disk := { base := "/" }, classes := fiveClasses }

theorem fiveClasses_unplaced : Unplaced fiveClasses := by
  refine ⟨?_, ?_, ?_⟩ <;> intro key d hd
  · have hall : ∀ entry ∈ fiveClasses.entries, entry.2.key = entry.1 := by decide +kernel
    exact hall (key, d) (mem_entries_of_get? hd)
  · have hall : ∀ entry ∈ fiveClasses.entries,
        entry.2.isRecord = none ∧ entry.2.cyclic = false := by decide
    exact hall (key, d) (mem_entries_of_get? hd)
  · have hall : ∀ entry ∈ fiveClasses.entries, ',' ∉ entry.1.toList := by decide
    exact hall (key, d) (mem_entries_of_get? hd)

theorem fiveClasses_copies : ∀ d ∈ fiveClasses.values.reverse, Copy fiveClasses d := by
  intro d hd
  rw [mem_reverse] at hd
  simp only [fiveClasses, values, map_cons, map_nil, mem_cons, not_mem_nil, or_false] at hd
  rcases hd with rfl | rfl | rfl | rfl | rfl <;> rfl

/-- The five classes are placed from the last one on: the two that extend each other are marked and
warned about once, and the last two are record classes. -/
theorem classification_correct_five :
    ∃ (answers : List Bool) (r' : Run) (cycles : List (List ClassDecl)),
      fiveClasses.values.reverse.mapM classify fiveRun = .ok answers r' ∧
      answers = [true, true, false, false, false] ∧ r'.diagnostics.warnings.length = 1 ∧
      r'.diagnostics.warnings = fiveRun.diagnostics.warnings
        ++ cycles.filterMap (fun cycle => (cycleWarning? cycle).map Prod.snd) ∧
      ∀ key, key ∈ cycles.flatten.map ClassDecl.key ↔ OnCycle "cactiverecord" fiveRun.classes key := by
  obtain ⟨answers, r', cycles, hrun, -, -, hwarnings, -, -, hmem⟩ := classification_correct fiveRun
    fiveClasses.values.reverse "cactiverecord" (by decide +kernel) fiveClasses_unplaced rfl nofun
    fiveClasses_copies (fun key d hd => ⟨d, List.mem_reverse.mpr (Catalog.mem_values_of_get? hd),
      fiveClasses_unplaced.keyed key d hd⟩)
  have hresult : (match fiveClasses.values.reverse.mapM classify fiveRun with
      | .ok found s => (found, s.diagnostics.warnings.length)
      | .error _ _ => ([], 0)) = ([true, true, false, false, false], 1) := by
    decide +kernel
  rw [hrun, Prod.mk.injEq] at hresult
  exact ⟨answers, r', cycles, hrun, hresult.1, hresult.2, hwarnings, hmem⟩

end QueryAudit.Record
