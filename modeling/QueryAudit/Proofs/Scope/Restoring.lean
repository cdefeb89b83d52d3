/-
  QueryAudit.Proofs.Scope.Restoring — definitions taken back are those put aside

  A pass files every scope, identifier and block once and in order, so taking a snapshot back files
  the same in the same order. Only a node can change: it is the one at the same place of the fresh
  tree.

  Main results: `run_orderly`, `restore?_save`, `FileScopes.Matches.answersAs`, `save_restoresWell`.
-/

import Mathlib.Data.List.Forall2
import QueryAudit.Proofs.Scope.Filing

namespace QueryAudit.Scope

open Php List Binding Catalog

variable {a b : Binding} {block : Closure} {entry found : String × Catalog (List Binding)}
  {known : Catalog (List Binding)} {p q : Binding → Bool} {root : Cursor} {s : FileScopes}
  {t t' : Tracker} {xs ys : List Binding} {α β γ : Type} {key path owner : String}

/-! ## Maps in order. -/

/-- Every scope, every identifier and every block of a file is filed once. -/
structure FileScopes.Orderly (s : FileScopes) : Prop where
  scopes : s.closures.names.Nodup
  identifiers : ∀ entry ∈ s.closures.entries, entry.2.names.Nodup
  finished : s.finished = s.closures.names
  owners : s.blocks.names.Nodup
  blocks : ∀ entry ∈ s.blocks.entries, entry.2.Nodup ∧ entry.2 ≠ []
    ∧ ∀ block ∈ entry.2, block.kind = .block ∧ block.owner.key = entry.1

theorem FileScopes.Orderly.flush (h : s.Orderly) (key : String)
    (known : Catalog (List Binding)) : (s.flush key known).Orderly := by
  have hold : ((s.closures.get? key).getD .empty).names.Nodup := by
    cases hget : s.closures.get? key with
    | none => exact nodup_nil
    | some target => exact h.identifiers _ (mem_entries_of_get? hget)
  refine ⟨nodup_names_set h.scopes _ _, fun entry hentry => ?_, ?_, h.owners, h.blocks⟩
  · rcases mem_entries_setIn hentry with rfl | hentry
    · exact nodup_names_foldl_alter hold
    · exact h.identifiers entry hentry
  · show (if s.finished.contains key then s.finished else s.finished ++ [key])
      = (s.closures.alter key _ _).names
    rw [alter, names_set, h.finished]
    simp only [contains_iff_mem]

theorem FileScopes.Orderly.addBlock (h : s.Orderly)
    (hblock : block.kind = .block) : (s.addBlock block).Orderly := by
  refine ⟨h.scopes, h.identifiers, h.finished, nodup_names_set h.owners _ _, ?_⟩
  intro entry hentry
  rcases mem_entries_setIn hentry with rfl | hentry
  · -- the blocks of the same scope, with the new one behind them
    have hold : ((s.blocks.get? block.owner.key).getD []).Nodup
        ∧ ∀ other ∈ (s.blocks.get? block.owner.key).getD [],
          other.kind = .block ∧ other.owner.key = block.owner.key := by
      cases hget : s.blocks.get? block.owner.key with
      | none => exact ⟨nodup_nil, fun _ hmem => (nomatch hmem)⟩
      | some known =>
        have hknown := h.blocks _ (mem_entries_of_get? hget)
        exact ⟨hknown.1, hknown.2.2⟩
    generalize (s.blocks.get? block.owner.key).getD [] = known at hold ⊢
    dsimp only
    split
    · next hmem =>
      refine ⟨hold.1, ?_, hold.2⟩
      exact ne_nil_of_mem (contains_iff_mem.mp hmem)
    · next hmem =>
      rw [contains_iff_mem] at hmem
      refine ⟨?_, by simp, fun other hother => ?_⟩
      · refine nodup_append.mpr ⟨hold.1, by simp, ?_⟩
        rintro a ha b hb rfl
        exact hmem (mem_singleton.mp hb ▸ ha)
      · rcases mem_append.mp hother with hother | hother
        · exact hold.2 other hother
        · rw [mem_singleton.mp hother]
          exact ⟨hblock, rfl⟩
  · exact h.blocks entry hentry

theorem Tracker.Step.orderly (hstep : t.Step t') (h : t.scopes.Orderly) : t'.scopes.Orderly := by
  cases hstep with
  | openScope closure => exact h
  | bind closure b => exact h
  | flush closure => exact h.flush _ _
  | block block hblock => exact h.addBlock hblock
  | calls calls => exact ⟨h.scopes, h.identifiers, h.finished, h.owners, h.blocks⟩
  | report event => exact h
  | move => exact h

theorem Tracker.Steps.orderly (hsteps : t.Steps t') (h : t.scopes.Orderly) : t'.scopes.Orderly := by
  induction hsteps with
  | refl => exact h
  | tail _ hlast ih => exact hlast.orderly ih

theorem run_orderly (callNames : List String) (path : String) (root : Cursor) :
    (Tracker.run callNames path root).1.Orderly := by
  have hstart : ({ path } : FileScopes).Orderly :=
    ⟨nodup_nil, fun _ hentry => (nomatch hentry), rfl, nodup_nil, fun _ hentry => (nomatch hentry)⟩
  rw [Tracker.run_eq]
  exact (Tracker.finish_steps callNames path root).orderly hstart

/-! ## Finding nodes again. -/

/-- A binding with the node that stands at the same place of another tree. -/
def Binding.relocate (root : Cursor) (b : Binding) : Option Binding :=
  match b.node with
  | none => some b
  | some c =>
    (root.locate? c.node.span.start c.node.span.stop c.kind).map fun found =>
      { b with node := some found }

/-- The bindings of an identifier with the nodes of another tree. -/
def relocateList (root : Cursor) (entry : String × List Binding) : Option (String × List Binding) :=
  (entry.2.mapM (relocate root)).map (entry.1, ·)

def relocateScope (root : Cursor) (entry : String × Catalog (List Binding)) :
    Option (String × Catalog (List Binding)) :=
  (entry.2.entries.mapM (relocateList root)).map fun found => (entry.1, ⟨found⟩)

/-- The definitions of a file with the nodes of another tree, and without calls to be checked. -/
def FileScopes.relocate (root : Cursor) (s : FileScopes) : Option FileScopes :=
  (s.closures.entries.mapM (relocateScope root)).map fun found =>
    { s with closures := ⟨found⟩, callSites := [] }

theorem Binding.restore_save (root : Cursor) (b : Binding) :
    b.save.restore b.path b.closure b.identifier root = b.relocate root := by
  obtain ⟨identifier, closure, line, path, node, literal, tag, origin, serial⟩ := b
  cases node with
  | none => rfl
  | some c =>
    show (Place.restore root _ >>= _) = Option.map _ _
    simp only [Place.restore, save, Option.map_some]
    cases root.locate? c.node.span.start c.node.span.stop c.kind <;> rfl

theorem mapM_congr_of_mem {f g : α → Option β} {items : List α}
    (h : ∀ item ∈ items, f item = g item) : items.mapM f = items.mapM g := by
  induction items with
  | nil => rfl
  | cons item items ih =>
    rw [mapM_cons, mapM_cons, h item (mem_cons_self ..),
      ih fun other hother => h other (mem_cons_of_mem _ hother)]

/-- The bindings of a scope name the file, the scope and the identifier they are filed under. -/
def PlacedIn (path key : String) (known : Catalog (List Binding)) : Prop :=
  ∀ entry ∈ known.entries, ∀ b ∈ entry.2,
    b.path = path ∧ b.closure = key ∧ b.identifier = entry.1

theorem restoreClosure_save (h : PlacedIn path key known) (root : Cursor) :
    (restoreClosure path key root (known.map fun entries => entries.map save)).map (key, ·)
      = relocateScope root (key, known) := by
  have hlists : (known.entries.map fun e => (e.1, e.2.map save)).mapM
        (fun e => do return (e.1, ← e.2.mapM (·.restore path key e.1 root)))
      = known.entries.mapM (relocateList root) := by
    rw [mapM_map]
    refine mapM_congr_of_mem fun entry hentry => ?_
    have hlist : (entry.2.map save).mapM (·.restore path key entry.1 root)
        = entry.2.mapM (relocate root) := by
      rw [mapM_map]
      refine mapM_congr_of_mem fun b hb => ?_
      obtain ⟨hpath, hclosure, hidentifier⟩ := h entry hentry b hb
      rw [← hpath, ← hclosure, ← hidentifier]
      exact b.restore_save root
    dsimp only [Function.comp_apply]
    rw [hlist, relocateList]
    cases entry.2.mapM (relocate root) <;> rfl
  unfold restoreClosure Catalog.map relocateScope
  rw [hlists]
  cases known.entries.mapM (relocateList root) <;> rfl

theorem mapM_eq_some_iff {f : α → Option β} {items : List α} :
    ∀ {results : List β}, items.mapM f = some results ↔
      Forall₂ (fun item result => f item = some result) items results := by
  induction items with
  | nil =>
    intro results
    rw [forall₂_nil_left_iff]
    exact ⟨fun h => (Option.some.inj h).symm, fun h => h ▸ rfl⟩
  | cons item items ih =>
    intro results
    rw [mapM_cons, forall₂_cons_left_iff]
    simp only [Option.bind_eq_bind, Option.bind_eq_some_iff, ih]
    constructor
    · rintro ⟨result, hresult, rest, hrest, heq⟩
      exact ⟨result, rest, hresult, hrest, (Option.some.inj heq).symm⟩
    · rintro ⟨result, rest, hresult, hrest, rfl⟩
      exact ⟨result, hresult, rest, hrest, rfl⟩

theorem map_eq_of_mapM {f : α → Option α} {g : α → γ} {items results : List α}
    (hkept : ∀ item result, f item = some result → g result = g item)
    (h : items.mapM f = some results) : results.map g = items.map g := by
  have hpairs := mapM_eq_some_iff.mp h
  clear h
  induction hpairs with
  | nil => rfl
  | cons hitem _ ih => rw [map_cons, map_cons, ih, hkept _ _ hitem]

theorem names_of_relocateScope (h : relocateScope root entry = some found) :
    found.1 = entry.1 ∧ found.2.names = entry.2.names := by
  obtain ⟨lists, hlists, rfl⟩ := Option.map_eq_some_iff.mp h
  refine ⟨rfl, map_eq_of_mapM (fun item result hitem => ?_) hlists⟩
  obtain ⟨_, _, rfl⟩ := Option.map_eq_some_iff.mp hitem
  rfl

/-! ## Taking a snapshot back. -/

/-- Filing a scope that is not filed yet puts it behind the others. -/
theorem flush_of_fresh (hkey : key ∉ s.closures.names) (hknown : known.names.Nodup)
    (hfinished : s.finished = s.closures.names) :
    s.flush key known = { s with
      closures := ⟨s.closures.entries ++ [(key, known)]⟩
      finished := s.finished ++ [key] } := by
  have hentries : known.entries.foldl (fun t e => t.alter e.1 [] (· ++ e.2)) .empty = known :=
    foldl_alter_of_fresh hknown
  rw [FileScopes.flush, alter_of_fresh hkey, hentries, if_neg]
  rw [contains_iff_mem, hfinished]
  exact hkey

theorem restoreClosures_save (path : String) (root : Cursor)
    (entries : List (String × Catalog (List Binding))) :
    ∀ s : FileScopes, (∀ entry ∈ entries, PlacedIn path entry.1 entry.2 ∧ entry.2.names.Nodup) →
      (s.closures.names ++ entries.map Prod.fst).Nodup → s.finished = s.closures.names →
      restoreClosures path root (entries.map fun entry =>
          (entry.1, entry.2.map fun bindings => bindings.map save)) s
        = (entries.mapM (relocateScope root)).map fun found =>
          { s with
            closures := ⟨s.closures.entries ++ found⟩
            finished := s.finished ++ entries.map Prod.fst } := by
  induction entries with
  | nil =>
    intro s _ _ _
    show some s = some { s with
      closures := ⟨s.closures.entries ++ []⟩, finished := s.finished ++ [] }
    rw [append_nil, append_nil]
  | cons entry entries ih =>
    intro s hplaced hnodup hfinished
    obtain ⟨key, known⟩ := entry
    obtain ⟨hfirst, hnames⟩ := hplaced _ (mem_cons_self ..)
    have hrestore := restoreClosure_save hfirst root
    rw [map_cons, restoreClosures, mapM_cons, ← hrestore]
    cases hfound : restoreClosure path key root (known.map fun bindings =>
      bindings.map save) with
    | none => rfl
    | some found =>
      rw [hfound] at hrestore
      have hfresh : key ∉ s.closures.names := fun hmem =>
        (nodup_append.mp hnodup).2.2 key hmem key (mem_cons_self ..) rfl
      have hdistinct : found.names.Nodup :=
        (names_of_relocateScope hrestore.symm).2 ▸ hnames
      show restoreClosures path root _ (s.flush key found)
        = Option.map _ (Option.bind (entries.mapM (relocateScope root)) _)
      rw [flush_of_fresh hfresh hdistinct hfinished, ih]
      · cases entries.mapM (relocateScope root) with
        | none => rfl
        | some rest =>
          simp only [append_assoc]
          rfl
      · exact fun other hother => hplaced other (mem_cons_of_mem _ hother)
      · show ((s.closures.entries ++ [(key, found)]).map Prod.fst ++ _).Nodup
        rw [map_append, append_assoc]
        exact hnodup
      · show s.finished ++ [key] = (s.closures.entries ++ [(key, found)]).map Prod.fst
        rw [map_append, hfinished]
        rfl

def FileScopes.restoreBlock (s : FileScopes) (block : Closure) : FileScopes :=
  s.addBlock { block with kind := .block }

theorem FileScopes.restoreBlock_eq (h : block.kind = .block) (s : FileScopes) :
    s.restoreBlock block = s.addBlock block := by
  rw [restoreBlock, ← h]

/-- Blocks of a scope that has some go behind them. -/
theorem foldl_restoreBlock_last {before : List (String × List Closure)}
    (hbefore : owner ∉ before.map Prod.fst) {blocks : List Closure} :
    ∀ (done : List Closure) (s : FileScopes), (done ++ blocks).Nodup →
      (∀ block ∈ blocks, block.kind = .block ∧ block.owner.key = owner) →
      blocks.foldl FileScopes.restoreBlock { s with blocks := ⟨before ++ [(owner, done)]⟩ }
        = { s with blocks := ⟨before ++ [(owner, done ++ blocks)]⟩ } := by
  induction blocks with
  | nil =>
    intro done s _ _
    rw [append_nil]
    rfl
  | cons block blocks ih =>
    intro done s hnodup hblocks
    obtain ⟨hkind, howner⟩ := hblocks block (mem_cons_self ..)
    have hnew : done.contains block = false := by
      rw [← Bool.not_eq_true, contains_iff_mem]
      exact fun hmem => (nodup_append.mp hnodup).2.2 block hmem block (mem_cons_self ..) rfl
    have hfirst : FileScopes.restoreBlock { s with blocks := ⟨before ++ [(owner, done)]⟩ } block
        = { s with blocks := ⟨before ++ [(owner, done ++ [block])]⟩ } := by
      rw [FileScopes.restoreBlock_eq hkind, FileScopes.addBlock, howner]
      rw [alter_last hbefore, hnew, if_neg Bool.false_ne_true]
    rw [append_cons] at hnodup
    rw [foldl_cons, hfirst, ih (done ++ [block]) s hnodup fun other hother =>
      hblocks other (mem_cons_of_mem _ hother), ← append_cons]

theorem foldl_restoreBlock (path : String) (entries : List (String × List Closure)) :
    ∀ before : List (String × List Closure), ((before ++ entries).map Prod.fst).Nodup →
      (∀ entry ∈ entries, entry.2.Nodup ∧ entry.2 ≠ []
        ∧ ∀ block ∈ entry.2, block.kind = .block ∧ block.owner.key = entry.1) →
      (entries.map Prod.snd).flatten.foldl FileScopes.restoreBlock
          ({ path, blocks := ⟨before⟩ } : FileScopes)
        = { path, blocks := ⟨before ++ entries⟩ } := by
  induction entries with
  | nil =>
    intro before _ _
    rw [append_nil]
    rfl
  | cons entry entries ih =>
    intro before hnodup hentries
    obtain ⟨owner, blocks⟩ := entry
    obtain ⟨hdistinct, hsome, hblocks⟩ := hentries _ (mem_cons_self ..)
    have howner : owner ∉ before.map Prod.fst := by
      rw [map_append] at hnodup
      exact fun hmem => (nodup_append.mp hnodup).2.2 owner hmem owner (mem_cons_self ..) rfl
    obtain ⟨first, rest, rfl⟩ := exists_cons_of_ne_nil hsome
    obtain ⟨hkind, hkey⟩ := hblocks first (mem_cons_self ..)
    -- the first block opens the entry of its scope, the others go behind it
    have hopen : FileScopes.restoreBlock { path, blocks := ⟨before⟩ } first
        = { path, blocks := ⟨before ++ [(owner, [first])]⟩ } := by
      rw [FileScopes.restoreBlock_eq hkind, FileScopes.addBlock, hkey, alter_of_fresh howner]
      rfl
    have hrest := foldl_restoreBlock_last howner [first] { path } hdistinct
      fun block hblock => hblocks block (mem_cons_of_mem _ hblock)
    rw [append_cons] at hnodup
    have hothers := ih _ hnodup fun other hother => hentries other (mem_cons_of_mem _ hother)
    rw [← append_cons] at hothers
    rw [map_cons, flatten_cons, foldl_append, foldl_cons, hopen, hrest]
    exact hothers

/-- The bindings of every scope of a file that is filed well name their place. -/
theorem FileScopes.Orderly.placedIn (h : s.Orderly) (hfiled : WellFiled s.path s.entries) :
    ∀ entry ∈ s.closures.entries, PlacedIn s.path entry.1 entry.2 := by
  intro entry hentry item hitem b hb
  have hscope : s.closures.get? entry.1 = some entry.2 :=
    get?_of_mem_entries h.scopes hentry
  have hlist : entry.2.get? item.1 = some item.2 :=
    get?_of_mem_entries (h.identifiers entry hentry) hitem
  have hmem : b ∈ s.entries entry.1 item.1 := by
    rw [FileScopes.entries, hscope, Option.bind_some, hlist]
    exact hb
  obtain ⟨hclosure, hidentifier, hpath⟩ := hfiled.place _ _ b hmem
  exact ⟨hpath, hclosure, hidentifier⟩

/-- **Taking a snapshot back is finding every node again.** -/
theorem restore?_save (h : s.Orderly) (hfiled : WellFiled s.path s.entries)
    (written size : Nat) (root : Cursor) :
    (s.save written size).restore? s.path root = s.relocate root := by
  have hblocks : s.blocks.values.flatten.foldl FileScopes.restoreBlock { path := s.path }
      = { path := s.path, blocks := s.blocks } :=
    foldl_restoreBlock s.path s.blocks.entries [] h.owners h.blocks
  have hclosures := restoreClosures_save s.path root s.closures.entries
    { path := s.path, blocks := s.blocks }
    (fun entry hentry => ⟨h.placedIn hfiled entry hentry, h.identifiers entry hentry⟩) h.scopes rfl
  show restoreClosures s.path root (s.closures.entries.map _)
    (s.blocks.values.flatten.foldl FileScopes.restoreBlock _) = _
  rw [hblocks, hclosures, FileScopes.relocate]
  cases s.closures.entries.mapM (relocateScope root) with
  | none => rfl
  | some found =>
    show some _ = some _
    rw [h.finished]
    rfl

/-! ## Look-ups. -/

def Binding.outline (b : Binding) : Binding × Option Place := ({ b with node := none }, b.save.place)

/-- The bindings of a file by scope and identifier, without their nodes. -/
def FileScopes.outline (s : FileScopes) : Catalog (Catalog (List (Binding × Option Place))) :=
  s.closures.map fun known => known.map fun entries => entries.map Binding.outline

/-- Two maps of one file have the same scopes, identifiers, bindings and blocks in the same order;
their nodes stand at the same places. -/
structure FileScopes.Matches (s t : FileScopes) : Prop where
  path : s.path = t.path
  bindings : s.outline = t.outline
  blocks : s.blocks = t.blocks
  finished : s.finished = t.finished

/-- Two maps give the same answers, up to nodes at the same places. -/
structure FileScopes.AnswersAs (s t : FileScopes) : Prop where
  levels : ∀ owner line, s.levels owner line = t.levels owner line
  lookup : ∀ owner identifier line, (s.lookup owner identifier line).map Binding.outline
    = (t.lookup owner identifier line).map Binding.outline
  previous : ∀ a b, a.outline = b.outline →
    (s.previous a).map Binding.outline = (t.previous b).map Binding.outline
  alternatives : ∀ a b, a.outline = b.outline →
    (s.alternatives a).map Binding.outline = (t.alternatives b).map Binding.outline

/-- Two bindings differ in their nodes only. -/
structure Binding.Alike (a b : Binding) : Prop where
  identifier : a.identifier = b.identifier
  closure : a.closure = b.closure
  line : a.line = b.line
  origin : a.origin = b.origin
  serial : a.serial = b.serial

theorem Binding.alike_of_outline (h : a.outline = b.outline) : a.Alike b := by
  have hbare : ({ a with node := none } : Binding) = { b with node := none } := congrArg Prod.fst h
  injection hbare with hidentifier hclosure hline _ _ _ _ horigin hserial
  exact ⟨hidentifier, hclosure, hline, horigin, hserial⟩

theorem map_outline_iff : xs.map outline = ys.map outline ↔
    Forall₂ (fun a b => a.outline = b.outline) xs ys := by
  rw [← forall₂_eq_eq_eq, forall₂_map_left_iff, forall₂_map_right_iff]

theorem map_outline_filter (h : ∀ a b, a.outline = b.outline → p a = q b)
    (hxy : xs.map outline = ys.map outline) :
    (xs.filter p).map outline = (ys.filter q).map outline := by
  rw [map_outline_iff] at hxy ⊢
  exact rel_filter (fun a b hab => Eq.congr_left (h a b hab)) hxy

theorem map_outline_find? (h : ∀ a b, a.outline = b.outline → p a = q b)
    (hxy : xs.map outline = ys.map outline) :
    (xs.find? p).map outline = (ys.find? q).map outline := by
  rw [← head?_filter, ← head?_filter, ← head?_map, ← head?_map, map_outline_filter h hxy]

theorem map_outline_dropWhile (h : ∀ a b, a.outline = b.outline → p a = q b)
    (hxy : xs.map outline = ys.map outline) :
    (xs.dropWhile p).map outline = (ys.dropWhile q).map outline := by
  rw [map_outline_iff] at hxy ⊢
  induction hxy with
  | nil => exact .nil
  | cons hab hrest ih =>
    rw [dropWhile_cons, dropWhile_cons, h _ _ hab]
    split
    · exact ih
    · exact .cons hab hrest

theorem any_outline (h : ∀ a b, a.outline = b.outline → p a = q b)
    (hxy : xs.map outline = ys.map outline) : xs.any p = ys.any q := by
  have hfind := map_outline_find? h hxy
  rw [← isSome_find?, ← isSome_find?, ← Option.isSome_map (f := outline), hfind, Option.isSome_map]

theorem lastBefore_outline (hxy : xs.map outline = ys.map outline) {line : Option Int} :
    (lastBefore xs line).map outline = (lastBefore ys line).map outline := by
  refine map_outline_find? (fun a b hab => ?_) (by rw [map_reverse, map_reverse, hxy])
  cases line with
  | none => rfl
  | some n =>
    rw [(alike_of_outline hab).line]

theorem findSome?_outline {f g : α → Option Binding}
    (h : ∀ a, (f a).map outline = (g a).map outline) {items : List α} :
    (items.findSome? f).map outline = (items.findSome? g).map outline := by
  rw [map_findSome?, map_findSome?]
  congr 1
  funext a
  exact h a

namespace FileScopes.Matches

variable {s t : FileScopes} (h : s.Matches t)

include h

theorem entries (key identifier : String) :
    (s.entries key identifier).map Binding.outline = (t.entries key identifier).map Binding.outline := by
  have hview : ∀ u : FileScopes, (u.entries key identifier).map Binding.outline
      = ((u.outline.get? key).bind (·.get? identifier)).getD [] := by
    intro u
    rw [FileScopes.entries, FileScopes.outline, get?_map]
    cases u.closures.get? key with
    | none => rfl
    | some known =>
      rw [Option.map_some, Option.bind_some, Option.bind_some, get?_map]
      cases known.get? identifier <;> rfl
  rw [hview, hview, h.bindings]

theorem earlier (hab : a.outline = b.outline) :
    (s.earlier a).map Binding.outline = (t.earlier b).map Binding.outline := by
  have halike := Binding.alike_of_outline hab
  have hall := h.entries b.closure b.identifier
  have hsame : ∀ x y : Binding, x.outline = y.outline → x.same a = y.same b := by
    intro x y hxy
    rw [same, same, halike.serial, (alike_of_outline hxy).serial]
  have hbefore := map_outline_dropWhile (p := fun e => !e.same a) (q := fun e => !e.same b)
    (fun x y hxy => by rw [hsame x y hxy])
    (show (s.entries b.closure b.identifier).reverse.map Binding.outline
      = (t.entries b.closure b.identifier).reverse.map Binding.outline by
        rw [map_reverse, map_reverse, hall])
  rw [FileScopes.earlier, FileScopes.earlier, halike.closure, halike.identifier]
  rw [any_outline hsame hall]
  split
  · refine map_outline_filter (fun x y hxy => ?_) ?_
    · rw [halike.origin, (alike_of_outline hxy).origin]
    · rw [map_reverse, map_reverse, map_tail, map_tail, hbefore]
  · rfl

theorem closureOfKey (key : String) : s.closureOfKey key = t.closureOfKey key := by
  rw [FileScopes.closureOfKey, FileScopes.closureOfKey, h.blocks]

/-- **Maps that differ in nodes only answer alike.** -/
theorem answersAs : s.AnswersAs t := by
  have hlevels : ∀ owner line, s.levels owner line = t.levels owner line := by
    intro owner line
    simp only [FileScopes.levels, FileScopes.blocksAround, h.blocks]
  refine ⟨hlevels, fun owner identifier line => ?_, fun a b hab => ?_, fun a b hab => ?_⟩
  · rw [FileScopes.lookup, FileScopes.lookup, FileScopes.lookupIn, hlevels]
    exact findSome?_outline (fun c : Closure => lastBefore_outline (h.entries c.key identifier))
  · have halike := Binding.alike_of_outline hab
    have hearlier := h.earlier hab
    rw [FileScopes.previous, FileScopes.previous]
    cases hs : s.earlier a with
    | nil =>
      rw [hs, map_nil, eq_comm, map_eq_nil_iff] at hearlier
      rw [hearlier]
      dsimp only
      rw [h.closureOfKey, halike.closure, halike.identifier, halike.line]
      exact findSome?_outline (fun c : Closure => lastBefore_outline (h.entries c.key b.identifier))
    | cons x xs =>
      rw [hs] at hearlier
      obtain ⟨y, ys, ht, _⟩ := map_eq_cons_iff.mp hearlier.symm
      rw [ht] at hearlier ⊢
      rw [halike.line]
      exact lastBefore_outline hearlier
  · have halike := alike_of_outline hab
    have hfound := map_outline_filter (p := (·.origin = a.origin)) (q := (·.origin = b.origin))
      (fun x y hxy => by rw [halike.origin, (alike_of_outline hxy).origin])
      (h.entries b.closure b.identifier)
    rw [FileScopes.alternatives, FileScopes.alternatives, halike.origin, halike.closure,
      halike.identifier]
    rw [halike.origin] at hfound
    have hself : [a].map Binding.outline = [b].map Binding.outline :=
      congrArg (fun outline => [outline]) hab
    split
    · exact hself
    cases hs : (s.entries b.closure b.identifier).filter (·.origin = b.origin) with
    | nil =>
      rw [hs, map_nil, eq_comm, map_eq_nil_iff] at hfound
      rw [hfound]
      exact hself
    | cons x xs =>
      rw [hs] at hfound
      obtain ⟨y, ys, ht, _⟩ := map_eq_cons_iff.mp hfound.symm
      rw [ht] at hfound ⊢
      exact hfound

end FileScopes.Matches

/-! ## Nodes found again. -/

theorem Binding.outline_of_relocate {found : Binding}
    (h : b.relocate root = some found) : found.outline = b.outline := by
  rw [relocate] at h
  split at h
  · rw [Option.some.inj h]
  · next c hnode =>
    obtain ⟨c', hc', rfl⟩ := Option.map_eq_some_iff.mp h
    rw [Cursor.locate?] at hc'
    split at hc'
    · have hplace := (mem_filter.mp (mem_of_getLast? hc')).2
      simp only [Bool.and_eq_true, decide_eq_true_eq] at hplace
      obtain ⟨⟨hkind, hstart⟩, hstop⟩ := hplace
      have hplaces : (⟨c'.node.span.start, c'.node.span.stop, c'.kind⟩ : Place)
          = ⟨c.node.span.start, c.node.span.stop, c.kind⟩ := by rw [hkind, hstart, hstop]
      rw [outline, outline, save, save, hnode]
      dsimp only [Option.map_some]
      rw [hplaces]
    · cases hc'

theorem outline_of_relocateList {entry found : String × List Binding}
    (h : relocateList root entry = some found) :
    (found.1, found.2.map outline) = (entry.1, entry.2.map outline) := by
  obtain ⟨bindings, hbindings, rfl⟩ := Option.map_eq_some_iff.mp h
  rw [map_eq_of_mapM (fun _ _ => outline_of_relocate) hbindings]

theorem outline_of_relocateScope (h : relocateScope root entry = some found) :
    (found.1, found.2.map fun entries => entries.map outline)
      = (entry.1, entry.2.map fun entries => entries.map outline) := by
  obtain ⟨lists, hlists, rfl⟩ := Option.map_eq_some_iff.mp h
  rw [Catalog.map, Catalog.map, map_eq_of_mapM (fun _ _ => outline_of_relocateList) hlists]

/-- **What is taken back matches what was put aside.** -/
theorem FileScopes.matches_of_relocate {found : FileScopes}
    (h : s.relocate root = some found) : found.Matches s := by
  obtain ⟨closures, hclosures, rfl⟩ := Option.map_eq_some_iff.mp h
  refine ⟨rfl, ?_, rfl, rfl⟩
  rw [FileScopes.outline, FileScopes.outline, Catalog.map, Catalog.map,
    map_eq_of_mapM (fun _ _ => outline_of_relocateScope) hclosures]

/-- The node of a binding is the one that a tree has at its place. -/
def Binding.FoundIn (root : Cursor) (b : Binding) : Prop :=
  ∀ c, b.node = some c → root.locate? c.node.span.start c.node.span.stop c.kind = some c

theorem Binding.FoundIn.relocate (h : b.FoundIn root) : b.relocate root = some b := by
  rw [Binding.relocate]
  split
  · rfl
  · next c hnode =>
    rw [h c hnode, Option.map_some, ← hnode]

theorem mapM_eq_self {f : α → Option α} {items : List α} (h : ∀ item ∈ items, f item = some item) :
    items.mapM f = some items :=
  mapM_eq_some_iff.mpr (forall₂_same.mpr h)

/-- **When every node is found where it was, nothing changes but that no calls are left to be
checked.** -/
theorem FileScopes.relocate_eq_self (h : s.Orderly)
    (hfiled : WellFiled s.path s.entries) (hfound : ∀ b, s.Has b → b.FoundIn root) :
    s.relocate root = some { s with callSites := [] } := by
  have hscopes : s.closures.entries.mapM (relocateScope root) = some s.closures.entries := by
    refine mapM_eq_self fun entry hentry => ?_
    have hlists : entry.2.entries.mapM (relocateList root) = some entry.2.entries := by
      refine mapM_eq_self fun item hitem => ?_
      have hentries : s.entries entry.1 item.1 = item.2 := by
        rw [FileScopes.entries, get?_of_mem_entries h.scopes hentry, Option.bind_some,
          get?_of_mem_entries (h.identifiers entry hentry) hitem, Option.getD_some]
      have hbindings : item.2.mapM (Binding.relocate root) = some item.2 :=
        mapM_eq_self fun b hb => (hfound b (hfiled.has (hentries.symm ▸ hb))).relocate
      rw [relocateList, hbindings, Option.map_some]
    rw [relocateScope, hlists, Option.map_some]
  rw [FileScopes.relocate, hscopes, Option.map_some]

/-! ## Snapshots of other files. -/

/-- Maps that differ in nodes only are filed alike. -/
theorem FileScopes.Matches.wellFiled {t : FileScopes} (h : s.Matches t)
    (ht : WellFiled t.path t.entries) : WellFiled t.path s.entries := by
  refine ⟨fun key identifier b hb => ?_, fun key identifier => ?_⟩
  · have hmem : b.outline ∈ (t.entries key identifier).map Binding.outline := by
      rw [← h.entries]
      exact mem_map_of_mem hb
    obtain ⟨c, hc, hcb⟩ := mem_map.mp hmem
    obtain ⟨hclosure, hidentifier, hpath⟩ := ht.place key identifier c hc
    have halike := alike_of_outline hcb
    have hsame : c.path = b.path := congrArg (fun o : Binding × Option Place => o.1.path) hcb
    exact ⟨halike.closure ▸ hclosure, halike.identifier ▸ hidentifier, hsame ▸ hpath⟩
  · have hordered := ht.ordered key identifier
    rw [← pairwise_map (f := Binding.serial) (R := (· < ·))] at hordered ⊢
    have hserials : ∀ bindings : List Binding, bindings.map Binding.serial
        = (bindings.map Binding.outline).map fun o => o.1.serial := by
      intro bindings
      rw [map_map]
      rfl
    rw [hserials, h.entries, ← hserials]
    exact hordered

def FileScopes.moved (path : String) (s : FileScopes) : FileScopes :=
  { s with
    path
    closures := s.closures.map fun known => known.map fun entries => entries.map fun b => { b with path } }

theorem FileScopes.entries_moved (path : String) (s : FileScopes) (key identifier : String) :
    (s.moved path).entries key identifier = (s.entries key identifier).map fun b => { b with path } := by
  rw [FileScopes.entries, FileScopes.entries, FileScopes.moved, get?_map]
  cases s.closures.get? key with
  | none => rfl
  | some known =>
    rw [Option.map_some, Option.bind_some, Option.bind_some, get?_map]
    cases known.get? identifier <;> rfl

theorem FileScopes.Orderly.moved (h : s.Orderly) (path : String) : (s.moved path).Orderly where
  scopes := by
    rw [FileScopes.moved, names_map]
    exact h.scopes
  identifiers entry hentry := by
    obtain ⟨known, hknown, rfl⟩ := mem_map.mp hentry
    rw [names_map]
    exact h.identifiers known hknown
  finished := by
    rw [FileScopes.moved, names_map]
    exact h.finished
  owners := h.owners
  blocks := h.blocks

theorem WellFiled.moved (h : WellFiled s.path s.entries) (path : String) :
    WellFiled path (s.moved path).entries := by
  refine ⟨fun key identifier b hb => ?_, fun key identifier => ?_⟩
  · rw [FileScopes.entries_moved] at hb
    obtain ⟨c, hc, rfl⟩ := mem_map.mp hb
    obtain ⟨hclosure, hidentifier, -⟩ := h.place key identifier c hc
    exact ⟨hclosure, hidentifier, rfl⟩
  · rw [FileScopes.entries_moved, pairwise_map]
    exact h.ordered key identifier

/-- **What a snapshot gives back is filed well**, also when it is asked for another file. -/
theorem save_restoresWell (h : s.Orderly) (hfiled : WellFiled s.path s.entries)
    (written size : Nat) : (s.save written size).RestoresWell := by
  intro path root scopes hscopes
  -- a snapshot does not say which file its definitions stood in
  have hsame : (s.save written size).closures = ((s.moved path).save written size).closures := by
    show Catalog.map _ s.closures = Catalog.map _ (Catalog.map _ s.closures)
    simp only [Catalog.map, map_map, Function.comp_def]
    rfl
  have hmoved : ((s.moved path).save written size).restore? (s.moved path).path root = some scopes := by
    rw [← hscopes, Snapshot.restore?, Snapshot.restore?, hsame]
    rfl
  rw [restore?_save (h.moved path) (hfiled.moved path)] at hmoved
  have hmatches := FileScopes.matches_of_relocate hmoved
  exact ⟨hmatches.path, hmatches.wellFiled (hfiled.moved path)⟩

end QueryAudit.Scope
