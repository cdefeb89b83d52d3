/-
  QueryAudit.Proofs.Record.ParentChain — classes of a project and the classes above them

  From a class one goes up to the class it extends until a class declares a constant, passing no
  class twice. There are not more names of classes than stretches of files, so a way is never longer
  than the bound that walks are given.

  Main results: `Project.Nearest.unique`, `Project.Nearest.lt_ancestry`, `Project.classOf?_of_mem`.
-/

import Mathlib.Algebra.Order.BigOperators.Group.List
import Mathlib.Algebra.Order.Group.Nat
import QueryAudit.Proofs.Record.Constants
import QueryAudit.Proofs.Record.Searching
import QueryAudit.Proofs.Php.Placing
import QueryAudit.Proofs.Text.Lowering

namespace QueryAudit.Php

open Text List Node

variable {bytes : ByteArray}

/-! ## Stretches of a source. -/

def Layout.stretches (l : Layout) : List String :=
  (range (l.chars.size + 1)).flatMap fun start =>
    (range (l.chars.size + 1)).map fun stop => l.slice start stop

theorem Layout.slice_mem_stretches (l : Layout) (start stop : Nat) :
    l.slice start stop ∈ l.stretches := by
  have hcut : l.slice start stop = l.slice (min start l.chars.size) (min stop l.chars.size) := by
    unfold slice
    congr 2
    apply Array.ext
    · simp only [Array.size_extract]
      omega
    intro i hi hi'
    rw [Array.size_extract] at hi hi'
    rw [Array.getElem_extract, Array.getElem_extract]
    congr 1
    omega
  rw [hcut]
  refine mem_flatMap.mpr ⟨min start l.chars.size, ?_, mem_map.mpr ⟨min stop l.chars.size, ?_, rfl⟩⟩
  · rw [mem_range]
    omega
  · rw [mem_range]
    omega

theorem Layout.length_stretches (l : Layout) :
    l.stretches.length = (l.chars.size + 1) * (l.chars.size + 1) := by
  simp [stretches]

mutual

/-- The text of a node is a stretch of its source. -/
theorem Draft.text_place (l : Layout) (around : List (Nat × Nat × Kind)) (first last : Nat) :
    ∀ (d : Draft), ∀ n ∈ nodesIn (d.place l around first last), n.text ∈ l.stretches
  | ⟨kind, named, role, start, stop, children⟩ => by
    intro n hn
    rw [place] at hn
    split at hn
    · exact text_placeAll l _ _ _ children n hn
    rw [nodesIn, nodesIn, append_nil, nodes] at hn
    rcases mem_cons.mp hn with rfl | hn
    · exact l.slice_mem_stretches start stop
    · split at hn
      · exact text_placeAll l _ _ _ children n hn
      · cases hn

theorem Draft.text_placeAll (l : Layout) (around : List (Nat × Nat × Kind)) (first last : Nat) :
    ∀ (drafts : List Draft), ∀ n ∈ nodesIn (placeAll l around first last drafts),
      n.text ∈ l.stretches
  | [] => fun n hn => by
    rw [placeAll] at hn
    cases hn
  | d :: rest => by
    intro n hn
    rw [placeAll, nodesIn_append] at hn
    rcases mem_append.mp hn with hn | hn
    · exact text_place l around first last d n hn
    · exact text_placeAll l around _ last rest n hn

end

theorem length_glyphs_le (bytes : List UInt8) : (glyphs bytes).length ≤ bytes.length := by
  fun_induction glyphs bytes <;> simp_all <;> omega

def layoutOf (bytes : ByteArray) : Layout := .ofGlyphs (glyphs bytes.data.toList)

theorem length_stretches_layoutOf :
    (layoutOf bytes).stretches.length ≤ (bytes.size + 1) * (bytes.size + 1) := by
  have hchars : (layoutOf bytes).chars.size ≤ bytes.size := by
    rw [layoutOf, Layout.ofGlyphs, List.size_toArray, length_map]
    exact length_glyphs_le bytes.data.toList
  rw [Layout.length_stretches]
  exact Nat.mul_le_mul (Nat.succ_le_succ hchars) (Nat.succ_le_succ hchars)

/-- **The text of every node of a file is a stretch of the file.** -/
theorem text_mem_stretches : ∀ n ∈ (parse bytes).nodes, n.text ∈ (layoutOf bytes).stretches := by
  intro n hn
  let whole := program (tokenize ((glyphs bytes.data.toList).map Glyph.char))
    (glyphs bytes.data.toList).length
  have hparse : parse bytes = whole.finish (layoutOf bytes) := by
    unfold parse
    rfl
  have hn' : n ∈ nodesIn [parse bytes] := by
    rw [nodesIn, nodesIn, append_nil]
    exact hn
  rw [hparse, (whole.finish_eq (layoutOf bytes)).1] at hn'
  exact Draft.text_place (layoutOf bytes) [] 0 _ _ n hn'

end QueryAudit.Php

namespace QueryAudit

open Php Record Text List

/-! ## Projects. -/

/-- What an analysis is given: a file tree, the directory that is analysed, the settings, and whether
shapes that are not handled are passed over. -/
structure Project where
  disk : Disk
  root : String
  settings : Settings
  debug : Bool

def Run.project (r : Run) : Project := ⟨r.disk, r.root, r.settings, r.debug⟩

/-- A class, trait or interface in a file. -/
structure ClassAt where
  file : String
  node : Node
  deriving DecidableEq

def ClassAt.key (c : ClassAt) : String := lower c.node.nameText

def classKey (name : String) : String := lower (shortClassName name)

def optionalKey (name : Option String) : String := (name.map classKey).getD ""

def ClassAt.parentKey (c : ClassAt) : String := optionalKey c.node.parentName?

namespace Project

variable {p : Project} {x key : String} {c found d c' : ClassAt} {e : Node} {n : Nat} {r : Run}

/-- The files of a project: scripts at or below its directory that are not left out. -/
def files (p : Project) : List String :=
  p.disk.files.names.filter fun path => p.disk.isScript path && Path.within path p.root
    && !p.settings.excludes (Path.shownFrom p.root path)

/-- The classes, traits and interfaces of a project that have a name. -/
def classLikes (p : Project) : List ClassAt :=
  p.files.flatMap fun file =>
    ((p.disk.treeAt file).nodes.filter fun n => n.kind.isClassLike && n.nameText ≠ "").map
      (ClassAt.mk file)

def Apart (p : Project) : Prop := (p.classLikes.map ClassAt.key).Nodup

instance (p : Project) : Decidable p.Apart := inferInstanceAs (Decidable (List.Nodup _))

def classOf? (p : Project) (key : String) : Option ClassAt :=
  p.classLikes.find? fun c => c.node.kind = .classDeclaration && c.key = key

theorem mem_classLikes : c ∈ p.classLikes ↔ c.file ∈ p.files ∧ c.node ∈ (p.disk.treeAt c.file).nodes
    ∧ c.node.kind.isClassLike = true ∧ c.node.nameText ≠ "" := by
  unfold classLikes
  rw [mem_flatMap]
  constructor
  · rintro ⟨file, hfile, hc⟩
    obtain ⟨node, hnode, rfl⟩ := mem_map.mp hc
    rw [mem_filter, Bool.and_eq_true, decide_eq_true_eq] at hnode
    exact ⟨hfile, hnode⟩
  · rintro ⟨hfile, hnode⟩
    refine ⟨c.file, hfile, mem_map.mpr ⟨c.node, ?_, rfl⟩⟩
    rw [mem_filter, Bool.and_eq_true, decide_eq_true_eq]
    exact hnode

theorem classOf?_eq_some (h : p.classOf? key = some c) :
    c ∈ p.classLikes ∧ c.node.kind = .classDeclaration ∧ c.key = key := by
  have hfound := find?_some h
  rw [Bool.and_eq_true, decide_eq_true_eq, decide_eq_true_eq] at hfound
  exact ⟨mem_of_find?_eq_some h, hfound⟩

theorem Apart.eq (h : p.Apart) (hc : c ∈ p.classLikes) (hd : d ∈ p.classLikes)
    (hkey : c.key = d.key) : c = d :=
  inj_on_of_nodup_map h hc hd hkey

theorem classOf?_empty (p : Project) : p.classOf? "" = none := by
  cases hc : p.classOf? "" with
  | none => rfl
  | some c =>
    obtain ⟨hmem, -, hkey⟩ := classOf?_eq_some hc
    exact absurd hkey (lower_ne_empty (mem_classLikes.mp hmem).2.2.2)

theorem classOf?_of_mem (h : p.Apart) (hc : c ∈ p.classLikes)
    (hkind : c.node.kind = .classDeclaration) : p.classOf? c.key = some c := by
  cases hfound : p.classOf? c.key with
  | none =>
    have hnot := find?_eq_none.mp hfound c hc
    simp [hkind] at hnot
  | some d =>
    obtain ⟨hd, -, hkey⟩ := classOf?_eq_some hfound
    rw [h.eq hd hc hkey]

/-- In its file, a class is the only one of its name. -/
theorem Apart.filter_nodes (h : p.Apart) (hc : c ∈ p.classLikes) :
    (p.disk.treeAt c.file).nodes.filter (fun d => d.kind.isClassLike && d.nameText = c.node.nameText)
      = [c.node] := by
  obtain ⟨hfile, hnode, hkind, hname⟩ := mem_classLikes.mp hc
  have hnodup : ((p.disk.treeAt c.file).nodes.filter fun d => d.kind.isClassLike && d.nameText ≠ "").Nodup := by
    have hall : p.classLikes.Nodup := List.Nodup.of_map _ h
    exact List.Nodup.of_map _ (nodup_flatMap.mp hall |>.1 c.file hfile)
  refine perm_singleton.mp ((perm_ext_iff_of_nodup (hnodup.sublist
    (monotone_filter_right _ fun d hd => ?_)) (nodup_singleton _)).mpr fun d => ?_)
  · rw [Bool.and_eq_true, decide_eq_true_eq] at hd ⊢
    exact ⟨hd.1, hd.2 ▸ hname⟩
  rw [mem_filter, Bool.and_eq_true, decide_eq_true_eq, mem_singleton]
  constructor
  · rintro ⟨hd, hlike, hsame⟩
    have hlikes : ClassAt.mk c.file d ∈ p.classLikes :=
      mem_classLikes.mpr ⟨hfile, hd, hlike, hsame ▸ hname⟩
    exact congrArg ClassAt.node (h.eq hlikes hc (congrArg lower hsame))
  · rintro rfl
    exact ⟨hnode, hkind, rfl⟩

/-! ## The way up. -/

/-- After some steps from class to class up comes the first class that declares a constant, with an
expression for it. -/
inductive Nearest (p : Project) (x : String) : Nat → String → ClassAt → Node → Prop where
  | here {key : String} {c : ClassAt} {e : Node} (hclass : p.classOf? key = some c)
      (hconstant : c.node.constant? x = some e) : Nearest p x 0 key c e
  | above {key name : String} {c found : ClassAt} {e : Node} {n : Nat} (hclass : p.classOf? key = some c)
      (hconstant : c.node.constant? x = none) (hparent : c.node.parentName? = some name)
      (hrest : Nearest p x n (classKey name) found e) : Nearest p x (n + 1) key found e

/-- A class that is come to on the way up, before a class that declares a constant was passed. -/
inductive ComesTo (p : Project) (x : String) : String → ClassAt → Prop where
  | here {key : String} {c : ClassAt} (hclass : p.classOf? key = some c) : ComesTo p x key c
  | above {key name : String} {c found : ClassAt} (hclass : p.classOf? key = some c)
      (hconstant : c.node.constant? x = none) (hparent : c.node.parentName? = some name)
      (hrest : ComesTo p x (classKey name) found) : ComesTo p x key found

/-- What is nearest to a class that does not declare the constant is nearest to the one it extends. -/
theorem Nearest.of_none (h : p.Nearest x n key found e) (hclass : p.classOf? key = some c)
    (hconstant : c.node.constant? x = none) : ∃ m name, n = m + 1
      ∧ c.node.parentName? = some name ∧ p.Nearest x m (classKey name) found e := by
  cases h with
  | here hclass' hconstant' =>
    rw [hclass] at hclass'
    obtain rfl := Option.some.inj hclass'
    rw [hconstant] at hconstant'
    cases hconstant'
  | above hclass' _ hparent hrest =>
    rw [hclass] at hclass'
    obtain rfl := Option.some.inj hclass'
    exact ⟨_, _, rfl, hparent, hrest⟩

/-- **There is one nearest class** that declares a constant. -/
theorem Nearest.unique (h : p.Nearest x n key c e) {m : Nat} {e' : Node}
    (h' : p.Nearest x m key c' e') : n = m ∧ c = c' ∧ e = e' := by
  induction h generalizing m with
  | here hclass hconstant =>
    cases h' with
    | here hclass' hconstant' =>
      rw [hclass] at hclass'
      obtain rfl := Option.some.inj hclass'
      rw [hconstant] at hconstant'
      exact ⟨rfl, rfl, Option.some.inj hconstant'⟩
    | above hclass' hconstant' =>
      rw [hclass] at hclass'
      obtain rfl := Option.some.inj hclass'
      rw [hconstant] at hconstant'
      cases hconstant'
  | above hclass hconstant hparent _ ih =>
    obtain ⟨m, name, rfl, hparent', hrest⟩ := h'.of_none hclass hconstant
    rw [hparent] at hparent'
    obtain rfl := Option.some.inj hparent'
    obtain ⟨hsteps, hsame⟩ := ih hrest
    exact ⟨congrArg (· + 1) hsteps, hsame⟩

/-- Only a class that extends another one has a class above it. -/
theorem exists_parentName (h : p.classOf? c.parentKey = some d) :
    ∃ name, c.node.parentName? = some name ∧ c.parentKey = classKey name := by
  unfold ClassAt.parentKey at h ⊢
  cases hparent : c.node.parentName? with
  | none =>
    rw [hparent] at h
    cases p.classOf?_empty.symm.trans h
  | some name => exact ⟨name, rfl, rfl⟩

theorem ComesTo.exists_class (h : p.ComesTo x key c) : ∃ d, p.classOf? key = some d := by
  cases h with
  | here hclass => exact ⟨_, hclass⟩
  | above hclass => exact ⟨_, hclass⟩

theorem Nearest.comesTo (h : p.Nearest x n key c e) : p.ComesTo x key c := by
  induction h with
  | here hclass => exact .here hclass
  | above hclass hconstant hparent _ ih => exact .above hclass hconstant hparent ih

theorem Nearest.exists_class (h : p.Nearest x n key c e) : ∃ d, p.classOf? key = some d :=
  h.comesTo.exists_class

theorem Nearest.of_parent (h : p.Nearest x n c.parentKey found e) (hclass : p.classOf? key = some c)
    (hconstant : c.node.constant? x = none) : p.Nearest x (n + 1) key found e := by
  obtain ⟨d, hd⟩ := h.exists_class
  obtain ⟨name, hparent, hkey⟩ := exists_parentName hd
  exact .above hclass hconstant hparent (hkey ▸ h)

/-- What is come to from the class that a class extends is come to from the class. -/
theorem ComesTo.of_parent (h : p.ComesTo x c.parentKey found) (hclass : p.classOf? key = some c)
    (hconstant : c.node.constant? x = none) : p.ComesTo x key found := by
  obtain ⟨d, hd⟩ := h.exists_class
  obtain ⟨name, hparent, hkey⟩ := exists_parentName hd
  exact .above hclass hconstant hparent (hkey ▸ h)

theorem ComesTo.mem (h : p.ComesTo x key c) : c ∈ p.classLikes := by
  induction h with
  | here hclass => exact (classOf?_eq_some hclass).1
  | above _ _ _ _ ih => exact ih

/-- The names on the way up are all different: those that are further away take more steps. -/
theorem Nearest.exists_way (h : p.Nearest x n key c e) : ∃ keys : List String,
    keys.length = n + 1 ∧ keys.Nodup ∧ ∀ k ∈ keys, ∃ m ≤ n, p.Nearest x m k c e := by
  induction h with
  | @here key d e hclass hconstant =>
    refine ⟨[key], rfl, nodup_singleton _, fun k hk => ?_⟩
    rw [mem_singleton.mp hk]
    exact ⟨0, Nat.le_refl _, .here hclass hconstant⟩
  | @above key name d found e n hclass hconstant hparent hrest ih =>
    obtain ⟨keys, hlength, hnodup, hkeys⟩ := ih
    refine ⟨key :: keys, by rw [length_cons, hlength], nodup_cons.mpr ⟨fun hmem => ?_, hnodup⟩, ?_⟩
    · obtain ⟨m, hm, hnear⟩ := hkeys key hmem
      have hsteps := (hnear.unique (.above hclass hconstant hparent hrest)).1
      omega
    · refine forall_mem_cons.mpr ⟨⟨n + 1, Nat.le_refl _, .above hclass hconstant hparent hrest⟩, ?_⟩
      intro k hk
      obtain ⟨m, hm, hnear⟩ := hkeys k hk
      exact ⟨m, Nat.le_succ_of_le hm, hnear⟩

def stretches (p : Project) : List String :=
  p.disk.files.names.flatMap fun file => (layoutOf (p.disk.bytesAt file)).stretches.map lower

theorem nameText_mem {d : Node} (h : d.nameText ≠ "") : ∃ child ∈ d.children, child.text = d.nameText := by
  unfold Node.nameText at h ⊢
  cases hrole : d.inRole? "name" with
  | some child => exact ⟨child, mem_of_find?_eq_some hrole, rfl⟩
  | none =>
    rw [hrole] at h
    cases hkind : d.ofKind? .name with
    | some child => exact ⟨child, mem_of_find?_eq_some hkind, rfl⟩
    | none =>
      rw [hkind] at h
      exact absurd rfl h

theorem key_mem_stretches (hc : c ∈ p.classLikes) : c.key ∈ p.stretches := by
  obtain ⟨hfile, hnode, -, hname⟩ := mem_classLikes.mp hc
  obtain ⟨child, hchild, htext⟩ := nameText_mem hname
  have hstretch := text_mem_stretches child (Node.mem_nodes_of_child hchild hnode)
  rw [htext] at hstretch
  exact mem_flatMap.mpr ⟨c.file, (mem_filter.mp hfile).1, mem_map_of_mem hstretch⟩

theorem length_stretches_lt (hdisk : p.disk.Proper) (hr : r.disk = p.disk) :
    p.stretches.length < r.ancestry := by
  have hsizes : p.disk.files.names.map (fun file =>
        ((p.disk.bytesAt file).size + 1) * ((p.disk.bytesAt file).size + 1))
      = p.disk.files.values.map fun f => (f.bytes.size + 1) * (f.bytes.size + 1) := by
    rw [Catalog.names, Catalog.values, map_map, map_map]
    refine map_congr_left fun entry hentry => ?_
    have hname : entry.1 ∈ p.disk.files.names := mem_map_of_mem hentry
    have hbytes : p.disk.bytesAt entry.1 = entry.2.bytes := by
      rw [Disk.bytesAt, Disk.file?, hdisk.plain _ hname, Catalog.get?_of_mem_entries hdisk.once hentry]
      rfl
    show ((p.disk.bytesAt entry.1).size + 1) * ((p.disk.bytesAt entry.1).size + 1) = _
    rw [hbytes]
    rfl
  rw [Run.ancestry, hr, ← hsizes, stretches, length_flatMap, Nat.lt_succ_iff]
  show sum _ ≤ sum _
  refine sum_le_sum fun file _ => ?_
  rw [length_map]
  exact length_stretches_layoutOf

/-- **How far away the nearest class is at most.** -/
theorem Nearest.lt_ancestry (h : p.Nearest x n key c e) (hdisk : p.disk.Proper)
    (hr : r.disk = p.disk) : n + 1 < r.ancestry := by
  obtain ⟨keys, hlength, hnodup, hkeys⟩ := h.exists_way
  have hsubset : keys ⊆ p.stretches := by
    intro k hk
    obtain ⟨m, -, hnear⟩ := hkeys k hk
    obtain ⟨d, hd⟩ := hnear.exists_class
    obtain ⟨hmem, -, rfl⟩ := classOf?_eq_some hd
    exact key_mem_stretches hmem
  have hle := (subperm_of_subset hnodup hsubset).length_le
  have hlt := length_stretches_lt hdisk hr
  omega

end Project

end QueryAudit
