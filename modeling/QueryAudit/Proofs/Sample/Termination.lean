/-
  QueryAudit.Proofs.Sample.Termination — when evaluating an expression ends

  Drawing tracks a file, or draws from a definition that was not active, or goes to something
  lighter, unless it re-enters something. So it ends exactly when its re-entries nest to a bounded
  number.

  Main results: `bounded_settles`, `samples_end_iff`.
-/

import QueryAudit.Proofs.Sample.Preparing
import QueryAudit.Proofs.StraightLine.Exactness

namespace QueryAudit.Sample

open Audit Php Scope StraightLine

variable {A : Nat → Evaluation} {b : Binding} {c node : Cursor} {cut : Failure} {held : List Mark}
  {items : List Item} {parts : List Sequence} {sequence : Sequence}

variable {path name : String} {wanted k : Nat} {α β : Type}

/-! ## Evaluators that settle. -/

/-- Evaluators that settle in every sound state: preparing and finding items always, and drawing
from what a measure allows. -/
structure Settling (E : Nat → Evaluation) (P : Run → Nat → Prop) : Prop where
  prepare : ∀ node path {r : Run}, r.Sound →
    Settles (fun n => (E n).prepare node path) r (Prepared r (2 * node.node.size))
  finds : FindsItems E 0
  draw : ∀ sequence wanted {r : Run}, r.Sound → sequence.Good r → P r sequence.weight →
    Settles (fun n => (E n).draw sequence wanted) r (Drew r wanted)
  descends : ∀ {r t : Run} {v w : Nat}, P r w → r.Extends t → r.active ⊆ t.active → v ≤ w → P t v

def Affords (P : Run → Nat → Prop) (r : Run) (items : List Item) : Prop :=
  ∀ item ∈ items, P r (2 * item.value.node.size)
    ∧ ∀ key, item.key = some key → P r (2 * key.node.size)

/-- Samples were taken: the definitions that are held are active as well. -/
structure Took (r : Run) (held : List Mark) (t : Run) : Prop where
  added : r.Extends t
  active : t.active.Perm (held ++ r.active)

@[grind .] theorem quiet_limit : Quiet Growing limit := by
  unfold limit
  grind

@[grind .] theorem quiet_warnCap : Quiet Growing (warnCap node path) := by
  unfold warnCap
  exact quiet_bind quiet_limit fun n => tells_warnOnce.quiet.loading_growing

theorem quiet_callSample {args : List Intrinsic.Argument} :
    Quiet Growing (callSample node path name args) := by
  have hlog : ∀ message, Quiet Growing (log message) := fun message =>
    quiet_log.loading_growing
  unfold callSample
  split
  · exact quiet_pure
  · refine quiet_bind quiet_shown.loading_growing fun view => ?_
    exact quiet_bind (hlog _) fun _ => quiet_pure
  · exact quiet_throw nofun

theorem quiet_drawCalls {allowed : Nat} {combinations : List (List Intrinsic.Argument)} :
    Quiet Growing (drawCalls node path name wanted allowed combinations) := by
  fun_induction drawCalls with
  | case1 => exact quiet_pure
  | case2 => exact quiet_pure
  | case3 => exact quiet_bind quiet_warnCap fun _ => quiet_pure
  | case4 wanted allowed args rest ih =>
    refine quiet_bind quiet_callSample fun first => ?_
    exact quiet_bind ih fun _ => quiet_pure

theorem quiet_isWholeCollection : Quiet Growing (isWholeCollection node path) := by
  unfold isWholeCollection
  refine quiet_bind quiet_above.loading_growing fun outer => ?_
  split
  · split
    · exact quiet_pure
    · exact quiet_pure
  · exact quiet_pure

variable {r t : Run}

theorem Took.sound (h : Took r held t) (hr : r.Sound) : t.Sound :=
  hr.extends h.added

theorem Took.active_subset (h : Took r held t) : r.active ⊆ t.active := by
  intro mark hmark
  exact h.active.mem_iff.mpr (List.mem_append_right _ hmark)

theorem settles_warnCap {F : Nat → Audit α} {Q : α → Run → Prop} (hr : r.Sound) {more : Prop}
    [Decidable more] (hF : ∀ t, r.Grows t → Settles F t Q) :
    Settles (fun n => do
      if more then warnCap node path
      F n) r Q := by
  split
  · exact settles_bind (settles_quiet quiet_warnCap hr
      (Q := fun _ t => r.Grows t) fun _ _ _ h => h) fun _ t h => hF t h
  · exact hF r (.refl r)

/-! ## Taking samples. -/

section Taking

variable {E : Nat → Evaluation} {P : Run → Nat → Prop} (hE : Settling E P) {arg : Cursor}

include hE

theorem Settling.calm {v w : Nat} (hP : P r w) (h : Calm r t) (hle : v ≤ w) : P t v :=
  hE.descends hP h.added h.active_subset hle

theorem Settling.affords (h : Affords P r items) (hcalm : Calm r t) : Affords P t items := by
  intro item hitem
  obtain ⟨hvalue, hkey⟩ := h item hitem
  exact ⟨hE.calm hvalue hcalm le_rfl, fun key hk => hE.calm (hkey key hk) hcalm le_rfl⟩

theorem settles_takeFrom (hr : r.Sound) (hgood : sequence.Good r) (hP : P r sequence.weight) :
    Settles (fun n => takeFrom (E n) sequence) r fun found t => Took r found.2.2 t := by
  unfold takeFrom
  refine settles_bind_of_ok (rfl : limit r = .ok r.settings.maxSamples r) ?_
  refine settles_bind (hE.draw sequence _ hr hgood hP) fun drawn t h => ?_
  dsimp only
  split
  · obtain ⟨u, hu, hcalm⟩ := releaseMarks_calm h.added h.active
    exact settles_bind_of_ok hu (settles_pure ⟨hcalm.added, hcalm.active⟩)
  · exact settles_pure ⟨h.added, h.active⟩

/-- Taking the samples of a node leaves the same definitions active. -/
theorem settles_samplesWith (hr : r.Sound) (hP : P r (2 * node.node.size)) :
    Settles (fun n => samplesWith (E n) node path) r fun _ t => Calm r t := by
  unfold samplesWith
  refine settles_bind (hE.prepare node path hr) fun sequence s hs => ?_
  have hsound := hr.extends hs.grows.toExtends
  refine settles_bind (settles_takeFrom hE hsound hs.good (hE.calm hP hs.grows.calm hs.weight)) ?_
  rintro ⟨values, more, held⟩ t ht
  obtain ⟨u, hu, hcalm⟩ := releaseMarks_calm ht.added ht.active
  refine settles_bind_of_ok hu (settles_warnCap (hsound.extends hcalm.added) ?_)
  exact fun v hv => settles_pure (trans_of Calm (trans_of Calm hs.grows.calm hcalm) hv.calm)

theorem settles_itemText {item : Item} (hr : r.Sound) (hvalue : P r (2 * item.value.node.size))
    (hkey : ∀ key, item.key = some key → P r (2 * key.node.size)) :
    Settles (fun n => itemText (E n) item) r fun _ t => Calm r t := by
  unfold itemText
  refine settles_bind (settles_samplesWith hE hr hvalue) fun values s hs => ?_
  split
  · exact settles_pure hs
  · next key hk =>
    refine settles_bind (settles_samplesWith hE (hr.extends hs.added)
      (hE.calm (hkey key hk) hs le_rfl)) fun keys t ht => settles_pure (trans_of Calm hs ht)

theorem settles_arrayMark (hr : r.Sound) (h : Affords P r items) :
    Settles (fun n => arrayMark (E n) items) r fun _ t => Calm r t := by
  unfold arrayMark
  refine settles_bind (settles_mapM (R := Calm) (S := fun _ _ => True)
    (fun _ _ _ _ _ => trivial) fun item hitem s hs => ?_) fun texts t h => settles_pure h.1
  obtain ⟨hvalue, hkey⟩ := hE.affords h hs item hitem
  exact (settles_itemText hE (hr.extends hs.added) hvalue hkey).mono fun _ _ h => ⟨h, trivial⟩

theorem settles_arrayCandidates (hr : r.Sound) (h : ∀ item ∈ items, P r (2 * item.value.node.size))
    : Settles (fun n => arrayCandidates (E n) path arg items) r fun _ t => Calm r t := by
  unfold arrayCandidates
  refine settles_bind (settles_mapM (R := Calm) (S := fun _ _ => True)
    (fun _ _ _ _ _ => trivial) fun item hitem s hs => ?_) fun found t ⟨ht, _⟩ => ?_
  · refine settles_bind (settles_samplesWith hE (hr.extends hs.added)
      (hE.calm (h item hitem) hs le_rfl)) fun values u hu => settles_pure ⟨hu, trivial⟩
  · refine settles_bind_of_ok (rfl : limit t = .ok t.settings.maxSamples t) ?_
    refine settles_warnCap (hr.extends ht.added) fun u hu => ?_
    exact settles_pure (trans_of Calm ht hu.calm)

/-- The values of an argument: an array that is written out is smaller, and what a variable holds is
drawn by other evaluators. -/
theorem settles_heldCandidates (hA : Settling A fun _ _ => True) (hr : r.Sound)
    (hP : P r (2 * arg.node.size)) :
    Settles (fun n => heldCandidates (E n) (A n) path arg) r fun _ t => Calm r t := by
  unfold heldCandidates
  refine settles_bind (hE.finds.items arg path hr) fun found s hs => ?_
  have hsound := hr.extends hs.grows.toExtends
  have hcalm := hs.grows.calm
  cases found with
  | none =>
    refine settles_bind (settles_samplesWith hE hsound (hE.calm hP hcalm le_rfl)) ?_
    exact fun values t ht => settles_pure (trans_of Calm hcalm ht)
  | some items =>
    dsimp only
    split
    · next hwritten =>
      refine (settles_arrayCandidates hE hsound fun item hitem => ?_).mono
        fun _ t ht => trans_of Calm hcalm ht
      have hlt := (hs.below hwritten items rfl item hitem).size_lt
      exact hE.calm hP hcalm (by omega)
    · exact (settles_arrayCandidates hA hsound fun _ _ => trivial).mono
        fun _ t ht => trans_of Calm hcalm ht

end Taking

/-! ## Drawing. -/

theorem settles_drawCall {candidates : Nat → Cursor → Audit (List Intrinsic.Argument)}
    (hr : r.Sound) (h : ∀ arg ∈ callArguments node, ∀ s, Calm r s →
      Settles (fun n => candidates n arg) s fun _ t => Calm s t) :
    Settles (fun n => drawCall (candidates n) node path wanted) r (Drew r wanted) := by
  unfold drawCall
  dsimp only
  split
  · exact settles_nothing
  refine settles_bind (settles_mapM (R := Calm) (S := fun _ _ => True)
    (fun _ _ _ _ _ => trivial) fun arg harg s hs => ?_) fun found t ⟨ht, _⟩ => ?_
  · exact (h arg harg s hs).mono fun _ _ h => ⟨h, trivial⟩
  refine settles_bind_of_ok (rfl : limit t = .ok t.settings.maxSamples t) ?_
  refine settles_bind (settles_quiet quiet_drawCalls (hr.extends ht.added)
    (Q := fun _ u => Calm r u) fun _ u _ hu => trans_of Calm ht hu.calm) ?_
  exact fun values u hu => settles_pure (hu.drew_nothing _ _)

/-- Drawing from sources one after another: what was drawn to its end holds nothing. -/
theorem settles_drawEach {draw : Nat → α → Nat → Audit Drawn} {sources : List α} :
    ∀ {r : Run} (wanted : Nat), (∀ source ∈ sources, ∀ wanted s, Calm r s →
        Settles (fun n => draw n source wanted) s (Drew s wanted)) →
      Settles (fun n => drawEach (draw n) wanted sources) r (Drew r wanted) := by
  induction sources with
  | nil =>
    intro r wanted _
    exact settles_nothing
  | cons source rest ih =>
    intro r wanted h
    unfold drawEach
    split
    · exact settles_nothing
    refine settles_bind (h source List.mem_cons_self wanted r (refl_of Calm r)) ?_
    intro first s hs
    split
    · exact settles_pure hs
    · next hopen =>
      have hshort : first.values.length < wanted := by
        rw [Drawn.isOpen, decide_eq_true_eq] at hopen
        omega
      have hcalm := hs.calm (hs.held hshort)
      refine settles_bind (ih (wanted - first.values.length) fun source hsource w t ht =>
        h source (List.mem_cons_of_mem _ hsource) w t (trans_of Calm hcalm ht)) ?_
      intro more t ht
      refine settles_pure (hcalm.drew ⟨ht.added, ht.active, fun hlt => ht.held ?_⟩)
      rw [List.length_append] at hlt
      omega

section Drawing

variable {E : Nat → Evaluation} {P : Run → Nat → Prop} (hE : Settling E P)

include hE

theorem settles_takeParts :
    ∀ {r : Run}, r.Sound → (∀ part ∈ parts, part.Good r ∧ P r part.weight) →
      Settles (fun n => takeParts (E n) node path parts) r fun found t => Took r found.2 t := by
  induction parts with
  | nil => exact fun {r} _ _ => settles_pure ⟨.refl r, .refl _⟩
  | cons part rest ih =>
    intro r hr h
    unfold takeParts
    obtain ⟨⟨hgood, hP⟩, hrest⟩ := List.forall_mem_cons.mp h
    refine settles_bind (settles_takeFrom hE hr hgood hP) ?_
    rintro ⟨values, more, held⟩ s hs
    refine settles_warnCap (hs.sound hr) fun t ht => ?_
    have hext := hs.added.trans ht.toExtends
    refine settles_bind (ih (hr.extends hext) fun part hpart => ?_) ?_
    · refine ⟨Sequence.Good.extends hext part (hrest part hpart).1, ?_⟩
      refine hE.descends (hrest part hpart).2 hext ?_ le_rfl
      rw [ht.active]
      exact hs.active_subset
    · rintro ⟨others, heldLater⟩ u hu
      refine settles_pure ⟨hext.trans hu.added, ?_⟩
      have hactive := hu.active
      rw [ht.active] at hactive
      show u.active.Perm (held ++ heldLater ++ r.active)
      calc u.active.Perm (heldLater ++ s.active) := hactive
        _ |>.Perm (heldLater ++ (held ++ r.active)) := hs.active.append_left _
        _ |>.Perm (held ++ heldLater ++ r.active) := by
          rw [List.append_assoc]
          exact List.perm_append_comm_assoc _ _ _

theorem settles_drawConcat (hr : r.Sound) (h : ∀ part ∈ parts, part.Good r ∧ P r part.weight) :
    Settles (fun n => drawConcat (E n) parts node path wanted) r (Drew r wanted) := by
  unfold drawConcat
  refine settles_bind (settles_takeParts hE hr h) ?_
  rintro ⟨lists, held⟩ s hs
  refine settles_bind_of_ok (rfl : limit s = .ok s.settings.maxSamples s) ?_
  dsimp only
  split
  · refine settles_warnCap (hs.sound hr) fun t ht => ?_
    have hactive : t.active.Perm (held ++ r.active) := by
      rw [ht.active]
      exact hs.active
    obtain ⟨u, hu, hcalm⟩ := releaseMarks_calm (hs.added.trans ht.toExtends) hactive
    exact settles_bind_of_ok hu (settles_pure (hcalm.drew_nothing _ _))
  · next hlong => exact settles_pure ⟨hs.added, hs.active, fun hshort => absurd hshort hlong⟩

theorem settles_drawNode (hr : r.Sound) (hP : P r (2 * node.node.size)) :
    Settles (fun n => drawNode (E n) node path wanted) r (Drew r wanted) := by
  unfold drawNode
  refine settles_bind (hE.prepare node path hr) fun sequence s hs => ?_
  have hcalm := hs.grows.calm
  refine (hE.draw sequence wanted (hr.extends hcalm.added) hs.good ?_).mono
    fun drawn t ht => hcalm.drew ht
  exact hE.calm hP hcalm hs.weight

theorem settles_drawSubscript (hr : r.Sound) (hP : P r (2 * node.node.size - 2)) :
    Settles (fun n => drawSubscript (E n) node path wanted) r (Drew r wanted) := by
  have hpart : ∀ {part : Cursor} {s : Run}, part ∈ node.parts → Calm r s →
      Settles (fun n => (E n).prepare part path) s (Prepared s (2 * node.node.size - 2)) := by
    intro part s hmem hcalm
    refine (hE.prepare part path (hr.extends hcalm.added)).mono fun sequence t h => h.mono ?_
    have := (Cursor.below_of_mem_parts hmem).size_lt
    omega
  -- the fetched text is put together from the array and the index, with brackets
  have hfetch : ∀ {base index : Sequence} {s t : Run}, Calm r s →
      Prepared r (2 * node.node.size - 2) base s → Prepared s (2 * node.node.size - 2) index t →
      Settles (fun n => do
        let drawn ← drawConcat (E n) [base, .ready ["["], index, .ready ["]"]] node path wanted
        return { drawn with values := drawn.values.map (tainted .arrayFetch) }) t
          (Drew r wanted) := by
    intro base index s t hs hbase hindex
    have ht := trans_of Calm hs hindex.grows.calm
    have hready : ∀ text, (Sequence.ready [text]).Good t ∧ P t (Sequence.ready [text]).weight :=
      fun text => ⟨trivial, hE.calm hP ht (Nat.zero_le _)⟩
    refine settles_bind (settles_drawConcat hE (hr.extends ht.added) ?_) ?_
    · refine List.forall_mem_cons.mpr ⟨⟨?_, hE.calm hP ht hbase.weight⟩, ?_⟩
      · exact Sequence.Good.extends hindex.grows.toExtends base hbase.good
      · refine List.forall_mem_cons.mpr ⟨hready "[", List.forall_mem_cons.mpr ⟨?_, ?_⟩⟩
        · exact ⟨hindex.good, hE.calm hP ht hindex.weight⟩
        · exact List.forall_mem_cons.mpr ⟨hready "]", fun _ h => nomatch h⟩
    · intro drawn u hu
      refine settles_pure (ht.drew ⟨hu.added, hu.active, fun hlt => hu.held ?_⟩)
      rw [List.length_map] at hlt
      exact hlt
  unfold drawSubscript
  cases hparts : node.parts with
  | nil => exact settles_throw nofun
  | cons base rest =>
    rw [hparts] at hpart
    refine settles_bind (hpart List.mem_cons_self (refl_of Calm r)) fun baseSequence s hs => ?_
    have hcalm := hs.grows.calm
    cases rest with
    | nil => exact settles_bind_of_ok rfl (hfetch hcalm hs prepared_ready)
    | cons index rest =>
      refine settles_bind (hpart (List.mem_cons_of_mem _ List.mem_cons_self) hcalm) ?_
      exact fun indexSequence t ht => hfetch hcalm hs ht

theorem settles_drawNamed {kind : Taint} (hr : r.Sound) (hP : P r 0) :
    Settles (fun n => drawNamed (E n) node path kind wanted) r (Drew r wanted) := by
  unfold drawNamed
  refine settles_bind (settles_resolve hr) fun found t ⟨hgrows, hfound⟩ => ?_
  cases found with
  | none => exact settles_pure (hgrows.calm.drew_nothing _ _)
  | some b =>
    refine (hE.draw (.binding b) wanted (hr.extends hgrows.toExtends) (hfound b rfl) ?_).mono
      fun drawn u hu => hgrows.calm.drew hu
    exact hE.calm hP hgrows.calm le_rfl

/-- Drawing from a node whose work was put off, other than a call. -/
theorem settles_drawLater (hkind : node.kind ≠ .functionCallExpression) (hr : r.Sound)
    (hP : P r (2 * node.node.size - 2)) :
    Settles (fun n => drawLater (E n) node path wanted) r (Drew r wanted) := by
  have hnamed : ∀ kind, Settles (fun n => drawNamed (E n) node path kind wanted) r (Drew r wanted) :=
    fun kind => settles_drawNamed hE hr (hE.calm hP (refl_of Calm r) (Nat.zero_le _))
  unfold drawLater
  split
  · have hitems : Affords P r (literalItems node path) := by
      intro item hitem
      obtain ⟨⟨key, value⟩, helement, rfl⟩ := List.mem_map.mp hitem
      obtain ⟨hvalue, hkey⟩ := Cursor.below_of_mem_arrayElements helement
      have hbelow : ∀ {child : Cursor}, node.Below child → P r (2 * child.node.size) := by
        intro child hchild
        have := hchild.size_lt
        exact hE.calm hP (refl_of Calm r) (by omega)
      exact ⟨hbelow hvalue, fun key hk => hbelow (hkey key hk)⟩
    refine settles_bind (settles_arrayMark hE hr hitems) fun text t ht => ?_
    exact settles_pure (ht.drew_nothing _ _)
  · exact settles_drawSubscript hE hr hP
  · next hcall => exact absurd hcall hkind
  · unfold drawClassConstant
    split
    · split
      · exact settles_nothing
      · exact hnamed _
    · exact hnamed _
  · unfold drawConstant
    split
    · exact settles_nothing
    · exact settles_nothing
    · exact settles_nothing
    · exact hnamed _

end Drawing

/-! ## Definitions. -/

section Definitions

variable {E : Nat → Evaluation} {P : Run → Nat → Prop} (hE : Settling E P)

include hE

theorem settles_drawLoopVariable (hr : r.Sound) (hP : ∀ v, P r v) :
    Settles (fun n => drawLoopVariable (E n) b node wanted) r (Drew r wanted) := by
  have hnode : ∀ (node : Cursor) (path : String) (wanted : Nat) (s : Run), Calm r s →
      Settles (fun n => drawNode (E n) node path wanted) s (Drew s wanted) :=
    fun node path wanted s hs => settles_drawNode hE (hr.extends hs.added)
      (hE.calm (hP _) hs le_rfl)
  unfold drawLoopVariable
  refine settles_bind (hE.finds.items node b.path hr) fun found s hs => ?_
  have hcalm := hs.grows.calm
  split
  · exact (hnode node b.path wanted s hcalm).mono fun _ _ h => hcalm.drew h
  · exact (hnode node b.path wanted s hcalm).mono fun _ _ h => hcalm.drew h
  refine (settles_drawEach wanted ?_).mono fun _ _ h => hcalm.drew h
  rintro ⟨item, index⟩ _ wanted t ht
  have hrt := trans_of Calm hcalm ht
  dsimp only
  split
  · exact hnode item.value item.path wanted t hrt
  · split
    · exact hnode _ item.path wanted t hrt
    · exact settles_pure ((refl_of Calm t).drew_nothing _ _)

theorem settles_drawDefinition (hr : r.Sound) (hb : r.Has b) (hP : ∀ v, P r v) :
    Settles (fun n => drawDefinition (E n) b node wanted) r (Drew r wanted) := by
  have hloop : ∀ s, r.Grows s → ∀ whole : Bool, Settles (fun n =>
      if whole then drawLoopVariable (E n) b node wanted else drawNode (E n) node b.path wanted) s
        (Drew r wanted) := by
    intro s hs whole
    have hsound := hr.extends hs.toExtends
    have hPs : ∀ v, P s v := fun v => hE.calm (hP v) hs.calm le_rfl
    split
    · exact (settles_drawLoopVariable hE hsound hPs).mono fun _ _ h => hs.calm.drew h
    · exact (settles_drawNode hE hsound (hPs _)).mono fun _ _ h => hs.calm.drew h
  unfold drawDefinition
  split
  · refine settles_bind (hE.finds.itemsOf b hr hb) fun found s hs => ?_
    have hitems : Affords P s (found.getD []) := fun item _ =>
      ⟨hE.calm (hP _) hs.calm le_rfl, fun key _ => hE.calm (hP _) hs.calm le_rfl⟩
    refine settles_bind (settles_arrayMark hE (hr.extends hs.toExtends) hitems) fun text t ht => ?_
    exact settles_pure ((trans_of Calm hs.calm ht).drew_nothing _ _)
  · split
    · obtain ⟨before, hbefore, hhidden⟩ := previousOf_eq hr hb
      refine settles_bind_of_ok hbefore ?_
      have hbelow : PreparesBelow E node := fun child path t _ ht => hE.prepare child path ht
      refine settles_bind (settles_prepareCombined hbelow hr b.path
        fun hidden h => (hhidden hidden h).1) fun sequence s hs => ?_
      have hcalm := hs.grows.calm
      exact (hE.draw sequence wanted (hr.extends hcalm.added) hs.good
        (hE.calm (hP _) hcalm le_rfl)).mono fun _ _ h => hcalm.drew h
    · split
      · refine settles_bind (settles_quiet quiet_isWholeCollection hr
          (Q := fun _ t => r.Grows t) fun _ _ _ h => h) fun whole s hs => hloop s hs whole
      · exact settles_bind_of_ok rfl (hloop r (.refl r) false)

theorem settles_drawSingle (hr : r.Sound) (hb : r.Has b)
    (hP : ∀ v, P { r with active := markOf b :: r.active } v) :
    Settles (fun n => drawSingle (E n) b wanted) r (Drew r wanted) := by
  unfold drawSingle
  split
  · exact settles_nothing
  · exact settles_nothing
  · exact settles_nothing
  · next node _ _ _ =>
    have hext : r.Extends { r with active := markOf b :: r.active } :=
      ⟨rfl, rfl, Finset.Subset.refl _, fun _ _ h => h, fun _ _ h => .inl h⟩
    refine settles_bind_of_ok
      (rfl : activate (markOf b) r = .ok ⟨⟩ { r with active := markOf b :: r.active }) ?_
    refine settles_bind (settles_drawDefinition hE (hr.extends hext)
      (hb.extends hext) hP) fun drawn s hs => ?_
    split
    · -- the definition stays active with what it holds
      refine settles_pure ⟨hext.trans hs.added, ?_, fun hshort => ?_⟩
      · exact hs.active.trans List.perm_middle
      · next hopen =>
        rw [Drawn.isOpen, decide_eq_true_eq] at hopen
        exact absurd hshort (Nat.not_lt_of_le hopen)
    · next hopen =>
      have hheld : drawn.held = [] := by
        refine hs.held ?_
        rw [Drawn.isOpen, decide_eq_true_eq] at hopen
        omega
      have hactive : s.active.Perm ([markOf b] ++ r.active) := by
        have h := hs.active
        rw [hheld] at h
        exact h
      obtain ⟨u, hu, hcalm⟩ := releaseMarks_calm (hext.trans hs.added) hactive
      refine settles_bind_of_ok hu (settles_pure ⟨hcalm.added, ?_, fun _ => hheld⟩)
      rw [hheld]
      exact hcalm.active

/-- Drawing from any definition that is not active is allowed from a run on. -/
def Opens (P : Run → Nat → Prop) (r : Run) : Prop :=
  ∀ t, Calm r t → ∀ b, t.Has b → markOf b ∉ t.active →
    ∀ v, P { t with active := markOf b :: t.active } v

/-- A definition that is active already is drawn from by other evaluators. -/
theorem settles_drawAgain (hA : Settling A fun _ _ => True) (hr : r.Sound) (hb : r.Has b)
    (hP : Opens P r) : Settles (fun n => drawAgain (E n) (A n) b wanted) r (Drew r wanted) := by
  unfold drawAgain
  refine settles_bind_of_ok (rfl : isActive b r = .ok (r.active.contains (markOf b)) r) ?_
  split
  · exact settles_drawSingle hA hr hb fun _ => trivial
  · next hactive =>
    rw [List.contains_iff_mem] at hactive
    exact settles_drawSingle hE hr hb (hP r (refl_of Calm r) b hb hactive)

omit hE

/-- The definition to draw from is found without a change to the run. -/
theorem definitionFor_eq (hr : r.Sound) (hb : r.Has b) :
    ∃ found, definitionFor b r = .ok found r ∧ ∀ a, found = .ok a → r.Has a := by
  obtain ⟨before, hbefore, hhidden⟩ := previousOf_eq hr hb
  rw [definitionFor, bind_of_ok (rfl : isActive b r = .ok (r.active.contains (markOf b)) r)]
  cases r.active.contains (markOf b) with
  | false => exact ⟨.ok b, rfl, fun a h => Except.ok.inj h ▸ hb⟩
  | true =>
    simp only [Bool.not_true, Bool.false_eq_true, if_false]
    rw [bind_of_ok hbefore]
    cases before with
    | none => exact ⟨.error b.identifier, rfl, by simp⟩
    | some hidden =>
      dsimp only
      rw [bind_of_ok (rfl : isActive hidden r = .ok (r.active.contains (markOf hidden)) r)]
      cases r.active.contains (markOf hidden) with
      | true => exact ⟨.error hidden.identifier, rfl, by simp⟩
      | false => exact ⟨.ok hidden, rfl, fun a h => Except.ok.inj h ▸ (hhidden hidden rfl).1⟩

theorem settles_drawAlternatives {draw : Nat → Binding → Nat → Audit Drawn} (hr : r.Sound)
    (hb : r.Has b) (hdraw : ∀ a wanted t, Calm r t → t.Has a →
      Settles (fun n => draw n a wanted) t (Drew t wanted)) :
    Settles (fun n => drawAlternatives (draw n) b wanted) r (Drew r wanted) := by
  have hall : ∀ a, r.Has a → Settles (fun n => do
      drawEach (draw n) wanted (← alternativesOf a)) r (Drew r wanted) := by
    intro a ha
    obtain ⟨found, hfound, hhas⟩ := alternativesOf_eq hr ha
    refine settles_bind_of_ok hfound (settles_drawEach wanted ?_)
    exact fun source hsource w t ht => hdraw source w t ht ((hhas source hsource).extends ht.added)
  obtain ⟨found, hfound, hgood⟩ := definitionFor_eq hr hb
  unfold drawAlternatives
  refine settles_bind_of_ok hfound ?_
  cases found with
  | error identifier => exact settles_nothing
  | ok a => exact hall a (hgood a rfl)

end Definitions

/-! ## Evaluating with a bound on re-entering. -/

theorem settles_reenteringRule {E : Nat → Evaluation} {P : Run → Nat → Prop} (hE : Settling E P)
    (hA : Settling A fun _ _ => True) (hr : r.Sound) (hgood : sequence.Good r)
    (hP : ∀ v, v < sequence.weight → P r v) (hopens : Opens P r) :
    Settles (fun n => reenteringRule (E n) (A n) sequence wanted) r (Drew r wanted) := by
  unfold reenteringRule
  split
  · exact settles_nothing
  · next hwanted =>
    cases sequence with
    | ready values =>
      simp only [drawRule, hwanted]
      exact settles_nothing
    | later node path =>
      have hsize := Node.size_eq node.node
      dsimp only
      split
      · refine settles_drawCall hr fun arg harg s hs => ?_
        have hlt := (Cursor.below_of_mem_callArguments harg).size_lt
        refine settles_heldCandidates hE hA (hr.extends hs.added) ?_
        exact hE.calm (hP (2 * arg.node.size) (by show _ < 2 * _; omega)) hs le_rfl
      · next hkind =>
        refine settles_drawLater hE hkind hr (hP _ ?_)
        show 2 * node.node.size - 2 < 2 * node.node.size
        omega
    | binding b =>
      refine settles_drawAlternatives hr hgood fun a wanted t ht ha => ?_
      refine settles_drawAgain hE hA (hr.extends ht.added) ha fun u hu => ?_
      exact hopens u (trans_of Calm ht hu)
    | concat parts node path =>
      simp only [drawRule, hwanted]
      refine settles_drawConcat hE hr fun part hpart => ?_
      exact ⟨goodAll_iff.mp hgood part hpart,
        hP _ (Nat.lt_succ_of_le (weightAll_le_iff.mp le_rfl part hpart))⟩
    | chain parts =>
      simp only [drawRule, hwanted]
      refine settles_drawEach wanted fun part hpart wanted s hs => ?_
      refine hE.draw part wanted (hr.extends hs.added) ?_ ?_
      · exact Sequence.Good.extends hs.added part (goodAll_iff.mp hgood part hpart)
      · exact hE.calm (hP _ (Nat.lt_succ_of_le (weightAll_le_iff.mp le_rfl _ hpart))) hs le_rfl
    | branches nodes path =>
      simp only [drawRule, hwanted]
      refine settles_drawEach wanted fun node hnode wanted s hs => ?_
      refine settles_drawNode hE (hr.extends hs.added) ?_
      exact hE.calm (hP _ (Nat.lt_succ_of_le (heaviest_le_iff.mp le_rfl node hnode))) hs le_rfl

theorem refusing_settles (hcut : cut ≠ .endless) :
    Settling (fun _ => refusing cut) fun _ _ => True where
  prepare _ _ _ _ := settles_throw hcut
  finds := ⟨fun _ _ _ _ => settles_throw hcut, fun _ _ _ _ => settles_throw hcut⟩
  draw _ _ _ _ _ _ := settles_throw hcut
  descends _ _ _ _ := trivial

section Bounded

variable {cut : Failure} {k : Nat} (hA : Settling (fun n => boundedAgain cut n k) fun _ _ => True)

include hA

theorem settles_bounded_draw (sequence : Sequence) (wanted : Nat) (hr : r.Sound)
    (hgood : sequence.Good r) :
    Settles (fun n => (bounded cut n k).draw sequence wanted) r (Drew r wanted) := by
  -- by induction on what is left to track, to draw from and to do
  induction hrank : rank r sequence.weight using WellFoundedLT.induction
    generalizing sequence wanted r with
  | ind R ih =>
    have hE : Settling (fun n => bounded cut n k) fun t v => rank t v < R := {
      prepare := settles_prepare fun n => by rw [bounded_succ]
      finds := findsItems (fun n => by rw [bounded_succ]) (fun n => by rw [bounded_succ]) 0
      draw := fun sequence wanted _ hr hgood hlt => ih _ hlt sequence wanted hr hgood rfl
      descends := fun hlt hext hactive hle => lt_of_le_of_lt (rank_le hext hactive hle) hlt }
    refine settles_succ (settles_reenteringRule hE hA hr hgood ?_ ?_)
      fun n => by rw [bounded_succ]
    · intro v hv
      rw [← hrank]
      exact rank_lt hv
    · intro t ht b hb hactive v
      refine lt_of_lt_of_le (rank_activate_lt hb hactive v 0) ?_
      rw [← hrank]
      exact rank_le ht.added ht.active_subset (Nat.zero_le _)

end Bounded

/-- **Evaluating with a bound on re-entering always ends.** -/
theorem bounded_settles (hcut : cut ≠ .endless) :
    Settling (fun n => bounded cut n k) fun _ _ => True := by
  have hof : ∀ k, Settling (fun n => boundedAgain cut n k) (fun _ _ => True) →
      Settling (fun n => bounded cut n k) fun _ _ => True := fun k hA => {
    prepare := settles_prepare fun n => by rw [bounded_succ]
    finds := findsItems (fun n => by rw [bounded_succ]) (fun n => by rw [bounded_succ]) 0
    draw := fun sequence wanted _ hr hgood _ => settles_bounded_draw hA sequence wanted hr hgood
    descends := fun _ _ _ _ => trivial }
  -- by induction on how many re-entries may nest
  induction k with
  | zero => exact hof 0 (refusing_settles hcut)
  | succ k ih => exact hof (k + 1) ih

/-! ## A loop that reads its own variable. -/

deriving instance DecidableEq for Cursor
deriving instance DecidableEq for Binding

/-- The first value of a loop variable is read from the variable itself: of the definitions that a loop
made, the first has a variable for its value, which stands for another of them. -/
structure ReadsItself (scopes : FileScopes) (path : String) (tree : Nat) (first b : Binding)
    (read : Cursor) : Prop where
  alternatives : (scopes.alternatives b).head? = some first
  serial : first.serial ≠ b.serial
  tag : first.tag = some .loopValue
  literal : first.literal = none
  node : first.node = some read
  path : first.path = path ∧ b.path = path
  tree : read.tree = tree
  kind : read.kind = .variableName
  named : read.node.named = true
  inside : (read.ancestors.head?.map Cursor.kind) ≠ some .foreachStatement
  lookup : scopes.lookup (closureAbove read.ancestors none) read.text (some read.line) = some b

def IsEndless {α : Type} (x : Audit α) (r : Run) : Prop := ∃ s, x r = .error .endless s

theorem IsEndless.bind {α β : Type} {x : Audit α} {f : α → Audit β} (h : IsEndless x r) :
    IsEndless (x >>= f) r := by
  obtain ⟨s, hs⟩ := h
  exact ⟨s, bind_of_error hs⟩

theorem isEndless_bind_of_ok {x : Audit α} {f : α → Audit β} {a : α} {s : Run} (hx : x r = .ok a s)
    (h : IsEndless (f a) s) : IsEndless (x >>= f) r := by
  obtain ⟨t, ht⟩ := h
  exact ⟨t, (bind_of_ok hx).trans ht⟩

section ReadsItself

variable {path : String} {tree : Nat} {scopes : FileScopes} {first b : Binding} {read : Cursor}
  {wanted : Nat}

/-- A variable stands for the definition that it is looked up to. -/
theorem prepare_variable (hready : Ready r path tree scopes) (htree : c.tree = tree)
    (hkind : c.kind = .variableName) (hnamed : c.node.named = true)
    (hlookup : scopes.lookup (closureAbove c.ancestors none) c.text (some c.line) = some b) (n : Nat) :
    (evaluation (n + 1)).prepare c path r = .ok (.binding b) r := by
  have hresolve := hready.resolve_local htree hkind hnamed
  rw [hlookup] at hresolve
  show prepareRule (evaluation n) c path r = _
  rw [prepareRule, hkind]
  show prepareReference c path r = _
  rw [prepareReference, bind_of_ok hresolve]
  rfl

variable (hreads : ReadsItself scopes path tree first b read)

include hreads

theorem ReadsItself.isWholeCollection (hready : Ready r path tree scopes) :
    isWholeCollection read path r = .ok false r := by
  have hinside := hreads.inside
  rw [Sample.isWholeCollection, bind_of_ok (hready.above hreads.tree hreads.named)]
  cases habove : read.ancestors with
  | nil => rfl
  | cons parent outer =>
    rw [habove, List.head?_cons, Option.map_some] at hinside
    have hkind : parent.kind ≠ .foreachStatement := fun h => hinside (by rw [h])
    simp only [if_pos hkind]
    rfl

/-- **A loop that reads its own variable is drawn from without end**: its first definition becomes
active over and over. -/
theorem ReadsItself.isEndless_draw (hwanted : wanted ≠ 0) (n : Nat) :
    ∀ r, Ready r path tree scopes → markOf b ∉ r.active →
      IsEndless ((evaluation n).draw (.binding b) wanted) r := by
  induction n with
  | zero => exact fun r _ _ => ⟨r, rfl⟩
  | succ n ih =>
    intro r hready hinactive
    have hready' := hready.withActive (markOf first :: r.active)
    have hactive : markOf b ∉ markOf first :: r.active := by
      intro hmem
      rcases List.mem_cons.mp hmem with heq | hmem
      · exact hreads.serial (congrArg Prod.snd heq).symm
      · exact hinactive hmem
    have hdraw : IsEndless (drawNode (evaluation n) read path wanted)
        { r with active := markOf first :: r.active } := by
      cases n with
      | zero => exact ⟨_, rfl⟩
      | succ n =>
        have hprepare := prepare_variable hready' hreads.tree hreads.kind hreads.named
          hreads.lookup n
        exact isEndless_bind_of_ok hprepare (ih _ hready' hactive)
    have hdefinition : IsEndless (drawDefinition (evaluation n) first read wanted)
        { r with active := markOf first :: r.active } := by
      have htag : (first.tag = some .element) = False := by
        rw [hreads.tag]
        exact eq_false (by decide)
      have hkind : (read.kind = .augmentedAssignmentExpression) = False := by
        rw [hreads.kind]
        exact eq_false (by decide)
      have hloop : (first.tag.map Tag.isLoop).getD false = true := by rw [hreads.tag]; rfl
      unfold drawDefinition
      simp only [htag, hkind, hloop, hreads.path.1]
      exact isEndless_bind_of_ok (hreads.isWholeCollection hready') hdraw
    have hsingle : IsEndless (drawSingle (evaluation n) first wanted) r := by
      have hparameter : first.isParameter = false := by
        rw [Binding.isParameter, hreads.tag]
        rfl
      unfold drawSingle
      rw [hparameter, hreads.literal, hreads.node]
      exact isEndless_bind_of_ok rfl hdefinition.bind
    obtain ⟨rest, halternatives⟩ : ∃ rest, scopes.alternatives b = first :: rest := by
      cases h : scopes.alternatives b with
      | nil => cases h ▸ hreads.alternatives
      | cons a rest =>
        have hfirst := hreads.alternatives
        rw [h, List.head?_cons, Option.some.injEq] at hfirst
        exact ⟨rest, by rw [hfirst]⟩
    have hfound : alternativesOf b r = .ok (first :: rest) r := by
      rw [alternativesOf, hreads.path.2, bind_of_ok hready.scopesOf, halternatives]
      rfl
    show IsEndless (drawRule (evaluation n) (.binding b) wanted) r
    unfold drawRule
    rw [if_neg hwanted]
    refine isEndless_bind_of_ok (definitionFor_inactive hinactive) ?_
    refine isEndless_bind_of_ok hfound ?_
    unfold drawEach
    rw [if_neg hwanted]
    exact hsingle.bind

/-- So are the samples of a variable that stands for it. -/
theorem ReadsItself.isEndless_samples (hready : Ready r path tree scopes)
    (hinactive : markOf b ∉ r.active) (htree : c.tree = tree)
    (hkind : c.kind = .variableName) (hnamed : c.node.named = true)
    (hlookup : scopes.lookup (closureAbove c.ancestors none) c.text (some c.line) = some b) (n : Nat) :
    IsEndless (samplesWith (evaluation n) c path) r := by
  cases n with
  | zero => exact ⟨r, rfl⟩
  | succ n =>
    have hprepare := prepare_variable hready htree hkind hnamed hlookup n
    refine isEndless_bind_of_ok hprepare (IsEndless.bind ?_)
    refine isEndless_bind_of_ok (rfl : limit r = .ok r.settings.maxSamples r) ?_
    exact (hreads.isEndless_draw (Nat.succ_ne_zero _) (n + 1) r hready hinactive).bind

end ReadsItself

namespace Looping

open QueryAudit.StraightLine.Appending

/-- The text of the file: the array of a loop reads the variable that the loop sets. -/
def text : String := "<?php\n$x = 'a';\nforeach ([$x, 'b'] as $x) f($x);"

def quoted (letter : String) (start row : Nat) (role : Option String) : Node :=
  part .string role ("'" ++ letter ++ "'") start row
    [mark "'" start row none, part .stringContent none letter (start + 1) row [],
      mark "'" (start + 2) row none]

def store : Node :=
  part .expressionStatement none "$x = 'a';" 6 1
    [part .assignmentExpression none "$x = 'a'" 6 1
      [read "x" 6 1 (some "left"), mark "=" 9 1 none, quoted "a" 11 1 (some "right")],
      mark ";" 14 1 none]

def firstItem : Node := part .arrayElementInitializer none "$x" 26 2 [read "x" 26 2 none]

def secondItem : Node := part .arrayElementInitializer none "'b'" 30 2 [quoted "b" 30 2 none]

def collection : Node :=
  part .arrayCreationExpression none "[$x, 'b']" 25 2
    [mark "[" 25 2 none, firstItem, mark "," 28 2 none, secondItem, mark "]" 33 2 none]

def argument : Node := part .argument none "$x" 44 2 [read "x" 44 2 none]

def arguments : Node :=
  part .arguments (some "arguments") "($x)" 43 2 [mark "(" 43 2 none, argument, mark ")" 46 2 none]

def call : Node :=
  part .functionCallExpression none "f($x)" 42 2
    [part .name (some "function") "f" 42 2 [], arguments]

def body : Node := part .expressionStatement (some "body") "f($x);" 42 2 [call, mark ";" 47 2 none]

def loop : Node :=
  part .foreachStatement none "foreach ([$x, 'b'] as $x) f($x);" 16 2
    [mark "foreach" 16 2 none, mark "(" 24 2 none, collection, mark "as" 35 2 none,
      read "x" 38 2 none, mark ")" 40 2 none, body]

def root : Node :=
  ⟨.program, true, none, ⟨0, 48, 0, 2⟩, text, [part .phpTag none "<?php" 0 0 [], store, loop]⟩

theorem parse_text : parse text.toUTF8 = root := by decide +kernel

def readCursor : Cursor :=
  ⟨0, read "x" 26 2 none, [(0, firstItem), (1, collection), (2, loop), (2, root)]⟩

def letterCursor : Cursor :=
  ⟨0, quoted "b" 30 2 none, [(0, secondItem), (3, collection), (2, loop), (2, root)]⟩

def variableCursor : Cursor :=
  ⟨0, read "x" 44 2 none,
    [(0, argument), (1, arguments), (1, call), (0, body), (6, loop), (2, root)]⟩

def first : Binding :=
  { identifier := "$x", closure := "<global>::FOREACH_3", line := 3, path := "/p/a.php"
    node := some readCursor, tag := some .loopValue, origin := 16, serial := 1 }

def second : Binding := { first with node := some letterCursor, serial := 2 }

def tracked : FileScopes × List Event := Tracker.run (callNames {}) "/p/a.php" (.root 0 root)

theorem tracked_reports : tracked.2.isEmpty = true := by decide +kernel

theorem readsItself : ReadsItself tracked.1 "/p/a.php" 0 first second readCursor where
  alternatives := by decide +kernel
  serial := by decide
  tag := rfl
  literal := rfl
  node := rfl
  path := ⟨rfl, rfl⟩
  tree := rfl
  kind := rfl
  named := rfl
  inside := by decide +kernel
  lookup := by decide +kernel

theorem lookup_variable : tracked.1.lookup (closureAbove variableCursor.ancestors none)
    variableCursor.text (some variableCursor.line) = some second := by
  decide +kernel

def run : Run :=
  { root := "/p"
    disk := ({ base := "/p" } : Disk).write "a.php" text.toUTF8
    sources := ⟨[("/p/a.php", { content := some text.toUTF8, tree := some (0, parse text.toUTF8) })]⟩
    nextTree := 1 }

theorem run_sound : run.Sound := ⟨⟨by decide +kernel, nofun⟩, nofun⟩

theorem loaded : Loaded run "/p/a.php" 0 root := by
  refine ⟨by decide, ⟨_, rfl, ?_⟩, rfl, nofun, nofun⟩
  show some (0, parse text.toUTF8) = some (0, root)
  rw [parse_text]

/-- Once the file is tracked, no depth is enough for the samples of the variable in the loop. -/
theorem endless : ∃ scopes r, scopesOf "/p/a.php" run = .ok scopes r ∧ r.Sound
    ∧ ∀ n, IsEndless (samplesWith (evaluation n) variableCursor "/p/a.php") r := by
  have hrun : Tracker.run (callNames run.settings) "/p/a.php" (.root 0 root) = (tracked.1, []) :=
    Prod.ext rfl (List.isEmpty_iff.mp tracked_reports)
  obtain ⟨r, hscopes, hready, hactive, _⟩ := loaded.scopesOf (by decide) hrun
  have hgrows := quiet_scopesOf.keeps.of_ok hscopes run_sound.toGrounded
  refine ⟨_, r, hscopes, run_sound.extends hgrows.toExtends, ?_⟩
  refine readsItself.isEndless_samples hready ?_ rfl rfl rfl lookup_variable
  rw [hactive]
  exact nofun

end Looping

/-! ## When the samples of an expression end. -/

/-- The samples of an expression end: from some depth on there is one outcome, which is not an endless
evaluation. -/
def SamplesEnd (node : Cursor) (path : String) (r : Run) : Prop :=
  ∃ depth outcome, (∀ n, depth ≤ n → samplesWith (evaluation n) node path r = outcome)
    ∧ ∀ s, outcome ≠ .error .endless s

/-- A bound on re-entries, beyond which evaluating is given up with a failure, makes no difference
at any depth. -/
def ReentersWithin (cut : Failure) (k : Nat) (node : Cursor) (path : String) (r : Run) : Prop :=
  ∀ n, samplesWith (bounded cut n k) node path r = samplesWith (evaluation n) node path r

theorem samplesWith_bounded_le {n m : Nat} (hle : n ≤ m) :
    AgreesUpTo .endless (samplesWith (bounded cut n k) node path)
      (samplesWith (bounded cut m k) node path) := by
  induction hle with
  | refl => exact agrees_refl
  | step hle ih => exact agrees_trans ih (agrees_samplesWith (bounded_deeper k) node path)

/-- **The samples of an expression end exactly when re-entries nest to a bounded number.** What can
be re-entered is a definition that a loop made beside another, and an array that a variable holds.
-/
theorem samples_end_iff {cut : Failure} (hcut : cut ≠ .endless) {r : Run} (hr : r.Sound)
    (node : Cursor) (path : String) :
    SamplesEnd node path r ↔ ∃ k, ReentersWithin cut k node path r := by
  constructor
  · rintro ⟨depth, outcome, hsame, hends⟩
    refine ⟨depth, fun n => ?_⟩
    rcases Nat.le_total n depth with hle | hle
    · rw [bounded_eq depth hle]
    have hbase : samplesWith (bounded cut depth depth) node path r = outcome := by
      rw [bounded_eq depth le_rfl]
      exact hsame depth le_rfl
    rcases samplesWith_bounded_le hle r with heq | ⟨s, herror⟩
    · rw [hsame n hle, ← heq, hbase]
    · exact absurd (hbase.symm.trans herror) (hends s)
  · rintro ⟨k, hwithin⟩
    have hsettles : Settles (fun n => samplesWith (bounded cut n k) node path) r
        fun _ t => Calm r t :=
      settles_samplesWith (bounded_settles hcut) hr trivial
    obtain ⟨depth, outcome, hsame, hends, _⟩ := hsettles
    refine ⟨depth, outcome, fun n hn => ?_, hends⟩
    rw [← hwithin n]
    exact hsame n hn

open Looping in
/-- In a loop that reads its own variable re-entries nest without bound, while a letter in it is
evaluated without any. -/
theorem samples_end_iff_looping : ∃ scopes r, scopesOf "/p/a.php" Looping.run = .ok scopes r
    ∧ (∀ k, ¬ ReentersWithin .absent k variableCursor "/p/a.php" r)
    ∧ SamplesEnd letterCursor "/p/a.php" r := by
  obtain ⟨scopes, r, hscopes, hr, hendless⟩ := Looping.endless
  refine ⟨scopes, r, hscopes, fun k hwithin => ?_, ?_⟩
  · obtain ⟨depth, outcome, hsame, hends⟩ :=
      (samples_end_iff (by decide) hr variableCursor "/p/a.php").mpr ⟨k, hwithin⟩
    obtain ⟨s, hs⟩ := hendless depth
    exact hends s ((hsame depth le_rfl).symm.trans hs)
  · refine (samples_end_iff (by decide : Failure.absent ≠ .endless) hr letterCursor "/p/a.php").mpr ?_
    refine ⟨0, fun n => ?_⟩
    cases n with
    | zero => rfl
    | succ n => rfl

open Looping in
/-- The samples of the variable in a loop that reads it do not end. -/
theorem samples_not_end_looping : ∃ scopes r, scopesOf "/p/a.php" Looping.run = .ok scopes r
    ∧ ¬ SamplesEnd variableCursor "/p/a.php" r := by
  obtain ⟨scopes, r, hscopes, hr, hendless⟩ := Looping.endless
  refine ⟨scopes, r, hscopes, ?_⟩
  rintro ⟨depth, outcome, hsame, hends⟩
  obtain ⟨s, hs⟩ := hendless depth
  exact hends s ((hsame depth le_rfl).symm.trans hs)

end QueryAudit.Sample
