/-
  QueryAudit.Proofs.Sample.Preparing — preparing an expression ends

  Preparing a node goes to smaller nodes, and collecting the items of an array goes from definitions
  to those they hide, so both end. What was prepared refers to definitions that are tracked, and
  weighs no more than the node.

  Main results: `settles_prepare`, `findsItems`.
-/

import QueryAudit.Proofs.Sample.Reentry
import QueryAudit.Proofs.Sample.Settling

namespace QueryAudit.Sample

open Audit Php Scope Cursor

variable {parts : List Sequence} {node child : Cursor} {nodes : List Cursor} {w bound' : Nat}

/-! ## Sequences. -/

def heaviest : List Cursor → Nat
  | [] => 0
  | node :: rest => max (2 * node.node.size) (heaviest rest)

mutual

/-- How much a sequence leaves to do before it comes to a definition. -/
def Sequence.weight : Sequence → Nat
  | .ready _ => 0
  | .later node _ => 2 * node.node.size
  | .binding _ => 0
  | .concat parts _ _ => weightAll parts + 1
  | .chain parts => weightAll parts + 1
  | .branches nodes _ => heaviest nodes + 1

def weightAll : List Sequence → Nat
  | [] => 0
  | first :: rest => max first.weight (weightAll rest)

end

mutual

def Sequence.Good (r : Run) : Sequence → Prop
  | .ready _ => True
  | .later _ _ => True
  | .binding b => r.Has b
  | .concat parts _ _ => GoodAll r parts
  | .chain parts => GoodAll r parts
  | .branches _ _ => True

def GoodAll (r : Run) : List Sequence → Prop
  | [] => True
  | first :: rest => first.Good r ∧ GoodAll r rest

end

theorem heaviest_le_iff : heaviest nodes ≤ w ↔ ∀ node ∈ nodes, 2 * node.node.size ≤ w := by
  induction nodes with
  | nil => simp [heaviest]
  | cons first rest ih => rw [heaviest, Nat.max_le, ih, List.forall_mem_cons]

theorem weightAll_le_iff : weightAll parts ≤ w ↔ ∀ part ∈ parts, part.weight ≤ w := by
  induction parts with
  | nil => simp [weightAll]
  | cons first rest ih => rw [weightAll, Nat.max_le, ih, List.forall_mem_cons]

theorem goodAll_iff {r : Run} : GoodAll r parts ↔ ∀ part ∈ parts, part.Good r := by
  induction parts with
  | nil => simp [GoodAll]
  | cons first rest ih => rw [GoodAll, ih, List.forall_mem_cons]

mutual

theorem Sequence.Good.extends {r t : Run} (hext : r.Extends t) :
    ∀ sequence : Sequence, sequence.Good r → sequence.Good t
  | .ready _, _ => trivial
  | .later _ _, _ => trivial
  | .binding _, h => Run.Has.extends h hext
  | .concat parts _ _, h => GoodAll.extends hext parts h
  | .chain parts, h => GoodAll.extends hext parts h
  | .branches _ _, _ => trivial

theorem GoodAll.extends {r t : Run} (hext : r.Extends t) :
    ∀ parts : List Sequence, GoodAll r parts → GoodAll t parts
  | [], _ => trivial
  | first :: rest, h => ⟨Sequence.Good.extends hext first h.1, GoodAll.extends hext rest h.2⟩

end

/-! ## Preparing. -/

/-- A sequence that was prepared: a run was added to, its definitions are tracked, and it is not
heavier than a bound. -/
structure Prepared (r : Run) (bound : Nat) (sequence : Sequence) (t : Run) : Prop where
  grows : r.Grows t
  good : sequence.Good t
  weight : sequence.weight ≤ bound

section Preparing

variable {E : Nat → Evaluation} {node : Cursor} {r : Run}

variable {role : String} {bound : Nat}

theorem Prepared.mono {sequence : Sequence} {t : Run} (h : Prepared r bound sequence t)
    (hle : bound ≤ bound') : Prepared r bound' sequence t :=
  ⟨h.grows, h.good, Nat.le_trans h.weight hle⟩

theorem prepared_ready {values : List String} : Prepared r bound (.ready values) r :=
  ⟨.refl r, trivial, Nat.zero_le _⟩

def PreparesBelow (E : Nat → Evaluation) (node : Cursor) : Prop :=
  ∀ child path (r : Run), node.Below child → r.Sound →
    Settles (fun n => (E n).prepare child path) r (Prepared r (2 * child.node.size))

variable (hE : PreparesBelow E node) (hr : r.Sound) (path : String)

include hE hr

theorem settles_prepareBelow (hchild : node.Below child) :
    Settles (fun n => (E n).prepare child path) r (Prepared r (2 * node.node.size - 2)) := by
  refine (hE child path r hchild hr).mono fun sequence t h => h.mono ?_
  have := hchild.size_lt
  omega

theorem settles_prepareRole :
    Settles (fun n => prepareRole (E n) node role path) r (Prepared r (2 * node.node.size - 2)) := by
  unfold prepareRole
  split
  · next hchild => exact settles_prepareBelow hE hr path (below_of_inRole? hchild)
  · exact settles_throw nofun

/-- Two sequences, one of them after a prepared one. -/
theorem settles_prepareTwo {other : String} {make : Sequence → Sequence → Sequence}
    (hgood : ∀ t a b, a.Good t → b.Good t → (make a b).Good t)
    (hweight : ∀ a b, (make a b).weight ≤ max a.weight b.weight + 1) :
    Settles (fun n => do
      let left ← prepareRole (E n) node role path
      let right ← prepareRole (E n) node other path
      return make left right) r (Prepared r (2 * node.node.size)) := by
  refine settles_bind (settles_prepareRole hE hr path) fun left s hleft => ?_
  have hs := hr.extends hleft.grows.toExtends
  refine settles_bind (settles_prepareRole hE hs path) fun right t hright => settles_pure ?_
  refine ⟨hleft.grows.trans hright.grows, hgood t left right ?_ hright.good, ?_⟩
  · exact Sequence.Good.extends hright.grows.toExtends left hleft.good
  have hle := hweight left right
  have hl := hleft.weight
  have hri := hright.weight
  have hsize := Node.size_eq node.node
  omega

theorem settles_prepareString :
    Settles (fun n => prepareString (E n) node path) r (Prepared r (2 * node.node.size)) := by
  unfold prepareString
  cases hparts : stringParts node with
  | error e => exact settles_bind (settles_throw nofun) fun _ _ (h : False) => h.elim
  | ok parts =>
    refine settles_bind_of_ok rfl ?_
    refine settles_bind (settles_mapM (R := Run.Grows)
      (S := fun sequence t => sequence.Good t ∧ sequence.weight ≤ 2 * node.node.size - 2)
      (fun sequence s t h hgrows => ⟨Sequence.Good.extends hgrows.toExtends sequence h.1, h.2⟩)
      fun part hpart s hs => ?_) fun prepared t ⟨hgrows, hall⟩ => settles_pure ⟨hgrows, ?_, ?_⟩
    · cases part with
      | text value => exact settles_pure ⟨.refl s, trivial, Nat.zero_le _⟩
      | code inner =>
        have hbelow := below_of_mem_stringParts hparts hpart
        refine (settles_prepareBelow hE (hr.extends hs.toExtends) path hbelow).mono ?_
        exact fun sequence t h => ⟨h.grows, h.good, h.weight⟩
    · exact goodAll_iff.mpr fun part hpart => (hall part hpart).1
    have hle := weightAll_le_iff.mpr fun part hpart => (hall part hpart).2
    have hsize := Node.size_eq node.node
    show weightAll prepared + 1 ≤ _
    omega

theorem settles_prepareBinary :
    Settles (fun n => prepareBinary (E n) node path) r (Prepared r (2 * node.node.size)) := by
  unfold prepareBinary
  split
  · refine settles_prepareTwo hE hr path ?_ ?_
    · exact fun t a b ha hb => ⟨ha, hb, trivial⟩
    · intro a b
      show max a.weight (max b.weight 0) + 1 ≤ _
      omega
  · refine settles_prepareTwo hE hr path ?_ ?_
    · exact fun t a b ha hb => ⟨ha, hb, trivial⟩
    · intro a b
      show max a.weight (max b.weight 0) + 1 ≤ _
      omega
  · exact settles_pure prepared_ready

theorem settles_prepareInner :
    Settles (fun n => prepareInner (E n) node path) r (Prepared r (2 * node.node.size)) := by
  unfold prepareInner
  split
  · next inner hinner =>
    refine (settles_prepareBelow hE hr path (below_of_getLast?_parts hinner)).mono ?_
    exact fun sequence t h => h.mono (Nat.sub_le _ _)
  · exact settles_throw nofun

theorem settles_prepareCast :
    Settles (fun n => prepareCast (E n) node path) r (Prepared r (2 * node.node.size)) := by
  unfold prepareCast
  dsimp only
  split
  · exact settles_pure prepared_ready
  split
  · next value hvalue =>
    refine (settles_prepareBelow hE hr path (below_of_inRole? hvalue)).mono ?_
    exact fun sequence t h => h.mono (Nat.sub_le _ _)
  · exact settles_throw nofun

/-- What a combining assignment gives a variable, after a definition that is tracked. -/
theorem settles_prepareCombined {before : Option Binding} (hbefore : ∀ b, before = some b → r.Has b) :
    Settles (fun n => prepareCombined (E n) node before path) r
      (Prepared r (2 * node.node.size)) := by
  have hleft : ∀ (t : Run) (start : List String), r.Grows t →
      ((before.map Sequence.binding).getD (.ready start)).Good t
        ∧ ((before.map Sequence.binding).getD (.ready start)).weight = 0 := by
    intro t start hgrows
    cases before with
    | none => exact ⟨trivial, rfl⟩
    | some b => exact ⟨(hbefore b rfl).extends hgrows.toExtends, rfl⟩
  have hsize := Node.size_eq node.node
  unfold prepareCombined
  split
  · refine settles_bind (settles_prepareRole hE hr path) fun right t h => settles_pure ?_
    obtain ⟨hgood, hweight⟩ := hleft t [""] h.grows
    refine ⟨h.grows, ⟨hgood, h.good, trivial⟩, ?_⟩
    have := h.weight
    show max _ (max right.weight 0) + 1 ≤ _
    omega
  · refine settles_bind (settles_prepareRole hE hr path) fun right t h => settles_pure ?_
    obtain ⟨hgood, hweight⟩ := hleft t [] h.grows
    refine ⟨h.grows, ⟨hgood, h.good, trivial⟩, ?_⟩
    have := h.weight
    show max _ (max right.weight 0) + 1 ≤ _
    omega
  · exact settles_pure prepared_ready

theorem settles_prepareAugmented :
    Settles (fun n => prepareAugmented (E n) node path) r (Prepared r (2 * node.node.size)) := by
  unfold prepareAugmented
  split
  · exact settles_throw nofun
  · next left hleft =>
    refine settles_bind (settles_resolve hr) fun found t ⟨hgrows, hfound⟩ => ?_
    have hcombined : Settles (fun n => prepareCombined (E n) node none path) t
        (Prepared r (2 * node.node.size)) := by
      have hnone : ∀ b, (none : Option Binding) = some b → t.Has b := nofun
      refine (settles_prepareCombined hE (hr.extends hgrows.toExtends) path hnone).mono ?_
      exact fun sequence u h => ⟨hgrows.trans h.grows, h.good, h.weight⟩
    cases found with
    | none => exact hcombined
    | some b =>
      dsimp only
      split
      · exact settles_pure ⟨hgrows, hfound b rfl, Nat.zero_le _⟩
      · exact hcombined

omit hE

theorem settles_prepareReference :
    Settles (fun _ => prepareReference node path) r (Prepared r (2 * node.node.size)) := by
  unfold prepareReference
  refine settles_bind (settles_resolve hr) fun found t ⟨hgrows, hfound⟩ => ?_
  cases found with
  | none => exact settles_pure ⟨hgrows, trivial, Nat.zero_le _⟩
  | some b => exact settles_pure ⟨hgrows, hfound b rfl, Nat.zero_le _⟩

omit hr

theorem prepared_conditional : Prepared r (2 * node.node.size) (prepareConditional node path) r := by
  have hbelow : ∀ role child, node.inRole? role = some child →
      2 * child.node.size ≤ 2 * node.node.size - 2 := by
    intro role child h
    have := (below_of_inRole? h).size_lt
    omega
  have hbranches : ∀ nodes : List Cursor,
      (∀ child ∈ nodes, ∃ role, node.inRole? role = some child) →
        heaviest nodes + 1 ≤ 2 * node.node.size := by
    intro nodes hnodes
    have hle : heaviest nodes ≤ 2 * node.node.size - 2 := heaviest_le_iff.mpr fun child hchild => by
      obtain ⟨role, hrole⟩ := hnodes child hchild
      exact hbelow role child hrole
    have hsize := Node.size_eq node.node
    omega
  refine ⟨.refl r, trivial, hbranches _ fun child hchild => ?_⟩
  rcases List.mem_append.mp hchild with h | h
  · rw [Option.mem_toList] at h
    split at h
    · next hbody => exact ⟨"body", hbody.trans h⟩
    · exact ⟨"condition", h⟩
  · exact ⟨"alternative", Option.mem_toList.mp h⟩

include hE hr

/-- **Preparing a node settles when preparing what stands below it does.** -/
theorem settles_prepareRule :
    Settles (fun n => prepareRule (E n) node path) r (Prepared r (2 * node.node.size)) := by
  have hlater : Prepared r (2 * node.node.size) (.later node path) r :=
    ⟨.refl r, trivial, Nat.le_refl _⟩
  unfold prepareRule
  split
  all_goals first
    | exact settles_pure prepared_ready
    | exact settles_pure hlater
    | exact settles_pure (prepared_conditional path)
    | exact settles_prepareReference hr path
    | exact settles_prepareString hE hr path
    | exact settles_prepareBinary hE hr path
    | exact settles_prepareInner hE hr path
    | exact settles_prepareCast hE hr path
    | exact settles_prepareAugmented hE hr path
    | exact (settles_prepareRole hE hr path).mono fun _ _ h => h.mono (Nat.sub_le _ _)
    | skip
  refine settles_bind (settles_quiet quiet_hardError.loading_growing hr
    (Q := fun _ t => r.Grows t) fun _ _ _ hgrows => hgrows) fun _ t hgrows => settles_pure ?_
  exact ⟨hgrows, trivial, Nat.zero_le _⟩

end Preparing

/-- **Preparing a node ends**, whatever it refers to. -/
theorem settles_prepare {E : Nat → Evaluation}
    (hE : ∀ n, (E (n + 1)).prepare = prepareRule (E n)) (node : Cursor) :
    ∀ (path : String) {r : Run}, r.Sound →
      Settles (fun n => (E n).prepare node path) r (Prepared r (2 * node.node.size)) := by
  -- by induction on the size of the node
  induction h : node.node.size using Nat.strong_induction_on generalizing node with
  | _ size ih =>
    subst h
    intro path r hr
    refine settles_succ (settles_prepareRule ?_ hr path) fun n => by rw [hE]
    intro child path t hchild ht
    exact ih child.node.size hchild.size_lt child rfl path ht

/-! ## Items. -/

/-- Items of an array that were found. Those of an array that is written out stand below it. -/
structure FoundItems (r : Run) (node : Cursor) (found : Option (List Item)) (t : Run) : Prop where
  grows : r.Grows t
  below : isWrittenOut node = true → ∀ items, found = some items →
    ∀ item ∈ items, node.Below item.value

/-- A definition stands in a scope further out than another, or earlier in the same one. -/
def ComesBefore (a b : Binding) : Prop :=
  scopeRank a.closure < scopeRank b.closure ∨ a.closure = b.closure ∧ a.serial < b.serial

theorem comesBefore_wellFounded : WellFounded ComesBefore := by
  refine Subrelation.wf (fun {a b} h => ?_)
    (InvImage.wf (fun b : Binding => toLex (scopeRank b.closure, b.serial)) wellFounded_lt)
  show toLex _ < toLex _
  rw [Prod.Lex.toLex_lt_toLex]
  exact h.imp_right fun h => ⟨by rw [h.1], h.2⟩

section Items

variable {E : Nat → Evaluation} {r : Run} {depth : Nat}

theorem settles_itemsRule {path : String} (hr : r.Sound)
    (hitems : depth ≤ itemDepth → ∀ inner, Settles (fun n => (E n).items inner path (depth + 1)) r
      (FoundItems r inner)) (hitemsOf : depth ≤ itemDepth → ∀ b {t}, t.Sound → t.Has b →
      Settles (fun n => (E n).itemsOf b (depth + 1)) t fun _ u => t.Grows u) :
    Settles (fun n => itemsRule (E n) node path depth) r (FoundItems r node) := by
  have hnone : Settles (fun _ => (pure none : Audit (Option (List Item)))) r (FoundItems r node) :=
    settles_pure ⟨.refl r, fun _ _ h => by cases h⟩
  unfold itemsRule
  split
  · exact hnone
  · next hdepth =>
    have hle : depth ≤ itemDepth := Nat.le_of_not_lt hdepth
    have hinner : node.kind = .parenthesizedExpression ∨ node.kind = .argument →
        ∀ inner, node.parts.getLast? = some inner →
          Settles (fun n => (E n).items inner path (depth + 1)) r (FoundItems r node) := by
      intro hkind inner hinner
      refine (hitems hle inner).mono fun found t h => ⟨h.grows, fun hwritten items hfound => ?_⟩
      have hwritten' : isWrittenOut inner = true := by
        rw [← isWrittenOut_inner hkind hinner]
        exact hwritten
      intro item hitem
      exact (below_of_getLast?_parts hinner).trans (h.below hwritten' items hfound item hitem)
    split
    · refine settles_pure ⟨.refl r, fun _ items hfound item hitem => ?_⟩
      obtain rfl := Option.some.inj hfound
      obtain ⟨⟨key, value⟩, helement, rfl⟩ := List.mem_map.mp hitem
      exact (below_of_mem_arrayElements helement).1
    · next hkind =>
      split
      · next inner hlast => exact hinner (.inl hkind) inner hlast
      · exact hnone
    · next hkind =>
      split
      · next inner hlast => exact hinner (.inr hkind) inner hlast
      · exact hnone
    · next harray hparens hargument =>
      have hnot : isWrittenOut node = false := isWrittenOut_other harray hparens hargument
      split
      · exact hnone
      refine settles_bind (settles_resolve hr) fun found t hresolved => ?_
      obtain ⟨hgrows, hfound⟩ := hresolved
      cases found with
      | none => exact settles_pure ⟨hgrows, fun _ _ h => by cases h⟩
      | some b =>
        refine settles_bind_of_ok (rfl : isActive b t = .ok (t.active.contains (markOf b)) t) ?_
        split
        · exact settles_pure ⟨hgrows, fun _ _ h => by cases h⟩
        · refine (hitemsOf hle b (hr.extends hgrows.toExtends) (hfound b rfl)).mono ?_
          intro found u hu
          exact ⟨hgrows.trans hu, fun hwritten => absurd hwritten (by simp [hnot])⟩

theorem settles_itemsOfRule {b : Binding} (hr : r.Sound) (hb : r.Has b)
    (hitems : ∀ node path, Settles (fun n => (E n).items node path (depth + 1)) r
      fun _ t => r.Grows t)
    (hhidden : ∀ hidden, ComesBefore hidden b → r.Has hidden →
      Settles (fun n => (E n).itemsOf hidden (depth + 1)) r fun _ t => r.Grows t) :
    Settles (fun n => itemsOfRule (E n) b depth) r fun _ t => r.Grows t := by
  have hnone : Settles (fun _ => (pure none : Audit (Option (List Item)))) r fun _ t => r.Grows t :=
    settles_pure (.refl r)
  unfold itemsOfRule
  split
  · exact hnone
  · next node hnode =>
    split
    · exact hnone
    · exact hnone
    · exact hnone
    · obtain ⟨found, hfound, hbefore⟩ := previousOf_eq hr hb
      refine settles_bind_of_ok hfound ?_
      cases found with
      | none =>
        refine settles_bind_of_ok rfl ?_
        split
        · exact settles_pure (.refl r)
        · exact settles_throw fun h => by cases h
      | some hidden =>
        obtain ⟨hhas, hlt⟩ := hbefore hidden rfl
        refine settles_bind (hhidden hidden hlt hhas) fun items t hgrows => settles_bind_of_ok rfl ?_
        split
        · exact settles_pure hgrows
        · exact settles_throw fun h => by cases h
    · exact hitems node b.path

end Items

/-- Evaluators find the items of arrays at a depth. -/
structure FindsItems (E : Nat → Evaluation) (depth : Nat) : Prop where
  items : ∀ node path {r : Run}, r.Sound →
    Settles (fun n => (E n).items node path depth) r (FoundItems r node)
  itemsOf : ∀ b {r : Run}, r.Sound → r.Has b →
    Settles (fun n => (E n).itemsOf b depth) r fun _ t => r.Grows t

section FindsItems

variable {E : Nat → Evaluation} (hE : ∀ n, (E (n + 1)).items = itemsRule (E n))
  (hE' : ∀ n, (E (n + 1)).itemsOf = itemsOfRule (E n))

include hE hE'

/-- References are not followed beyond a depth, and writes to elements lead to definitions that come
before. -/
theorem findsItems_beyond : ∀ depth, itemDepth < depth → FindsItems E depth := by
  have hitems : ∀ depth, itemDepth < depth → ∀ node path {r : Run}, r.Sound →
      Settles (fun n => (E n).items node path depth) r (FoundItems r node) := by
    intro depth hdepth node path r hr
    refine settles_succ (settles_itemsRule hr ?_ ?_) fun n => by rw [hE]
    · exact fun hle => absurd hle (Nat.not_le_of_lt hdepth)
    · exact fun hle => absurd hle (Nat.not_le_of_lt hdepth)
  intro depth hdepth
  refine ⟨hitems depth hdepth, fun b => ?_⟩
  induction b using comesBefore_wellFounded.induction generalizing depth with
  | _ b ih =>
    intro r hr hb
    have hdeeper := Nat.lt_succ_of_lt hdepth
    refine settles_succ (settles_itemsOfRule hr hb ?_ ?_) fun n => by rw [hE']
    · exact fun node path => (hitems (depth + 1) hdeeper node path hr).mono fun _ _ h => h.grows
    · exact fun hidden hbefore hhidden => ih hidden hbefore (depth + 1) hdeeper hr hhidden

/-- **Finding the items of an array ends.** -/
theorem findsItems (depth : Nat) : FindsItems E depth := by
  -- by induction on how much of the depth is left
  induction hleft : itemDepth + 1 - depth generalizing depth with
  | zero => exact findsItems_beyond hE hE' depth (by omega)
  | succ left ih =>
    have hdeeper : FindsItems E (depth + 1) := ih (depth + 1) (by omega)
    constructor
    · intro node path r hr
      refine settles_succ (settles_itemsRule hr ?_ ?_) fun n => by rw [hE]
      · exact fun _ inner => hdeeper.items inner path hr
      · exact fun _ b t ht hb => hdeeper.itemsOf b ht hb
    · intro b r hr hb
      refine settles_succ (settles_itemsOfRule hr hb ?_ ?_) fun n => by rw [hE']
      · exact fun node path => (hdeeper.items node path hr).mono fun _ _ h => h.grows
      · exact fun hidden _ hhidden => hdeeper.itemsOf hidden hr hhidden

end FindsItems

end QueryAudit.Sample
