/-
  QueryAudit.Proofs.Scope.Standing — where a pass stands is where a reference looks

  A pass knows its scope from one remembered class and function; a reference finds its scope by
  climbing from node to node. Both are the same in a tree in which classes and functions are not put
  inside of one another, methods apart. A declaration in the parameters of a function breaks this.

  Main results: `Tracker.Goes.standing`, `closureOf_eq_active`, `parameter_takes_place`.
-/

import QueryAudit.Proofs.Scope.Cached
import QueryAudit.Proofs.Scope.Finding

namespace QueryAudit.Php

variable {above : List Cursor}

/-! ## Trees without nested declarations. -/

def Kind.isDeclaration (kind : Kind) : Bool := kind.isClassLike || kind.isFunctionLike

/-- A class stands inside of no class and no function, and a function inside of no function. -/
def Cursor.isFlat (c : Cursor) : Bool :=
  (!c.kind.isClassLike || c.ancestors.all (!·.kind.isDeclaration))
    && (!c.kind.isFunctionLike || c.ancestors.all (!·.kind.isFunctionLike))

def classAmong (above : List Cursor) : Option Cursor := above.find? (·.kind.isClassLike)

def functionAmong (above : List Cursor) : Option Cursor := above.find? (·.kind.isFunctionLike)

def classNameAmong (above : List Cursor) : String := ((classAmong above).map Cursor.nameText).getD ""

variable {c : Cursor}

theorem Cursor.isFlat_class (h : c.isFlat) (hclass : c.kind.isClassLike) :
    classAmong c.ancestors = none ∧ functionAmong c.ancestors = none := by
  simp only [isFlat, hclass, Kind.isDeclaration, Bool.not_true, Bool.false_or, Bool.and_eq_true,
    List.all_eq_true] at h
  simp only [classAmong, functionAmong, List.find?_eq_none]
  exact ⟨fun a ha => by have := h.1 a ha; simp_all, fun a ha => by have := h.1 a ha; simp_all⟩

theorem Cursor.isFlat_function (h : c.isFlat) (hfunction : c.kind.isFunctionLike) :
    functionAmong c.ancestors = none := by
  simp only [isFlat, hfunction, Bool.not_true, Bool.false_or, Bool.and_eq_true, List.all_eq_true] at h
  simp only [functionAmong, List.find?_eq_none]
  exact fun a ha => by have := h.2 a ha; simp_all

theorem classAmong_cons :
    classAmong (c :: above) = if c.kind.isClassLike then some c else classAmong above := by
  rw [classAmong, List.find?_cons]
  cases c.kind.isClassLike <;> rfl

theorem functionAmong_cons :
    functionAmong (c :: above) = if c.kind.isFunctionLike then some c else functionAmong above := by
  rw [functionAmong, List.find?_cons]
  cases c.kind.isFunctionLike <;> rfl

end QueryAudit.Php

namespace QueryAudit.Scope

open Audit Php Text List

/-! ## The scope found by climbing. -/

theorem closureAbove_some {method : String} {above : List Cursor} :
    closureAbove above (some method) = .ofMethod (classNameAmong above) method := by
  induction above with
  | nil => rfl
  | cons c above ih =>
    unfold closureAbove
    rw [Option.isNone_some, Bool.and_false, classNameAmong, classAmong_cons]
    cases c.kind.isClassLike with
    | true => rfl
    | false => exact ih

/-- The scope of a function and of a class among the nodes above. -/
def closureAmong (above : List Cursor) : Closure :=
  match functionAmong above, classAmong above with
  | some f, _ => .ofMethod (classNameAmong above) f.nameText
  | none, some c => .ofClass c.nameText
  | none, none => .global

/-- Climbing finds the innermost function with its class, if declarations are not nested. -/
theorem closureAbove_flat (tree : Nat) :
    ∀ above : List (Nat × Node), (∀ a ∈ Cursor.climb tree above, a.isFlat) →
      closureAbove (Cursor.climb tree above) none = closureAmong (Cursor.climb tree above)
  | [], _ => rfl
  | (i, p) :: above, h => by
    rw [Cursor.climb, forall_mem_cons] at h
    obtain ⟨hflat, habove⟩ := h
    have ih := closureAbove_flat tree above habove
    rw [Cursor.climb, closureAmong, classNameAmong, functionAmong_cons, classAmong_cons, closureAbove]
    by_cases hfunction : (⟨tree, p, above⟩ : Cursor).kind.isFunctionLike = true
    · have hclass := Tracker.isClassLike_of_isFunctionLike hfunction
      rw [hfunction, hclass, closureAbove_some]
      rfl
    by_cases hclass : (⟨tree, p, above⟩ : Cursor).kind.isClassLike = true
    · obtain ⟨-, hnone⟩ := Cursor.isFlat_class hflat hclass
      replace hnone : functionAmong (Cursor.climb tree above) = none := hnone
      rw [eq_false_of_ne_true hfunction, hclass, hnone]
      rfl
    · rw [eq_false_of_ne_true hfunction, eq_false_of_ne_true hclass]
      exact ih

/-- The names around a node are those of its scope, if functions have names. -/
theorem enclosingNames_eq {above : List Cursor}
    (hnamed : ∀ a ∈ above, a.kind.isFunctionLike → a.nameText ≠ "") :
    enclosingNames above ""
      = ((closureAbove above none).className, (closureAbove above none).methodName) := by
  -- once a function is found its name stays
  have hfound : ∀ (above : List Cursor) (method : String), method ≠ "" →
      enclosingNames above method = (classNameAmong above, method) := by
    intro above method hmethod
    induction above with
    | nil => rfl
    | cons c above ih =>
      unfold enclosingNames
      rw [decide_eq_false hmethod, Bool.false_and, classNameAmong, classAmong_cons]
      cases c.kind.isClassLike with
      | true => rfl
      | false => exact ih
  induction above with
  | nil => rfl
  | cons c above ih =>
    rw [forall_mem_cons] at hnamed
    unfold enclosingNames closureAbove
    cases hfunction : c.kind.isFunctionLike with
    | true =>
      rw [closureAbove_some]
      exact hfound above c.nameText (hnamed.1 hfunction)
    | false =>
      cases c.kind.isClassLike with
      | true => rfl
      | false => exact ih hnamed.2

/-! ## What a pass remembers. -/

namespace Tracker

variable {n : Node} {names : List String} {path : String}

/-- A pass remembers the class and the function that stand above. -/
structure Standing (t : Tracker) (above : List Cursor) : Prop where
  classSlot : t.classSlot = (classAmong above, (classAmong above).map fun c => .ofClass c.nameText)
  methodSlot : t.methodSlot
    = (functionAmong above, (functionAmong above).map fun f => .ofMethod (classNameAmong above) f.nameText)
  position : t.position = if (functionAmong above).isSome then .inMethod
    else if (classAmong above).isSome then .inClass else .inGlobal

variable {t : Tracker} {c : Cursor}

theorem Standing.activeClosure {above : List Cursor} (h : t.Standing above) :
    t.activeClosure = closureAmong above := by
  have hclass : t.classScope = _ := congrArg Prod.snd h.classSlot
  have hmethod : t.methodScope = _ := congrArg Prod.snd h.methodSlot
  rw [Tracker.activeClosure, hclass, hmethod, h.position, closureAmong]
  cases functionAmong above with
  | some f => rfl
  | none => cases classAmong above <;> rfl

theorem enter_position :
    (t.enter c).position = if c.kind.isClassLike then .inClass
      else if c.kind.isFunctionLike then .inMethod else t.position := by
  rw [enter_defines.position, opened]
  split
  · rfl
  · split
    · rfl
    · split <;> rfl

theorem leave_position :
    (t.leave c).position = if c.kind.isClassLike then .inGlobal
      else if c.kind.isFunctionLike && (t.currentMethod.map c.same).getD false then
        if t.currentClass.isSome then .inClass else .inGlobal
      else t.position := by
  rw [leave]
  split
  · rfl
  split
  · next hfunction =>
    rw [hfunction, Bool.true_and]
    split <;> rfl
  · next hfunction =>
    rw [eq_false_of_ne_true hfunction, Bool.false_and]
    split
    · split <;> rfl
    · rfl

/-- **Entering a node keeps to what stands above.** -/
theorem Standing.enter (h : t.Standing c.ancestors) (hflat : c.isFlat) :
    (t.enter c).Standing (c :: c.ancestors) := by
  have hname : t.className = classNameAmong c.ancestors := by
    rw [className_eq, h.classSlot]
    rfl
  refine ⟨?_, ?_, ?_⟩
  · rw [enter_classSlot, classAmong_cons]
    split
    · rfl
    · exact h.classSlot
  · rw [enter_methodSlot, functionAmong_cons, classNameAmong, classAmong_cons]
    split
    · next hclass =>
      rw [isFunctionLike_of_isClassLike hclass, h.methodSlot, (Cursor.isFlat_class hflat hclass).2]
      rfl
    split
    · show (some c, some (Closure.ofMethod t.className c.nameText)) = _
      rw [hname]
      rfl
    · exact h.methodSlot
  · rw [enter_position, functionAmong_cons, classAmong_cons]
    split
    · next hclass =>
      rw [isFunctionLike_of_isClassLike hclass, (Cursor.isFlat_class hflat hclass).2]
      rfl
    split
    · rfl
    · exact h.position

/-- **Leaving a node goes back to what stands above it.** -/
theorem Standing.leave (h : t.Standing (c :: c.ancestors)) (hflat : c.isFlat) :
    (t.leave c).Standing c.ancestors := by
  obtain ⟨hcs, hms, hpos⟩ := h
  rw [classAmong_cons] at hcs
  rw [functionAmong_cons, classNameAmong, classAmong_cons] at hms
  rw [functionAmong_cons, classAmong_cons] at hpos
  have hcurrentClass : t.currentClass = _ := congrArg Prod.fst hcs
  -- the function that is left is the one that is remembered
  have hsame (hfunction : c.kind.isFunctionLike) : (t.currentMethod.map c.same).getD false := by
    rw [show t.currentMethod = _ from congrArg Prod.fst hms, if_pos hfunction]
    exact same_self
  refine ⟨?_, ?_, ?_⟩
  · rw [leave_classSlot]
    split
    · next hclass =>
      rw [(Cursor.isFlat_class hflat hclass).1]
      rfl
    · next hclass => rwa [if_neg hclass] at hcs
  · rw [leave_methodSlot]
    cases hfunction : c.kind.isFunctionLike with
    | true =>
      rw [hsame hfunction, Cursor.isFlat_function hflat hfunction]
      rfl
    | false =>
      rw [hfunction] at hms
      rw [Bool.false_and, hms]
      cases hclass : c.kind.isClassLike with
      | true =>
        rw [(Cursor.isFlat_class hflat hclass).2]
        rfl
      | false => rfl
  · rw [leave_position]
    split
    · next hclass =>
      rw [(Cursor.isFlat_class hflat hclass).2, (Cursor.isFlat_class hflat hclass).1]
      rfl
    · next hclass =>
      rw [if_neg hclass] at hcurrentClass hpos
      cases hfunction : c.kind.isFunctionLike with
      | true =>
        rw [hsame hfunction, hcurrentClass, Cursor.isFlat_function hflat hfunction]
        rfl
      | false => rw [Bool.false_and, hpos, hfunction]; rfl

/-! ## Passes, node by node. -/

/-- **A pass remembers what stands above each node that it enters.** -/
theorem Goes.standing {nodes : List Cursor} {inside : List (Cursor × Tracker)} {above : List Cursor}
    (h : Goes nodes t inside t') (hflat : ∀ c ∈ nodes.flatMap Cursor.preorder, c.isFlat)
    (habove : ∀ c ∈ nodes, c.ancestors = above) (ht : t.Standing above) :
    t'.Standing above ∧ ∀ e ∈ inside, e.2.Standing e.1.ancestors := by
  induction h generalizing above with
  | nil => exact ⟨ht, fun _ he => nomatch he⟩
  | skip _ _ ih =>
    rw [flatMap_cons, forall_mem_append] at hflat
    exact ih hflat.2 (forall_mem_cons.mp habove).2 ht
  | node _ _ _ ihinside ihrest =>
    rw [flatMap_cons, forall_mem_append, Cursor.preorder_eq, forall_mem_cons] at hflat
    obtain ⟨⟨hhere, hbelow⟩, hlater⟩ := hflat
    obtain ⟨rfl, habove⟩ := forall_mem_cons.mp habove
    obtain ⟨hafter, heach⟩ :=
      ihinside hbelow (fun _ => Cursor.ancestors_child) (ht.enter hhere)
    obtain ⟨hrest, hothers⟩ := ihrest hlater habove (hafter.leave hhere)
    exact ⟨hrest, forall_mem_append.mpr ⟨forall_mem_cons.mpr ⟨ht, heach⟩, hothers⟩⟩

/-- Calls are noted with the scope that is active when they are entered. -/
theorem Seen.callSites {start : Tracker} {first last : List (Cursor × Closure)}
    {nodes : List (Cursor × Tracker)} (h : Seen start (·.scopes.callSites) first nodes last) :
    ∀ site ∈ last, site ∈ first ∨ ∃ u, (site.1, u) ∈ nodes ∧ site.2 = u.activeClosure := by
  induction h with
  | nil => exact fun site hsite => .inl hsite
  | cons c t _ _ ih =>
    intro site hsite
    rcases ih site hsite with hsite | ⟨u, hu, hclosure⟩
    · rw [(enter_callSites t c).2, mem_append] at hsite
      refine hsite.imp_right fun hsite => ?_
      split at hsite
      · rw [mem_singleton.mp hsite]
        exact ⟨t, mem_cons_self, rfl⟩
      · cases hsite
    · exact .inr ⟨u, mem_cons_of_mem _ hu, hclosure⟩

theorem states_standing {number : Nat} (hflat : ∀ c ∈ (Cursor.root number n).preorder, c.isFlat) :
    ∀ e ∈ states names path (.root number n), e.2.Standing e.1.ancestors := by
  let root := Cursor.root number n
  have hstart : ((start names path).openScope .global).Standing root.ancestors := ⟨rfl, rfl, rfl⟩
  obtain ⟨inside, _, hgoes, hentered, -⟩ := exists_goes root ((start names path).openScope .global)
  rw [Cursor.preorder_eq, forall_mem_cons] at hflat
  rw [states, hentered]
  exact forall_mem_cons.mpr ⟨hstart, (hgoes.standing hflat.2 (fun _ => Cursor.ancestors_child)
    (hstart.enter hflat.1)).2⟩

/-- The active scope is the one that is found by climbing. -/
theorem states_active {number : Nat} (hnamed : n.named) (hsolid : n.all Node.isSolid)
    (hflat : ∀ c ∈ (Cursor.root number n).preorder, c.isFlat) {e : Cursor × Tracker}
    (he : e ∈ states names path (.root number n)) :
    e.1 ∈ (Cursor.root number n).preorder ∧ e.1.node.named = true
      ∧ e.2.activeClosure = closureAbove e.1.ancestors none := by
  have hmem : e.1 ∈ (Cursor.root number n).preorder.filter (·.node.named) := by
    rw [← map_fst_states names path hnamed hsolid]
    exact mem_map_of_mem he
  obtain ⟨htree, hnamed⟩ := mem_filter.mp hmem
  have hstands := states_standing hflat e he
  refine ⟨htree, hnamed, ?_⟩
  rw [hstands.activeClosure, Cursor.ancestors, closureAbove_flat]
  exact fun a ha => hflat a (Cursor.mem_preorder_of_ancestor htree ha)

end Tracker

end QueryAudit.Scope

namespace QueryAudit

open Audit Php Record Scope Text

/-! ## Links between nodes. -/

def Run.LinkedAt (r : Run) (path : String) (number : Nat) (n : Node) : Prop :=
  ∃ s, r.sources.get? (r.disk.resolve path) = some s ∧ s.tree = some (number, n)
    ∧ s.linked = some number

variable {r t u v : Run} {path : String} {number : Nat} {n : Node} {root : Cursor}

namespace Audit

variable {scopes : FileScopes}

theorem source_ok {s : Source} (h : source path r = .ok s t) :
    t.disk = r.disk ∧ t.sources.get? (t.disk.resolve path) = some s := by
  rw [source_eq] at h
  cases hget : r.sources.get? (r.disk.resolve path) with
  | some known =>
    rw [hget] at h
    obtain ⟨rfl, rfl⟩ := EStateM.Result.ok.inj h
    exact ⟨rfl, hget⟩
  | none =>
    rw [hget] at h
    dsimp only at h
    split at h
    · obtain ⟨rfl, rfl⟩ := EStateM.Result.ok.inj h
      exact ⟨rfl, by rw [Catalog.get?_set, if_pos rfl]⟩
    · cases h

theorem content_ok {bytes : ByteArray} (h : content path r = .ok bytes t) :
    ∃ s, t.sources.get? (t.disk.resolve path) = some s := by
  unfold content at h
  obtain ⟨s, u, hsource, h⟩ := bind_ok_iff.mp h
  obtain ⟨-, hknown⟩ := source_ok hsource
  cases hcontent : s.content with
  | some found =>
    rw [hcontent] at h
    obtain ⟨-, rfl⟩ := pure_ok_iff.mp h
    exact ⟨s, hknown⟩
  | none =>
    rw [hcontent] at h
    dsimp only at h
    rw [bind_of_ok run_get] at h
    cases hfile : u.disk.file? (u.disk.resolve path) with
    | none =>
      rw [hfile] at h
      cases h
    | some file =>
      rw [hfile] at h
      obtain ⟨-, rfl⟩ := EStateM.Result.ok.inj h
      exact ⟨_, by rw [Catalog.get?_set, if_pos rfl]⟩

theorem rootOf_atHand (h : rootOf path r = .ok root t) : root = .root root.tree root.node
    ∧ ∃ s, t.sources.get? (t.disk.resolve path) = some s ∧ s.tree = some (root.tree, root.node) := by
  unfold rootOf at h
  obtain ⟨s, u, hsource, h⟩ := bind_ok_iff.mp h
  obtain ⟨-, hknown⟩ := source_ok hsource
  cases htree : s.tree with
  | some tree =>
    rw [htree] at h
    obtain ⟨rfl, rfl⟩ := pure_ok_iff.mp h
    exact ⟨rfl, s, hknown, htree⟩
  | none =>
    rw [htree] at h
    obtain ⟨bytes, v, hcontent, h⟩ := bind_ok_iff.mp h
    obtain ⟨s', hs'⟩ := content_ok hcontent
    obtain ⟨number, w, hnumber, h⟩ := bind_ok_iff.mp h
    have hsame : w.disk = v.disk ∧ w.sources = v.sources := by
      unfold treeNumber at hnumber
      cases hshelved : s.shelved with
      | some shelved =>
        rw [hshelved] at hnumber
        obtain ⟨-, rfl⟩ := pure_ok_iff.mp hnumber
        exact ⟨rfl, rfl⟩
      | none =>
        rw [hshelved] at hnumber
        obtain ⟨-, rfl⟩ := EStateM.Result.ok.inj hnumber
        exact ⟨rfl, rfl⟩
    obtain ⟨rfl, rfl⟩ := EStateM.Result.ok.inj h
    refine ⟨rfl, { s' with tree := some (number, parse bytes), shelved := none }, ?_, rfl⟩
    dsimp only
    rw [hsame.1, hsame.2, Catalog.get?_modify, if_pos rfl, hs']
    rfl

theorem link_linked (h : rootOf path r = .ok root t) (hlink : link path t = .ok ⟨⟩ u) :
    u.LinkedAt path root.tree root.node := by
  obtain ⟨-, s, hs, htree⟩ := rootOf_atHand h
  obtain ⟨-, rfl⟩ := EStateM.Result.ok.inj hlink
  refine ⟨{ s with linked := s.tree.map Prod.fst }, ?_, htree, ?_⟩
  · dsimp only
    rw [Catalog.get?_modify, if_pos rfl, hs]
    rfl
  · rw [htree]
    rfl

theorem track_linked (h : track path r = .ok scopes u) : ∃ number n, u.LinkedAt path number n := by
  unfold track at h
  obtain ⟨_, r₁, -, h⟩ := bind_ok_iff.mp h
  obtain ⟨_, r₂, -, h⟩ := bind_ok_iff.mp h
  obtain ⟨root, r₃, hroot, h⟩ := bind_ok_iff.mp h
  rw [bind_of_ok run_get] at h
  obtain ⟨_, r₄, hlink, h⟩ := bind_ok_iff.mp h
  obtain ⟨_, r₅, hreplay, h⟩ := bind_ok_iff.mp h
  obtain ⟨-, rfl⟩ := EStateM.Result.ok.inj h
  obtain ⟨hdisk, hsources⟩ := ((tells_replay path).keeps (R := fun r t => t.disk = r.disk
    ∧ t.sources = r.sources) fun ⟨_, _, _, _, htold⟩ => by rw [htold]; exact ⟨rfl, rfl⟩).of_ok hreplay
  have hlinked := link_linked hroot hlink
  rw [Run.LinkedAt, ← hdisk, ← hsources] at hlinked
  exact ⟨_, _, hlinked⟩

/-- Taking a map back links the tree that its nodes are looked up in. -/
theorem loadCached_linked (h : loadCached path r = .ok (some scopes) u) :
    ∃ number n, u.LinkedAt path number n := by
  unfold loadCached at h
  rw [bind_of_ok run_get] at h
  cases hmap : r.cache.get? (cacheName path) with
  | none =>
    rw [hmap] at h
    cases h
  | some map =>
    rw [hmap] at h
    cases map with
    | text content =>
      dsimp only at h
      cases hread : Json.read? content with
      | none =>
        rw [hread] at h
        cases h
      | some json =>
        rw [hread] at h
        cases json <;> dsimp only at h <;> split at h <;> cases h
    | snapshot saved =>
      cases hfile : r.disk.file? path with
      | none =>
        rw [hfile] at h
        cases h
      | some file =>
        rw [hfile] at h
        dsimp only at h
        split at h
        · cases h
        obtain ⟨root, r₁, hroot, h⟩ := bind_ok_iff.mp h
        obtain ⟨_, r₂, hlink, h⟩ := bind_ok_iff.mp h
        obtain ⟨-, rfl⟩ := EStateM.Result.ok.inj h
        exact ⟨_, _, link_linked hroot hlink⟩

end Audit

theorem Run.LinkedAt.rootOf (h : u.LinkedAt path number n) :
    Audit.rootOf path u = .ok (.root number n) u := by
  obtain ⟨s, hs, htree, -⟩ := h
  have hsource : Audit.source path u = .ok s u := by rw [source_eq, hs]
  unfold Audit.rootOf
  rw [bind_of_ok hsource, htree]
  rfl

theorem Run.LinkedAt.above (h : u.LinkedAt path number n) {node : Cursor} (htree : node.tree = number)
    (hnamed : node.node.named) : Audit.above path node u = .ok node.ancestors u := by
  obtain ⟨s, hs, -, hlinked⟩ := h
  have hsource : Audit.source path u = .ok s u := by rw [source_eq, hs]
  unfold Audit.above
  rw [bind_of_ok hsource, hlinked, htree, hnamed, decide_eq_true rfl, Bool.and_true]
  rfl

/-! ## Definitions are filed where references look. -/

/-- **The scope that is active when a pass enters a node is the one that a reference at the node
finds afterwards**, for every named node of a tree without nested declarations, whether the file was
tracked or its map taken back. -/
theorem closureOf_eq_active {bytes : ByteArray}
    (hafter : (∃ scopes, track path r = .ok scopes u)
      ∨ ∃ scopes, loadCached path r = .ok (some scopes) u)
    (hroot : rootOf path u = .ok root v) (hparse : root.node = parse bytes)
    (hflat : root.preorder.all Cursor.isFlat = true) (names : List String) :
    (Tracker.states names path root).map Prod.fst = root.preorder.filter (·.node.named)
      ∧ (∀ node t, (node, t) ∈ Tracker.states names path root →
        closureOf path node u = .ok t.activeClosure u
          ∧ ((∀ a ∈ root.preorder, a.kind.isDeclaration = true → a.nameText ≠ "") →
            ∃ above, Audit.above path node u = .ok above u
              ∧ enclosingNames above "" = (t.activeClosure.className, t.activeClosure.methodName)))
      ∧ ∀ site ∈ (Tracker.run names path root).1.callSites, closureOf path site.1 u = .ok site.2 u := by
  obtain ⟨number, n, hlinked⟩ : ∃ number n, u.LinkedAt path number n :=
    hafter.elim (fun ⟨_, h⟩ => track_linked h) (fun ⟨_, h⟩ => loadCached_linked h)
  obtain ⟨rfl, rfl⟩ : Cursor.root number n = root ∧ u = v := by
    rw [hlinked.rootOf] at hroot
    exact ⟨(EStateM.Result.ok.inj hroot).1, (EStateM.Result.ok.inj hroot).2⟩
  have hflat' := List.all_eq_true.mp hflat
  have hsolid : n.all Node.isSolid = true := by
    rw [show n = parse bytes from hparse]
    exact parse_solid
  have hnamed : n.named = true := by
    rw [show n = parse bytes from hparse]
    exact parse_program.2
  have hstate : ∀ node t, (node, t) ∈ Tracker.states names path (.root number n) →
      closureOf path node u = .ok t.activeClosure u
        ∧ Audit.above path node u = .ok node.ancestors u
        ∧ node ∈ (Cursor.root number n).preorder
        ∧ t.activeClosure = closureAbove node.ancestors none := by
    intro node t hmem
    obtain ⟨hnode, hname, hactive⟩ := Tracker.states_active hnamed hsolid hflat' hmem
    have habove := hlinked.above (Cursor.tree_of_mem_preorder hnode) hname
    refine ⟨?_, habove, hnode, hactive⟩
    unfold closureOf
    rw [bind_of_ok habove]
    exact congrArg (EStateM.Result.ok · u) hactive.symm
  refine ⟨Tracker.map_fst_states names path hnamed hsolid, fun node t hmem => ?_, fun site hsite => ?_⟩
  · obtain ⟨hclosure, habove, hnode, hactive⟩ := hstate node t hmem
    refine ⟨hclosure, fun hnames => ⟨_, habove, ?_⟩⟩
    rw [hactive]
    refine enclosingNames_eq fun a ha hfunction => ?_
    refine hnames a (Cursor.mem_preorder_of_ancestor hnode ha) ?_
    rw [Kind.isDeclaration, hfunction, Bool.or_true]
  · have hseen := Tracker.states_seen (·.scopes.callSites) names path (.root number n) fun u c _ =>
      (Tracker.leave_moves Tracker.sameCalls_moves u c).calls
    rw [Tracker.run_eq] at hsite
    rcases hseen.callSites site hsite with hnone | ⟨t, ht, hactive⟩
    · exact absurd hnone List.not_mem_nil
    · rw [hactive]
      exact (hstate site.1 t ht).1

namespace Mapped

def text : String := "<?php class A \x7b function m() \x7b $x->find(); \x7d \x7d"

def first : Run :=
  Run.start (Disk.write { base := "/w" } "/w/a.php" text.toUTF8) "/w" { cacheDir := some "/c" } false false

def aside : Run := after (do let _ ← scopesOf "/w/a.php"; evict "/w/a.php") first

def back : Run := after (loadCached "/w/a.php") aside

theorem facts : sees (loadCached "/w/a.php") aside (fun answer _ => answer.isSome) = true
    ∧ sees (rootOf "/w/a.php") back
      (fun root _ => root.node = parse text.toUTF8 && root.preorder.all Cursor.isFlat) = true := by
  decide +kernel

end Mapped

/-- The call is found in its method after the map was taken back. -/
theorem closureOf_eq_active_mapped : ∃ root,
    rootOf "/w/a.php" Mapped.back = .ok root Mapped.back
      ∧ ∀ site ∈ (Tracker.run ["find"] "/w/a.php" root).1.callSites,
        closureOf "/w/a.php" site.1 Mapped.back = .ok site.2 Mapped.back := by
  obtain ⟨hback, hread⟩ := Mapped.facts
  obtain ⟨answer, t, hload, hback⟩ := of_sees hback
  obtain ⟨scopes, rfl⟩ := Option.isSome_iff_exists.mp hback
  obtain rfl : Mapped.back = t := by rw [Mapped.back, after, hload]
  obtain ⟨number, n, hlinked⟩ := loadCached_linked hload
  rw [sees, hlinked.rootOf, Bool.and_eq_true, decide_eq_true_eq] at hread
  exact ⟨_, hlinked.rootOf,
    (closureOf_eq_active (.inr ⟨scopes, hload⟩) hlinked.rootOf hread.1 hread.2 ["find"]).2.2⟩

/-- A declaration stands outside of the bodies of functions, and a class outside of classes. -/
def Php.Cursor.isOutsideBodies (c : Cursor) : Bool :=
  (!c.kind.isDeclaration || c.ancestors.all fun a =>
      a.node.role != some "body" || !(a.parent?.any (·.kind.isFunctionLike)))
    && (!c.kind.isClassLike || c.ancestors.all (!·.kind.isClassLike))

def parameterText : String :=
  "<?php\nfunction f($x = new class \x7b function g() \x7b\x7d \x7d) \x7b\n  $a = 'x';\n  return $a;\n\x7d\n"

/-- **A declaration in a parameter hides the function from its own body**: the assignment in the
body is filed under global code, and a reference there looks in the function. -/
theorem parameter_takes_place :
    (Cursor.root 0 (parse parameterText.toUTF8)).preorder.all Cursor.isOutsideBodies = true
      ∧ ((Tracker.states [] "/w/a.php" (.root 0 (parse parameterText.toUTF8))).find?
          (·.1.kind = .assignmentExpression)).map
          (fun e => (e.2.activeClosure, closureAbove e.1.ancestors none))
        = some (.global, .ofMethod "" "f") := by
  decide +kernel

end QueryAudit
