/-
  QueryAudit.Proofs.Scope.Closing — which scopes a pass files

  A pass remembers one class and one function and files their scopes when it leaves them. A
  declaration inside another of its sort takes its place, so the scope of the outer one stays open
  for good. First it is said what going through a node does to the remembered places; then `Kept`
  says that what is pending belongs to one of them, or to a declaration that holds another of its
  sort.

  Main results: `Tracker.Makes.entries`, `Tracker.Goes.kept`, `run_files`.
-/

import QueryAudit.Proofs.Scope.Filing

namespace QueryAudit.Php.Node

variable {sort : Kind → Bool}

/-! ## What a pass goes through. -/

mutual

def meets (sort : Kind → Bool) : Node → Bool
  | ⟨kind, _, _, _, _, children⟩ => sort kind || meetsIn sort children

def meetsIn (sort : Kind → Bool) : List Node → Bool
  | [] => false
  | n :: rest => (n.named && n.meets sort) || meetsIn sort rest

end

mutual

/-- The nodes that are gone through, parents before children, each with the class it is taken to be
in. -/
def passed (className : String) : Node → List (String × Node)
  | ⟨kind, named, role, span, text, children⟩ =>
    let n : Node := ⟨kind, named, role, span, text, children⟩
    (className, n) :: passedIn (if kind.isClassLike then n.nameText else className) children

def passedIn (className : String) : List Node → List (String × Node)
  | [] => []
  | n :: rest =>
    if n.named then
      n.passed className ++ passedIn (if n.meets Kind.isClassLike then "" else className) rest
    else passedIn className rest

end

theorem passed_eq (className : String) (n : Node) : n.passed className = (className, n)
    :: passedIn (if n.kind.isClassLike then n.nameText else className) n.children := by
  cases n
  rw [passed]

theorem meets_eq {n : Node} : n.meets sort = (sort n.kind || meetsIn sort n.children) := by
  cases n
  rw [meets]

theorem meetsIn_eq {nodes : List Node} :
    meetsIn sort nodes = nodes.any fun n => n.named && n.meets sort := by
  induction nodes with
  | nil => rw [meetsIn]; rfl
  | cons n nodes ih => rw [meetsIn, ih]; rfl

/-- A class that holds a class, or a function that holds a function. -/
def holdsOwnSort (n : Node) : Bool :=
  (n.kind.isClassLike && meetsIn Kind.isClassLike n.children)
    || (n.kind.isFunctionLike && meetsIn Kind.isFunctionLike n.children)

end QueryAudit.Php.Node

namespace QueryAudit.Scope

open Audit Php List

variable {Own : Closure → Prop} {closure : Closure} {key x : String} {node : Cursor}
  {t t' : Tracker}

def Opens (place : String × Node) (key : String) : Prop :=
  (place.2.kind.isClassLike ∧ key = (Closure.ofClass place.2.nameText).key)
    ∨ (place.2.kind.isFunctionLike ∧ key = (Closure.ofMethod place.1 place.2.nameText).key)
    ∨ (place.2.kind = .foreachStatement ∧ ∃ block : Closure, block.kind = .block
        ∧ block.line = place.2.line ∧ block.endLine = place.2.lastLine ∧ key = block.key)

namespace Tracker

variable {kind : Kind}

/-! ## Pending definitions. -/

/-- The definitions of a scope and identifier that are not filed yet. -/
def pending (t : Tracker) (key identifier : String) : List Binding :=
  ((t.live.get? key).bind (·.get? identifier)).getD []

theorem entries_eq : t.entries key x = t.scopes.entries key x ++ t.pending key x := rfl

theorem pending_openScope : (t.openScope closure).pending = t.pending := by
  funext key x
  have h := congrFun (congrFun (entries_openScope t closure) key) x
  exact append_cancel_left h

theorem pending_bind {b : Binding}
    (h : (t.bind closure b).pending key x ≠ []) : t.pending key x ≠ [] ∨ key = closure.key := by
  by_cases hkey : key = closure.key
  · exact .inr hkey
  · left
    rw [pending, bind] at h
    rwa [Catalog.get?_alter, if_neg hkey] at h

theorem pending_flush
    (h : (t.flush closure).pending key x ≠ []) : t.pending key x ≠ [] ∧ key ≠ closure.key := by
  rw [pending, flush] at h
  rw [Catalog.get?_erase] at h
  split at h
  · exact absurd rfl h
  · next hkey => exact ⟨h, hkey⟩

theorem filed_flush (h : (t.flush closure).scopes.entries key x ≠ []) :
    t.scopes.entries key x ≠ [] ∨ key = closure.key := by
  by_cases hkey : key = closure.key
  · exact .inr hkey
  · left
    rwa [flush, FileScopes.entries_flush, if_neg hkey] at h

/-! ## What is made. -/

/-- A state is reached from another one by making definitions, given in the order they were made, and
by steps that make none. -/
inductive Makes (start : Tracker) : List Binding → Tracker → Prop where
  | nil : Makes start [] start
  | bind {made : List Binding} {t : Tracker} (closure : Closure) (b : Binding) :
      Makes start made t → Makes start (made ++ [t.placed closure b]) (t.bind closure b)
  | other {made : List Binding} {t t' : Tracker} :
      Makes start made t → t.Step t' → t'.serial = t.serial → Makes start made t'

theorem exists_makes {start : Tracker} (h : start.Steps t) : ∃ made, start.Makes made t := by
  induction h with
  | refl => exact ⟨[], .nil⟩
  | tail _ hstep ih =>
    obtain ⟨made, hmade⟩ := ih
    cases hstep with
    | bind closure b => exact ⟨_, .bind closure b hmade⟩
    | openScope closure => exact ⟨made, .other hmade (.openScope _ closure) rfl⟩
    | flush closure => exact ⟨made, .other hmade (.flush _ closure) rfl⟩
    | block block hblock => exact ⟨made, .other hmade (.block _ block hblock) rfl⟩
    | calls calls => exact ⟨made, .other hmade (.calls _ calls) rfl⟩
    | report event => exact ⟨made, .other hmade (.report _ event) rfl⟩
    | move p c m cs ms l => exact ⟨made, .other hmade (.move _ p c m cs ms l) rfl⟩

section Made

variable {start t : Tracker} {made : List Binding} {path : String}

theorem Makes.steps (h : start.Makes made t) : start.Steps t := by
  induction h with
  | nil => exact .refl
  | bind closure b _ ih => exact ih.tail (.bind _ closure b)
  | other _ hstep _ ih => exact ih.tail hstep

/-- Definitions are numbered in the order they are made. -/
theorem Makes.serials (h : start.Makes made t) :
    t.serial = start.serial + made.length
      ∧ made.map (·.serial) = range' start.serial made.length := by
  induction h with
  | nil => exact ⟨rfl, rfl⟩
  | @bind made t closure b _ ih =>
    refine ⟨?_, ?_⟩
    · show t.serial + 1 = _
      rw [ih.1, length_append]
      rfl
    · rw [map_append, ih.2, length_append, length_singleton, range'_1_concat, ← ih.1]
      rfl
  | other _ _ hserial ih => exact ⟨hserial.trans ih.1, ih.2⟩

/-- What is filed and what is pending under a scope and an identifier are, one after the other, the
definitions made for them. -/
theorem Makes.entries (h : start.Makes made t) (hstart : start.Filing path) (key x : String) :
    t.entries key x
      = start.entries key x ++ made.filter fun b => b.closure = key && b.identifier = x := by
  induction h with
  | nil => exact (append_nil _).symm
  | @bind made t closure b _ ih =>
    rw [entries_bind, filter_append, ← append_assoc, ← ih, filter_cons, filter_nil]
    simp only [placed, Bool.and_eq_true, decide_eq_true_eq, eq_comm (a := closure.key),
      eq_comm (a := b.identifier)]
  | other hmade hstep hserial ih =>
    rw [← ih]
    cases hstep with
    | bind closure b => exact absurd hserial (Nat.succ_ne_self _)
    | openScope closure => rw [entries_openScope]
    | flush closure => rw [entries_flush _ _ (hstart.steps hmade.steps).names]
    | block => rfl
    | calls => rfl
    | report => rfl
    | move => rfl

end Made

/-! ## Places. -/

def classSlot (t : Tracker) : Option Cursor × Option Closure := (t.currentClass, t.classScope)

def methodSlot (t : Tracker) : Option Cursor × Option Closure := (t.currentMethod, t.methodScope)

def className (t : Tracker) : String := (t.currentClass.map Cursor.nameText).getD ""

/-- A key belongs to global code or to a place that is remembered. -/
def Covers (t : Tracker) (key : String) : Prop :=
  key = Closure.global.key ∨ (∃ c, t.classSlot.2 = some c ∧ c.key = key)
    ∨ (∃ c, t.methodSlot.2 = some c ∧ c.key = key) ∨ ∃ block ∈ t.loops, block.key = key

theorem Offers.covers (h : t.Offers Own closure) : t.Covers closure.key ∨ Own closure := by
  have hclass : ∀ c, t.classScope = some c → t.Covers c.key := fun c hc => .inr (.inl ⟨c, hc, rfl⟩)
  have hmethod : ∀ c, t.methodScope = some c → t.Covers c.key :=
    fun c hc => .inr (.inr (.inl ⟨c, hc, rfl⟩))
  rcases h with rfl | rfl | rfl | h
  · exact .inl (.inl rfl)
  · left
    rw [activeClosure]
    split
    · next hc => exact hmethod _ hc
    · next hc => exact hclass _ hc
    · exact .inl rfl
  · left
    rw [classClosure]
    cases hc : t.classScope with
    | none => exact .inl rfl
    | some c => exact hclass c hc
  · exact .inr h

/-- From one state to another nothing but definitions is made, in places that are remembered or in
scopes of one's own. -/
structure Defines (Own : Closure → Prop) (t t' : Tracker) : Prop where
  classSlot : t'.classSlot = t.classSlot
  methodSlot : t'.methodSlot = t.methodSlot
  position : t'.position = t.position
  loops : t'.loops = t.loops
  blocks : t'.scopes.blocks = t.scopes.blocks
  filed : t'.scopes.entries = t.scopes.entries
  pending : ∀ key x, t'.pending key x ≠ [] →
    t.pending key x ≠ [] ∨ t.Covers key ∨ ∃ closure, Own closure ∧ closure.key = key

theorem Covers.of_same (hclass : t'.classSlot = t.classSlot)
    (hmethod : t'.methodSlot = t.methodSlot) (hloops : t'.loops = t.loops)
    (h : t'.Covers key) : t.Covers key := by
  rwa [Covers, hclass, hmethod, hloops] at h

/-- What a remembered place stands for in another state, unless something else is known of it. -/
theorem Covers.within {P : Prop} (h : t.Covers key)
    (hclass : ∀ c, t.classScope = some c → c.key = key → t'.classScope = some c ∨ P)
    (hmethod : ∀ c, t.methodScope = some c → c.key = key → t'.methodScope = some c ∨ P)
    (hloops : ∀ block ∈ t.loops, block.key = key → block ∈ t'.loops ∨ P) : t'.Covers key ∨ P := by
  rcases h with hglobal | ⟨c, hc, hkey⟩ | ⟨c, hc, hkey⟩ | ⟨block, hblock, hkey⟩
  · exact .inl (.inl hglobal)
  · exact (hclass c hc hkey).imp_left fun hc => .inr (.inl ⟨c, hc, hkey⟩)
  · exact (hmethod c hc hkey).imp_left fun hc => .inr (.inr (.inl ⟨c, hc, hkey⟩))
  · exact (hloops block hblock hkey).imp_left fun hb => .inr (.inr (.inr ⟨block, hb, hkey⟩))

instance (Own : Closure → Prop) : IsPreorder Tracker (Defines Own) where
  refl t := ⟨rfl, rfl, rfl, rfl, rfl, rfl, fun _ _ h => .inl h⟩
  trans t t' t'' h h' := by
    refine ⟨h'.classSlot.trans h.classSlot, h'.methodSlot.trans h.methodSlot,
      h'.position.trans h.position, h'.loops.trans h.loops, h'.blocks.trans h.blocks,
      h'.filed.trans h.filed, fun key x hkey => ?_⟩
    rcases h'.pending key x hkey with hkey | hkey | hkey
    · exact h.pending key x hkey
    · exact .inr (.inl (hkey.of_same h.classSlot h.methodSlot h.loops))
    · exact .inr (.inr hkey)

theorem defines_registers (Own : Closure → Prop) : Registers (fun _ => True) Own (Defines Own) where
  below _ _ _ _ := trivial
  bind t closure b hoffers _ := by
    refine ⟨rfl, rfl, rfl, rfl, rfl, rfl, fun key x hkey => ?_⟩
    rcases pending_bind hkey with hkey | rfl
    · exact .inl hkey
    · exact .inr (hoffers.covers.imp_right fun hown => ⟨closure, hown, rfl⟩)
  known _ _ h := h fun _ _ _ _ _ _ => trivial

theorem defines_report {e : Event} : Defines Own t (t.report e) :=
  ⟨rfl, rfl, rfl, rfl, rfl, rfl, fun _ _ h => .inl h⟩

theorem Defines.within (h : Defines Own t t')
    (hown : ∀ closure, Own closure → t.Covers closure.key) : Defines (fun _ => False) t t' := by
  refine ⟨h.classSlot, h.methodSlot, h.position, h.loops, h.blocks, h.filed, fun key x hkey => ?_⟩
  rcases h.pending key x hkey with hkey | hkey | ⟨closure, hclosure, rfl⟩
  · exact .inl hkey
  · exact .inr (.inl hkey)
  · exact .inr (.inl (hown closure hclosure))

/-! ## Entering. -/

theorem defines_noteCall : KeepsTo (Defines Own) (Pass.noteCall node) := by
  unfold Pass.noteCall
  refine keeps_get_bind fun t => ?_
  split
  · exact ⟨rfl, rfl, rfl, rfl, rfl, rfl, fun _ _ h => .inl h⟩
  · exact refl_of (Defines Own) t

theorem isFunctionLike_of_isClassLike (h : kind.isClassLike) : kind.isFunctionLike = false := by
  cases kind <;> simp_all [Kind.isClassLike, Kind.isFunctionLike]

theorem isClassLike_of_isFunctionLike (h : kind.isFunctionLike) : kind.isClassLike = false := by
  cases kind <;> simp_all [Kind.isClassLike, Kind.isFunctionLike]

/-- **Entering a node opens its scope and then makes definitions only.** -/
theorem enter_defines : Defines (fun _ => False) (t.opened node) (t.enter node) := by
  have hR := defines_registers fun closure => (t.opened node).Covers closure.key
  refine (enter_of_after (fun t _ => defines_report) (Pass.binds_enter hR.binds trivial trivial t
    (fun _ => defines_report)
    (fun _ => Pass.registers_registerConstants hR trivial) (fun _ => defines_noteCall)
    ?_ ?_)).within fun _ => id
  · intro hkind
    rw [opened, isClassLike_of_isFunctionLike hkind, if_pos hkind]
    exact .inr (.inr (.inl ⟨_, rfl, rfl⟩))
  · intro hkind hcomplete
    rw [opened, if_neg (by rw [hkind]; decide), if_neg (by rw [hkind]; decide),
      if_pos ⟨hkind, hcomplete⟩]
    exact .inr (.inr (.inr ⟨_, mem_cons_self, rfl⟩))

/-! ## Places after a node. -/

theorem enter_classSlot (t : Tracker) (node : Cursor) :
    (t.enter node).classSlot = if node.kind.isClassLike then
      (some node, some (.ofClass node.nameText)) else t.classSlot := by
  rw [enter_defines.classSlot, opened]
  split
  · rfl
  · split
    · rfl
    · split <;> rfl

theorem enter_methodSlot :
    (t.enter node).methodSlot
      = if node.kind.isClassLike then t.methodSlot
        else if node.kind.isFunctionLike then (some node, some (t.functionClosure node))
        else t.methodSlot := by
  rw [enter_defines.methodSlot, opened]
  split
  · rfl
  · split
    · rfl
    · split <;> rfl

theorem leave_classSlot :
    (t.leave node).classSlot = if node.kind.isClassLike then (none, none) else t.classSlot := by
  rw [leave]
  split
  · rfl
  split
  · split
    · show (_, _) = (_, _)
      cases t.methodScope <;> rfl
    · rfl
  · split
    · split <;> rfl
    · rfl

theorem leave_methodSlot :
    (t.leave node).methodSlot
      = if node.kind.isFunctionLike && (t.currentMethod.map node.same).getD false then (none, none)
        else t.methodSlot := by
  rw [leave]
  split
  · next hclass =>
    rw [isFunctionLike_of_isClassLike hclass]
    show (_, _) = (_, _)
    cases t.classScope <;> rfl
  · split
    · next hfunction =>
      rw [hfunction, Bool.true_and]
      split <;> rfl
    · next hfunction =>
      rw [eq_false_of_ne_true hfunction]
      split
      · split <;> rfl
      · rfl

theorem same_self {c : Cursor} : c.same c := by
  simp [Cursor.same]

/-- A sort of declarations of which a pass remembers one in a slot, with its scope: the slot is taken
when a declaration is entered, and empty when it is left. -/
structure Remembers (sort : Kind → Bool) (slot : Tracker → Option Cursor × Option Closure)
    (own : Tracker → Cursor → Closure) : Prop where
  enter : ∀ t node, slot (t.enter node)
    = if sort node.kind then (some node, some (own t node)) else slot t
  leave : ∀ t node, sort node.kind → slot t = (none, none) ∨ (slot t).1 = some node →
    slot (t.leave node) = (none, none)
  stays : ∀ t node, sort node.kind = false → slot (t.leave node) = slot t
  opens : ∀ t node, sort node.kind → Opens (t.className, node.node) (own t node).key
  holds : ∀ node : Cursor, sort node.kind = true →
    node.node.holdsOwnSort = Node.meetsIn sort node.node.children

theorem remembers_class :
    Remembers Kind.isClassLike classSlot fun _ node => .ofClass node.nameText where
  enter := enter_classSlot
  leave t node hkind _ := by rw [leave_classSlot, if_pos hkind]
  stays t node hkind := by rw [leave_classSlot, hkind, if_neg Bool.false_ne_true]
  opens _ _ hkind := .inl ⟨hkind, rfl⟩
  holds node hkind := by
    have hfunction := isFunctionLike_of_isClassLike hkind
    rw [Cursor.kind] at hkind hfunction
    rw [Node.holdsOwnSort, hkind, hfunction, Bool.true_and, Bool.false_and, Bool.or_false]

theorem remembers_function : Remembers Kind.isFunctionLike methodSlot functionClosure where
  enter t node := by
    rw [enter_methodSlot]
    cases hkind : node.kind.isFunctionLike with
    | false => cases node.kind.isClassLike <;> rfl
    | true => rw [isClassLike_of_isFunctionLike hkind, if_neg Bool.false_ne_true]
  leave t node hkind hslot := by
    rw [leave_methodSlot, hkind, Bool.true_and]
    rcases hslot with hslot | (hslot : t.currentMethod = some node)
    · rw [hslot, ite_self]
    · rw [hslot, Option.map_some, Option.getD_some, same_self, if_pos rfl]
  stays t node hkind := by rw [leave_methodSlot, hkind, Bool.false_and, if_neg Bool.false_ne_true]
  opens _ _ hkind := .inr (.inl ⟨hkind, rfl⟩)
  holds node hkind := by
    have hclass := isClassLike_of_isFunctionLike hkind
    rw [Cursor.kind] at hkind hclass
    rw [Node.holdsOwnSort, hkind, hclass, Bool.true_and, Bool.false_and, Bool.false_or]

section Slot

variable {sort : Kind → Bool} {slot : Tracker → Option Cursor × Option Closure}
  {own : Tracker → Cursor → Closure} (h : Remembers sort slot own)

include h

theorem Remembers.leave_slot (hinside : slot t' = if Node.meetsIn sort node.node.children then
      (none, none) else slot (t.enter node)) :
    slot (t'.leave node) = if node.node.meets sort then (none, none) else slot t := by
  rw [h.enter] at hinside
  rw [Node.meets_eq, ← Cursor.kind]
  cases hkind : sort node.kind with
  | false =>
    rw [hkind] at hinside
    rw [h.stays _ node hkind, hinside]
    rfl
  | true =>
    rw [hkind] at hinside
    refine h.leave _ node hkind ?_
    rw [hinside]
    cases Node.meetsIn sort node.node.children with
    | false => exact .inr rfl
    | true => exact .inl rfl

/-- Going through a declaration of a sort, or through something that holds one, leaves none behind. -/
theorem Remembers.goes {nodes : List Cursor} {inside : List (Cursor × Tracker)}
    (hgoes : Goes nodes t inside t') : slot t'
      = if Node.meetsIn sort (nodes.map Cursor.node) then (none, none) else slot t := by
  induction hgoes with
  | nil => rw [map_nil, Node.meetsIn, if_neg Bool.false_ne_true]
  | skip hnamed _ ih =>
    rw [map_cons, Node.meetsIn, hnamed]
    exact ih
  | @node c rest _ _ _ _ _ hnamed _ _ ihinside ihrest =>
    rw [Cursor.map_node_children] at ihinside
    rw [ihrest, h.leave_slot ihinside, map_cons, Node.meetsIn, hnamed]
    cases c.node.meets sort <;> cases Node.meetsIn sort (rest.map Cursor.node) <;> rfl

end Slot

/-- What classes and functions leave alone changes only where a loop is opened. -/
theorem opened_loop {α : Type} (f : Tracker → α) (hclass : f (t.openClass node) = f t)
    (hfunction : f (t.openFunction node) = f t) :
    f (t.opened node) = if node.kind = .foreachStatement ∧ isComplete node = true then
      f (t.openLoop node) else f t := by
  rw [opened]
  split
  · next hkind => rw [hclass, if_neg fun hloop => absurd hkind (by rw [hloop.1]; decide)]
  · split
    · next hkind => rw [hfunction, if_neg fun hloop => absurd hkind (by rw [hloop.1]; decide)]
    · split <;> rfl

theorem enter_loops :
    (t.enter node).loops = if node.kind = .foreachStatement ∧ isComplete node = true then
      t.loopBlock node :: t.loops else t.loops :=
  enter_defines.loops.trans (opened_loop loops rfl rfl)

theorem leave_loops :
    (t.leave node).loops = if node.kind = .foreachStatement then t.loops.tail else t.loops := by
  rw [leave]
  split
  · next hclass =>
    have hne : node.kind ≠ .foreachStatement := fun hloop => absurd hclass (by rw [hloop]; decide)
    rw [if_neg hne]
    cases t.classScope <;> rfl
  · split
    · next hfunction =>
      have hne : node.kind ≠ .foreachStatement :=
        fun hloop => absurd hfunction (by rw [hloop]; decide)
      split
      · cases t.methodScope <;> rfl
      · rfl
    · split
      · split
        · next block rest hloops => rw [hloops, tail_cons]
        · next hloops => rw [hloops, tail_nil]
      · rfl

theorem leave_suffix (h : t'.loops <:+ (t.enter node).loops) : (t'.leave node).loops <:+ t.loops := by
  rw [enter_loops] at h
  rw [leave_loops]
  split at h
  · next hloop =>
    rw [if_pos hloop.1]
    rcases suffix_cons_iff.mp h with heq | hsuffix
    · simp only [heq, tail_cons, suffix_refl]
    · exact (tail_suffix _).trans hsuffix
  · split
    · exact (tail_suffix _).trans h
    · exact h

/-- Going through nodes leaves no more blocks open than there were. -/
theorem Goes.loops {nodes : List Cursor} {inside : List (Cursor × Tracker)}
    (h : Goes nodes t inside t') : t'.loops <:+ t.loops := by
  induction h with
  | nil => exact suffix_refl _
  | skip _ _ ih => exact ih
  | node _ _ _ ihinside ihrest => exact ihrest.trans (leave_suffix ihinside)

/-! ## What is lost and what is filed. -/

/-- What is pending belongs to a remembered place or to a lost scope, and what is filed, or will be
from the stack of loops, to scopes that are filed. -/
structure Kept (Lost Filed : String → Prop) (t : Tracker) : Prop where
  pending : ∀ key x, t.pending key x ≠ [] → t.Covers key ∨ Lost key
  filed : ∀ key x, t.scopes.entries key x ≠ [] → Filed key
  loops : ∀ block ∈ t.loops, Filed block.key

/-- The scope of a declaration that holds another of its sort is lost, any other one is filed. -/
def Sorts (Lost Filed : String → Prop) (place : String × Node) : Prop :=
  ∀ key, Opens place key → if place.2.holdsOwnSort then Lost key else Filed key

section Kept

variable {Lost Filed : String → Prop} {t : Tracker}

theorem Kept.defines (h : Kept Lost Filed t) (hd : Defines (fun _ => False) t t') :
    Kept Lost Filed t' := by
  have hcovers : ∀ key, t.Covers key → t'.Covers key := fun key hkey =>
    hkey.of_same hd.classSlot.symm hd.methodSlot.symm hd.loops.symm
  refine ⟨fun key x hkey => ?_, fun key x hkey => ?_, ?_⟩
  · rcases hd.pending key x hkey with hkey | hkey | ⟨_, hnone, _⟩
    · exact (h.pending key x hkey).imp_left (hcovers key)
    · exact .inl (hcovers key hkey)
    · exact hnone.elim
  · rw [hd.filed] at hkey
    exact h.filed key x hkey
  · rw [hd.loops]
    exact h.loops

/-- A scope may be filed, and no other one is forgotten but those that are lost. -/
theorem Kept.close (h : Kept Lost Filed t) (scope : Option Closure)
    (hfiled : ∀ c, scope = some c → Filed c.key)
    (hpending : t'.pending = (t.flushOpen scope).pending)
    (hentries : t'.scopes.entries = (t.flushOpen scope).scopes.entries)
    (hloops : ∀ block ∈ t'.loops, Filed block.key)
    (hcovers : ∀ key, t.Covers key → t'.Covers key ∨ Lost key ∨ ∃ c, scope = some c ∧ c.key = key) :
    Kept Lost Filed t' := by
  refine ⟨fun key x hkey => ?_, fun key x hkey => ?_, hloops⟩
  · rw [hpending] at hkey
    cases scope with
    | none =>
      refine (h.pending key x hkey).elim (fun hcover => ?_) .inr
      exact (hcovers key hcover).imp_right (Or.resolve_right · nofun)
    | some c =>
      obtain ⟨hbefore, hne⟩ := pending_flush hkey
      refine (h.pending key x hbefore).elim (fun hcover => ?_) .inr
      refine (hcovers key hcover).imp_right (Or.resolve_right · ?_)
      rintro ⟨_, hc, rfl⟩
      cases hc
      exact hne rfl
  · rw [hentries] at hkey
    cases scope with
    | none => exact h.filed key x hkey
    | some c =>
      rcases filed_flush hkey with hkey | rfl
      · exact h.filed key x hkey
      · exact hfiled c rfl

theorem Kept.opened (h : Kept Lost Filed t)
    (hclass : node.kind.isClassLike → ∀ c, t.classScope = some c → Lost c.key)
    (hmethod : node.kind.isFunctionLike → ∀ c, t.methodScope = some c → Lost c.key)
    (hloop : node.kind = .foreachStatement → Filed (t.loopBlock node).key) :
    Kept Lost Filed (t.opened node) := by
  rw [Tracker.opened]
  split
  · next hkind =>
    refine h.close none (by simp) pending_openScope rfl h.loops fun key hcover => hcover.within ?_ ?_ ?_
    · exact fun c hc hkey => .inr (.inl (hkey ▸ hclass hkind c hc))
    · exact fun c hc _ => .inl hc
    · exact fun block hblock _ => .inl hblock
  · split
    · next hkind =>
      refine h.close none (by simp) pending_openScope rfl h.loops fun key hcover =>
        hcover.within ?_ ?_ ?_
      · exact fun c hc _ => .inl hc
      · exact fun c hc hkey => .inr (.inl (hkey ▸ hmethod hkind c hc))
      · exact fun block hblock _ => .inl hblock
    · split
      · next hkind =>
        refine h.close none (by simp) pending_openScope rfl
          (forall_mem_cons.mpr ⟨hloop hkind.1, h.loops⟩) fun key hcover => hcover.within ?_ ?_ ?_
        · exact fun c hc _ => .inl hc
        · exact fun c hc _ => .inl hc
        · exact fun block hblock _ => .inl (mem_cons_of_mem _ hblock)
      · exact h

theorem Kept.leave (h : Kept Lost Filed t) {node : Cursor}
    (hclass : node.kind.isClassLike → ∀ c, t.classScope = some c → Filed c.key)
    (hmethod : node.kind.isFunctionLike → ∀ c, t.methodScope = some c → Filed c.key) :
    Kept Lost Filed (t.leave node) := by
  rw [Tracker.leave]
  split
  · next hkind =>
    refine h.close t.classScope (hclass hkind) rfl rfl ?_ fun key hcover => hcover.within ?_ ?_ ?_
    · cases t.classScope <;> exact h.loops
    · exact fun c hc hkey => .inr (.inr ⟨c, hc, hkey⟩)
    · cases t.classScope <;> exact fun c hc _ => .inl hc
    · cases t.classScope <;> exact fun block hblock _ => .inl hblock
  · split
    · next hkind =>
      split
      · refine h.close t.methodScope (hmethod hkind) rfl rfl ?_ fun key hcover =>
          hcover.within ?_ ?_ ?_
        · cases t.methodScope <;> exact h.loops
        · cases t.methodScope <;> exact fun c hc _ => .inl hc
        · exact fun c hc hkey => .inr (.inr ⟨c, hc, hkey⟩)
        · cases t.methodScope <;> exact fun block hblock _ => .inl hblock
      · exact h
    · split
      · split
        · next block rest hloops =>
          obtain ⟨hblock, hrest⟩ := forall_mem_cons.mp (hloops ▸ h.loops)
          refine h.close (some block) (fun c hc => Option.some.inj hc ▸ hblock) rfl rfl hrest
            fun key hcover => hcover.within ?_ ?_ ?_
          · exact fun c hc _ => .inl hc
          · exact fun c hc _ => .inl hc
          intro b hb hkey
          rw [hloops] at hb
          rcases mem_cons.mp hb with rfl | hb
          · exact .inr (.inr ⟨b, rfl, hkey⟩)
          · exact .inl hb
        · exact h
      · exact h

end Kept

theorem className_eq : t.className = (t.classSlot.1.map Cursor.nameText).getD "" := rfl

section Node

variable {Lost Filed : String → Prop} {t : Tracker} {node : Cursor} {sort : Kind → Bool}
  {slot : Tracker → Option Cursor × Option Closure} {own : Tracker → Cursor → Closure} {c : Closure}

theorem enter_className :
    (t.enter node).className = if node.kind.isClassLike then node.nameText else t.className := by
  rw [className_eq, enter_classSlot]
  cases node.kind.isClassLike <;> rfl

theorem Remembers.sorts (h : Remembers sort slot own) (hown : Sorts Lost Filed (t.className, node.node))
    (hkind : sort node.kind) :
    if Node.meetsIn sort node.node.children then Lost (own t node).key
    else Filed (own t node).key := by
  have hkey := hown _ (h.opens t node hkind)
  rwa [h.holds node hkind] at hkey

theorem sorts_loop (hown : Sorts Lost Filed (t.className, node.node))
    (hkind : node.kind = .foreachStatement) : Filed (t.loopBlock node).key := by
  have hkey := hown _ (.inr (.inr ⟨hkind, t.loopBlock node, rfl, rfl, rfl, rfl⟩))
  rw [Cursor.kind] at hkind
  rwa [Node.holdsOwnSort, hkind, if_neg (by simp [Kind.isClassLike, Kind.isFunctionLike])] at hkey

theorem Kept.enter (h : Kept Lost Filed t) (hown : Sorts Lost Filed (t.className, node.node))
    (hclass : ∀ c, t.classScope = some c → node.node.meets Kind.isClassLike → Lost c.key)
    (hmethod : ∀ c, t.methodScope = some c → node.node.meets Kind.isFunctionLike → Lost c.key) :
    Kept Lost Filed (t.enter node) := by
  have hmeets : ∀ sort : Kind → Bool, sort node.kind → node.node.meets sort := by
    intro sort hsort
    rw [Node.meets_eq, show sort node.node.kind = true from hsort, Bool.true_or]
  refine (h.opened (fun hkind c hc => ?_) (fun hkind c hc => ?_) (sorts_loop hown)).defines
    enter_defines
  · exact hclass c hc (hmeets _ hkind)
  · exact hmethod c hc (hmeets _ hkind)

/-- What is remembered inside of a node is lost when there is another one of its sort. -/
theorem Remembers.taken (h : Remembers sort slot own)
    (hown : Sorts Lost Filed (t.className, node.node))
    (hlost : ∀ c, (slot t).2 = some c → node.node.meets sort → Lost c.key)
    (hc : (slot (t.enter node)).2 = some c) (hmeets : Node.meetsIn sort node.node.children) :
    Lost c.key := by
  rw [h.enter] at hc
  by_cases hkind : sort node.kind = true
  · rw [if_pos hkind] at hc
    obtain rfl := Option.some.inj hc
    have hkey := h.sorts hown hkind
    rwa [if_pos hmeets] at hkey
  · rw [if_neg hkind] at hc
    refine hlost c hc ?_
    rw [Node.meets_eq, hmeets, Bool.or_true]

/-- The scope of a node that is still remembered when the node is left is one that is filed. -/
theorem Remembers.filed (h : Remembers sort slot own)
    (hown : Sorts Lost Filed (t.className, node.node))
    (hslot : slot t' = if Node.meetsIn sort node.node.children then (none, none)
      else slot (t.enter node)) (hkind : sort node.kind) (hc : (slot t').2 = some c) :
    Filed c.key := by
  have hkey := h.sorts hown hkind
  rw [hslot, h.enter] at hc
  split at hc
  · cases hc
  · next hmeets =>
    obtain rfl := Option.some.inj hc
    rwa [if_neg hmeets] at hkey

theorem before_of_slot {slot slot' : Option Cursor × Option Closure} {taken : Bool}
    (h : slot' = if taken then (none, none) else slot) (hc : slot'.2 = some c) : slot.2 = some c := by
  rw [h] at hc
  split at hc
  · cases hc
  · exact hc

end Node

/-- What is about to be gone through is sorted into what is lost and what is filed, and a remembered
place that will be taken is lost. -/
structure Sorted (Lost Filed : String → Prop) (t : Tracker) (places : List (String × Node))
    (meets : (Kind → Bool) → Bool) : Prop where
  places : ∀ place ∈ places, Sorts Lost Filed place
  classes : ∀ c, t.classScope = some c → meets Kind.isClassLike → Lost c.key
  functions : ∀ c, t.methodScope = some c → meets Kind.isFunctionLike → Lost c.key

section Goes

variable {Lost Filed : String → Prop} {nodes : List Cursor} {inside : List (Cursor × Tracker)}

/-- **Going through a node keeps `Kept`** if going through its children does. -/
theorem Kept.through (h : Kept Lost Filed t)
    (hsorted : Sorted Lost Filed t (node.node.passed t.className) node.node.meets)
    (hgoes : Goes node.children (t.enter node) inside t')
    (hinside : Sorted Lost Filed (t.enter node)
        (Node.passedIn (t.enter node).className node.node.children)
        (Node.meetsIn · node.node.children) → Kept Lost Filed (t.enter node) → Kept Lost Filed t') :
    Kept Lost Filed (t'.leave node) := by
  obtain ⟨hplaces, hclass, hmethod⟩ := hsorted
  rw [Node.passed_eq] at hplaces
  obtain ⟨hown, hplaces⟩ := forall_mem_cons.mp hplaces
  have hslot {sort slot own} (hsort : Remembers sort slot own) : slot t'
      = if Node.meetsIn sort node.node.children then (none, none) else slot (t.enter node) :=
    Cursor.map_node_children ▸ hsort.goes hgoes
  refine Kept.leave (hinside ⟨?_, fun c hc => remembers_class.taken hown hclass hc,
      fun c hc => remembers_function.taken hown hmethod hc⟩ (h.enter hown hclass hmethod))
    (fun hkind c hc => remembers_class.filed hown (hslot remembers_class) hkind hc)
    (fun hkind c hc => remembers_function.filed hown (hslot remembers_function) hkind hc)
  rw [enter_className]
  exact hplaces

/-- **Going through nodes keeps `Kept`.** -/
theorem Goes.kept (hgoes : Goes nodes t inside t')
    (hsorted : Sorted Lost Filed t (Node.passedIn t.className (nodes.map Cursor.node))
      (Node.meetsIn · (nodes.map Cursor.node))) (h : Kept Lost Filed t) : Kept Lost Filed t' := by
  induction hgoes with
  | nil => exact h
  | skip hnamed _ ih =>
    simp only [map_cons, Node.passedIn, Node.meetsIn, hnamed] at hsorted
    exact ih hsorted h
  | @node c rest t u _ _ _ hnamed hinside _ ihinside ihrest =>
    obtain ⟨hplaces, hclass, hmethod⟩ := hsorted
    rw [map_cons, Node.passedIn, if_pos hnamed] at hplaces
    simp only [map_cons, Node.meetsIn, hnamed, Bool.true_and, Bool.or_eq_true] at hclass hmethod
    obtain ⟨hfirst, hlater⟩ := forall_mem_append.mp hplaces
    have hslot {sort slot own} (hsort : Remembers sort slot own) :
        slot (u.leave c) = if c.node.meets sort then (none, none) else slot t :=
      hsort.leave_slot (Cursor.map_node_children ▸ hsort.goes hinside)
    refine ihrest ⟨?_,
      fun d hd hmeets => hclass d (before_of_slot (hslot remembers_class) hd) (.inr hmeets),
      fun d hd hmeets => hmethod d (before_of_slot (hslot remembers_function) hd) (.inr hmeets)⟩ (h.through ⟨hfirst,
        fun d hd hmeets => hclass d hd (.inl hmeets), fun d hd hmeets => hmethod d hd (.inl hmeets)⟩
        hinside (Cursor.map_node_children ▸ ihinside))
    rw [className_eq, hslot remembers_class]
    cases hmeets : c.node.meets Kind.isClassLike <;> rw [hmeets] at hlater <;> exact hlater

end Goes

/-! ## A whole pass. -/

def Loses (root : Cursor) (key : String) : Prop :=
  ∃ place ∈ root.node.passed "", Opens place key ∧ place.2.holdsOwnSort

def Closes (root : Cursor) (key : String) : Prop :=
  key = Closure.global.key ∨ ∃ place ∈ root.node.passed "", Opens place key ∧ place.2.holdsOwnSort = false

/-- What a pass leaves pending belongs to declarations that hold another of their sort, and what it
files to global code and to all other scopes. -/
theorem finish_kept (callNames : List String) (path : String) (root : Cursor) (key x : String) :
    ((finish callNames path root).pending key x ≠ [] → Loses root key)
      ∧ ((finish callNames path root).scopes.entries key x ≠ [] → Closes root key) := by
  have hsorts : ∀ place ∈ root.node.passed "", Sorts (Loses root) (Closes root) place := by
    intro place hplace key hopens
    split
    · next hnests => exact ⟨place, hplace, hopens, hnests⟩
    · next hnests => exact .inr ⟨place, hplace, hopens, eq_false_of_ne_true hnests⟩
  let opening := (start callNames path).openScope .global
  have hopening : Kept (Loses root) (Closes root) opening := by
    refine ⟨fun key x hkey => ?_, fun key x hkey => absurd rfl hkey, fun _ hblock => nomatch hblock⟩
    rw [pending_openScope] at hkey
    exact absurd rfl hkey
  obtain ⟨_, u, hgoes, -, hvisit⟩ := exists_goes root opening
  have hvisited : Kept (Loses root) (Closes root) (u.leave root) :=
    hopening.through ⟨hsorts, fun _ hc => (nomatch hc), fun _ hc => (nomatch hc)⟩ hgoes
      (Cursor.map_node_children ▸ hgoes.kept)
  -- nothing is remembered when the root is left
  have hcovers : ∀ key, (u.leave root).Covers key → key = Closure.global.key := by
    have hslot {sort slot own c} (hsort : Remembers sort slot own) (hc : (slot (u.leave root)).2 = some c) :
        (slot opening).2 = some c :=
      before_of_slot (hsort.leave_slot (Cursor.map_node_children ▸ hsort.goes hgoes)) hc
    rintro key (hglobal | ⟨c, hc, _⟩ | ⟨c, hc, _⟩ | ⟨block, hblock, _⟩)
    · exact hglobal
    · cases hslot remembers_class hc
    · cases hslot remembers_function hc
    · rw [suffix_nil.mp (leave_suffix hgoes.loops)] at hblock
      cases hblock
  rw [finish, hvisit]
  refine ⟨fun hpending => ?_, fun hfiled => ?_⟩
  · obtain ⟨hbefore, hne⟩ := pending_flush hpending
    exact (hvisited.pending key x hbefore).resolve_left fun hcover => hne (hcovers key hcover)
  · rcases filed_flush hfiled with hbefore | hglobal
    · exact hvisited.filed key x hbefore
    · exact .inl hglobal

theorem pending_finish (callNames : List String) (path : String) {root : Cursor}
    (h : ∀ place ∈ root.node.passed "", place.2.holdsOwnSort = false) (key x : String) :
    (finish callNames path root).pending key x = [] := by
  refine Decidable.of_not_not fun hpending => ?_
  obtain ⟨place, hplace, _, hnests⟩ := (finish_kept callNames path root key x).1 hpending
  exact Bool.false_ne_true ((h place hplace).symm.trans hnests)

end Tracker

/-- **What a pass files.** Under every scope and identifier it files the first of the definitions
made for them, in order and each once; the others are lost. What is lost belongs to a class that
holds a class, or a function that holds a function; with no such nesting nothing is lost. -/
theorem run_files (callNames : List String) (path : String) (root : Cursor) :
    ∃ made, (Tracker.start callNames path).Makes made (Tracker.finish callNames path root)
      ∧ Tracker.run callNames path root
          = ((Tracker.finish callNames path root).scopes, (Tracker.finish callNames path root).events)
      ∧ made.map (·.serial) = List.range made.length
      ∧ (∀ key x, (Tracker.run callNames path root).1.entries key x
            ++ (Tracker.finish callNames path root).pending key x
          = made.filter fun b => b.closure = key && b.identifier = x)
      ∧ (∀ key x, (Tracker.finish callNames path root).pending key x ≠ [] →
          ∃ place ∈ root.node.passed "", Opens place key ∧ place.2.holdsOwnSort = true)
      ∧ (∀ key x, (Tracker.run callNames path root).1.entries key x ≠ [] → key = Closure.global.key
          ∨ ∃ place ∈ root.node.passed "", Opens place key ∧ place.2.holdsOwnSort = false)
      ∧ ((∀ place ∈ root.node.passed "", place.2.holdsOwnSort = false) →
          ∀ key x, (Tracker.finish callNames path root).pending key x = []
            ∧ (Tracker.run callNames path root).1.entries key x
              = made.filter fun b => b.closure = key && b.identifier = x) := by
  obtain ⟨made, hmade⟩ := Tracker.exists_makes (Tracker.finish_steps callNames path root)
  have hkept := Tracker.finish_kept callNames path root
  rw [Tracker.run_eq]
  have hentries : ∀ key x, (Tracker.finish callNames path root).scopes.entries key x
      ++ (Tracker.finish callNames path root).pending key x
        = made.filter fun b => b.closure = key && b.identifier = x :=
    fun key x => hmade.entries (Tracker.start_filing callNames path) key x
  refine ⟨made, hmade, rfl, ?_, hentries, fun key x => (hkept key x).1, fun key x => (hkept key x).2,
    fun hplain key x => ?_⟩
  · rw [hmade.serials.2, List.range_eq_range']
    rfl
  have hnone := Tracker.pending_finish callNames path hplain key x
  refine ⟨hnone, ?_⟩
  rw [← hentries, hnone, List.append_nil]

/-- A method that makes an object of a class without a name, which has a method of its own. -/
def nestedMethod : Cursor :=
  let text := "<?php class C \x7b function m() \x7b $a = 'x'; "
    ++ "$o = new class \x7b function n() \x7b\x7d \x7d; \x7d \x7d"
  .root 0 (parse text.toUTF8)

/-- **The variable of the outer method is lost**: it was defined, on the first line, and is not filed. -/
theorem run_loses_nestedMethod :
    ((Tracker.run [] "a.php" nestedMethod).1.entries "C::m" "$a").isEmpty = true
      ∧ ((Tracker.finish [] "a.php" nestedMethod).pending "C::m" "$a").map (·.line) = [1] := by
  decide +kernel

end QueryAudit.Scope
