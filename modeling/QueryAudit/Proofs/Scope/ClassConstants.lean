/-
  QueryAudit.Proofs.Scope.ClassConstants — how the constants of classes are filed

  A tree is clear about a name when only constants of classes go by it and no class stands inside of
  another. Then what a pass files under a class and a name are the constants of that name that the
  class declares, in order. Entering a node adds the constants that it declares itself (`enter_adds`),
  so going through nodes inside a class adds all that are declared in them (`Goes.inside`).

  Main results: `Goes.files`, `lookup_run`.
-/

import QueryAudit.Proofs.Php.Placing
import QueryAudit.Proofs.Record.Constants
import QueryAudit.Proofs.Scope.Closing

namespace QueryAudit.Scope

open Audit Php Record Text List Cursor Tracker

variable {x key name : String} {nodes more : List Node} {c d expr root : Cursor} {n body : Node}
  {closure : Closure}

/-! ## What goes by a name. -/

def startsWithName (n : Node) : Bool :=
  match n.parts with
  | first :: _ :: _ => n.nameText = "" || n.nameText = first.text
  | _ => true

/-- Nothing but constants goes by a name, and constants start with their names. -/
def onlyConstants (x : String) (n : Node) : Bool :=
  n.all fun d => !(identifiersOf d).contains x && (d.kind ≠ .constElement || startsWithName d)

/-- No constant declaration makes a constant of a name, and nothing is a class. -/
def lacks (x : String) (n : Node) : Bool :=
  n.all fun d => !d.kind.isClassLike
    && (d.kind ≠ .constDeclaration || (Node.under x d.declaredConstants).isEmpty)

def isBody (n : Node) : Bool := n.role = some "body" || n.kind = .declarationList

/-- A member of a class may declare constants of a name, and holds no more of them. -/
def isMember (x : String) (m : Node) : Bool :=
  if m.kind = .constDeclaration then m.children.all (lacks x) else lacks x m

def holdsMembers (x : String) (body : Node) : Bool :=
  !body.kind.isClassLike && body.kind ≠ .constDeclaration && body.children.all (isMember x)

/-- A part of a class is its body, or has no constants of a name. -/
def isPart (x : String) (part : Node) : Bool :=
  if isBody part then holdsMembers x part else lacks x part

/-- A class that declares constants of a name among its members only, and holds no class. Its name is
not the key of global code. -/
def holdsConstants (x : String) (n : Node) : Bool :=
  n.nameText ≠ Closure.global.key && (n.children.filter isBody).length ≤ 1
    && n.children.all (isPart x)

mutual

/-- Constants of a name are declared by members of classes only, and no class holds another. -/
def confines (x : String) : Node → Bool
  | ⟨kind, named, role, span, text, children⟩ =>
    let n : Node := ⟨kind, named, role, span, text, children⟩
    if kind.isClassLike then holdsConstants x n
    else (kind ≠ .constDeclaration || (Node.under x n.declaredConstants).isEmpty)
      && confinesAll x children

def confinesAll (x : String) : List Node → Bool
  | [] => true
  | n :: rest => confines x n && confinesAll x rest

end

/-- Only constants of classes go by a name, and no class holds another one. -/
def isClear (x : String) (n : Node) : Bool := onlyConstants x n && confines x n

theorem all_below {p : Node → Bool} (h : c.node.all p) (hbelow : c.Below d) : d.node.all p := by
  induction hbelow with
  | single hchild => exact Node.all_of_mem h (mem_children hchild).2.1
  | tail _ hchild ih => exact Node.all_of_mem ih (mem_children hchild).2.1

/-- The constants of a name that a node declares itself. -/
def ownConstants (x : String) (n : Node) : List Node :=
  if n.kind = .constDeclaration then Node.under x n.declaredConstants else []

/-- The constants of a name that are declared in a tree, in order. -/
def declaredIn (x : String) (n : Node) : List Node := n.nodes.flatMap (ownConstants x)

theorem declaredIn_eq : declaredIn x n = ownConstants x n ++ n.children.flatMap (declaredIn x) := by
  rw [declaredIn, Node.nodes_eq, flatMap_cons, Node.nodesIn_eq, flatMap_assoc]
  rfl

theorem ownConstants_of_childless (h : n.children = []) : ownConstants x n = [] := by
  rw [ownConstants, Node.declaredConstants, h]
  exact ite_self _

theorem declaredIn_of_childless (h : n.children = []) : declaredIn x n = [] := by
  rw [declaredIn_eq, ownConstants_of_childless h, h]
  rfl

section OnlyConstants

variable {x : String} {n : Node}

theorem onlyConstants_below (h : onlyConstants x c.node) (hbelow : c.Below d) :
    onlyConstants x d.node := all_below h hbelow

theorem notMem_identifiersOf (h : onlyConstants x n) : x ∉ identifiersOf n := by
  have hnode := Node.of_all h
  rw [Bool.and_eq_true] at hnode
  intro hmem
  rw [contains_iff_mem.mpr hmem] at hnode
  cases hnode.1

theorem startsWithName_of_onlyConstants (h : onlyConstants x n) (hkind : n.kind = .constElement) :
    startsWithName n := by
  have hnode := Node.of_all h
  rw [Bool.and_eq_true, Bool.or_eq_true] at hnode
  exact hnode.2.resolve_left fun hne => of_decide_eq_true hne hkind

end OnlyConstants

/-! ## Steps that spare a name. -/

namespace Tracker

variable {path : String} {t t' : Tracker}

/-- The expressions that definitions of a scope and identifier are bound to. -/
def shown (t : Tracker) (x key : String) : List (Option Node) :=
  (t.entries key x).map fun b => b.node.map node

/-- From one state to another nothing of a name is defined. -/
structure Spares (x : String) (t t' : Tracker) : Prop where
  shown : ∀ key, t'.shown x key = t.shown x key
  pending : ∀ key, t'.pending key x ≠ [] → t.pending key x ≠ []

instance (x : String) : IsPreorder Tracker (Spares x) where
  refl _ := ⟨fun _ => rfl, fun _ => id⟩
  trans _ _ _ h h' :=
    ⟨fun key => (h'.shown key).trans (h.shown key), fun key hkey => h.pending key (h'.pending key hkey)⟩

variable {x : String}

theorem spares_of_same (hentries : t'.entries = t.entries)
    (hpending : t'.pending = t.pending) : Spares x t t' :=
  ⟨fun key => by rw [shown, hentries, shown], fun key hkey => hpending ▸ hkey⟩

theorem spares_openScope (t : Tracker) (closure : Closure) : Spares x t (t.openScope closure) :=
  spares_of_same (entries_openScope t closure) pending_openScope

theorem spares_bind {b : Binding} (h : b.identifier ≠ x) : Spares x t (t.bind closure b) := by
  have hentries : ∀ key, (t.bind closure b).entries key x = t.entries key x := fun key => by
    rw [entries_bind, if_neg fun hsame => h hsame.2.symm, append_nil]
  refine ⟨fun key => by rw [shown, hentries, shown], fun key hkey => ?_⟩
  have hsame := hentries key
  rw [entries_eq] at hsame
  rwa [append_cancel_left hsame] at hkey

theorem spares_flush (ht : t.Filing path) (closure : Closure) : Spares x t (t.flush closure) :=
  ⟨fun key => by rw [shown, entries_flush t closure ht.names, shown],
    fun _ hkey => (pending_flush hkey).1⟩

theorem leave_spares (ht : t.Filing path) (node : Cursor) : Spares x t (t.leave node) :=
  leave_within (fun _ _ _ _ _ _ _ => spares_of_same rfl rfl) (spares_flush ht)

end Tracker

namespace Pass

open Tracker (Spares)

variable {node target : Cursor} {t t' : Tracker}

variable {x : String}

theorem spares_binds {line : Int} : Binds (fun _ => True) (fun c => onlyConstants x c.node)
    (fun _ => True) line (Spares x) where
  below _ _ _ _ := trivial
  fine _ _ := onlyConstants_below
  bind t closure _ _ _ _ hc hname _ := spares_bind fun heq =>
    notMem_identifiersOf hc (heq ▸ hname)
  known _ _ h := h fun _ _ _ _ _ _ => trivial

theorem spares_noteCall (node : Cursor) : KeepsTo (Spares x) (noteCall node) := by
  unfold noteCall
  refine keeps_get_bind fun t => ?_
  split
  · exact spares_of_same rfl rfl
  · exact refl_of (Spares x) t

end Pass

/-! ## Constant declarations. -/

namespace Tracker

variable {t : Tracker} {element : Cursor}

/-- From one state to another definitions of a name are made under one key, bound to the given
expressions. -/
structure Adds (x key : String) (found : List Node) (t t' : Tracker) : Prop where
  shown : ∀ k, t'.shown x k = t.shown x k ++ if k = key then found.map some else []
  pending : ∀ k, t'.pending k x ≠ [] → t.pending k x ≠ [] ∨ k = key ∧ found ≠ []

section Adds

variable {x key : String} {found more : List Node} {t t' t'' : Tracker}

theorem Spares.adds (h : Spares x t t') (key : String) : Adds x key [] t t' := by
  refine ⟨fun k => ?_, fun k hk => .inl (h.pending k hk)⟩
  rw [h.shown, map_nil, ite_self, append_nil]

theorem Adds.spares (h : Adds x key [] t t') : Spares x t t' := by
  refine ⟨fun k => ?_, fun k hk => (h.pending k hk).resolve_right fun hnone => hnone.2 rfl⟩
  rw [h.shown, map_nil, ite_self, append_nil]

theorem Adds.trans (h : Adds x key found t t') (h' : Adds x key more t' t'') :
    Adds x key (found ++ more) t t'' := by
  refine ⟨fun k => ?_, fun k hk => ?_⟩
  · rw [h'.shown, h.shown, append_assoc]
    by_cases hkey : k = key
    · rw [if_pos hkey, if_pos hkey, if_pos hkey, map_append]
    · rw [if_neg hkey, if_neg hkey, if_neg hkey, append_nil]
  · rcases h'.pending k hk with hk | ⟨hkey, hmore⟩
    · refine (h.pending k hk).imp_right fun ⟨hkey, hfound⟩ => ⟨hkey, ?_⟩
      exact fun hnil => hfound (append_eq_nil_iff.mp hnil).1
    · exact .inr ⟨hkey, fun hnil => hmore (append_eq_nil_iff.mp hnil).2⟩

theorem Adds.spared (h : Adds x key found t t') (h' : Spares x t' t'') : Adds x key found t t'' := by
  have hboth := h.trans (h'.adds key)
  rwa [append_nil] at hboth

end Adds

def constantScope (t : Tracker) : Closure :=
  if t.currentClass.isSome then t.classClosure else t.activeClosure

def bindConstant (t : Tracker) (element : Cursor) : Tracker :=
  match constantAt? element with
  | some (name, expr) => t.bind t.constantScope
      { identifier := name, closure := "", line := element.line, node := some expr }
  | none => t

theorem constantScope_bindConstant : (t.bindConstant element).constantScope = t.constantScope := by
  unfold bindConstant
  split <;> rfl

theorem bind_adds (t : Tracker) (closure : Closure) (b : Binding) (hnode : b.node = some expr)
    (x : String) :
    Adds x closure.key (Node.under x [(b.identifier, expr.node)]) t (t.bind closure b) := by
  by_cases hx : b.identifier = x
  · have hunder : Node.under x [(b.identifier, expr.node)] = [expr.node] := by simp [Node.under, hx]
    rw [hunder]
    refine ⟨fun k => ?_, fun k hk => (pending_bind hk).imp_right fun hkey => ⟨hkey, by simp⟩⟩
    rw [shown, entries_bind, map_append, hx]
    congr 1
    simp only [and_true]
    split
    · exact congrArg (fun node? => [node?.map node]) hnode
    · rfl
  · have hunder : Node.under x [(b.identifier, expr.node)] = [] := by simp [Node.under, hx]
    rw [hunder]
    exact (spares_bind hx).adds _

theorem bindConstant_adds :
    Adds x t.constantScope.key (Node.under x element.node.constantOf?.toList) t
      (t.bindConstant element) := by
  unfold bindConstant
  rw [← map_constantAt?]
  cases constantAt? element with
  | none => exact (refl_of (Spares x) t).adds _
  | some item =>
    obtain ⟨name, expr⟩ := item
    exact bind_adds t t.constantScope
      { identifier := name, closure := "", line := element.line, node := some expr } rfl x

theorem foldl_bindConstant_adds {elements : List Cursor} :
    ∀ t : Tracker, Adds x t.constantScope.key
      (Node.under x (elements.filterMap fun element => element.node.constantOf?)) t
      (elements.foldl bindConstant t) := by
  induction elements with
  | nil => exact fun t => (refl_of (Spares x) t).adds _
  | cons element elements ih =>
    intro t
    have hrest := ih (t.bindConstant element)
    rw [constantScope_bindConstant] at hrest
    have hboth := bindConstant_adds.trans hrest
    have hunder : Node.under x element.node.constantOf?.toList
        ++ Node.under x (elements.filterMap fun element => element.node.constantOf?)
        = Node.under x ((element :: elements).filterMap fun element => element.node.constantOf?) := by
      unfold Node.under
      rw [← map_append, ← filter_append, filterMap_cons]
      cases element.node.constantOf? <;> rfl
    rwa [hunder] at hboth

end Tracker

namespace Pass

variable {node : Cursor}

/-- Where constants start with their names, a declaration binds them one after another. -/
theorem registerConstants_eq
    (h : ∀ element ∈ node.allOfKind .constElement, startsWithName element.node) (t : Tracker) :
    registerConstants node t = .ok ⟨⟩ ((node.allOfKind .constElement).foldl bindConstant t) := by
  unfold registerConstants
  generalize node.allOfKind .constElement = elements at h ⊢
  induction elements generalizing t with
  | nil => rfl
  | cons element elements ih =>
    rw [forall_mem_cons] at h
    obtain ⟨hfirst, hrest⟩ := h
    rw [forIn_cons, foldl_cons, ← ih _ hrest, bindConstant, constantAt?]
    unfold startsWithName at hfirst
    rw [← map_node_parts] at hfirst
    rcases hparts : element.parts with _ | ⟨first, _ | ⟨second, others⟩⟩
    · rfl
    · rfl
    rw [hparts] at hfirst
    have hname : (if element.nameText = "" then first.text else element.nameText) = first.text := by
      split
      · rfl
      · next hne =>
        have hcases : element.node.nameText = "" ∨ element.node.nameText = first.node.text := by
          simpa using hfirst
        exact hcases.resolve_left hne
    dsimp only
    rw [hname]
    rfl

theorem after_registerConstants (h : onlyConstants x node.node) (t : Tracker) :
    Adds x t.constantScope.key (Node.under x node.node.declaredConstants) t
      (after (registerConstants node) t) := by
  have hnames : ∀ element ∈ node.allOfKind .constElement, startsWithName element.node := by
    intro element helement
    obtain ⟨hchild, hkind⟩ := mem_filter.mp helement
    exact startsWithName_of_onlyConstants (onlyConstants_below h (.of_child hchild))
      (of_decide_eq_true hkind)
  rw [after_of_ok (registerConstants_eq hnames t)]
  have hconstants : node.node.declaredConstants
      = (node.allOfKind .constElement).filterMap fun element => element.node.constantOf? := by
    rw [Node.declaredConstants, ← map_allOfKind, filterMap_map]
    rfl
  rw [hconstants]
  exact foldl_bindConstant_adds t

end Pass

namespace Tracker

variable {x path : String} {t : Tracker} {node : Cursor}

/-- **Entering a node** adds the constants of a name that it declares itself. -/
theorem enter_adds (h : onlyConstants x node.node) (t : Tracker) :
    Adds x t.constantScope.key (ownConstants x node.node) t (t.enter node) := by
  have hreport : ∀ t e, Spares x t (Tracker.report t e) := fun _ _ => spares_of_same rfl rfl
  by_cases hkind : node.node.kind = .constDeclaration
  · have henter : Pass.enter node = Pass.registerConstants node := by
      unfold Pass.enter
      rw [Cursor.kind, hkind]
    have hadds := Pass.after_registerConstants h t
    rw [ownConstants, if_pos hkind, enter, henter]
    cases hrun : Pass.registerConstants node t with
    | ok _ t' => rwa [after_of_ok hrun] at hadds
    | error e t' =>
      rw [after_of_error hrun] at hadds
      exact hadds.spared (hreport t' (.unhandled e))
  · rw [ownConstants, if_neg hkind]
    have hopened : Spares x t (t.opened node) :=
      Pass.opened_within (fun _ _ _ _ _ _ _ => spares_of_same rfl rfl) spares_openScope
        (fun _ _ _ => spares_of_same rfl rfl) t node
    refine (enter_of_after (fun t _ => hreport t _) (trans_of (Spares x) hopened ?_)).adds _
    exact Pass.binds_enter Pass.spares_binds trivial h t (fun _ => spares_of_same rfl rfl)
      (fun hconst => absurd hconst hkind) (fun _ => Pass.spares_noteCall node) (fun _ => trivial)
      fun _ _ => trivial

theorem onlyConstants_children (h : onlyConstants x n) :
    ∀ child ∈ n.children, onlyConstants x child := fun _ => Node.all_of_mem h

/-! ## Inside a class. -/

theorem constantScope_of_classSlot (h : t.classSlot = (some c, some closure)) :
    t.constantScope = closure := by
  obtain ⟨hclass, hscope⟩ := Prod.mk.inj h
  rw [constantScope, hclass, Option.isSome_some, classClosure, hscope]
  rfl

/-- A tree inside a class: only constants go by a name, nothing is a class, and words and punctuation
have nothing below them. -/
structure Inner (x : String) (n : Node) : Prop where
  only : onlyConstants x n
  solid : n.all Node.isSolid
  plain : ∀ d ∈ n.nodes, d.kind.isClassLike = false

theorem Inner.child (h : Inner x n) {m : Node} (hm : m ∈ n.children) : Inner x m where
  only := onlyConstants_children h.only m hm
  solid := Node.all_of_mem h.solid hm
  plain d hd := h.plain d (Node.nodes_eq n ▸ mem_cons_of_mem _ (Node.mem_nodesIn.mpr ⟨m, hm, hd⟩))

theorem children_of_unnamed (h : n.all Node.isSolid) (hnamed : n.named = false) : n.children = [] := by
  have hsolid := Node.of_all h
  rw [Node.isSolid, hnamed] at hsolid
  exact isEmpty_iff.mp hsolid

/-- Going through nodes inside a class adds the constants that are declared in them. -/
theorem Goes.inside {nodes : List Cursor} {inside : List (Cursor × Tracker)}
    (h : Goes nodes t inside t') (ht : t.Filing path) (hslot : t.classSlot = (some c, some closure))
    (hnodes : ∀ d ∈ nodes, Inner x d.node) : t'.classSlot = (some c, some closure)
      ∧ Adds x closure.key ((nodes.map Cursor.node).flatMap (declaredIn x)) t t' := by
  induction h with
  | nil t => exact ⟨hslot, (refl_of (Spares x) t).adds _⟩
  | skip hnamed _ ih =>
    obtain ⟨hd, hrest⟩ := forall_mem_cons.mp hnodes
    rw [map_cons, flatMap_cons, declaredIn_of_childless (children_of_unnamed hd.solid hnamed)]
    exact ih ht hslot hrest
  | @node d _ t u _ _ _ _ hinside _ ihinside ihrest =>
    obtain ⟨hd, hrest⟩ := forall_mem_cons.mp hnodes
    have hkind : d.kind.isClassLike = false := hd.plain _ (Node.mem_nodes_self _)
    have hentered := ht.steps (enter_steps t d)
    have hdone := hentered.steps hinside.steps
    have hown := enter_adds hd.only t
    rw [constantScope_of_classSlot hslot] at hown
    obtain ⟨hu, hadds⟩ := ihinside hentered (by rw [enter_classSlot, hkind]; exact hslot)
      fun child hchild => hd.child (mem_children hchild).2.1
    obtain ⟨hlast, hmore⟩ := ihrest (hdone.steps (leave_steps u d))
      (by rw [leave_classSlot, hkind]; exact hu) hrest
    rw [map_node_children] at hadds
    rw [map_cons, flatMap_cons, declaredIn_eq]
    exact ⟨hlast, ((hown.trans hadds).spared (leave_spares hdone d)).trans hmore⟩

end Tracker

/-- The members of a class with one body are those of its body. -/
theorem members_eq (h : (n.children.filter isBody).length ≤ 1) :
    n.members = (n.children.filter isBody).flatMap Node.parts := by
  have hbody : ∀ {p : Node → Bool} {b : Node}, (∀ d, p d → isBody d) →
      n.children.find? p = some b → n.children.filter isBody = [b] := by
    intro p b hp hfind
    have hmem : b ∈ n.children.filter isBody :=
      mem_filter.mpr ⟨mem_of_find?_eq_some hfind, hp b (find?_some hfind)⟩
    match hlist : n.children.filter isBody with
    | [] => rw [hlist] at hmem; cases hmem
    | [d] => rw [hlist] at hmem; rw [mem_singleton.mp hmem]
    | _ :: _ :: _ => rw [hlist] at h; exact absurd h (by simp)
  unfold Node.members
  cases hrole : n.inRole? "body" with
  | some b =>
    rw [hbody (fun d hd => by simp [isBody, of_decide_eq_true hd]) hrole]
    exact (flatMap_singleton Node.parts b).symm
  | none =>
    cases hkind : n.ofKind? .declarationList with
    | some b =>
      rw [hbody (fun d hd => by simp [isBody, of_decide_eq_true hd]) hkind]
      exact (flatMap_singleton Node.parts b).symm
    | none =>
      have hnone : n.children.filter isBody = [] := by
        refine filter_eq_nil_iff.mpr fun d hd hbody => ?_
        have hrole := find?_eq_none.mp hrole d hd
        have hkind := find?_eq_none.mp hkind d hd
        rw [isBody, Bool.or_eq_true] at hbody
        exact hbody.elim hrole hkind
      rw [hnone]
      rfl

/-! ## Whole trees. -/

/-- The constants of a name in the classes that a key stands for. -/
def classConstants (x key : String) (nodes : List Node) : List Node :=
  (nodes.filter fun d => d.kind.isClassLike && d.nameText = key).flatMap (declaredIn x)

theorem classConstants_append :
    classConstants x key (nodes ++ more) = classConstants x key nodes ++ classConstants x key more := by
  rw [classConstants, filter_append, flatMap_append]
  rfl

theorem classConstants_of_plain (h : ∀ d ∈ nodes, d.kind.isClassLike = false) :
    classConstants x key nodes = [] := by
  rw [classConstants, filter_eq_nil_iff.mpr fun d hd => by simp [h d hd]]
  rfl

section Inside

variable {x : String} {n : Node}

theorem holdsConstants_iff : holdsConstants x n ↔ n.nameText ≠ Closure.global.key
    ∧ (n.children.filter isBody).length ≤ 1 ∧ ∀ part ∈ n.children, isPart x part := by
  rw [holdsConstants, Bool.and_eq_true, Bool.and_eq_true, decide_eq_true_eq, decide_eq_true_eq,
    all_eq_true, and_assoc]

theorem plain_of_children (hkind : n.kind.isClassLike = false)
    (h : ∀ m ∈ n.children, ∀ d ∈ m.nodes, d.kind.isClassLike = false) :
    ∀ d ∈ n.nodes, d.kind.isClassLike = false := by
  rw [Node.nodes_eq]
  refine forall_mem_cons.mpr ⟨hkind, fun d hd => ?_⟩
  obtain ⟨m, hm, hd⟩ := Node.mem_nodesIn.mp hd
  exact h m hm d hd

theorem of_lacks (h : lacks x n) :
    (∀ d ∈ n.nodes, d.kind.isClassLike = false) ∧ declaredIn x n = [] := by
  have hnodes : ∀ d ∈ n.nodes, d.kind.isClassLike = false ∧ ownConstants x d = [] := by
    intro d hd
    have hnode := Node.all_iff.mp h d hd
    rw [Bool.and_eq_true, Bool.not_eq_true', Bool.or_eq_true, decide_eq_true_eq] at hnode
    refine ⟨hnode.1, ite_eq_right_iff.mpr fun hkind => ?_⟩
    exact isEmpty_iff.mp (hnode.2.resolve_left fun hne => hne hkind)
  exact ⟨fun d hd => (hnodes d hd).1, flatMap_eq_nil_iff.mpr fun d hd => (hnodes d hd).2⟩

theorem of_isMember (h : isMember x n) :
    (∀ d ∈ n.nodes, d.kind.isClassLike = false) ∧ declaredIn x n = ownConstants x n := by
  unfold isMember at h
  split at h
  · next hkind =>
    rw [all_eq_true] at h
    refine ⟨plain_of_children (by rw [hkind]; rfl) fun m hm => (of_lacks (h m hm)).1, ?_⟩
    rw [declaredIn_eq, flatMap_eq_nil_iff.mpr fun m hm => (of_lacks (h m hm)).2, append_nil]
  · next hkind =>
    refine ⟨(of_lacks h).1, ?_⟩
    rw [(of_lacks h).2, ownConstants, if_neg hkind]

theorem of_isPart (h : isPart x n) : (∀ d ∈ n.nodes, d.kind.isClassLike = false)
    ∧ declaredIn x n = if isBody n then n.children.flatMap (ownConstants x) else [] := by
  unfold isPart at h
  split at h
  · next hbody =>
    rw [holdsMembers, Bool.and_eq_true, Bool.and_eq_true, Bool.not_eq_true', decide_eq_true_eq,
      all_eq_true] at h
    obtain ⟨⟨hclass, hkind⟩, hmembers⟩ := h
    refine ⟨plain_of_children hclass fun m hm => (of_isMember (hmembers m hm)).1, ?_⟩
    rw [if_pos hbody, declaredIn_eq, ownConstants, if_neg hkind]
    exact flatMap_congr fun m hm => (of_isMember (hmembers m hm)).2
  · next hbody =>
    rw [if_neg hbody]
    exact of_lacks h

theorem plain_of_holdsConstants (h : holdsConstants x n) :
    ∀ d ∈ Node.nodesIn n.children, d.kind.isClassLike = false := by
  intro d hd
  obtain ⟨part, hpart, hd⟩ := Node.mem_nodesIn.mp hd
  exact (of_isPart ((holdsConstants_iff.mp h).2.2 part hpart)).1 d hd

/-- A class that holds no other is the only one of its tree. -/
theorem classConstants_of_holdsConstants (h : holdsConstants x n)
    (hclass : n.kind.isClassLike) (key : String) :
    classConstants x key n.nodes = if key = n.nameText then declaredIn x n else [] := by
  rw [Node.nodes_eq, ← singleton_append, classConstants_append,
    classConstants_of_plain (plain_of_holdsConstants h)]
  split
  · next hkey => simp [classConstants, hclass, hkey]
  · next hkey => simp [classConstants, Ne.symm hkey]

theorem flatMap_filter_of_nil {p : Node → Bool} {f : Node → List Node}
    (h : ∀ n ∈ nodes, p n = false → f n = []) : (nodes.filter p).flatMap f = nodes.flatMap f := by
  induction nodes with
  | nil => rfl
  | cons n nodes ih =>
    rw [forall_mem_cons] at h
    rw [filter_cons, flatMap_cons, ← ih h.2]
    split
    · rfl
    · next hp => rw [h.1 (eq_false_of_ne_true hp), nil_append]

theorem under_constants : Node.under x n.constants = n.members.flatMap (ownConstants x) := by
  rw [Node.under, Node.constants, filter_flatMap, map_flatMap,
    ← flatMap_filter_of_nil (f := ownConstants x) fun m _ hkind => if_neg (of_decide_eq_false hkind)]
  refine flatMap_congr fun m hm => ?_
  exact (if_pos (of_decide_eq_true (mem_filter.mp hm).2)).symm

/-- The constants that are declared in a class are those of its members. -/
theorem declaredIn_of_holdsConstants (h : holdsConstants x n) (hclass : n.kind.isClassLike)
    (hsolid : ∀ part ∈ n.children, ∀ m ∈ part.children, m.isSolid) :
    declaredIn x n = Node.under x n.constants := by
  obtain ⟨-, hbodies, hparts⟩ := holdsConstants_iff.mp h
  have hown : ownConstants x n = [] := if_neg fun hkind => by rw [hkind] at hclass; cases hclass
  have hpart : ∀ part ∈ n.children, declaredIn x part
      = if isBody part then part.children.flatMap (ownConstants x) else [] := fun part hpart =>
    (of_isPart (hparts part hpart)).2
  rw [declaredIn_eq, hown, nil_append, under_constants, members_eq hbodies, flatMap_assoc,
    ← flatMap_filter_of_nil (p := isBody) fun part hmem hbody => by rw [hpart part hmem, hbody]; rfl]
  refine flatMap_congr fun body hbody => ?_
  obtain ⟨hmem, hbody⟩ := mem_filter.mp hbody
  rw [hpart body hmem, if_pos hbody, Node.parts, flatMap_filter_of_nil]
  intro m hm hpart
  rw [Bool.and_eq_false_iff, decide_eq_false_iff_not, Decidable.not_not] at hpart
  rcases hpart with hnamed | hkind
  · have hchildless := hsolid body hmem m hm
    rw [Node.isSolid, hnamed, Bool.false_or, List.isEmpty_iff] at hchildless
    exact ownConstants_of_childless hchildless
  · exact if_neg (by rw [hkind]; decide)

theorem confines_eq : confines x n = if n.kind.isClassLike then
    holdsConstants x n else (n.kind ≠ .constDeclaration
      || (Node.under x n.declaredConstants).isEmpty) && n.children.all (confines x) := by
  have hall : ∀ nodes, confinesAll x nodes = nodes.all (confines x) := by
    intro nodes
    induction nodes with
    | nil => rw [confinesAll]; rfl
    | cons n nodes ih => rw [confinesAll, ih]; rfl
  cases n
  rw [confines, hall]

theorem holdsConstants_of_confines (h : confines x n) :
    ∀ d ∈ n.nodes, d.kind.isClassLike → holdsConstants x d := by
  induction n using Node.induct with
  | step n ih =>
    rw [confines_eq] at h
    rw [Node.nodes_eq]
    split at h
    · refine forall_mem_cons.mpr ⟨fun _ => h, fun d hd hclass => ?_⟩
      exact absurd hclass (plain_of_holdsConstants h d hd ▸ Bool.false_ne_true)
    · next hkind =>
      rw [Bool.and_eq_true, all_eq_true] at h
      refine forall_mem_cons.mpr ⟨fun hclass => absurd hclass hkind, fun d hd => ?_⟩
      obtain ⟨m, hm, hd⟩ := Node.mem_nodesIn.mp hd
      exact ih m hm (h.2 m hm) d hd

end Inside

namespace Tracker

/-- A step adds definitions of a name under every key, and leaves none to be filed later if there
were none. -/
structure Files (x : String) (found : String → List Node) (t t' : Tracker) : Prop where
  shown : ∀ key, t'.shown x key = t.shown x key ++ (found key).map some
  pending : (∀ key, t.pending key x = []) → ∀ key, t'.pending key x = []

variable {x path : String} {t t' t'' : Tracker} {found more : String → List Node} {node : Cursor}

theorem Spares.files (h : Spares x t t') : Files x (fun _ => []) t t' := by
  refine ⟨fun key => ?_, fun hnone key => ?_⟩
  · rw [h.shown, map_nil, append_nil]
  · exact Classical.not_not.mp fun hne => h.pending key hne (hnone key)

theorem Files.trans (h : Files x found t t') (h' : Files x more t' t'') :
    Files x (fun key => found key ++ more key) t t'' :=
  ⟨fun key => by rw [h'.shown, h.shown, map_append, append_assoc],
    fun hnone => h'.pending (h.pending hnone)⟩

/-- Going through a class files the constants that are declared in it. -/
theorem files_class (ht : t.Filing path) (hclass : node.kind.isClassLike)
    (honly : onlyConstants x node.node) (hholds : holdsConstants x node.node)
    (hsolid : node.node.all Node.isSolid) {inside : List (Cursor × Tracker)}
    (hgoes : Goes node.children (t.enter node) inside t') :
    Files x (fun key => if key = node.nameText then declaredIn x node.node else []) t
      (t'.leave node) := by
  have hown : ownConstants x node.node = [] := by
    refine if_neg fun hkind => ?_
    rw [Cursor.kind, hkind] at hclass
    cases hclass
  have henter := enter_adds honly t
  rw [hown] at henter
  have hentered := ht.steps (enter_steps t node)
  obtain ⟨hslot, hadds⟩ := hgoes.inside hentered (by rw [enter_classSlot, if_pos hclass])
    fun child hchild => by
      have hmem := (mem_children hchild).2.1
      exact ⟨onlyConstants_children honly _ hmem, Node.all_of_mem hsolid hmem, fun d hd =>
        plain_of_holdsConstants hholds d (Node.mem_nodesIn.mpr ⟨_, hmem, hd⟩)⟩
  replace hadds := (henter.spares.adds _).trans hadds
  rw [map_node_children, ← hown, ← declaredIn_eq] at hadds
  refine ⟨fun key => ?_, fun hnone key => ?_⟩
  · rw [(leave_spares (hentered.steps hgoes.steps) node).shown, hadds.shown]
    congr 1
    show (if key = node.nameText then _ else _) = map some (if key = node.nameText then _ else _)
    split <;> rfl
  · -- what was added goes by the name of the class, and is filed when the class is left
    by_contra hne
    rw [leave, if_pos hclass, (Prod.mk.inj hslot).2] at hne
    have hflushed : (t'.flush (.ofClass node.nameText)).pending key x ≠ [] := hne
    obtain ⟨hbefore, hkey⟩ := pending_flush hflushed
    rcases hadds.pending key hbefore with hbefore | ⟨hkey', _⟩
    · exact hbefore (hnone key)
    · exact hkey hkey'

/-- Going through a node files the constants that its classes declare, if going through its children
does. -/
theorem files_node (ht : t.Filing path) (honly : onlyConstants x node.node)
    (hconfines : confines x node.node) (hsolid : node.node.all Node.isSolid)
    {inside : List (Cursor × Tracker)} (hgoes : Goes node.children (t.enter node) inside t')
    (hinside : (t.enter node).Filing path → (∀ c ∈ node.children, onlyConstants x c.node) →
      (∀ c ∈ node.children, confines x c.node) → (∀ c ∈ node.children, c.node.all Node.isSolid) →
      Files x (fun key => classConstants x key (Node.nodesIn (node.children.map Cursor.node)))
        (t.enter node) t') :
    Files x (fun key => classConstants x key node.node.nodes) t (t'.leave node) := by
  rw [confines_eq] at hconfines
  split at hconfines
  · next hclass =>
    simp only [classConstants_of_holdsConstants hconfines hclass]
    exact files_class ht hclass honly hconfines hsolid hgoes
  · next hclass =>
    rw [Bool.and_eq_true, Bool.or_eq_true, decide_eq_true_eq, all_eq_true] at hconfines
    obtain ⟨hown, hinner⟩ := hconfines
    have hnone : ownConstants x node.node = [] := by
      unfold ownConstants
      split
      · next hkind => exact isEmpty_iff.mp (hown.resolve_left fun hne => hne hkind)
      · rfl
    have hadds := enter_adds honly t
    rw [hnone] at hadds
    have hcons : ∀ key, classConstants x key node.node.nodes
        = classConstants x key (Node.nodesIn node.node.children) := fun key => by
      rw [Node.nodes_eq, classConstants, filter_cons_of_neg (by simp [hclass]), classConstants]
    have hentered := ht.steps (enter_steps t node)
    have hleave := leave_spares (x := x) (hentered.steps hgoes.steps) node
    have hinside := hinside hentered (fun c hc => onlyConstants_children honly _ (mem_children hc).2.1)
      (fun c hc => hinner _ (mem_children hc).2.1)
      fun c hc => Node.all_of_mem hsolid (mem_children hc).2.1
    have hall := (hadds.spares.files.trans hinside).trans hleave.files
    simpa only [nil_append, append_nil, hcons, map_node_children] using hall

/-- **What going through clear trees files under a name** are the constants of that name that their
classes declare. -/
theorem Goes.files {nodes : List Cursor} {inside : List (Cursor × Tracker)}
    (h : Goes nodes t inside t') (ht : t.Filing path) (honly : ∀ c ∈ nodes, onlyConstants x c.node)
    (hconfines : ∀ c ∈ nodes, confines x c.node) (hsolid : ∀ c ∈ nodes, c.node.all Node.isSolid) :
    Files x (fun key => classConstants x key (Node.nodesIn (nodes.map Cursor.node))) t t' := by
  induction h with
  | nil t => exact (refl_of (Spares x) t).files
  | @skip c _ _ _ _ hnamed _ ih =>
    rw [forall_mem_cons] at honly hconfines hsolid
    have hnone := children_of_unnamed hsolid.1 hnamed
    -- words and punctuation are passed over, and have no constants
    have hempty : ∀ key, classConstants x key c.node.nodes = [] := by
      refine fun key => flatMap_eq_nil_iff.mpr fun d hd => ?_
      rw [Node.nodes_eq, hnone] at hd
      obtain rfl := mem_singleton.mp (mem_of_mem_filter hd)
      exact declaredIn_of_childless hnone
    simp only [map_cons, Node.nodesIn, classConstants_append, hempty, nil_append]
    exact ih ht honly.2 hconfines.2 hsolid.2
  | @node c _ t u _ _ _ _ hinside _ ihinside ihrest =>
    rw [forall_mem_cons] at honly hconfines hsolid
    have hnode := files_node ht honly.1 hconfines.1 hsolid.1 hinside ihinside
    have hdone := ((ht.steps (enter_steps t c)).steps hinside.steps).steps (leave_steps u c)
    simp only [map_cons, Node.nodesIn, classConstants_append]
    exact hnode.trans (ihrest hdone honly.2 hconfines.2 hsolid.2)

/-- What a pass over a clear tree leaves filed under a name. -/
theorem entries_run {callNames : List String} (hclear : isClear x root.node)
    (hsolid : root.node.all Node.isSolid) (key : String) :
    ((run callNames path root).1.entries key x).map (fun b => b.node.map Cursor.node)
      = (classConstants x key root.node.nodes).map some := by
  rw [isClear, Bool.and_eq_true] at hclear
  let opening := (start callNames path).openScope .global
  have hopening : opening.Filing path := (start_filing callNames path).step (.openScope _ .global)
  obtain ⟨_, u, hgoes, -, hvisit⟩ := exists_goes root opening
  have hvisited := files_node hopening hclear.1 hclear.2 hsolid hgoes hgoes.files
  rw [← hvisit] at hvisited
  have hflushed := (spares_flush (x := x) (hopening.steps (visit_steps root opening)) .global).files
  have hall := hvisited.trans hflushed
  have hpending : ∀ k, opening.pending k x = [] := by
    intro k
    rw [pending_openScope]
    rfl
  have hshown := hall.shown key
  rw [shown, entries_eq, hall.pending hpending key, append_nil, append_nil, shown,
    entries_openScope] at hshown
  rw [run_eq]
  exact hshown

end Tracker

theorem lastBefore_none {entries : List Binding} : lastBefore entries none = entries.getLast? := by
  rw [lastBefore, ← head?_reverse]
  cases entries.reverse <;> rfl

/-- A class is looked through first, and then global code. -/
theorem lookup_ofClass {s : FileScopes} : s.lookup (.ofClass name) x none
    = ((s.entries name x).getLast?).or (s.entries Closure.global.key x).getLast? := by
  have hlevels : s.lookup (.ofClass name) x none
      = [Closure.ofClass name, Closure.global].findSome? fun c => lastBefore (s.entries c.key x) none :=
    rfl
  have hkey : (Closure.ofClass name).key = name := rfl
  rw [hlevels, findSome?_cons, findSome?_cons, lastBefore_none, lastBefore_none, hkey]
  cases (s.entries name x).getLast? with
  | some b => rfl
  | none => cases (s.entries Closure.global.key x).getLast? <;> rfl

/-- **Looking a constant up in a class finds what the class declares**, in a clear tree in which no
other class goes by its name. -/
theorem lookup_run {x path : String} (callNames : List String) {root : Cursor} {c : Node}
    (hclear : isClear x root.node) (hsolid : root.node.all Node.isSolid)
    (honly : root.node.nodes.filter (fun d => d.kind.isClassLike && d.nameText = c.nameText) = [c]) :
    ((run callNames path root).1.lookup (.ofClass c.nameText) x none).map (fun b => b.node.map node)
      = (c.constant? x).map some := by
  have hconfines : confines x root.node := (Bool.and_eq_true_iff.mp hclear).2
  obtain ⟨hc, hkind⟩ := mem_filter.mp (honly ▸ mem_singleton_self c)
  rw [Bool.and_eq_true] at hkind
  have hclass : classConstants x c.nameText root.node.nodes = Node.under x c.constants := by
    rw [classConstants, honly, flatMap_singleton]
    refine declaredIn_of_holdsConstants (holdsConstants_of_confines hconfines c hc hkind.1) hkind.1
      fun part hpart m hm => ?_
    exact Node.all_iff.mp hsolid m (Node.mem_nodes_of_child hm (Node.mem_nodes_of_child hpart hc))
  have hglobal : classConstants x Closure.global.key root.node.nodes = [] := by
    rw [classConstants, filter_eq_nil_iff.mpr]
    · rfl
    · intro d hd hkey
      rw [Bool.and_eq_true, decide_eq_true_eq] at hkey
      exact (holdsConstants_iff.mp (holdsConstants_of_confines hconfines d hd hkey.1)).1 hkey.2
  have hentries : ∀ key, ((run callNames path root).1.entries key x).map
      (fun b => b.node.map node) = (classConstants x key root.node.nodes).map some :=
    entries_run hclear hsolid
  have hinClass := hentries c.nameText
  have hinGlobal := hentries Closure.global.key
  rw [hclass] at hinClass
  rw [hglobal, map_nil, map_eq_nil_iff] at hinGlobal
  rw [lookup_ofClass, hinGlobal, getLast?_nil, Option.or_none, ← getLast?_map, hinClass,
    getLast?_map]
  rfl

end QueryAudit.Scope
