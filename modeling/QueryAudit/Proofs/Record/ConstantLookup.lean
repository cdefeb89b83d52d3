/-
  QueryAudit.Proofs.Record.ConstantLookup — two ways to a class constant

  Resolving goes through the definitions that passes have filed, evaluating walks from record to
  record, and both notice in their own way that a class descends from itself. Each finds the nearest
  class that declares the constant.

  Main results: `Run.Coherent.declaringClass?`, `Run.Coherent.memberFrom`.
-/

import QueryAudit.Proofs.Record.Coherence
import QueryAudit.Proofs.Scope.ClassConstants

namespace QueryAudit.Scope

open Php Text

variable {scope x : String}

/-! ## The class around a node. -/

/-- The class of a scope is the innermost one around it. -/
theorem className_closureAbove {above : List Cursor} :
    ∀ method, (closureAbove above method).className
      = ((above.find? (·.kind.isClassLike)).map Cursor.nameText).getD "" := by
  induction above with
  | nil =>
    intro method
    cases method <;> rfl
  | cons c above ih =>
    intro method
    unfold closureAbove
    rw [List.find?_cons]
    cases hclass : c.kind.isClassLike with
    | true =>
      rw [Tracker.isFunctionLike_of_isClassLike hclass, Bool.false_and, if_pos rfl]
      cases method <;> rfl
    | false =>
      split
      · exact ih _
      · exact ih _

/-! ## References. -/

/-- The class that a reference to a constant names, and the name of the constant. -/
def constantParts? (n : Node) : Option (String × String) :=
  match n.parts with
  | first :: second :: rest => some (first.text, ((rest.getLast?).getD second).text)
  | _ => none

theorem nodeKey?_constant {n : Node} (hkind : n.kind = .classConstantAccessExpression)
    (hparts : constantParts? n = some (scope, x)) : nodeKey? n = some (memberKey scope x) := by
  obtain ⟨kind, named, role, span, text, children⟩ := n
  obtain rfl : kind = .classConstantAccessExpression := hkind
  rw [nodeKey?]
  unfold constantParts? at hparts
  generalize Node.parts _ = parts at hparts ⊢
  match parts, hparts with
  | first :: second :: rest, hparts =>
    obtain ⟨rfl, rfl⟩ := Prod.mk.inj (Option.some.inj hparts)
    rfl

theorem constantParts?_parts {c : Cursor} (h : constantParts? c.node = some (scope, x)) :
    ∃ first second rest,
      c.parts = first :: second :: rest ∧ first.text = scope
        ∧ ((rest.getLast?).getD second).text = x := by
  unfold constantParts? at h
  rw [← Cursor.map_node_parts] at h
  match hparts : c.parts with
  | [] =>
    rw [hparts] at h
    cases h
  | [_] =>
    rw [hparts] at h
    cases h
  | first :: second :: rest =>
    rw [hparts] at h
    obtain ⟨hscope, hx⟩ := Prod.mk.inj (Option.some.inj h)
    refine ⟨first, second, rest, rfl, hscope, ?_⟩
    rw [← hx, List.getLast?_map]
    cases rest.getLast? <;> rfl

end QueryAudit.Scope

namespace QueryAudit.Record

open Php Text Scope

/-- The walk from record to record for the constant that a reference names. -/
def constantWalk (context : LiteralContext) (node : Cursor) : Audit (Option (ClassDecl × Cursor)) := do
  match node.parts with
  | first :: second :: rest =>
    let name := ((rest.getLast?).getD second).text
    if name = "class" then return none
    let owner ← constantOwner? context first.text
    declaringClass? name (← get).ancestry [] owner
  | _ => return none

end QueryAudit.Record

namespace QueryAudit

open Audit Php Record Scope Text

variable {c : ClassAt} {found : Option Binding} {key name : String} {n number : Nat} {r : Run}
  {seen : List String}

/-- What the class is filed under that a reference in a class is followed from: the class itself, the
one it extends, or the one that is named. -/
def chainStart (scope : String) (c : ClassAt) : String :=
  match lower scope with
  | "self" | "static" => c.key
  | "parent" => c.parentKey
  | _ => classKey scope

/-! ## Walking from record to record. -/

section Walking

variable {p : Project} {x : String}

/-- A class by an optional name is found exactly when the project has it. -/
theorem Run.Coherent.classNamed? (hr : r.Coherent p) (hapart : p.Apart) {file : String}
    (hfile : file ∈ p.files) (name : Option String) :
    ∃ found t, Record.classNamed? name file r = .ok found t ∧ t.Coherent p
      ∧ p.Finds (optionalKey name) found := by
  unfold Record.classNamed?
  cases name with
  | none => exact ⟨none, r, rfl, hr, p.classOf?_empty⟩
  | some name =>
    by_cases hname : name = ""
    · subst hname
      refine ⟨none, r, rfl, hr, ?_⟩
      show p.classOf? (classKey "") = none
      exact p.classOf?_empty
    · rw [Option.filter_some_pos (by simpa using hname)]
      exact hr.findClass hapart hfile name

/-- What a walk from a class finds: nothing but the nearest declaration, and that one if it is within
reach and no class on the way was passed before. -/
structure Project.Walked {α : Type} (p : Project) (x key : String) (steps : Nat) (Fresh : Nat → Prop)
    (Is : ClassAt → Node → α → Prop) (found : Option α) : Prop where
  sound : ∀ a, found = some a → ∃ n c e, p.Nearest x n key c e ∧ Is c e a
  complete : ∀ n c e, p.Nearest x n key c e → n < steps → Fresh n → found ≠ none

namespace Project.Walked

variable {α : Type} {key : String} {steps : Nat} {Fresh Fresh' : Nat → Prop}
  {Is : ClassAt → Node → α → Prop} {c : ClassAt} {e : Node} {a : α} {found : Option α}

theorem nothing (h : p.classOf? key = none) : p.Walked x key steps Fresh Is none := by
  refine ⟨nofun, fun n c e hnear _ _ => ?_⟩
  obtain ⟨d, hd⟩ := hnear.exists_class
  rw [h] at hd
  cases hd

theorem again (h : ∀ n c e, p.Nearest x n key c e → ¬ Fresh n) : p.Walked x key steps Fresh Is none :=
  ⟨nofun, fun n c e hnear _ hfresh => absurd hfresh (h n c e hnear)⟩

theorem here (hclass : p.classOf? key = some c) (hconstant : c.node.constant? x = some e)
    (his : Is c e a) : p.Walked x key steps Fresh Is (some a) := by
  refine ⟨fun b hb => ?_, fun _ _ _ _ _ _ => nofun⟩
  obtain rfl := Option.some.inj hb
  exact ⟨0, c, e, .here hclass hconstant, his⟩

/-- A walk goes on where a class does not declare the constant. -/
theorem up (hclass : p.classOf? key = some c) (hconstant : c.node.constant? x = none)
    (hfresh : ∀ n c' e, p.Nearest x (n + 1) key c' e → Fresh (n + 1) → Fresh' n)
    (h : p.Walked x c.parentKey steps Fresh' Is found) :
    p.Walked x key (steps + 1) Fresh Is found := by
  refine ⟨fun a ha => ?_, fun n c' e hnear hn hthis => ?_⟩
  · obtain ⟨n, c', e, hnear, his⟩ := h.sound a ha
    exact ⟨n + 1, c', e, hnear.of_parent hclass hconstant, his⟩
  obtain ⟨m, name, rfl, hparent, hrest⟩ := hnear.of_none hclass hconstant
  refine h.complete m c' e ?_ (by omega) (hfresh m c' e hnear hthis)
  rw [ClassAt.parentKey, hparent]
  exact hrest

theorem nearest (h : p.Walked x key steps Fresh Is found)
    (hreach : ∀ n c e, p.Nearest x n key c e → n < steps ∧ Fresh n) :
    match found with
    | some a => ∃ n c e, p.Nearest x n key c e ∧ Is c e a
    | none => ∀ n c e, ¬ p.Nearest x n key c e := by
  cases found with
  | some a => exact h.sound a rfl
  | none =>
    intro n c e hnear
    obtain ⟨hn, hfresh⟩ := hreach n c e hnear
    exact h.complete n c e hnear hn hfresh rfl

end Project.Walked

/-- **What the walk from record to record finds.** -/
theorem Run.Coherent.declaringClass? (hapart : p.Apart) (x : String) (steps : Nat) :
    ∀ {r : Run} (seen : List String) {d : ClassDecl} {c : ClassAt}, r.Coherent p → p.Records d c →
      ∃ found t, Record.declaringClass? x steps seen (some d) r = .ok found t ∧ t.Coherent p
        ∧ p.Walked x c.key steps (fun n => ∀ key ∈ seen, ∃ m c e, n < m ∧ p.Nearest x m key c e)
          (fun c e a => a.1.Describes c ∧ a.2.node = e) found := by
  induction steps with
  | zero =>
    intro r seen d c hr hd
    exact ⟨none, r, rfl, hr, nofun, fun n _ _ _ hn => absurd hn (Nat.not_lt_zero n)⟩
  | succ steps ih =>
    intro r seen d c hr hd
    obtain ⟨hmem, hkind, hdescribes⟩ := hd
    have hclass := Project.classOf?_of_mem hapart hmem hkind
    rw [Record.declaringClass?]
    cases hseen : seen.contains d.key with
    | true =>
      refine ⟨none, r, rfl, hr, .again fun n c' e hnear hfresh => ?_⟩
      obtain ⟨m, c'', e', hlt, hother⟩ := hfresh d.key (List.contains_iff_mem.mp hseen)
      rw [hdescribes.key] at hother
      have hsteps := (hnear.unique hother).1
      omega
    | false =>
      rw [if_neg Bool.false_ne_true]
      have hconstant := hdescribes.constants x
      cases hget : d.constants.get? x with
      | some node =>
        rw [hget] at hconstant
        exact ⟨some (d, node), r, rfl, hr, .here hclass hconstant.symm ⟨hdescribes, rfl⟩⟩
      | none =>
        rw [hget] at hconstant
        obtain ⟨above, u, hrun, hu, hfinds⟩ := hr.classNamed? hapart
          (hdescribes.file ▸ (Project.mem_classLikes.mp hmem).1) d.parentName
        rw [hdescribes.parent] at hfinds
        dsimp only
        rw [bind_of_ok hrun]
        -- the class that was passed is further away than what is still to come
        have hfresh : ∀ n c' e, p.Nearest x (n + 1) c.key c' e →
            (∀ key ∈ seen, ∃ m c e, n + 1 < m ∧ p.Nearest x m key c e) →
            ∀ key ∈ d.key :: seen, ∃ m c e, n < m ∧ p.Nearest x m key c e := by
          intro n c' e hnear hseen
          refine List.forall_mem_cons.mpr ⟨⟨n + 1, c', e, Nat.lt_succ_self n, ?_⟩, ?_⟩
          · rwa [hdescribes.key]
          · intro key hkey
            obtain ⟨m, c'', e', hlt, hother⟩ := hseen key hkey
            exact ⟨m, c'', e', by omega, hother⟩
        cases above with
        | none =>
          have hend : Record.declaringClass? x steps (d.key :: seen) none u = .ok none u := by
            cases steps <;> rfl
          exact ⟨none, u, hend, hu, .up hclass hconstant.symm hfresh (.nothing hfinds)⟩
        | some d' =>
          obtain ⟨c', hc', hdescribes'⟩ := hfinds
          obtain ⟨hmem', hkind', hkey'⟩ := Project.classOf?_eq_some hc'
          obtain ⟨found, t, hwalk, ht, hwalked⟩ :=
            ih (d.key :: seen) hu ⟨hmem', hkind', hdescribes'⟩
          rw [hkey'] at hwalked
          exact ⟨found, t, hwalk, ht, .up hclass hconstant.symm hfresh hwalked⟩

end Walking

/-! ## Walking from file to file. -/

section Members

variable {p : Project} {x path : String} {b : Binding}

theorem path_of_lookup {callNames : List String} {root : Cursor} {owner : Closure}
    {line : Option Int} (h : (Tracker.run callNames path root).1.lookup owner x line = some b) :
    b.path = path := by
  obtain ⟨c, -, hc⟩ := List.exists_of_findSome?_eq_some h
  exact ((run_wellFiled callNames path root).2.place _ _ b (mem_of_lastBefore hc)).2.2

def IsBindingOf (c : ClassAt) (e : Node) (b : Binding) : Prop :=
  b.path = c.file ∧ b.node.map Cursor.node = some e

/-- Looking a constant up in the definitions of a class of the project finds its expression. -/
theorem Project.lookup_pass (hapart : p.Apart) (hc : c ∈ p.classLikes)
    (hclear : isClear x (p.disk.treeAt c.file) = true) (number : Nat)
    (h : (p.pass c.file number).1.lookup (.ofClass c.node.nameText) x none = found) :
    found.map (fun b => b.node.map Cursor.node) = (c.node.constant? x).map some := by
  have hsolid : (p.disk.treeAt c.file).all Node.isSolid = true := parse_solid
  rw [← h]
  exact @lookup_run x c.file (callNames p.settings) (.root number (p.disk.treeAt c.file)) c.node
    hclear hsolid (hapart.filter_nodes hc)

theorem Project.lookup_pass_some (hapart : p.Apart) (hc : c ∈ p.classLikes)
    (hclear : isClear x (p.disk.treeAt c.file) = true)
    (h : (p.pass c.file number).1.lookup (.ofClass c.node.nameText) x none = some b) :
    ∃ e, c.node.constant? x = some e ∧ IsBindingOf c e b := by
  have hlookup := Project.lookup_pass hapart hc hclear number h
  obtain ⟨e, he, hnode⟩ := Option.map_eq_some_iff.mp hlookup.symm
  exact ⟨e, he, path_of_lookup h, hnode.symm⟩

theorem Project.lookup_pass_none (hapart : p.Apart) (hc : c ∈ p.classLikes)
    (hclear : isClear x (p.disk.treeAt c.file) = true)
    (h : (p.pass c.file number).1.lookup (.ofClass c.node.nameText) x none = none) :
    c.node.constant? x = none := by
  have hlookup := Project.lookup_pass hapart hc hclear number h
  exact Option.map_eq_none_iff.mp hlookup.symm

theorem Run.Coherent.yields_findClass (hr : r.Coherent p) (hapart : p.Apart)
    (hpath : path ∈ p.files) (name : String) :
    Yields p (Audit.findClass name path) r fun found _ => p.Finds (classKey name) found := by
  obtain ⟨found, t, hrun, ht, hfinds⟩ := hr.findClass hapart hpath name
  exact yields_of_ok hrun ht hfinds

/-- One step of the walk from file to file, with a name that is not empty. -/
theorem memberFrom_some (hname : name ≠ "") (n : Nat) (seen : List String) :
    Audit.memberFrom x (n + 1) seen (some name) path
      = if seen.contains (lower name) then pure none else (do
          match ← findClass name path with
          | none => return none
          | some d =>
            let scopes ← Audit.scopesOf d.file
            match scopes.lookup (.ofClass d.name) x none with
            | some found => return some found
            | none => Audit.memberFrom x n (lower name :: seen) d.parentName d.file) := by
  rw [Audit.memberFrom, Option.filter_some_pos (by simpa using hname)] <;> rfl

theorem memberFrom_unnamed {name : Option String} (hname : name.filter (· ≠ "") = none) (n : Nat)
    (seen : List String) : Audit.memberFrom x n seen name path = pure none := by
  cases n with
  | zero => rfl
  | succ n => rw [Audit.memberFrom, hname]

theorem classOf?_unnamed {name : Option String} (hname : name.filter (· ≠ "") = none) :
    p.classOf? (optionalKey name) = none := by
  cases name with
  | none => exact p.classOf?_empty
  | some name =>
    obtain rfl : name = "" := by simpa [Option.filter] using hname
    show p.classOf? (classKey "") = none
    exact p.classOf?_empty

/-- How far a walk has come that passed classes by the names given, in small letters. -/
def Project.Passed (p : Project) (x : String) (seen : List String) (n : Nat) : Prop :=
  ∀ s ∈ seen, ∃ other m c e, s = lower other ∧ n < m ∧ p.Nearest x m (classKey other) c e

theorem Project.not_passed_of_seen {e : Node}
    (hseen : lower name ∈ seen) (hnear : p.Nearest x n (classKey name) c e) : ¬ p.Passed x seen n := by
  intro hpassed
  obtain ⟨other, m, c', e', hsame, hlt, hother⟩ := hpassed _ hseen
  have hkey : classKey name = classKey other := lower_shortClassName_congr hsame
  rw [← hkey] at hother
  have hsteps := (hnear.unique hother).1
  omega

theorem Project.Passed.cons {e : Node}
    (hnear : p.Nearest x (n + 1) (classKey name) c e) (h : p.Passed x seen (n + 1)) :
    p.Passed x (lower name :: seen) n := by
  refine List.forall_mem_cons.mpr ⟨⟨name, n + 1, c, e, rfl, Nat.lt_succ_self n, hnear⟩, fun s hs => ?_⟩
  obtain ⟨other, m, c', e', hsame, hlt, hother⟩ := h s hs
  exact ⟨other, m, c', e', hsame, by omega, hother⟩

/-- **What the walk from file to file finds.** -/
theorem Run.Coherent.memberFrom (hapart : p.Apart) (x : String) (steps : Nat) :
    ∀ {r : Run} (seen : List String) (name : Option String) {path : String}, r.Coherent p →
      path ∈ p.files →
      (∀ c, p.ComesTo x (optionalKey name) c → isClear x (p.disk.treeAt c.file) = true) →
      Yields p (Audit.memberFrom x steps seen name path) r fun found _ =>
        p.Walked x (optionalKey name) steps (p.Passed x seen) IsBindingOf found := by
  induction steps with
  | zero =>
    intro r seen name path hr _ _
    exact yields_pure hr ⟨nofun, fun n _ _ _ hn => absurd hn (Nat.not_lt_zero n)⟩
  | succ steps ih =>
    intro r seen name path hr hpath hclear
    by_cases hnamed : name.filter (· ≠ "") = none
    · rw [memberFrom_unnamed hnamed]
      exact yields_pure hr (.nothing (classOf?_unnamed hnamed))
    obtain ⟨name, rfl, hname⟩ : ∃ n, name = some n ∧ n ≠ "" := by
      obtain ⟨n, hn⟩ := Option.ne_none_iff_exists'.mp hnamed
      rw [Option.filter_eq_some_iff] at hn
      exact ⟨n, hn.1, by simpa using hn.2⟩
    rw [memberFrom_some hname]
    by_cases hseen : seen.contains (lower name) = true
    · rw [if_pos hseen]
      exact yields_pure hr (.again fun n c e hnear =>
        Project.not_passed_of_seen (List.contains_iff_mem.mp hseen) hnear)
    rw [if_neg hseen]
    refine .bind (hr.yields_findClass hapart hpath name) fun found u hu hfinds => ?_
    cases found with
    | none => exact yields_pure hu (.nothing hfinds)
    | some d =>
      obtain ⟨c, hclass, hdescribes⟩ := hfinds
      obtain ⟨hmem, hkind, hkey⟩ := Project.classOf?_eq_some hclass
      have hfile := (Project.mem_classLikes.mp hmem).1
      dsimp only
      rw [hdescribes.file, hdescribes.name, hdescribes.parent]
      refine .bind (hu.scopesOf hfile) fun scopes t ht htracks => ?_
      obtain ⟨number, s, -, -, rfl, -⟩ := htracks
      have hhere := hclear c (.here hclass)
      cases hfound : (p.pass c.file number).1.lookup (.ofClass c.node.nameText) x none with
      | some b =>
        obtain ⟨e, hconstant, hb⟩ := Project.lookup_pass_some hapart hmem hhere hfound
        exact yields_pure ht (.here hclass hconstant hb)
      | none =>
        have hlookup := Project.lookup_pass_none hapart hmem hhere hfound
        refine (ih (lower name :: seen) c.node.parentName? ht hfile fun c' hc' =>
          hclear c' (.of_parent hc' hclass hlookup)).mono fun found _ _ hwalked => ?_
        exact .up hclass hlookup (fun n c' e hnear hpassed => hpassed.cons hnear) hwalked

/-- What resolving finds: the binding of the nearest declaration, if there is one. -/
def Project.Binds (p : Project) (x key : String) : Option Binding → Prop
  | some b => ∃ n c e, p.Nearest x n key c e ∧ IsBindingOf c e b
  | none => ∀ n c e, ¬ p.Nearest x n key c e

theorem Project.Binds.up (h : p.Binds x c.parentKey found) (hclass : p.classOf? key = some c)
    (hconstant : c.node.constant? x = none) : p.Binds x key found := by
  cases found with
  | some b =>
    obtain ⟨n, c', e, hnear, hb⟩ := h
    exact ⟨n + 1, c', e, hnear.of_parent hclass hconstant, hb⟩
  | none =>
    intro n c' e hnear
    obtain ⟨m, name, -, hparent, hrest⟩ := hnear.of_none hclass hconstant
    refine h m c' e ?_
    rw [ClassAt.parentKey, hparent]
    exact hrest

theorem Project.Binds.nothing (h : p.classOf? key = none) : p.Binds x key none := by
  intro n c e hnear
  obtain ⟨d, hd⟩ := hnear.exists_class
  rw [h] at hd
  cases hd

/-- A constant of a class that is named by a text. -/
theorem Run.Coherent.classMember (hr : r.Coherent p) (hapart : p.Apart) (hpath : path ∈ p.files)
    (hclear : ∀ c, p.ComesTo x (classKey name) c → isClear x (p.disk.treeAt c.file) = true) :
    Yields p (Audit.classMember name x path) r fun found _ => p.Binds x (classKey name) found := by
  unfold Audit.classMember
  refine .bind_ok run_get ?_
  refine (Run.Coherent.memberFrom hapart x r.ancestry [] (some name) hr hpath hclear).mono
    fun found _ _ hwalked => ?_
  have hnearest := hwalked.nearest fun n c e hnear =>
    ⟨by have := hnear.lt_ancestry hr.sound.toProper hr.disk; omega, fun _ hs => nomatch hs⟩
  cases found with
  | some b => exact hnearest
  | none => exact hnearest

/-- A constant of the class that a class extends. -/
theorem Run.Coherent.parentMember (hr : r.Coherent p) (hapart : p.Apart)
    (hmem : c ∈ p.classLikes) (hkind : c.node.kind = .classDeclaration)
    (hplain : shortClassName c.node.nameText = c.node.nameText)
    (hclear : ∀ d, p.ComesTo x c.parentKey d → isClear x (p.disk.treeAt d.file) = true) :
    Yields p (do
      match (← Audit.parentOf c.node.nameText c.file).filter (· ≠ "") with
      | none => return none
      | some parent => Audit.classMember parent x c.file) r fun found _ =>
        p.Binds x c.parentKey found := by
  have hclass := Project.classOf?_of_mem hapart hmem hkind
  obtain ⟨hfile, -, -, hname⟩ := Project.mem_classLikes.mp hmem
  obtain ⟨found, u, hrun, hu, hfinds⟩ := hr.findClass hapart hfile c.node.nameText
  have hkey : classKey c.node.nameText = c.key := by
    rw [classKey, hplain]
    rfl
  rw [hkey] at hfinds
  have hparent : Audit.parentOf c.node.nameText c.file r = .ok c.node.parentName? u := by
    unfold Audit.parentOf
    rw [if_neg hname, bind_of_ok hrun]
    cases found with
    | none => cases hclass.symm.trans hfinds
    | some d =>
      obtain ⟨c', hc', hdescribes⟩ := hfinds
      obtain rfl := Option.some.inj (hclass.symm.trans hc')
      rw [← hdescribes.parent]
      rfl
  refine .bind_ok hparent ?_
  unfold ClassAt.parentKey at hclear ⊢
  cases hname : c.node.parentName? with
  | none => exact yields_pure hu (.nothing p.classOf?_empty)
  | some name =>
    rw [hname] at hclear
    by_cases hempty : name = ""
    · subst hempty
      refine yields_pure hu (.nothing ?_)
      show p.classOf? (classKey "") = none
      exact p.classOf?_empty
    · rw [Option.filter_some_pos (by simpa using hempty)]
      exact hu.classMember hapart hfile hclear

end Members

end QueryAudit
