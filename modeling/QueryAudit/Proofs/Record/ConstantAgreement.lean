/-
  QueryAudit.Proofs.Record.ConstantAgreement — both ways to a class constant agree

  Resolving a reference and walking from record to record come to the expression of the nearest
  class that declares the constant, as long as nothing but constants of classes goes by its name.
  Where global code defines a constant of that name, resolving takes it for the constant of the
  class.

  Main results: `Run.Coherent.constantWalk`, `Run.Coherent.resolveKey`,
    `resolve_agrees_constantWalk`, `resolve_takes_global`.
-/

import QueryAudit.Proofs.Record.ConstantLookup

namespace QueryAudit

open Audit Php Record Scope Text Project

variable {p : Project} {x path : String}

/-! ## What the two ways find. -/

/-- What the walk from record to record finds: the nearest declaration, if there is one. -/
def Project.Declares (p : Project) (x key : String) : Option (ClassDecl × Cursor) → Prop
  | some (d, expr) => ∃ n c, p.Nearest x n key c expr.node ∧ d.Describes c
  | none => ∀ n c e, ¬ p.Nearest x n key c e

def Scope.Binding.place (b : Binding) : String × Option Node := (b.path, b.node.map Cursor.node)

theorem Project.Binds.place_eq {key : String} {binding : Option Binding}
    {found : Option (ClassDecl × Cursor)} (hbinds : p.Binds x key binding)
    (hfound : p.Declares x key found) :
    binding.map Binding.place = found.map fun (d, expr) => (d.file, some expr.node) := by
  match binding, found with
  | none, none => rfl
  | none, some (d, expr) =>
    obtain ⟨n, c, hnear, -⟩ := hfound
    exact absurd hnear (hbinds n c expr.node)
  | some b, none =>
    obtain ⟨n, c, e, hnear, -⟩ := hbinds
    exact absurd hnear (hfound n c e)
  | some b, some (d, expr) =>
    obtain ⟨n, c, e, hnear, hpath, hnode⟩ := hbinds
    obtain ⟨m, c', hnear', hdescribes⟩ := hfound
    obtain ⟨-, rfl, rfl⟩ := hnear.unique hnear'
    rw [Option.map_some, Option.map_some, Binding.place, hpath, hnode, ← hdescribes.file]

/-! ## References in classes. -/

/-- A text that a class can be named by: what is left of it without the namespace is a plain name. -/
def NamesClass (scope : String) : Prop :=
  shortClassName scope ≠ "" ∧ shortClassName scope ≠ "parent"
    ∧ shortClassName (shortClassName scope) = shortClassName scope

/-- A reference to a constant in a class: a node of a file of the project that names a class and a
constant, and the class around it. -/
structure Project.Refers (p : Project) (path : String) (root node cls : Cursor) (scope x : String) :
    Prop where
  file : path ∈ p.files
  inTree : node ∈ root.preorder
  kind : node.kind = .classConstantAccessExpression
  named : node.node.named = true
  parts : constantParts? node.node = some (scope, x)
  around : node.ancestors.find? (·.kind.isClassLike) = some cls
  isClass : cls.kind = .classDeclaration
  className : cls.nameText ≠ "" ∧ shortClassName cls.nameText = cls.nameText
  /-- The reference names the class above, the class itself or some class. -/
  naming : lower scope = "parent" ∨ NamesClass scope
  constant : x ≠ "class" ∧ x.toList.head? ≠ some '-'

section References

variable {root node cls : Cursor} {scope : String} {r u : Run} {number : Nat}

/-- The class around a reference is one of the project. -/
theorem Project.Refers.mem_classLikes
    (h : p.Refers path (.root number (p.disk.treeAt path)) node cls scope x) :
    ClassAt.mk path cls.node ∈ p.classLikes := by
  have hmem := Cursor.mem_preorder_of_ancestor h.inTree (List.mem_of_find?_eq_some h.around)
  refine Project.mem_classLikes.mpr ⟨h.file, ?_, ?_, h.className.1⟩
  · show cls.node ∈ (p.disk.treeAt path).nodes
    have hnodes := Cursor.map_node_preorder (.root number (p.disk.treeAt path))
    exact hnodes ▸ List.mem_map_of_mem hmem
  · show cls.kind.isClassLike = true
    rw [h.isClass]
    rfl

/-- The scope of a reference is one of the class around it. -/
theorem Project.Refers.closureOf (h : p.Refers path root node cls scope x) {s : Source}
    (hr : r.Coherent p) (hs : r.sources.get? path = some s) (hlinked : s.Linked number)
    (htree : node.tree = number) :
    ∃ owner, Audit.closureOf path node r = .ok owner r ∧ owner.className = cls.nameText := by
  refine ⟨closureAbove node.ancestors none, ?_, ?_⟩
  · have hsource : Audit.source path r = .ok s r := by
      rw [source_eq, hr.resolve h.file, hs]
    have habove : Audit.above path node r = .ok node.ancestors r := by
      unfold Audit.above
      rw [bind_of_ok hsource, hlinked.2, htree, h.named, decide_eq_true rfl, Bool.and_true]
      rfl
    unfold Audit.closureOf
    rw [bind_of_ok habove]
    rfl
  · rw [className_closureAbove, h.around]
    rfl

/-- How a class is named by a text: as the class around, as the one above, or by a name. -/
inductive Naming (scope : String) : Prop where
  | around (h : lower scope = "self" ∨ lower scope = "static")
  | above (h : lower scope = "parent")
  | byName (hself : lower scope ≠ "self") (hstatic : lower scope ≠ "static") (hparent : lower scope ≠ "parent")

theorem naming (scope : String) : Naming scope := by
  by_cases hself : lower scope = "self"
  · exact .around (.inl hself)
  by_cases hstatic : lower scope = "static"
  · exact .around (.inr hstatic)
  by_cases hparent : lower scope = "parent"
  · exact .above hparent
  · exact .byName hself hstatic hparent

theorem naming_around (h : lower scope = "self" ∨ lower scope = "static") (c : ClassAt)
    (context : LiteralContext) : memberKey scope x = ⟨x, true, none⟩ ∧ chainStart scope c = c.key
      ∧ constantOwner? context scope = pure (some context.owner) := by
  unfold memberKey chainStart constantOwner?
  rcases h with h | h
  · rw [h]
    exact ⟨rfl, rfl, rfl⟩
  · rw [h]
    exact ⟨rfl, rfl, rfl⟩

theorem naming_above (h : lower scope = "parent") (c : ClassAt) (context : LiteralContext) :
    memberKey scope x = ⟨x, true, some "parent"⟩ ∧ chainStart scope c = c.parentKey
      ∧ constantOwner? context scope
        = Record.classNamed? context.owner.parentName context.owner.file := by
  unfold memberKey chainStart constantOwner?
  rw [h]
  exact ⟨rfl, rfl, rfl⟩

theorem naming_byName (hself : lower scope ≠ "self") (hstatic : lower scope ≠ "static")
    (hparent : lower scope ≠ "parent") (c : ClassAt) (context : LiteralContext) :
    memberKey scope x = ⟨x, true, some (shortClassName scope)⟩ ∧ chainStart scope c = classKey scope
      ∧ constantOwner? context scope = Record.classNamed? (some scope) context.owner.file := by
  refine ⟨?_, ?_, ?_⟩
  · unfold memberKey
    split
    · next h => exact absurd h hself
    · next h => exact absurd h hstatic
    · next h => exact absurd h hparent
    · rfl
  · unfold chainStart
    split
    · next h => exact absurd h hself
    · next h => exact absurd h hstatic
    · next h => exact absurd h hparent
    · rfl
  · unfold constantOwner?
    split
    · next h => exact absurd h hself
    · next h => exact absurd h hstatic
    · next h => exact absurd h hparent
    · rfl

/-- **What the walk from record to record comes to.** -/
theorem Run.Coherent.constantWalk (hu : u.Coherent p) (hapart : p.Apart) {c : ClassAt}
    {context : LiteralContext} (howner : p.Records context.owner c)
    (hparts : constantParts? node.node = some (scope, x)) (hx : x ≠ "class") :
    ∃ found v, Record.constantWalk context node u = .ok found v ∧ v.Coherent p
      ∧ p.Declares x (chainStart scope c) found := by
  obtain ⟨first, second, rest, hnode, hfirst, hlast⟩ := constantParts?_parts hparts
  unfold Record.constantWalk
  rw [hnode]
  dsimp only
  rw [hlast, if_neg hx, hfirst]
  have hfile : context.owner.file ∈ p.files :=
    howner.2.2.file ▸ (mem_classLikes.mp howner.1).1
  -- the class that the walk starts from
  have hstart : ∃ owner v, constantOwner? context scope u = .ok owner v ∧ v.Coherent p
      ∧ p.Finds (chainStart scope c) owner := by
    have hself : p.Finds c.key (some context.owner) :=
      ⟨c, classOf?_of_mem hapart howner.1 howner.2.1, howner.2.2⟩
    cases naming scope with
    | around h =>
      obtain ⟨-, hchain, howns⟩ := naming_around (x := x) h c context
      rw [hchain, howns]
      exact ⟨some context.owner, u, rfl, hu, hself⟩
    | above h =>
      obtain ⟨-, hchain, howns⟩ := naming_above (x := x) h c context
      rw [hchain, howns, ClassAt.parentKey, ← howner.2.2.parent]
      exact hu.classNamed? hapart hfile context.owner.parentName
    | byName h h' h'' =>
      obtain ⟨-, hchain, howns⟩ := naming_byName (x := x) h h' h'' c context
      rw [hchain, howns]
      exact hu.classNamed? hapart hfile (some scope)
  obtain ⟨owner, v, hrun, hv, hfinds⟩ := hstart
  rw [bind_of_ok hrun]
  cases owner with
  | none =>
    refine ⟨none, v, by cases v.ancestry <;> rfl, hv, ?_⟩
    intro n c' e hnear
    obtain ⟨d, hd⟩ := hnear.exists_class
    cases hd.symm.trans hfinds
  | some d =>
    obtain ⟨c', hclass, hdescribes⟩ := hfinds
    obtain ⟨hmem, hkind, hkey⟩ := classOf?_eq_some hclass
    obtain ⟨found, t, hwalk, ht, hwalked⟩ :=
      Run.Coherent.declaringClass? hapart x v.ancestry [] hv ⟨hmem, hkind, hdescribes⟩
    rw [hkey] at hwalked
    have hnearest := hwalked.nearest fun n c e hnear =>
      ⟨by have := hnear.lt_ancestry hv.sound.toProper hv.disk; omega, fun _ hs => by cases hs⟩
    refine ⟨found, t, hwalk, ht, ?_⟩
    cases found with
    | none => exact hnearest
    | some a =>
      obtain ⟨n, c, e, hnear, hdescribes, rfl⟩ := hnearest
      exact ⟨n, c, hnear, hdescribes⟩

/-- **What resolving comes to** in a scope of the class around a reference. -/
theorem Run.Coherent.resolveKey (hr : r.Coherent p) (hapart : p.Apart)
    (h : p.Refers path (.root number (p.disk.treeAt path)) node cls scope x)
    (context : LiteralContext) {owner : Closure} (howner : owner.className = cls.nameText)
    (hclear : ∀ c, p.ComesTo x (chainStart scope ⟨path, cls.node⟩) c →
      isClear x (p.disk.treeAt c.file) = true) (line : Int) :
    Yields p (Audit.resolveKey path (memberKey scope x) owner line) r fun binding _ =>
      p.Binds x (chainStart scope ⟨path, cls.node⟩) binding := by
  have hmem := h.mem_classLikes
  have hclass := classOf?_of_mem hapart hmem h.isClass
  unfold Audit.resolveKey
  refine .bind (hr.scopesOf h.file) fun scopes t ht htracks => ?_
  obtain ⟨m, s, -, -, rfl, -⟩ := htracks
  rw [howner]
  cases naming scope with
  | around hscope =>
    obtain ⟨hkey, hchain, -⟩ := naming_around (x := x) hscope ⟨path, cls.node⟩ context
    rw [hchain] at hclear ⊢
    rw [hkey]
    have hproperty : startsWith "->".toList x.toList = false := by
      rw [Bool.eq_false_iff, Ne, startsWith_iff]
      rintro ⟨rest, hrest⟩
      exact h.constant.2 (by rw [← hrest]; rfl)
    show Yields p (if cls.nameText = "" then _ else _) t _
    rw [if_neg h.className.1, if_neg h.constant.2, hproperty]
    have hhere := hclear _ (.here hclass)
    cases hfound : (p.pass path m).1.lookup (.ofClass cls.nameText) x none with
    | some b =>
      obtain ⟨e, hconstant, hb⟩ := lookup_pass_some hapart hmem hhere hfound
      exact yields_pure ht ⟨0, _, e, .here hclass hconstant, hb⟩
    | none =>
      have hlookup := lookup_pass_none hapart hmem hhere hfound
      refine (ht.parentMember hapart hmem h.isClass h.className.2 fun d hd => ?_).mono ?_
      · exact hclear d (.of_parent hd hclass hlookup)
      · exact fun _ _ _ hbinds => hbinds.up hclass hlookup
  | above hscope =>
    obtain ⟨hkey, hchain, -⟩ := naming_above (x := x) hscope ⟨path, cls.node⟩ context
    rw [hchain] at hclear ⊢
    rw [hkey]
    exact ht.parentMember hapart hmem h.isClass h.className.2 hclear
  | byName h1 h2 h3 =>
    obtain ⟨hkey, hchain, -⟩ := naming_byName (x := x) h1 h2 h3 ⟨path, cls.node⟩ context
    obtain ⟨hempty, hparent, hplain⟩ := h.naming.resolve_left h3
    have hsame : classKey scope = classKey (shortClassName scope) := by
      rw [classKey, classKey, hplain]
    rw [hchain, hsame] at hclear ⊢
    rw [hkey]
    have hnamed : RefKey.namedClass? ⟨x, true, some (shortClassName scope)⟩ = some (shortClassName scope) :=
      Option.filter_some_pos (by simpa using hempty)
    rw [hnamed]
    split
    · next heq => exact absurd (Option.some.inj heq) hparent
    · next name _ heq =>
      obtain rfl := Option.some.inj heq
      exact ht.classMember hapart h.file hclear
    · next heq => cases heq

/-- **Both ways to a class constant agree.** The walk ends with the nearest declaration of the
constant, and resolving gives a definition exactly when the walk does, of the same expression,
unless a shape in a file of the project is in its way. -/
theorem resolve_agrees_constantWalk (hr : r.Coherent p) (hapart : p.Apart)
    (hroot : Audit.rootOf path r = .ok root u) (h : p.Refers path root node cls scope x)
    {context : LiteralContext} (howner : context.owner.Describes ⟨path, cls.node⟩)
    (hclear : ∀ c, p.ComesTo x (chainStart scope ⟨path, cls.node⟩) c →
      isClear x (p.disk.treeAt c.file) = true) (line : Option Int) :
    ∃ found v, Record.constantWalk context node u = .ok found v
      ∧ p.Declares x (chainStart scope ⟨path, cls.node⟩) found
      ∧ Yields p (Audit.resolve path node line) u fun binding _ =>
        binding.map Binding.place = found.map fun (d, expr) => (d.file, some expr.node) := by
  obtain ⟨number, s, t, hread, hsame, hs, htree⟩ := hr.rootOf h.file
  obtain ⟨rfl, rfl⟩ : Cursor.root number (p.disk.treeAt path) = root ∧ t = u := by
    rw [hread] at hroot
    exact ⟨(EStateM.Result.ok.inj hroot).1, (EStateM.Result.ok.inj hroot).2⟩
  have hu := hr.same hsame
  obtain ⟨found, v, hwalk, -, hdeclares⟩ := hu.constantWalk hapart
    ⟨h.mem_classLikes, h.isClass, howner⟩ h.parts h.constant.1
  refine ⟨found, v, hwalk, hdeclares, ?_⟩
  unfold Audit.resolve
  rw [show referenceKey? node = some (memberKey scope x) from nodeKey?_constant h.kind h.parts]
  refine .bind (hu.scopesOf h.file) fun _ t ht htracks => ?_
  obtain ⟨m, s', hs', hlinked, -, hbefore⟩ := htracks
  obtain rfl := hbefore s number hs htree
  obtain ⟨owner, hclosure, hclass⟩ := h.closureOf ht hs' hlinked (Cursor.tree_of_mem_preorder h.inTree)
  refine .bind_ok hclosure ?_
  exact (ht.resolveKey hapart h context hclass hclear _).mono fun _ _ _ hbinds => hbinds.place_eq hdeclares

end References

/-! ## A constant that is inherited, and one that is not. -/

def oneFile (text : String) : Run :=
  Run.start (Disk.write { base := "/w" } "/w/a.php" text.toUTF8) "/w" {} false false

def firstReference (root : Cursor) : Cursor :=
  (root.preorder.find? (·.kind = .classConstantAccessExpression)).getD root

theorem firstReference_mem {root : Cursor} : firstReference root ∈ root.preorder := by
  rw [firstReference]
  cases hfind : root.preorder.find? (·.kind = .classConstantAccessExpression) with
  | some found => exact List.mem_of_find?_eq_some hfind
  | none => exact Cursor.mem_preorder_self _

def classAround (node : Cursor) : Cursor := (node.ancestors.find? (·.kind.isClassLike)).getD node

theorem find?_classAround {node : Cursor} (h : (classAround node).kind.isClassLike = true)
    (hnode : node.kind.isClassLike = false) :
    node.ancestors.find? (·.kind.isClassLike) = some (classAround node) := by
  unfold classAround at h ⊢
  cases hfind : node.ancestors.find? (·.kind.isClassLike) with
  | some found => rfl
  | none =>
    rw [hfind, Option.getD_none, hnode] at h
    cases h

namespace Inherited

def text : String := "<?php
class A \x7b const N = 'a'; \x7d
class B extends A \x7b function f() \x7b return self::N; \x7d \x7d
"

def root : Cursor := .root 0 ((oneFile text).disk.treeAt "/w/a.php")

def node : Cursor := firstReference root

theorem facts : (oneFile text).project.files = ["/w/a.php"] ∧ (oneFile text).project.Apart
    ∧ isClear "N" ((oneFile text).disk.treeAt "/w/a.php") = true
    ∧ sees (Audit.rootOf "/w/a.php") (oneFile text) (fun c _ => c.tree = 0) = true
    ∧ node.kind = .classConstantAccessExpression ∧ node.node.named = true
    ∧ constantParts? node.node = some ("self", "N")
    ∧ (classAround node).kind = .classDeclaration ∧ (classAround node).nameText = "B" := by
  decide +kernel

theorem refers : (oneFile text).project.Refers "/w/a.php" root node (classAround node) "self" "N" := by
  obtain ⟨hfiles, -, -, -, hkind, hnamed, hparts, hclass, hname⟩ := facts
  have hself : NamesClass "self" := by
    unfold NamesClass
    decide
  have haround := @find?_classAround node (by rw [hclass]; rfl) (by rw [hkind]; rfl)
  refine ⟨?_, firstReference_mem, hkind, hnamed, hparts, haround, hclass, ?_, .inr hself, by decide⟩
  · rw [hfiles]
    exact List.mem_singleton_self _
  · rw [hname]
    decide

end Inherited

/-- The walk for an inherited constant and resolving it come to the same place. -/
theorem resolve_agrees_constantWalk_inherited :
    ∃ u found v, Audit.rootOf "/w/a.php" (oneFile Inherited.text) = .ok Inherited.root u
      ∧ Record.constantWalk { owner := .ofNode (classAround Inherited.node) "/w/a.php" } Inherited.node u
        = .ok found v
      ∧ (oneFile Inherited.text).project.Declares "N"
        (chainStart "self" ⟨"/w/a.php", (classAround Inherited.node).node⟩) found
      ∧ Yields (oneFile Inherited.text).project (Audit.resolve "/w/a.php" Inherited.node none) u
        fun binding _ => binding.map Binding.place = found.map fun (d, expr) => (d.file, some expr.node) := by
  have hsound : (Disk.write { base := "/w" } "/w/a.php" Inherited.text.toUTF8).Sound :=
    Disk.Proper.sound ((Disk.Proper.empty (by decide)).write _ _) (by decide +kernel) (by decide +kernel)
  have hr := coherent_start hsound "/w" {} false false
  obtain ⟨hfiles, hapart, hclear, hnumber, -⟩ := Inherited.facts
  obtain ⟨number, s, u, hread, -⟩ := hr.rootOf Inherited.refers.file
  obtain rfl : number = 0 := by
    rw [sees, show Audit.rootOf "/w/a.php" (oneFile Inherited.text) = _ from hread] at hnumber
    exact of_decide_eq_true hnumber
  have hclearAll : ∀ c, (oneFile Inherited.text).project.ComesTo "N"
      (chainStart "self" ⟨"/w/a.php", (classAround Inherited.node).node⟩) c →
      isClear "N" ((oneFile Inherited.text).disk.treeAt c.file) = true := by
    intro c hc
    have hfile := (Project.mem_classLikes.mp hc.mem).1
    rw [hfiles, List.mem_singleton] at hfile
    rw [hfile]
    exact hclear
  let context : LiteralContext := { owner := .ofNode (classAround Inherited.node) "/w/a.php" }
  have howner : context.owner.Describes ⟨"/w/a.php", (classAround Inherited.node).node⟩ :=
    describes_ofNode
  obtain ⟨found, v, hwalk, hdeclares, hresolves⟩ :=
    resolve_agrees_constantWalk hr hapart hread Inherited.refers howner hclearAll none
  exact ⟨u, found, v, hread, hwalk, hdeclares, hresolves⟩

namespace Taken

/-- A class without constants below a constant of global code, and a reference to it. -/
def text : String := "<?php
const N = 'g';
class C \x7b
  function f() \x7b return self::N; \x7d
\x7d
"

def run : Run :=
  match Audit.rootOf "/w/a.php" (oneFile text) with
  | .ok _ u => u
  | .error _ u => u

def node : Cursor := firstReference (.root 0 ((oneFile text).disk.treeAt "/w/a.php"))

def context : LiteralContext where
  owner := .ofNode (classAround node) "/w/a.php"

def boundText : EStateM.Result Failure Run (Option Binding) → Option (Option String)
  | .ok binding _ => some ((binding.bind Binding.node).map Cursor.text)
  | .error _ _ => none

def walkedText : EStateM.Result Failure Run (Option (ClassDecl × Cursor)) → Option (Option String)
  | .ok found _ => some (found.map fun a => a.2.text)
  | .error _ _ => none

end Taken

/-- A constant of global code is taken for the constant of a class that declares none. -/
theorem resolve_takes_global :
    Taken.node.text = "self::N" ∧ (oneFile Taken.text).project.Apart
      ∧ Taken.walkedText (Record.constantWalk Taken.context Taken.node Taken.run) = some none
      ∧ Taken.boundText (Audit.resolve "/w/a.php" Taken.node none Taken.run) = some (some "'g'") := by
  decide +kernel

end QueryAudit
