/-
  QueryAudit.Scope.Binding — definitions of identifiers

  A binding is one candidate definition of an identifier. Identifiers are variables (`$name`),
  properties of the object at hand (`->name`), static properties (`::$name`), constants (`NAME`)
  and properties of other local objects (`$object->name`). References and assignment targets are
  looked up by the same key.
-/

import QueryAudit.Php.Shape
import QueryAudit.Scope.Closure
import QueryAudit.Text.Case

namespace QueryAudit.Scope

open Php Text

/-! ## Bindings. -/

inductive Tag where
  | parameter
  | loopKey
  | loopValue
  | element
  | other (name : String)
  deriving DecidableEq, Repr

def Tag.name : Tag → String
  | .parameter => "parameter"
  | .loopKey => "FOREACH_KEY"
  | .loopValue => "FOREACH_VALUE"
  | .element => "ELEMENT"
  | .other name => name

def Tag.ofName : String → Tag
  | "parameter" => .parameter
  | "FOREACH_KEY" => .loopKey
  | "FOREACH_VALUE" => .loopValue
  | "ELEMENT" => .element
  | name => .other name

def Tag.isLoop : Tag → Bool
  | .loopKey | .loopValue => true
  | _ => false

/-- One candidate definition of an identifier. -/
structure Binding where
  identifier : String
  closure : String
  line : Int
  path : String := ""
  node : Option Cursor := none
  literal : Option String := none
  tag : Option Tag := none
  origin : Int := 0
  serial : Nat := 0
  deriving Repr

namespace Binding

def isParameter (b : Binding) : Bool := b.tag = some .parameter

def same (a b : Binding) : Bool := a.serial = b.serial

end Binding

/-! ## Keys. -/

/-- How a reference or an assignment target is looked up. -/
structure RefKey where
  identifier : String
  classScoped : Bool := false
  classRef : Option String := none
  deriving DecidableEq, Repr

def RefKey.namedClass? (key : RefKey) : Option String := key.classRef.filter (· ≠ "")

def memberKey (scope identifier : String) : RefKey :=
  match lower scope with
  | "self" | "static" => ⟨identifier, true, none⟩
  | "parent" => ⟨identifier, true, some "parent"⟩
  | _ => ⟨identifier, true, some (shortClassName scope)⟩

mutual

def nodeKey? : Node → Option RefKey
  | ⟨kind, named, role, span, text, children⟩ =>
    let node : Node := ⟨kind, named, role, span, text, children⟩
    match kind with
    | .variableName => some ⟨text, false, none⟩
    | .byRef => firstPartKey? children
    | .memberAccessExpression | .nullsafeMemberAccessExpression =>
      match node.inRole? "object", node.inRole? "name" with
      | some object, some name =>
        if name.kind ≠ .name then none
        else if object.kind = .variableName && object.text = "$this" then
          some ⟨"->" ++ name.text, true, none⟩
        else
          match objectKey? children with
          | some base =>
            if base.classScoped || base.namedClass?.isSome then none
            else some ⟨base.identifier ++ "->" ++ name.text, false, none⟩
          | none => none
      | _, _ => none
    | .scopedPropertyAccessExpression =>
      match node.inRole? "scope", node.inRole? "name" with
      | some scope, some name => some (memberKey scope.text ("::" ++ name.text))
      | _, _ => none
    | .classConstantAccessExpression =>
      match node.parts with
      | first :: second :: rest =>
        some (memberKey first.text ((rest.getLast?).getD second).text)
      | _ => none
    | .name => some ⟨text, false, none⟩
    | .constElement => some ⟨node.nameText, false, none⟩
    | _ => none

def firstPartKey? : List Node → Option RefKey
  | [] => none
  | n :: rest => if n.named && n.kind ≠ .comment then nodeKey? n else firstPartKey? rest

def objectKey? : List Node → Option RefKey
  | [] => none
  | n :: rest => if n.role = some "object" then nodeKey? n else objectKey? rest

end

def referenceKey? (c : Cursor) : Option RefKey := nodeKey? c.node

end QueryAudit.Scope
