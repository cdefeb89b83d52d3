/-
  QueryAudit.Catalog — named entries in order of arrival

  A finite map from names to values that remembers the order in which names first arrived.
  Setting a name that is present keeps its place; erasing a name frees its place.
-/

namespace QueryAudit

/-- Named values in order of first arrival. -/
structure Catalog (α : Type) where
  entries : List (String × α) := []
  deriving Repr

namespace Catalog

variable {α β : Type}

def empty : Catalog α := ⟨[]⟩

instance : Inhabited (Catalog α) := ⟨empty⟩

/-! ## Views. -/

def get? (t : Catalog α) (name : String) : Option α := t.entries.lookup name

def contains (t : Catalog α) (name : String) : Bool := (t.get? name).isSome

def names (t : Catalog α) : List String := t.entries.map Prod.fst

def values (t : Catalog α) : List α := t.entries.map Prod.snd

def size (t : Catalog α) : Nat := t.entries.length

/-! ## Changes. -/

/-- Put a value under a name: in place when the name is present, at the end otherwise. -/
def setIn (name : String) (value : α) : List (String × α) → List (String × α)
  | [] => [(name, value)]
  | (n, v) :: rest => if n = name then (n, value) :: rest else (n, v) :: setIn name value rest

def set (t : Catalog α) (name : String) (value : α) : Catalog α := ⟨setIn name value t.entries⟩

/-- Put a value under a name that is not present; a present name keeps its value. -/
def setDefault (t : Catalog α) (name : String) (value : α) : Catalog α :=
  if t.contains name then t else t.set name value

/-- Change the value under a name; nothing happens when the name is absent. -/
def modify (t : Catalog α) (name : String) (f : α → α) : Catalog α :=
  ⟨t.entries.map fun (n, v) => if n = name then (n, f v) else (n, v)⟩

/-- Change the value under a name, starting from a default when the name is absent. -/
def alter (t : Catalog α) (name : String) (start : α) (f : α → α) : Catalog α :=
  t.set name (f ((t.get? name).getD start))

def erase (t : Catalog α) (name : String) : Catalog α :=
  ⟨t.entries.filter fun (n, _) => n ≠ name⟩

def map (f : α → β) (t : Catalog α) : Catalog β := ⟨t.entries.map fun (n, v) => (n, f v)⟩

/-- The entries of a list, later values of a name replacing earlier ones in place. -/
def ofList (items : List (String × α)) : Catalog α :=
  items.foldl (fun t (n, v) => t.set n v) empty

end Catalog

end QueryAudit
