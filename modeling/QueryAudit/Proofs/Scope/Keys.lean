/-
  QueryAudit.Proofs.Scope.Keys — keys stand for scopes

  The key of a scope is put together from the names of its class and method, and the key of a block
  from that of its owner and its line. Names of the language hold no colon, so what stands after the
  last two colons, or before the first two, can be read off again.

  Main results: `IsScope.closureOfKey_key`, `IsBlock.eq_of_key_eq`, `closureOfKey_decodes`.
-/

import QueryAudit.Php.Token
import QueryAudit.Proofs.Scope.Filing

namespace QueryAudit.Scope

open Php List FileScopes closureOfKey

variable {c d : Closure} {s : FileScopes} {name className : String}

/-! ## Scopes with names of the language. -/

def isIdentifier (name : String) : Bool := startsName name.toList && name.toList.all isNameChar

/-- Global code, a class, a method, or a function, which has no class. -/
inductive IsScope : Closure → Prop where
  | global : IsScope .global
  | ofClass {name : String} : isIdentifier name → IsScope (.ofClass name)
  | ofMethod {className name : String} : className = "" ∨ isIdentifier className →
      isIdentifier name → IsScope (.ofMethod className name)

/-- A block of a method, of a function or of global code. -/
structure IsBlock (c : Closure) : Prop where
  kind : c.kind = .block
  owner : IsScope c.owner
  outside : c.owner.kind ≠ .classBody

theorem notMem_of_isIdentifier (h : name = "" ∨ isIdentifier name) :
    ':' ∉ name.toList ∧ name ≠ "<global>" := by
  rcases h with rfl | h
  · decide
  rw [isIdentifier, Bool.and_eq_true, all_eq_true] at h
  refine ⟨fun hmem => absurd (h.2 _ hmem) (by decide), ?_⟩
  rintro rfl
  exact absurd h.1 (by decide)

/-! ## Reading keys. -/

theorem splitColons_of_notMem {cs : List Char} (h : ':' ∉ cs) : splitColons cs = none := by
  cases hsplit : splitColons cs with
  | none => rfl
  | some parts =>
    rw [splitColons_eq hsplit] at h
    simp at h

/-- What stands after the last two colons is read off from the right. -/
theorem append_colons_inj {before before' after after' : List Char} (h : ':' ∉ after)
    (h' : ':' ∉ after') (heq : before ++ ':' :: ':' :: after = before' ++ ':' :: ':' :: after') :
    before = before' ∧ after = after' := by
  have hsplit : ∀ p {q : List Char}, ':' ∉ q →
      splitColons (p ++ ':' :: ':' :: q).reverse = some (q.reverse, p.reverse) := by
    intro p q hq
    rw [reverse_append, reverse_cons, reverse_cons, append_assoc, append_assoc]
    exact splitColons_append (by simpa using hq)
  have hboth := hsplit before h
  rw [heq, hsplit before' h', Option.some.injEq, Prod.mk.injEq, reverse_inj, reverse_inj] at hboth
  exact ⟨hboth.2.symm, hboth.1.symm⟩

theorem isDigit_of_mem_repr {n : Nat} {c : Char} (h : c ∈ n.repr.toList) : c.isDigit = true := by
  rw [Nat.toList_repr] at h
  exact Nat.isDigit_of_mem_toDigits (by decide) (by decide) h

theorem notMem_toString (n : Int) : ':' ∉ (toString n).toList := by
  have hrepr : ∀ i : Nat, ':' ∉ i.repr.toList := fun i h => absurd (isDigit_of_mem_repr h) (by decide)
  cases n with
  | ofNat i => exact hrepr i
  | negSucc i =>
    show ':' ∉ ("-" ++ (i + 1).repr).toList
    rw [String.toList_append, mem_append, not_or]
    exact ⟨by decide, hrepr _⟩

theorem toString_int_inj {m n : Int} (h : toString m = toString n) : m = n := by
  have hread : ∀ {i j : Nat}, i.repr = j.repr → i = j := by
    intro i j heq
    rw [← Nat.ofDigitChars_ten_toDigits (n := i), ← Nat.ofDigitChars_ten_toDigits (n := j),
      ← Nat.toList_repr, heq, Nat.toList_repr]
  have hsign : ∀ {i j : Nat}, i.repr ≠ "-" ++ j.repr := by
    intro i j heq
    have hmem : '-' ∈ i.repr.toList := by simp [heq]
    exact absurd (isDigit_of_mem_repr hmem) (by decide)
  cases m with
  | ofNat i =>
    cases n with
    | ofNat j => rw [hread h]
    | negSucc j => exact absurd h hsign
  | negSucc i =>
    cases n with
    | ofNat j => exact absurd h.symm hsign
    | negSucc j => rw [Nat.succ.inj (hread ((String.append_right_inj _).mp h))]

/-- What the key of a block has after that of its owner. -/
def blockSuffix (c : Closure) : List Char := "FOREACH_".toList ++ (toString c.line).toList

theorem toList_key_block (h : c.kind = .block) :
    c.key.toList = c.owner.key.toList ++ ':' :: ':' :: blockSuffix c := by
  rw [Closure.key, if_pos h, key_owner, String.toList_append, String.toList_append, append_assoc]
  rfl

theorem notMem_blockSuffix : ':' ∉ blockSuffix c := by
  intro h
  rcases mem_append.mp h with h | h
  · exact absurd h (by decide)
  · exact notMem_toString _ h

/-! ## Scopes of keys. -/

/-- A key that no block has stands for the scope it was made from. -/
theorem IsScope.closureOfKey_key (h : IsScope c)
    (hblocks : ∀ block ∈ s.blocks.values.flatten, block.key ≠ c.key) : s.closureOfKey c.key = c := by
  have hfind : s.blocks.values.flatten.find? (·.key = c.key) = none :=
    find?_eq_none.mpr fun block hblock => by simpa using hblocks block hblock
  cases h with
  | global => rfl
  | @ofClass name hname =>
    obtain ⟨hcolon, hglobal⟩ := notMem_of_isIdentifier (.inr hname)
    have hkey : (Closure.ofClass name).key = name := rfl
    rw [hkey] at hfind ⊢
    rw [closureOfKey, if_neg hglobal, hfind]
    dsimp only
    rw [splitColons_of_notMem hcolon]
  | ofMethod hclass _ => exact closureOfKey_ofMethod (notMem_of_isIdentifier hclass).1 hfind

theorem IsBlock.key_ne (h : IsBlock c) (hd : IsScope d) : c.key ≠ d.key := by
  intro heq
  have hkey := heq ▸ toList_key_block h.kind
  have hmem : ':' ∈ d.key.toList := by simp [hkey]
  cases hd with
  | global => exact absurd hmem (by decide)
  | ofClass hname => exact (notMem_of_isIdentifier (.inr hname)).1 hmem
  | ofMethod hclass hname =>
    obtain ⟨hcolon, hglobal⟩ := notMem_of_isIdentifier hclass
    rw [toList_key_method] at hkey
    obtain ⟨howner, _⟩ :=
      append_colons_inj (notMem_of_isIdentifier (.inr hname)).1 notMem_blockSuffix hkey
    obtain ⟨_, hscope, houtside⟩ := h
    generalize c.owner = owner at *
    cases hscope with
    | global => exact hglobal (String.toList_inj.mp howner)
    | ofClass => exact houtside rfl
    | ofMethod => simp [howner, toList_key_method] at hcolon

/-- Two scopes that are no blocks have different keys. -/
theorem IsScope.eq_of_key_eq (hc : IsScope c) (hd : IsScope d) (heq : c.key = d.key) : c = d := by
  have hread : ∀ {e}, IsScope e → closureOfKey { path := "" } e.key = e := fun he =>
    he.closureOfKey_key fun _ hblock => nomatch hblock
  rw [← hread hc, heq, hread hd]

theorem IsBlock.eq_of_key_eq (hc : IsBlock c) (hd : IsBlock d) (heq : c.key = d.key) :
    c.owner = d.owner ∧ c.line = d.line := by
  have hkeys := congrArg String.toList heq
  rw [toList_key_block hc.kind, toList_key_block hd.kind] at hkeys
  obtain ⟨howner, hsuffix⟩ := append_colons_inj notMem_blockSuffix notMem_blockSuffix hkeys
  exact ⟨hc.owner.eq_of_key_eq hd.owner (String.toList_inj.mp howner),
    toString_int_inj (String.toList_inj.mp (append_cancel_left hsuffix))⟩

theorem IsBlock.names (h : IsBlock c) :
    c.owner.className = c.className ∧ c.owner.methodName = c.methodName := by
  obtain ⟨hkind, _, houtside⟩ := h
  rw [Closure.owner, if_pos hkind] at *
  split
  · exact ⟨rfl, rfl⟩
  · next hmethod =>
    split
    · next hclass => exact absurd (by rw [if_neg hmethod, if_pos hclass]; rfl) houtside
    · next hclass => exact ⟨(Decidable.of_not_not hclass).symm, (Decidable.of_not_not hmethod).symm⟩

/-- Blocks with one key differ in their last lines only. -/
theorem IsBlock.same_of_key_eq (hc : IsBlock c) (hd : IsBlock d) (heq : c.key = d.key) :
    c = { d with endLine := c.endLine } := by
  obtain ⟨howner, hline⟩ := hc.eq_of_key_eq hd heq
  have hkind := hc.kind.trans hd.kind.symm
  have hclass : c.className = d.className := by rw [← hc.names.1, howner, hd.names.1]
  have hmethod : c.methodName = d.methodName := by rw [← hc.names.2, howner, hd.names.2]
  cases c
  simp_all

/-- **Keys can be read.** The key of a scope that is no block stands for that scope, the key of a
block for a block of the same owner and line. Different scopes have different keys, but for blocks of
one owner on one line. So the search for a hidden definition goes on in the scopes around the one
that the definition was made in. -/
theorem closureOfKey_decodes (s : FileScopes)
    (h : ∀ block ∈ s.blocks.values.flatten, IsBlock block) :
    (∀ c, IsScope c → s.closureOfKey c.key = c)
      ∧ (∀ block ∈ s.blocks.values.flatten, ∃ found ∈ s.blocks.values.flatten,
          s.closureOfKey block.key = found ∧ block = { found with endLine := block.endLine })
      ∧ (∀ c d, IsScope c ∨ IsBlock c → IsScope d ∨ IsBlock d → c.key = d.key →
          c = d ∨ c.kind = .block ∧ d.kind = .block ∧ c.owner = d.owner ∧ c.line = d.line)
      ∧ ∀ c, IsScope c ∨ c ∈ s.blocks.values.flatten → ∀ b, b.closure = c.key → s.earlier b = [] →
          s.previous b = (if c.kind = .block then c.owner :: c.owner.outer else c.outer).findSome?
            fun d => lastBefore (s.entries d.key b.identifier) (some b.line) := by
  have hscope : ∀ c, IsScope c → s.closureOfKey c.key = c := fun c hc =>
    hc.closureOfKey_key fun block hblock => (h block hblock).key_ne hc
  have hblocks : ∀ block ∈ s.blocks.values.flatten, ∃ found ∈ s.blocks.values.flatten,
      s.closureOfKey block.key = found ∧ block = { found with endLine := block.endLine } := by
    intro block hblock
    obtain ⟨found, hfound⟩ := Option.isSome_iff_exists.mp
      (find?_isSome (p := fun other : Closure => other.key = block.key) |>.mpr
        ⟨block, hblock, decide_eq_true rfl⟩)
    have hmem := mem_of_find?_eq_some hfound
    have hne : block.key ≠ "<global>" := (h block hblock).key_ne .global
    refine ⟨found, hmem, by rw [closureOfKey, if_neg hne, hfound], ?_⟩
    have hkey : found.key = block.key := by simpa using find?_some hfound
    exact (h block hblock).same_of_key_eq (h found hmem) hkey.symm
  refine ⟨hscope, hblocks, fun c d hc hd heq => ?_, fun c hc b hb hnone => ?_⟩
  · rcases hc with hc | hc <;> rcases hd with hd | hd
    · exact .inl (hc.eq_of_key_eq hd heq)
    · exact absurd heq.symm (hd.key_ne hc)
    · exact absurd heq (hc.key_ne hd)
    · exact .inr ⟨hc.kind, hd.kind, hc.eq_of_key_eq hd heq⟩
  · rw [FileScopes.previous, hnone, hb]
    rcases hc with hc | hc
    · rw [hscope c hc]
      rfl
    · obtain ⟨found, hmem, hfound, hsame⟩ := hblocks c hc
      rw [hfound, hsame]
      cases found
      cases (h _ hmem).kind
      rfl

def loopOnLine (endLine : Int) : Closure :=
  { kind := .block, className := "C", methodName := "m", line := 5, endLine }

/-- A file with two loops of a method that start on one line, and a loop of global code. -/
def loopsOnLine : FileScopes :=
  ((FileScopes.addBlock { path := "a.php" } (loopOnLine 9)).addBlock (loopOnLine 7)).addBlock
    { kind := .block, line := 5, endLine := 6 }

/-- A method may go by a name that looks like the end of the key of a block. -/
theorem closureOfKey_decodes_line :
    loopsOnLine.closureOfKey (Closure.ofMethod "C" "FOREACH_5").key = .ofMethod "C" "FOREACH_5"
      ∧ ∃ endLine, loopsOnLine.closureOfKey (loopOnLine 7).key = loopOnLine endLine := by
  have hmethod : IsScope (.ofMethod "C" "m") := .ofMethod (.inr (by decide)) (by decide)
  obtain ⟨hscope, hblock, _⟩ := closureOfKey_decodes loopsOnLine <| by
    intro block hblock
    rcases mem_cons.mp hblock with rfl | hblock
    · exact ⟨rfl, hmethod, by decide⟩
    rcases mem_cons.mp hblock with rfl | hblock
    · exact ⟨rfl, hmethod, by decide⟩
    · rw [mem_singleton.mp hblock]
      exact ⟨rfl, .global, by decide⟩
  obtain ⟨⟨kind, className, methodName, line, endLine⟩, _, hfound, hsame⟩ :=
    hblock (loopOnLine 7) (by decide)
  refine ⟨hscope _ (.ofMethod (.inr (by decide)) (by decide)), endLine, ?_⟩
  cases hsame
  exact hfound

end QueryAudit.Scope
