/-
  QueryAudit.Proofs.Sample.Products — combinations and their texts

  The combinations of lists, which of them are looked at, and the texts they are joined to.

  Main results: `firstProducts_eq_take`;
    * `mem_product_append` — a combination of more lists is one of the first and one of the others;
    * `firstProducts_singletons` — lists of one element each have one combination;
    * `joinWith_empty_append` — joining goes piece by piece.
-/

import QueryAudit.Sample.Product
import QueryAudit.Text.Pieces

namespace QueryAudit.Sample

open Text List

variable {count : Nat} {α β : Type}

/-! ## Combinations. -/

theorem mem_product_cons {items : List α} {rest : List (List α)} {combo : List α} :
    combo ∈ product (items :: rest) ↔ ∃ x ∈ items, ∃ tail ∈ product rest, combo = x :: tail := by
  simp only [product, mem_flatMap, mem_map, eq_comm]

theorem mem_product_append {lists others : List (List α)} :
    ∀ {combo : List α}, combo ∈ product (lists ++ others) ↔
      ∃ left ∈ product lists, ∃ right ∈ product others, combo = left ++ right := by
  induction lists with
  | nil => intro combo; simp [product]
  | cons items lists ih =>
    intro combo
    simp only [cons_append, mem_product_cons, ih]
    constructor
    · rintro ⟨x, hx, tail, ⟨left, hl, right, hr, rfl⟩, rfl⟩
      exact ⟨x :: left, ⟨x, hx, left, hl, rfl⟩, right, hr, rfl⟩
    · rintro ⟨_, ⟨x, hx, left, hl, rfl⟩, right, hr, rfl⟩
      exact ⟨x, hx, left ++ right, ⟨left, hl, right, hr, rfl⟩, rfl⟩

theorem take_eq_of_le {items others : List α} {fewer : Nat} (hle : fewer ≤ count)
    (h : items.take count = others.take count) : items.take fewer = others.take fewer := by
  have htake := congrArg (take fewer) h
  rwa [take_take, take_take, Nat.min_eq_left hle] at htake

theorem take_flatMap_take {f : α → List β} {items : List α} :
    (items.flatMap fun x => (f x).take count).take count = (items.flatMap f).take count := by
  induction items with
  | nil => rfl
  | cons x items ih =>
    have hrest : count - min count (f x).length = count - (f x).length := by omega
    rw [flatMap_cons, flatMap_cons, take_append, take_append, take_take,
      Nat.min_self, length_take, hrest, take_eq_of_le (Nat.sub_le _ _) ih]

/-- Of pieces that are not empty only so many are needed as are wanted altogether. -/
theorem take_take_flatMap {f : α → List β} (hf : ∀ x, f x ≠ []) {items : List α} :
    ∀ count, ((items.take count).flatMap f).take count = (items.flatMap f).take count := by
  induction items with
  | nil =>
    intro count
    rw [take_nil]
  | cons x items ih =>
    intro count
    cases count with
    | zero => rw [take_zero, take_zero]
    | succ count =>
      have hsome := length_pos_iff.mpr (hf x)
      have hle : count + 1 - (f x).length ≤ count := by omega
      rw [take_succ_cons, flatMap_cons, flatMap_cons, take_append,
        take_append, take_eq_of_le hle (ih count)]

/-- **The combinations that are looked at are the first ones.** -/
theorem firstProducts_eq_take {lists : List (List α)} :
    firstProducts count lists = (product lists).take count := by
  induction lists with
  | nil => rfl
  | cons items rest ih =>
    have hmap : ∀ x : α, ((product rest).take count).map (x :: ·)
        = ((product rest).map (x :: ·)).take count := fun x => map_take
    rw [firstProducts, product, ih]
    simp only [hmap]
    rw [take_flatMap_take]
    cases hrest : product rest with
    | nil =>
      have hnone : ∀ items : List α,
          items.flatMap (fun x => ([] : List (List α)).map (x :: ·)) = [] := fun items =>
        flatMap_eq_nil_iff.mpr fun _ _ => rfl
      rw [hnone, hnone]
    | cons first others => exact take_take_flatMap (fun x => by simp) count

theorem mem_product_of_mem_firstProducts {lists : List (List α)} :
    ∀ combo ∈ firstProducts count lists, combo ∈ product lists := by
  intro combo h
  rw [firstProducts_eq_take] at h
  exact mem_of_mem_take h

theorem firstProducts_singletons {values : List α} :
    firstProducts (count + 1) (values.map fun value => [value]) = [values] := by
  induction values with
  | nil => simp [firstProducts]
  | cons value values ih => simp [firstProducts, ih]

/-! ## Joined texts. -/

theorem joinWith_empty_cons {text : String} {texts : List String} :
    joinWith "" (text :: texts) = text ++ joinWith "" texts := by
  cases texts with
  | nil => simp [joinWith]
  | cons next texts => simp [joinWith]

theorem joinWith_empty_append {left right : List String} :
    joinWith "" (left ++ right) = joinWith "" left ++ joinWith "" right := by
  induction left with
  | nil => simp [joinWith]
  | cons text left ih =>
    rw [cons_append, joinWith_empty_cons, joinWith_empty_cons, ih, String.append_assoc]

end QueryAudit.Sample
