/-
  QueryAudit.Proofs.Sample.Concatenation — concatenations up to the limit

  A concatenation cuts the samples of each part to the limit before it combines them, and stops at
  the limit once more. The cuts do not show in what it gives, and a cut is told to the user once.

  Main results: `askIf_askIf`, `takeParts_eq`, `drawConcat_eq_firstProducts`.
-/

import Mathlib.Data.List.Forall2
import QueryAudit.Proofs.Audit.Outcome
import QueryAudit.Proofs.Sample.Products
import QueryAudit.Sample.Evaluator

namespace QueryAudit.Sample

open Audit Php Text List

variable {e : Evaluation} {node : Cursor} {path : String} {r t : Run} {α : Type} {n : Nat}

/-! ## Telling the user about a cut. -/

/-- The user is told that samples were left out, if they were. -/
def askIf (node : Cursor) (path : String) (cut : Bool) : Audit Unit :=
  if cut then warnCap node path else pure ⟨⟩

theorem warnCap_eq :
    warnCap node path r = warnOnce ("sample-cap:" ++ path ++ ":" ++ toString node.start)
      (.at ("sample enumeration capped at " ++ toString r.settings.maxSamples) node path "sample-cap")
      r := rfl

theorem warnCap_ok (h : warnCap node path r = .ok ⟨⟩ t) :
    t.settings = r.settings ∧ warnCap node path t = .ok ⟨⟩ t := by
  rw [warnCap_eq, warnOnce_eq] at h
  split at h
  · next hseen =>
    obtain rfl : r = t := by injection h
    exact ⟨rfl, by rw [warnCap_eq, warnOnce_eq, if_pos hseen]⟩
  · rw [warn_eq] at h
    split at h
    · cases h
    injection h with _ h
    subst h
    refine ⟨rfl, ?_⟩
    rw [warnCap_eq, warnOnce_eq, if_pos (by simp)]

theorem askIf_ok {cut : Bool} (h : askIf node path cut r = .ok ⟨⟩ t) : t.settings = r.settings := by
  cases cut with
  | true => exact (warnCap_ok h).1
  | false =>
    obtain ⟨-, rfl⟩ := pure_ok_iff.mp h
    rfl

theorem askIf_askIf {a b : Bool} {f : Audit α} :
    (do askIf node path a; askIf node path b; f) = (do askIf node path (a || b); f) := by
  funext r
  cases a with
  | false => rfl
  | true =>
    cases h : warnCap node path r with
    | error failure t => exact (bind_of_error h).trans (bind_of_error h).symm
    | ok _ t =>
      refine (bind_of_ok h).trans (Eq.trans ?_ (bind_of_ok h).symm)
      cases b with
      | false => rfl
      | true => exact bind_of_ok (warnCap_ok h).2

/-! ## Parts. -/

/-- A part has the given samples, and drawing from it changes nothing. -/
def Gives (e : Evaluation) (part : Sequence) (values : List String) : Prop :=
  ∀ wanted r, e.draw part wanted r = .ok ⟨values.take wanted, []⟩ r

theorem gives_ready (depth : Nat) (values : List String) :
    Gives (evaluation (depth + 1)) (.ready values) values := by
  intro wanted r
  show drawRule (evaluation depth) (.ready values) wanted r = _
  cases wanted <;> rfl

theorem takeFrom_eq_take {part : Sequence} {values : List String} (h : Gives e part values) :
    takeFrom e part r = .ok (values.take r.settings.maxSamples,
      decide (r.settings.maxSamples < values.length), []) r := by
  have hmore : (r.settings.maxSamples < (values.take (r.settings.maxSamples + 1)).length)
      = (r.settings.maxSamples < values.length) := by
    rw [length_take]
    exact propext (by omega)
  have hless : (values.take (r.settings.maxSamples + 1)).take r.settings.maxSamples
      = values.take r.settings.maxSamples := by
    rw [take_take, Nat.min_eq_left (Nat.le_succ _)]
  unfold takeFrom
  rw [bind_of_ok (show limit r = .ok r.settings.maxSamples r from rfl), bind_of_ok (h _ r)]
  simp only [hmore, hless]
  split <;> rfl

/-- **What is taken of the parts**: each is cut to the limit, and the user is told if one is longer. -/
theorem takeParts_eq {parts : List Sequence} {lists : List (List String)}
    (h : Forall₂ (Gives e) parts lists) :
    ∀ r : Run, takeParts e node path parts r = (do
      askIf node path (lists.any fun values => r.settings.maxSamples < values.length)
      return (lists.map (·.take r.settings.maxSamples), []) : Audit (List (List String) × List Mark))
      r := by
  induction h with
  | nil => exact fun r => rfl
  | @cons part values parts lists hpart _ ih =>
    intro r
    have hrest : takeParts e node path (part :: parts) r = (do
        askIf node path (decide (r.settings.maxSamples < values.length))
        let taken ← takeParts e node path parts
        return (values.take r.settings.maxSamples :: taken.1, taken.2)) r := by
      rw [takeParts, bind_of_ok (takeFrom_eq_take hpart)]
      by_cases hmore : r.settings.maxSamples < values.length
      · simp only [hmore]
        rfl
      · simp only [hmore]
        rfl
    rw [hrest, any_cons, ← askIf_askIf]
    cases hasked : askIf node path (decide (r.settings.maxSamples < values.length)) r with
    | error failure t => exact (bind_of_error hasked).trans (bind_of_error hasked).symm
    | ok _ t =>
      rw [bind_of_ok hasked, bind_of_ok hasked, run_bind, ih t, askIf_ok hasked, run_bind, run_bind]
      cases askIf node path (lists.any fun values => r.settings.maxSamples < values.length) t <;> rfl

/-! ## Combinations. -/

theorem firstProducts_map_take {lists : List (List α)} :
    firstProducts n (lists.map (·.take n)) = firstProducts n lists := by
  induction lists with
  | nil => rfl
  | cons items lists ih => simp only [map_cons, firstProducts, ih, take_take, Nat.min_self]

theorem length_product_cons {items : List α} {lists : List (List α)} :
    (product (items :: lists)).length = items.length * (product lists).length := by
  simp [product]

/-- There are as many combinations as a part has samples, unless a part has none. -/
theorem length_le_product {lists : List (List α)} (h : ∀ items ∈ lists, items ≠ []) :
    0 < (product lists).length ∧ ∀ items ∈ lists, items.length ≤ (product lists).length := by
  induction lists with
  | nil => exact ⟨Nat.one_pos, fun _ hitems => absurd hitems not_mem_nil⟩
  | cons first lists ih =>
    obtain ⟨hfirst, hrest⟩ := forall_mem_cons.mp h
    obtain ⟨hpos, hle⟩ := ih hrest
    have hfirst := length_pos_iff.mpr hfirst
    rw [length_product_cons]
    refine ⟨Nat.mul_pos hfirst hpos, forall_mem_cons.mpr ⟨Nat.le_mul_of_pos_right _ hpos, ?_⟩⟩
    exact fun items hitems => Nat.le_trans (hle items hitems) (Nat.le_mul_of_pos_left _ hfirst)

/-- Something is left out exactly if there are more combinations than the limit. -/
theorem cut_iff {lists : List (List α)} (h : ∀ items ∈ lists, items ≠ []) :
    (lists.any fun items => n < items.length) = true ∨ n < (product (lists.map (·.take n))).length
      ↔ n < (product lists).length := by
  by_cases hlong : ∃ items ∈ lists, n < items.length
  · obtain ⟨items, hitems, hn⟩ := hlong
    refine iff_of_true (.inl ?_) (Nat.lt_of_lt_of_le hn ((length_le_product h).2 items hitems))
    exact any_eq_true.mpr ⟨items, hitems, decide_eq_true hn⟩
  · have hshort : ∀ items ∈ lists, items.take n = items := fun items hitems =>
      take_of_length_le (Nat.le_of_not_lt fun hn => hlong ⟨items, hitems, hn⟩)
    have hnone : ¬ (lists.any fun items => n < items.length) = true := fun hany => by
      obtain ⟨items, hitems, hn⟩ := any_eq_true.mp hany
      exact hlong ⟨items, hitems, of_decide_eq_true hn⟩
    rw [map_congr_left hshort, map_id']
    exact or_iff_right hnone

/-- **A concatenation gives the first combinations of all samples of its parts**, as many as the
limit allows. If no part is empty, the user is told that it was cut exactly if there are more. -/
theorem drawConcat_eq_firstProducts {parts : List Sequence} {lists : List (List String)} {wanted : Nat}
    (h : Forall₂ (Gives e) parts lists) (hwanted : r.settings.maxSamples < wanted) :
    ∃ cut : Bool, drawConcat e parts node path wanted r = (do
        askIf node path cut
        return ⟨((product lists).take r.settings.maxSamples).map (joinWith ""), []⟩ : Audit Drawn) r
      ∧ ((∀ values ∈ lists, values ≠ []) →
        (cut = true ↔ r.settings.maxSamples < (product lists).length)) := by
  obtain ⟨n, hn⟩ : ∃ n, r.settings.maxSamples = n := ⟨_, rfl⟩
  rw [hn] at hwanted ⊢
  refine ⟨(lists.any fun values => n < values.length)
    || decide (n < (product (lists.map (·.take n))).length), ?_, fun hsome => ?_⟩
  · have hvalues : (firstProducts (n + 1) (lists.map (·.take n))).take (min n wanted)
        = (product lists).take n := by
      rw [firstProducts_eq_take, take_take, Nat.min_eq_left (Nat.le_of_lt hwanted),
        Nat.min_eq_left (Nat.le_succ n), ← firstProducts_eq_take, firstProducts_map_take,
        firstProducts_eq_take]
    have hmore : (n < (firstProducts (n + 1) (lists.map (·.take n))).length)
        = (n < (product (lists.map (·.take n))).length) := by
      rw [firstProducts_eq_take, length_take]
      exact propext (by omega)
    have hless : (((product lists).take n).map (joinWith "")).length < wanted := by
      rw [length_map, length_take]
      omega
    unfold drawConcat
    rw [run_bind, takeParts_eq h r, ← askIf_askIf, hn]
    cases hasked : askIf node path (lists.any fun values => n < values.length) r with
    | error failure t => rw [bind_of_error hasked, bind_of_error hasked]
    | ok _ t =>
      have hlimit : limit t = .ok n t := by
        rw [← hn, ← askIf_ok hasked]
        rfl
      rw [bind_of_ok hasked, bind_of_ok hasked]
      show (limit >>= _) t = _
      rw [bind_of_ok hlimit]
      simp only [hvalues, hmore, hless, if_true]
      by_cases hcut : n < (product (lists.map (·.take n))).length
      · simp only [hcut, if_true, decide_true]
        rfl
      · simp only [hcut, if_false, decide_false]
        rfl
  · rw [Bool.or_eq_true, decide_eq_true_eq]
    exact cut_iff hsome

/-- A run with a limit of four samples. -/
def fourSamples : Run := { settings := { maxSamples := 4 }, root := "/p", disk := { base := "/p" } }

/-- Two parts of three samples have nine combinations, of which four are given. -/
theorem drawConcat_eq_firstProducts_nine :
    drawConcat (evaluation 1) [.ready ["1", "2", "3"], .ready ["1", "2", "3"]]
        (.root 0 (parse "<?php".toUTF8)) "/p/a.php" 5 fourSamples = (do
      askIf (.root 0 (parse "<?php".toUTF8)) "/p/a.php" true
      return ⟨["11", "12", "13", "21"], []⟩ : Audit Drawn) fourSamples := by
  obtain ⟨cut, heq, hcut⟩ := @drawConcat_eq_firstProducts (evaluation 1)
    (.root 0 (parse "<?php".toUTF8)) "/p/a.php" fourSamples _ _ 5
    (.cons (gives_ready 0 ["1", "2", "3"]) (.cons (gives_ready 0 ["1", "2", "3"]) .nil)) (by decide)
  obtain rfl : cut = true := (hcut (by decide)).mpr (by decide)
  exact heq

end QueryAudit.Sample
