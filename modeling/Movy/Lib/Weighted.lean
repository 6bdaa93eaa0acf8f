import Mathlib.Algebra.BigOperators.Group.List.Basic
import Mathlib.Algebra.GroupWithZero.Nat
import Mathlib.Algebra.Order.BigOperators.Group.Finset
import Mathlib.Data.Nat.Count

/-!
# Drawing by weight

A list of weights cuts the numbers below its sum into intervals, one for each
position. A number that is drawn evenly falls into an interval as often as its
weight says.
-/

namespace Movy

/-- The position whose interval contains the number. -/
def drawIndex : List ℕ → ℕ → Option ℕ
  | [], _ => none
  | w :: ws, r => if r < w then some 0 else (drawIndex ws (r - w)).map (· + 1)

theorem drawIndex_head (w : ℕ) (ws : List ℕ) (r : ℕ) (hr : r < w) :
    drawIndex (w :: ws) r = some 0 := by
  rw [drawIndex, if_pos hr]

theorem drawIndex_tail (w : ℕ) (ws : List ℕ) (r : ℕ) :
    drawIndex (w :: ws) (w + r) = (drawIndex ws r).map (· + 1) := by
  rw [drawIndex, if_neg (by omega), Nat.add_sub_cancel_left]

theorem drawIndex_positive (ws : List ℕ) (r i : ℕ) (h : drawIndex ws r = some i) :
    ∃ w, ws[i]? = some w ∧ 0 < w := by
  induction ws generalizing r i with
  | nil => cases h
  | cons w ws ih =>
    rw [drawIndex] at h
    split_ifs at h with hr
    · obtain rfl := Option.some.inj h
      exact ⟨w, rfl, by omega⟩
    · obtain ⟨j, hj, rfl⟩ := Option.map_eq_some_iff.mp h
      exact ih (r - w) j hj

theorem drawIndex_total (ws : List ℕ) (r : ℕ) (hr : r < ws.sum) : ∃ i, drawIndex ws r = some i := by
  induction ws generalizing r with
  | nil => exact absurd hr (Nat.not_lt_zero r)
  | cons w ws ih =>
    rw [List.sum_cons] at hr
    by_cases hw : r < w
    · exact ⟨0, drawIndex_head w ws r hw⟩
    · obtain ⟨i, hi⟩ := ih (r - w) (by omega)
      refine ⟨i + 1, ?_⟩
      rw [drawIndex, if_neg hw, hi, Option.map_some]

/-- Every position is drawn as often as its weight says. -/
theorem count_drawIndex (ws : List ℕ) (i w : ℕ) (h : ws[i]? = some w) :
    Nat.count (fun r => drawIndex ws r = some i) ws.sum = w := by
  induction ws generalizing i with
  | nil => cases h
  | cons v ws ih =>
    rw [List.sum_cons, Nat.count_add]
    cases i with
    | zero =>
      obtain rfl : v = w := Option.some.inj h
      have hhead : Nat.count (fun r => drawIndex (v :: ws) r = some 0) v = v :=
        Nat.count_of_forall fun r hr => drawIndex_head v ws r hr
      have htail : Nat.count (fun r => drawIndex (v :: ws) (v + r) = some 0) ws.sum = 0 := by
        apply Nat.count_of_forall_not
        intro r _
        simp [drawIndex_tail]
      rw [hhead, htail, Nat.add_zero]
    | succ i =>
      have hhead : Nat.count (fun r => drawIndex (v :: ws) r = some (i + 1)) v = 0 := by
        apply Nat.count_of_forall_not
        intro r hr
        simp [drawIndex_head v ws r hr]
      have htail : ∀ r, drawIndex (v :: ws) (v + r) = some (i + 1) ↔ drawIndex ws r = some i := by
        intro r
        simp [drawIndex_tail]
      simp only [hhead, htail, Nat.zero_add]
      exact ih i h

theorem sum_getD (ws : List ℕ) : ∑ i ∈ Finset.range ws.length, ws.getD i 0 = ws.sum := by
  induction ws with
  | nil => rfl
  | cons w ws ih =>
    rw [List.length_cons, Finset.sum_range_succ', List.sum_cons, Nat.add_comm w, ← ih]
    rfl

/-- Positions cannot be drawn more often than there are draws. -/
theorem sum_le_of_count (ws : List ℕ) (draw : ℕ → Option ℕ) (n : ℕ)
    (h : ∀ i w, ws[i]? = some w → Nat.count (fun r => draw r = some i) n = w) : ws.sum ≤ n := by
  have hcount : ∀ i ∈ Finset.range ws.length,
      ws.getD i 0 = ((Finset.range n).filter fun r => draw r = some i).card := by
    intro i hi
    have hget := List.getElem?_eq_getElem (Finset.mem_range.mp hi)
    rw [← Nat.count_eq_card_filter_range, h i _ hget, List.getD_eq_getElem?_getD, hget,
      Option.getD_some]
  have hsum : ws.sum = ∑ i ∈ (Finset.range ws.length).map ⟨some, Option.some_injective ℕ⟩,
      ((Finset.range n).filter fun r => draw r = i).card := by
    rw [Finset.sum_map, ← sum_getD]
    exact Finset.sum_congr rfl hcount
  rw [hsum, Finset.sum_card_fiberwise_eq_card_filter]
  exact (Finset.card_filter_le _ _).trans_eq (Finset.card_range n)

end Movy
