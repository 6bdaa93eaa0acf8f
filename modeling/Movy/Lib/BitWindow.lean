import Mathlib.Algebra.Order.Ring.Nat
import Mathlib.Data.Nat.Bitwise
import Mathlib.Tactic.Ring

/-!
# Masks as runs of ones

The conjunction of a number with a mask, computed from the runs of ones of the
mask: each run `[a, e)` contributes the window of the number between its two
bounds. The scan shifts the mask to the right and counts the position.
-/

namespace Movy

/-- Shift out zeros: the rest of the mask and the position reached. -/
def skipZeros : ℕ → ℕ → ℕ → ℕ × ℕ
  | 0, m, i => (m, i)
  | fuel + 1, m, i => if m ≠ 0 ∧ m % 2 = 0 then skipZeros fuel (m / 2) (i + 1) else (m, i)

def consumeOnes : ℕ → ℕ → ℕ → ℕ × ℕ
  | 0, m, i => (m, i)
  | fuel + 1, m, i => if m % 2 = 1 then consumeOnes fuel (m / 2) (i + 1) else (m, i)

/-- The runs of ones as pairs of bounds, the upper one exclusive. `width` bounds
the position. -/
def maskRuns (width : ℕ) : ℕ → ℕ → ℕ → List (ℕ × ℕ)
  | 0, _, _ => []
  | fuel + 1, m, i =>
    if m = 0 then []
    else
      let z := skipZeros width m i
      if z.1 = 0 then []
      else
        let o := consumeOnes width z.1 z.2
        (z.2, o.2) :: maskRuns width fuel o.1 o.2

def maskedFrom (x m i : ℕ) : ℕ := (x / 2 ^ i &&& m) * 2 ^ i

def window (x a e : ℕ) : ℕ := x % 2 ^ e / 2 ^ a * 2 ^ a

theorem and_eq_bit (y m : ℕ) : y &&& m = y % 2 * (m % 2) + 2 * (y / 2 &&& m / 2) := by
  have h := Nat.div_add_mod (y &&& m) 2
  rw [Nat.and_div_two] at h
  have hbit : (y &&& m) % 2 = y % 2 * (m % 2) := by
    have hand := Nat.and_mod_two_pow (a := y) (b := m) (n := 1)
    rw [pow_one] at hand
    rw [hand]
    rcases Nat.mod_two_eq_zero_or_one y with hy | hy <;>
      rcases Nat.mod_two_eq_zero_or_one m with hm | hm <;> simp [hy, hm]
  omega

theorem maskedFrom_step (x m i : ℕ) :
    maskedFrom x m i = x / 2 ^ i % 2 * (m % 2) * 2 ^ i + maskedFrom x (m / 2) (i + 1) := by
  have hdiv : x / 2 ^ i / 2 = x / 2 ^ (i + 1) := by rw [Nat.div_div_eq_div_mul, pow_succ]
  unfold maskedFrom
  rw [and_eq_bit (x / 2 ^ i) m, hdiv, Nat.add_mul, pow_succ]
  ring

theorem maskedFrom_zero (x i : ℕ) : maskedFrom x 0 i = 0 := by
  simp [maskedFrom]

theorem skipZeros_spec (fuel x m i : ℕ) :
    maskedFrom x m i = maskedFrom x (skipZeros fuel m i).1 (skipZeros fuel m i).2 := by
  induction fuel generalizing m i with
  | zero => rfl
  | succ fuel ih =>
    simp only [skipZeros]
    split_ifs with h
    · rw [maskedFrom_step, h.2, ← ih]
      omega
    · rfl

theorem window_self (x a : ℕ) : window x a a = 0 := by
  have h : x % 2 ^ a / 2 ^ a = 0 := Nat.div_eq_of_lt (Nat.mod_lt _ (Nat.pow_pos (by decide)))
  rw [window, h, Nat.zero_mul]

theorem window_succ (x a e : ℕ) (h : a ≤ e) :
    window x a (e + 1) = window x a e + x / 2 ^ e % 2 * 2 ^ e := by
  obtain ⟨d, rfl⟩ := Nat.exists_eq_add_of_le h
  have hpos : 0 < 2 ^ a := Nat.pow_pos (by decide)
  have hsplit : 2 ^ (a + d) * (x / 2 ^ (a + d) % 2) = 2 ^ a * (2 ^ d * (x / 2 ^ (a + d) % 2)) := by
    rw [pow_add, Nat.mul_assoc]
  unfold window
  rw [Nat.mod_pow_succ, hsplit, Nat.add_mul_div_left _ _ hpos, Nat.add_mul, pow_add]
  ring

/-- The ones from position `i` on are a window of `x`; what is left of the mask
starts behind them. -/
theorem consumeOnes_spec (fuel x m i a : ℕ) (ha : a ≤ i) :
    window x a i + maskedFrom x m i =
      window x a (consumeOnes fuel m i).2 +
        maskedFrom x (consumeOnes fuel m i).1 (consumeOnes fuel m i).2 := by
  induction fuel generalizing m i with
  | zero => rfl
  | succ fuel ih =>
    simp only [consumeOnes]
    split_ifs with h
    · rw [← ih (m / 2) (i + 1) (by omega), window_succ x a i ha, maskedFrom_step x m i, h,
        Nat.mul_one]
      omega
    · rfl

/-! ### Termination: the scans end within the width of the mask -/

theorem consumeOnes_le (fuel m i : ℕ) : i ≤ (consumeOnes fuel m i).2 := by
  induction fuel generalizing m i with
  | zero => exact le_rfl
  | succ fuel ih =>
    simp only [consumeOnes]
    split_ifs
    · exact (Nat.le_succ i).trans (ih (m / 2) (i + 1))
    · exact le_rfl

theorem skipZeros_bound (fuel m i n : ℕ) (h : m < 2 ^ n) :
    (skipZeros fuel m i).1 < 2 ^ n := by
  induction fuel generalizing m i with
  | zero => exact h
  | succ fuel ih =>
    simp only [skipZeros]
    split_ifs
    · exact ih (m / 2) (i + 1) ((Nat.div_le_self m 2).trans_lt h)
    · exact h

theorem skipZeros_odd (fuel m i : ℕ) (h : m < 2 ^ fuel) (h0 : m ≠ 0) :
    (skipZeros fuel m i).1 % 2 = 1 := by
  induction fuel generalizing m i with
  | zero => simp at h; omega
  | succ fuel ih =>
    simp only [skipZeros]
    split_ifs with hz
    · refine ih (m / 2) (i + 1) ?_ ?_
      · rw [pow_succ] at h
        omega
      · omega
    · simp only [not_and] at hz
      have hodd := hz h0
      omega

theorem consumeOnes_half (fuel m i : ℕ) (hf : fuel ≠ 0) (h : m % 2 = 1) :
    (consumeOnes fuel m i).1 ≤ m / 2 := by
  have hle : ∀ fuel m i, (consumeOnes fuel m i).1 ≤ m := by
    intro fuel
    induction fuel with
    | zero => exact fun _ _ => le_rfl
    | succ fuel ih =>
      intro m i
      simp only [consumeOnes]
      split_ifs
      · exact (ih (m / 2) (i + 1)).trans (Nat.div_le_self m 2)
      · exact le_rfl
  cases fuel with
  | zero => exact absurd rfl hf
  | succ fuel =>
    simp only [consumeOnes, h, if_true]
    exact hle fuel (m / 2) (i + 1)

/-- The windows over the runs of a mask add up to the masked number. -/
theorem maskRuns_sum (width fuel x m i : ℕ) (hw : m < 2 ^ width) (hf : m < 2 ^ fuel) :
    ((maskRuns width fuel m i).map fun r => window x r.1 r.2).sum = maskedFrom x m i := by
  induction fuel generalizing m i with
  | zero =>
    have h0 : m = 0 := by simpa using hf
    simp [maskRuns, h0, maskedFrom_zero]
  | succ fuel ih =>
    simp only [maskRuns]
    by_cases h0 : m = 0
    · simp [h0, maskedFrom_zero]
    · have hodd := skipZeros_odd width m i hw h0
      have hwz := skipZeros_bound width m i width hw
      have hfz := skipZeros_bound width m i (fuel + 1) hf
      have hskip := skipZeros_spec width x m i
      revert hodd hwz hfz hskip
      generalize skipZeros width m i = z
      intro hodd hwz hfz hskip
      have hz0 : z.1 ≠ 0 := by omega
      have hwidth : width ≠ 0 := by
        rintro rfl
        simp at hwz
        omega
      have hhalf := consumeOnes_half width z.1 z.2 hwidth hodd
      have hones := consumeOnes_spec width x z.1 z.2 z.2 le_rfl
      have hrest : (consumeOnes width z.1 z.2).1 < 2 ^ fuel := by
        rw [pow_succ] at hfz
        omega
      have hrw : (consumeOnes width z.1 z.2).1 < 2 ^ width := by omega
      rw [if_neg h0, if_neg hz0, List.map_cons, List.sum_cons, ih _ _ hrw hrest, hskip]
      rw [window_self] at hones
      simp only
      omega

/-! ### Positions: no run reaches beyond the width of the mask -/

theorem skipZeros_shifted (fuel m i n : ℕ) (h : m * 2 ^ i < 2 ^ n) :
    (skipZeros fuel m i).1 * 2 ^ (skipZeros fuel m i).2 < 2 ^ n := by
  induction fuel generalizing m i with
  | zero => exact h
  | succ fuel ih =>
    simp only [skipZeros]
    split_ifs with hz
    · refine ih (m / 2) (i + 1) (lt_of_le_of_lt ?_ h)
      rw [pow_succ, Nat.mul_comm (2 ^ i), ← Nat.mul_assoc]
      exact Nat.mul_le_mul_right _ (Nat.div_mul_le_self m 2)
    · exact h

/-- A one at position `i` of a mask below `2 ^ n` means `i < n`. -/
theorem position_lt (m i n : ℕ) (h : m * 2 ^ i < 2 ^ n) (h1 : m % 2 = 1) : i < n := by
  have hle : 2 ^ i ≤ m * 2 ^ i := Nat.le_mul_of_pos_left _ (by omega)
  exact (Nat.pow_lt_pow_iff_right (by decide)).mp (hle.trans_lt h)

theorem consumeOnes_shifted (fuel m i n : ℕ) (h : m * 2 ^ i < 2 ^ n) (hi : i ≤ n) :
    (consumeOnes fuel m i).1 * 2 ^ (consumeOnes fuel m i).2 < 2 ^ n ∧
      (consumeOnes fuel m i).2 ≤ n := by
  induction fuel generalizing m i with
  | zero => exact ⟨h, hi⟩
  | succ fuel ih =>
    simp only [consumeOnes]
    split_ifs with hz
    · refine ih (m / 2) (i + 1) (lt_of_le_of_lt ?_ h) (position_lt m i n h hz)
      rw [pow_succ, Nat.mul_comm (2 ^ i), ← Nat.mul_assoc]
      exact Nat.mul_le_mul_right _ (Nat.div_mul_le_self m 2)
    · exact ⟨h, hi⟩

theorem consumeOnes_lt (fuel m i : ℕ) (hf : fuel ≠ 0) (h : m % 2 = 1) :
    i < (consumeOnes fuel m i).2 := by
  cases fuel with
  | zero => exact absurd rfl hf
  | succ fuel =>
    simp only [consumeOnes, h, if_true]
    exact consumeOnes_le fuel (m / 2) (i + 1)

theorem maskRuns_bounds (width fuel m i n : ℕ) (hw : m < 2 ^ width) (h : m * 2 ^ i < 2 ^ n)
    (r : ℕ × ℕ) (hr : r ∈ maskRuns width fuel m i) : r.1 < r.2 ∧ r.2 ≤ n := by
  induction fuel generalizing m i with
  | zero => simp [maskRuns] at hr
  | succ fuel ih =>
    simp only [maskRuns] at hr
    by_cases h0 : m = 0
    · simp [h0] at hr
    · have hodd := skipZeros_odd width m i hw h0
      have hwz := skipZeros_bound width m i width hw
      have hskip := skipZeros_shifted width m i n h
      revert hodd hwz hskip hr
      generalize skipZeros width m i = z
      intro hr hodd hwz hskip
      have hz0 : z.1 ≠ 0 := by omega
      have hwidth : width ≠ 0 := by
        rintro rfl
        simp at hwz
        omega
      have hi : z.2 ≤ n := (position_lt z.1 z.2 n hskip hodd).le
      obtain ⟨hrest, hle⟩ := consumeOnes_shifted width z.1 z.2 n hskip hi
      have hhalf := consumeOnes_half width z.1 z.2 hwidth hodd
      rw [if_neg h0, if_neg hz0] at hr
      rcases List.mem_cons.mp hr with rfl | hr
      · exact ⟨consumeOnes_lt width z.1 z.2 hwidth hodd, hle⟩
      · exact ih _ _ (by omega) hrest hr

/-! ### Disjoint masks -/

theorem add_eq_or (a b : ℕ) (h : a &&& b = 0) : a + b = a ||| b := by
  induction a using Nat.strongRecOn generalizing b with
  | ind a ih =>
    rcases Nat.eq_zero_or_pos a with rfl | ha
    · simp
    · have hhalf := ih (a / 2) (by omega) (b / 2) (by rw [← Nat.and_div_two, h])
      have hor := Nat.div_add_mod (a ||| b) 2
      rw [Nat.or_div_two, ← hhalf] at hor
      have hand := and_eq_bit a b
      rw [h] at hand
      have hbit : (a ||| b) % 2 = a % 2 + b % 2 := by
        have hmod := Nat.or_mod_two_pow (a := a) (b := b) (n := 1)
        rw [pow_one] at hmod
        rw [hmod]
        rcases Nat.mod_two_eq_zero_or_one a with hx | hx <;>
          rcases Nat.mod_two_eq_zero_or_one b with hy | hy <;> rw [hx, hy] at hand ⊢ <;>
            first | rfl | omega
      omega

theorem testBit_false (w n i : ℕ) (h : n < 2 ^ w) (hi : w ≤ i) : n.testBit i = false :=
  Nat.testBit_lt_two_pow (h.trans_le (Nat.pow_le_pow_right (by decide) hi))

/-- Clear the bits of the mask, then add them. -/
theorem or_eq_clear_add (w n m : ℕ) (hn : n < 2 ^ w) (hm : m < 2 ^ w) :
    (n &&& (2 ^ w - 1 ^^^ m)) + m = n ||| m := by
  rw [add_eq_or]
  · apply Nat.eq_of_testBit_eq
    intro i
    simp only [Nat.testBit_or, Nat.testBit_and, Nat.testBit_xor, Nat.testBit_two_pow_sub_one]
    by_cases hi : i < w
    · cases n.testBit i <;> cases m.testBit i <;> simp [hi]
    · simp [testBit_false w n i hn (by omega)]
  · apply Nat.eq_of_testBit_eq
    intro i
    simp only [Nat.testBit_and, Nat.testBit_xor, Nat.testBit_two_pow_sub_one, Nat.zero_testBit]
    by_cases hi : i < w
    · cases m.testBit i <;> simp [hi]
    · simp [testBit_false w m i hm (by omega)]

/-- Keep the bits off the mask and flip those on it. -/
theorem xor_eq_keep_add_flip (w n m : ℕ) (hn : n < 2 ^ w) (hm : m < 2 ^ w) :
    (n &&& (2 ^ w - 1 ^^^ m)) + (2 ^ w - 1 - n &&& m) = n ^^^ m := by
  have hflip : ∀ i, (2 ^ w - 1 - n).testBit i = (decide (i < w) && !n.testBit i) := by
    intro i
    rw [Nat.sub_sub, Nat.add_comm, Nat.testBit_two_pow_sub_succ hn]
  rw [add_eq_or]
  · apply Nat.eq_of_testBit_eq
    intro i
    simp only [Nat.testBit_or, Nat.testBit_and, Nat.testBit_xor, Nat.testBit_two_pow_sub_one, hflip]
    by_cases hi : i < w
    · cases n.testBit i <;> cases m.testBit i <;> simp [hi]
    · simp [testBit_false w n i hn (by omega), testBit_false w m i hm (by omega)]
  · apply Nat.eq_of_testBit_eq
    intro i
    simp only [Nat.testBit_and, Nat.testBit_xor, Nat.testBit_two_pow_sub_one, Nat.zero_testBit,
      hflip]
    by_cases hi : i < w
    · cases m.testBit i <;> simp [hi]
    · simp [testBit_false w n i hn (by omega)]

end Movy
