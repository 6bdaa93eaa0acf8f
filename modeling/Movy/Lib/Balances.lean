import Movy.Lib.SortedMap
import Mathlib.Algebra.BigOperators.Group.List.Basic
import Mathlib.Algebra.Order.Ring.Int
import Mathlib.Tactic.Linarith

/-!
# Balances by key

Amounts are posted one after another to the account of their key, in machine
integers of a bounded range. As long as the number of entries times the largest
amount fits in the range, no addition overflows, and every account ends with
the sum of its entries, in whatever order they were posted.
-/

namespace Movy

variable {κ : Type} [LinearOrder κ]

/-- Addition of signed integers from `-bound` up to, not including, `bound`. -/
def checkedAdd (bound x y : ℤ) : Option ℤ :=
  if -bound ≤ x + y ∧ x + y < bound then some (x + y) else none

theorem checkedAdd_eq (bound x y : ℤ) (h : |x + y| < bound) :
    checkedAdd bound x y = some (x + y) := by
  obtain ⟨hlow, hhigh⟩ := abs_lt.mp h
  exact if_pos ⟨hlow.le, hhigh⟩

/-- The sum of the amounts under `k`. -/
def totalOf (es : List (κ × ℤ)) (k : κ) : ℤ := ((es.filter fun e => e.1 = k).map Prod.snd).sum

@[simp] theorem totalOf_nil (k : κ) : totalOf [] k = 0 := rfl

theorem totalOf_cons (e : κ × ℤ) (es : List (κ × ℤ)) (k : κ) :
    totalOf (e :: es) k = (if e.1 = k then e.2 else 0) + totalOf es k := by
  by_cases h : e.1 = k
  · simp only [totalOf, List.filter_cons, h, decide_true, if_true, List.map_cons, List.sum_cons]
  · simp only [totalOf, List.filter_cons, h, decide_false, Bool.false_eq_true, if_false, zero_add]

theorem totalOf_perm {es fs : List (κ × ℤ)} (h : es.Perm fs) (k : κ) :
    totalOf es k = totalOf fs k := ((h.filter _).map _).sum_eq

theorem totalOf_eq_zero (es : List (κ × ℤ)) (k : κ) (h : k ∉ es.map Prod.fst) :
    totalOf es k = 0 := by
  induction es with
  | nil => rfl
  | cons e es ih =>
    simp only [List.map_cons, List.mem_cons, not_or] at h
    rw [totalOf_cons, if_neg (Ne.symm h.1), ih h.2, zero_add]

def negated (es : List (κ × ℤ)) : List (κ × ℤ) := es.map fun e => (e.1, -e.2)

theorem totalOf_negated (es : List (κ × ℤ)) (k : κ) : totalOf (negated es) k = -totalOf es k := by
  induction es with
  | nil => rfl
  | cons e es ih =>
    have hcons : negated (e :: es) = (e.1, -e.2) :: negated es := rfl
    rw [hcons, totalOf_cons, totalOf_cons, ih]
    by_cases h : e.1 = k
    · simp only [if_pos h]
      omega
    · simp only [if_neg h]
      omega

namespace SortedMap

def post (bound : ℤ) (m : SortedMap κ ℤ) (e : κ × ℤ) : Option (SortedMap κ ℤ) :=
  (checkedAdd bound ((m.get? e.1).getD 0) e.2).map (m.insert e.1)

def postAll (bound : ℤ) (m : SortedMap κ ℤ) (es : List (κ × ℤ)) : Option (SortedMap κ ℤ) :=
  es.foldlM (post bound) m

/-- All accounts are within `room` of zero. -/
def Within (m : SortedMap κ ℤ) (room : ℤ) : Prop := ∀ k, |(m.get? k).getD 0| ≤ room

theorem within_empty : (empty : SortedMap κ ℤ).Within 0 := by
  intro k
  simp only [get?_empty, Option.getD_none, abs_zero, le_refl]

theorem post_eq (bound amount room : ℤ) (m : SortedMap κ ℤ) (e : κ × ℤ) (hm : m.Within room)
    (he : |e.2| ≤ amount) (hroom : room + amount < bound) :
    post bound m e = some (m.insert e.1 ((m.get? e.1).getD 0 + e.2)) ∧
      (m.insert e.1 ((m.get? e.1).getD 0 + e.2)).Within (room + amount) := by
  have hsum : |(m.get? e.1).getD 0 + e.2| ≤ room + amount :=
    (abs_add_le _ _).trans (add_le_add (hm e.1) he)
  refine ⟨?_, fun k => ?_⟩
  · rw [post, checkedAdd_eq bound _ _ (hsum.trans_lt hroom), Option.map_some]
  · rw [get?_insert]
    split_ifs
    · exact hsum
    · have hamount := (abs_nonneg e.2).trans he
      exact (hm k).trans (by omega)

/-- After all entries, every account has its entries added. By induction on the entries,
with less room left after each. -/
theorem postAll_eq (bound amount : ℤ) (es : List (κ × ℤ)) (room : ℤ) (m : SortedMap κ ℤ)
    (hm : m.Within room) (hamount : ∀ e ∈ es, |e.2| ≤ amount)
    (hroom : room + es.length * amount < bound) :
    ∃ r, postAll bound m es = some r ∧ r.Within (room + es.length * amount) ∧
      ∀ k, r.get? k =
        if k ∈ es.map Prod.fst then some ((m.get? k).getD 0 + totalOf es k) else m.get? k := by
  induction es generalizing m room with
  | nil => exact ⟨m, rfl, fun k => by simpa using hm k, fun k => by simp⟩
  | cons e es ih =>
    have he : |e.2| ≤ amount := hamount e List.mem_cons_self
    have hlen : ((e :: es).length : ℤ) * amount = amount + es.length * amount := by
      rw [List.length_cons, Nat.cast_add, Nat.cast_one, add_mul, one_mul, add_comm]
    have hrest : 0 ≤ (es.length : ℤ) * amount :=
      mul_nonneg (Int.natCast_nonneg _) ((abs_nonneg _).trans he)
    rw [hlen] at hroom ⊢
    obtain ⟨hpost, hwithin⟩ := post_eq bound amount room m e hm he (by omega)
    obtain ⟨r, hr, hrwithin, hget⟩ := ih (room + amount) _ hwithin
      (fun a ha => hamount a (List.mem_cons_of_mem _ ha)) (by omega)
    refine ⟨r, ?_, fun k => (hrwithin k).trans (by omega), fun k => ?_⟩
    · rw [postAll, List.foldlM_cons, hpost]
      exact hr
    · rw [hget, get?_insert, totalOf_cons, List.map_cons]
      by_cases hk : k = e.1
      · subst hk
        by_cases hin : e.1 ∈ es.map Prod.fst
        · simp only [hin, if_true, List.mem_cons, true_or, Option.getD_some]
          congr 1
          omega
        · simp only [hin, if_false, if_true, List.mem_cons, true_or,
            totalOf_eq_zero es e.1 hin, add_zero]
      · have hne : e.1 ≠ k := Ne.symm hk
        simp only [List.mem_cons, hk, false_or, if_false, if_neg hne, zero_add]

end SortedMap

end Movy
