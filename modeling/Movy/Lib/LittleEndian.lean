import Mathlib.Algebra.Order.Ring.Nat
import Mathlib.Data.List.Basic

/-!
# Little-endian byte strings

Fixed-width little-endian encodings of natural numbers: on the numbers that fit,
encoding and decoding are inverse to each other.
-/

namespace Movy

/-- The `n` base-256 digits of `v`, least significant first. -/
def leBytes : ℕ → ℕ → List (Fin 256)
  | 0, _ => []
  | n + 1, v => Fin.ofNat 256 v :: leBytes n (v / 256)

def fromLeBytes (bytes : List (Fin 256)) : ℕ := bytes.foldr (fun b acc => b.val + 256 * acc) 0

theorem pow_256 (n : ℕ) : 256 ^ n = 2 ^ (8 * n) := (pow_mul 2 8 n).symm

theorem length_leBytes (n v : ℕ) : (leBytes n v).length = n := by
  induction n generalizing v with
  | zero => rfl
  | succ n ih => simp only [leBytes, List.length_cons, ih]

theorem fromLeBytes_lt (bytes : List (Fin 256)) : fromLeBytes bytes < 256 ^ bytes.length := by
  induction bytes with
  | nil => exact Nat.one_pos
  | cons b bytes ih =>
    have hb := b.isLt
    have hcons : fromLeBytes (b :: bytes) = b.val + 256 * fromLeBytes bytes := rfl
    rw [hcons, List.length_cons, pow_succ]
    omega

theorem fromLeBytes_leBytes (n v : ℕ) (h : v < 256 ^ n) : fromLeBytes (leBytes n v) = v := by
  induction n generalizing v with
  | zero =>
    rw [pow_zero] at h
    simp only [leBytes, fromLeBytes, List.foldr_nil]
    omega
  | succ n ih =>
    rw [pow_succ] at h
    have hcons : fromLeBytes (leBytes (n + 1) v) = v % 256 + 256 * fromLeBytes (leBytes n (v / 256)) :=
      rfl
    rw [hcons, ih (v / 256) (by omega)]
    omega

theorem leBytes_fromLeBytes (bytes : List (Fin 256)) :
    leBytes bytes.length (fromLeBytes bytes) = bytes := by
  induction bytes with
  | nil => rfl
  | cons b bytes ih =>
    have hb := b.isLt
    have hcons : fromLeBytes (b :: bytes) = b.val + 256 * fromLeBytes bytes := rfl
    have hdiv : (b.val + 256 * fromLeBytes bytes) / 256 = fromLeBytes bytes := by omega
    have hmod : Fin.ofNat 256 (b.val + 256 * fromLeBytes bytes) = b := by
      apply Fin.ext
      show (b.val + 256 * fromLeBytes bytes) % 256 = b.val
      omega
    rw [hcons, List.length_cons, leBytes, hdiv, hmod, ih]

end Movy
