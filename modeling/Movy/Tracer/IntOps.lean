import Movy.Lib.BitWindow
import Movy.Lib.IntTerm
import Mathlib.Data.List.Forall2

/-!
# Bit operations on integer terms (`movy-replay/src/tracer/concolic.rs`)

The concolic engine keeps one integer term per symbolic value. The helpers
below encode the bit operations of the Move VM with integer arithmetic, given
the width of the operands and the concrete value of one of them.
-/

namespace Movy.Tracer

/- The argument variable `k.i`: the `i`-th argument of the `k`-th call. -/
abbrev ArgVar := ℕ × ℕ

/- The solver's `Int` and `Bool`. -/
abbrev ZInt := IntTerm ArgVar

abbrev ZBool := BoolTerm ArgVar

/- `U256::one() << bits` shifts the one out of the 256 bits. -/
def u256OneShl (bits : ℕ) : ℕ := if bits < 256 then 2 ^ bits else 0

/- Subtraction of `U256` wraps. -/
def u256Sub (a b : ℕ) : ℕ := (a + 2 ^ 256 - b) % 2 ^ 256

def intTwoPow (bits : ℕ) : ZInt := .const (u256OneShl bits)

def intMod2n (x : ZInt) (bits : ℕ) : ZInt := x.modulo (intTwoPow bits)

/- The term of one run of ones `[a, e)` of the mask. -/
def runTerm (x0 : ZInt) (r : ℕ × ℕ) : ZInt :=
  let a := r.1
  let b := r.2 - 1
  let len := b - a + 1
  ((((x0.rem (intTwoPow (b + 1))).div (intTwoPow a)).rem (intTwoPow len)).mul (intTwoPow a))

def intBvandConst (x : ZInt) (mask bits : ℕ) : ZInt :=
  let x0 := intMod2n x bits
  if mask = 0 then .const 0
  else
    let maskW := mask &&& u256Sub (u256OneShl bits) 1
    ((maskRuns 256 256 maskW 0).map (runTerm x0)).foldl IntTerm.add (.const 0)

def intBvorConst (x : ZInt) (mask bits : ℕ) : ZInt :=
  let full := u256Sub (u256OneShl bits) 1
  let maskW := mask &&& full
  let notMaskW := full ^^^ maskW
  (intBvandConst x notMaskW bits).add (.const maskW)

def intBvnot (x : ZInt) (bits : ℕ) : ZInt :=
  let x0 := intMod2n x bits
  let full := (intTwoPow bits).sub (.const 1)
  full.sub x0

def intBvxorConst (x : ZInt) (mask bits : ℕ) : ZInt :=
  let full := u256Sub (u256OneShl bits) 1
  let maskW := mask &&& full
  let notMaskW := full ^^^ maskW
  let partKeep := intBvandConst x notMaskW bits
  let xNot := intBvnot x bits
  let partFlip := intBvandConst xNot maskW bits
  intMod2n (partKeep.add partFlip) bits

/-! ### Their values, for a width below 256

At 256 bits `intTwoPow` is zero and the modulus is one by zero. -/

section Values

variable (I : Interp ArgVar) (U : ZInt → Prop)

theorem intTwoPow_means (bits : ℕ) (h : bits < 256) : (intTwoPow bits).Means I U (2 ^ bits) := by
  rw [intTwoPow, u256OneShl, if_pos h]
  exact IntTerm.Means.const I U (2 ^ bits)

theorem two_pow_ne_zero (n : ℕ) : 2 ^ n ≠ 0 := (Nat.pow_pos (by decide)).ne'

theorem u256_full (bits : ℕ) (h : bits ≤ 256) : u256Sub (u256OneShl bits) 1 = 2 ^ bits - 1 := by
  have hpos : 0 < 2 ^ bits := Nat.pow_pos (by decide)
  have hle : 2 ^ bits ≤ 2 ^ 256 := Nat.pow_le_pow_right (by decide) h
  rw [u256OneShl, u256Sub]
  split_ifs with hlt
  · omega
  · have heq : bits = 256 := by omega
    rw [heq, Nat.zero_add, Nat.mod_eq_of_lt (Nat.sub_lt (Nat.pow_pos (by decide)) (by decide))]

theorem intMod2n_means (x : ZInt) (n bits : ℕ) (hb : bits < 256) (hx : x.Means I U n) :
    (intMod2n x bits).Means I U (n % 2 ^ bits) :=
  hx.modulo (intTwoPow_means I U bits hb) (two_pow_ne_zero bits)

theorem and_mod_two_pow (n m w : ℕ) (h : n < 2 ^ w) : n &&& m % 2 ^ w = n &&& m := by
  have hmod := Nat.and_mod_two_pow (a := n) (b := m) (n := w)
  rw [Nat.mod_eq_of_lt h, Nat.mod_eq_of_lt (Nat.and_le_left.trans_lt h)] at hmod
  exact hmod.symm

/- The remainder by `intTwoPow e` is the one by `2 ^ e`: at 256 bits that is for the
solver to choose. -/
def RemAt (e : ℕ) : Prop := e < 256 ∨ e = 256 ∧ ∀ z : ℤ, I.rem0 z = z % 2 ^ 256

theorem RemAt.mono {I : Interp ArgVar} {d e : ℕ} (h : RemAt I e) (hle : d ≤ e) : RemAt I d := by
  rcases h with h | ⟨heq, hrem⟩
  · exact .inl (by omega)
  · rcases Nat.lt_or_ge d 256 with hd | hd
    · exact .inl hd
    · exact .inr ⟨by omega, hrem⟩

theorem RemAt.le {I : Interp ArgVar} {e : ℕ} (h : RemAt I e) : e ≤ 256 := by
  rcases h with h | ⟨h, -⟩ <;> omega

theorem rem_means (x : ZInt) (n e : ℕ) (he : RemAt I e) (hx : x.Means I U n) :
    (x.rem (intTwoPow e)).Means I U (n % 2 ^ e) := by
  rcases he with he | ⟨rfl, hrem⟩
  · exact hx.rem (intTwoPow_means I U e he) (two_pow_ne_zero e)
  · intro ha
    have hzero : (intTwoPow 256).eval I = 0 := rfl
    rw [IntTerm.eval, if_pos hzero, hrem, hx ha.2.1, Int.natCast_emod]
    rfl

theorem runTerm_means (x0 : ZInt) (n : ℕ) (r : ℕ × ℕ) (hx : x0.Means I U n) (hlt : r.1 < r.2)
    (hle : RemAt I r.2) : (runTerm x0 r).Means I U (window n r.1 r.2) := by
  obtain ⟨a, e⟩ := r
  simp only at hlt hle
  have hle256 := hle.le
  have hb : e - 1 + 1 = e := by omega
  have hlen : e - 1 - a + 1 = e - a := by omega
  have ha := intTwoPow_means I U a (by omega)
  have hterm := (rem_means I U _ _ (e - a) (hle.mono (Nat.sub_le e a))
    ((rem_means I U x0 n e hle hx).div ha (two_pow_ne_zero a))).mul ha
  -- the window has at most `e - a` bits, so the last remainder changes nothing
  have hsmall : n % 2 ^ e / 2 ^ a < 2 ^ (e - a) := by
    apply Nat.div_lt_of_lt_mul
    rw [← pow_add, Nat.add_sub_cancel' hlt.le]
    exact Nat.mod_lt _ (Nat.pow_pos (by decide))
  rw [Nat.mod_eq_of_lt hsmall] at hterm
  simp only [runTerm, hb, hlen]
  exact hterm

theorem sum_means (terms : List ZInt) (values : List ℕ) (acc : ZInt) (n : ℕ)
    (hacc : acc.Means I U n) (h : List.Forall₂ (fun t v => IntTerm.Means I U t v) terms values) :
    (terms.foldl IntTerm.add acc).Means I U (n + values.sum) := by
  induction h generalizing acc n with
  | nil => simpa using hacc
  | cons ht _ ih =>
    rw [List.foldl_cons, List.sum_cons, ← Nat.add_assoc]
    exact ih _ _ (hacc.add ht)

/- The conjunction is that of the reduced operand, whatever the reduction made of it. -/
theorem intBvandConst_reduced (x : ZInt) (n mask bits : ℕ) (hb : RemAt I bits)
    (hx0 : (intMod2n x bits).Means I U n) (hn : n < 2 ^ bits) :
    (intBvandConst x mask bits).Means I U (n &&& mask) := by
  simp only [intBvandConst]
  split_ifs with h0
  · subst h0
    rw [Nat.and_zero]
    exact IntTerm.Means.const I U 0
  · have hmask : mask % 2 ^ bits < 2 ^ bits := Nat.mod_lt _ (Nat.pow_pos (by decide))
    have hm256 : mask % 2 ^ bits < 2 ^ 256 :=
      hmask.trans_le (Nat.pow_le_pow_right (by decide) hb.le)
    rw [u256_full bits hb.le, Nat.and_two_pow_sub_one_eq_mod]
    have hterms : List.Forall₂ (fun t v => IntTerm.Means I U t v)
        ((maskRuns 256 256 (mask % 2 ^ bits) 0).map (runTerm (intMod2n x bits)))
        ((maskRuns 256 256 (mask % 2 ^ bits) 0).map fun r => window n r.1 r.2) := by
      simp only [List.forall₂_map_left_iff, List.forall₂_map_right_iff, List.forall₂_same]
      intro r hr
      obtain ⟨hlt, hle⟩ := maskRuns_bounds 256 256 _ 0 bits hm256 (by simpa using hmask) r hr
      exact runTerm_means I U _ n r hx0 hlt (hb.mono hle)
    have hsum := sum_means I U _ _ _ 0 (IntTerm.Means.const I U 0) hterms
    rw [maskRuns_sum 256 256 n _ 0 hm256 hm256] at hsum
    simpa [maskedFrom, and_mod_two_pow n mask bits hn] using hsum

/- The bits off the mask are cleared, then those of the mask added. -/
theorem intBvorConst_reduced (x : ZInt) (n mask bits : ℕ) (hb : RemAt I bits)
    (hx0 : (intMod2n x bits).Means I U n) (hn : n < 2 ^ bits) :
    (intBvorConst x mask bits).Means I U ((n ||| mask) % 2 ^ bits) := by
  have hmask : mask % 2 ^ bits < 2 ^ bits := Nat.mod_lt _ (Nat.pow_pos (by decide))
  have hor : (n ||| mask) % 2 ^ bits = n ||| mask % 2 ^ bits := by
    rw [Nat.or_mod_two_pow, Nat.mod_eq_of_lt hn]
  simp only [intBvorConst]
  rw [u256_full bits hb.le, Nat.and_two_pow_sub_one_eq_mod, hor,
    ← or_eq_clear_add bits n _ hn hmask]
  exact (intBvandConst_reduced I U x n _ bits hb hx0 hn).add (IntTerm.Means.const I U _)

section Narrow

variable (x : ZInt) (n mask bits : ℕ) (hb : bits < 256) (hx : x.Means I U n) (hn : n < 2 ^ bits)

include hb hx hn

theorem reduced_means : (intMod2n x bits).Means I U n := by
  have hx0 := intMod2n_means I U x n bits hb hx
  rwa [Nat.mod_eq_of_lt hn] at hx0

theorem intBvandConst_means : (intBvandConst x mask bits).Means I U (n &&& mask) :=
  intBvandConst_reduced I U x n mask bits (.inl hb) (reduced_means I U x n bits hb hx hn) hn

theorem intBvorConst_means : (intBvorConst x mask bits).Means I U ((n ||| mask) % 2 ^ bits) :=
  intBvorConst_reduced I U x n mask bits (.inl hb) (reduced_means I U x n bits hb hx hn) hn

theorem intBvnot_means : (intBvnot x bits).Means I U (2 ^ bits - 1 - n) := by
  have hfull := (intTwoPow_means I U bits hb).sub (IntTerm.Means.const I U 1) (Nat.pow_pos (by decide))
  exact hfull.sub (reduced_means I U x n bits hb hx hn) (by omega)

theorem intBvxorConst_means : (intBvxorConst x mask bits).Means I U ((n ^^^ mask) % 2 ^ bits) := by
  have hmask : mask % 2 ^ bits < 2 ^ bits := Nat.mod_lt _ (Nat.pow_pos (by decide))
  have hxor : (n ^^^ mask) % 2 ^ bits = n ^^^ mask % 2 ^ bits := by
    rw [Nat.xor_mod_two_pow, Nat.mod_eq_of_lt hn]
  have hkeep := intBvandConst_means I U x n (2 ^ bits - 1 ^^^ mask % 2 ^ bits) bits hb hx hn
  have hflip := intBvandConst_means I U _ _ (mask % 2 ^ bits) bits hb
    (intBvnot_means I U x n bits hb hx hn) (by omega)
  have hsum := intMod2n_means I U _ _ bits hb (hkeep.add hflip)
  rw [xor_eq_keep_add_flip bits n _ hn hmask,
    Nat.mod_eq_of_lt (Nat.xor_lt_two_pow hn hmask), ← hxor] at hsum
  simp only [intBvxorConst]
  rw [u256_full bits hb.le, Nat.and_two_pow_sub_one_eq_mod]
  exact hsum

end Narrow

end Values

end Movy.Tracer
