import Movy.Tracer.Shadow

/-!
# Exactness of the bit operations (`movy-replay/src/tracer/concolic.rs`)

The encodings of `IntOps` against the operations on words of the width of the
operand. At the top width `U256::one() << 256` is zero: a reduction to the
width is then a division by zero, whose value the solver chooses, and only an
encoding that does not use the reduced operand is exact.
-/

namespace Movy.Tracer

def shlEncoding (x : ZInt) (s bits : ℕ) : ZInt := (x.mul (intTwoPow s)).modulo (intTwoPow bits)

def shrEncoding (x : ZInt) (s : ℕ) : ZInt := x.div (intTwoPow s)

example (x : ZInt) (w : IntWidth) (s : ℕ) :
    shlSymbol (.value x) .unknown w s = .value (shlEncoding x s w.bits) := rfl

example (x : ZInt) (s : ℕ) :
    shrSymbol (.value x) .unknown s = .value (shrEncoding x s) := rfl

/-- The encodings, each with its constant operand. -/
inductive BitEncoding where
  | bvand (mask : ℕ)
  | bvor (mask : ℕ)
  | bvxor (mask : ℕ)
  | bvnot
  | shl (s : ℕ)
  | shr (s : ℕ)

namespace BitEncoding

def term : BitEncoding → ZInt → ℕ → ZInt
  | .bvand mask, x, w => intBvandConst x mask w
  | .bvor mask, x, w => intBvorConst x mask w
  | .bvxor mask, x, w => intBvxorConst x mask w
  | .bvnot, x, w => intBvnot x w
  | .shl s, x, w => shlEncoding x s w
  | .shr s, x, _ => shrEncoding x s

/-- The operation of the VM on words of `w` bits. -/
def word (w : ℕ) (x : BitVec w) : BitEncoding → BitVec w
  | .bvand mask => x &&& BitVec.ofNat w mask
  | .bvor mask => x ||| BitVec.ofNat w mask
  | .bvxor mask => x ^^^ BitVec.ofNat w mask
  | .bvnot => ~~~x
  | .shl s => x <<< s
  | .shr s => x >>> s

/-- A mask is a `U256`; a shift is below the width. -/
def Bounded (w : ℕ) : BitEncoding → Prop
  | .bvand mask => mask < 2 ^ 256
  | .bvor mask => mask < 2 ^ 256
  | .bvxor mask => mask < 2 ^ 256
  | .bvnot => True
  | .shl s => s < w
  | .shr s => s < w

instance (w : ℕ) : (op : BitEncoding) → Decidable (op.Bounded w)
  | .bvand mask => inferInstanceAs (Decidable (mask < 2 ^ 256))
  | .bvor mask => inferInstanceAs (Decidable (mask < 2 ^ 256))
  | .bvxor mask => inferInstanceAs (Decidable (mask < 2 ^ 256))
  | .bvnot => inferInstanceAs (Decidable True)
  | .shl s => inferInstanceAs (Decidable (s < w))
  | .shr s => inferInstanceAs (Decidable (s < w))

/-- However the solver divides by zero, the term has the value of the operation. -/
def Exact (op : BitEncoding) (w : ℕ) : Prop :=
  ∀ (I : Interp ArgVar) (x : ZInt) (n : ℕ), x.eval I = n → n < 2 ^ w →
    (op.term x w).eval I = (op.word w (BitVec.ofNat w n)).toNat

/-- The reduced operand does not show in the term. -/
def Unreduced : BitEncoding → Prop
  | .bvand mask => mask = 0
  | .bvor mask => mask = 2 ^ 256 - 1
  | .bvxor _ => False
  | .bvnot => False
  | .shl _ => False
  | .shr _ => True

/-! ### The operations as numbers -/

theorem word_bvand (w n mask : ℕ) (hn : n < 2 ^ w) :
    ((bvand mask).word w (BitVec.ofNat w n)).toNat = n &&& mask := by
  rw [word, BitVec.toNat_and, BitVec.toNat_ofNat, BitVec.toNat_ofNat, Nat.mod_eq_of_lt hn,
    and_mod_two_pow n mask w hn]

theorem word_bvor (w n mask : ℕ) :
    ((bvor mask).word w (BitVec.ofNat w n)).toNat = (n ||| mask) % 2 ^ w := by
  rw [word, BitVec.toNat_or, BitVec.toNat_ofNat, BitVec.toNat_ofNat, Nat.or_mod_two_pow]

theorem word_bvxor (w n mask : ℕ) :
    ((bvxor mask).word w (BitVec.ofNat w n)).toNat = (n ^^^ mask) % 2 ^ w := by
  rw [word, BitVec.toNat_xor, BitVec.toNat_ofNat, BitVec.toNat_ofNat, Nat.xor_mod_two_pow]

theorem word_bvnot (w n : ℕ) (hn : n < 2 ^ w) :
    (bvnot.word w (BitVec.ofNat w n)).toNat = 2 ^ w - 1 - n := by
  rw [word, BitVec.toNat_not, BitVec.toNat_ofNat, Nat.mod_eq_of_lt hn]

theorem word_shl (w n s : ℕ) (hn : n < 2 ^ w) :
    ((shl s).word w (BitVec.ofNat w n)).toNat = n * 2 ^ s % 2 ^ w := by
  rw [word, BitVec.toNat_shiftLeft, BitVec.toNat_ofNat, Nat.mod_eq_of_lt hn, Nat.shiftLeft_eq]

theorem word_shr (w n s : ℕ) (hn : n < 2 ^ w) :
    ((shr s).word w (BitVec.ofNat w n)).toNat = n / 2 ^ s := by
  rw [word, BitVec.toNat_ushiftRight, BitVec.toNat_ofNat, Nat.mod_eq_of_lt hn,
    Nat.shiftRight_eq_div_pow]

/-! ### Below the top width -/

theorem means_of_eval (I : Interp ArgVar) (x : ZInt) (n : ℕ) (h : x.eval I = n) :
    x.Means I (fun _ => False) n := fun _ => h

theorem eval_of_means (I : Interp ArgVar) (x : ZInt) (n : ℕ) (h : x.Means I (fun _ => False) n) :
    x.eval I = n := h (x.avoids_empty _ fun _ hf => hf)

theorem exact_shr (s w : ℕ) (hs : s < 256) : (shr s).Exact w := by
  intro I x n hx hn
  have hmeans := (means_of_eval I x n hx).div (intTwoPow_means I _ s hs) (two_pow_ne_zero s)
  rw [word_shr w n s hn]
  exact eval_of_means I _ _ hmeans

theorem exact_narrow (op : BitEncoding) (w : ℕ) (hw : w < 256) (hop : op.Bounded w) :
    op.Exact w := by
  intro I x n hx hn
  have hmeans := means_of_eval I x n hx
  cases op with
  | bvand mask =>
    rw [word_bvand w n mask hn]
    exact eval_of_means I _ _ (intBvandConst_means I _ x n mask w hw hmeans hn)
  | bvor mask =>
    rw [word_bvor]
    exact eval_of_means I _ _ (intBvorConst_means I _ x n mask w hw hmeans hn)
  | bvxor mask =>
    rw [word_bvxor]
    exact eval_of_means I _ _ (intBvxorConst_means I _ x n mask w hw hmeans hn)
  | bvnot =>
    rw [word_bvnot w n hn]
    exact eval_of_means I _ _ (intBvnot_means I _ x n w hw hmeans hn)
  | shl s =>
    simp only [Bounded] at hop
    rw [word_shl w n s hn]
    exact eval_of_means I _ _ ((hmeans.mul (intTwoPow_means I _ s (by omega))).modulo
      (intTwoPow_means I _ w hw) (two_pow_ne_zero w))
  | shr s =>
    simp only [Bounded] at hop
    exact exact_shr s w (by omega) I x n hx hn

/-! ### The top width -/

def wideInterp (k : ℕ) : Interp ArgVar where
  var := fun _ => 0
  div0 := fun _ => 0
  rem0 := fun z => z % 2 ^ 256
  mod0 := fun _ => k

theorem wide_reduced (x : ZInt) (k : ℕ) : (intMod2n x 256).eval (wideInterp k) = k := rfl

theorem wide_remAt (k : ℕ) : RemAt (wideInterp k) 256 := .inr ⟨rfl, fun _ => rfl⟩

theorem wide_bvand (x : ZInt) (k mask : ℕ) (hk : k < 2 ^ 256) :
    (intBvandConst x mask 256).eval (wideInterp k) = (k &&& mask : ℕ) :=
  eval_of_means _ _ _ (intBvandConst_reduced (wideInterp k) _ x k mask 256 (wide_remAt k)
    (means_of_eval _ _ k (wide_reduced x k)) hk)

theorem wide_bvor (x : ZInt) (k mask : ℕ) (hk : k < 2 ^ 256) :
    (intBvorConst x mask 256).eval (wideInterp k) = ((k ||| mask) % 2 ^ 256 : ℕ) :=
  eval_of_means _ _ _ (intBvorConst_reduced (wideInterp k) _ x k mask 256 (wide_remAt k)
    (means_of_eval _ _ k (wide_reduced x k)) hk)

/-- The last step of these two is a reduction. -/
theorem wide_bvxor (x : ZInt) (k mask : ℕ) :
    (intBvxorConst x mask 256).eval (wideInterp k) = k := rfl

theorem wide_shl (x : ZInt) (k s : ℕ) : (shlEncoding x s 256).eval (wideInterp k) = k := rfl

theorem full_and (mask : ℕ) (hm : mask < 2 ^ 256) : 2 ^ 256 - 1 &&& mask = mask := by
  rw [Nat.and_comm, Nat.and_two_pow_sub_one_eq_mod, Nat.mod_eq_of_lt hm]

theorem or_full (n : ℕ) (hn : n < 2 ^ 256) : n ||| 2 ^ 256 - 1 = 2 ^ 256 - 1 := by
  have hclear := or_eq_clear_add 256 n (2 ^ 256 - 1) hn (by omega)
  rw [Nat.xor_self, Nat.and_zero, Nat.zero_add] at hclear
  exact hclear.symm

theorem exact_unreduced (op : BitEncoding) (hop : op.Bounded 256) (h : op.Unreduced) :
    op.Exact 256 := by
  cases op with
  | bvand mask =>
    simp only [Unreduced] at h
    subst h
    intro I x n hx hn
    rw [word_bvand 256 n 0 hn, Nat.and_zero]
    rfl
  | bvor mask =>
    simp only [Unreduced] at h
    subst h
    intro I x n hx hn
    have hterm : intBvorConst x (2 ^ 256 - 1) 256 = (IntTerm.const 0).add (.const (2 ^ 256 - 1)) := by
      rfl
    rw [word_bvor, or_full n hn, term, hterm]
    rfl
  | bvxor mask => exact h.elim
  | bvnot => exact h.elim
  | shl s => exact h.elim
  | shr s => exact exact_shr s 256 hop

/-- The operand zero tells two choices of the solver apart. -/
theorem unreduced_of_exact (op : BitEncoding) (hop : op.Bounded 256) (h : op.Exact 256) :
    op.Unreduced := by
  have hzero : ∀ k, (op.term (.const 0) 256).eval (wideInterp k) =
      (op.word 256 (BitVec.ofNat 256 0)).toNat := fun k => h (wideInterp k) (.const 0) 0 rfl (by decide)
  have hfull : 2 ^ 256 - 1 < 2 ^ 256 := by decide
  cases op with
  | bvand mask =>
    have hk := hzero (2 ^ 256 - 1)
    rw [term, wide_bvand _ _ mask hfull, word_bvand 256 0 mask (by decide), full_and mask hop,
      Nat.zero_and] at hk
    exact Int.ofNat_inj.mp hk
  | bvor mask =>
    have hk := hzero (2 ^ 256 - 1)
    have hmask : mask < 2 ^ 256 := hop
    rw [term, wide_bvor _ _ mask hfull, word_bvor, Nat.zero_or, Nat.or_comm, or_full mask hmask,
      Nat.mod_eq_of_lt hmask, Nat.mod_eq_of_lt hfull] at hk
    exact (Int.ofNat_inj.mp hk).symm
  | bvxor mask =>
    have hsame := (hzero 0).trans (hzero 1).symm
    rw [term, wide_bvxor, wide_bvxor] at hsame
    exact absurd hsame (by decide)
  | bvnot =>
    have hsame := (hzero 0).trans (hzero 1).symm
    exact absurd hsame (by decide)
  | shl s =>
    have hsame := (hzero 0).trans (hzero 1).symm
    rw [term, wide_shl, wide_shl] at hsame
    exact absurd hsame (by decide)
  | shr s => trivial

/-- An encoding is exact at a width if and only if the width is below 256 or the reduced
operand does not show in the term. -/
theorem exact_iff (op : BitEncoding) (w : ℕ) (hw : w ≤ 256) (hop : op.Bounded w) :
    op.Exact w ↔ w < 256 ∨ op.Unreduced := by
  rcases Nat.lt_or_ge w 256 with hlt | hge
  · exact iff_of_true (exact_narrow op w hlt hop) (.inl hlt)
  · obtain rfl : w = 256 := by omega
    refine ⟨fun h => .inr (unreduced_of_exact op hop h), fun h => ?_⟩
    exact exact_unreduced op hop (h.resolve_left (by omega))

theorem exact_iff_xor : (bvxor 5).Exact 8 ∧ ¬(bvxor 5).Exact 256 :=
  ⟨(exact_iff (bvxor 5) 8 (by decide) (by decide)).mpr (.inl (by decide)),
    fun h => ((exact_iff (bvxor 5) 256 le_rfl (by decide)).mp h).elim (by decide) id⟩

/-- The conjunction of `0` and `1` at 256 bits can be `1`. -/
theorem exact_fails :
    ¬∀ (op : BitEncoding) (w : ℕ), w ∈ [1, 8, 16, 32, 64, 128, 256] → op.Bounded w → op.Exact w := by
  intro hall
  have hk := hall (bvand 1) 256 (by decide) (by decide) (wideInterp 1) (.const 0) 0 rfl (by decide)
  rw [term, wide_bvand _ 1 1 (by decide)] at hk
  exact absurd hk (by decide)

end BitEncoding

end Movy.Tracer
