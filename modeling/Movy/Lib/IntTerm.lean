import Mathlib.Algebra.Order.Ring.Int

/-!
# Integer terms

Terms of linear and non-linear integer arithmetic as an SMT solver reads
them, with their value under an interpretation of the variables. Division and
the two remainders are total in such a solver but not specified at zero; the
interpretation chooses a value there.
-/

namespace Movy

mutual

inductive IntTerm (V : Type) where
  | const (n : ℕ)
  | var (v : V)
  | add (a b : IntTerm V)
  | sub (a b : IntTerm V)
  | mul (a b : IntTerm V)
  | div (a b : IntTerm V)
  | rem (a b : IntTerm V)
  | modulo (a b : IntTerm V)
  | ite (c : BoolTerm V) (a b : IntTerm V)

inductive BoolTerm (V : Type) where
  | eq (a b : IntTerm V)
  | lt (a b : IntTerm V)
  | le (a b : IntTerm V)
  | gt (a b : IntTerm V)
  | ge (a b : IntTerm V)
  | not (c : BoolTerm V)

end

structure Interp (V : Type) where
  var : V → ℤ
  div0 : ℤ → ℤ
  rem0 : ℤ → ℤ
  mod0 : ℤ → ℤ

variable {V : Type}

mutual

def IntTerm.eval (I : Interp V) : IntTerm V → ℤ
  | .const n => n
  | .var v => I.var v
  | .add a b => a.eval I + b.eval I
  | .sub a b => a.eval I - b.eval I
  | .mul a b => a.eval I * b.eval I
  | .div a b => if b.eval I = 0 then I.div0 (a.eval I) else a.eval I / b.eval I
  -- the remainder has the sign of the divisor
  | .rem a b =>
    if b.eval I = 0 then I.rem0 (a.eval I)
    else if b.eval I < 0 then -(a.eval I % b.eval I) else a.eval I % b.eval I
  | .modulo a b => if b.eval I = 0 then I.mod0 (a.eval I) else a.eval I % b.eval I
  | .ite c a b => if c.eval I = true then a.eval I else b.eval I

def BoolTerm.eval (I : Interp V) : BoolTerm V → Bool
  | .eq a b => decide (a.eval I = b.eval I)
  | .lt a b => decide (a.eval I < b.eval I)
  | .le a b => decide (a.eval I ≤ b.eval I)
  | .gt a b => decide (a.eval I > b.eval I)
  | .ge a b => decide (a.eval I ≥ b.eval I)
  | .not c => !(c.eval I)

end

/-! ### Terms that avoid a set of terms

Some terms of a development may not be trusted. A term avoids `U` if neither
it nor any term in it is in `U`. -/

mutual

def IntTerm.Avoids (U : IntTerm V → Prop) : IntTerm V → Prop
  | .const n => ¬U (.const n)
  | .var v => ¬U (.var v)
  | .add a b => ¬U (.add a b) ∧ a.Avoids U ∧ b.Avoids U
  | .sub a b => ¬U (.sub a b) ∧ a.Avoids U ∧ b.Avoids U
  | .mul a b => ¬U (.mul a b) ∧ a.Avoids U ∧ b.Avoids U
  | .div a b => ¬U (.div a b) ∧ a.Avoids U ∧ b.Avoids U
  | .rem a b => ¬U (.rem a b) ∧ a.Avoids U ∧ b.Avoids U
  | .modulo a b => ¬U (.modulo a b) ∧ a.Avoids U ∧ b.Avoids U
  | .ite c a b => ¬U (.ite c a b) ∧ c.Avoids U ∧ a.Avoids U ∧ b.Avoids U

def BoolTerm.Avoids (U : IntTerm V → Prop) : BoolTerm V → Prop
  | .eq a b => a.Avoids U ∧ b.Avoids U
  | .lt a b => a.Avoids U ∧ b.Avoids U
  | .le a b => a.Avoids U ∧ b.Avoids U
  | .gt a b => a.Avoids U ∧ b.Avoids U
  | .ge a b => a.Avoids U ∧ b.Avoids U
  | .not c => c.Avoids U

end

theorem IntTerm.Avoids.not_mem (U : IntTerm V → Prop) (e : IntTerm V) (h : e.Avoids U) : ¬U e := by
  cases e <;> simp only [IntTerm.Avoids] at h <;> first | exact h | exact h.1

mutual

theorem IntTerm.avoids_empty (U : IntTerm V → Prop) (hU : ∀ e, ¬U e) :
    (e : IntTerm V) → e.Avoids U
  | .const _ => hU _
  | .var _ => hU _
  | .add a b => ⟨hU _, a.avoids_empty U hU, b.avoids_empty U hU⟩
  | .sub a b => ⟨hU _, a.avoids_empty U hU, b.avoids_empty U hU⟩
  | .mul a b => ⟨hU _, a.avoids_empty U hU, b.avoids_empty U hU⟩
  | .div a b => ⟨hU _, a.avoids_empty U hU, b.avoids_empty U hU⟩
  | .rem a b => ⟨hU _, a.avoids_empty U hU, b.avoids_empty U hU⟩
  | .modulo a b => ⟨hU _, a.avoids_empty U hU, b.avoids_empty U hU⟩
  | .ite c a b => ⟨hU _, c.avoids_empty U hU, a.avoids_empty U hU, b.avoids_empty U hU⟩

theorem BoolTerm.avoids_empty (U : IntTerm V → Prop) (hU : ∀ e, ¬U e) :
    (c : BoolTerm V) → c.Avoids U
  | .eq a b => ⟨a.avoids_empty U hU, b.avoids_empty U hU⟩
  | .lt a b => ⟨a.avoids_empty U hU, b.avoids_empty U hU⟩
  | .le a b => ⟨a.avoids_empty U hU, b.avoids_empty U hU⟩
  | .gt a b => ⟨a.avoids_empty U hU, b.avoids_empty U hU⟩
  | .ge a b => ⟨a.avoids_empty U hU, b.avoids_empty U hU⟩
  | .not c => c.avoids_empty U hU

end

/-- The term has the natural number `n` as its value, if it can be trusted. -/
def IntTerm.Means (I : Interp V) (U : IntTerm V → Prop) (e : IntTerm V) (n : ℕ) : Prop :=
  e.Avoids U → e.eval I = n

namespace IntTerm.Means

variable {I : Interp V} {U : IntTerm V → Prop} {l r : IntTerm V} {a b : ℕ}

theorem of_untrusted (h : U l) : l.Means I U a := fun ha => absurd h (ha.not_mem U l)

theorem const (I : Interp V) (U : IntTerm V → Prop) (n : ℕ) :
    (IntTerm.const n : IntTerm V).Means I U n := fun _ => rfl

theorem add (hl : l.Means I U a) (hr : r.Means I U b) : (l.add r).Means I U (a + b) := by
  intro h
  rw [IntTerm.eval, hl h.2.1, hr h.2.2, Nat.cast_add]

theorem sub (hl : l.Means I U a) (hr : r.Means I U b) (hle : b ≤ a) :
    (l.sub r).Means I U (a - b) := by
  intro h
  rw [IntTerm.eval, hl h.2.1, hr h.2.2, Nat.cast_sub hle]

theorem mul (hl : l.Means I U a) (hr : r.Means I U b) : (l.mul r).Means I U (a * b) := by
  intro h
  rw [IntTerm.eval, hl h.2.1, hr h.2.2, Nat.cast_mul]

theorem div (hl : l.Means I U a) (hr : r.Means I U b) (h0 : b ≠ 0) :
    (l.div r).Means I U (a / b) := by
  intro h
  have hb : (b : ℤ) ≠ 0 := Int.natCast_ne_zero.mpr h0
  rw [IntTerm.eval, hl h.2.1, hr h.2.2, if_neg hb, Int.natCast_ediv]

theorem rem (hl : l.Means I U a) (hr : r.Means I U b) (h0 : b ≠ 0) :
    (l.rem r).Means I U (a % b) := by
  intro h
  have hb : (b : ℤ) ≠ 0 := Int.natCast_ne_zero.mpr h0
  have hneg : ¬(b : ℤ) < 0 := by omega
  rw [IntTerm.eval, hl h.2.1, hr h.2.2, if_neg hb, if_neg hneg, Int.natCast_emod]

theorem modulo (hl : l.Means I U a) (hr : r.Means I U b) (h0 : b ≠ 0) :
    (l.modulo r).Means I U (a % b) := by
  intro h
  have hb : (b : ℤ) ≠ 0 := Int.natCast_ne_zero.mpr h0
  rw [IntTerm.eval, hl h.2.1, hr h.2.2, if_neg hb, Int.natCast_emod]

end IntTerm.Means

end Movy
