import Movy.Tracer.Shadow

/-!
# Comparisons on the shadow stack

All six comparisons push a term and return a constraint, both chosen by the
concrete outcome. The term is right when the comparison holds; the constraint
is right either way, but for `Neq` on equal operands.
-/

namespace Movy.Tracer

open ConcolicState

def CmpOp.test : CmpOp → ZInt → ZInt → ZBool
  | .lt => .lt
  | .le => .le
  | .gt => .gt
  | .ge => .ge
  | .neq => .eq
  | .eq => .eq

/- The condition whose number is pushed, by the concrete outcome. -/
def CmpOp.pushed (op : CmpOp) (outcome : Bool) (l r : ZInt) : ZBool :=
  if decide (op = .neq) = outcome then .not (op.test l r) else op.test l r

/- The constraint that is returned. -/
def CmpOp.constraint (op : CmpOp) (outcome : Bool) (l r : ZInt) : ZBool :=
  if op = .neq ∨ outcome = false then .not (op.test l r) else op.test l r

theorem compare_holds (op : CmpOp) (hop : op ≠ .neq) (c : ConcolicState) (ts : List TraceValue)
    (extra : Option InstructionExtraInformation) :
    ∃ passes : Ordering → Bool,
      c.shadowInstruction op.code ts extra = c.cmpInstruction ts passes op.test ∧
      ∀ a b : ℕ, passes (compare a b) = op.holds a b := by
  have hcmp : ∀ a b : ℕ, (compare a b = .lt ∧ a < b) ∨ (compare a b = .eq ∧ a = b) ∨
      (compare a b = .gt ∧ b < a) := by
    intro a b
    rcases Nat.lt_trichotomy a b with h | h | h
    · exact .inl ⟨Nat.compare_eq_lt.mpr h, h⟩
    · exact .inr (.inl ⟨Nat.compare_eq_eq.mpr h, h⟩)
    · exact .inr (.inr ⟨Nat.compare_eq_gt.mpr h, h⟩)
  cases op with
  | neq => exact absurd rfl hop
  | lt =>
    refine ⟨fun o => o == .lt, rfl, fun a b => ?_⟩
    rcases hcmp a b with ⟨h, hab⟩ | ⟨h, hab⟩ | ⟨h, hab⟩ <;>
      simp only [h, CmpOp.holds] <;> symm <;>
        first | exact decide_eq_true (by omega) | exact decide_eq_false (by omega)
  | le =>
    refine ⟨fun o => o != .gt, rfl, fun a b => ?_⟩
    rcases hcmp a b with ⟨h, hab⟩ | ⟨h, hab⟩ | ⟨h, hab⟩ <;>
      simp only [h, CmpOp.holds] <;> symm <;>
        first | exact decide_eq_true (by omega) | exact decide_eq_false (by omega)
  | gt =>
    refine ⟨fun o => o == .gt, rfl, fun a b => ?_⟩
    rcases hcmp a b with ⟨h, hab⟩ | ⟨h, hab⟩ | ⟨h, hab⟩ <;>
      simp only [h, CmpOp.holds] <;> symm <;>
        first | exact decide_eq_true (by omega) | exact decide_eq_false (by omega)
  | ge =>
    refine ⟨fun o => o != .lt, rfl, fun a b => ?_⟩
    rcases hcmp a b with ⟨h, hab⟩ | ⟨h, hab⟩ | ⟨h, hab⟩ <;>
      simp only [h, CmpOp.holds] <;> symm <;>
        first | exact decide_eq_true (by omega) | exact decide_eq_false (by omega)
  | eq =>
    refine ⟨fun o => o == .eq, rfl, fun a b => ?_⟩
    rcases hcmp a b with ⟨h, hab⟩ | ⟨h, hab⟩ | ⟨h, hab⟩ <;>
      simp only [h, CmpOp.holds] <;> symm <;>
        first | exact decide_eq_true (by omega) | exact decide_eq_false (by omega)

theorem compareValue_eq (tl tr : TraceValue) (p q : PrimitiveValue)
    (hp : extractPrimitiveValue tl = some p) (hq : extractPrimitiveValue tr = some q)
    (hpq : p.bitwidth = q.bitwidth) :
    compareValue tl tr = some (compare p.asU256 q.asU256) := by
  simp only [compareValue, hp, hq, Option.bind_eq_bind, Option.bind_some]
  exact compareValueImpl_eq p q hpq

theorem compare_shadow (op : CmpOp) (c : ConcolicState) (sl sr : SymbolValue)
    (srest : List SymbolValue) (tl tr : TraceValue) (trest : List TraceValue)
    (extra : Option InstructionExtraInformation) (p q : PrimitiveValue)
    (hc : c.stack = sr :: sl :: srest) (hp : extractPrimitiveValue tl = some p)
    (hq : extractPrimitiveValue tr = some q) (hpq : p.bitwidth = q.bitwidth) (l r : ZInt)
    (h : resolveOperands sl sr tl tr = some (some (l, r))) :
    c.shadowInstruction op.code (tr :: tl :: trest) extra =
      some ({ c with stack := asInt (op.pushed (op.holds p.asU256 q.asU256) l r) :: srest },
        some (op.constraint (op.holds p.asU256 q.asU256) l r)) := by
  by_cases hop : op = .neq
  · subst hop
    show c.neqInstruction (tr :: tl :: trest) = _
    simp only [neqInstruction, processBinaryOp_eq c sl sr srest tl tr trest hc, h, stackTop2,
      compareValue_eq tl tr p q hp hq hpq, Option.map_some, Option.bind_eq_bind, Option.bind_some]
    by_cases heq : p.asU256 = q.asU256
    · have hcmp : compare p.asU256 q.asU256 = .eq := Nat.compare_eq_eq.mpr heq
      have hout : CmpOp.neq.holds p.asU256 q.asU256 = false := by simp [CmpOp.holds, heq]
      rw [hcmp, hout, if_neg (fun hne => hne rfl)]
      rfl
    · have hcmp : compare p.asU256 q.asU256 ≠ .eq := fun hc => heq (Nat.compare_eq_eq.mp hc)
      have hout : CmpOp.neq.holds p.asU256 q.asU256 = true := by simp [CmpOp.holds, heq]
      rw [hout, if_pos hcmp]
      rfl
  · obtain ⟨passes, hshadow, hpass⟩ := compare_holds op hop c (tr :: tl :: trest) extra
    rw [hshadow]
    simp only [cmpInstruction, processBinaryOp_eq c sl sr srest tl tr trest hc, h, stackTop2,
      compareValue_eq tl tr p q hp hq hpq, Option.map_some, Option.bind_eq_bind, Option.bind_some,
      hpass, CmpOp.pushed, CmpOp.constraint, hop, false_or]
    cases op.holds p.asU256 q.asU256 <;> rfl

theorem compare_shadow_unknown (op : CmpOp) (c : ConcolicState) (srest : List SymbolValue)
    (tl tr : TraceValue) (trest : List TraceValue) (extra : Option InstructionExtraInformation)
    (hc : c.stack = .unknown :: .unknown :: srest) :
    c.shadowInstruction op.code (tr :: tl :: trest) extra =
      some ({ c with stack := .unknown :: srest }, none) := by
  have hproc := processBinaryOp_eq c .unknown .unknown srest tl tr trest hc
  have hcmp : ∀ passes test, c.cmpInstruction (tr :: tl :: trest) passes test =
      some ({ c with stack := .unknown :: srest }, none) := by
    intro passes test
    rw [cmpInstruction, hproc]
    rfl
  cases op with
  | neq =>
    show c.neqInstruction (tr :: tl :: trest) = _
    rw [neqInstruction, hproc]
    rfl
  | lt => exact hcmp _ _
  | le => exact hcmp _ _
  | gt => exact hcmp _ _
  | ge => exact hcmp _ _
  | eq => exact hcmp _ _

/-! ### Their values -/

section Values

variable {I : Interp ArgVar} {U : ZInt → Prop}

/- The test of `Neq` is the equation. -/
theorem test_eval (op : CmpOp) (l r : ZInt) (a b : ℕ) (hl : l.eval I = a) (hr : r.eval I = b) :
    (op.test l r).eval I = (decide (op = .neq) != op.holds a b) := by
  cases op <;> simp only [CmpOp.test, BoolTerm.eval, CmpOp.holds, hl, hr] <;> simp

theorem avoids_of_test (op : CmpOp) (l r : ZInt) (h : (op.test l r).Avoids U) :
    l.Avoids U ∧ r.Avoids U := by
  cases op <;> exact h

theorem avoids_of_pushed (op : CmpOp) (b : Bool) (l r : ZInt) (h : (op.pushed b l r).Avoids U) :
    l.Avoids U ∧ r.Avoids U := by
  unfold CmpOp.pushed at h
  split_ifs at h
  · exact avoids_of_test op l r h
  · exact avoids_of_test op l r h

theorem pushed_means (op : CmpOp) (l r : ZInt) (a b : ℕ) (hl : l.Means I U a)
    (hr : r.Means I U b) (h : op.holds a b = true) :
    (IntTerm.ite (op.pushed true l r) (.const 1) (.const 0)).Means I U 1 := by
  intro ha
  obtain ⟨hla, hra⟩ := avoids_of_pushed op true l r ha.2.1
  have htest := test_eval op l r a b (hl hla) (hr hra)
  rw [h] at htest
  have hc : (op.pushed true l r).eval I = true := by
    unfold CmpOp.pushed
    split_ifs with hop
    · rw [BoolTerm.eval, htest, hop]
      rfl
    · rw [htest]
      cases hb : decide (op = .neq) with
      | true => exact absurd hb hop
      | false => rfl
  rw [IntTerm.eval, if_pos hc]
  rfl

theorem constraint_eval (op : CmpOp) (l r : ZInt) (a b : ℕ) (hl : l.eval I = a)
    (hr : r.eval I = b) (hneq : op = .neq → a ≠ b) :
    (op.constraint (op.holds a b) l r).eval I = true := by
  have htest := test_eval op l r a b hl hr
  unfold CmpOp.constraint
  by_cases hop : op = .neq
  · subst hop
    have hout : CmpOp.neq.holds a b = true := by simp [CmpOp.holds, hneq rfl]
    rw [if_pos (.inl rfl), BoolTerm.eval, htest, hout]
    rfl
  · have hbeq : decide (op = .neq) = false := by simp [hop]
    rw [hbeq] at htest
    cases hout : op.holds a b with
    | true =>
      rw [if_neg (by simp [hop]), htest, hout]
      rfl
    | false =>
      rw [if_pos (.inr rfl), BoolTerm.eval, htest, hout]
      rfl

end Values

end Movy.Tracer
