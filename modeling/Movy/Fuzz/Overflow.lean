import Mathlib.Data.Nat.Size
import Movy.Fuzz.InfiniteLoop

/-!
# The overflow oracle (`movy-fuzz/src/oracles/sui/overflow.rs`)

Before a left shift the oracle counts the significant bits of the left operand
and reports the shift if it pushes one of them out of the type. The concolic
engine has a check of its own: its constraint compares the product with the
greatest value of the type.
-/

namespace Movy.Fuzz

open Movy.Tracer

def leadingZeros (n : ℕ) : ℕ := 256 - n.size

def valueSigBits (v : TraceValue) : Option ℕ :=
  (valueToU256 v).map fun n => if n = 0 then 0 else 256 - leadingZeros n

namespace OverflowOracle

def finding (func : Tracer.FunctionIdent) (pc : ℕ) : OracleFinding :=
  ⟨"OverflowOracle", .medium, func, pc⟩

/- `none` is the panic on an operand that is no primitive value. -/
def overflows (lhs rhs : TraceValue) : Option Bool := do
  let lhsWidthBits ← valueBitwidth lhs
  let lhsSigBits ← valueSigBits lhs
  let rhsBits ← valueToU256 rhs
  if lhsWidthBits ≤ rhsBits then some true
  else some (decide (lhsWidthBits < lhsSigBits + rhsBits))

def beforeInstruction (pc : ℕ) (instruction : Bytecode) (traceState : TraceState)
    (currentFunction : Tracer.FunctionIdent) : Option (List OracleFinding) :=
  match instruction with
  | .shl =>
    match traceState.operandStack with
    | rhs :: lhs :: _ => do
      let overflow ← overflows lhs rhs
      some (if overflow = true then [finding currentFunction pc] else [])
    | _ => some []
  | _ => some []

end OverflowOracle

/-! ### Significant bits and products -/

theorem size_shifted (a s w : ℕ) (ha : a ≠ 0) : w < a.size + s ↔ 2 ^ w ≤ a * 2 ^ s := by
  have hsize := Nat.size_shiftLeft ha s
  rw [Nat.shiftLeft_eq] at hsize
  rw [← hsize]
  exact Nat.lt_size

theorem sigBits_cross (a s w : ℕ) (haw : a < 2 ^ w) (hw : w ≤ 256) (hs : s < w) :
    w < (if a = 0 then 0 else 256 - leadingZeros a) + s ↔ 2 ^ w - 1 < a * 2 ^ s := by
  have hpos : 0 < 2 ^ w := Nat.two_pow_pos w
  by_cases ha : a = 0
  · rw [if_pos ha, ha]
    omega
  · have hsize : a.size ≤ w := Nat.size_le.mpr haw
    have hbits : 256 - leadingZeros a = a.size := by
      unfold leadingZeros
      omega
    rw [if_neg ha, hbits, size_shifted a s w ha]
    omega

section

variable (w : IntWidth) (a : Fin (2 ^ w.bits)) (q : PrimitiveValue) (lhs rhs : TraceValue)
  (hlhs : extractPrimitiveValue lhs = some (.int w a)) (hrhs : extractPrimitiveValue rhs = some q)
  (hshift : q.asU256 < w.bits)

include hlhs hrhs hshift

theorem overflows_eq : OverflowOracle.overflows lhs rhs =
    some (decide (2 ^ w.bits - 1 < a.val * 2 ^ q.asU256)) := by
  have hcross := sigBits_cross a.val q.asU256 w.bits a.isLt w.bits_le.2 hshift
  simp only [OverflowOracle.overflows, valueSigBits, valueBitwidth, valueToU256, hlhs, hrhs,
    Option.map_some, Option.bind_eq_bind, Option.bind_some, PrimitiveValue.bitwidth]
  rw [if_neg (Nat.not_le.mpr hshift)]
  exact congrArg some (decide_eq_decide.mpr hcross)

theorem shlInstruction_eq (c : ConcolicState) (rest : List TraceValue) (sl sr : SymbolValue)
    (srest : List SymbolValue) (hc : c.stack = sr :: sl :: srest) :
    (c.shlInstruction (rhs :: lhs :: rest)).map Prod.snd = some (match sl, sr with
      | .value l, .unknown =>
        some (.gt (l.mul (intTwoPow q.asU256)) (.const (2 ^ w.bits - 1)))
      | _, _ => none) := by
  have hs : q.asU256 % 2 ^ 32 = q.asU256 := by
    have := w.bits_le.2
    exact Nat.mod_eq_of_lt (by omega)
  simp only [ConcolicState.shlInstruction, ConcolicState.pop2, hc, stackTop2, valueBitwidth,
    valueToU256, hlhs, hrhs, Option.map_some, Option.bind_eq_bind, Option.bind_some,
    PrimitiveValue.bitwidth, maxUBits_eq, hs]
  cases sl <;> cases sr <;> rfl

/- A constraint is emitted for a symbol that is shifted by a concrete amount, and only
then. -/
theorem shlInstruction_emits (c : ConcolicState) (rest : List TraceValue) (constraint : ZBool) :
    (∃ next, c.shlInstruction (rhs :: lhs :: rest) = some (next, some constraint)) ↔
      ∃ l srest, c.stack = .unknown :: .value l :: srest ∧
        constraint = .gt (l.mul (intTwoPow q.asU256)) (.const (2 ^ w.bits - 1)) := by
  constructor
  · intro h
    obtain ⟨next, hrun⟩ := h
    cases hc : c.stack with
    | nil => simp [ConcolicState.shlInstruction, ConcolicState.pop2, hc] at hrun
    | cons sr tail =>
      cases tail with
      | nil => simp [ConcolicState.shlInstruction, ConcolicState.pop2, hc] at hrun
      | cons sl srest =>
        have heq := shlInstruction_eq w a q lhs rhs hlhs hrhs hshift c rest sl sr srest hc
        rw [hrun, Option.map_some, Option.some.injEq] at heq
        cases sl with
        | unknown => cases heq
        | value l =>
          cases sr with
          | value r => cases heq
          | unknown => exact ⟨l, srest, rfl, Option.some.inj heq⟩
  · intro h
    obtain ⟨l, srest, hc, hconstraint⟩ := h
    have heq := shlInstruction_eq w a q lhs rhs hlhs hrhs hshift c rest (.value l) .unknown srest hc
    obtain ⟨⟨next, k⟩, hrun, hk⟩ := Option.map_eq_some_iff.mp heq
    obtain rfl : k = some _ := hk
    exact ⟨next, by rw [hrun, hconstraint]⟩

end

theorem shlConstraint_eval (I : Interp ArgVar) (l : ZInt) (w : IntWidth) (a s : ℕ) (hs : s < 256)
    (hl : l.eval I = a) :
    (BoolTerm.gt (l.mul (intTwoPow s)) (.const (2 ^ w.bits - 1))).eval I = true ↔
      2 ^ w.bits - 1 < a * 2 ^ s := by
  have hpow : (intTwoPow s).eval I = (2 ^ s : ℕ) := by
    rw [intTwoPow, u256OneShl, if_pos hs, IntTerm.eval]
  have hmul : (l.mul (intTwoPow s)).eval I = (a * 2 ^ s : ℕ) := by
    rw [IntTerm.eval, hl, hpow, Nat.cast_mul]
  rw [BoolTerm.eval, hmul, decide_eq_true_iff]
  exact Nat.cast_lt

/- Whenever the shift amount is below the width of the left operand, the oracle
reports the shift exactly if the product exceeds the greatest value of the type. A
constraint that the engine emits for the shift is true, where the symbol of the left
operand has its concrete value, in exactly that case; and it does emit one if the left
operand has a symbol and the amount has none. -/
theorem shl_checks_agree (w : IntWidth) (a : Fin (2 ^ w.bits)) (q : PrimitiveValue)
    (lhs rhs : TraceValue) (hlhs : extractPrimitiveValue lhs = some (.int w a))
    (hrhs : extractPrimitiveValue rhs = some q) (hshift : q.asU256 < w.bits) (s : TraceState)
    (rest : List TraceValue) (hstack : s.operandStack = rhs :: lhs :: rest) :
    (∀ pc func, ∃ findings, OverflowOracle.beforeInstruction pc .shl s func = some findings ∧
      (findings ≠ [] ↔ 2 ^ w.bits - 1 < a.val * 2 ^ q.asU256)) ∧
    (∀ (c next : ConcolicState) extra constraint,
      c.onBeforeInstructionInner .shl s extra = some (next, some constraint) →
      ∃ l srest, c.stack = .unknown :: .value l :: srest ∧ ∀ I : Interp ArgVar, l.eval I = a.val →
        (constraint.eval I = true ↔ 2 ^ w.bits - 1 < a.val * 2 ^ q.asU256)) ∧
    ∀ (c : ConcolicState) extra l srest, c.stack = .unknown :: .value l :: srest →
      c.stack.length = s.operandStack.length → c.disable = false →
      ∃ next constraint, c.onBeforeInstructionInner .shl s extra = some (next, some constraint) := by
  have hs : q.asU256 < 256 := hshift.trans_le w.bits_le.2
  have hshl : ∀ (c : ConcolicState) extra, c.stack.length = s.operandStack.length →
      c.disable = false →
      c.onBeforeInstructionInner .shl s extra = c.shlInstruction (rhs :: lhs :: rest) := by
    intro c extra hlen hdisable
    have hgo : ¬(c.stack.length ≠ s.operandStack.length ∨ c.disable = true) := by
      simp [hlen, hdisable]
    rw [ConcolicState.onBeforeInstructionInner, if_neg hgo, hstack, ConcolicState.shadowInstruction]
  constructor
  · intro pc func
    have hover := overflows_eq w a q lhs rhs hlhs hrhs hshift
    simp only [OverflowOracle.beforeInstruction, hstack, hover, Option.bind_eq_bind,
      Option.bind_some]
    by_cases hcross : 2 ^ w.bits - 1 < a.val * 2 ^ q.asU256 <;> simp [hcross]
  constructor
  · intro c next extra constraint hrun
    by_cases hgo : c.stack.length ≠ s.operandStack.length ∨ c.disable = true
    · rw [ConcolicState.onBeforeInstructionInner, if_pos hgo] at hrun
      cases hrun
    · rw [not_or, not_not, Bool.not_eq_true] at hgo
      rw [hshl c extra hgo.1 hgo.2] at hrun
      obtain ⟨l, srest, hc, rfl⟩ := (shlInstruction_emits w a q lhs rhs hlhs hrhs hshift c rest
        constraint).mp ⟨next, hrun⟩
      exact ⟨l, srest, hc, fun I hl => shlConstraint_eval I l w a.val q.asU256 hs hl⟩
  · intro c extra l srest hc hlen hdisable
    rw [hshl c extra hlen hdisable]
    obtain ⟨next, hrun⟩ := (shlInstruction_emits w a q lhs rhs hlhs hrhs hshift c rest _).mpr
      ⟨l, srest, hc, rfl⟩
    exact ⟨next, _, hrun⟩

/- `129u8 << 1` loses its highest bit. -/
theorem shl_checks_agree_byte :
    (∃ findings, OverflowOracle.beforeInstruction 0 .shl
      { TraceState.new with operandStack := [.runtimeValue (.int .w8 1), .runtimeValue (.int .w8 129)] }
      ⟨⟨Movy.Store.ObjectID.ofByte 1, "m"⟩, "f"⟩ = some findings ∧ findings ≠ []) := by
  obtain ⟨findings, hrun, hiff⟩ := (shl_checks_agree .w8 129 (.int .w8 1)
    (.runtimeValue (.int .w8 129)) (.runtimeValue (.int .w8 1)) rfl rfl (by decide)
    { TraceState.new with operandStack := [.runtimeValue (.int .w8 1), .runtimeValue (.int .w8 129)] }
    [] rfl).1 0 ⟨⟨Movy.Store.ObjectID.ofByte 1, "m"⟩, "f"⟩
  exact ⟨findings, hrun, hiff.mpr (by decide)⟩

end Movy.Fuzz
