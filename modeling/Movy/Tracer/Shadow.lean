import Movy.Tracer.Vm

/-!
# One instruction of the shadow stack

A symbolic value fits a runtime value if its term, where it can be trusted,
has the value of the primitive the runtime value stands for. Every
instruction keeps this, but for the few kinds that push a wrong term.
-/

namespace Movy.Tracer

open ConcolicState

variable (I : Interp ArgVar) (U : ZInt → Prop)

def Fits (vm : Vm) (s : SymbolValue) (r : RtValue) : Prop :=
  ∀ e, s = .value e → ∃ p, vm.primOf r = some p ∧ e.Means I U p.asU256

/- The trace shows a value as it is, and a reference with a snapshot that has
the primitive type of what it points to. -/
def Shows (vm : Vm) (t : TraceValue) : RtValue → Prop
  | .val v => t = .runtimeValue v
  | .ref m l => (extractPrimitiveValue t).map PrimitiveValue.bitwidth = vm.kindOf (.ref m l)

def LocalsFit (vm : Vm) (locals : List SymbolValue) (fr : VmFrame) : Prop :=
  ∀ i s r, locals[i]? = some s → vm.locals fr.id i = some r → Fits I U vm s r

/- The instructions that can push a wrong term: a bit operation at 256 bits, a
comparison that comes out false, and a comparison of references that no
longer point to the value they were shown with. -/
inductive Exempt (vm : Vm) : Bytecode → List TraceValue → List RtValue → List RtValue → Prop
  | wide (op : BitOp) (ts : List TraceValue) (q : RtValue) (a : Fin (2 ^ IntWidth.w256.bits))
      (rest res : List RtValue) : Exempt vm op.code ts (q :: .val (.int .w256 a) :: rest) res
  | wideShl (ts : List TraceValue) (s : RtValue) (a : Fin (2 ^ IntWidth.w256.bits))
      (rest res : List RtValue) : Exempt vm .shl ts (s :: .val (.int .w256 a) :: rest) res
  | failed (op : CmpOp) (ts : List TraceValue) (ops rest : List RtValue) :
      Exempt vm op.code ts ops (.val (.bool false) :: rest)
  | stale (op : CmpOp) (t u : TraceValue) (ts : List TraceValue) (r l : RtValue)
      (rest res : List RtValue)
      (h : extractPrimitiveValue t ≠ vm.primOf r ∨ extractPrimitiveValue u ≠ vm.primOf l) :
      Exempt vm op.code (t :: u :: ts) (r :: l :: rest) res

section Basic

variable {I U} {vm : Vm}

theorem fits_unknown (r : RtValue) : Fits I U vm .unknown r := fun _ h => by cases h

theorem fits_replicate (l : List RtValue) :
    List.Forall₂ (Fits I U vm) (List.replicate l.length .unknown) l := by
  induction l with
  | nil => exact .nil
  | cons r rest ih => exact .cons (fits_unknown r) ih

theorem fits_prim (e : ZInt) (r : RtValue) (p : PrimitiveValue) (hr : vm.primOf r = some p)
    (he : e.Means I U p.asU256) : Fits I U vm (.value e) r := by
  intro e' h
  cases h
  exact ⟨p, hr, he⟩

theorem primOf_toRt (p : PrimitiveValue) : vm.primOf p.toRt = some p := by
  cases p <;> rfl

theorem shows_kind (t : TraceValue) (r : RtValue) (h : Shows vm t r) :
    (extractPrimitiveValue t).map PrimitiveValue.bitwidth = vm.kindOf r := by
  cases r with
  | val v =>
    obtain rfl : t = .runtimeValue v := h
    rfl
  | ref m l => exact h

theorem shows_toRt (t : TraceValue) (p : PrimitiveValue) (h : Shows vm t p.toRt) :
    extractPrimitiveValue t = some p := by
  cases p with
  | bool b =>
    obtain rfl : t = .runtimeValue (.bool b) := h
    rfl
  | int w n =>
    obtain rfl : t = .runtimeValue (.int w n) := h
    rfl

theorem shows_of_trace (t : TraceValue) (r : RtValue) (h : vm.traceValue r = some t) :
    Shows vm t r := by
  cases r with
  | val v => exact (Option.some.inj h).symm
  | ref m l =>
    simp only [Shows, Vm.kindOf, Vm.primOf, Vm.denotes]
    cases m <;> simp only [Vm.traceValue, Option.map_eq_some_iff] at h <;>
      obtain ⟨v, hv, rfl⟩ := h <;> rw [hv] <;> rfl

/- The primitive behind a position and the one the trace shows have one type. -/
theorem shown_prim (t : TraceValue) (r : RtValue) (k : ℕ) (h : Shows vm t r)
    (hk : vm.kindOf r = some k) : ∃ p, extractPrimitiveValue t = some p ∧ p.bitwidth = k := by
  have hkind := shows_kind t r h
  rw [hk] at hkind
  exact Option.map_eq_some_iff.mp hkind

theorem kindOf_of_prim (r : RtValue) (p : PrimitiveValue) (h : vm.primOf r = some p) :
    vm.kindOf r = some p.bitwidth := by
  rw [Vm.kindOf, h, Option.map_some]

/- Without a primitive there is no symbol. -/
theorem fits_none (s : SymbolValue) (r : RtValue) (h : Fits I U vm s r) (hr : vm.primOf r = none) :
    s = .unknown := by
  cases s with
  | unknown => rfl
  | value e =>
    obtain ⟨p, hp, _⟩ := h e rfl
    rw [hr] at hp
    cases hp

end Basic

/-! ### Operands -/

section Operands

variable {I U}

theorem resolveValue_eq (t : TraceValue) (p : PrimitiveValue)
    (hp : extractPrimitiveValue t = some p) : resolveValue t = some (.const p.asU256) := by
  rw [resolveValue, hp, Option.map_some]

theorem resolved_of_symbol (sl sr : SymbolValue) (tl tr : TraceValue) (p q : PrimitiveValue)
    (hp : extractPrimitiveValue tl = some p) (hq : extractPrimitiveValue tr = some q)
    (hsym : sl ≠ .unknown ∨ sr ≠ .unknown) :
    ∃ l r, resolveOperands sl sr tl tr = some (some (l, r)) := by
  cases sl with
  | unknown =>
    cases sr with
    | unknown =>
      rcases hsym with h | h
      · exact absurd rfl h
      · exact absurd rfl h
    | value r => exact ⟨_, r, by rw [resolveOperands, resolveValue_eq tl p hp, Option.map_some]⟩
  | value l =>
    cases sr with
    | unknown => exact ⟨l, _, by rw [resolveOperands, resolveValue_eq tr q hq, Option.map_some]⟩
    | value r => exact ⟨l, r, rfl⟩

/- A resolved operand means the value that the trace shows of it. -/
theorem resolved_means (sl sr : SymbolValue) (tl tr : TraceValue) (p q : PrimitiveValue)
    (l r : ZInt) (hp : extractPrimitiveValue tl = some p) (hq : extractPrimitiveValue tr = some q)
    (hl : ∀ e, sl = .value e → e.Means I U p.asU256)
    (hr : ∀ e, sr = .value e → e.Means I U q.asU256)
    (h : resolveOperands sl sr tl tr = some (some (l, r))) :
    l.Means I U p.asU256 ∧ r.Means I U q.asU256 := by
  cases sl with
  | unknown =>
    cases sr with
    | unknown => cases h
    | value r' =>
      rw [resolveOperands, resolveValue_eq tl p hp, Option.map_some] at h
      cases h
      exact ⟨.const I U p.asU256, hr r rfl⟩
  | value l' =>
    cases sr with
    | unknown =>
      rw [resolveOperands, resolveValue_eq tr q hq, Option.map_some] at h
      cases h
      exact ⟨hl l rfl, .const I U q.asU256⟩
    | value r' =>
      cases h
      exact ⟨hl l rfl, hr r rfl⟩

theorem processBinaryOp_eq (c : ConcolicState) (sl sr : SymbolValue) (srest : List SymbolValue)
    (tl tr : TraceValue) (trest : List TraceValue) (hc : c.stack = sr :: sl :: srest) :
    c.processBinaryOp (tr :: tl :: trest) =
      (resolveOperands sl sr tl tr).map fun o => ({ c with stack := srest }, o) := by
  simp only [processBinaryOp, pop2, hc, stackTop2, Option.bind_eq_bind, Option.bind_some]
  cases resolveOperands sl sr tl tr <;> rfl

end Operands

/-! ### Arithmetic -/

def ArithOp.term : ArithOp → ZInt → ZInt → ZInt
  | .add => .add
  | .sub => .sub
  | .mul => .mul
  | .div => .div
  | .mod => .rem

theorem shadow_arith (op : ArithOp) (c : ConcolicState) (stack : List TraceValue)
    (extra : Option InstructionExtraInformation) :
    c.shadowInstruction op.code stack extra = c.arithInstruction stack op.term := by
  cases op <;> rfl

theorem arith_means (op : ArithOp) (l r : ZInt) (a b n : ℕ) (hl : l.Means I U a)
    (hr : r.Means I U b) (h : op.apply a b = some n) : (op.term l r).Means I U n := by
  cases op with
  | add => exact Option.some.inj h ▸ hl.add hr
  | sub =>
    simp only [ArithOp.apply] at h
    split_ifs at h with hle
    exact Option.some.inj h ▸ hl.sub hr hle
  | mul => exact Option.some.inj h ▸ hl.mul hr
  | div =>
    simp only [ArithOp.apply] at h
    split_ifs at h with h0
    exact Option.some.inj h ▸ hl.div hr h0
  | mod =>
    simp only [ArithOp.apply] at h
    split_ifs at h with h0
    exact Option.some.inj h ▸ hl.rem hr h0

theorem arith_shadow (c : ConcolicState) (stack : List TraceValue) (f : ZInt → ZInt → ZInt)
    (sl sr : SymbolValue) (srest : List SymbolValue) (tl tr : TraceValue) (trest : List TraceValue)
    (p q : PrimitiveValue) (hc : c.stack = sr :: sl :: srest) (ht : stack = tr :: tl :: trest)
    (hp : extractPrimitiveValue tl = some p) (hq : extractPrimitiveValue tr = some q)
    (hl : ∀ e, sl = .value e → e.Means I U p.asU256)
    (hr : ∀ e, sr = .value e → e.Means I U q.asU256) :
    ∃ s, c.arithInstruction stack f = some ({ c with stack := s :: srest }, none) ∧
      (s = .unknown ∨
        ∃ l r, s = .value (f l r) ∧ l.Means I U p.asU256 ∧ r.Means I U q.asU256) := by
  subst ht
  simp only [arithInstruction, processBinaryOp_eq c sl sr srest tl tr trest hc]
  by_cases hsym : sl ≠ .unknown ∨ sr ≠ .unknown
  · obtain ⟨l, r, h⟩ := resolved_of_symbol sl sr tl tr p q hp hq hsym
    exact ⟨.value (f l r), by rw [h]; rfl,
      .inr ⟨l, r, rfl, resolved_means sl sr tl tr p q l r hp hq hl hr h⟩⟩
  · simp only [ne_eq, not_or, not_not] at hsym
    obtain ⟨rfl, rfl⟩ := hsym
    exact ⟨.unknown, rfl, .inl rfl⟩

/-! ### Bit operations -/

def BitOp.term : BitOp → ZInt → ℕ → ℕ → ZInt
  | .and => intBvandConst
  | .bitAnd => intBvandConst
  | .or => intBvorConst
  | .bitOr => intBvorConst
  | .xor => intBvxorConst

theorem shadow_bit (op : BitOp) (c : ConcolicState) (stack : List TraceValue)
    (extra : Option InstructionExtraInformation) :
    c.shadowInstruction op.code stack extra = c.bitInstruction stack op.term := by
  cases op <;> rfl

theorem bit_means (op : BitOp) (x : ZInt) (n mask bits : ℕ) (hb : bits < 256)
    (hx : x.Means I U n) (hn : n < 2 ^ bits) (hm : mask < 2 ^ bits) :
    (op.term x mask bits).Means I U (op.apply n mask) := by
  have hor := intBvorConst_means I U x n mask bits hb hx hn
  have hxor := intBvxorConst_means I U x n mask bits hb hx hn
  rw [Nat.mod_eq_of_lt (Nat.or_lt_two_pow hn hm)] at hor
  rw [Nat.mod_eq_of_lt (Nat.xor_lt_two_pow hn hm)] at hxor
  cases op with
  | and => exact intBvandConst_means I U x n mask bits hb hx hn
  | bitAnd => exact intBvandConst_means I U x n mask bits hb hx hn
  | or => exact hor
  | bitOr => exact hor
  | xor => exact hxor

theorem BitOp.apply_comm (op : BitOp) (a b : ℕ) : op.apply a b = op.apply b a := by
  cases op with
  | and => exact Nat.and_comm a b
  | bitAnd => exact Nat.and_comm a b
  | or => exact Nat.or_comm a b
  | bitOr => exact Nat.or_comm a b
  | xor => exact Nat.xor_comm a b

/- The symbol a bit operation pushes. -/
def bitSymbol (op : BitOp) (sl sr : SymbolValue) (p q : PrimitiveValue) : SymbolValue :=
  match sl, sr with
  | .value l, .unknown => .value (op.term l q.asU256 p.bitwidth)
  | .unknown, .value r => .value (op.term r p.asU256 p.bitwidth)
  | _, _ => .unknown

theorem bit_shadow (op : BitOp) (c : ConcolicState) (sl sr : SymbolValue)
    (srest : List SymbolValue) (tl tr : TraceValue) (trest : List TraceValue)
    (p q : PrimitiveValue) (hc : c.stack = sr :: sl :: srest)
    (hp : extractPrimitiveValue tl = some p) (hq : extractPrimitiveValue tr = some q) :
    c.bitInstruction (tr :: tl :: trest) op.term =
      some ({ c with stack := bitSymbol op sl sr p q :: srest }, none) := by
  simp only [bitInstruction, pop2, hc, stackTop2, valueBitwidth, valueToU256, hp, hq,
    Option.bind_eq_bind, Option.bind_some, Option.map_some]
  cases sl <;> cases sr <;> rfl

theorem bitSymbol_means (op : BitOp) (sl sr : SymbolValue) (p q : PrimitiveValue)
    (hpq : p.bitwidth = q.bitwidth) (hb : p.bitwidth < 256)
    (hl : ∀ e, sl = .value e → e.Means I U p.asU256)
    (hr : ∀ e, sr = .value e → e.Means I U q.asU256) (e : ZInt)
    (h : bitSymbol op sl sr p q = .value e) : e.Means I U (op.apply p.asU256 q.asU256) := by
  have hp := p.asU256_lt
  have hq := q.asU256_lt
  rw [← hpq] at hq
  cases sl with
  | value l =>
    cases sr with
    | value r => cases h
    | unknown =>
      cases h
      exact bit_means I U op l _ _ _ hb (hl l rfl) hp hq
  | unknown =>
    cases sr with
    | value r =>
      cases h
      rw [op.apply_comm]
      exact bit_means I U op r _ _ _ hb (hr r rfl) hq hp
    | unknown => cases h

/-! ### Shifts -/

theorem maxUBits_eq (w : IntWidth) : maxUBits w.bits = some (.const (2 ^ w.bits - 1)) := by
  cases w <;> rfl

/- The symbol and the constraint of `Shl`. -/
def shlSymbol (sl sr : SymbolValue) (w : IntWidth) (s : ℕ) : SymbolValue :=
  match sl, sr with
  | .value l, .unknown => .value ((l.mul (intTwoPow s)).modulo (intTwoPow w.bits))
  | _, _ => .unknown

theorem shl_shadow (c : ConcolicState) (sl sr : SymbolValue) (srest : List SymbolValue)
    (tl tr : TraceValue) (trest : List TraceValue) (w : IntWidth) (a : Fin (2 ^ w.bits))
    (s : Fin (2 ^ 8)) (hc : c.stack = sr :: sl :: srest)
    (hp : extractPrimitiveValue tl = some (.int w a))
    (hq : extractPrimitiveValue tr = some (.int .w8 s)) :
    ∃ k, c.shlInstruction (tr :: tl :: trest) =
      some ({ c with stack := shlSymbol sl sr w s :: srest }, k) := by
  have hs : s.val % 2 ^ 32 = s.val := Nat.mod_eq_of_lt (s.isLt.trans (by decide))
  simp only [shlInstruction, pop2, hc, stackTop2, valueBitwidth, valueToU256, hp, hq,
    Option.map_some, Option.bind_eq_bind, Option.bind_some, PrimitiveValue.bitwidth,
    PrimitiveValue.asU256, maxUBits_eq, hs]
  cases sl <;> cases sr <;> exact ⟨_, rfl⟩

theorem shlSymbol_means (sl sr : SymbolValue) (w : IntWidth) (a s : ℕ) (hw : w.bits < 256)
    (hs : s < 256) (hl : ∀ e, sl = .value e → e.Means I U a) (e : ZInt)
    (h : shlSymbol sl sr w s = .value e) : e.Means I U (a * 2 ^ s % 2 ^ w.bits) := by
  cases sl with
  | unknown => cases sr <;> cases h
  | value l =>
    cases sr with
    | value r => cases h
    | unknown =>
      cases h
      exact ((hl l rfl).mul (intTwoPow_means I U s hs)).modulo (intTwoPow_means I U w.bits hw)
        (two_pow_ne_zero w.bits)

def shrSymbol (sl sr : SymbolValue) (s : ℕ) : SymbolValue :=
  match sl, sr with
  | .value l, .unknown => .value (l.div (intTwoPow s))
  | _, _ => .unknown

theorem shr_shadow (c : ConcolicState) (sl sr : SymbolValue) (srest : List SymbolValue)
    (tl tr : TraceValue) (trest : List TraceValue) (s : Fin (2 ^ 8))
    (hc : c.stack = sr :: sl :: srest) (hq : extractPrimitiveValue tr = some (.int .w8 s)) :
    c.shrInstruction (tr :: tl :: trest) =
      some ({ c with stack := shrSymbol sl sr s :: srest }, none) := by
  have hs : s.val % 2 ^ 32 = s.val := Nat.mod_eq_of_lt (s.isLt.trans (by decide))
  simp only [shrInstruction, pop2, hc, stackTop2, valueToU256, hq, Option.map_some,
    Option.bind_eq_bind, Option.bind_some, PrimitiveValue.asU256, hs]
  cases sl <;> cases sr <;> rfl

theorem shrSymbol_means (sl sr : SymbolValue) (a s : ℕ) (hs : s < 256)
    (hl : ∀ e, sl = .value e → e.Means I U a) (e : ZInt) (h : shrSymbol sl sr s = .value e) :
    e.Means I U (a / 2 ^ s) := by
  cases sl with
  | unknown => cases sr <;> cases h
  | value l =>
    cases sr with
    | value r => cases h
    | unknown =>
      cases h
      exact (hl l rfl).div (intTwoPow_means I U s hs) (two_pow_ne_zero s)

end Movy.Tracer
