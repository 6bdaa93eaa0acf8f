import Movy.Tracer.Extra
import Movy.Tracer.IntOps

/-!
# The concolic engine (`movy-replay/src/tracer/concolic.rs`)

`ConcolicState` shadows the operand stack and the locals of the Move VM with
symbolic values. It is driven by the instructions, not by the effects: before
each instruction it does to the shadow stack what the instruction will do to
the operand stack. Stacks are lists with their top in front; the locals of a
frame are in the order of their index. `none` is a panic.
-/

namespace Movy.Tracer

open Movy.Types (MoveTypeTag)

inductive SymbolValue where
  | value (e : ZInt)
  | unknown

structure ConcolicState where
  stack : List SymbolValue
  locals : List (List SymbolValue)
  args : List (List (ℕ × ZInt))
  disable : Bool

/- `stack_top2`: the two topmost values, the left operand first. -/
def stackTop2 : List TraceValue → Option (TraceValue × TraceValue)
  | rhs :: lhs :: _ => some (lhs, rhs)
  | _ => none

namespace ConcolicState

def new : ConcolicState := ⟨[], [], [], false⟩

def maxUBits (n : ℕ) : Option ZInt :=
  if n ≤ 63 then some (.const (2 ^ n - 1))
  else
    match n with
    | 64 => some (.const 18446744073709551615)
    | 128 => some (.const 340282366920938463463374607431768211455)
    | 256 => some (.const
        115792089237316195423570985008687907853269984665640564039457584007913129639935)
    | _ => none

def resolveArg (cmdIndex paramIndex : ℕ) (ty : TypeTagWithRefs) : SymbolValue :=
  if ty.refType.isSome = true then .unknown
  else
    match ty.type with
    | .bool | .u8 | .u16 | .u32 | .u64 | .u128 | .u256 => .value (.var (cmdIndex, paramIndex))
    | _ => .unknown

def resolveValue (value : TraceValue) : Option ZInt :=
  (extractPrimitiveValue value).map fun p => .const p.asU256

def push (self : ConcolicState) (v : SymbolValue) : ConcolicState :=
  { self with stack := v :: self.stack }

def drop (self : ConcolicState) (n : ℕ) : ConcolicState :=
  { self with stack := self.stack.drop n }

/- `(self.stack.pop().unwrap(), self.stack.pop().unwrap())`, the left operand
first. -/
def pop2 (self : ConcolicState) : Option (SymbolValue × SymbolValue × ConcolicState) :=
  match self.stack with
  | rhs :: lhs :: rest => some (lhs, rhs, { self with stack := rest })
  | _ => none

/- An operand without a term is replaced by its concrete value, unless both
are. -/
def resolveOperands (lhs rhs : SymbolValue) (trueLhs trueRhs : TraceValue) :
    Option (Option (ZInt × ZInt)) :=
  match lhs, rhs with
  | .value l, .value r => some (some (l, r))
  | .value l, .unknown => (resolveValue trueRhs).map fun r => some (l, r)
  | .unknown, .value r => (resolveValue trueLhs).map fun l => some (l, r)
  | .unknown, .unknown => some none

def processBinaryOp (self : ConcolicState) (stack : List TraceValue) :
    Option (ConcolicState × Option (ZInt × ZInt)) := do
  let (lhs, rhs, self) ← self.pop2
  let (trueLhs, trueRhs) ← stackTop2 stack
  let operands ← resolveOperands lhs rhs trueLhs trueRhs
  some (self, operands)

def onMoveCallInner (self : ConcolicState) : ConcolicState :=
  { self with locals := [], stack := [] }

def onRawEventInner (self : ConcolicState) (ev : TraceEvent) (state : TraceState) :
    ConcolicState × Bool :=
  if self.disable = true then (self, false)
  else
    match ev with
    | .instruction .. =>
      if self.stack.length ≠ state.operandStack.length then ({ self with disable := true }, false)
      else (self, true)
    | .effect (.executionError _) => (self.drop 1, true)
    | _ => (self, true)

def onOpenFrameInner (self : ConcolicState) (frame : Frame) : ConcolicState :=
  let paramCount := frame.parameters.length
  if self.locals.isEmpty = true then
    -- `vec![Unknown; param_count]` if there are no types, and padded with it if too few
    let resolved := frame.localsTypes.mapIdx fun i ty => resolveArg self.args.length i ty
    let locals := resolved ++ List.replicate (paramCount - resolved.length) .unknown
    let args := (locals.take paramCount).zipIdx.filterMap fun (v, i) =>
      match v with
      | .value e => some (i, e)
      | .unknown => none
    { self with args := self.args ++ [args], locals := locals :: self.locals }
  else
    let argLen := min paramCount self.stack.length
    -- the arguments are drained from the stack, the deepest first
    let locals := (self.stack.take argLen).reverse
    let locals := locals ++ List.replicate (frame.localsTypes.length - locals.length) .unknown
    let rest := self.stack.drop argLen
    { self with
      locals := locals :: self.locals
      stack := if frame.isNative = true
        then List.replicate frame.returnTypes.length .unknown ++ rest else rest }

def onCloseFrameInner (self : ConcolicState) : ConcolicState :=
  { self with locals := self.locals.tail }

/-! ### Instructions -/

/- `CastU8` .. `CastU128`: the operand stays, the constraint says that it fits. -/
def castInstruction (self : ConcolicState) (bits : ℕ) : Option (ConcolicState × Option ZBool) :=
  match self.stack.head? with
  | some (.value e) => (maxUBits bits).map fun m => (self, some (.le e m))
  | _ => some (self, none)

def arithInstruction (self : ConcolicState) (stack : List TraceValue) (op : ZInt → ZInt → ZInt) :
    Option (ConcolicState × Option ZBool) := do
  let (self, operands) ← self.processBinaryOp stack
  match operands with
  | some (l, r) => some (self.push (.value (op l r)), none)
  | none => some (self.push .unknown, none)

/- The bit operations take one symbolic operand and a constant mask. -/
def bitInstruction (self : ConcolicState) (stack : List TraceValue) (op : ZInt → ℕ → ℕ → ZInt) :
    Option (ConcolicState × Option ZBool) := do
  let (lhs, rhs, self) ← self.pop2
  let (trueLhs, trueRhs) ← stackTop2 stack
  let bitWidth ← valueBitwidth trueLhs
  let trueL ← valueToU256 trueLhs
  let trueR ← valueToU256 trueRhs
  match lhs, rhs with
  | .value _, .value _ => some (self.push .unknown, none)
  | .value l, .unknown => some (self.push (.value (op l trueR bitWidth)), none)
  | .unknown, .value r => some (self.push (.value (op r trueL bitWidth)), none)
  | .unknown, .unknown => some (self.push .unknown, none)

def shlInstruction (self : ConcolicState) (stack : List TraceValue) :
    Option (ConcolicState × Option ZBool) := do
  let (lhs, rhs, self) ← self.pop2
  let (trueLhs, trueRhs) ← stackTop2 stack
  let bitWidth ← valueBitwidth trueLhs
  let trueR := (← valueToU256 trueRhs) % 2 ^ 32
  let threshold ← maxUBits bitWidth
  match lhs, rhs with
  | .value l, .unknown =>
    let shl := l.mul (intTwoPow trueR)
    some (self.push (.value (shl.modulo (intTwoPow bitWidth))), some (.gt shl threshold))
  | _, _ => some (self.push .unknown, none)

def shrInstruction (self : ConcolicState) (stack : List TraceValue) :
    Option (ConcolicState × Option ZBool) := do
  let (lhs, rhs, self) ← self.pop2
  let (_, trueRhs) ← stackTop2 stack
  let trueR := (← valueToU256 trueRhs) % 2 ^ 32
  match lhs, rhs with
  | .value l, .unknown => some (self.push (.value (l.div (intTwoPow trueR))), none)
  | _, _ => some (self.push .unknown, none)

def notInstruction (self : ConcolicState) (stack : List TraceValue) :
    Option (ConcolicState × Option ZBool) :=
  match self.stack with
  | [] => some (self, none)
  | .unknown :: _ => some (self, none)
  | .value n :: rest => do
    let bitWidth ← valueBitwidth (← stack.head?)
    some ({ self with stack := .value (intBvnot n bitWidth) :: rest }, none)

def loadLocal (self : ConcolicState) (idx : ℕ) : ConcolicState :=
  match self.locals with
  | [] => self.push .unknown
  | locals :: _ => self.push (locals[idx]?.getD .unknown)

def moveLocal (self : ConcolicState) (idx : ℕ) : ConcolicState :=
  match self.locals with
  | [] => self.push .unknown
  | locals :: outer =>
    { self with
      stack := locals[idx]?.getD .unknown :: self.stack
      locals := locals.set idx .unknown :: outer }

/- `StLoc` grows the locals up to the index if it has to. -/
def storeLocal (self : ConcolicState) (idx : ℕ) : ConcolicState :=
  match self.stack, self.locals with
  | [], _ => self
  | _ :: rest, [] => { self with stack := rest }
  | v :: rest, locals :: outer =>
    let grown := locals ++ List.replicate (idx + 1 - locals.length) .unknown
    { self with stack := rest, locals := grown.set idx v :: outer }

def asInt (c : ZBool) : SymbolValue := .value (.ite c (.const 1) (.const 0))

/- `Eq`, `Lt`, `Le`, `Gt`, `Ge`: the test if the concrete operands pass it, else
its negation, is both the pushed term and the constraint. -/
def cmpInstruction (self : ConcolicState) (stack : List TraceValue) (passes : Ordering → Bool)
    (test : ZInt → ZInt → ZBool) : Option (ConcolicState × Option ZBool) := do
  let (self, operands) ← self.processBinaryOp stack
  match operands with
  | none => some (self.push .unknown, none)
  | some (l, r) =>
    let (trueLhs, trueRhs) ← stackTop2 stack
    let ord ← compareValue trueLhs trueRhs
    let c := if passes ord = true then test l r else .not (test l r)
    some (self.push (asInt c), some c)

/- On equal operands `Neq` pushes the equation and returns its negation. -/
def neqInstruction (self : ConcolicState) (stack : List TraceValue) :
    Option (ConcolicState × Option ZBool) := do
  let (self, operands) ← self.processBinaryOp stack
  match operands with
  | none => some (self.push .unknown, none)
  | some (l, r) =>
    let (trueLhs, trueRhs) ← stackTop2 stack
    let ord ← compareValue trueLhs trueRhs
    if ord ≠ .eq then
      let neq : ZBool := .not (.eq l r)
      some (self.push (asInt neq), some neq)
    else
      let eq : ZBool := .eq l r
      some (self.push (asInt eq), some (.not eq))

def packInstruction (self : ConcolicState) (fields : ℕ) : ConcolicState :=
  (self.drop fields).push .unknown

def unpackInstruction (self : ConcolicState) (fields : ℕ) : ConcolicState :=
  { self with stack := List.replicate fields .unknown ++ self.stack.drop 1 }

def shadowInstruction (self : ConcolicState) (instruction : Bytecode) (stack : List TraceValue)
    (extra : Option InstructionExtraInformation) : Option (ConcolicState × Option ZBool) :=
  match instruction with
  | .pop | .brTrue _ | .brFalse _ | .abort | .vecImmBorrow _ | .vecMutBorrow _ =>
    some (self.drop 1, none)
  | .ldU .. | .ldConst _ => some (self.push .unknown, none)
  | .ldFalse => some (self.push (.value (.const 0)), none)
  | .ldTrue => some (self.push (.value (.const 1)), none)
  | .castU .w8 => self.castInstruction 8
  | .castU .w16 => self.castInstruction 16
  | .castU .w32 => self.castInstruction 32
  | .castU .w64 => self.castInstruction 64
  | .castU .w128 => self.castInstruction 128
  | .add => self.arithInstruction stack .add
  | .sub => self.arithInstruction stack .sub
  | .mul => self.arithInstruction stack .mul
  | .div => self.arithInstruction stack .div
  | .mod => self.arithInstruction stack .rem
  | .and | .bitAnd => self.bitInstruction stack intBvandConst
  | .or | .bitOr => self.bitInstruction stack intBvorConst
  | .xor => self.bitInstruction stack intBvxorConst
  | .shl => self.shlInstruction stack
  | .shr => self.shrInstruction stack
  | .not => self.notInstruction stack
  | .copyLoc idx | .mutBorrowLoc idx | .immBorrowLoc idx => some (self.loadLocal idx, none)
  | .moveLoc idx => some (self.moveLocal idx, none)
  | .stLoc idx => some (self.storeLocal idx, none)
  | .writeRef | .vecPushBack _ => some (self.drop 2, none)
  | .eq => self.cmpInstruction stack (fun o => o == .eq) .eq
  | .neq => self.neqInstruction stack
  | .lt => self.cmpInstruction stack (fun o => o == .lt) .lt
  | .le => self.cmpInstruction stack (fun o => o != .gt) .le
  | .gt => self.cmpInstruction stack (fun o => o == .gt) .gt
  | .ge => self.cmpInstruction stack (fun o => o != .lt) .ge
  | .vecPack _ len => some (self.packInstruction len, none)
  | .vecUnpack _ len => some (self.unpackInstruction len, none)
  | .vecSwap _ => some (self.drop 3, none)
  | .pack _ | .packGeneric _ =>
    match extra with
    | some (.pack n) | some (.packGeneric n) => some (self.packInstruction n, none)
    | _ => none
  | .unpack _ | .unpackGeneric _ =>
    match extra with
    | some (.unpack n) | some (.unpackGeneric n) => some (self.unpackInstruction n, none)
    | _ => none
  | .packVariant _ | .packVariantGeneric _ =>
    match extra with
    | some (.packVariant n) | some (.packVariantGeneric n) =>
      some (self.packInstruction n, none)
    | _ => none
  | .unpackVariant _ | .unpackVariantImmRef _ | .unpackVariantMutRef _
  | .unpackVariantGeneric _ | .unpackVariantGenericImmRef _ | .unpackVariantGenericMutRef _ =>
    match extra with
    | none => some ({ self.drop 1 with disable := true }, none)
    | some (.unpackVariant n) | some (.unpackVariantGeneric n) =>
      some (self.unpackInstruction n, none)
    | _ => none
  | .variantSwitch _ => some (self.drop 1, none)
  | _ => some (self, none)

def onBeforeInstructionInner (self : ConcolicState) (instruction : Bytecode) (state : TraceState)
    (extra : Option InstructionExtraInformation) : Option (ConcolicState × Option ZBool) :=
  if self.stack.length ≠ state.operandStack.length ∨ self.disable = true then
    some ({ self with disable := true }, none)
  else self.shadowInstruction instruction state.operandStack extra

end ConcolicState

end Movy.Tracer
