import Movy.Types.Input

/-!
# Traced values (`movy-replay/src/tracer/concolic.rs`, `tracer/op.rs`)

The values that the trace events of the Move VM carry, and the views the
tracer takes of them: primitive values for the concolic engine and magic
values for the comparison logs.
-/

namespace Movy.Tracer

open Movy.Store (Byte ObjectID)

inductive IntWidth where
  | w8
  | w16
  | w32
  | w64
  | w128
  | w256
  deriving DecidableEq

def IntWidth.bits : IntWidth → ℕ
  | .w8 => 8
  | .w16 => 16
  | .w32 => 32
  | .w64 => 64
  | .w128 => 128
  | .w256 => 256

instance width_neZero (w : IntWidth) : NeZero (2 ^ w.bits) :=
  ⟨Nat.pos_iff_ne_zero.mp (Nat.two_pow_pos w.bits)⟩

theorem IntWidth.bits_injective (v w : IntWidth) (h : v.bits = w.bits) : v = w := by
  cases v <;> cases w <;> first | rfl | exact absurd h (by decide)

theorem IntWidth.bits_le (w : IntWidth) : 8 ≤ w.bits ∧ w.bits ≤ 256 := by
  cases w <;> decide

theorem IntWidth.bits_lt (w : IntWidth) (h : w ≠ .w256) : w.bits < 256 := by
  cases w <;> first | decide | exact absurd rfl h

structure StructTag where
  address : ObjectID
  moduleName : List Byte
  name : List Byte

/- `SerializableMoveValue`: `U8` .. `U256` are `int` at their width. -/
inductive MoveValue where
  | address (a : ObjectID)
  | bool (b : Bool)
  | int (w : IntWidth) (n : Fin (2 ^ w.bits))
  | struct (type : StructTag) (fields : List MoveValue)
  | vector (elems : List MoveValue)
  | variant (type : StructTag) (tag : ℕ) (fields : List MoveValue)

inductive PrimitiveValue where
  | bool (b : Bool)
  | int (w : IntWidth) (n : Fin (2 ^ w.bits))
  deriving DecidableEq

namespace PrimitiveValue

def bitwidth : PrimitiveValue → ℕ
  | .bool _ => 1
  | .int w _ => w.bits

def asU256 : PrimitiveValue → ℕ
  | .bool b => if b = true then 1 else 0
  | .int _ n => n.val

theorem asU256_lt (p : PrimitiveValue) : p.asU256 < 2 ^ p.bitwidth := by
  cases p with
  | bool b => cases b <;> decide
  | int w n => exact n.isLt

/- Of one type, two primitive values are told apart by their number. -/
theorem eq_of_asU256 (p q : PrimitiveValue) (hw : p.bitwidth = q.bitwidth)
    (h : p.asU256 = q.asU256) : p = q := by
  cases p with
  | bool a =>
    cases q with
    | bool b => cases a <;> cases b <;> first | rfl | exact absurd h (by decide)
    | int w n =>
      have := w.bits_le.1
      simp only [bitwidth] at hw
      omega
  | int v m =>
    cases q with
    | bool b =>
      have := v.bits_le.1
      simp only [bitwidth] at hw
      omega
    | int w n =>
      obtain rfl := IntWidth.bits_injective v w hw
      rw [Fin.ext h]

end PrimitiveValue

/- `None` where the code panics: no primitive value. -/
def MoveValue.primitive : MoveValue → Option PrimitiveValue
  | .bool b => some (.bool b)
  | .int w n => some (.int w n)
  | _ => none

theorem MoveValue.eq_of_primitive (v w : MoveValue) (p : PrimitiveValue)
    (hv : v.primitive = some p) (hw : w.primitive = some p) : v = w := by
  cases v <;> simp only [primitive, Option.some.injEq, reduceCtorEq] at hv <;>
    cases w <;> simp only [primitive, Option.some.injEq, reduceCtorEq] at hw <;>
    subst hv <;> cases hw <;> rfl

/- The comparison of two primitive values; it panics on different types. -/
def compareValueImpl : PrimitiveValue → PrimitiveValue → Option Ordering
  | .bool l, .bool r => some (compare l.toNat r.toNat)
  | .int v l, .int w r => if v = w then some (compare l.val r.val) else none
  | _, _ => none

theorem compareValueImpl_eq (p q : PrimitiveValue) (h : p.bitwidth = q.bitwidth) :
    compareValueImpl p q = some (compare p.asU256 q.asU256) := by
  cases p with
  | bool a =>
    cases q with
    | bool b => cases a <;> cases b <;> rfl
    | int w n =>
      have := w.bits_le.1
      simp only [PrimitiveValue.bitwidth] at h
      omega
  | int v m =>
    cases q with
    | bool b =>
      have := v.bits_le.1
      simp only [PrimitiveValue.bitwidth] at h
      omega
    | int w n =>
      obtain rfl := IntWidth.bits_injective v w h
      simp only [compareValueImpl, if_true, PrimitiveValue.asU256]

/- Where a reference points: a local of a frame, a field or element of another
place, or a value loaded from outside the trace. -/
inductive Location where
  | ofLocal (frame idx : ℕ)
  | indexed (l : Location) (idx : ℕ)
  | global (id : ℕ)

inductive TraceValue where
  | runtimeValue (value : MoveValue)
  | immRef (location : Location) (snapshot : MoveValue)
  | mutRef (location : Location) (snapshot : MoveValue)

namespace TraceValue

def snapshot : TraceValue → MoveValue
  | runtimeValue v => v
  | immRef _ s => s
  | mutRef _ s => s

/- `value_mut` gives access to runtime values only. -/
def isRuntime : TraceValue → Bool
  | runtimeValue _ => true
  | _ => false

end TraceValue

def extractPrimitiveValue (v : TraceValue) : Option PrimitiveValue := v.snapshot.primitive

def compareValue (v w : TraceValue) : Option Ordering := do
  let p ← extractPrimitiveValue v
  let q ← extractPrimitiveValue w
  compareValueImpl p q

def valueToU256 (v : TraceValue) : Option ℕ := (extractPrimitiveValue v).map (·.asU256)

def valueBitwidth (v : TraceValue) : Option ℕ := (extractPrimitiveValue v).map (·.bitwidth)

/- `U8` .. `U256` are `int` at their width. -/
inductive Magic where
  | int (w : IntWidth) (n : Fin (2 ^ w.bits))
  | bytes (b : List Byte)
  deriving DecidableEq

/- `Magic::try_from`: vectors and variants have no magic. -/
def Magic.ofMoveValue : MoveValue → Option Magic
  | .bool b => some (.int .w8 (if b = true then 1 else 0))
  | .int w n => some (.int w n)
  | .address a => some (.bytes a.bytes)
  | .struct t _ => some (.bytes (t.address.bytes ++ t.moduleName ++ t.name))
  | .vector _ => none
  | .variant .. => none

def Magic.tryFrom (v : TraceValue) : Option Magic := Magic.ofMoveValue v.snapshot

end Movy.Tracer
