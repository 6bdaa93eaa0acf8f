import Movy.Fuzz.Meta
import Movy.Lib.LittleEndian

/-!
# Mutating values (`movy-fuzz/src/mutators/mutation_utils.rs`)

A number is mutated through its bytes: `sync` writes the value out, `commit`
reads it back in the shape of the old value. The byte mutators of the fuzzing
library work on another buffer, the one of the `MutableValue`.
-/

namespace Movy.Fuzz

open Movy.Types Movy.Store

inductive MutationResult where
  | mutated
  | skipped
  deriving DecidableEq

def InputArgument.typeTag : InputArgument → MoveTypeTag
  | .bool _ => .bool
  | .u8 _ => .u8
  | .u16 _ => .u16
  | .u32 _ => .u32
  | .u64 _ => .u64
  | .u128 _ => .u128
  | .u256 _ => .u256
  | .vector ty _ => .vector ty
  | .signer _ => .signer
  | .address _ => .address
  | .object ty _ => ty

/-! ### `sync` and `commit` -/

mutual

/- `none` is `unreachable!`. -/
def sync : InputArgument → Option (List Byte)
  | .u128 v => some (leBytes 16 v)
  | .u256 v => some (leBytes 32 v)
  | .u64 v => some (leBytes 8 v)
  | .u32 v => some (leBytes 4 v)
  | .u16 v => some (leBytes 2 v)
  | .u8 v => some (leBytes 1 v)
  | .vector _ vs => syncElements vs
  | _ => none

def syncElements : List InputArgument → Option (List Byte)
  | [] => some []
  | v :: vs => do
    let bytes ← sync v
    let rest ← syncElements vs
    some (bytes ++ rest)

end

def readLe (n : ℕ) (bytes : List Byte) : Option ℕ :=
  if bytes.length = n then some (fromLeBytes bytes) else none

def chunkSize : MoveTypeTag → Option ℕ
  | .u8 => some 1
  | .u16 => some 2
  | .u32 => some 4
  | .u64 => some 8
  | .u128 => some 16
  | .u256 => some 32
  | _ => none

def slice (bytes : List Byte) (start stop : ℕ) : Option (List Byte) :=
  if start ≤ stop ∧ stop ≤ bytes.length then some ((bytes.take stop).drop start) else none

mutual

/- `none` is a panic. -/
def commit (bytes : List Byte) : InputArgument → Option InputArgument
  | .u128 _ => (readLe 16 bytes).map fun n => .u128 (Fin.ofNat (2 ^ 128) n)
  | .u64 _ => (readLe 8 bytes).map fun n => .u64 (Fin.ofNat (2 ^ 64) n)
  | .u32 _ => (readLe 4 bytes).map fun n => .u32 (Fin.ofNat (2 ^ 32) n)
  | .u16 _ => (readLe 2 bytes).map fun n => .u16 (Fin.ofNat (2 ^ 16) n)
  | .u8 _ => (readLe 1 bytes).map fun n => .u8 (Fin.ofNat (2 ^ 8) n)
  | .u256 _ => (readLe 32 bytes).map fun n => .u256 (Fin.ofNat (2 ^ 256) n)
  | .vector t vs => (commitElements bytes t 0 vs).map fun vs => .vector t vs
  | _ => none

def commitElements (bytes : List Byte) (t : MoveTypeTag) : ℕ → List InputArgument →
    Option (List InputArgument)
  | _, [] => some []
  | i, v :: vs => do
    let size ← chunkSize t
    let chunk ← slice bytes (i * size) (i * size + size)
    let v' ← commit chunk v
    let vs' ← commitElements bytes t (i + 1) vs
    some (v' :: vs')

end

/-! ### `MagicNumberMutator` -/

/- The members of the pool that have the length of the input; one of them
overwrites it. -/
def magicNumberMutate (magicNumberPool : List (List Byte)) (inputBytes : List Byte) :
    Choice (MutationResult × List Byte) :=
  if magicNumberPool.isEmpty then pure (.skipped, inputBytes)
  else
    let fitPool := magicNumberPool.filter fun x => x.length = inputBytes.length
    if fitPool.isEmpty then pure (.skipped, inputBytes)
    else do
      let magicNumber ← Choice.pick fitPool
      if inputBytes.length < magicNumber.length then
        pure (.mutated, magicNumber.take inputBytes.length)
      else
        pure (.mutated, List.replicate (inputBytes.length - magicNumber.length) 0 ++ magicNumber)

/-! ### `MutableValue` -/

structure MutableValue where
  value : InputArgument
  bytes : List Byte

/- The byte mutators of the fuzzing library, which is not part of the repository:
`HavocScheduledMutator::with_max_stack_pow` for a single mutation, and
`DwordInterestingMutator`. -/
structure ByteMutators where
  havoc : ℕ → (List Byte → Choice (MutationResult × List Byte)) → List Byte →
    Choice (MutationResult × List Byte)
  dwordInteresting : List Byte → Choice (MutationResult × List Byte)

def maxStackPow : ℕ := 7

namespace MutableValue

def new (value : InputArgument) : MutableValue := ⟨value, []⟩

def drawNumber (threshold bound : ℕ) (encode : ℕ → List Byte) (res : MutationResult)
    (bytes : List Byte) : Choice (MutationResult × List Byte) := do
  let c ← Choice.belowOrZero 10
  if threshold < c then do
    let n ← Choice.belowOrZero bound
    pure (.mutated, encode n)
  else pure (res, bytes)

section

variable (lib : ByteMutators)

def drawBytes (magicNumberPool : List (List Byte)) (split : Bool) (res : MutationResult)
    (bytes buffer : List Byte) : Choice ((MutationResult × List Byte) × List Byte) :=
  if bytes.length = 4 then do
    let r ← drawNumber 0 443636 (leBytes 4) res bytes
    pure (r, buffer)
  else if bytes.length = 8 then do
    let r ← drawNumber 5 64 (fun n => leBytes 8 (2 ^ n)) res bytes
    pure (r, buffer)
  else if bytes.length = 16 then do
    let r ← drawNumber 0 128 (fun n => leBytes 16 (2 ^ n)) res bytes
    pure (r, buffer)
  else if split && magicNumberPool.isEmpty then pure ((.mutated, leBytes 8 0), buffer)
  else do
    let (res, buffer) ← lib.havoc maxStackPow lib.dwordInteresting buffer
    pure ((res, bytes), buffer)

/- The scheduled mutators change the buffer, which is empty; what is committed is
a copy of the value's bytes. -/
def mutateBy (magicNumberPool : List (List Byte)) (split : Bool) (self : MutableValue) :
    Choice (MutationResult × MutableValue) := do
  let bytes ← Choice.expect (sync self.value)
  let (res, buffer) ← lib.havoc maxStackPow (magicNumberMutate magicNumberPool) self.bytes
  let ((res, bytes), buffer) ← drawBytes lib magicNumberPool split res bytes buffer
  let value ← Choice.expect (commit bytes self.value)
  pure (res, ⟨value, buffer⟩)

def mutate (st : FuzzState) (magicNumberPool : List (List Byte)) (split : Bool)
    (self : MutableValue) : Choice (MutationResult × MutableValue) :=
  match self.value with
  | .bool _ => do
    let b ← Choice.belowOrZero 2
    pure (.mutated, { self with value := .bool (b = 1) })
  | .u8 v => do
    let n ← Choice.otherThan 255 v.val
    pure (.mutated, { self with value := .u8 (Fin.ofNat (2 ^ 8) n) })
  | .u16 _ | .u32 _ | .u64 _ | .u128 _ | .u256 _ => mutateBy lib magicNumberPool split self
  | .address _ => do
    let c ← Choice.belowOrZero 2
    let a ← Choice.pick (if c = 1 then st.addressesPool else st.callersPool)
    pure (.mutated, { self with value := .address a })
  | _ => pure (.skipped, self)

end

end MutableValue

def sampleMagicNumber (magicNumberPool : List (List Byte)) (v : InputArgument) :
    Choice (MutationResult × InputArgument) :=
  match v with
  | .u8 _ | .u16 _ | .u32 _ | .u64 _ | .u128 _ | .u256 _
  | .vector .u8 _ | .vector .u16 _ | .vector .u32 _ | .vector .u64 _ | .vector .u128 _
  | .vector .u256 _ => do
    let bytes ← Choice.expect (sync v)
    let fitValues := magicNumberPool.filter fun num => num.length = bytes.length
    if fitValues.isEmpty then pure (.skipped, v)
    else do
      let bytes ← Choice.pick fitValues
      let value ← Choice.expect (commit bytes v)
      pure (.mutated, value)
  | _ => pure (.skipped, v)

end Movy.Fuzz
