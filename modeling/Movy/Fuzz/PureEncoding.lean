import Movy.Fuzz.ByteViews
import Movy.Lib.BigEndian
import Movy.Types.ToPtb

/-!
# The bytes of scalar inputs

`sui_builder_input_arg` hands scalars to the builder as Rust values, each with
the serialisation of its own type. The virtual machine reads them in the fixed
width of the Move type.
-/

namespace Movy.Fuzz

open Movy.Types Movy.Store MoveSequence

/-- What the transaction builder serialises: integers, booleans and addresses in
fixed width, and the `u128` of the big-number library as a byte string. -/
structure BcsEncodes (bcs : PureValue → List Byte) : Prop where
  bool : ∀ b, bcs (.bool b) = [if b then 1 else 0]
  u8 : ∀ v, bcs (.u8 v) = leBytes 1 v
  u16 : ∀ v, bcs (.u16 v) = leBytes 2 v
  u32 : ∀ v, bcs (.u32 v) = leBytes 4 v
  u64 : ∀ v, bcs (.u64 v) = leBytes 8 v
  /-- The length, and the digits with the most significant first. -/
  u128 : ∀ v, bcs (.u128 v) = 16 :: beBytes 16 v
  u256 : ∀ v, bcs (.u256 v) = leBytes 32 v
  address : ∀ a, bcs (.address a) = a.bytes

/-- The encoding of a Move scalar. -/
def moveBytes : InputArgument → Option (List Byte)
  | .bool b => some [if b then 1 else 0]
  | .u8 v => some (leBytes 1 v)
  | .u16 v => some (leBytes 2 v)
  | .u32 v => some (leBytes 4 v)
  | .u64 v => some (leBytes 8 v)
  | .u128 v => some (leBytes 16 v)
  | .u256 v => some (leBytes 32 v)
  | .address a => some a.bytes
  | _ => none

/-- The builder is given the Move encoding, which is also what the mutators see of an
integer. -/
def Encoded (bcs : PureValue → List Byte) (v : InputArgument) : Prop :=
  ∃ bytes, moveBytes v = some bytes ∧
    (∀ builder, suiBuilderInputArg bcs builder v = some (builder.pureBytes bytes)) ∧
    ((number v).isSome = true → sync v = some bytes)

theorem pureBytes_injective (b b' : List Byte)
    (h : ProgrammableTransactionBuilder.new.pureBytes b =
      ProgrammableTransactionBuilder.new.pureBytes b') : b = b' := by
  have hinputs := congrArg (fun r => r.2.finish.inputs) h
  have hpure : ∀ c, (ProgrammableTransactionBuilder.new.pureBytes c).2.finish.inputs =
      [.pure c] := fun _ => rfl
  rw [hpure, hpure, List.cons.injEq, CallArg.pure.injEq] at hinputs
  exact hinputs.1

def moveU256 (v : Fin (2 ^ 256)) : Fin (2 ^ 256) := Fin.ofNat (2 ^ 256) (fromLeBytes (leBytes 32 v))

theorem moveU256_eq (v : Fin (2 ^ 256)) : moveU256 v = v := by
  apply Fin.ext
  show fromLeBytes (leBytes 32 v) % 2 ^ 256 = v
  rw [fromLeBytes_leBytes 32 v (Nat.lt_of_lt_of_eq v.isLt (by decide)), Nat.mod_eq_of_lt v.isLt]

def pureValue : InputArgument → Option PureValue
  | .bool b => some (.bool b)
  | .u8 v => some (.u8 v)
  | .u16 v => some (.u16 v)
  | .u32 v => some (.u32 v)
  | .u64 v => some (.u64 v)
  | .u128 v => some (.u128 v)
  | .u256 v => some (.u256 (moveU256 v))
  | .address a => some (.address a)
  | _ => none

theorem suiBuilderInputArg_pure (bcs : PureValue → List Byte)
    (builder : ProgrammableTransactionBuilder) (v : InputArgument) (p : PureValue)
    (h : pureValue v = some p) :
    suiBuilderInputArg bcs builder v = some (builder.pureBytes (bcs p)) := by
  cases v with
  | u256 x =>
    rw [← Option.some.inj h, moveU256_eq]
    rfl
  | bool | u8 | u16 | u32 | u64 | u128 | address => cases h; rfl
  | signer | vector | object => cases h

theorem sync_moveBytes (v : InputArgument) (h : (number v).isSome = true) :
    sync v = moveBytes v := by
  cases v <;> first | rfl | cases h

theorem u128_not_encoded (bcs : PureValue → List Byte) (hbcs : BcsEncodes bcs)
    (n : Fin (2 ^ 128)) : ¬ Encoded bcs (.u128 n) := by
  intro h
  obtain ⟨bytes, hbytes, hbuilder, -⟩ := h
  have hhanded := pureBytes_injective _ _
    (Option.some.inj (hbuilder ProgrammableTransactionBuilder.new))
  have hlen := congrArg List.length hhanded
  rw [hbcs.u128, List.length_cons, length_beBytes, ← Option.some.inj hbytes, length_leBytes] at hlen
  omega

theorem moveBytes_pure (bcs : PureValue → List Byte) (hbcs : BcsEncodes bcs) (v : InputArgument)
    (hv : (moveBytes v).isSome = true) (hne : ∀ n, v ≠ .u128 n) :
    ∃ p, pureValue v = some p ∧ moveBytes v = some (bcs p) := by
  cases v with
  | bool b => exact ⟨_, rfl, congrArg some (hbcs.bool b).symm⟩
  | u8 x => exact ⟨_, rfl, congrArg some (hbcs.u8 x).symm⟩
  | u16 x => exact ⟨_, rfl, congrArg some (hbcs.u16 x).symm⟩
  | u32 x => exact ⟨_, rfl, congrArg some (hbcs.u32 x).symm⟩
  | u64 x => exact ⟨_, rfl, congrArg some (hbcs.u64 x).symm⟩
  | u128 x => exact absurd rfl (hne x)
  | u256 x => exact ⟨_, rfl, by rw [moveU256_eq, hbcs.u256]; rfl⟩
  | address a => exact ⟨_, rfl, congrArg some (hbcs.address a).symm⟩
  | signer | vector | object => cases hv

/-- A scalar reaches the builder in its Move encoding exactly if it is no `u128`. -/
theorem encoded_iff (bcs : PureValue → List Byte) (hbcs : BcsEncodes bcs) (v : InputArgument)
    (hv : (moveBytes v).isSome = true) : Encoded bcs v ↔ ∀ n, v ≠ .u128 n := by
  constructor
  · rintro hencoded n rfl
    exact u128_not_encoded bcs hbcs n hencoded
  · intro hne
    obtain ⟨p, hp, hbytes⟩ := moveBytes_pure bcs hbcs v hv hne
    exact ⟨bcs p, hbytes, fun builder => suiBuilderInputArg_pure bcs builder v p hp,
      fun hnumber => (sync_moveBytes v hnumber).trans hbytes⟩

theorem bcsBytes_encodes : BcsEncodes bcsBytes :=
  ⟨fun _ => rfl, fun _ => rfl, fun _ => rfl, fun _ => rfl, fun _ => rfl, fun _ => rfl,
    fun _ => rfl, fun _ => rfl⟩

theorem encoded_iff_u256 :
    BcsEncodes bcsBytes ∧ (Encoded bcsBytes (.u256 7) ↔ ∀ n, InputArgument.u256 7 ≠ .u128 n) :=
  ⟨bcsBytes_encodes, encoded_iff bcsBytes bcsBytes_encodes (.u256 7) rfl⟩

/-- Seventeen bytes are handed over for a `u128`, which has sixteen. -/
theorem u128_seven_not_encoded :
    suiBuilderInputArg bcsBytes ProgrammableTransactionBuilder.new (.u128 7) =
      some (ProgrammableTransactionBuilder.new.pureBytes (16 :: List.replicate 15 0 ++ [7])) ∧
    moveBytes (.u128 7) = some (7 :: List.replicate 15 0) ∧ ¬ Encoded bcsBytes (.u128 7) :=
  ⟨by rfl, by decide, u128_not_encoded bcsBytes bcsBytes_encodes 7⟩

end Movy.Fuzz
