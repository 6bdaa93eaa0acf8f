import Movy.Lib.IndexMap
import Movy.Store.Object

/-!
# Move sequences and their programmable transactions (`movy-types/src/input.rs`)

The fuzzer's sequences of calls, and `to_ptb`, which replays a sequence on
Sui's transaction builder. The builder itself is outside the repository; it is
modelled as far as `to_ptb` relies on it: inputs are kept in an index map
keyed by their bytes or their object id, and commands are appended.
-/

namespace Movy.Types

open Movy.Store (Byte ObjectID SequenceNumber ObjectRef)

abbrev U16 := Fin (2 ^ 16)

instance u8_neZero : NeZero (2 ^ 8) := ⟨by decide⟩

instance u16_neZero : NeZero (2 ^ 16) := ⟨by decide⟩

instance u32_neZero : NeZero (2 ^ 32) := ⟨by decide⟩

instance u128_neZero : NeZero (2 ^ 128) := ⟨by decide⟩

instance u256_neZero : NeZero (2 ^ 256) := ⟨by decide⟩

/- `i as u16`. -/
def asU16 (n : ℕ) : U16 := ⟨n % 2 ^ 16, Nat.mod_lt _ (by decide)⟩

theorem asU16_val (n : ℕ) (h : n < 2 ^ 16) : (asU16 n).val = n := Nat.mod_eq_of_lt h

abbrev MoveAddress := ObjectID

inductive SuiObjectInputArgument where
  | immOrOwnedObject (ref : ObjectRef)
  | sharedObject (id : ObjectID) (initialSharedVersion : SequenceNumber) (mutable : Bool)
  | receiving (ref : ObjectRef)
  deriving DecidableEq

inductive MoveTypeTag where
  | bool
  | u8
  | u16
  | u32
  | u64
  | u128
  | u256
  | vector (elem : MoveTypeTag)
  | address
  | signer
  | struct (address : MoveAddress) (module name : String) (tys : List MoveTypeTag)

/- `TypeInput` has the same cases, and the conversion maps each to its own. -/
abbrev TypeInput := MoveTypeTag

inductive InputArgument where
  | bool (v : Bool)
  | u8 (v : Fin (2 ^ 8))
  | u16 (v : Fin (2 ^ 16))
  | u32 (v : Fin (2 ^ 32))
  | u64 (v : Fin (2 ^ 64))
  | u128 (v : Fin (2 ^ 128))
  | u256 (v : Fin (2 ^ 256))
  | vector (ty : MoveTypeTag) (values : List InputArgument)
  | signer (v : MoveAddress)
  | address (v : MoveAddress)
  | object (ty : MoveTypeTag) (arg : SuiObjectInputArgument)

inductive SequenceArgument where
  | gasCoin
  | input (i : U16)
  | result (i : U16)
  | nestedResult (i j : U16)
  deriving DecidableEq

structure MoveCall where
  moduleId : MoveAddress
  moduleName : String
  function : String
  typeArguments : List MoveTypeTag
  arguments : List SequenceArgument

inductive MoveSequenceCall where
  | call (call : MoveCall)
  | transferObjects (args : List SequenceArgument) (dst : SequenceArgument)
  | splitCoins (src : SequenceArgument) (amounts : List SequenceArgument)
  | mergeCoins (dst : SequenceArgument) (srcs : List SequenceArgument)
  | publish (modules : List (List Byte)) (deps : List MoveAddress)
  | makeMoveVec (ty : MoveTypeTag) (args : List SequenceArgument)
  | upgrade (modules : List (List Byte)) (deps : List MoveAddress) (package : MoveAddress)
      (ticket : SequenceArgument)

structure MoveSequence where
  inputs : List InputArgument
  commands : List MoveSequenceCall

/-! ### Programmable transactions -/

inductive Argument where
  | gasCoin
  | input (i : U16)
  | result (i : U16)
  | nestedResult (i j : U16)
  deriving DecidableEq

def SequenceArgument.intoArgument : SequenceArgument → Argument
  | .gasCoin => .gasCoin
  | .input v => .input v
  | .nestedResult l r => .nestedResult l r
  | .result v => .result v

inductive SharedObjectMutability where
  | immutable
  | mutable
  deriving DecidableEq

inductive ObjectArg where
  | immOrOwnedObject (ref : ObjectRef)
  | sharedObject (id : ObjectID) (initialSharedVersion : SequenceNumber)
      (mutability : SharedObjectMutability)
  | receiving (ref : ObjectRef)
  deriving DecidableEq

def ObjectArg.id : ObjectArg → ObjectID
  | .immOrOwnedObject ref => ref.1
  | .sharedObject id _ _ => id
  | .receiving ref => ref.1

def SuiObjectInputArgument.intoObjectArg : SuiObjectInputArgument → ObjectArg
  | .immOrOwnedObject v => .immOrOwnedObject v
  | .receiving v => .receiving v
  | .sharedObject id initialSharedVersion mutable =>
    .sharedObject id initialSharedVersion
      (if mutable then SharedObjectMutability.mutable else SharedObjectMutability.immutable)

inductive CallArg where
  | pure (bytes : List Byte)
  | object (arg : ObjectArg)
  deriving DecidableEq

structure ProgrammableMoveCall where
  package : ObjectID
  module : String
  function : String
  typeArguments : List TypeInput
  arguments : List Argument

inductive Command where
  | moveCall (call : ProgrammableMoveCall)
  | transferObjects (args : List Argument) (dst : Argument)
  | splitCoins (src : Argument) (amounts : List Argument)
  | mergeCoins (dst : Argument) (srcs : List Argument)
  | publish (modules : List (List Byte)) (deps : List ObjectID)
  | makeMoveVec (ty : Option TypeInput) (args : List Argument)
  | upgrade (modules : List (List Byte)) (deps : List ObjectID) (package : ObjectID)
      (ticket : Argument)

structure ProgrammableTransaction where
  inputs : List CallArg
  commands : List Command

/-! ### The transaction builder -/

inductive BuilderArg where
  | pure (bytes : List Byte)
  | object (id : ObjectID)
  deriving DecidableEq

structure ProgrammableTransactionBuilder where
  inputs : IndexMap BuilderArg CallArg
  commands : List Command

/- What is handed to `pure`. -/
inductive PureValue where
  | bool (v : Bool)
  | u8 (v : Fin (2 ^ 8))
  | u16 (v : Fin (2 ^ 16))
  | u32 (v : Fin (2 ^ 32))
  | u64 (v : Fin (2 ^ 64))
  | u128 (v : Fin (2 ^ 128))
  | u256 (v : Fin (2 ^ 256))
  | address (v : MoveAddress)

namespace ProgrammableTransactionBuilder

def new : ProgrammableTransactionBuilder := ⟨IndexMap.empty, []⟩

/- Equal bytes share one input. -/
def pureBytes (self : ProgrammableTransactionBuilder) (bytes : List Byte) :
    Argument × ProgrammableTransactionBuilder :=
  (.input (asU16 (self.inputs.insertIndex (.pure bytes))),
    { self with inputs := self.inputs.insert (.pure bytes) (.pure bytes) })

/- How an object argument is combined with the one already there under its
id: two uses of a shared object are merged, anything else has to be equal. -/
def mergeObj (old new : ObjectArg) : Option ObjectArg :=
  match old, new with
  | .sharedObject id1 v1 mut1, .sharedObject id2 v2 mut2 =>
    if v1 = v2 then
      if id1 = id2 then
        some (.sharedObject id2 v2 (if mut1 = .mutable ∨ mut2 = .mutable then .mutable else mut2))
      else none
    else if old = new then some new else none
  | old, new => if old = new then some new else none

/- `none` is an error: a pure value under an object key, or a mismatch. -/
def obj (self : ProgrammableTransactionBuilder) (arg : ObjectArg) :
    Option (Argument × ProgrammableTransactionBuilder) :=
  let merged := match self.inputs.get? (.object arg.id) with
    | none => some arg
    | some (.pure _) => none
    | some (.object old) => mergeObj old arg
  merged.map fun arg' =>
    (.input (asU16 (self.inputs.insertIndex (.object arg.id))),
      { self with inputs := self.inputs.insert (.object arg.id) (.object arg') })

def command (self : ProgrammableTransactionBuilder) (c : Command) :
    Argument × ProgrammableTransactionBuilder :=
  (.result (asU16 self.commands.length), { self with commands := self.commands ++ [c] })

def finish (self : ProgrammableTransactionBuilder) : ProgrammableTransaction :=
  ⟨self.inputs.values, self.commands⟩

end ProgrammableTransactionBuilder

/-! ### `to_ptb` -/

namespace MoveSequence

section

/- The byte encoding of a pure value (`bcs::to_bytes`). -/
variable (bcs : PureValue → List Byte)

mutual

def suiBuilderInputArg (builder : ProgrammableTransactionBuilder) :
    InputArgument → Option (Argument × ProgrammableTransactionBuilder)
  | .bool v => some (builder.pureBytes (bcs (.bool v)))
  | .u8 v => some (builder.pureBytes (bcs (.u8 v)))
  | .u16 v => some (builder.pureBytes (bcs (.u16 v)))
  | .u32 v => some (builder.pureBytes (bcs (.u32 v)))
  | .u64 v => some (builder.pureBytes (bcs (.u64 v)))
  | .u128 v => some (builder.pureBytes (bcs (.u128 v)))
  | .u256 v => some (builder.pureBytes (bcs (.u256 v)))
  | .address v => some (builder.pureBytes (bcs (.address v)))
  | .signer v => some (builder.pureBytes (bcs (.address v)))
  | .vector ty vs =>
    (suiBuilderInputArgs builder vs).map fun r => r.2.command (.makeMoveVec (some ty) r.1)
  | .object _ v => builder.obj v.intoObjectArg

/- The `map` over the elements of a vector, with the builder threaded through. -/
def suiBuilderInputArgs (builder : ProgrammableTransactionBuilder) :
    List InputArgument → Option (List Argument × ProgrammableTransactionBuilder)
  | [] => some ([], builder)
  | v :: vs =>
    (suiBuilderInputArg builder v).bind fun r =>
      (suiBuilderInputArgs r.2 vs).map fun rs => (r.1 :: rs.1, rs.2)

end

end

/- The command that is appended for one call of the sequence. -/
def intoCommand : MoveSequenceCall → Command
  | .call call => .moveCall
      ⟨call.moduleId, call.moduleName, call.function, call.typeArguments,
        call.arguments.map SequenceArgument.intoArgument⟩
  | .makeMoveVec ty args => .makeMoveVec (some ty) (args.map SequenceArgument.intoArgument)
  | .publish modules address => .publish modules address
  | .transferObjects args dst =>
    .transferObjects (args.map SequenceArgument.intoArgument) dst.intoArgument
  | .mergeCoins dst src => .mergeCoins dst.intoArgument (src.map SequenceArgument.intoArgument)
  | .splitCoins src amounts =>
    .splitCoins src.intoArgument (amounts.map SequenceArgument.intoArgument)
  | .upgrade modules deps package ticket => .upgrade modules deps package ticket.intoArgument

/- The arguments that the builder returns for the inputs are dropped. -/
def addInputs (bcs : PureValue → List Byte) :
    ProgrammableTransactionBuilder → List InputArgument → Option ProgrammableTransactionBuilder
  | builder, [] => some builder
  | builder, input :: rest =>
    (suiBuilderInputArg bcs builder input).bind fun r => addInputs bcs r.2 rest

def addCommands (builder : ProgrammableTransactionBuilder) (cmds : List MoveSequenceCall) :
    ProgrammableTransactionBuilder :=
  cmds.foldl (fun b cmd => (b.command (intoCommand cmd)).2) builder

def toPtb (self : MoveSequence) (bcs : PureValue → List Byte) : Option ProgrammableTransaction :=
  (addInputs bcs ProgrammableTransactionBuilder.new self.inputs).map fun builder =>
    (addCommands builder self.commands).finish

end MoveSequence

end Movy.Types
