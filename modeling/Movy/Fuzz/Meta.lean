import Movy.Lib.Choice
import Movy.Types.Unify

/-!
# What the mutators know (`movy-fuzz/src/meta.rs`, `movy-replay/src/meta.rs`)

The ABIs of the packages, the pool of objects by type, the hooks, and the
object store behind them. The mutators only read these; what they draw at
random is in `Choice`.
-/

namespace Movy.Fuzz

open Movy.Types Movy.Store

structure FunctionIdent where
  moduleId : MoveModuleId
  function : String
  deriving DecidableEq

def FunctionIdent.new (moduleAddress : MoveAddress) (moduleName functionName : String) :
    FunctionIdent :=
  ⟨⟨moduleAddress, moduleName⟩, functionName⟩

inductive MoveFunctionVisibility where
  | public_
  | private_
  | friend
  deriving DecidableEq

structure MoveFunctionAbi where
  name : String
  parameters : List MoveAbiSignatureToken
  returnParamters : List MoveAbiSignatureToken
  typeParameters : List MoveAbility
  visibility : MoveFunctionVisibility

structure MoveModuleAbi where
  moduleId : MoveModuleId
  functions : List MoveFunctionAbi
  structs : List MoveStructHandle

structure MovePackageAbi where
  modules : List MoveModuleAbi

/-! ### Objects -/

inductive MoveOwner where
  | addressOwner (owner : MoveAddress)
  | objectOwner (owner : MoveAddress)
  | immutable
  | shared (initialSharedVersion : SequenceNumber)
  | consensusAddressOwner (startVersion : SequenceNumber) (owner : MoveAddress)
  deriving DecidableEq

structure MoveObjectInfo where
  id : MoveAddress
  ty : MoveTypeTag
  owner : MoveOwner
  version : SequenceNumber
  digest : ObjectDigest

/-! ### The type graph (`movy-analysis/src/type_graph.rs`) -/

/- The functions that were added to the graph. The graph itself only indexes
them by the types that they return. -/
structure MoveTypeGraph where
  functions : List (MoveModuleId × MoveFunctionAbi)

def MoveAddress.isSuiStd (self : MoveAddress) : Bool :=
  self = ObjectID.ofByte 1 || self = ObjectID.ofByte 2 || self = ObjectID.ofByte 3 ||
    self = ObjectID.ofByte 13

def producerAllowed (moduleId : MoveModuleId) (function : MoveFunctionAbi) : Bool :=
  !MoveAddress.isSuiStd moduleId.moduleAddress ||
    (moduleId = ⟨ObjectID.ofByte 2, "coin"⟩ && function.name = "into_balance") ||
    (moduleId = ⟨ObjectID.ofByte 1, "ascii"⟩ && function.name = "string") ||
    (moduleId = ⟨ObjectID.ofByte 1, "string"⟩ && function.name = "utf8") ||
    (moduleId = ⟨ObjectID.ofByte 1, "uq32_32"⟩ && function.name = "from_quotient") ||
    (moduleId = ⟨ObjectID.ofByte 1, "uq64_64"⟩ && function.name = "from_quotient")

/- The public functions, other than the excluded one, with a result that the
type matches. One of them is drawn at random, so their order does not matter. -/
def MoveTypeGraph.findProducers (self : MoveTypeGraph) (ty : MoveAbiSignatureToken)
    (excluded : FunctionIdent) : List (MoveModuleId × MoveFunctionAbi) :=
  let ty := ty.dereference.getD ty
  self.functions.flatMap fun (m, f) => f.returnParamters.filterMap fun rt =>
    if ((rt.dereference.getD rt).partialExtractTyArgs ty).isSome && f.visibility = .public_ &&
        !(excluded = ⟨m, f.name⟩) && producerAllowed m f then some (m, f)
    else none

/-! ### Metadata and environment -/

structure FunctionHook where
  preHooks : List FunctionIdent
  postHooks : List FunctionIdent

/- `HasFuzzMetadata` and `HasFuzzEnv` in one record. -/
structure FuzzState where
  abis : MoveAddress → Option MovePackageAbi
  moduleAddressToPackage : MoveAddress → Option MoveAddress
  typeGraph : MoveTypeGraph
  typesPool : IndexMap MoveTypeTag (List MoveAddress)
  abilityToTypeTag : MoveAbility → Option (List MoveTypeTag)
  functionNameToIdents : String → Option (List FunctionIdent)
  functionHooks : IndexMap FunctionIdent FunctionHook
  sequenceHooks : FunctionHook
  attacker : MoveAddress
  callersPool : List MoveAddress
  addressesPool : List MoveAddress
  gasId : MoveAddress
  /- `env.inner().get_move_object_info(id).ok()` -/
  getMoveObjectInfo : MoveAddress → Option MoveObjectInfo

namespace FuzzState

/- A state that knows one module, without objects and hooks. -/
def ofModule (m : MoveModuleAbi) : FuzzState where
  abis := fun address => if address = m.moduleId.moduleAddress then some ⟨[m]⟩ else none
  moduleAddressToPackage := fun _ => none
  typeGraph := ⟨m.functions.map fun f => (m.moduleId, f)⟩
  typesPool := IndexMap.empty
  abilityToTypeTag := fun _ => none
  functionNameToIdents := fun _ => none
  functionHooks := IndexMap.empty
  sequenceHooks := ⟨[], []⟩
  attacker := ObjectID.ofByte 9
  callersPool := []
  addressesPool := []
  gasId := ObjectID.ofByte 8
  getMoveObjectInfo := fun _ => none

def getPackageMetadata (self : FuzzState) (packageId : MoveAddress) : Option MovePackageAbi :=
  self.abis ((self.moduleAddressToPackage packageId).getD packageId)

def getModule (self : FuzzState) (packageId : MoveAddress) (module : String) :
    Option MoveModuleAbi :=
  (self.getPackageMetadata packageId).bind fun pkg =>
    pkg.modules.find? fun m => m.moduleId.moduleName = module

def getFunction (self : FuzzState) (packageId : MoveAddress) (module function : String) :
    Option MoveFunctionAbi :=
  (self.getModule packageId module).bind fun m => m.functions.find? fun f => f.name = function

def getAbilities (self : FuzzState) (packageId : MoveAddress) (module structName : String) :
    Option MoveAbility :=
  (self.getModule packageId module).bind fun m =>
    (m.structs.find? fun s => s.structName = structName).map fun s => s.abilities

/- The function that a call names. -/
def getCalled (self : FuzzState) (call : MoveCall) : Option MoveFunctionAbi :=
  self.getFunction call.moduleId call.moduleName call.function

/- `none` is the panic on an unknown struct. -/
def getTypeTagAbility (self : FuzzState) : MoveTypeTag → Option MoveAbility
  | .signer => some ⟨false, true, false, false⟩
  | .struct address module name _ => self.getAbilities address module name
  | _ => some MoveAbility.PRIMITIVES

def genTypeTagByAbilities (self : FuzzState) (abilities : MoveAbility) : Choice MoveTypeTag :=
  match self.abilityToTypeTag abilities with
  | none => pure .u64
  | some [] => pure .u64
  | some typeTags => Choice.pick typeTags

end FuzzState

/-! ### Pure values -/

/- `MutableValue::mutate` with an empty pool of magic numbers and without
`split`. The byte mutators work on a buffer that is never read back, so `u16`,
`u256` and vectors stay as they are. -/
def mutateValue (st : FuzzState) : InputArgument → Choice InputArgument
  | .bool _ => do
    let b ← Choice.belowOrZero 2
    pure (.bool (b = 1))
  | .u8 v => do
    let n ← Choice.otherThan 255 v.val
    pure (.u8 (Fin.ofNat (2 ^ 8) n))
  | .u32 v => do
    let c ← Choice.belowOrZero 10
    if 0 < c then do
      let n ← Choice.belowOrZero 443636
      pure (.u32 (Fin.ofNat (2 ^ 32) n))
    else pure (.u32 v)
  | .u64 v => do
    let c ← Choice.belowOrZero 10
    if 5 < c then do
      let n ← Choice.belowOrZero 64
      pure (.u64 (Fin.ofNat (2 ^ 64) (2 ^ n)))
    else pure (.u64 v)
  | .u128 v => do
    let c ← Choice.belowOrZero 10
    if 0 < c then do
      let n ← Choice.belowOrZero 128
      pure (.u128 (Fin.ofNat (2 ^ 128) (2 ^ n)))
    else pure (.u128 v)
  | .address _ => do
    let c ← Choice.belowOrZero 2
    let a ← Choice.pick (if c = 1 then st.addressesPool else st.callersPool)
    pure (.address a)
  | v => pure v

end Movy.Fuzz
