import Movy.Analysis.TypeGraph
import Movy.Fuzz.DeriveHooks
import Mathlib.Data.List.Destutter
import Mathlib.Data.Prod.Lex
import Mathlib.Data.String.Basic

/-!
# Choosing the target functions (`FuzzMetadata::from_metadata` of `movy-fuzz/src/meta.rs`)

The target functions come from the ABIs of the target packages. If none is left
after the filters, they come from the testing ABIs, and if none is left again
every function of the target packages is a target.
-/

namespace Movy.Fuzz

open Movy.Types Movy.Store

theorem FunctionIdent.key_injective : Function.Injective fun f : FunctionIdent =>
    toLex (f.moduleId.moduleAddress, toLex (f.moduleId.moduleName, f.function)) := by
  rintro ⟨⟨a, m⟩, n⟩ ⟨⟨a', m'⟩, n'⟩ h
  obtain ⟨rfl, h⟩ := Prod.mk.inj (toLex.injective h)
  obtain ⟨rfl, rfl⟩ := Prod.mk.inj (toLex.injective h)
  rfl

/- The derived order: the address, the module, the name. -/
instance : LinearOrder FunctionIdent := LinearOrder.lift' _ FunctionIdent.key_injective

def sortAndDedup {α : Type} [LinearOrder α] (l : List α) : List α :=
  (l.insertionSort (· ≤ ·)).destutter (· ≠ ·)

/-! ### Metadata and filters -/

/- The part of the metadata that target selection reads. -/
structure Metadata where
  typeGraph : Analysis.MoveTypeGraph
  abis : SortedMap MoveAddress MovePackageAbi
  testingAbis : SortedMap MoveAddress MovePackageAbi
  moduleAddressToPackage : SortedMap MoveAddress MoveAddress
  functionNameToIdents : String → Option (List FunctionIdent)

namespace Metadata

def getPackageMetadata (self : Metadata) (packageId : MoveAddress) : Option MovePackageAbi :=
  self.testingAbis.get? ((self.moduleAddressToPackage.get? packageId).getD packageId)

def getOriginalPackageMetadata (self : Metadata) (packageId : MoveAddress) :
    Option MovePackageAbi :=
  self.abis.get? ((self.moduleAddressToPackage.get? packageId).getD packageId)

end Metadata

structure TargetFilters where
  includePackages : Option (List MoveAddress)
  excludePackages : Option (List MoveAddress)
  includeModules : Option (List MoveModuleId)
  excludeModules : Option (List MoveModuleId)
  includeFunctions : Option (List FunctionIdent)
  excludeFunctions : Option (List FunctionIdent)

/- `if let Some(include) = ..` and `if let Some(exclude) = ..`: no list, no restriction. -/
def included {α : Type} [DecidableEq α] (include_ : Option (List α)) (a : α) : Bool :=
  include_.all fun l => a ∈ l

def excluded {α : Type} [DecidableEq α] (exclude : Option (List α)) (a : α) : Bool :=
  exclude.any fun l => a ∈ l

def normalizePackages (targetPackages : List MoveAddress) (filters : TargetFilters) :
    List MoveAddress :=
  let packages := targetPackages.filter (included filters.includePackages)
  let packages := packages.filter fun pkg => !excluded filters.excludePackages pkg
  sortAndDedup packages

def TargetFilters.allows (filters : TargetFilters) (func : FunctionIdent) : Bool :=
  let pkg := func.moduleId.moduleAddress
  let moduleId := func.moduleId
  if !included filters.includePackages pkg then false
  else if excluded filters.excludePackages pkg then false
  else if !included filters.includeFunctions func then false
  else if excluded filters.excludeFunctions func then false
  else if !included filters.includeModules moduleId then false
  else if excluded filters.excludeModules moduleId then false
  else true

def applyFunctionFilters (targetFunctions : List FunctionIdent) (filters : TargetFilters) :
    List FunctionIdent :=
  targetFunctions.filter filters.allows

/-! ### Collecting functions -/

/- Why a function is no target. -/
inductive SkipReason where
  | nonPublic
  | readOnly
  | returnsReference (ty : MoveAbiSignatureToken)
  | unconsumableHotPotato (ty : MoveAbiSignatureToken)

def droppable (ty : MoveAbiSignatureToken) : Bool := ty.ability.any MoveAbility.drop

/- The parameters and the results only let the function read. -/
def isReadOnly (func : MoveFunctionAbi) : Bool :=
  (func.parameters.all fun t =>
    droppable t || (match t with | .reference _ => true | _ => false) || t.isTxContext) &&
  func.returnParamters.all fun t => t.isMutable || droppable t

def returnSkipReason (base : Metadata) (retTy : MoveAbiSignatureToken) : Option SkipReason :=
  match retTy with
  | .reference _ | .mutableReference _ => some (.returnsReference retTy)
  | _ =>
    if retTy.isHotPotato && (base.typeGraph.findConsumers retTy true).isEmpty then
      some (.unconsumableHotPotato retTy)
    else none

def skipFunctionReason (base : Metadata) (func : MoveFunctionAbi) : Option SkipReason :=
  if func.visibility ≠ .public_ then some .nonPublic
  else if isReadOnly func then some .readOnly
  else func.returnParamters.findSome? (returnSkipReason base)

def isTarget (base : Metadata) (func : MoveFunctionAbi) : Bool :=
  (skipFunctionReason base func).isNone

def isValidation (func : MoveFunctionAbi) : Bool :=
  func.visibility = .public_ && "movy_validate".toList.isPrefixOf func.name.toList

def functionsAt (packageAddr : MoveAddress) (package : MovePackageAbi) : List HookSite :=
  package.modules.flatMap fun module => module.functions.map fun func =>
    ⟨packageAddr, module, func⟩

/- The loop of the three `collect_*` functions. An unknown package is left out. -/
def collectFunctions (metadata : MoveAddress → Option MovePackageAbi)
    (keep : MoveFunctionAbi → Bool) (targetPackages : List MoveAddress) : List FunctionIdent :=
  targetPackages.flatMap fun packageAddr => match metadata packageAddr with
    | none => []
    | some package =>
      ((functionsAt packageAddr package).filter fun s => keep s.func).map HookSite.ident

def collectTargetFunctions (base : Metadata) (targetPackages : List MoveAddress) :
    List FunctionIdent :=
  collectFunctions base.getOriginalPackageMetadata (isTarget base) targetPackages

def collectTestingTargetFunctions (base : Metadata) (targetPackages : List MoveAddress) :
    List FunctionIdent :=
  collectFunctions base.getPackageMetadata (isTarget base) targetPackages

def collectValidationTargetFunctions (base : Metadata) (targetPackages : List MoveAddress) :
    List FunctionIdent :=
  collectFunctions base.getPackageMetadata isValidation targetPackages

def fallbackTargetFunctions (base : Metadata) (targetPackages : List MoveAddress) :
    List FunctionIdent :=
  ((base.abis.entries ++ base.testingAbis.entries).filter fun e =>
    targetPackages.contains e.1).flatMap fun e => (functionsAt e.1 e.2).map HookSite.ident

/-! ### The metadata of the fuzzer -/

def orInsert (scores : SortedMap FunctionIdent U64) (func : FunctionIdent) (score : U64) :
    SortedMap FunctionIdent U64 :=
  match scores.get? func with
  | some _ => scores
  | none => scores.insert func score

def deriveFunctionScores (targetFunctions : List FunctionIdent)
    (specificFunctionScores : SortedMap FunctionIdent U64) : SortedMap FunctionIdent U64 :=
  targetFunctions.foldl (fun scores func =>
    orInsert scores func ((specificFunctionScores.get? func).getD INIT_FUNCTION_SCORE))
    SortedMap.empty

def collectTargetPackagesFromFunctions (functions : List FunctionIdent) : List MoveAddress :=
  sortAndDedup (functions.map fun f => f.moduleId.moduleAddress)

/- `fuzz_state`, apart from the random numbers and the mutator that runs. -/
structure FuzzMetadata where
  base : Metadata
  attacker : MoveAddress
  callersPool : List MoveAddress
  addressesPool : List MoveAddress
  functionScores : SortedMap FunctionIdent U64
  specificFunctionScores : SortedMap FunctionIdent U64
  targetFunctions : List FunctionIdent
  targetPackages : List MoveAddress
  functionHooks : FunctionHooks
  sequenceHooks : FunctionHook
  gasId : MoveAddress
  checkpoint : U64
  epoch : U64
  epochMs : U64

def selectTargetFunctions (base : Metadata) (targetPackages : List MoveAddress)
    (filters : TargetFilters) : List FunctionIdent :=
  let filteredPackages := normalizePackages targetPackages filters
  let targetFunctions := collectTargetFunctions base filteredPackages ++
    collectValidationTargetFunctions base filteredPackages
  let targetFunctions := sortAndDedup (applyFunctionFilters targetFunctions filters)
  let targetFunctions :=
    if targetFunctions.isEmpty then
      let targetFunctions := collectTestingTargetFunctions base filteredPackages ++
        collectValidationTargetFunctions base filteredPackages
      sortAndDedup (applyFunctionFilters targetFunctions filters)
    else targetFunctions
  -- this list is neither sorted nor deduplicated
  if targetFunctions.isEmpty then
    applyFunctionFilters (fallbackTargetFunctions base filteredPackages) filters
  else targetFunctions

/- `none` is a panic of the derivation of the hooks. -/
def FuzzMetadata.fromMetadata (base : Metadata) (functionScores : List (FunctionIdent × U64))
    (targetPackages : List MoveAddress) (attacker admin gasId : MoveAddress)
    (localTestingAbis : SortedMap MoveAddress MovePackageAbi) (checkpoint epoch epochMs : U64)
    (filters : TargetFilters) : Option FuzzMetadata :=
  let specificFunctionScores := functionScores.foldl
    (fun scores e => scores.insert e.1 e.2) SortedMap.empty
  let targetFunctions := selectTargetFunctions base targetPackages filters
  (deriveFunctionHooks localTestingAbis.entries base.functionNameToIdents).bind fun functionHooks =>
  (deriveSequenceHooks localTestingAbis.entries).map fun sequenceHooks =>
    { base, attacker, functionHooks, sequenceHooks, gasId, checkpoint, epoch, epochMs,
      specificFunctionScores, targetFunctions,
      callersPool := [attacker]
      addressesPool := [attacker, admin]
      functionScores := deriveFunctionScores targetFunctions specificFunctionScores
      targetPackages := collectTargetPackagesFromFunctions targetFunctions }

end Movy.Fuzz
