import Movy.Lib.Pointwise
import Movy.Static.UnusedStruct
import Movy.Sui.Relink
import Movy.Types.Published

/-!
# ABIs from compiled modules (`movy-types/src/abi.rs`)

A signature names a struct by the position of its handle, a handle its module by a
position in the next table, and a module its address by a position in another. The
ABI has the names themselves, and the abilities of a type parameter wherever it
occurs. `none` is a position out of range.
-/

namespace Movy.Bytecode

open Movy.Types Movy.Types.Published
open Movy.Store (ObjectID)
open Movy.Static (SignatureToken)
open Movy.Fuzz (MoveFunctionAbi MoveFunctionVisibility)

/-! ### Module tables -/

/-- The rest of a datatype handle, beside its module and its name. -/
structure DatatypeInfo where
  abilities : MoveAbility
  typeParameters : List MoveStructTypeParameters

/-- The rest of a function handle; the signatures are positions. -/
structure FunctionInfo where
  parameters : ℕ
  return_ : ℕ
  typeParameters : List MoveAbility

structure FunctionInstantiation where
  handle : ℕ
  typeParameters : ℕ

structure FieldDefinition where
  name : ℕ
  signature : SignatureToken

/-- A native struct has no fields. -/
structure StructDefinition where
  structHandle : ℕ
  fields : Option (List FieldDefinition)

structure FunctionDefinition where
  function : ℕ
  visibility : MoveFunctionVisibility
  isEntry : Bool
  code : Option (List Tracer.Bytecode)

/-- `datatypes` and `functions` go with the tables of the handles. -/
structure CompiledModule extends Sui.CompiledModule where
  datatypes : List DatatypeInfo
  functions : List FunctionInfo
  functionInstantiations : List FunctionInstantiation
  signatures : List (List SignatureToken)
  structDefs : List StructDefinition
  functionDefs : List FunctionDefinition

/-- The same definitions over other tables of handles and addresses. -/
def CompiledModule.onTables (module : CompiledModule) (tables : Sui.CompiledModule) :
    CompiledModule := { module with toCompiledModule := tables }

/-! ### Signatures -/

variable (module : CompiledModule)

def fromModuleIdx (idx : ℕ) : Option MoveStructHandle := do
  let dty ← module.datatypeHandles[idx]?
  let info ← module.datatypes[idx]?
  let resolved ← module.resolveMember dty
  some ⟨⟨resolved.1.1, resolved.1.2⟩, resolved.2, info.abilities, info.typeParameters⟩

mutual

def fromSuiTokenModule (tys : List MoveAbility) : SignatureToken → Option MoveAbiSignatureToken
  | .address => some .address
  | .bool => some .bool
  | .signer => some .signer
  | .u8 => some .u8
  | .u16 => some .u16
  | .u32 => some .u32
  | .u64 => some .u64
  | .u128 => some .u128
  | .u256 => some .u256
  | .vector v => (fromSuiTokenModule tys v).map .vector
  | .datatype dty => (fromModuleIdx module dty).map .struct
  | .datatypeInstantiation dty insts => do
    let st ← fromModuleIdx module dty
    let insts ← fromSuiTokensModule tys insts
    some (.structInstantiation st insts)
  | .typeParameter ty => (tys[ty]?).map fun ability => .typeParameter (Fin.ofNat (2 ^ 16) ty) ability
  | .reference r => (fromSuiTokenModule tys r).map .reference
  | .mutableReference r => (fromSuiTokenModule tys r).map .mutableReference

def fromSuiTokensModule (tys : List MoveAbility) :
    List SignatureToken → Option (List MoveAbiSignatureToken)
  | [] => some []
  | v :: rest => do
    let v ← fromSuiTokenModule tys v
    let rest ← fromSuiTokensModule tys rest
    some (v :: rest)

end

/-! ### Modules -/

def fromModuleFunctionHandleVisibility (fdecl : Sui.MemberHandle × FunctionInfo)
    (vis : MoveFunctionVisibility) : Option MoveFunctionAbi := do
  let ftys := fdecl.2.typeParameters
  let fname ← module.identifiers[fdecl.1.name]?
  let fparameters ← module.signatures[fdecl.2.parameters]?
  let freturns ← module.signatures[fdecl.2.return_]?
  let parameters ← fromSuiTokensModule module ftys fparameters
  let returns ← fromSuiTokensModule module ftys freturns
  some ⟨fname, parameters, returns, ftys, vis⟩

def functionHandleAt (idx : ℕ) : Option (Sui.MemberHandle × FunctionInfo) := do
  let handle ← module.functionHandles[idx]?
  let info ← module.functions[idx]?
  some (handle, info)

/-- The entry flag stays with the definition. -/
def MoveFunctionAbi.fromModuleDef (fdef : FunctionDefinition) : Option MoveFunctionAbi := do
  let fdecl ← functionHandleAt module fdef.function
  fromModuleFunctionHandleVisibility module fdecl fdef.visibility

def fieldFromModule (tys : List MoveAbility) (fd : FieldDefinition) : Option MoveStructField := do
  let ty ← fromSuiTokenModule module tys fd.signature
  let tyname ← module.identifiers[fd.name]?
  some ⟨tyname, ty⟩

def MoveStructAbi.fromModuleDef (structDef : StructDefinition) : Option MoveStructAbi := do
  let handle ← fromModuleIdx module structDef.structHandle
  let tys := handle.typeParameters.map MoveStructTypeParameters.constraints
  let fields ← (structDef.fields.getD []).mapM (fieldFromModule module tys)
  some ⟨handle, fields⟩

def MoveModuleAbi.fromSuiModule : Option MoveModuleAbi := do
  let own ← module.selfHandle.bind module.resolve
  let structs ← module.structDefs.mapM (MoveStructAbi.fromModuleDef module)
  let functions ← module.functionDefs.mapM (MoveFunctionAbi.fromModuleDef module)
  some ⟨⟨own.1, own.2⟩, structs, functions⟩

def MovePackageAbi.fromSuiIdAndModules (id : ObjectID) (modules : List CompiledModule) :
    Option MovePackageAbi :=
  (modules.mapM MoveModuleAbi.fromSuiModule).map fun modules => ⟨id, modules⟩

/-! ### What the bounds checker accepts -/

mutual

def TokenInBounds (n : ℕ) : SignatureToken → Prop
  | .vector v => TokenInBounds n v
  | .datatype dty => dty < module.datatypeHandles.length
  | .datatypeInstantiation dty insts => dty < module.datatypeHandles.length ∧ TokensInBounds n insts
  | .typeParameter ty => ty < n
  | .reference r => TokenInBounds n r
  | .mutableReference r => TokenInBounds n r
  | _ => True

def TokensInBounds (n : ℕ) : List SignatureToken → Prop
  | [] => True
  | v :: rest => TokenInBounds n v ∧ TokensInBounds n rest

end

/-- Positions are in range, type parameters are those of the function or struct, and
the structs that are defined are of the module itself. -/
structure Checked : Prop where
  tables : module.toCompiledModule.InBounds
  datatypes : module.datatypes.length = module.datatypeHandles.length
  functions : module.functions.length = module.functionHandles.length
  datatypeHandles : ∀ h ∈ module.datatypeHandles,
    h.module < module.moduleHandles.length ∧ h.name < module.identifiers.length
  functionHandles : ∀ h ∈ module.functionHandles,
    h.module < module.moduleHandles.length ∧ h.name < module.identifiers.length
  signatures : ∀ info ∈ module.functions, ∃ parameters returns,
    module.signatures[info.parameters]? = some parameters ∧
      module.signatures[info.return_]? = some returns ∧
      TokensInBounds module info.typeParameters.length parameters ∧
      TokensInBounds module info.typeParameters.length returns
  structDefs : ∀ s ∈ module.structDefs, ∃ h info,
    module.datatypeHandles[s.structHandle]? = some h ∧ h.module = module.selfModuleHandleIdx ∧
      module.datatypes[s.structHandle]? = some info ∧
      ∀ fd ∈ s.fields.getD [], fd.name < module.identifiers.length ∧
        TokenInBounds module info.typeParameters.length fd.signature
  functionDefs : ∀ f ∈ module.functionDefs, f.function < module.functionHandles.length

/-! ### Every checked module has an ABI -/

variable {module}

theorem Checked.resolve_isSome (h : Checked module) (idx : ℕ)
    (hidx : idx < module.moduleHandles.length) :
    ((module.moduleHandles[idx]?).bind module.resolve).isSome := by
  obtain ⟨haddress, hname⟩ := h.tables.handles _ (List.getElem_mem hidx)
  simp [List.getElem?_eq_getElem hidx, Sui.CompiledModule.resolve,
    List.getElem?_eq_getElem haddress, List.getElem?_eq_getElem hname]

theorem fromModuleIdx_of (idx : ℕ) (dty : Sui.MemberHandle) (info : DatatypeInfo)
    (resolved : (ObjectID × String) × String) (hdty : module.datatypeHandles[idx]? = some dty)
    (hinfo : module.datatypes[idx]? = some info)
    (hresolved : module.resolveMember dty = some resolved) : fromModuleIdx module idx =
      some ⟨⟨resolved.1.1, resolved.1.2⟩, resolved.2, info.abilities, info.typeParameters⟩ := by
  simp only [fromModuleIdx, hdty, hinfo, hresolved, Option.bind_eq_bind, Option.bind_some]

theorem Checked.fromModuleIdx_eq (h : Checked module) (idx : ℕ)
    (hidx : idx < module.datatypeHandles.length) : ∃ info st, module.datatypes[idx]? = some info ∧
      fromModuleIdx module idx = some st ∧ st.typeParameters = info.typeParameters := by
  obtain ⟨hmodule, hname⟩ := h.datatypeHandles _ (List.getElem_mem hidx)
  have hinfo : idx < module.datatypes.length := h.datatypes ▸ hidx
  obtain ⟨r, hr⟩ := Option.isSome_iff_exists.mp (h.resolve_isSome _ hmodule)
  rw [List.getElem?_eq_getElem hmodule, Option.bind_some] at hr
  have hdty : module.resolveMember module.datatypeHandles[idx] =
      some (r, module.identifiers[module.datatypeHandles[idx].name]) := by
    simp only [Sui.CompiledModule.resolveMember, List.getElem?_eq_getElem hmodule,
      List.getElem?_eq_getElem hname, Option.bind_eq_bind, Option.bind_some, hr]
  exact ⟨module.datatypes[idx], _, List.getElem?_eq_getElem hinfo,
    fromModuleIdx_of idx _ _ _ (List.getElem?_eq_getElem hidx) (List.getElem?_eq_getElem hinfo) hdty,
    rfl⟩

mutual

theorem fromSuiTokenModule_isSome (h : Checked module) (tys : List MoveAbility) :
    ∀ t : SignatureToken, TokenInBounds module tys.length t →
      (fromSuiTokenModule module tys t).isSome
  | .vector v, ht => by
    rw [fromSuiTokenModule, Option.isSome_map]
    exact fromSuiTokenModule_isSome h tys v ht
  | .reference v, ht => by
    rw [fromSuiTokenModule, Option.isSome_map]
    exact fromSuiTokenModule_isSome h tys v ht
  | .mutableReference v, ht => by
    rw [fromSuiTokenModule, Option.isSome_map]
    exact fromSuiTokenModule_isSome h tys v ht
  | .datatype dty, ht => by
    obtain ⟨info, st, -, hst, -⟩ := h.fromModuleIdx_eq dty ht
    rw [fromSuiTokenModule, hst]
    rfl
  | .datatypeInstantiation dty insts, ht => by
    obtain ⟨hdty, hinsts⟩ := ht
    obtain ⟨info, st, -, hst, -⟩ := h.fromModuleIdx_eq dty hdty
    obtain ⟨ts, hts⟩ := Option.isSome_iff_exists.mp (fromSuiTokensModule_isSome h tys insts hinsts)
    rw [fromSuiTokenModule, hst, hts]
    rfl
  | .typeParameter ty, ht => by
    have hty : ty < tys.length := ht
    rw [fromSuiTokenModule, List.getElem?_eq_getElem hty]
    rfl
  | .bool, _ => rfl
  | .u8, _ => rfl
  | .u16, _ => rfl
  | .u32, _ => rfl
  | .u64, _ => rfl
  | .u128, _ => rfl
  | .u256, _ => rfl
  | .address, _ => rfl
  | .signer, _ => rfl

theorem fromSuiTokensModule_isSome (h : Checked module) (tys : List MoveAbility) :
    ∀ ts : List SignatureToken, TokensInBounds module tys.length ts →
      (fromSuiTokensModule module tys ts).isSome
  | [], _ => rfl
  | t :: rest, ht => by
    obtain ⟨hhead, hrest⟩ := ht
    obtain ⟨v, hv⟩ := Option.isSome_iff_exists.mp (fromSuiTokenModule_isSome h tys t hhead)
    obtain ⟨vs, hvs⟩ := Option.isSome_iff_exists.mp (fromSuiTokensModule_isSome h tys rest hrest)
    rw [fromSuiTokensModule, hv, hvs]
    rfl

end

theorem Checked.functionHandleAt_isSome (h : Checked module) (idx : ℕ)
    (hidx : idx < module.functionHandles.length) : ∃ handle info,
      functionHandleAt module idx = some (handle, info) ∧ handle ∈ module.functionHandles ∧
        info ∈ module.functions := by
  have hinfo : idx < module.functions.length := h.functions ▸ hidx
  refine ⟨_, _, ?_, List.getElem_mem hidx, List.getElem_mem hinfo⟩
  simp only [functionHandleAt, List.getElem?_eq_getElem hidx, List.getElem?_eq_getElem hinfo,
    Option.bind_eq_bind, Option.bind_some]

theorem Checked.fromHandle_isSome (h : Checked module) (handle : Sui.MemberHandle)
    (info : FunctionInfo) (hhandle : handle ∈ module.functionHandles)
    (hinfo : info ∈ module.functions) (vis : MoveFunctionVisibility) :
    (fromModuleFunctionHandleVisibility module (handle, info) vis).isSome := by
  obtain ⟨-, hname⟩ := h.functionHandles handle hhandle
  obtain ⟨parameters, returns, hps, hrs, htps, htrs⟩ := h.signatures info hinfo
  obtain ⟨ps, hps'⟩ := Option.isSome_iff_exists.mp
    (fromSuiTokensModule_isSome h info.typeParameters parameters htps)
  obtain ⟨rs, hrs'⟩ := Option.isSome_iff_exists.mp
    (fromSuiTokensModule_isSome h info.typeParameters returns htrs)
  simp only [fromModuleFunctionHandleVisibility, List.getElem?_eq_getElem hname, hps, hrs, hps',
    hrs', Option.bind_eq_bind, Option.bind_some]
  rfl

/-- The extraction does not fail on a module that the bounds checker accepts. -/
theorem Checked.fromSuiModule_isSome (h : Checked module) :
    (MoveModuleAbi.fromSuiModule module).isSome := by
  obtain ⟨own, hown⟩ := Option.isSome_iff_exists.mp (h.resolve_isSome _ h.tables.self)
  have hstructs : (module.structDefs.mapM (MoveStructAbi.fromModuleDef module)).isSome := by
    refine (mapM_isSome_iff _ _).mpr fun s hs => ?_
    obtain ⟨dty, info, hdty, -, hinfo, hfields⟩ := h.structDefs s hs
    obtain ⟨hlt, -⟩ := List.getElem?_eq_some_iff.mp hdty
    obtain ⟨info', st, hinfo', hst, hparams⟩ := h.fromModuleIdx_eq s.structHandle hlt
    rw [hinfo] at hinfo'
    obtain rfl := Option.some.inj hinfo'
    have hmapM := (mapM_isSome_iff (fieldFromModule module
      (st.typeParameters.map MoveStructTypeParameters.constraints)) (s.fields.getD [])).mpr ?_
    · obtain ⟨fields, hfields⟩ := Option.isSome_iff_exists.mp hmapM
      simp only [MoveStructAbi.fromModuleDef, hst, Option.bind_eq_bind, Option.bind_some, hfields]
      rfl
    · intro fd hfd
      obtain ⟨hname, htoken⟩ := hfields fd hfd
      obtain ⟨ty, hty⟩ := Option.isSome_iff_exists.mp (fromSuiTokenModule_isSome h
        (st.typeParameters.map MoveStructTypeParameters.constraints) fd.signature
        (by rwa [List.length_map, hparams]))
      simp only [fieldFromModule, hty, List.getElem?_eq_getElem hname, Option.bind_eq_bind,
        Option.bind_some]
      rfl
  have hfunctions : (module.functionDefs.mapM (MoveFunctionAbi.fromModuleDef module)).isSome := by
    refine (mapM_isSome_iff _ _).mpr fun f hf => ?_
    obtain ⟨handle, info, hat, hhandle, hinfo⟩ :=
      h.functionHandleAt_isSome f.function (h.functionDefs f hf)
    rw [MoveFunctionAbi.fromModuleDef, hat]
    exact h.fromHandle_isSome handle info hhandle hinfo f.visibility
  obtain ⟨structs, hstructs⟩ := Option.isSome_iff_exists.mp hstructs
  obtain ⟨functions, hfunctions⟩ := Option.isSome_iff_exists.mp hfunctions
  have hown' : module.selfHandle.bind module.resolve = some own := hown
  simp only [MoveModuleAbi.fromSuiModule, hown', hstructs, hfunctions, Option.bind_eq_bind,
    Option.bind_some]
  rfl

end Movy.Bytecode
