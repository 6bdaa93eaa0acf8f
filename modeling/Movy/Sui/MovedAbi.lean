import Movy.Types.FromModule

/-!
# The ABI of a module that is moved

Relinking and mocking write into the tables of a module; the ABI is read
off what the tables stand for. So the ABI of the moved module is the ABI with the
addresses replaced, wherever they occur. `published_at` replaces them in the ABI
itself, and leaves the fields of structs out.
-/

namespace Movy.Sui

open Movy.Store Movy.Types Movy.Types.Published
open Movy.Static (SignatureToken)
open Movy.Bytecode

/- The module and its datatypes are where `φ` puts them. -/
structure Readdressed (φ : ObjectID → ObjectID) (md md' : CompiledModule) : Prop where
  identifiers : md'.identifiers = md.identifiers
  functionHandles : md'.functionHandles = md.functionHandles
  own : md'.selfHandle.bind md'.resolve =
    (md.selfHandle.bind md.resolve).map fun r => (φ r.1, r.2)
  datatypes : md'.datatypeHandles.map md'.resolveMember =
    md.datatypeHandles.map fun m => (md.resolveMember m).map fun r => ((φ r.1.1, r.1.2), r.2)

/-! ### The ABI follows -/

theorem mapAddressList_eq_map (φ : ObjectID → ObjectID) (tys : List MoveAbiSignatureToken) :
    MoveAbiSignatureToken.mapAddressList φ tys = tys.map fun ty => ty.mapAddress φ := by
  induction tys with
  | nil => rfl
  | cons ty rest ih => rw [MoveAbiSignatureToken.mapAddressList, ih, List.map_cons]

section Follow

variable {φ : ObjectID → ObjectID} {module : Bytecode.CompiledModule} {md' : CompiledModule}

theorem fromModuleIdx_onTables (h : Readdressed φ module.toCompiledModule md') (idx : ℕ) :
    fromModuleIdx (module.onTables md') idx =
      (fromModuleIdx module idx).map fun st => st.mapAddress φ := by
  have hat := congrArg (fun l => l[idx]?) h.datatypes
  simp only [List.getElem?_map] at hat
  unfold fromModuleIdx Bytecode.CompiledModule.onTables
  dsimp only
  cases hdty : module.datatypeHandles[idx]? with
  | none =>
    rw [hdty, Option.map_none, Option.map_eq_none_iff] at hat
    rw [hat]
    rfl
  | some dty =>
    rw [hdty, Option.map_some, Option.map_eq_some_iff] at hat
    obtain ⟨dty', hdty', hat⟩ := hat
    simp only [hdty', Option.bind_eq_bind, Option.bind_some, hat]
    cases module.datatypes[idx]? with
    | none => rfl
    | some info =>
      cases module.resolveMember dty with
      | none => rfl
      | some r => rfl

mutual

theorem fromSuiTokenModule_onTables (h : Readdressed φ module.toCompiledModule md')
    (tys : List MoveAbility) : ∀ t : SignatureToken,
    fromSuiTokenModule (module.onTables md') tys t =
      (fromSuiTokenModule module tys t).map fun ty => ty.mapAddress φ
  | .vector v => by
    rw [fromSuiTokenModule, fromSuiTokenModule, fromSuiTokenModule_onTables h tys v, Option.map_map,
      Option.map_map]
    rfl
  | .reference v => by
    rw [fromSuiTokenModule, fromSuiTokenModule, fromSuiTokenModule_onTables h tys v, Option.map_map,
      Option.map_map]
    rfl
  | .mutableReference v => by
    rw [fromSuiTokenModule, fromSuiTokenModule, fromSuiTokenModule_onTables h tys v, Option.map_map,
      Option.map_map]
    rfl
  | .datatype dty => by
    rw [fromSuiTokenModule, fromSuiTokenModule, fromModuleIdx_onTables h, Option.map_map,
      Option.map_map]
    rfl
  | .datatypeInstantiation dty insts => by
    rw [fromSuiTokenModule, fromSuiTokenModule, fromModuleIdx_onTables h,
      fromSuiTokensModule_onTables h tys insts]
    cases fromModuleIdx module dty with
    | none => rfl
    | some st =>
      cases fromSuiTokensModule module tys insts with
      | none => rfl
      | some ts =>
        simp only [Option.map_some, Option.bind_eq_bind, Option.bind_some,
          MoveAbiSignatureToken.mapAddress, mapAddressList_eq_map]
  | .typeParameter ty => by
    rw [fromSuiTokenModule, fromSuiTokenModule, Option.map_map]
    rfl
  | .bool => rfl
  | .u8 => rfl
  | .u16 => rfl
  | .u32 => rfl
  | .u64 => rfl
  | .u128 => rfl
  | .u256 => rfl
  | .address => rfl
  | .signer => rfl

theorem fromSuiTokensModule_onTables (h : Readdressed φ module.toCompiledModule md')
    (tys : List MoveAbility) : ∀ ts : List SignatureToken,
    fromSuiTokensModule (module.onTables md') tys ts =
      (fromSuiTokensModule module tys ts).map fun ts => ts.map fun ty => ty.mapAddress φ
  | [] => rfl
  | t :: rest => by
    rw [fromSuiTokensModule, fromSuiTokensModule, fromSuiTokenModule_onTables h tys t,
      fromSuiTokensModule_onTables h tys rest]
    cases fromSuiTokenModule module tys t with
    | none => rfl
    | some v => cases fromSuiTokensModule module tys rest <;> rfl

end

theorem fromHandle_onTables (h : Readdressed φ module.toCompiledModule md')
    (fdecl : MemberHandle × FunctionInfo) (vis : Fuzz.MoveFunctionVisibility) :
    fromModuleFunctionHandleVisibility (module.onTables md') fdecl vis =
      (fromModuleFunctionHandleVisibility module fdecl vis).map (MoveFunctionAbi.mapAddress φ) := by
  have hnames : (module.onTables md').identifiers = module.identifiers := h.identifiers
  have hsignatures : (module.onTables md').signatures = module.signatures := rfl
  simp only [fromModuleFunctionHandleVisibility, hnames, hsignatures,
    fromSuiTokensModule_onTables h, Option.bind_eq_bind]
  cases module.identifiers[fdecl.1.name]? with
  | none => rfl
  | some name =>
    cases module.signatures[fdecl.2.parameters]? with
    | none => rfl
    | some parameters =>
      cases module.signatures[fdecl.2.return_]? with
      | none => rfl
      | some returns =>
        simp only [Option.bind_some]
        cases fromSuiTokensModule module fdecl.2.typeParameters parameters with
        | none => rfl
        | some ps => cases fromSuiTokensModule module fdecl.2.typeParameters returns <;> rfl

theorem mapM_follows {α β : Type} (f g : α → Option β) (φ : β → β) (l : List α)
    (h : ∀ a, g a = (f a).map φ) : l.mapM g = (l.mapM f).map fun bs => bs.map φ := by
  induction l with
  | nil => rfl
  | cons a rest ih =>
    rw [List.mapM_cons, List.mapM_cons, ih, h a]
    cases f a with
    | none => rfl
    | some b => cases rest.mapM f <;> rfl

theorem functions_onTables (h : Readdressed φ module.toCompiledModule md') :
    (module.onTables md').functionDefs.mapM (MoveFunctionAbi.fromModuleDef (module.onTables md')) =
      (module.functionDefs.mapM (MoveFunctionAbi.fromModuleDef module)).map fun fs =>
        fs.map (MoveFunctionAbi.mapAddress φ) := by
  refine mapM_follows _ _ _ _ fun fdef => ?_
  have hat : functionHandleAt (module.onTables md') fdef.function =
      functionHandleAt module fdef.function := by
    have hhandles : (module.onTables md').functionHandles = module.functionHandles :=
      h.functionHandles
    have hinfos : (module.onTables md').functions = module.functions := rfl
    simp only [functionHandleAt, hhandles, hinfos]
  rw [MoveFunctionAbi.fromModuleDef, MoveFunctionAbi.fromModuleDef, hat]
  cases functionHandleAt module fdef.function with
  | none => rfl
  | some fdecl => exact fromHandle_onTables h fdecl fdef.visibility

theorem structs_onTables (h : Readdressed φ module.toCompiledModule md') :
    (module.onTables md').structDefs.mapM (MoveStructAbi.fromModuleDef (module.onTables md')) =
      (module.structDefs.mapM (MoveStructAbi.fromModuleDef module)).map fun sts =>
        sts.map fun st => st.mapAddress φ := by
  refine mapM_follows _ _ _ _ fun structDef => ?_
  have hfield : ∀ tys fd, fieldFromModule (module.onTables md') tys fd =
      (fieldFromModule module tys fd).map fun fd => { fd with ty := fd.ty.mapAddress φ } := by
    intro tys fd
    have hnames : (module.onTables md').identifiers = module.identifiers := h.identifiers
    rw [fieldFromModule, fieldFromModule, fromSuiTokenModule_onTables h, hnames]
    cases fromSuiTokenModule module tys fd.signature with
    | none => rfl
    | some ty => cases module.identifiers[fd.name]? <;> rfl
  rw [MoveStructAbi.fromModuleDef, MoveStructAbi.fromModuleDef, fromModuleIdx_onTables h]
  cases fromModuleIdx module structDef.structHandle with
  | none => rfl
  | some handle =>
    have hfields := mapM_follows _ _ _ (structDef.fields.getD [])
      (hfield (handle.typeParameters.map MoveStructTypeParameters.constraints))
    simp only [Option.map_some, Option.bind_eq_bind, Option.bind_some,
      MoveStructHandle.mapAddress, hfields]
    cases (structDef.fields.getD []).mapM (fieldFromModule module
        (handle.typeParameters.map MoveStructTypeParameters.constraints)) with
    | none => rfl
    | some fields => rfl

theorem fromSuiModule_onTables (h : Readdressed φ module.toCompiledModule md') :
    MoveModuleAbi.fromSuiModule (module.onTables md') =
      (MoveModuleAbi.fromSuiModule module).map fun abi => abi.mapAddress φ := by
  have hown : (module.onTables md').selfHandle.bind (module.onTables md').resolve =
      (module.selfHandle.bind module.resolve).map fun r => (φ r.1, r.2) := h.own
  rw [MoveModuleAbi.fromSuiModule, MoveModuleAbi.fromSuiModule, hown, structs_onTables h,
    functions_onTables h]
  cases module.selfHandle.bind module.resolve with
  | none => rfl
  | some own =>
    cases module.structDefs.mapM (MoveStructAbi.fromModuleDef module) with
    | none => rfl
    | some structs => cases module.functionDefs.mapM (MoveFunctionAbi.fromModuleDef module) <;> rfl

end Follow

/-! ### Relinking and mocking -/

section Tables

open CompiledModule

variable {md : CompiledModule} {self : ModuleHandle}

theorem readdressed_of_handles (φ : ObjectID → ObjectID) (table : List ObjectID)
    (handles : List ModuleHandle)
    (h : ∀ i : ℕ, (handles[i]?).bind
        ({ md with addressIdentifiers := table, moduleHandles := handles } : CompiledModule).resolve =
      ((md.moduleHandles[i]?).bind md.resolve).map fun r => (φ r.1, r.2)) :
    Readdressed φ md { md with addressIdentifiers := table, moduleHandles := handles } where
  identifiers := rfl
  functionHandles := rfl
  own := h md.selfModuleHandleIdx
  datatypes := by
    refine List.map_congr_left fun m _ => ?_
    have hm := h m.module
    simp only [resolveMember, Option.bind_eq_bind]
    rw [← Option.bind_assoc, hm, ← Option.bind_assoc]
    cases (md.moduleHandles[m.module]?).bind md.resolve with
    | none => rfl
    | some r => cases md.identifiers[m.name]? <;> rfl

theorem exists_slot (root : ObjectID) (hself : md.selfHandle = some self)
    (haddr : md.addressIdentifiers[self.address]? = some ZERO ∨
      md.addressIdentifiers[self.address]? = some root) : ∃ t, md.slot root = some t := by
  rcases haddr with hz | hat
  · exact slot_of_atZero self hself hz
  · cases hidx : md.addressIdentifiers.idxOf? root with
    | some i => exact ⟨i, by rw [slot, hidx, Option.some_or]⟩
    | none => exact absurd (List.mem_of_getElem? hat) (List.idxOf?_eq_none_iff.mp hidx)

/- Relinking puts what is at `0x0` at the root. -/
theorem readdressed_withUnpublished (hb : md.InBounds) (root : ObjectID)
    (hself : md.selfHandle = some self)
    (haddr : md.addressIdentifiers[self.address]? = some ZERO ∨
      md.addressIdentifiers[self.address]? = some root) :
    ∃ md', withUnpublished root md = some md' ∧ Readdressed (moved ZERO root) md md' := by
  have hrelinked : ∀ r : ObjectID × String, relinked root r = (moved ZERO root r.1, r.2) := by
    intro r
    unfold relinked moved
    split_ifs <;> rfl
  by_cases hroot : root = ZERO
  · subst hroot
    have hz : AtZero md.addressIdentifiers self := haddr.elim id id
    have hmock : mockModuleAddress ZERO md = some md := by
      rw [mockModuleAddress_eq ZERO hb hself, set_of_getElem? _ _ _ hz]
    refine ⟨md, ?_, readdressed_of_handles _ md.addressIdentifiers md.moduleHandles fun i => ?_⟩
    · rw [withUnpublished, relinkHandles,
        foldlM_kept md.moduleHandles hb.handles fun h _ hand => hand.2 rfl, Option.bind_some, hmock]
    · have hid : (fun r : ObjectID × String => (moved ZERO ZERO r.1, r.2)) = id := by
        funext r
        rw [(moved_eq_self_iff ZERO ZERO r.1).mpr fun _ => rfl]
        rfl
      rw [hid, Option.map_id_fun, id]
  · obtain ⟨t, ht⟩ := exists_slot root hself haddr
    refine ⟨_, withUnpublished_eq hb hroot t ht self hself haddr,
      readdressed_of_handles _ _ _ fun i => ?_⟩
    rw [List.getElem?_map]
    cases md.moduleHandles[i]? with
    | none => rfl
    | some h =>
      rw [Option.map_some, Option.bind_some, Option.bind_some, resolve_moved t ht h]
      exact congrArg (fun f => (md.resolve h).map f) (funext hrelinked)

theorem getElem?_set_moved (table : List ObjectID) (hnodup : table.Nodup) (i : ℕ)
    (prev address : ObjectID) (hi : table[i]? = some prev) (j : ℕ) :
    (table.set i address)[j]? = (table[j]?).map (moved prev address) := by
  obtain ⟨hlt, -⟩ := List.getElem?_eq_some_iff.mp hi
  by_cases hij : i = j
  · subst hij
    rw [List.getElem?_set_self hlt, hi, Option.map_some, moved, if_pos rfl]
  · rw [List.getElem?_set_ne hij]
    cases hj : table[j]? with
    | none => rfl
    | some a =>
      have hne : a ≠ prev := by
        intro ha
        exact hij ((List.getElem?_inj hlt hnodup).mp (hi.trans (ha ▸ hj.symm)))
      rw [Option.map_some, moved, if_neg hne]

theorem readdressed_mockModuleAddress (hb : md.InBounds) (hnodup : md.addressIdentifiers.Nodup)
    (prev address : ObjectID) (hself : md.selfHandle = some self)
    (hprev : md.addressIdentifiers[self.address]? = some prev) :
    ∃ md', mockModuleAddress address md = some md' ∧ Readdressed (moved prev address) md md' := by
  refine ⟨{ md with addressIdentifiers := md.addressIdentifiers.set self.address address }, ?_,
    readdressed_of_handles _ _ md.moduleHandles fun i => ?_⟩
  · exact mockModuleAddress_eq address hb hself
  · cases md.moduleHandles[i]? with
    | none => rfl
    | some h =>
      simp only [Option.bind_some, resolve, Option.bind_eq_bind,
        getElem?_set_moved _ hnodup self.address prev address hprev]
      cases md.addressIdentifiers[h.address]? with
      | none => rfl
      | some a => cases md.identifiers[h.name]? <;> rfl

end Tables

/-! ### The two ABIs of a package -/

def selfAddress (md : CompiledModule) : Option ObjectID :=
  md.selfHandle.bind fun h => md.addressIdentifiers[h.address]?

theorem selfAddress_eq_some (md : CompiledModule) (a : ObjectID) : selfAddress md = some a ↔
    ∃ h, md.selfHandle = some h ∧ md.addressIdentifiers[h.address]? = some a :=
  Option.bind_eq_some_iff

/- The ABI of a module that is relinked to the root is its ABI with the root for
`0x0`, fields of structs included. -/
theorem relinked_abi (module : Bytecode.CompiledModule) (hchecked : Checked module)
    (root : ObjectID) (haddr : selfAddress module.toCompiledModule = some ZERO ∨
      selfAddress module.toCompiledModule = some root) :
    ∃ md' abi, CompiledModule.withUnpublished root module.toCompiledModule = some md' ∧
      MoveModuleAbi.fromSuiModule module = some abi ∧
      MoveModuleAbi.fromSuiModule (module.onTables md') =
        some (abi.mapAddress (moved ZERO root)) := by
  obtain ⟨abi, habi⟩ := Option.isSome_iff_exists.mp hchecked.fromSuiModule_isSome
  have hself := List.getElem?_eq_getElem hchecked.tables.self
  obtain ⟨md', hrun, hmoved⟩ := readdressed_withUnpublished hchecked.tables root hself (by
    simpa only [selfAddress, CompiledModule.selfHandle, hself, Option.bind_some] using haddr)
  refine ⟨md', abi, hrun, habi, ?_⟩
  rw [fromSuiModule_onTables hmoved, habi, Option.map_some]

/- A module of a package at `prev`, as it is built. -/
structure Built (prev : ObjectID) (module : Bytecode.CompiledModule) : Prop where
  checked : Checked module
  nodup : module.addressIdentifiers.Nodup
  own : selfAddress module.toCompiledModule = some prev

def mockedPackage (address : ObjectID) (modules : List Bytecode.CompiledModule) :
    Option (List Bytecode.CompiledModule) :=
  modules.mapM fun module =>
    (CompiledModule.mockModuleAddress address module.toCompiledModule).map module.onTables

theorem Built.mocked {prev : ObjectID} {module : Bytecode.CompiledModule}
    (h : Built prev module) (address : ObjectID) : ∃ module' abi,
      (CompiledModule.mockModuleAddress address module.toCompiledModule).map module.onTables =
        some module' ∧ MoveModuleAbi.fromSuiModule module = some abi ∧
        MoveModuleAbi.fromSuiModule module' = some (abi.mapAddress (moved prev address)) := by
  obtain ⟨abi, habi⟩ := Option.isSome_iff_exists.mp h.checked.fromSuiModule_isSome
  obtain ⟨self, hself, hprev⟩ := (selfAddress_eq_some _ _).mp h.own
  obtain ⟨md', hrun, hmoved⟩ :=
    readdressed_mockModuleAddress h.checked.tables h.nodup prev address hself hprev
  refine ⟨module.onTables md', abi, by rw [hrun, Option.map_some], habi, ?_⟩
  rw [fromSuiModule_onTables hmoved, habi, Option.map_some]

theorem Built.ownIds {prev : ObjectID} {module : Bytecode.CompiledModule} (h : Built prev module)
    {abi : MoveModuleAbi} (habi : MoveModuleAbi.fromSuiModule module = some abi) :
    abi.moduleId.moduleAddress = prev ∧
      ∀ st ∈ abi.structs, st.handle.moduleId.moduleAddress = prev := by
  obtain ⟨self, hself, hprev⟩ := (selfAddress_eq_some _ _).mp h.own
  have hresolve : ∀ r, module.resolve self = some r → r.1 = prev := by
    intro r hr
    obtain ⟨a, ha, hr⟩ := Option.bind_eq_some_iff.mp hr
    obtain ⟨name, -, hr⟩ := Option.bind_eq_some_iff.mp hr
    rw [hprev] at ha
    rw [← Option.some.inj hr, Option.some.inj ha]
  obtain ⟨own, hown, habi⟩ := Option.bind_eq_some_iff.mp habi
  obtain ⟨structs, hstructs, habi⟩ := Option.bind_eq_some_iff.mp habi
  obtain ⟨functions, -, habi⟩ := Option.bind_eq_some_iff.mp habi
  obtain rfl := Option.some.inj habi
  rw [hself, Option.bind_some] at hown
  refine ⟨hresolve own hown, fun st hst => ?_⟩
  obtain ⟨structDef, hmem, hfrom⟩ := mem_of_mapM hstructs st hst
  obtain ⟨dty, info, hdty, hmodule, -⟩ := h.checked.structDefs structDef hmem
  obtain ⟨handle, hhandle, hfrom⟩ := Option.bind_eq_some_iff.mp hfrom
  obtain ⟨fields, -, hfrom⟩ := Option.bind_eq_some_iff.mp hfrom
  obtain rfl := Option.some.inj hfrom
  obtain ⟨dty', hdty', hhandle⟩ := Option.bind_eq_some_iff.mp hhandle
  obtain rfl := Option.some.inj (hdty.symm.trans hdty')
  obtain ⟨info', -, hhandle⟩ := Option.bind_eq_some_iff.mp hhandle
  obtain ⟨r, hr, hhandle⟩ := Option.bind_eq_some_iff.mp hhandle
  obtain rfl := Option.some.inj hhandle
  obtain ⟨h', hh', hr⟩ := Option.bind_eq_some_iff.mp hr
  obtain ⟨r', hr', hr⟩ := Option.bind_eq_some_iff.mp hr
  obtain ⟨name, -, hr⟩ := Option.bind_eq_some_iff.mp hr
  obtain rfl := Option.some.inj hr
  rw [hmodule] at hh'
  obtain rfl := Option.some.inj (hself.symm.trans hh')
  exact hresolve r' hr'

/- The ABIs of the mocked modules are those of the built ones, moved. -/
theorem mocked_all {prev : ObjectID} (address : ObjectID)
    (modules : List Bytecode.CompiledModule) (h : ∀ module ∈ modules, Built prev module) :
    ∃ abis modules', modules.mapM MoveModuleAbi.fromSuiModule = some abis ∧
      mockedPackage address modules = some modules' ∧
      modules'.mapM MoveModuleAbi.fromSuiModule =
        some (abis.map fun abi => abi.mapAddress (moved prev address)) ∧
      ∀ abi ∈ abis, abi.moduleId.moduleAddress = prev ∧
        ∀ st ∈ abi.structs, st.handle.moduleId.moduleAddress = prev := by
  induction modules with
  | nil => exact ⟨[], [], rfl, rfl, rfl, fun _ h => absurd h List.not_mem_nil⟩
  | cons module rest ih =>
    obtain ⟨hmodule, hrest⟩ := List.forall_mem_cons.mp h
    obtain ⟨abis, modules', habis, hmodules', hmoved, hids⟩ := ih hrest
    obtain ⟨module', abi, hmodule', habi, hmoved'⟩ := hmodule.mocked address
    refine ⟨abi :: abis, module' :: modules', ?_, ?_, ?_, ?_⟩
    · rw [List.mapM_cons, habi, habis]
      rfl
    · rw [mockedPackage] at hmodules' ⊢
      rw [List.mapM_cons, hmodule', hmodules']
      rfl
    · rw [List.mapM_cons, hmoved', hmoved]
      rfl
    · exact List.forall_mem_cons.mpr ⟨hmodule.ownIds habi, hids⟩

/- A package can be moved in two ways: `published_at` rewrites its ABI, and `mock_module_address`
its modules. The two agree if and only if no field of a struct is of a type of the package. -/
theorem mocked_abi_iff (prev address : ObjectID) (modules : List Bytecode.CompiledModule)
    (h : ∀ module ∈ modules, Built prev module) :
    ∃ abi mocked, MovePackageAbi.fromSuiIdAndModules prev modules = some abi ∧
      (mockedPackage address modules).bind (MovePackageAbi.fromSuiIdAndModules address) =
        some mocked ∧
      (abi.publishedAt address = mocked ↔ ∀ md ∈ abi.modules, ∀ st ∈ md.structs,
        ∀ fd ∈ st.fields, prev ∈ fd.ty.addresses → prev = address) := by
  obtain ⟨abis, modules', habis, hmodules', hmoved, hids⟩ := mocked_all address modules h
  refine ⟨⟨prev, abis⟩, ⟨address, abis.map fun abi => abi.mapAddress (moved prev address)⟩,
    ?_, ?_, ?_⟩
  · rw [MovePackageAbi.fromSuiIdAndModules, habis, Option.map_some]
  · rw [hmodules', Option.bind_some, MovePackageAbi.fromSuiIdAndModules, hmoved, Option.map_some]
  · simp only [MovePackageAbi.publishedAt, MovePackageAbi.mk.injEq, true_and, List.map_inj_left]
    refine forall₂_congr fun md hmd => ?_
    obtain ⟨hid, hstructs⟩ := hids md hmd
    rw [MoveModuleAbi.publishedAt_eq_iff]
    constructor
    · exact fun hown st hst => (hown.2 st hst).2
    · exact fun hfields => ⟨.inl hid, fun st hst => ⟨.inl (hstructs st hst), hfields st hst⟩⟩

section Sample

open CompiledModule (sampleRoot)

def shopModule : Bytecode.CompiledModule where
  selfModuleHandleIdx := 0
  moduleHandles := [⟨0, 0⟩]
  datatypeHandles := [⟨0, 1⟩]
  functionHandles := [⟨0, 3⟩]
  friendDecls := []
  identifiers := ["shop", "Item", "value", "price"]
  addressIdentifiers := [ZERO]
  datatypes := [⟨MoveAbility.empty, []⟩]
  functions := [⟨0, 1, []⟩]
  functionInstantiations := []
  signatures := [[.reference (.datatype 0)], [.u64]]
  structDefs := [⟨0, some [⟨2, .u64⟩]⟩]
  functionDefs := [⟨0, .public_, false, none⟩]

theorem shopModule_built : Built ZERO shopModule where
  checked := {
    tables := ⟨by decide, by decide, by decide, by decide⟩
    datatypes := rfl
    functions := rfl
    datatypeHandles := by
      intro h hh
      rw [List.mem_singleton.mp hh]
      decide
    functionHandles := by
      intro h hh
      rw [List.mem_singleton.mp hh]
      decide
    signatures := by
      intro info hinfo
      rw [List.mem_singleton.mp hinfo]
      exact ⟨_, _, rfl, rfl, ⟨Nat.zero_lt_one, trivial⟩, trivial, trivial⟩
    structDefs := by
      intro s hs
      rw [List.mem_singleton.mp hs]
      refine ⟨_, _, rfl, rfl, rfl, fun fd hfd => ?_⟩
      rw [List.mem_singleton.mp hfd]
      exact ⟨by decide, trivial⟩
    functionDefs := by
      intro f hf
      rw [List.mem_singleton.mp hf]
      decide }
  nodup := by decide
  own := rfl

/- Relinked to the root, `price` borrows the item of the root. -/
theorem relinked_abi_shop : ∃ md' abi,
    CompiledModule.withUnpublished sampleRoot shopModule.toCompiledModule = some md' ∧
      MoveModuleAbi.fromSuiModule shopModule = some abi ∧
      MoveModuleAbi.fromSuiModule (shopModule.onTables md') =
        some (abi.mapAddress (moved ZERO sampleRoot)) :=
  relinked_abi shopModule shopModule_built.checked sampleRoot (.inl rfl)

/- The fields of `Item` are no structs, so both ABIs are the same. -/
theorem mocked_abi_iff_shop :
    ∃ abi mocked, MovePackageAbi.fromSuiIdAndModules ZERO [shopModule] = some abi ∧
      (mockedPackage sampleRoot [shopModule]).bind
        (MovePackageAbi.fromSuiIdAndModules sampleRoot) = some mocked ∧
      abi.publishedAt sampleRoot = mocked := by
  obtain ⟨abi, mocked, habi, hmocked, hiff⟩ := mocked_abi_iff ZERO sampleRoot [shopModule]
    fun module hmodule => List.mem_singleton.mp hmodule ▸ shopModule_built
  refine ⟨abi, mocked, habi, hmocked, hiff.mpr ?_⟩
  have heq : MovePackageAbi.fromSuiIdAndModules ZERO [shopModule] = some ⟨ZERO, [
      ⟨⟨ZERO, "shop"⟩, [⟨⟨⟨ZERO, "shop"⟩, "Item", MoveAbility.empty, []⟩, [⟨"value", .u64⟩]⟩],
        [⟨"price", [.reference (.struct ⟨⟨ZERO, "shop"⟩, "Item", MoveAbility.empty, []⟩)], [.u64],
          [], .public_⟩]⟩]⟩ := rfl
  obtain rfl := Option.some.inj (habi.symm.trans heq)
  intro md hmd st hst fd hfd hmem
  rw [List.mem_singleton.mp hmd] at hst
  rw [List.mem_singleton.mp hst] at hfd
  rw [List.mem_singleton.mp hfd] at hmem
  cases hmem

end Sample

end Movy.Sui
