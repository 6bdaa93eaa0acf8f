import Movy.Fuzz.Meta
import Movy.Types.Relocate

/-!
# Moving a package (`published_at` in `movy-types/src/abi.rs`)

The ABI of a package with the fields of its structs. Signatures are searched for the
old address, the ids of modules and structs are set to the new one, and the fields
are not looked at.
-/

namespace Movy.Types

def MoveStructHandle.publishedAt (previous address : MoveAddress) (st : MoveStructHandle) :
    MoveStructHandle :=
  if st.moduleId.moduleAddress = previous then
    { st with moduleId := { st.moduleId with moduleAddress := address } }
  else st

namespace MoveAbiSignatureToken

mutual

def publishedAt (previous address : MoveAddress) : MoveAbiSignatureToken → MoveAbiSignatureToken
  | .struct st => .struct (st.publishedAt previous address)
  | .structInstantiation st insts =>
    .structInstantiation (st.publishedAt previous address) (publishedAtList previous address insts)
  | .mutableReference mt => .mutableReference (publishedAt previous address mt)
  | .reference rf => .reference (publishedAt previous address rf)
  | .vector v => .vector (publishedAt previous address v)
  | ty => ty

def publishedAtList (previous address : MoveAddress) :
    List MoveAbiSignatureToken → List MoveAbiSignatureToken
  | [] => []
  | ty :: rest => publishedAt previous address ty :: publishedAtList previous address rest

end

end MoveAbiSignatureToken

theorem MoveStructHandle.publishedAt_eq (previous address : MoveAddress) (st : MoveStructHandle) :
    st.publishedAt previous address = st.mapAddress (moved previous address) := by
  unfold MoveStructHandle.publishedAt MoveStructHandle.mapAddress moved
  split_ifs <;> rfl

namespace MoveAbiSignatureToken

theorem publishedAtList_eq (previous address : MoveAddress) (tys : List MoveAbiSignatureToken)
    (ih : ∀ ty ∈ tys, ty.publishedAt previous address = ty.mapAddress (moved previous address)) :
    publishedAtList previous address tys = mapAddressList (moved previous address) tys := by
  induction tys with
  | nil => rfl
  | cons ty tys ihl =>
    rw [publishedAtList, mapAddressList, ih ty (List.mem_cons_self ..),
      ihl fun t ht => ih t (List.mem_cons_of_mem _ ht)]

/-- A token is moved as a whole. -/
theorem publishedAt_eq (previous address : MoveAddress) (ty : MoveAbiSignatureToken) :
    ty.publishedAt previous address = ty.mapAddress (moved previous address) := by
  induction ty using MoveAbiSignatureToken.induct with
  | hvector ty ih => rw [publishedAt, mapAddress, ih]
  | href ty ih => rw [publishedAt, mapAddress, ih]
  | hmut ty ih => rw [publishedAt, mapAddress, ih]
  | hstruct st => rw [publishedAt, mapAddress, st.publishedAt_eq]
  | hinst st insts ih =>
    rw [publishedAt, mapAddress, st.publishedAt_eq, publishedAtList_eq previous address insts ih]
  | _ => rfl

end MoveAbiSignatureToken

/-! ### Packages -/

namespace Published

open Movy.Fuzz (MoveFunctionAbi)

structure MoveStructField where
  name : String
  ty : MoveAbiSignatureToken

structure MoveStructAbi where
  handle : MoveStructHandle
  fields : List MoveStructField

structure MoveModuleAbi where
  moduleId : MoveModuleId
  structs : List MoveStructAbi
  functions : List MoveFunctionAbi

structure MovePackageAbi where
  packageId : MoveAddress
  modules : List MoveModuleAbi

def MoveModuleId.publishedAt (address : MoveAddress) (self : MoveModuleId) : MoveModuleId :=
  { self with moduleAddress := address }

def MoveStructAbi.publishedAt (address : MoveAddress) (st : MoveStructAbi) : MoveStructAbi :=
  { st with
    handle := { st.handle with moduleId := MoveModuleId.publishedAt address st.handle.moduleId } }

def MoveFunctionAbi.publishedAt (prev address : MoveAddress) (fc : MoveFunctionAbi) :
    MoveFunctionAbi :=
  { fc with
    parameters := fc.parameters.map fun ty => ty.publishedAt prev address
    returnParamters := fc.returnParamters.map fun ty => ty.publishedAt prev address }

def MoveModuleAbi.publishedAt (prev address : MoveAddress) (md : MoveModuleAbi) :
    MoveModuleAbi where
  moduleId := MoveModuleId.publishedAt address md.moduleId
  structs := md.structs.map fun st => st.publishedAt address
  functions := md.functions.map fun fc => MoveFunctionAbi.publishedAt prev address fc

def MovePackageAbi.publishedAt (self : MovePackageAbi) (address : MoveAddress) :
    MovePackageAbi where
  packageId := address
  modules := self.modules.map fun md => md.publishedAt self.packageId address

/-! ### Every mention -/

def MoveModuleId.mapAddress (φ : MoveAddress → MoveAddress) (self : MoveModuleId) : MoveModuleId :=
  { self with moduleAddress := φ self.moduleAddress }

def MoveStructAbi.mapAddress (φ : MoveAddress → MoveAddress) (st : MoveStructAbi) :
    MoveStructAbi where
  handle := st.handle.mapAddress φ
  fields := st.fields.map fun fd => { fd with ty := fd.ty.mapAddress φ }

def MoveFunctionAbi.mapAddress (φ : MoveAddress → MoveAddress) (fc : MoveFunctionAbi) :
    MoveFunctionAbi :=
  { fc with
    parameters := fc.parameters.map fun ty => ty.mapAddress φ
    returnParamters := fc.returnParamters.map fun ty => ty.mapAddress φ }

def MoveModuleAbi.mapAddress (φ : MoveAddress → MoveAddress) (md : MoveModuleAbi) :
    MoveModuleAbi where
  moduleId := MoveModuleId.mapAddress φ md.moduleId
  structs := md.structs.map fun st => st.mapAddress φ
  functions := md.functions.map fun fc => MoveFunctionAbi.mapAddress φ fc

def MoveStructAbi.addresses (st : MoveStructAbi) : List MoveAddress :=
  st.handle.moduleId.moduleAddress :: st.fields.flatMap fun fd => fd.ty.addresses

def MoveFunctionAbi.addresses (fc : MoveFunctionAbi) : List MoveAddress :=
  (fc.parameters ++ fc.returnParamters).flatMap fun ty => ty.addresses

def MoveModuleAbi.addresses (md : MoveModuleAbi) : List MoveAddress :=
  md.moduleId.moduleAddress ::
    (md.structs.flatMap MoveStructAbi.addresses ++ md.functions.flatMap MoveFunctionAbi.addresses)

/-- All that the modules mention. -/
def MovePackageAbi.addresses (self : MovePackageAbi) : List MoveAddress :=
  self.modules.flatMap MoveModuleAbi.addresses

theorem flatMap_addresses {α : Type} (addresses : α → List MoveAddress) (step : α → α)
    (φ : MoveAddress → MoveAddress) (l : List α)
    (h : ∀ a ∈ l, addresses (step a) = (addresses a).map φ) :
    (l.map step).flatMap addresses = (l.flatMap addresses).map φ := by
  induction l with
  | nil => rfl
  | cons a l ih =>
    rw [List.map_cons, List.flatMap_cons, List.flatMap_cons, List.map_append,
      h a (List.mem_cons_self ..), ih fun b hb => h b (List.mem_cons_of_mem _ hb)]

theorem MoveStructAbi.addresses_map (φ : MoveAddress → MoveAddress) (st : MoveStructAbi) :
    (st.mapAddress φ).addresses = st.addresses.map φ := by
  have hfields := flatMap_addresses (fun fd : MoveStructField => fd.ty.addresses)
    (fun fd => { fd with ty := fd.ty.mapAddress φ }) φ st.fields fun fd _ => fd.ty.addresses_map φ
  simp only [MoveStructAbi.addresses, MoveStructAbi.mapAddress, List.map_cons, hfields]
  rfl

theorem MoveFunctionAbi.addresses_map (φ : MoveAddress → MoveAddress) (fc : MoveFunctionAbi) :
    MoveFunctionAbi.addresses (MoveFunctionAbi.mapAddress φ fc) =
      (MoveFunctionAbi.addresses fc).map φ := by
  simp only [MoveFunctionAbi.addresses, MoveFunctionAbi.mapAddress, ← List.map_append]
  exact flatMap_addresses _ _ φ _ fun ty _ => ty.addresses_map φ

theorem MoveModuleAbi.addresses_map (φ : MoveAddress → MoveAddress) (md : MoveModuleAbi) :
    (md.mapAddress φ).addresses = md.addresses.map φ := by
  have hstructs := flatMap_addresses MoveStructAbi.addresses (fun st => st.mapAddress φ) φ
    md.structs fun st _ => st.addresses_map φ
  have hfunctions := flatMap_addresses MoveFunctionAbi.addresses
    (fun fc => MoveFunctionAbi.mapAddress φ fc) φ md.functions
    fun fc _ => MoveFunctionAbi.addresses_map φ fc
  simp only [MoveModuleAbi.addresses, MoveModuleAbi.mapAddress, List.map_cons, List.map_append,
    hstructs, hfunctions]
  rfl

/-! ### What is moved -/

/-- The package is at the new address throughout: nothing mentions the old one, every
mention of the old one is the new one and nothing else has changed, and moving it there
again leaves it as it is. -/
structure Relocates (pkg : MovePackageAbi) (address : MoveAddress) : Prop where
  gone : pkg.packageId ∈ (pkg.publishedAt address).addresses → pkg.packageId = address
  mentions : (pkg.publishedAt address).modules =
    pkg.modules.map fun md => md.mapAddress (moved pkg.packageId address)
  twice : (pkg.publishedAt address).publishedAt address = pkg.publishedAt address

theorem MoveFunctionAbi.publishedAt_eq (prev address : MoveAddress) (fc : MoveFunctionAbi) :
    MoveFunctionAbi.publishedAt prev address fc =
      MoveFunctionAbi.mapAddress (moved prev address) fc := by
  unfold MoveFunctionAbi.publishedAt MoveFunctionAbi.mapAddress
  simp only [MoveAbiSignatureToken.publishedAt_eq]

theorem MoveModuleId.publishedAt_eq_iff (prev address : MoveAddress) (m : MoveModuleId) :
    MoveModuleId.publishedAt address m = MoveModuleId.mapAddress (moved prev address) m ↔
      m.moduleAddress = prev ∨ m.moduleAddress = address := by
  obtain ⟨a, name⟩ := m
  simp only [MoveModuleId.publishedAt, MoveModuleId.mapAddress, MoveModuleId.mk.injEq, and_true]
  rw [eq_comm, moved_eq_iff]

theorem fields_eq_iff (prev address : MoveAddress) (fields : List MoveStructField) :
    (fields = fields.map fun fd => { fd with ty := fd.ty.mapAddress (moved prev address) }) ↔
      ∀ fd ∈ fields, prev ∈ fd.ty.addresses → prev = address := by
  nth_rewrite 1 [← List.map_id fields]
  rw [List.map_inj_left]
  refine forall₂_congr fun fd _ => ?_
  obtain ⟨name, ty⟩ := fd
  simp only [id, MoveStructField.mk.injEq, true_and]
  rw [eq_comm, MoveAbiSignatureToken.mapAddress_eq_self_iff]
  simp only [moved_eq_self_iff]
  constructor
  · exact fun h hmem => h prev hmem rfl
  · rintro h a ha rfl
    exact h ha

theorem MoveStructAbi.publishedAt_eq_iff (prev address : MoveAddress) (st : MoveStructAbi) :
    st.publishedAt address = st.mapAddress (moved prev address) ↔
      (st.handle.moduleId.moduleAddress = prev ∨ st.handle.moduleId.moduleAddress = address) ∧
        ∀ fd ∈ st.fields, prev ∈ fd.ty.addresses → prev = address := by
  obtain ⟨⟨m, name, abilities, params⟩, fields⟩ := st
  simp only [MoveStructAbi.publishedAt, MoveStructAbi.mapAddress, MoveStructHandle.mapAddress,
    MoveStructAbi.mk.injEq, MoveStructHandle.mk.injEq, and_true]
  exact and_congr (MoveModuleId.publishedAt_eq_iff prev address m)
    (fields_eq_iff prev address fields)

/-- The ids are those of the package, and no field is of a type of the package. -/
def OwnIds (prev address : MoveAddress) (md : MoveModuleAbi) : Prop :=
  (md.moduleId.moduleAddress = prev ∨ md.moduleId.moduleAddress = address) ∧
    ∀ st ∈ md.structs,
      (st.handle.moduleId.moduleAddress = prev ∨ st.handle.moduleId.moduleAddress = address) ∧
        ∀ fd ∈ st.fields, prev ∈ fd.ty.addresses → prev = address

theorem MoveModuleAbi.publishedAt_eq_iff (prev address : MoveAddress) (md : MoveModuleAbi) :
    md.publishedAt prev address = md.mapAddress (moved prev address) ↔ OwnIds prev address md := by
  obtain ⟨m, structs, functions⟩ := md
  simp only [MoveModuleAbi.publishedAt, MoveModuleAbi.mapAddress, MoveModuleAbi.mk.injEq,
    MoveFunctionAbi.publishedAt_eq, and_true, List.map_inj_left]
  exact and_congr (MoveModuleId.publishedAt_eq_iff prev address m)
    (forall₂_congr fun st _ => st.publishedAt_eq_iff prev address)

/-- Moving it to where it is changes nothing in the signatures. -/
theorem publishedAt_twice (pkg : MovePackageAbi) (address : MoveAddress) :
    (pkg.publishedAt address).publishedAt address = pkg.publishedAt address := by
  have hfunction : ∀ fc : MoveFunctionAbi, MoveFunctionAbi.publishedAt address address fc = fc := by
    intro fc
    have hty : ∀ ty : MoveAbiSignatureToken, ty.publishedAt address address = ty := by
      intro ty
      rw [ty.publishedAt_eq, MoveAbiSignatureToken.mapAddress_eq_self_iff]
      exact fun a _ => (moved_eq_self_iff address address a).mpr fun _ => rfl
    simp only [MoveFunctionAbi.publishedAt, hty, List.map_id']
  simp only [MovePackageAbi.publishedAt, MovePackageAbi.mk.injEq, true_and, List.map_map]
  refine List.map_congr_left fun md _ => ?_
  simp only [Function.comp, MoveModuleAbi.publishedAt, MoveModuleAbi.mk.injEq,
    MoveModuleId.publishedAt, List.map_map, hfunction, true_and]
  exact ⟨List.map_congr_left fun st _ => rfl, List.map_congr_left fun fc _ => rfl⟩

theorem relocates_iff (pkg : MovePackageAbi) (address : MoveAddress) :
    Relocates pkg address ↔ ∀ md ∈ pkg.modules, OwnIds pkg.packageId address md := by
  have hmodules : (pkg.publishedAt address).modules =
      (pkg.modules.map fun md => md.mapAddress (moved pkg.packageId address)) ↔
      ∀ md ∈ pkg.modules, OwnIds pkg.packageId address md := by
    simp only [MovePackageAbi.publishedAt, List.map_inj_left]
    exact forall₂_congr fun md _ => md.publishedAt_eq_iff pkg.packageId address
  constructor
  · exact fun h => hmodules.mp h.mentions
  · intro h
    have hmentions := hmodules.mpr h
    refine ⟨?_, hmentions, publishedAt_twice pkg address⟩
    intro hmem
    rw [MovePackageAbi.addresses, hmentions, flatMap_addresses _ _ _ _ fun md _ =>
      md.addresses_map (moved pkg.packageId address)] at hmem
    by_contra hne
    exact not_mem_map_moved pkg.packageId address hne _ hmem

/-- A package with a pool that holds an item of its own. -/
def poolId : MoveModuleId := ⟨Store.ObjectID.ofByte 0, "pool"⟩

def poolPackage : MovePackageAbi where
  packageId := Store.ObjectID.ofByte 0
  modules := [{
    moduleId := poolId
    structs := [
      ⟨⟨poolId, "Item", MoveAbility.empty, []⟩, []⟩,
      ⟨⟨poolId, "Pool", MoveAbility.empty, []⟩,
        [⟨"item", .struct ⟨poolId, "Item", MoveAbility.empty, []⟩⟩]⟩]
    functions := [] }]

/-- The field of the pool still has the item of the unpublished package. -/
theorem poolPackage_not_relocated : ¬ Relocates poolPackage (Store.ObjectID.ofByte 7) := by
  intro h
  have hgone := h.gone (by decide)
  exact absurd hgone (by decide)

end Published

end Movy.Types
