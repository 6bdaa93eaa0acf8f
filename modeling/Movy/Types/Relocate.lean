import Movy.Types.Abi

/-!
# Addresses in types

The addresses that a type tag or a token mentions, in order, and the type with
every one of them renamed. Renaming an address that does not occur changes nothing.
-/

namespace Movy.Types

/-- `previous` becomes `address`, and every other one stays. -/
def moved (previous address : MoveAddress) (a : MoveAddress) : MoveAddress :=
  if a = previous then address else a

theorem moved_eq_self_iff (previous address a : MoveAddress) :
    moved previous address a = a ↔ a = previous → previous = address := by
  unfold moved
  split_ifs with h
  · subst h
    simp [eq_comm]
  · simp [h]

theorem moved_eq_iff (previous address a : MoveAddress) :
    moved previous address a = address ↔ a = previous ∨ a = address := by
  unfold moved
  split_ifs with h
  · simp [h]
  · simp [h]

theorem moved_ne (previous address a : MoveAddress) (h : previous ≠ address) :
    moved previous address a ≠ previous := by
  unfold moved
  split_ifs with ha
  · exact h.symm
  · exact ha

/-- Nothing stays at the old address. -/
theorem not_mem_map_moved (previous address : MoveAddress) (h : previous ≠ address)
    (addresses : List MoveAddress) : previous ∉ addresses.map (moved previous address) := by
  intro hmem
  obtain ⟨a, _, ha⟩ := List.mem_map.mp hmem
  exact moved_ne previous address a h ha

/-! ### Type tags -/

namespace MoveTypeTag

mutual

def addresses : MoveTypeTag → List MoveAddress
  | .struct addr _ _ tys => addr :: listAddresses tys
  | .vector elem => addresses elem
  | _ => []

def listAddresses : List MoveTypeTag → List MoveAddress
  | [] => []
  | ty :: rest => addresses ty ++ listAddresses rest

end

mutual

def mapAddress (φ : MoveAddress → MoveAddress) : MoveTypeTag → MoveTypeTag
  | .struct addr module name tys => .struct (φ addr) module name (mapAddressList φ tys)
  | .vector elem => .vector (mapAddress φ elem)
  | ty => ty

def mapAddressList (φ : MoveAddress → MoveAddress) : List MoveTypeTag → List MoveTypeTag
  | [] => []
  | ty :: rest => mapAddress φ ty :: mapAddressList φ rest

end

theorem mapAddressList_eq_self_iff (φ : MoveAddress → MoveAddress) (tys : List MoveTypeTag)
    (ih : ∀ ty ∈ tys, ty.mapAddress φ = ty ↔ ∀ a ∈ ty.addresses, φ a = a) :
    mapAddressList φ tys = tys ↔ ∀ a ∈ listAddresses tys, φ a = a := by
  induction tys with
  | nil => simp [mapAddressList, listAddresses]
  | cons ty tys ihl =>
    rw [mapAddressList, listAddresses, List.cons.injEq, List.forall_mem_append,
      ih ty (List.mem_cons_self ..), ihl fun t ht => ih t (List.mem_cons_of_mem _ ht)]

theorem mapAddress_eq_self_iff (φ : MoveAddress → MoveAddress) (ty : MoveTypeTag) :
    ty.mapAddress φ = ty ↔ ∀ a ∈ ty.addresses, φ a = a := by
  induction ty using MoveTypeTag.induct with
  | hvector ty ih => rw [mapAddress, addresses, MoveTypeTag.vector.injEq, ih]
  | hstruct a m n tys ih =>
    rw [mapAddress, addresses, MoveTypeTag.struct.injEq, List.forall_mem_cons,
      mapAddressList_eq_self_iff φ tys ih]
    simp
  | _ => simp [mapAddress, addresses]

theorem listAddresses_map (φ : MoveAddress → MoveAddress) (tys : List MoveTypeTag)
    (ih : ∀ ty ∈ tys, (ty.mapAddress φ).addresses = ty.addresses.map φ) :
    listAddresses (mapAddressList φ tys) = (listAddresses tys).map φ := by
  induction tys with
  | nil => rfl
  | cons ty tys ihl =>
    rw [mapAddressList, listAddresses, listAddresses, List.map_append,
      ih ty (List.mem_cons_self ..), ihl fun t ht => ih t (List.mem_cons_of_mem _ ht)]

theorem addresses_map (φ : MoveAddress → MoveAddress) (ty : MoveTypeTag) :
    (ty.mapAddress φ).addresses = ty.addresses.map φ := by
  induction ty using MoveTypeTag.induct with
  | hvector ty ih => rw [mapAddress, addresses, addresses, ih]
  | hstruct a m n tys ih =>
    rw [mapAddress, addresses, addresses, List.map_cons, listAddresses_map φ tys ih]
  | _ => rfl

end MoveTypeTag

/-! ### Tokens -/

namespace MoveAbiSignatureToken

mutual

def addresses : MoveAbiSignatureToken → List MoveAddress
  | .struct st => [st.moduleId.moduleAddress]
  | .structInstantiation st insts => st.moduleId.moduleAddress :: listAddresses insts
  | .mutableReference inner => addresses inner
  | .reference inner => addresses inner
  | .vector inner => addresses inner
  | _ => []

def listAddresses : List MoveAbiSignatureToken → List MoveAddress
  | [] => []
  | ty :: rest => addresses ty ++ listAddresses rest

end

end MoveAbiSignatureToken

/-- The struct in a renamed module. -/
def MoveStructHandle.mapAddress (φ : MoveAddress → MoveAddress) (st : MoveStructHandle) :
    MoveStructHandle :=
  { st with moduleId := { st.moduleId with moduleAddress := φ st.moduleId.moduleAddress } }

theorem MoveStructHandle.mapAddress_eq_self_iff (φ : MoveAddress → MoveAddress)
    (st : MoveStructHandle) :
    st.mapAddress φ = st ↔ φ st.moduleId.moduleAddress = st.moduleId.moduleAddress := by
  obtain ⟨⟨address, module⟩, name, abilities, params⟩ := st
  simp [MoveStructHandle.mapAddress]

namespace MoveAbiSignatureToken

mutual

def mapAddress (φ : MoveAddress → MoveAddress) : MoveAbiSignatureToken → MoveAbiSignatureToken
  | .struct st => .struct (st.mapAddress φ)
  | .structInstantiation st insts => .structInstantiation (st.mapAddress φ) (mapAddressList φ insts)
  | .mutableReference inner => .mutableReference (mapAddress φ inner)
  | .reference inner => .reference (mapAddress φ inner)
  | .vector inner => .vector (mapAddress φ inner)
  | ty => ty

def mapAddressList (φ : MoveAddress → MoveAddress) :
    List MoveAbiSignatureToken → List MoveAbiSignatureToken
  | [] => []
  | ty :: rest => mapAddress φ ty :: mapAddressList φ rest

end

theorem mapAddressList_eq_self_iff (φ : MoveAddress → MoveAddress)
    (tys : List MoveAbiSignatureToken)
    (ih : ∀ ty ∈ tys, ty.mapAddress φ = ty ↔ ∀ a ∈ ty.addresses, φ a = a) :
    mapAddressList φ tys = tys ↔ ∀ a ∈ listAddresses tys, φ a = a := by
  induction tys with
  | nil => simp [mapAddressList, listAddresses]
  | cons ty tys ihl =>
    rw [mapAddressList, listAddresses, List.cons.injEq, List.forall_mem_append,
      ih ty (List.mem_cons_self ..), ihl fun t ht => ih t (List.mem_cons_of_mem _ ht)]

theorem mapAddress_eq_self_iff (φ : MoveAddress → MoveAddress) (ty : MoveAbiSignatureToken) :
    ty.mapAddress φ = ty ↔ ∀ a ∈ ty.addresses, φ a = a := by
  induction ty using MoveAbiSignatureToken.induct with
  | hvector ty ih => rw [mapAddress, addresses, MoveAbiSignatureToken.vector.injEq, ih]
  | href ty ih => rw [mapAddress, addresses, MoveAbiSignatureToken.reference.injEq, ih]
  | hmut ty ih => rw [mapAddress, addresses, MoveAbiSignatureToken.mutableReference.injEq, ih]
  | hstruct st =>
    rw [mapAddress, addresses, MoveAbiSignatureToken.struct.injEq,
      MoveStructHandle.mapAddress_eq_self_iff, List.forall_mem_singleton]
  | hinst st insts ih =>
    rw [mapAddress, addresses, MoveAbiSignatureToken.structInstantiation.injEq,
      MoveStructHandle.mapAddress_eq_self_iff, List.forall_mem_cons,
      mapAddressList_eq_self_iff φ insts ih]
  | _ => simp [mapAddress, addresses]

theorem listAddresses_map (φ : MoveAddress → MoveAddress) (tys : List MoveAbiSignatureToken)
    (ih : ∀ ty ∈ tys, (ty.mapAddress φ).addresses = ty.addresses.map φ) :
    listAddresses (mapAddressList φ tys) = (listAddresses tys).map φ := by
  induction tys with
  | nil => rfl
  | cons ty tys ihl =>
    rw [mapAddressList, listAddresses, listAddresses, List.map_append,
      ih ty (List.mem_cons_self ..), ihl fun t ht => ih t (List.mem_cons_of_mem _ ht)]

theorem addresses_map (φ : MoveAddress → MoveAddress) (ty : MoveAbiSignatureToken) :
    (ty.mapAddress φ).addresses = ty.addresses.map φ := by
  induction ty using MoveAbiSignatureToken.induct with
  | hvector ty ih => rw [mapAddress, addresses, addresses, ih]
  | href ty ih => rw [mapAddress, addresses, addresses, ih]
  | hmut ty ih => rw [mapAddress, addresses, addresses, ih]
  | hinst st insts ih =>
    rw [mapAddress, addresses, addresses, List.map_cons, listAddresses_map φ insts ih]
    rfl
  | _ => rfl

end MoveAbiSignatureToken

end Movy.Types
