import Movy.Tracer.State

/-!
# Module tables (`movy-replay/src/tracer/extra.rs`, `PackageResolver` of `tracer/fuzz.rs`)

How many values a pack or unpack instruction moves is not part of the
instruction: it is looked up in the tables of the module, which the resolver
loads from the package store and caches.
-/

namespace Movy.Tracer

open Movy.Store (ObjectID)

inductive StructFieldInformation where
  | native
  | declared (fields : ℕ)

/- The tables of a module that the tracer reads. A struct or variant is its
number of fields, an enum the list of its variants; a handle or an
instantiation points to a definition. -/
structure CompiledModule where
  selfId : MoveModuleId
  structDefs : List StructFieldInformation
  structInstantiations : List ℕ
  enumDefs : List (List ℕ)
  enumInstantiations : List ℕ
  variantHandles : List (ℕ × ℕ)
  variantInstantiationHandles : List (ℕ × ℕ)

namespace CompiledModule

/- The lookups index into their table: `None` where the code panics. -/
def structFields (m : CompiledModule) (idx : ℕ) : Option ℕ := do
  match ← m.structDefs[idx]? with
  | .native => some 0
  | .declared fields => some fields

def structInstFields (m : CompiledModule) (idx : ℕ) : Option ℕ := do
  m.structFields (← m.structInstantiations[idx]?)

def variantDefAt (m : CompiledModule) (enumDef variant : ℕ) : Option ℕ := do
  (← m.enumDefs[enumDef]?)[variant]?

def variantFields (m : CompiledModule) (idx : ℕ) : Option ℕ := do
  let handle ← m.variantHandles[idx]?
  m.variantDefAt handle.1 handle.2

def variantInstFields (m : CompiledModule) (idx : ℕ) : Option ℕ := do
  let handle ← m.variantInstantiationHandles[idx]?
  m.variantDefAt (← m.enumInstantiations[handle.1]?) handle.2

end CompiledModule

abbrev ModuleMap := MoveModuleId → Option CompiledModule

structure PackageResolvedCache where
  packages : ObjectID → Option ModuleMap

def PackageResolvedCache.moduleRef (self : PackageResolvedCache) (moduleId : MoveModuleId)
    (packageId : ObjectID) : Option CompiledModule :=
  (self.packages packageId).bind fun modules => modules moduleId

inductive LoadError where
  | storage
  | missing (package : ObjectID)
  | malformed
  deriving DecidableEq

/- The package store of a resolver. A stored package is the list of its
serialized modules, each given by the outcome of its deserialization. -/
abbrev PackageStore := ObjectID → Except LoadError (Option (List (Option CompiledModule)))

/- The loop over the modules of a package: a module that does not deserialize
ends it with an error, and those before it stay in the cache. -/
def loadModules (packageId : ObjectID) (cache : PackageResolvedCache) :
    List (Option CompiledModule) → PackageResolvedCache × Except LoadError Unit
  | [] => (cache, .ok ())
  | none :: _ => (cache, .error .malformed)
  | some m :: rest =>
    let modules := (cache.packages packageId).getD fun _ => none
    let modules := Function.update modules m.selfId (some m)
    loadModules packageId ⟨Function.update cache.packages packageId (some modules)⟩ rest

def mayLoadPackage (db : PackageStore) (cache : PackageResolvedCache) (packageId : ObjectID) :
    PackageResolvedCache × Except LoadError Unit :=
  match cache.packages packageId with
  | some _ => (cache, .ok ())
  | none =>
    match db packageId with
    | .error e => (cache, .error e)
    | .ok none => (cache, .error (.missing packageId))
    | .ok (some modules) => loadModules packageId cache modules

/-! ### What the cache holds

A package is loaded once, and what a load finds depends on the store alone. -/

def collect : Option ModuleMap → List (Option CompiledModule) → Option ModuleMap
  | acc, [] => acc
  | acc, none :: _ => acc
  | acc, some m :: rest =>
    collect (some (Function.update (acc.getD fun _ => none) m.selfId (some m))) rest

theorem loadModules_packages (packageId id : ObjectID) (modules : List (Option CompiledModule))
    (cache : PackageResolvedCache) :
    (loadModules packageId cache modules).1.packages id =
      if id = packageId then collect (cache.packages packageId) modules else cache.packages id := by
  induction modules generalizing cache with
  | nil =>
    simp only [loadModules, collect]
    split_ifs with h
    · rw [h]
    · rfl
  | cons m rest ih =>
    cases m with
    | none =>
      simp only [loadModules, collect]
      split_ifs with h
      · rw [h]
      · rfl
    | some m =>
      simp only [loadModules, collect, ih, Function.update_self]
      split_ifs with h
      · rfl
      · rw [Function.update_of_ne h]

def stored (db : PackageStore) (packageId : ObjectID) : Option ModuleMap :=
  match db packageId with
  | .ok (some modules) => collect none modules
  | _ => none

def FilledFrom (db : PackageStore) (cache : PackageResolvedCache) : Prop :=
  ∀ id, cache.packages id = none ∨ cache.packages id = stored db id

theorem mayLoadPackage_packages (db : PackageStore) (cache : PackageResolvedCache)
    (packageId id : ObjectID) (h : FilledFrom db cache) :
    (mayLoadPackage db cache packageId).1.packages id =
      if id = packageId then stored db packageId else cache.packages id := by
  unfold mayLoadPackage
  cases hc : cache.packages packageId with
  | some modules =>
    simp only
    split_ifs with hid
    · subst hid
      rcases h id with hnone | hstored
      · rw [hc] at hnone
        cases hnone
      · exact hstored
    · rfl
  | none =>
    cases hdb : db packageId with
    | error e =>
      simp only [stored, hdb]
      split_ifs with hid
      · rw [hid, hc]
      · rfl
    | ok found =>
      cases found with
      | none =>
        simp only [stored, hdb]
        split_ifs with hid
        · rw [hid, hc]
        · rfl
      | some modules => simp only [loadModules_packages, hc, stored, hdb]

theorem mayLoadPackage_filled (db : PackageStore) (cache : PackageResolvedCache)
    (packageId : ObjectID) (h : FilledFrom db cache) :
    FilledFrom db (mayLoadPackage db cache packageId).1 := by
  intro id
  rw [mayLoadPackage_packages db cache packageId id h]
  split_ifs with hid
  · exact .inr (hid ▸ rfl)
  · exact h id

/- If every stored module of an id is `m`, then the cache answers `m` or nothing. -/
theorem collect_or (id : MoveModuleId) (m : CompiledModule) (modules : List (Option CompiledModule))
    (acc : Option ModuleMap) (hacc : (acc.bind fun f => f id) = some m ∨ (acc.bind fun f => f id) = none)
    (h : ∀ x, some x ∈ modules → x.selfId = id → x = m) :
    ((collect acc modules).bind fun f => f id) = some m ∨
      ((collect acc modules).bind fun f => f id) = none := by
  induction modules generalizing acc with
  | nil => exact hacc
  | cons x rest ih =>
    cases x with
    | none => exact hacc
    | some x =>
      refine ih _ ?_ fun y hy => h y (List.mem_cons_of_mem _ hy)
      simp only [Option.bind_some]
      by_cases hid : id = x.selfId
      · obtain rfl := h x (List.mem_cons_self ..) hid.symm
        rw [hid, Function.update_self]
        exact .inl rfl
      · rw [Function.update_of_ne hid]
        cases acc with
        | none => exact .inr rfl
        | some f => exact hacc

/- If it is among the modules of a package that loads, the cache answers `m`. -/
theorem collect_mem (id : MoveModuleId) (m : CompiledModule) (modules : List CompiledModule)
    (acc : Option ModuleMap) (hid : m.selfId = id)
    (hm : m ∈ modules ∨ (acc.bind fun f => f id) = some m)
    (h : ∀ x ∈ modules, x.selfId = id → x = m) :
    ((collect acc (modules.map some)).bind fun f => f id) = some m := by
  induction modules generalizing acc with
  | nil => exact hm.resolve_left (List.not_mem_nil)
  | cons x rest ih =>
    refine ih _ ?_ fun y hy => h y (List.mem_cons_of_mem _ hy)
    simp only [Option.bind_some]
    by_cases hx : id = x.selfId
    · obtain rfl := h x (List.mem_cons_self ..) hx.symm
      rw [hx, Function.update_self]
      exact .inr rfl
    · rw [Function.update_of_ne hx]
      rcases hm with hm | hm
      · rcases List.mem_cons.mp hm with rfl | hm
        · exact absurd hid.symm hx
        · exact .inl hm
      · cases acc with
        | none => cases hm
        | some f => exact .inr hm

inductive InstructionExtraInformation where
  | pack (fields : ℕ)
  | packGeneric (fields : ℕ)
  | packVariant (fields : ℕ)
  | packVariantGeneric (fields : ℕ)
  | unpack (fields : ℕ)
  | unpackVariant (fields : ℕ)
  | unpackGeneric (fields : ℕ)
  | unpackVariantGeneric (fields : ℕ)

namespace InstructionExtraInformation

/- One arm of `from_resolver`: no information if the module is not in the
cache. The outer `none` is an index out of the bounds of its table. -/
def lookup (resolver : PackageResolvedCache) (packageId : ObjectID) (moduleId : MoveModuleId)
    (count : CompiledModule → Option ℕ) (make : ℕ → InstructionExtraInformation) :
    Option (Option InstructionExtraInformation) :=
  match resolver.moduleRef moduleId packageId with
  | none => some none
  | some m => (count m).map fun n => some (make n)

def fromResolver (instruction : Bytecode) (resolver : PackageResolvedCache) (packageId : ObjectID)
    (moduleId : MoveModuleId) : Option (Option InstructionExtraInformation) :=
  match instruction with
  | .unpack idx => lookup resolver packageId moduleId (·.structFields idx) .unpack
  | .unpackVariant idx | .unpackVariantImmRef idx | .unpackVariantMutRef idx =>
    lookup resolver packageId moduleId (·.variantFields idx) .unpackVariant
  | .unpackGeneric idx => lookup resolver packageId moduleId (·.structInstFields idx) .unpackGeneric
  | .unpackVariantGeneric idx | .unpackVariantGenericImmRef idx
  | .unpackVariantGenericMutRef idx =>
    lookup resolver packageId moduleId (·.variantInstFields idx) .unpackVariantGeneric
  | .pack idx => lookup resolver packageId moduleId (·.structFields idx) .pack
  | .packGeneric idx => lookup resolver packageId moduleId (·.structInstFields idx) .packGeneric
  | .packVariant idx => lookup resolver packageId moduleId (·.variantFields idx) .packVariant
  | .packVariantGeneric idx =>
    lookup resolver packageId moduleId (·.variantInstFields idx) .packVariantGeneric
  | _ => some none

end InstructionExtraInformation

end Movy.Tracer
