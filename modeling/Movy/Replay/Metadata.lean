import Movy.Fuzz.FromMetadata
import Movy.Fuzz.TypeArguments
import Movy.Replay.InnerTypes
import Mathlib.Data.List.MinMax

/-!
# Metadata (`from_env_filtered` of `movy-replay/src/meta.rs`)

What is known of an environment: the ABIs of its packages, which package stands
for the address of a module, and which objects have which type. The versions of a
package share the address of their modules, and the newest one stands for it.
-/

namespace Movy.Replay

open Store Movy.Types Sui Failing
open Fuzz (MovePackageAbi AbilityTable)

variable {Path : Type}

/-- The layouts of structs, `structs_mapping`, are left out. -/
structure Metadata extends Fuzz.Metadata where
  typesPool : IndexMap MoveTypeTag (List MoveAddress)
  abilityToTypeTag : AbilityTable

/-! ### The code -/

def moduleSites (abis : SortedMap MoveAddress MovePackageAbi) : List (MoveAddress × MoveAddress) :=
  abis.entries.flatMap fun e => e.2.modules.map fun md => (e.1, md.moduleId.moduleAddress)

/-- The types that are asked for; a type without objects is no entry. -/
def filterTypesPool (typesPool : IndexMap MoveTypeTag (List MoveAddress))
    (includeTypes excludeTypes : Option (List MoveTypeTag)) :
    IndexMap MoveTypeTag (List MoveAddress) :=
  ((typesPool.filter fun e => Fuzz.included includeTypes e.1).filter fun e =>
    !Fuzz.excluded excludeTypes e.1).filter fun e => !e.2.isEmpty

/-- A package is filed under its id, which is that of the object. -/
def fileAbi (out : SortedMap MoveAddress MovePackageAbi) (id : MoveAddress) :
    Option MovePackageAbi → SortedMap MoveAddress MovePackageAbi
  | some abi => out.insert id abi
  | none => out

/-- The ids of a type come in the order of the listing, so they are a sorted set. -/
def fileObject (pool : IndexMap MoveTypeTag (List MoveAddress)) (id : MoveAddress) :
    Option MoveTypeTag → IndexMap MoveTypeTag (List MoveAddress)
  | some ty => pool.insert ty ((pool.get? ty).getD [] ++ [id])
  | none => pool

/-- The record at the end of `from_env_filtered`. -/
def Metadata.ofParts (testingAbis abis : SortedMap MoveAddress MovePackageAbi)
    (moduleAddressToPackage : SortedMap MoveAddress MoveAddress)
    (typesPool : IndexMap MoveTypeTag (List MoveAddress)) : Metadata where
  typeGraph := Analysis.MoveTypeGraph.ofPackages (abis.entries.map Prod.snd)
  abis := abis
  testingAbis := testingAbis
  moduleAddressToPackage := moduleAddressToPackage
  functionNameToIdents := Fuzz.functionNameToIdents testingAbis.entries
  typesPool := typesPool
  abilityToTypeTag := Fuzz.abilityToTypeTag (abis.entries.map Prod.snd)

section

variable (w : Workspace Path)

def exportAbi : Load (SortedMap MoveAddress MovePackageAbi) := do
  let ids ← Failing.reading fun db => (listObjects db, db)
  ids.foldlM (fun out id => do
    let object ← Load.exec (Exec.getObject id)
    pure (fileAbi out id (object.bind fun o => (w.fromSuiObject o).toOption))) SortedMap.empty

def getVersion (id : MoveAddress) : Load SequenceNumber := do
  let object ← Load.exec (Exec.getObject id)
  let object ← Failing.orElse object (.exec (.notFound id))
  pure object.version

def mapModule (m : SortedMap MoveAddress MoveAddress) (site : MoveAddress × MoveAddress) :
    Load (SortedMap MoveAddress MoveAddress) :=
  match m.get? site.2 with
  | some oldPkgId => do
    let old ← getVersion oldPkgId
    let new ← getVersion site.1
    pure (if old < new then m.insert site.2 site.1 else m)
  | none => pure (m.insert site.2 site.1)

def poolTypes : Load (IndexMap MoveTypeTag (List MoveAddress)) := do
  let ids ← Failing.reading fun db => (listObjects db, db)
  ids.foldlM (fun pool id => do
    let object ← Load.exec (Exec.getObject id)
    pure (fileObject pool id ((object.bind w.engine.moveObjectInfo).map Fuzz.MoveObjectInfo.ty)))
    IndexMap.empty

def fromEnvFiltered (localAbis : SortedMap MoveAddress MovePackageAbi)
    (includeTypes excludeTypes : Option (List MoveTypeTag)) : Load Metadata := do
  let testingAbis ← exportAbi w
  let abis := testingAbis.extend localAbis
  let moduleAddressToPackage ← (moduleSites abis).foldlM mapModule SortedMap.empty
  let typesPool ← poolTypes w
  pure (Metadata.ofParts testingAbis abis moduleAddressToPackage
    (filterTypesPool typesPool includeTypes excludeTypes))

end

/-! ### The loops -/

def versionOf (db : CachedStore) (id : ObjectID) : SequenceNumber :=
  ((db.byId id).map Object.version).getD 0

variable (w : Workspace Path)

def abiOf (db : CachedStore) (id : ObjectID) : Option MovePackageAbi :=
  (db.byId id).bind fun o => (w.fromSuiObject o).toOption

def typeOf (db : CachedStore) (id : ObjectID) : Option MoveTypeTag :=
  ((db.byId id).bind w.engine.moveObjectInfo).map Fuzz.MoveObjectInfo.ty

/-- The package stays unless the new one is newer. -/
def offer (version : MoveAddress → SequenceNumber) (m : SortedMap MoveAddress MoveAddress)
    (site : MoveAddress × MoveAddress) : SortedMap MoveAddress MoveAddress :=
  match m.get? site.2 with
  | some old => if version old < version site.1 then m.insert site.2 site.1 else m
  | none => m.insert site.2 site.1

theorem exec_getObject_run (id : ObjectID) (s : CachedStore) :
    Load.exec (Exec.getObject id) s = (.ok (s.byId id), (s.getObject id).2) := rfl

/-- Listed in the database or named by an ABI, and there. -/
def Present (allowed : ObjectID → Prop) (db : CachedStore) (id : ObjectID) : Prop :=
  (id ∈ listObjects db ∨ allowed id) ∧ (db.byId id).isSome

variable {allowed : ObjectID → Prop} {db s : CachedStore} (hb : db.BaseKeyed)

include hb

theorem getVersion_run (hs : Growth allowed db s) (id : ObjectID) (h : Present allowed db id) :
    ∃ t, getVersion id s = (.ok (versionOf db id), t) ∧ Growth allowed db t := by
  obtain ⟨o, ho⟩ := Option.isSome_iff_exists.mp h.2
  refine ⟨(s.getObject id).2, ?_, hs.trans (hs.getObject hb id h.1)⟩
  rw [getVersion, bind_eq_ok]
  refine ⟨_, _, exec_getObject_run id s, ?_⟩
  rw [hs.reads, ho, bind_eq_ok]
  refine ⟨o, _, (orElse_eq_ok _ _ _ _ _).mpr ⟨rfl, rfl⟩, ?_⟩
  rw [pure_eq_ok, versionOf, ho]
  exact ⟨rfl, rfl⟩

theorem exportAbi_run (allowed : ObjectID → Prop) : ∃ t, exportAbi w db =
      (.ok ((listObjects db).foldl (fun out id => fileAbi out id (abiOf w db id)) SortedMap.empty), t) ∧
      Growth allowed db t := by
  refine foldlM_eq_foldl (fun _ s => Growth allowed db s) _ _ (listObjects db) _ db
    (Growth.refl _ db) ?_
  intro out id hid s hs
  refine ⟨(s.getObject id).2, ?_, hs.trans (hs.getObject hb id (.inl hid))⟩
  rw [bind_eq_ok]
  refine ⟨_, _, exec_getObject_run id s, ?_⟩
  rw [hs.reads, pure_eq_ok]
  exact ⟨rfl, rfl⟩

theorem poolTypes_run (allowed : ObjectID → Prop) : ∃ t, poolTypes w db =
      (.ok ((listObjects db).foldl (fun pool id => fileObject pool id (typeOf w db id))
        IndexMap.empty), t) ∧ Growth allowed db t := by
  refine foldlM_eq_foldl (fun _ s => Growth allowed db s) _ _ (listObjects db) _ db
    (Growth.refl _ db) ?_
  intro pool id hid s hs
  refine ⟨(s.getObject id).2, ?_, hs.trans (hs.getObject hb id (.inl hid))⟩
  rw [bind_eq_ok]
  refine ⟨_, _, exec_getObject_run id s, ?_⟩
  rw [hs.reads, pure_eq_ok]
  exact ⟨rfl, rfl⟩

theorem mapModule_run (hs : Growth allowed db s) (m : SortedMap MoveAddress MoveAddress)
    (hm : ∀ a p, m.get? a = some p → Present allowed db p) (site : MoveAddress × MoveAddress)
    (hsite : Present allowed db site.1) : ∃ t,
      mapModule m site s = (.ok (offer (versionOf db) m site), t) ∧ Growth allowed db t := by
  unfold mapModule offer
  cases hold : m.get? site.2 with
  | none => exact ⟨s, rfl, hs⟩
  | some old =>
    obtain ⟨t, ht, hgt⟩ := getVersion_run hb hs old (hm site.2 old hold)
    obtain ⟨u, hu, hgu⟩ := getVersion_run hb hgt site.1 hsite
    refine ⟨u, ?_, hgu⟩
    simp only [bind_eq_ok]
    exact ⟨_, t, ht, _, u, hu, rfl⟩

omit hb in
theorem offer_present (version : MoveAddress → SequenceNumber)
    (m : SortedMap MoveAddress MoveAddress) (hm : ∀ a p, m.get? a = some p → Present allowed db p)
    (site : MoveAddress × MoveAddress) (hsite : Present allowed db site.1) (a p : MoveAddress)
    (h : (offer version m site).get? a = some p) : Present allowed db p := by
  have hinsert : (m.insert site.2 site.1).get? a = some p → Present allowed db p := by
    intro h
    rw [SortedMap.get?_insert] at h
    split_ifs at h with ha
    · obtain rfl := Option.some.inj h
      exact hsite
    · exact hm a p h
  unfold offer at h
  split at h
  · split_ifs at h
    · exact hinsert h
    · exact hm a p h
  · exact hinsert h

theorem mapModules_run (hs : Growth allowed db s) (sites : List (MoveAddress × MoveAddress))
    (hsites : ∀ site ∈ sites, Present allowed db site.1) : ∃ t,
      sites.foldlM mapModule SortedMap.empty s =
        (.ok (sites.foldl (offer (versionOf db)) SortedMap.empty), t) ∧ Growth allowed db t := by
  have hrun := foldlM_eq_foldl (fun m t => Growth allowed db t ∧
    ∀ a p, m.get? a = some p → Present allowed db p) mapModule (offer (versionOf db)) sites
    SortedMap.empty s ⟨hs, fun a p h => by cases h⟩ ?_
  · obtain ⟨t, ht, hg, -⟩ := hrun
    exact ⟨t, ht, hg⟩
  · intro m site hsite u hI
    obtain ⟨hu, hm⟩ := hI
    obtain ⟨t, ht, hg⟩ := mapModule_run hb hu m hm site (hsites site hsite)
    exact ⟨t, ht, hg, offer_present _ m hm site (hsites site hsite)⟩

omit hb

/-! ### What they leave -/

theorem get?_fileAbis (f : MoveAddress → Option MovePackageAbi) (ids : List MoveAddress)
    (out : SortedMap MoveAddress MovePackageAbi) (id : MoveAddress) :
    (ids.foldl (fun out id => fileAbi out id (f id)) out).get? id =
      if id ∈ ids then (f id).or (out.get? id) else out.get? id := by
  induction ids generalizing out with
  | nil => rfl
  | cons j rest ih =>
    have hstep : (fileAbi out j (f j)).get? id =
        if id = j then (f id).or (out.get? id) else out.get? id := by
      by_cases hid : id = j
      · subst hid
        rw [if_pos rfl]
        cases f id with
        | none => rfl
        | some abi => simp [fileAbi, SortedMap.get?_insert]
      · rw [if_neg hid]
        cases f j with
        | none => rfl
        | some abi => simp [fileAbi, SortedMap.get?_insert, hid]
    rw [List.foldl_cons, ih, hstep]
    by_cases hid : id = j
    · subst hid
      cases f id <;> simp
    · simp [hid]

theorem get?_fileObjects (f : MoveAddress → Option MoveTypeTag) (ids : List MoveAddress)
    (pool : IndexMap MoveTypeTag (List MoveAddress)) (ty : MoveTypeTag) :
    ((ids.foldl (fun pool id => fileObject pool id (f id)) pool).get? ty).getD [] =
      (pool.get? ty).getD [] ++ ids.filter fun id => f id = some ty := by
  induction ids generalizing pool with
  | nil => simp
  | cons id rest ih =>
    rw [List.foldl_cons, ih, List.filter_cons]
    cases hty : f id with
    | none => simp [fileObject]
    | some ty' =>
      by_cases heq : ty = ty'
      · subst heq
        simp [fileObject, IndexMap.get?_insert]
      · simp [fileObject, IndexMap.get?_insert, heq, Ne.symm heq]

theorem get?_filterTypesPool (pool : IndexMap MoveTypeTag (List MoveAddress))
    (includeTypes excludeTypes : Option (List MoveTypeTag)) (ty : MoveTypeTag)
    (ids : List MoveAddress) :
    (filterTypesPool pool includeTypes excludeTypes).get? ty = some ids ↔
      Fuzz.included includeTypes ty = true ∧ Fuzz.excluded excludeTypes ty = false ∧ ids ≠ [] ∧
        (pool.get? ty).getD [] = ids := by
  rw [filterTypesPool, IndexMap.get?_filter, IndexMap.get?_filter, IndexMap.get?_filter]
  cases pool.get? ty with
  | none =>
    simp only [Option.filter_none, Option.getD_none]
    exact ⟨nofun, fun h => absurd h.2.2.2.symm h.2.2.1⟩
  | some l =>
    simp only [Option.filter_eq_some_iff, Option.getD_some, Option.some.injEq, Bool.not_eq_true',
      List.isEmpty_eq_false_iff]
    constructor
    · intro h
      obtain ⟨⟨⟨rfl, hin⟩, hex⟩, hne⟩ := h
      exact ⟨hin, hex, hne, rfl⟩
    · intro h
      obtain ⟨hin, hex, hne, rfl⟩ := h
      exact ⟨⟨⟨rfl, hin⟩, hex⟩, hne⟩

theorem get?_offer_self (version : MoveAddress → SequenceNumber)
    (m : SortedMap MoveAddress MoveAddress) (site : MoveAddress × MoveAddress) :
    (offer version m site).get? site.2 = Option.casesOn (m.get? site.2) (some site.1) fun old =>
      if version old < version site.1 then some site.1 else some old := by
  unfold offer
  cases hold : m.get? site.2 with
  | none => simp only [SortedMap.get?_insert, if_true]
  | some old =>
    simp only
    split_ifs
    · rw [SortedMap.get?_insert, if_pos rfl]
    · exact hold

theorem get?_offer_of_ne (version : MoveAddress → SequenceNumber)
    (m : SortedMap MoveAddress MoveAddress) (site : MoveAddress × MoveAddress) (a : MoveAddress)
    (h : a ≠ site.2) : (offer version m site).get? a = m.get? a := by
  unfold offer
  split
  · split_ifs
    · rw [SortedMap.get?_insert, if_neg h]
    · rfl
  · rw [SortedMap.get?_insert, if_neg h]

theorem get?_offers (version : MoveAddress → SequenceNumber)
    (sites : List (MoveAddress × MoveAddress)) (a : MoveAddress) :
    (sites.foldl (offer version) SortedMap.empty).get? a =
      ((sites.filter fun site => site.2 = a).map Prod.fst).argmax version := by
  induction sites using List.reverseRecOn with
  | nil => rfl
  | append_singleton rest site ih =>
    rw [List.foldl_append, List.foldl_cons, List.foldl_nil, List.filter_append, List.map_append]
    by_cases ha : a = site.2
    · subst ha
      have hlast : ([site].filter fun e => e.2 = site.2) = [site] := by simp
      rw [get?_offer_self, ih, hlast, List.map_cons, List.map_nil, List.argmax_concat]
    · have hlast : ([site].filter fun e => e.2 = a) = [] := by simp [Ne.symm ha]
      rw [get?_offer_of_ne _ _ _ _ ha, ih, hlast, List.map_nil, List.append_nil]

/-! ### The newest package -/

/-- The package has a module at this address. -/
def Lists (abis : SortedMap MoveAddress MovePackageAbi) (p a : MoveAddress) : Prop :=
  ∃ abi, abis.get? p = some abi ∧ ∃ md ∈ abi.modules, md.moduleId.moduleAddress = a

/-- Of the packages of greatest version with a module at the address, the one with
the least id. -/
structure Latest (abis : SortedMap MoveAddress MovePackageAbi)
    (version : MoveAddress → SequenceNumber) (a p : MoveAddress) : Prop where
  lists : Lists abis p a
  newest : ∀ q, Lists abis q a → version q < version p ∨ (version q = version p ∧ p ≤ q)

def listing (abis : SortedMap MoveAddress MovePackageAbi) (a : MoveAddress) : List MoveAddress :=
  ((moduleSites abis).filter fun site => site.2 = a).map Prod.fst

theorem mem_moduleSites (abis : SortedMap MoveAddress MovePackageAbi) (p a : MoveAddress) :
    (p, a) ∈ moduleSites abis ↔ Lists abis p a := by
  rw [moduleSites, List.mem_flatMap]
  constructor
  · intro h
    obtain ⟨e, he, hsite⟩ := h
    obtain ⟨md, hmd, heq⟩ := List.mem_map.mp hsite
    obtain ⟨rfl, rfl⟩ := Prod.mk.inj heq
    exact ⟨e.2, (SortedMap.mem_entries _ _ _).mp he, md, hmd, rfl⟩
  · intro h
    obtain ⟨abi, habi, md, hmd, rfl⟩ := h
    exact ⟨(p, abi), (SortedMap.mem_entries _ _ _).mpr habi, List.mem_map.mpr ⟨md, hmd, rfl⟩⟩

theorem mem_listing (abis : SortedMap MoveAddress MovePackageAbi) (p a : MoveAddress) :
    p ∈ listing abis a ↔ Lists abis p a := by
  rw [listing, List.mem_map, ← mem_moduleSites]
  constructor
  · intro h
    obtain ⟨site, hsite, rfl⟩ := h
    obtain ⟨hmem, ha⟩ := List.mem_filter.mp hsite
    obtain rfl := of_decide_eq_true ha
    exact hmem
  · intro h
    exact ⟨(p, a), List.mem_filter.mpr ⟨h, decide_eq_true rfl⟩, rfl⟩

theorem listing_sorted (abis : SortedMap MoveAddress MovePackageAbi) (a : MoveAddress) :
    (listing abis a).Pairwise (· ≤ ·) := by
  have hsites : (moduleSites abis).Pairwise fun s t => s.1 ≤ t.1 := by
    rw [moduleSites, List.pairwise_flatMap]
    refine ⟨fun e _ => List.pairwise_map.mpr (List.pairwise_of_forall fun _ _ => le_refl e.1), ?_⟩
    refine abis.sorted.imp fun {e f} hlt => ?_
    intro s hs t ht
    obtain ⟨_, -, rfl⟩ := List.mem_map.mp hs
    obtain ⟨_, -, rfl⟩ := List.mem_map.mp ht
    exact le_of_lt hlt
  exact List.pairwise_map.mpr (hsites.sublist List.filter_sublist)

theorem idxOf_le_idxOf {α : Type} [LinearOrder α] (l : List α) (hl : l.Pairwise (· ≤ ·)) (p q : α)
    (hp : p ∈ l) (hq : q ∈ l) : l.idxOf p ≤ l.idxOf q ↔ p ≤ q := by
  have hlt : ∀ p q, p ∈ l → q ∈ l → l.idxOf p < l.idxOf q → p ≤ q := by
    intro p q hp hq hlt
    have hle := List.pairwise_iff_getElem.mp hl _ _ (List.idxOf_lt_length_of_mem hp)
      (List.idxOf_lt_length_of_mem hq) hlt
    rw [List.getElem_idxOf, List.getElem_idxOf] at hle
    exact hle
  constructor
  · intro h
    rcases lt_or_eq_of_le h with h | h
    · exact hlt p q hp hq h
    · exact le_of_eq ((List.idxOf_inj hp).mp h)
  · intro h
    by_contra hgt
    have hge := hlt q p hq hp (not_le.mp hgt)
    obtain rfl := le_antisymm h hge
    exact hgt (le_refl _)

theorem argmax_listing (abis : SortedMap MoveAddress MovePackageAbi)
    (version : MoveAddress → SequenceNumber) (a p : MoveAddress) :
    (listing abis a).argmax version = some p ↔ Latest abis version a p := by
  rw [List.argmax_eq_some_iff]
  have hsorted := listing_sorted abis a
  constructor
  · intro h
    obtain ⟨hp, hmax, hfirst⟩ := h
    refine ⟨(mem_listing abis p a).mp hp, fun q hq => ?_⟩
    have hq := (mem_listing abis q a).mpr hq
    rcases lt_or_eq_of_le (hmax q hq) with hlt | heq
    · exact .inl hlt
    · exact .inr ⟨heq, (idxOf_le_idxOf _ hsorted p q hp hq).mp (hfirst q hq (le_of_eq heq.symm))⟩
  · intro h
    have hp := (mem_listing abis p a).mpr h.lists
    refine ⟨hp, fun q hq => ?_, fun q hq hle => ?_⟩
    · rcases h.newest q ((mem_listing abis q a).mp hq) with hlt | ⟨heq, -⟩
      · exact le_of_lt hlt
      · exact le_of_eq heq
    · rcases h.newest q ((mem_listing abis q a).mp hq) with hlt | ⟨-, hpq⟩
      · exact absurd hlt (not_lt.mpr hle)
      · exact (idxOf_le_idxOf _ hsorted p q hp hq).mpr hpq

/-! ### What the metadata says -/

structure Describes (localAbis : SortedMap MoveAddress MovePackageAbi)
    (includeTypes excludeTypes : Option (List MoveTypeTag)) (db db' : CachedStore)
    (metadata : Metadata) : Prop where
  testing : ∀ id, metadata.testingAbis.get? id = if id ∈ listObjects db then abiOf w db id else none
  abis : ∀ id, metadata.abis.get? id = (localAbis.get? id).or (metadata.testingAbis.get? id)
  packages : ∀ a p, metadata.moduleAddressToPackage.get? a = some p ↔
    Latest metadata.abis (versionOf db) a p
  pool : ∀ ty id, (∃ ids, metadata.typesPool.get? ty = some ids ∧ id ∈ ids) ↔
    Fuzz.included includeTypes ty = true ∧ Fuzz.excluded excludeTypes ty = false ∧
      id ∈ listObjects db' ∧ typeOf w db id = some ty
  filled : ∀ ty ids, metadata.typesPool.get? ty = some ids → ids ≠ []

/-- Metadata can be made if the packages of all local ABIs are there. It has the ABIs
of all packages that are listed, maps the address of a module to the newest package
that has it, and has all objects of the types that were asked for, at their types. -/
theorem from_env_describes (localAbis : SortedMap MoveAddress MovePackageAbi)
    (includeTypes excludeTypes : Option (List MoveTypeTag)) (db : CachedStore) (hb : db.BaseKeyed)
    (hlocal : ∀ id abi, localAbis.get? id = some abi → (db.byId id).isSome) :
    ∃ metadata db', fromEnvFiltered w localAbis includeTypes excludeTypes db = (.ok metadata, db') ∧
      Describes w localAbis includeTypes excludeTypes db db' metadata := by
  obtain ⟨s₁, hexport, hg₁⟩ := exportAbi_run w hb fun id => (localAbis.get? id).isSome
  have htesting := get?_fileAbis (abiOf w db) (listObjects db) SortedMap.empty
  simp only [SortedMap.get?_empty, Option.or_none] at htesting
  generalize ((listObjects db).foldl (fun out id => fileAbi out id (abiOf w db id))
    SortedMap.empty) = testingAbis at hexport htesting
  have hsites : ∀ site ∈ moduleSites (testingAbis.extend localAbis),
      Present (fun id => (localAbis.get? id).isSome) db site.1 := by
    intro site hsite
    obtain ⟨abi, habi, -⟩ := (mem_moduleSites _ site.1 site.2).mp hsite
    rw [SortedMap.get?_extend] at habi
    cases hl : localAbis.get? site.1 with
    | some l => exact ⟨.inr (Option.isSome_iff_exists.mpr ⟨l, hl⟩), hlocal site.1 l hl⟩
    | none =>
      rw [hl, Option.none_or, htesting] at habi
      split_ifs at habi with hlisted
      obtain ⟨o, ho, -⟩ := Option.bind_eq_some_iff.mp habi
      exact ⟨.inl hlisted, Option.isSome_iff_exists.mpr ⟨o, ho⟩⟩
  obtain ⟨s₂, hmap, hg₂⟩ := mapModules_run hb hg₁ _ hsites
  obtain ⟨s₃, hpool, hg₃⟩ := poolTypes_run w (hg₂.baseKeyed hb) fun _ => False
  refine ⟨Metadata.ofParts testingAbis (testingAbis.extend localAbis)
    ((moduleSites (testingAbis.extend localAbis)).foldl (offer (versionOf db)) SortedMap.empty)
    (filterTypesPool ((listObjects s₂).foldl (fun pool id => fileObject pool id (typeOf w s₂ id))
      IndexMap.empty) includeTypes excludeTypes), s₃, ?_, ?_⟩
  · rw [fromEnvFiltered, bind_eq_ok]
    refine ⟨testingAbis, s₁, hexport, ?_⟩
    rw [bind_eq_ok]
    refine ⟨_, s₂, hmap, ?_⟩
    rw [bind_eq_ok]
    exact ⟨_, s₃, hpool, rfl⟩
  · have htype : ∀ id, typeOf w s₂ id = typeOf w db id := fun id => by
      rw [typeOf, typeOf, hg₂.reads]
    have hlisted : ∀ id, id ∈ listObjects s₂ ↔ id ∈ listObjects s₃ :=
      fun id => ⟨hg₃.retains id, fun h => (hg₃.introduced id h).resolve_right not_false⟩
    have hids := fun ty => get?_fileObjects (typeOf w s₂) (listObjects s₂) IndexMap.empty ty
    refine ⟨htesting, fun id => SortedMap.get?_extend _ _ id, fun a p => ?_, fun ty id => ?_, ?_⟩
    · rw [← argmax_listing]
      exact Eq.congr_left (get?_offers _ _ a)
    · constructor
      · intro h
        obtain ⟨ids, hget, hid⟩ := h
        obtain ⟨hin, hex, -, rfl⟩ := (get?_filterTypesPool _ _ _ ty ids).mp hget
        rw [hids] at hid
        obtain ⟨hid, hty⟩ := List.mem_filter.mp hid
        exact ⟨hin, hex, (hlisted id).mp hid, (htype id).symm.trans (of_decide_eq_true hty)⟩
      · intro h
        obtain ⟨hin, hex, hid, hty⟩ := h
        have hmem : id ∈ (listObjects s₂).filter fun id => typeOf w s₂ id = some ty :=
          List.mem_filter.mpr ⟨(hlisted id).mpr hid, decide_eq_true ((htype id).trans hty)⟩
        refine ⟨_, (get?_filterTypesPool _ _ _ ty _).mpr ⟨hin, hex, ?_, hids ty⟩, hmem⟩
        exact List.ne_nil_of_mem hmem
    · exact fun ty ids h => ((get?_filterTypesPool _ _ _ ty ids).mp h).2.2.1

/-- Two versions of a package whose module is at the address 7, and a coin. -/
def versionedDb : CachedStore :=
  (sampleDb.commitSingleObject { samplePackage 7 [] with version := 1 }).commitSingleObject
    { samplePackage 8 [] with version := 2 }

def vaultAbi : MovePackageAbi := ⟨[⟨⟨ObjectID.ofByte 7, "vault"⟩, [], []⟩]⟩

def versionedWorkspace : Workspace Unit :=
  { sampleWorkspace with
    fromSuiObject := fun o =>
      if o.id = ObjectID.ofByte 2 then .error "expect package" else .ok vaultAbi }

theorem from_env_describes_upgraded : ∃ metadata db',
    fromEnvFiltered versionedWorkspace SortedMap.empty none none versionedDb =
      (.ok metadata, db') ∧
      metadata.moduleAddressToPackage.get? (ObjectID.ofByte 7) = some (ObjectID.ofByte 8) := by
  obtain ⟨metadata, db', hrun, hdescribes⟩ := from_env_describes versionedWorkspace
    SortedMap.empty none none versionedDb (fun id o h => by cases h) (fun id abi h => by cases h)
  have hlisted : listObjects versionedDb =
      [ObjectID.ofByte 2, ObjectID.ofByte 7, ObjectID.ofByte 8] := by decide
  have habis : ∀ p, metadata.abis.get? p =
      if p ∈ listObjects versionedDb then abiOf versionedWorkspace versionedDb p else none := by
    intro p
    rw [hdescribes.abis, hdescribes.testing, SortedMap.get?_empty, Option.none_or]
  refine ⟨metadata, db', hrun, (hdescribes.packages _ _).mpr ⟨?_, fun q hq => ?_⟩⟩
  · refine ⟨vaultAbi, ?_, _, List.mem_cons_self, rfl⟩
    rw [habis, hlisted, if_pos (by decide)]
    rfl
  · obtain ⟨abi, habi, -⟩ := hq
    rw [habis, hlisted] at habi
    split_ifs at habi with hq
    simp only [List.mem_cons, List.not_mem_nil, or_false] at hq
    rcases hq with rfl | rfl | rfl
    · cases habi
    · exact .inl (by decide)
    · exact .inr ⟨rfl, le_refl _⟩

end Movy.Replay
