import Movy.Replay.BuildEnv

/-!
# Types of the objects that are there

`load_inner_types` reads every listed object and loads what its type names. It
runs once over the objects listed at its start, although it adds to them.
-/

namespace Movy.Replay

open Store Movy.Types Sui Failing

variable {Path : Type}

/-! ### Reads -/

/-- What reads leave: all later reads, and the ids that were listed. -/
structure Growth (allowed : ObjectID → Prop) (s t : CachedStore) : Prop where
  store : t.store = s.store
  reads : ∀ id, t.byId id = s.byId id
  retains : ∀ id ∈ listObjects s, id ∈ listObjects t
  introduced : ∀ id ∈ listObjects t, id ∈ listObjects s ∨ allowed id

theorem Growth.refl (allowed : ObjectID → Prop) (s : CachedStore) : Growth allowed s s :=
  ⟨rfl, fun _ => rfl, fun _ h => h, fun _ h => .inl h⟩

theorem Growth.trans {allowed : ObjectID → Prop} {s t u : CachedStore}
    (hst : Growth allowed s t) (htu : Growth allowed t u) : Growth allowed s u := by
  refine ⟨htu.store.trans hst.store, fun id => (htu.reads id).trans (hst.reads id), ?_, ?_⟩
  · exact fun id h => htu.retains id (hst.retains id h)
  · intro id h
    rcases htu.introduced id h with h | h
    · exact hst.introduced id h
    · exact .inr h

theorem Growth.weaken {allowed larger : ObjectID → Prop} {s t : CachedStore}
    (h : Growth allowed s t) (hle : ∀ id, allowed id → larger id) : Growth larger s t :=
  ⟨h.store, h.reads, h.retains, fun id hid => (h.introduced id hid).imp_right (hle id)⟩

theorem Growth.baseKeyed {allowed : ObjectID → Prop} {s t : CachedStore} (h : Growth allowed s t)
    (hb : s.BaseKeyed) : t.BaseKeyed := by
  intro id o ho
  rw [h.store] at ho
  exact hb id o ho

theorem mem_listObjects (s : CachedStore) (id : ObjectID) :
    id ∈ listObjects s ↔ ∃ versions, s.inner.objects.get? id = some versions := by
  rw [listObjects, List.mem_map]
  constructor
  · intro h
    obtain ⟨e, he, rfl⟩ := h
    exact ⟨e.2, (SortedMap.mem_entries _ _ _).mp he⟩
  · intro h
    obtain ⟨versions, h⟩ := h
    exact ⟨(id, versions), (SortedMap.mem_entries _ _ _).mpr h, rfl⟩

theorem mem_listObjects_commitSingleObject (s : CachedStore) (o : Object) (id : ObjectID) :
    id ∈ listObjects (s.commitSingleObject o) ↔ id = o.id ∨ id ∈ listObjects s := by
  rw [mem_listObjects, mem_listObjects]
  simp only [CachedStore.commitSingleObject, CachedSnapshot.cacheObjectOnly,
    CachedSnapshot.cacheQuery, SortedMap.get?_insert]
  by_cases h : id = o.id
  · simp [h]
  · simp [h]

theorem listed_of_cached (s : CachedStore) (id : ObjectID) (o : Object)
    (h : s.inner.objectIdCached id = some o) : id ∈ listObjects s := by
  rw [mem_listObjects]
  cases hg : s.inner.objects.get? id with
  | some versions => exact ⟨versions, rfl⟩
  | none =>
    simp only [CachedSnapshot.objectIdCached, CachedSnapshot.objectResolvedUpperbound,
      CachedSnapshot.objectResolveUpperboundDetails, hg, ResolvedResult.intoObject] at h
    cases h

theorem growth_getObject (s : CachedStore) (hb : s.BaseKeyed) (id : ObjectID) :
    Growth (fun j => j = id) s (s.getObject id).2 ∧
      ((s.byId id).isSome → id ∈ listObjects (s.getObject id).2) := by
  have hreads := CachedStore.byId_getObject s hb id
  have hstore := CachedStore.store_getObject s id
  cases hc : s.inner.objectIdCached id with
  | some hit =>
    have hs : (s.getObject id).2 = s := by simp only [CachedStore.getObject, hc]
    rw [hs]
    exact ⟨Growth.refl _ s, fun _ => listed_of_cached s id hit hc⟩
  | none =>
    cases hf : s.store.getObject id with
    | none =>
      have hs : (s.getObject id).2 = s := by simp only [CachedStore.getObject, hc, hf]
      have hnone : s.byId id = none := by
        rw [CachedStore.byId]
        simp only [CachedStore.getObject, hc, hf]
      rw [hs, hnone]
      exact ⟨Growth.refl _ s, fun h => by cases h⟩
    | some hit =>
      have hs : (s.getObject id).2 = s.commitSingleObject hit := by
        simp only [CachedStore.getObject, hc, hf, CachedStore.commitSingleObject]
      have hid := hb id hit hf
      refine ⟨⟨hstore, hreads, fun j hj => ?_, fun j hj => ?_⟩, fun _ => ?_⟩
      · rw [hs, mem_listObjects_commitSingleObject]
        exact .inr hj
      · rw [hs, mem_listObjects_commitSingleObject, hid] at hj
        exact hj.symm
      · rw [hs, mem_listObjects_commitSingleObject]
        exact .inl hid.symm

theorem Growth.getObject {allowed : ObjectID → Prop} {db s : CachedStore} (h : Growth allowed db s)
    (hb : db.BaseKeyed) (id : ObjectID) (hid : id ∈ listObjects db ∨ allowed id) :
    Growth allowed s (s.getObject id).2 := by
  have hread := (growth_getObject s (h.baseKeyed hb) id).1
  refine ⟨hread.store, hread.reads, hread.retains, fun j hj => ?_⟩
  rcases hread.introduced j hj with hj | rfl
  · exact .inl hj
  · exact hid.imp_left (h.retains j)

/-! ### The loop over the types -/

variable (w : Workspace Path)

/-- The type of a listed object names this address. -/
def TypeAddress (db : CachedStore) (a : MoveAddress) : Prop :=
  ∃ id ∈ listObjects db, ∃ o info, db.byId id = some o ∧ w.engine.moveObjectInfo o = some info ∧
    a ∈ flatAddresses info.ty

theorem exec_getObject_eq_ok (id : ObjectID) (s t : CachedStore) (r : Option Object)
    (h : Load.exec (Exec.getObject id) s = (.ok r, t)) :
    r = s.byId id ∧ t = (s.getObject id).2 := by
  have h := (reading_eq_ok _ _ _ _).mp ((mapError_eq_ok _ _ _ _ _).mp h)
  rw [CachedStore.byId, h]
  exact ⟨rfl, rfl⟩

theorem loadObject_eq_ok (a : MoveAddress) (s t : CachedStore) (u : Unit) (hb : s.BaseKeyed)
    (h : loadObject a s = (.ok u, t)) :
    Growth (fun j => j = a) s t ∧ (s.byId a).isSome ∧ a ∈ listObjects t := by
  obtain ⟨r, s₁, hr, h⟩ := (bind_eq_ok _ _ _ _ _).mp h
  obtain ⟨o, s₂, ho, h⟩ := (bind_eq_ok _ _ _ _ _).mp h
  obtain ⟨-, rfl⟩ := (pure_eq_ok _ _ _ _).mp h
  obtain ⟨rfl, rfl⟩ := exec_getObject_eq_ok a s s₁ r hr
  obtain ⟨hread, rfl⟩ := (orElse_eq_ok _ _ _ _ _).mp ho
  obtain ⟨hgrowth, hlisted⟩ := growth_getObject s hb a
  have hsome : (s.byId a).isSome = true := by rw [hread, Option.isSome_some]
  exact ⟨hgrowth, hsome, hlisted hsome⟩

/-- An address of a type is known: it reads as an object, and is listed. -/
def Known (a : MoveAddress) (db : CachedStore) : Prop := (db.byId a).isSome ∧ a ∈ listObjects db

theorem Known.growth {allowed : ObjectID → Prop} {a : MoveAddress} {s t : CachedStore}
    (h : Known a s) (hg : Growth allowed s t) : Known a t := by
  refine ⟨?_, hg.retains a h.2⟩
  rw [hg.reads]
  exact h.1

/-- The round for one listed object. -/
theorem loadTypes_eq_ok (allowed : ObjectID → Prop) (db s t : CachedStore)
    (addresses : List MoveAddress) (us : List Unit) (hb : db.BaseKeyed)
    (hs : Growth allowed db s) (hallowed : ∀ a ∈ addresses, allowed a)
    (h : addresses.mapM loadObject s = (.ok us, t)) :
    Growth allowed db t ∧ (∀ a ∈ addresses, Known a t) ∧ ∀ a, Known a s → Known a t := by
  refine mapM_establishes (Growth allowed db) Known loadObject addresses us s t hs ?_ h
  intro a ha s u t hs hload
  obtain ⟨hgrowth, hsome, hlisted⟩ := loadObject_eq_ok a s t u (hs.baseKeyed hb) hload
  have hstep : Growth allowed s t := hgrowth.weaken fun j hj => hj ▸ hallowed a ha
  refine ⟨hs.trans hstep, ⟨?_, hlisted⟩, fun c hc => hc.growth hstep⟩
  rw [hgrowth.reads]
  exact hsome

/-- All addresses in the type of the object under the id are known. -/
def TypeKnown (db : CachedStore) (id : ObjectID) (t : CachedStore) : Prop :=
  ∀ o info, db.byId id = some o → w.engine.moveObjectInfo o = some info →
    ∀ a ∈ flatAddresses info.ty, Known a t

theorem loadInnerTypes_eq_ok (db db' : CachedStore) (u : Unit) (hb : db.BaseKeyed)
    (h : loadInnerTypes w db = (.ok u, db')) :
    Growth (TypeAddress w db) db db' ∧ ∀ id ∈ listObjects db, TypeKnown w db id db' := by
  obtain ⟨ids, s₁, hids, h⟩ := (bind_eq_ok _ _ _ _ _).mp h
  obtain ⟨us, s₂, hloop, h⟩ := (bind_eq_ok _ _ _ _ _).mp h
  obtain ⟨-, rfl⟩ := (pure_eq_ok _ _ _ _).mp h
  cases (reading_eq_ok _ _ _ _).mp hids
  have hrun := mapM_establishes (Growth (TypeAddress w db) db) (TypeKnown w db) _ (listObjects db) us
    db s₂ (Growth.refl _ db) ?_ hloop
  · exact ⟨hrun.1, hrun.2.1⟩
  · intro id hid s v t hs hround
    obtain ⟨r, s₁, hr, hround⟩ := (bind_eq_ok _ _ _ _ _).mp hround
    obtain ⟨rfl, rfl⟩ := exec_getObject_eq_ok id s s₁ r hr
    have hread := hs.getObject hb id (.inl hid)
    rw [hs.reads id] at hround
    cases hinfo : (db.byId id).bind w.engine.moveObjectInfo with
    | none =>
      rw [hinfo] at hround
      obtain ⟨-, rfl⟩ := (pure_eq_ok _ _ _ _).mp hround
      refine ⟨hs.trans hread, fun o info ho hi => ?_, fun c hc o info ho hi a ha => ?_⟩
      · rw [ho, Option.bind_some, hi] at hinfo
        cases hinfo
      · exact (hc o info ho hi a ha).growth hread
    | some info =>
      rw [hinfo] at hround
      obtain ⟨o, ho, hi⟩ := Option.bind_eq_some_iff.mp hinfo
      obtain ⟨us, s₂, hload, hround⟩ := (bind_eq_ok _ _ _ _ _).mp hround
      obtain ⟨-, rfl⟩ := (pure_eq_ok _ _ _ _).mp hround
      obtain ⟨hgrowth, hknown, hkeep⟩ := loadTypes_eq_ok (TypeAddress w db) db _ s₂
        (flatAddresses info.ty) us hb (hs.trans hread)
        (fun a ha => ⟨id, hid, o, info, ho, hi, ha⟩) hload
      refine ⟨hgrowth, fun o' info' ho' hi' a ha => ?_, fun c hc o info ho hi a ha => ?_⟩
      · rw [ho] at ho'
        obtain rfl := Option.some.inj ho'
        rw [hi] at hi'
        obtain rfl := Option.some.inj hi'
        exact hknown a ha
      · exact hkeep a ((hc o info ho hi a ha).growth hread)

theorem TypeAddress.growth {allowed : ObjectID → Prop} {a : MoveAddress} {s t : CachedStore}
    (h : TypeAddress w s a) (hg : Growth allowed s t) : TypeAddress w t a := by
  obtain ⟨id, hid, o, info, ho, hi, ha⟩ := h
  exact ⟨id, hg.retains id hid, o, info, (hg.reads id).trans ho, hi, ha⟩

/-! ### The environment that was built -/

def SameStore (s t : CachedStore) : Prop := t.store = s.store

instance : Std.Refl SameStore := ⟨fun _ => rfl⟩

instance : IsTrans CachedStore SameStore := ⟨fun _ _ _ hst htu => htu.trans hst⟩

theorem within_exec_getObject (id : ObjectID) :
    Within SameStore (Load.exec (Exec.getObject id)) := fun s => CachedStore.store_getObject s id

theorem within_loadInnerTypes : Within SameStore (loadInnerTypes w) := by
  refine within_bind _ _ (fun _ => rfl) fun ids => within_bind _ _ ?_ fun _ => within_pure _
  refine within_mapM _ _ fun id => within_bind _ _ (within_exec_getObject id) fun object => ?_
  split
  · refine within_bind _ _ ?_ fun _ => within_pure _
    exact within_mapM _ _ fun a => within_bind _ _ (within_exec_getObject a) fun _ =>
      within_bind _ _ (within_orElse _ _) fun _ => within_pure _
  · exact within_pure _

/-- An environment that was built knows the packages of all its types: each address
in the type of a listed object reads as an object and is listed itself. This rests
on addresses in types naming packages, whose own types there are none of; the loop
does not come back to what it has loaded. -/
theorem build_env_types_known [DecidableEq Path] (deployer attacker gas : MoveAddress)
    (args : SuiTargetArgs Path) (db db' : CachedStore) (result : DeployResult) (hb : db'.BaseKeyed)
    (hpackages : ∀ a o, TypeAddress w db' a → db'.byId a = some o →
      w.engine.moveObjectInfo o = none)
    (h : buildEnv w deployer attacker gas args db = (.ok result, db')) (a : MoveAddress)
    (ha : TypeAddress w db' a) : Known a db' := by
  obtain ⟨_, s₁, -, h⟩ := (bind_eq_ok _ _ _ _ _).mp h
  obtain ⟨_, s₂, -, h⟩ := (bind_eq_ok _ _ _ _ _).mp h
  obtain ⟨_, s₃, -, h⟩ := (bind_eq_ok _ _ _ _ _).mp h
  obtain ⟨pins, s₄, -, h⟩ := (bind_eq_ok _ _ _ _ _).mp h
  obtain ⟨st, s₅, -, h⟩ := (bind_eq_ok _ _ _ _ _).mp h
  by_cases hun : (pins.entries.map Prod.fst).filter (fun name => name ∉ st.pinnedSeen) = []
  · simp only [hun, if_true] at h
    obtain ⟨_, s₆, hinner, h⟩ := (bind_eq_ok _ _ _ _ _).mp h
    obtain ⟨-, rfl⟩ := (pure_eq_ok _ _ _ _).mp h
    have hstore : s₆.store = s₅.store := (within_loadInnerTypes w).of_ok s₅ s₆ _ hinner
    have hb₅ : s₅.BaseKeyed := by
      intro id o ho
      rw [← hstore] at ho
      exact hb id o ho
    obtain ⟨hgrowth, hknown⟩ := loadInnerTypes_eq_ok w s₅ s₆ _ hb₅ hinner
    obtain ⟨id, hid, o, info, ho, hi, hin⟩ := ha
    have ho₅ : s₅.byId id = some o := by rw [← hgrowth.reads, ho]
    rcases hgrowth.introduced id hid with hold | hold
    · exact hknown id hold o info ho₅ hi a hin
    · -- loaded by the loop itself, so it is a package
      have hnone := hpackages id o (hold.growth w hgrowth) ho
      rw [hi] at hnone
      cases hnone
  · simp only [hun, if_false] at h
    exact absurd h (throw_ne_ok _ _ _ _)

/-- The sample deployment, whose upgrade cap has a type of the package itself. -/
def typedWorkspace : Workspace Unit :=
  { sampleWorkspace with engine := { sampleEngine with
    moveObjectInfo := fun o =>
      if o.id = ObjectID.ofByte 8 then
        some ⟨o.id, .struct (ObjectID.ofByte 7) "vault" "Cap" [], .immutable, o.version, []⟩
      else if o.id = ObjectID.ofByte 7 then none
      else some ⟨o.id, .bool, .addressOwner (ObjectID.ofByte 1), o.version, []⟩ } }

theorem typedWorkspace_addresses (o : Object) (info : Fuzz.MoveObjectInfo)
    (h : typedWorkspace.engine.moveObjectInfo o = some info) (a : MoveAddress)
    (ha : a ∈ flatAddresses info.ty) : a = ObjectID.ofByte 7 := by
  simp only [typedWorkspace] at h
  split_ifs at h with hcap hpackage
  · cases h
    simpa only [flatAddresses, flatAddressesList, List.nil_append, List.mem_singleton] using ha
  · cases h
    exact absurd ha List.not_mem_nil

theorem build_env_types_known_vault : ∃ result db',
    buildEnv typedWorkspace (ObjectID.ofByte 1) (ObjectID.ofByte 3) (ObjectID.ofByte 2) sampleArgs
      sampleDb = (.ok result, db') ∧ Known (ObjectID.ofByte 7) db' := by
  have hok : ((buildEnv typedWorkspace (ObjectID.ofByte 1) (ObjectID.ofByte 3)
      (ObjectID.ofByte 2) sampleArgs sampleDb).1.isOk) = true := by decide
  have hstore : (buildEnv typedWorkspace (ObjectID.ofByte 1) (ObjectID.ofByte 3)
      (ObjectID.ofByte 2) sampleArgs sampleDb).2.store = EmptyStore := rfl
  have hlisted : listObjects (buildEnv typedWorkspace (ObjectID.ofByte 1) (ObjectID.ofByte 3)
      (ObjectID.ofByte 2) sampleArgs sampleDb).2 =
        [ObjectID.ofByte 2, ObjectID.ofByte 7, ObjectID.ofByte 8] := by decide
  have hcap : (buildEnv typedWorkspace (ObjectID.ofByte 1) (ObjectID.ofByte 3)
      (ObjectID.ofByte 2) sampleArgs sampleDb).2.byId (ObjectID.ofByte 8) =
        some ⟨ObjectID.ofByte 8, 1, .move []⟩ := by decide
  have hpackage : (buildEnv typedWorkspace (ObjectID.ofByte 1) (ObjectID.ofByte 3)
      (ObjectID.ofByte 2) sampleArgs sampleDb).2.byId (ObjectID.ofByte 7) =
        some (samplePackage 7 []) := by decide
  rcases hrun : buildEnv typedWorkspace (ObjectID.ofByte 1) (ObjectID.ofByte 3)
    (ObjectID.ofByte 2) sampleArgs sampleDb with ⟨r, db'⟩
  rw [hrun] at hok hstore hlisted hcap hpackage
  cases r with
  | error e => cases hok
  | ok result =>
    refine ⟨result, db', rfl, build_env_types_known typedWorkspace _ _ _ sampleArgs sampleDb db'
      result ?_ ?_ hrun (ObjectID.ofByte 7) ?_⟩
    · intro id o ho
      rw [hstore] at ho
      cases ho
    · intro a o ha ho
      obtain ⟨id, -, p, info, -, hi, hin⟩ := ha
      obtain rfl := typedWorkspace_addresses p info hi a hin
      rw [hpackage] at ho
      obtain rfl := Option.some.inj ho
      rfl
    · exact ⟨ObjectID.ofByte 8, by rw [hlisted]; decide, _, _, hcap, rfl, by decide⟩

end Movy.Replay
