import Movy.Store.Object

/-!
# The in-memory object cache (`movy-sui/src/database/cache.rs`)

`CachedSnapshot` maps an id and a version to an object or to nothing, where
"nothing" is recorded on purpose: a tombstone left by a commit, or the answer
of a bounded read that found no object. `CachedStore` answers from the
snapshot and falls back to the backing store, recording what it fetched.
-/

namespace Movy.Store

structure CachedSnapshot where
  objects : SortedMap ObjectID (SortedMap SequenceNumber (Option Object))

inductive ResolvedResult where
  | unbound
  | knownNotExisting
  | existing (object : Object)

def ResolvedResult.intoObject : ResolvedResult → Option Object
  | .unbound => none
  | .knownNotExisting => none
  | .existing obj => some obj

namespace CachedSnapshot

def default : CachedSnapshot := ⟨SortedMap.empty⟩

def objectExactVersion (self : CachedSnapshot) (object : ObjectID) (version : SequenceNumber) :
    Option Object :=
  ((self.objects.get? object).bind fun t => t.get? version).join

/-- The entry of greatest version in `0..=upbound`, if any. -/
def objectResolveUpperboundDetails (self : CachedSnapshot) (object : ObjectID)
    (upbound : SequenceNumber) : ResolvedResult :=
  match self.objects.get? object with
  | none => .unbound
  | some vmap => match vmap.floor upbound with
    | some (_, some obj) => .existing obj
    | some (_, none) => .knownNotExisting
    | none => .unbound

def objectResolvedUpperbound (self : CachedSnapshot) (object : ObjectID)
    (upbound : SequenceNumber) : Option Object :=
  (self.objectResolveUpperboundDetails object upbound).intoObject

def objectIdCached (self : CachedSnapshot) (object : ObjectID) : Option Object :=
  self.objectResolvedUpperbound object u64Max

def cacheQuery (self : CachedSnapshot) (objectId : ObjectID) (version : SequenceNumber)
    (object : Option Object) : CachedSnapshot :=
  ⟨self.objects.insert objectId
    (((self.objects.get? objectId).getD SortedMap.empty).insert version object)⟩

def cacheObjectOnly (self : CachedSnapshot) (object : Object) : CachedSnapshot :=
  self.cacheQuery object.id object.version (some object)

end CachedSnapshot

/-! ### The passes of `commit_store` -/

/-- The `filter_map` over `store.input_objects.remove`: an object reference
survives if its id is still among the inputs, and takes the input with it. -/
def removeInputs : SortedMap ObjectID Object → List ObjectRef →
    List (ObjectID × SequenceNumber) × SortedMap ObjectID Object
  | inputs, [] => ([], inputs)
  | inputs, oref :: rest => match inputs.get? oref.1 with
    | some _ =>
      let r := removeInputs (inputs.erase oref.1) rest
      ((oref.1, oref.2.1) :: r.1, r.2)
    | none => removeInputs inputs rest

/-- Deleted, then transferred, then re-owned objects, as the source chains them. -/
def removedRefs (effects : TransactionEffects) : List ObjectRef :=
  effects.deleted ++ effects.transferredFromConsensus ++ effects.consensusOwnerChanged

/-- The ids of the stream-ended objects of the last pass. `none` is the
`expect` on an id that is in neither of the two maps. -/
def streamEndedIds (store : InnerTemporaryStore) (inputs : SortedMap ObjectID Object) :
    List ObjectID → Option (List ObjectID)
  | [] => some []
  | objectId :: rest => do
    let id ← match inputs.get? objectId with
      | some obj => some obj.id
      | none => (store.streamEndedConsensusObjects.get? objectId).map fun _ => objectId
    let ids ← streamEndedIds store inputs rest
    some (id :: ids)

/-- The tombstones that the second pass of `commit_store` writes. -/
def tombstones (store : InnerTemporaryStore) (effects : TransactionEffects) :
    List (ObjectID × SequenceNumber) :=
  (removeInputs store.inputObjects (removedRefs effects)).1

/-- The ids that the third pass removes; `none` if it panics. -/
def endedIds (store : InnerTemporaryStore) (effects : TransactionEffects) :
    Option (List ObjectID) :=
  streamEndedIds store (removeInputs store.inputObjects (removedRefs effects)).2
    effects.streamEndedMutablyAccessedConsensusObjects

/-- The ids of the last pass up to where it panics, if it does. -/
def streamEndedBefore (store : InnerTemporaryStore) (inputs : SortedMap ObjectID Object) :
    List ObjectID → List ObjectID
  | [] => []
  | objectId :: rest => match inputs.get? objectId with
    | some obj => obj.id :: streamEndedBefore store inputs rest
    | none => match store.streamEndedConsensusObjects.get? objectId with
      | some _ => objectId :: streamEndedBefore store inputs rest
      | none => []

def endedBefore (store : InnerTemporaryStore) (effects : TransactionEffects) : List ObjectID :=
  streamEndedBefore store (removeInputs store.inputObjects (removedRefs effects)).2
    effects.streamEndedMutablyAccessedConsensusObjects

/-! ### The store -/

structure CachedStore where
  inner : CachedSnapshot
  store : BackingStore

namespace CachedStore

def new (db : BackingStore) : CachedStore := ⟨CachedSnapshot.default, db⟩

def getPackageObject (self : CachedStore) (packageId : ObjectID) :
    SuiResult (Option PackageObject) × CachedStore :=
  match self.inner.objectIdCached packageId with
  | some hit => (.ok (some ⟨hit⟩), self)
  | none => match self.store.getPackageObject packageId with
    | .error e => (.error e, self)
    | .ok none => (.ok none, self)
    | .ok (some hit) =>
      (.ok (some hit), { self with inner := self.inner.cacheObjectOnly hit.object })

def getObject (self : CachedStore) (objectId : ObjectID) : Option Object × CachedStore :=
  match self.inner.objectIdCached objectId with
  | some hit => (some hit, self)
  | none => match self.store.getObject objectId with
    | none => (none, self)
    | some hit => (some hit, { self with inner := self.inner.cacheObjectOnly hit })

def getObjectByKey (self : CachedStore) (objectId : ObjectID) (version : SequenceNumber) :
    Option Object × CachedStore :=
  match self.inner.objectExactVersion objectId version with
  | some hit => (some hit, self)
  | none => match self.store.getObjectByKey objectId version with
    | none => (none, self)
    | some hit => (some hit, { self with inner := self.inner.cacheObjectOnly hit })

def getObjectReceivedAtVersion (self : CachedStore) (owner receivingObjectId : ObjectID)
    (receiveObjectAtVersion : SequenceNumber) (epochId : EpochId) :
    SuiResult (Option Object) × CachedStore :=
  match self.inner.objectExactVersion receivingObjectId receiveObjectAtVersion with
  | some hit => (.ok (some hit), self)
  | none =>
    match self.store.getObjectReceivedAtVersion owner receivingObjectId
        receiveObjectAtVersion epochId with
    | .error e => (.error e, self)
    | .ok none => (.ok none, self)
    | .ok (some hit) => (.ok (some hit), { self with inner := self.inner.cacheObjectOnly hit })

def readChildMiss (self : CachedStore) (parent child : ObjectID)
    (childVersionUpperBound : SequenceNumber) : SuiResult (Option Object) × CachedStore :=
  match self.store.readChildObject parent child childVersionUpperBound with
  | .error e => (.error e, self)
  | .ok (some hit) => (.ok (some hit), { self with inner := self.inner.cacheObjectOnly hit })
  | .ok none =>
    (.ok none, { self with inner := self.inner.cacheQuery child childVersionUpperBound none })

def readChildObject (self : CachedStore) (parent child : ObjectID)
    (childVersionUpperBound : SequenceNumber) : SuiResult (Option Object) × CachedStore :=
  match self.inner.objectResolveUpperboundDetails child childVersionUpperBound with
  | .knownNotExisting => (.ok none, self)
  | .existing hit =>
    if hit.version = childVersionUpperBound then (.ok (some hit), self)
    else self.readChildMiss parent child childVersionUpperBound
  | .unbound => self.readChildMiss parent child childVersionUpperBound

def commitSingleObject (self : CachedStore) (object : Object) : CachedStore :=
  { self with inner := self.inner.cacheObjectOnly object }

def commitWritten (inner : CachedSnapshot) (store : InnerTemporaryStore) : CachedSnapshot :=
  store.written.entries.foldl (fun s e => s.cacheObjectOnly e.2) inner

def commitTombstones (inner : CachedSnapshot) (keys : List (ObjectID × SequenceNumber)) :
    CachedSnapshot :=
  keys.foldl (fun s k => s.cacheQuery k.1 k.2 none) inner

/-- `none` is the panic of the last pass. -/
def commitStore (self : CachedStore) (store : InnerTemporaryStore)
    (effects : TransactionEffects) : Option CachedStore := do
  let written := commitWritten self.inner store
  let removed := commitTombstones written (tombstones store effects)
  let ids ← endedIds store effects
  let ended := commitTombstones removed (ids.map fun id => (id, store.lamportVersion))
  some { self with inner := ended }

/-- What that panic leaves behind: the first two passes are through, the last one as far as
before the id that is in neither map. -/
def commitStorePanicked (self : CachedStore) (store : InnerTemporaryStore)
    (effects : TransactionEffects) : CachedStore :=
  let written := commitWritten self.inner store
  let removed := commitTombstones written (tombstones store effects)
  let ended := (endedBefore store effects).map fun id => (id, store.lamportVersion)
  { self with inner := commitTombstones removed ended }

end CachedStore

/-! ### Entries of a snapshot -/

namespace CachedSnapshot

/-- Everything below is stated through `entry`: what the snapshot records at
one id and version, if anything. -/
def entry (s : CachedSnapshot) (id : ObjectID) (v : SequenceNumber) : Option (Option Object) :=
  (s.objects.get? id).bind fun t => t.get? v

/-- `x` stands at version `u`, the newest recorded version up to `b`. -/
def Newest (s : CachedSnapshot) (id : ObjectID) (b u : SequenceNumber) (x : Option Object) : Prop :=
  u ≤ b ∧ s.entry id u = some x ∧ ∀ w, w ≤ b → u < w → s.entry id w = none

/-- Every recorded object is filed under its own id and version. -/
def WellKeyed (s : CachedSnapshot) : Prop :=
  ∀ id v o, s.entry id v = some (some o) → o.id = id ∧ o.version = v

theorem entry_default (id : ObjectID) (v : SequenceNumber) : default.entry id v = none := rfl

theorem objectExactVersion_eq (s : CachedSnapshot) (id : ObjectID) (v : SequenceNumber) :
    s.objectExactVersion id v = (s.entry id v).join := rfl

theorem entry_cacheQuery (s : CachedSnapshot) (id j : ObjectID) (v w : SequenceNumber)
    (o : Option Object) :
    (s.cacheQuery id v o).entry j w = if j = id ∧ w = v then some o else s.entry j w := by
  simp only [entry, cacheQuery, SortedMap.get?_insert]
  by_cases hj : j = id
  · subst hj
    simp only [if_pos, Option.bind_some, SortedMap.get?_insert, true_and]
    cases hm : s.objects.get? j with
    | none => simp
    | some m => simp
  · simp [hj]

theorem entry_cacheObjectOnly (s : CachedSnapshot) (o : Object) (j : ObjectID)
    (w : SequenceNumber) :
    (s.cacheObjectOnly o).entry j w =
      if j = o.id ∧ w = o.version then some (some o) else s.entry j w :=
  entry_cacheQuery s o.id j o.version w (some o)

theorem newest_unique (s : CachedSnapshot) (id : ObjectID) (b u u' : SequenceNumber)
    (x x' : Option Object) (h : s.Newest id b u x) (h' : s.Newest id b u' x') :
    u = u' ∧ x = x' := greatest_unique (s.entry id) b u u' x x' h h'

/-- The bounded lookup in terms of entries: one lemma for the three outcomes. -/
theorem resolve_spec (s : CachedSnapshot) (id : ObjectID) (b : SequenceNumber) :
    match s.objectResolveUpperboundDetails id b with
    | .existing o => ∃ u, s.Newest id b u (some o)
    | .knownNotExisting => ∃ u, s.Newest id b u none
    | .unbound => ∀ u, u ≤ b → s.entry id u = none := by
  cases hm : s.objects.get? id with
  | none =>
    simp only [objectResolveUpperboundDetails, hm]
    intro u _
    simp [entry, hm]
  | some vmap =>
    have hent : ∀ u, s.entry id u = vmap.get? u := fun u => by simp [entry, hm]
    cases hf : vmap.floor b with
    | none =>
      simp only [objectResolveUpperboundDetails, hm, hf]
      intro u hu
      rw [hent]
      exact (SortedMap.floor_eq_none vmap b).mp hf u hu
    | some e =>
      obtain ⟨u, x⟩ := e
      obtain ⟨hv, hub, hmax⟩ := (SortedMap.floor_eq_some vmap b u x).mp hf
      have hn : s.Newest id b u x :=
        ⟨hub, by rw [hent]; exact hv, fun w hw hlt => by rw [hent]; exact hmax w hw hlt⟩
      cases x with
      | none =>
        simp only [objectResolveUpperboundDetails, hm, hf]
        exact ⟨u, hn⟩
      | some o =>
        simp only [objectResolveUpperboundDetails, hm, hf]
        exact ⟨u, hn⟩

theorem resolve_existing (s : CachedSnapshot) (id : ObjectID) (b u : SequenceNumber) (o : Object)
    (h : s.Newest id b u (some o)) : s.objectResolveUpperboundDetails id b = .existing o := by
  have hs := resolve_spec s id b
  cases hr : s.objectResolveUpperboundDetails id b with
  | existing o' =>
    rw [hr] at hs
    obtain ⟨u', hu'⟩ := hs
    have he := (newest_unique s id b u u' (some o) (some o') h hu').2
    rw [Option.some.inj he]
  | knownNotExisting =>
    rw [hr] at hs
    obtain ⟨u', hu'⟩ := hs
    exact absurd (newest_unique s id b u u' (some o) none h hu').2 (by simp)
  | unbound =>
    rw [hr] at hs
    have he := h.2.1
    rw [hs u h.1] at he
    simp at he

theorem resolve_knownNotExisting (s : CachedSnapshot) (id : ObjectID) (b u : SequenceNumber)
    (h : s.Newest id b u none) : s.objectResolveUpperboundDetails id b = .knownNotExisting := by
  have hs := resolve_spec s id b
  cases hr : s.objectResolveUpperboundDetails id b with
  | existing o' =>
    rw [hr] at hs
    obtain ⟨u', hu'⟩ := hs
    exact absurd (newest_unique s id b u u' none (some o') h hu').2 (by simp)
  | knownNotExisting => rfl
  | unbound =>
    rw [hr] at hs
    have he := h.2.1
    rw [hs u h.1] at he
    simp at he

theorem newest_or_unbound (s : CachedSnapshot) (id : ObjectID) (b : SequenceNumber) :
    (∀ u, u ≤ b → s.entry id u = none) ∨ ∃ u x, s.Newest id b u x := by
  have hs := resolve_spec s id b
  cases hr : s.objectResolveUpperboundDetails id b with
  | existing o =>
    rw [hr] at hs
    obtain ⟨u, hu⟩ := hs
    exact Or.inr ⟨u, some o, hu⟩
  | knownNotExisting =>
    rw [hr] at hs
    obtain ⟨u, hu⟩ := hs
    exact Or.inr ⟨u, none, hu⟩
  | unbound =>
    rw [hr] at hs
    exact Or.inl hs

theorem wellKeyed_default : default.WellKeyed := by
  intro id v o h
  rw [entry_default] at h
  simp at h

theorem wellKeyed_cacheObjectOnly (s : CachedSnapshot) (o : Object) (h : s.WellKeyed) :
    (s.cacheObjectOnly o).WellKeyed := by
  intro id v o' he
  rw [entry_cacheObjectOnly] at he
  split_ifs at he with hc
  · obtain rfl := Option.some.inj (Option.some.inj he)
    exact ⟨hc.1.symm, hc.2.symm⟩
  · exact h id v o' he

theorem wellKeyed_cacheQuery_none (s : CachedSnapshot) (id : ObjectID) (v : SequenceNumber)
    (h : s.WellKeyed) : (s.cacheQuery id v none).WellKeyed := by
  intro j w o he
  rw [entry_cacheQuery] at he
  split_ifs at he
  · simp at he
  · exact h j w o he

end CachedSnapshot

/-! ### Entries after the passes of `commit_store` -/

namespace CachedStore

open CachedSnapshot

theorem entry_foldl_written (l : List (ObjectID × Object)) (s : CachedSnapshot)
    (hs : l.Pairwise fun a b => a.1 < b.1) (hk : ∀ e ∈ l, e.2.id = e.1)
    (id : ObjectID) (v : SequenceNumber) :
    (l.foldl (fun s e => s.cacheObjectOnly e.2) s).entry id v =
      match rawLookup id l with
      | some o => if v = o.version then some (some o) else s.entry id v
      | none => s.entry id v := by
  induction l generalizing s with
  | nil => rfl
  | cons e es ih =>
    obtain ⟨he, hes⟩ := List.pairwise_cons.mp hs
    have hke := hk e (List.mem_cons_self ..)
    rw [List.foldl_cons, ih _ hes (fun a ha => hk a (List.mem_cons_of_mem _ ha)), rawLookup]
    by_cases hid : id = e.1
    · have hno : rawLookup id es = none := lookup_eq_none es id (hid ▸ he)
      rw [hno, if_pos hid]
      simp only [entry_cacheObjectOnly, hke, hid, true_and]
    · simp only [entry_cacheObjectOnly, hke, hid, false_and, if_false]

theorem entry_commitWritten (s : CachedSnapshot) (store : InnerTemporaryStore)
    (id : ObjectID) (v : SequenceNumber) :
    (commitWritten s store).entry id v =
      match store.written.get? id with
      | some o => if v = o.version then some (some o) else s.entry id v
      | none => s.entry id v :=
  entry_foldl_written store.written.entries s store.written.sorted
    (fun e he => store.written_keyed e.1 e.2 ((SortedMap.mem_entries _ _ _).mp he)) id v

theorem entry_commitTombstones (s : CachedSnapshot) (keys : List (ObjectID × SequenceNumber))
    (id : ObjectID) (v : SequenceNumber) :
    (commitTombstones s keys).entry id v = if (id, v) ∈ keys then some none else s.entry id v := by
  induction keys generalizing s with
  | nil => rfl
  | cons k ks ih =>
    have hstep : commitTombstones s (k :: ks) = commitTombstones (s.cacheQuery k.1 k.2 none) ks := rfl
    rw [hstep, ih, entry_cacheQuery]
    by_cases hk : (id, v) ∈ ks
    · simp [hk]
    · by_cases he : (id, v) = k
      · simp [← he]
      · have hne : ¬(id = k.1 ∧ v = k.2) := fun h => he (Prod.ext h.1 h.2)
        simp [hk, he, hne]

def emptied (store : InnerTemporaryStore) (effects : TransactionEffects) (ids : List ObjectID) :
    List (ObjectID × SequenceNumber) :=
  tombstones store effects ++ ids.map fun id => (id, store.lamportVersion)

theorem commitStore_cases (self next : CachedStore) (store : InnerTemporaryStore)
    (effects : TransactionEffects) (h : self.commitStore store effects = some next) :
    ∃ ids, endedIds store effects = some ids ∧ next.store = self.store ∧
      ∀ id v, next.inner.entry id v =
        if (id, v) ∈ emptied store effects ids then some none
        else (commitWritten self.inner store).entry id v := by
  simp only [commitStore, Option.bind_eq_bind] at h
  obtain ⟨ids, hids, hnext⟩ := Option.bind_eq_some_iff.mp h
  refine ⟨ids, hids, ?_, ?_⟩
  · rw [← Option.some.inj hnext]
  · intro id v
    rw [← Option.some.inj hnext]
    simp only [entry_commitTombstones, emptied, List.mem_append]
    by_cases h1 : (id, v) ∈ ids.map fun id => (id, store.lamportVersion)
    · simp [h1]
    · by_cases h2 : (id, v) ∈ tombstones store effects
      · simp [h2]
      · simp [h1, h2]

theorem wellKeyed_commitStore (self next : CachedStore) (store : InnerTemporaryStore)
    (effects : TransactionEffects) (h : self.commitStore store effects = some next)
    (hk : self.inner.WellKeyed) : next.inner.WellKeyed := by
  obtain ⟨ids, _, _, hent⟩ := commitStore_cases self next store effects h
  intro id v o he
  rw [hent] at he
  split_ifs at he
  · simp at he
  · rw [entry_commitWritten] at he
    cases hw : store.written.get? id with
    | none =>
      simp only [hw] at he
      exact hk id v o he
    | some o' =>
      simp only [hw] at he
      split_ifs at he with hv
      · obtain rfl := Option.some.inj (Option.some.inj he)
        exact ⟨store.written_keyed id o' hw, hv.symm⟩
      · exact hk id v o he

end CachedStore

end Movy.Store
