import Mathlib.Order.Bounds.Defs
import Movy.Store.Backing
import Movy.Store.Rocks

/-!
# Bounded lookup in the persistent cache

`get_object_upperbound` scans the keys from the first of an id on and leaves at the
first key of another id or above the bound. Keys are in the order of ids, and in that
of versions for one id, so nothing is missed and nothing else is found.
-/

namespace Movy.Store

/-- The versions of exactly this id that are stored. -/
def storedVersions (db : ObjectsDb) (id : ObjectID) : Set SequenceNumber :=
  {v | (db.get? (keyEncode id v)).isSome = true}

theorem isGreatest_of_dbNewest (db : ObjectsDb) (id : ObjectID) (b u : SequenceNumber) (o : Object)
    (h : DbNewest db id b u o) : IsGreatest (storedVersions db id ∩ Set.Iic b) u := by
  obtain ⟨hub, hget, hmax⟩ := h
  refine ⟨⟨Option.isSome_of_eq_some hget, hub⟩, ?_⟩
  intro w hw
  by_contra hlt
  have hstored : (db.get? (keyEncode id w)).isSome = true := hw.1
  rw [hmax w hw.2 (not_le.mp hlt)] at hstored
  cases hstored

theorem dbNewest_of_isGreatest (db : ObjectsDb) (id : ObjectID) (b u : SequenceNumber) (o : Object)
    (h : IsGreatest (storedVersions db id ∩ Set.Iic b) u)
    (hget : db.get? (keyEncode id u) = some o) : DbNewest db id b u o := by
  refine ⟨h.1.2, hget, ?_⟩
  intro w hwb hlt
  cases hw : db.get? (keyEncode id w) with
  | none => rfl
  | some o' =>
    have hle := h.2 ⟨Option.isSome_of_eq_some hw, hwb⟩
    exact absurd hlt (not_lt.mpr hle)

theorem upperbound_isGreatest (self : RocksCachedStore) (hk : VersionKeys self.db) (id : ObjectID)
    (b : SequenceNumber) (o : Object) :
    self.getObjectUpperbound id b = some o ↔
      ∃ u, IsGreatest (storedVersions self.db id ∩ Set.Iic b) u ∧
        self.db.get? (keyEncode id u) = some o := by
  constructor
  · intro h
    have hs := upperbound_spec self hk id b
    rw [h] at hs
    obtain ⟨u, hu⟩ := hs
    exact ⟨u, isGreatest_of_dbNewest self.db id b u o hu, hu.2.1⟩
  · intro h
    obtain ⟨u, hgreatest, hget⟩ := h
    exact upperbound_eq_some self hk id b u o
      (dbNewest_of_isGreatest self.db id b u o hgreatest hget)

theorem upperbound_none_iff (self : RocksCachedStore) (hk : VersionKeys self.db) (id : ObjectID)
    (b : SequenceNumber) :
    self.getObjectUpperbound id b = none ↔ storedVersions self.db id ∩ Set.Iic b = ∅ := by
  have hempty : storedVersions self.db id ∩ Set.Iic b = ∅ ↔
      ∀ u, u ≤ b → self.db.get? (keyEncode id u) = none := by
    rw [Set.eq_empty_iff_forall_notMem]
    constructor
    · intro h u hub
      rw [← Option.not_isSome_iff_eq_none]
      exact fun hstored => h u ⟨hstored, hub⟩
    · intro h u hu
      have hstored : (self.db.get? (keyEncode id u)).isSome = true := hu.1
      rw [h u hu.2] at hstored
      cases hstored
  rw [hempty]
  constructor
  · intro h
    have hs := upperbound_spec self hk id b
    rwa [h] at hs
  · exact upperbound_eq_none self hk id b

/-- A bounded lookup finds the greatest stored version of exactly the id that is not above the
bound, and nothing if there is none; without a bound it finds the greatest version of all. -/
theorem getObjectUpperbound_exact (self : RocksCachedStore) (hkeys : VersionKeys self.db)
    (id : ObjectID) (upperbound : SequenceNumber) :
    (∀ o, self.getObjectUpperbound id upperbound = some o ↔
      ∃ v, IsGreatest (storedVersions self.db id ∩ Set.Iic upperbound) v ∧
        self.db.get? (keyEncode id v) = some o) ∧
    (self.getObjectUpperbound id upperbound = none ↔
      storedVersions self.db id ∩ Set.Iic upperbound = ∅) ∧
    (∀ o, self.getObjectByIdDb id = some o ↔
      ∃ v, IsGreatest (storedVersions self.db id) v ∧ self.db.get? (keyEncode id v) = some o) ∧
    (self.getObjectByIdDb id = none ↔ storedVersions self.db id = ∅) := by
  have hall : storedVersions self.db id ∩ Set.Iic u64Max = storedVersions self.db id :=
    Set.inter_eq_left.mpr fun v _ => le_u64Max v
  have hsome := upperbound_isGreatest self hkeys id u64Max
  have hnone := upperbound_none_iff self hkeys id u64Max
  rw [hall] at hsome hnone
  exact ⟨upperbound_isGreatest self hkeys id upperbound,
    upperbound_none_iff self hkeys id upperbound, hsome, hnone⟩

/-- The first and the last version of one object, and a version of its neighbour. -/
def edgeDb : ObjectsDb :=
  ((SortedMap.empty.insert (keyEncode (ObjectID.ofByte 7) 0) (sampleObject 0 [])).insert
    (keyEncode (ObjectID.ofByte 7) u64Max) (sampleObject u64Max [1])).insert
    (keyEncode (ObjectID.ofByte 8) 2) ⟨ObjectID.ofByte 8, 2, .move []⟩

theorem edgeDb_versionKeys : VersionKeys edgeDb :=
  (dbKeyed_insert _ (dbKeyed_insert _ (dbKeyed_insert _ dbKeyed_empty (sampleObject 0 []))
    (sampleObject u64Max [1])) ⟨ObjectID.ofByte 8, 2, .move []⟩).versionKeys

/-- The bound separates the two versions, and the neighbour ends the scan. -/
theorem getObjectUpperbound_exact_edge :
    (∃ v, IsGreatest (storedVersions edgeDb (ObjectID.ofByte 7) ∩ Set.Iic 5) v ∧
      edgeDb.get? (keyEncode (ObjectID.ofByte 7) v) = some (sampleObject 0 [])) ∧
    ∃ v, IsGreatest (storedVersions edgeDb (ObjectID.ofByte 7)) v ∧
      edgeDb.get? (keyEncode (ObjectID.ofByte 7) v) = some (sampleObject u64Max [1]) := by
  have hlookup := fun b => getObjectUpperbound_exact ⟨edgeDb, false, twoVersions⟩ edgeDb_versionKeys
    (ObjectID.ofByte 7) b
  exact ⟨((hlookup 5).1 _).mp rfl, ((hlookup 5).2.2.1 _).mp rfl⟩

end Movy.Store
