import Movy.Store.Snapshot

/-!
# Moving the persistent store

`dump_snapshot` of the persistent store decodes every key and files the object under
the id and the version that it finds there. The snapshot can be restored into either
store; neither loses anything.
-/

namespace Movy.Store

def ObjectID.ofBytes (bytes : List Byte) : Option ObjectID :=
  if h : bytes.length = 32 then some ⟨bytes, h⟩ else none

/-- `ObjectIDVersionedKey::key_decode`; a key has 40 bytes. -/
def keyDecode (key : List Byte) : Option (ObjectID × SequenceNumber) := do
  let id ← ObjectID.ofBytes (key.take 32)
  if key.length = 40 then some (id, Fin.ofNat (2 ^ 64) (keyDecodeVersion key)) else none

def CachedSnapshot.orInsert (self : CachedSnapshot) (id : ObjectID) (version : SequenceNumber)
    (object : Option Object) : CachedSnapshot :=
  let versions := (self.objects.get? id).getD SortedMap.empty
  ⟨self.objects.insert id
    (if (versions.get? version).isSome then versions else versions.insert version object)⟩

def dumpEntry (snap : CachedSnapshot) (e : List Byte × Object) : Option CachedSnapshot :=
  (keyDecode e.1).map fun key => snap.orInsert key.1 key.2 (some e.2)

/-- `none` is a key that cannot be decoded. -/
def RocksCachedStore.dumpSnapshot (self : RocksCachedStore) : Option CachedSnapshot :=
  self.db.entries.foldlM dumpEntry .default

/-! ### Keys -/

theorem keyDecode_keyEncode (id : ObjectID) (v : SequenceNumber) :
    keyDecode (keyEncode id v) = some (id, v) := by
  have htake : (keyEncode id v).take 32 = id.bytes := by
    rw [keyEncode, ← id.length_bytes, List.take_left]
  have hid : ObjectID.ofBytes id.bytes = some id := dif_pos id.length_bytes
  have hlength : (keyEncode id v).length = 40 := by
    rw [keyEncode, List.length_append, id.length_bytes, length_beBytes]
  have hversion : Fin.ofNat (2 ^ 64) v.val = v := Fin.ofNat_val_eq_self v
  simp only [keyDecode, htake, hid, hlength, keyDecodeVersion_keyEncode, hversion,
    Option.bind_eq_bind, Option.bind_some, if_true]

/-! ### The snapshot -/

theorem CachedSnapshot.entry_orInsert (self : CachedSnapshot) (id j : ObjectID)
    (v w : SequenceNumber) (object : Option Object) :
    (self.orInsert id v object).entry j w =
      (self.entry j w).or (if j = id ∧ w = v then some object else none) := by
  simp only [orInsert, entry, SortedMap.get?_insert]
  by_cases hj : j = id
  · subst hj
    simp only [if_true, Option.bind_some, true_and]
    cases self.objects.get? j with
    | none => by_cases hw : w = v <;> simp [SortedMap.get?_insert, hw]
    | some versions =>
      by_cases hw : w = v
      · subst hw
        cases hget : versions.get? w <;> simp [hget, SortedMap.get?_insert]
      · cases hget : versions.get? v <;> simp [hget, hw, SortedMap.get?_insert]
  · simp [hj]

/-- The pairs of a list whose keys are those of their objects. -/
theorem foldlM_dumpEntry (l : List (List Byte × Object))
    (hkeyed : ∀ e ∈ l, e.1 = keyEncode e.2.id e.2.version) (snap : CachedSnapshot) :
    ∃ snap', l.foldlM dumpEntry snap = some snap' ∧ ∀ id v, snap'.entry id v =
      (snap.entry id v).or ((rawLookup (keyEncode id v) l).map some) := by
  induction l generalizing snap with
  | nil => exact ⟨snap, rfl, fun id v => by simp [rawLookup]⟩
  | cons e rest ih =>
    have hkey := hkeyed e (List.mem_cons_self ..)
    obtain ⟨snap', hrun, hentry⟩ := ih (fun e he => hkeyed e (List.mem_cons_of_mem _ he))
      (snap.orInsert e.2.id e.2.version (some e.2))
    refine ⟨snap', ?_, fun id v => ?_⟩
    · rw [List.foldlM_cons, dumpEntry, hkey, keyDecode_keyEncode]
      exact hrun
    · rw [hentry, CachedSnapshot.entry_orInsert, Option.or_assoc, rawLookup, hkey]
      by_cases hsame : id = e.2.id ∧ v = e.2.version
      · rw [if_pos hsame, if_pos ((keyEncode_inj _ _ _ _).mpr hsame)]
        rfl
      · rw [if_neg hsame, if_neg fun h => hsame ((keyEncode_inj _ _ _ _).mp h)]
        rfl

namespace RocksCachedStore

theorem entry_dumpSnapshot (self : RocksCachedStore) (hk : DbKeyed self.db) :
    ∃ snap, self.dumpSnapshot = some snap ∧ snap.WellKeyed ∧
      ∀ id v, snap.entry id v = (self.stored id v).map some := by
  obtain ⟨snap, hrun, hentry⟩ := foldlM_dumpEntry self.db.entries
    (fun e he => hk e.1 e.2 ((SortedMap.mem_entries _ _ _).mp he)) .default
  have hstored : ∀ id v, snap.entry id v = (self.stored id v).map some := by
    intro id v
    rw [hentry, CachedSnapshot.entry_default, Option.none_or]
    rfl
  refine ⟨snap, hrun, fun id v o h => ?_, hstored⟩
  rw [hstored] at h
  obtain ⟨o', ho', heq⟩ := Option.map_eq_some_iff.mp h
  obtain rfl := Option.some.inj heq
  exact stored_keyed self hk id v o' ho'

theorem db_ext (s t : RocksCachedStore) (hs : DbKeyed s.db) (ht : DbKeyed t.db)
    (h : ∀ id v, s.stored id v = t.stored id v) : s.db = t.db := by
  apply SortedMap.ext_get?
  intro key
  apply Option.ext
  intro o
  constructor
  · intro hget
    have hkey := hs key o hget
    rw [hkey] at hget ⊢
    exact (h o.id o.version).symm.trans hget
  · intro hget
    have hkey := ht key o hget
    rw [hkey] at hget ⊢
    exact (h o.id o.version).trans hget

theorem live_iff (t : RocksCachedStore) (snap : CachedSnapshot)
    (hentry : ∀ id v, snap.entry id v = (t.stored id v).map some) (id : ObjectID)
    (v : SequenceNumber) (o : Object) :
    t.stored id v = some o ↔ snap.entry id v = some (some o) := by
  rw [hentry, Option.map_eq_some_iff]
  simp

theorem restoreSnapshot_entries (t : RocksCachedStore) (hk : DbKeyed t.db) (hro : t.ro = false)
    (snap : CachedSnapshot) (hkeyed : snap.WellKeyed)
    (hentry : ∀ id v, snap.entry id v = (t.stored id v).map some) :
    (new t.store).restoreSnapshot snap = .ok t := by
  obtain ⟨t', hrestore, hstore', hk', hlive⟩ := stored_restoreSnapshot t.store snap hkeyed
  have hdb : t'.db = t.db := by
    refine db_ext t' t hk' hk fun id v => Option.ext fun o => ?_
    rw [hlive, live_iff t snap hentry]
  have hro' : t'.ro = false := by
    have hwritable : (new t.store).ro = false := rfl
    rw [restoreSnapshot, hwritable] at hrestore
    exact Except.ok.inj hrestore ▸ rfl
  have hsame : t' = t := by
    obtain ⟨db, ro, store⟩ := t
    obtain ⟨db', ro', store'⟩ := t'
    simp only at hdb hro hro' hstore'
    rw [hdb, hro, hro', hstore']
  exact hsame ▸ hrestore

end RocksCachedStore

/-- In every history of reads and commits the dump succeeds. It restores to the same
persistent store, also by way of an in-memory store, and to an in-memory store with
the same answers. -/
theorem persistent_dump_round_trip (B : BackingStore) (ops : List Op) (t : RocksCachedStore)
    (hrun : run RocksCachedStore.step (RocksCachedStore.new B) ops = some t) :
    ∃ snap, t.dumpSnapshot = some snap ∧ (RocksCachedStore.new B).restoreSnapshot snap = .ok t ∧
      (RocksCachedStore.new B).restoreSnapshot
        ((CachedStore.new B).restoreSnapshot snap).dumpSnapshot = .ok t ∧
      SameReads (fun r => (t.read r).1)
        (fun r => (((CachedStore.new B).restoreSnapshot snap).read r).1) := by
  obtain ⟨hk, hstore, hro⟩ := RocksCachedStore.run_keeps (RocksCachedStore.new B) t ops
    dbKeyed_empty hrun
  obtain ⟨snap, hdump, hkeyed, hentry⟩ := t.entry_dumpSnapshot hk
  have hB : t.store = B := hstore
  have hrestore : (RocksCachedStore.new B).restoreSnapshot snap = .ok t :=
    hB ▸ t.restoreSnapshot_entries hk hro snap hkeyed hentry
  have hcached : (CachedStore.new B).restoreSnapshot snap = ⟨snap, B⟩ :=
    CachedStore.restoreSnapshot_dumpSnapshot ⟨snap, B⟩
  have hholds : HoldsLive t ⟨snap, B⟩ :=
    ⟨hkeyed, hk, hB, t.live_iff snap hentry⟩
  -- The persistent store records no absences.
  have hpresent : ∀ id v, snap.entry id v ≠ some none := by
    intro id v h
    rw [hentry, Option.map_eq_some_iff] at h
    obtain ⟨o, -, ho⟩ := h
    cases ho
  refine ⟨snap, hdump, hrestore, ?_, ?_⟩
  · rw [hcached]
    exact hrestore
  · rw [hcached]
    exact hholds.sameReads_iff.mpr
      ⟨fun id u _ _ hnewest => absurd hnewest.2.1 (hpresent id u),
        fun _ child _ u hnewest => absurd hnewest.2.1 (hpresent child u)⟩

theorem persistent_dump_round_trip_after_commit : ∃ t snap,
    run RocksCachedStore.step (RocksCachedStore.new twoVersions)
        [.commitSingleObject (sampleObject 5 [5]), .read (.getObject (ObjectID.ofByte 7))] = some t ∧
      t.dumpSnapshot = some snap ∧
      (RocksCachedStore.new twoVersions).restoreSnapshot snap = .ok t ∧
      (RocksCachedStore.new twoVersions).restoreSnapshot
        ((CachedStore.new twoVersions).restoreSnapshot snap).dumpSnapshot = .ok t ∧
      SameReads (fun r => (t.read r).1)
        (fun r => (((CachedStore.new twoVersions).restoreSnapshot snap).read r).1) := by
  obtain ⟨snap, h⟩ := persistent_dump_round_trip twoVersions
    [.commitSingleObject (sampleObject 5 [5]), .read (.getObject (ObjectID.ofByte 7))] _ rfl
  exact ⟨_, snap, rfl, h⟩

end Movy.Store
