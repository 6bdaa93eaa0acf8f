import Movy.Store.Commit

/-!
# Moving a snapshot to another store

`dump_snapshot` copies the whole in-memory snapshot, recorded absences
included. Restoring it into an empty `CachedStore` gives the same store back.
The persistent store keeps live objects only, so the absences are dropped on
the way and the reads that met one fall back to the backing store.
-/

namespace Movy.Store

namespace CachedStore

def dumpSnapshot (self : CachedStore) : CachedSnapshot := self.inner

def reset (self : CachedStore) : CachedStore := new self.store

def restoreSnapshot (self : CachedStore) (dump : CachedSnapshot) : CachedStore :=
  { self with inner := ⟨dump.objects.entries.foldl
      (fun objects e => objects.insert e.1 (((objects.get? e.1).getD SortedMap.empty).extend e.2))
      self.inner.objects⟩ }

theorem extend_empty (m : SortedMap SequenceNumber (Option Object)) :
    SortedMap.empty.extend m = m := by
  apply SortedMap.ext_get?
  intro v
  rw [SortedMap.get?_extend, SortedMap.get?_empty, Option.or_none]

/-- Nothing is lost on the way into an empty `CachedStore`. -/
theorem restoreSnapshot_dumpSnapshot (s : CachedStore) :
    (new s.store).restoreSnapshot s.dumpSnapshot = s := by
  have hobj : (s.dumpSnapshot.objects.entries.foldl
      (fun objects e => objects.insert e.1 (((objects.get? e.1).getD SortedMap.empty).extend e.2))
      (new s.store).inner.objects) = s.inner.objects := by
    apply SortedMap.ext_get?
    intro id
    rw [SortedMap.get?_foldl_update (fun old mp => (old.getD SortedMap.empty).extend mp)
      s.dumpSnapshot.objects.entries s.dumpSnapshot.objects.sorted]
    have hget : rawLookup id s.dumpSnapshot.objects.entries = s.inner.objects.get? id := rfl
    rw [hget]
    have hnew : (new s.store).inner.objects.get? id = none := rfl
    cases s.inner.objects.get? id with
    | none => exact hnew
    | some mp => simp only [hnew, Option.getD_none, extend_empty]
  obtain ⟨⟨objects⟩, store⟩ := s
  simp only [restoreSnapshot]
  rw [hobj]
  rfl

end CachedStore

/-! ### The persistent store -/

namespace RocksCachedStore

def restoreBatch (snap : CachedSnapshot) : List BatchOp :=
  snap.objects.entries.flatMap fun e => e.2.entries.filterMap fun entry =>
    entry.2.map fun object => .put (keyEncode object.id object.version) object

def restoreSnapshot (self : RocksCachedStore) (snap : CachedSnapshot) :
    Except String RocksCachedStore :=
  if self.ro then .error "db in ro, can not restore"
  else .ok { self with db := writeBatch self.db (restoreBatch snap) }

theorem mem_restoreBatch (snap : CachedSnapshot) (op : BatchOp) :
    op ∈ restoreBatch snap ↔ ∃ id v o, snap.entry id v = some (some o) ∧
      op = .put (keyEncode o.id o.version) o := by
  simp only [restoreBatch, List.mem_flatMap, List.mem_filterMap, Option.map_eq_some_iff]
  constructor
  · intro h
    obtain ⟨⟨id, mp⟩, hid, ⟨v, x⟩, hv, o, hx, rfl⟩ := h
    simp only at hx hv
    subst hx
    refine ⟨id, v, o, ?_, rfl⟩
    rw [CachedSnapshot.entry, (SortedMap.mem_entries _ _ _).mp hid, Option.bind_some]
    exact (SortedMap.mem_entries _ _ _).mp hv
  · intro h
    obtain ⟨id, v, o, he, rfl⟩ := h
    obtain ⟨mp, hmp, hv⟩ := Option.bind_eq_some_iff.mp he
    exact ⟨(id, mp), (SortedMap.mem_entries _ _ _).mpr hmp, (v, some o),
      (SortedMap.mem_entries _ _ _).mpr hv, o, rfl, rfl⟩

theorem get?_writeBatch_put (batch : List BatchOp) (hb : ∀ op ∈ batch, ∃ key o, op = .put key o)
    (db : ObjectsDb) (key : List Byte) :
    (∃ o, .put key o ∈ batch ∧ (writeBatch db batch).get? key = some o) ∨
      ((∀ o, .put key o ∉ batch) ∧ (writeBatch db batch).get? key = db.get? key) := by
  induction batch generalizing db with
  | nil => exact Or.inr ⟨by simp, rfl⟩
  | cons op rest ih =>
    obtain ⟨k, o, rfl⟩ := hb op (List.mem_cons_self ..)
    have hstep : writeBatch db (.put k o :: rest) = writeBatch (db.insert k o) rest := rfl
    rw [hstep]
    rcases ih (fun op hop => hb op (List.mem_cons_of_mem _ hop)) (db.insert k o) with
      ⟨o', hmem, hget⟩ | ⟨hno, hget⟩
    · exact Or.inl ⟨o', List.mem_cons_of_mem _ hmem, hget⟩
    · rw [hget, SortedMap.get?_insert]
      by_cases hkey : key = k
      · subst hkey
        exact Or.inl ⟨o, List.mem_cons_self .., if_pos rfl⟩
      · refine Or.inr ⟨?_, if_neg hkey⟩
        intro o' hmem
        rcases List.mem_cons.mp hmem with h | h
        · exact hkey (BatchOp.put.inj h).1
        · exact hno o' h

theorem stored_restoreSnapshot (B : BackingStore) (snap : CachedSnapshot) (hk : snap.WellKeyed) :
    ∃ t, (new B).restoreSnapshot snap = .ok t ∧ t.store = B ∧ DbKeyed t.db ∧
      ∀ id v o, t.stored id v = some o ↔ snap.entry id v = some (some o) := by
  have hro : (new B).ro = false := rfl
  refine ⟨{ new B with db := writeBatch (new B).db (restoreBatch snap) }, ?_, rfl, ?_, ?_⟩
  · simp only [restoreSnapshot, hro, Bool.false_eq_true, if_false]
  · refine dbKeyed_writeBatch _ _ dbKeyed_empty ?_
    intro key o hm
    obtain ⟨_, _, o', _, hop⟩ := (mem_restoreBatch snap _).mp hm
    obtain ⟨hkey, rfl⟩ := BatchOp.put.inj hop
    exact hkey
  · intro id v o
    -- the object under a key of the batch, read off the snapshot
    have hput : ∀ o', BatchOp.put (keyEncode id v) o' ∈ restoreBatch snap ↔
        snap.entry id v = some (some o') := by
      intro o'
      rw [mem_restoreBatch]
      constructor
      · intro hall
        obtain ⟨j, w, o'', he, hop⟩ := hall
        obtain ⟨hkey, rfl⟩ := BatchOp.put.inj hop
        obtain ⟨hid, hver⟩ := (keyEncode_inj _ _ _ _).mp hkey
        obtain ⟨hj, hw⟩ := hk j w o' he
        rw [hid, hver, hj, hw]
        exact he
      · intro he
        obtain ⟨hid, hver⟩ := hk id v o' he
        exact ⟨id, v, o', he, by rw [hid, hver]⟩
    have hputs : ∀ op ∈ restoreBatch snap, ∃ key o, op = .put key o := by
      intro op hop
      obtain ⟨_, _, o', _, rfl⟩ := (mem_restoreBatch snap op).mp hop
      exact ⟨_, o', rfl⟩
    show (writeBatch SortedMap.empty (restoreBatch snap)).get? (keyEncode id v) = some o ↔ _
    rcases get?_writeBatch_put (restoreBatch snap) hputs SortedMap.empty (keyEncode id v) with
      ⟨o', hmem, hget⟩ | ⟨hno, hget⟩
    · rw [hget, (hput o').mp hmem]
      simp
    · rw [hget]
      constructor
      · intro h
        simp at h
      · intro h
        exact absurd ((hput o).mpr h) (hno o)

end RocksCachedStore

/-! ### Reads before and after -/

def SameReads (f g : Read → Answer) : Prop :=
  (∀ id, f (.getObject id) = g (.getObject id)) ∧
  (∀ id v, f (.getObjectByKey id v) = g (.getObjectByKey id v)) ∧
  ∀ parent child b, f (.readChildObject parent child b) = g (.readChildObject parent child b)

/-- What the backing store has to say about the recorded absences: where the
newest entry of an id is one, it answers with the newest live version below, if
there is one; and a child read that meets one finds nothing. -/
structure CachedStore.AbsencesAgree (s : CachedStore) : Prop where
  latest : ∀ id u w o, s.inner.Newest id u64Max u none → s.inner.entry id w = some (some o) →
    (∀ w' o', w < w' → s.inner.entry id w' ≠ some (some o')) → s.store.getObject id = some o
  child : ∀ parent child b u, s.inner.Newest child b u none →
    s.store.readChildObject parent child b = .ok none

theorem CachedStore.getObject_fst (s : CachedStore) (id : ObjectID) :
    (s.getObject id).1 = (s.inner.objectIdCached id).or (s.store.getObject id) := by
  simp only [CachedStore.getObject]
  cases s.inner.objectIdCached id with
  | some o => rfl
  | none => cases s.store.getObject id <;> rfl

/-- The restored database `t` holds the live entries of `s`, over the same
backing store. -/
structure HoldsLive (t : RocksCachedStore) (s : CachedStore) : Prop where
  keyed : s.inner.WellKeyed
  dbKeyed : DbKeyed t.db
  store_eq : t.store = s.store
  live : ∀ id v o, t.stored id v = some o ↔ s.inner.entry id v = some (some o)

namespace HoldsLive

variable {s : CachedStore} {t : RocksCachedStore}

/-- The newest stored version is the newest live entry. -/
theorem byId (h : HoldsLive t s) (id : ObjectID) (o : Object) :
    t.getObjectByIdDb id = some o ↔ ∃ w, s.inner.entry id w = some (some o) ∧
      ∀ w' o', w < w' → s.inner.entry id w' ≠ some (some o') := by
  rw [RocksCachedStore.getObjectByIdDb_eq_some t h.dbKeyed]
  constructor
  · intro hall
    obtain ⟨w, _, hg, hmax⟩ := hall
    refine ⟨w, (h.live id w o).mp hg, ?_⟩
    intro w' o' hlt he
    have hst : t.db.get? (keyEncode id w') = some o' := (h.live id w' o').mpr he
    rw [hmax w' (le_u64Max w') hlt] at hst
    simp at hst
  · intro hall
    obtain ⟨w, he, hmax⟩ := hall
    refine ⟨w, le_u64Max w, (h.live id w o).mpr he, ?_⟩
    intro w' _ hlt
    cases hst : t.db.get? (keyEncode id w') with
    | none => rfl
    | some o' => exact absurd ((h.live id w' o').mp hst) (hmax w' o' hlt)

theorem getObject_iff (h : HoldsLive t s) (id : ObjectID) :
    (t.getObject id).1 = (s.getObject id).1 ↔
      ∀ u w o, s.inner.Newest id u64Max u none → s.inner.entry id w = some (some o) →
        (∀ w' o', w < w' → s.inner.entry id w' ≠ some (some o')) → s.store.getObject id = some o := by
  rw [RocksCachedStore.getObject_fst, CachedStore.getObject_fst, h.store_eq]
  cases hc : s.inner.objectIdCached id with
  | some o =>
    -- the newest entry is live, and it is the newest stored version
    obtain ⟨u, hu⟩ := (CachedStore.objectIdCached_eq_some s.inner id o).mp hc
    have ht : t.getObjectByIdDb id = some o := by
      refine (h.byId id o).mpr ⟨u, hu.2.1, ?_⟩
      intro w' o' hlt he
      rw [hu.2.2 w' (le_u64Max w') hlt] at he
      simp at he
    rw [ht]
    refine ⟨fun _ u' w o' hn => ?_, fun _ => rfl⟩
    exact absurd (CachedSnapshot.newest_unique s.inner id u64Max u u' _ _ hu hn).2 (by simp)
  | none =>
    rw [Option.none_or]
    constructor
    · intro heq u w o _ he hmax
      rw [(h.byId id o).mpr ⟨w, he, hmax⟩] at heq
      exact heq.symm
    · intro hbase
      cases ht : t.getObjectByIdDb id with
      | none => rfl
      | some o =>
        obtain ⟨w, he, hmax⟩ := (h.byId id o).mp ht
        rcases CachedSnapshot.newest_or_unbound s.inner id u64Max with hno | ⟨u, x, hn⟩
        · rw [hno w (le_u64Max w)] at he
          simp at he
        · cases x with
          | some o' =>
            rw [(CachedStore.objectIdCached_eq_some s.inner id o').mpr ⟨u, hn⟩] at hc
            simp at hc
          | none => exact (hbase u w o hn he hmax).symm

theorem getObjectByKey (h : HoldsLive t s) (id : ObjectID) (v : SequenceNumber) :
    (t.getObjectByKey id v).1 = (s.getObjectByKey id v).1 := by
  rw [RocksCachedStore.getObjectByKey_fst, CachedStore.getObjectByKey_fst, h.store_eq]
  have hl := h.live id v
  rcases he : s.inner.entry id v with _ | _ | o
  · cases hst : t.stored id v with
    | none => rfl
    | some o => simpa [he] using (hl o).mp hst
  · cases hst : t.stored id v with
    | none => rfl
    | some o => simpa [he] using (hl o).mp hst
  · rw [(hl o).mpr he]
    rfl

theorem readChildObject_iff (h : HoldsLive t s) (parent child : ObjectID) (b : SequenceNumber) :
    (t.readChildObject parent child b).1 = (s.readChildObject parent child b).1 ↔
      ∀ u, s.inner.Newest child b u none → s.store.readChildObject parent child b = .ok none := by
  rw [RocksCachedStore.readChildObject_fst, CachedStore.readChildObject_fst, h.store_eq]
  have hhit : ∀ o, t.lookup (.readChildObject parent child b) = .hit o ↔
      s.lookup (.readChildObject parent child b) = .hit o := by
    intro o
    rw [RocksCachedStore.lookup_child_hit t h.dbKeyed, CachedStore.lookup_child_hit s h.keyed,
      h.live]
  have habs := CachedStore.lookup_child_absent s parent child b
  have hmiss : (∀ o, s.lookup (.readChildObject parent child b) ≠ .hit o) →
      t.lookup (.readChildObject parent child b) = .miss := by
    intro hne
    cases ht : t.lookup (.readChildObject parent child b) with
    | hit o => exact absurd ((hhit o).mp ht) (hne o)
    | absent => exact absurd ht (RocksCachedStore.lookup_child_ne_absent t parent child b)
    | miss => rfl
  cases hl : s.lookup (.readChildObject parent child b) with
  | hit o =>
    rw [(hhit o).mpr hl]
    refine ⟨fun _ u hu => ?_, fun _ => rfl⟩
    rw [habs.mpr ⟨u, hu⟩] at hl
    simp at hl
  | absent =>
    obtain ⟨u, hu⟩ := habs.mp hl
    rw [hmiss (by simp [hl])]
    exact ⟨fun heq _ _ => heq, fun hb => hb u hu⟩
  | miss =>
    rw [hmiss (by simp [hl])]
    refine ⟨fun _ u hu => ?_, fun _ => rfl⟩
    rw [habs.mpr ⟨u, hu⟩] at hl
    simp at hl

theorem sameReads_iff (h : HoldsLive t s) :
    SameReads (fun r => (t.read r).1) (fun r => (s.read r).1) ↔ s.AbsencesAgree := by
  constructor
  · intro hall
    obtain ⟨hget, _, hchild⟩ := hall
    refine ⟨fun id => (h.getObject_iff id).mp (Answer.object.inj (hget id)), ?_⟩
    intro parent child b
    exact (h.readChildObject_iff parent child b).mp (Answer.result.inj (hchild parent child b))
  · intro hall
    obtain ⟨hget, hchild⟩ := hall
    refine ⟨fun id => congrArg Answer.object ((h.getObject_iff id).mpr (hget id)), ?_, ?_⟩
    · intro id v
      exact congrArg Answer.object (h.getObjectByKey id v)
    · intro parent child b
      exact congrArg Answer.result ((h.readChildObject_iff parent child b).mpr (hchild parent child b))

end HoldsLive

/-- For every store that a history leaves: restored into an empty `CachedStore`
its snapshot gives the same store back, and restored into an empty writable
`RocksCachedStore` it gives the same answers exactly when the backing store
agrees with the recorded absences. -/
theorem snapshot_keeps_reads_iff (B : BackingStore) (ops : List Op) (s : CachedStore)
    (hrun : run CachedStore.step (CachedStore.new B) ops = some s) :
    ∃ t, (RocksCachedStore.new B).restoreSnapshot s.dumpSnapshot = .ok t ∧
      (SameReads (fun r => (((CachedStore.new B).restoreSnapshot s.dumpSnapshot).read r).1)
          (fun r => (s.read r).1) ∧
        SameReads (fun r => (t.read r).1) (fun r => (s.read r).1) ↔ s.AbsencesAgree) := by
  obtain ⟨hk, hs⟩ := CachedStore.run_wellKeyed B s ops hrun
  obtain ⟨t, ht, hts, hdb, hlive⟩ :=
    RocksCachedStore.stored_restoreSnapshot B s.dumpSnapshot hk
  have hsame : (CachedStore.new B).restoreSnapshot s.dumpSnapshot = s := by
    rw [← hs]
    exact CachedStore.restoreSnapshot_dumpSnapshot s
  have h : HoldsLive t s := ⟨hk, hdb, hts.trans hs.symm, hlive⟩
  refine ⟨t, ht, ?_⟩
  rw [hsame, h.sameReads_iff]
  exact ⟨fun hb => hb.2, fun hb => ⟨⟨fun _ => rfl, fun _ _ => rfl, fun _ _ _ => rfl⟩, hb⟩⟩

/-- A commit and a read, nothing deleted. -/
theorem snapshot_keeps_reads_after_commit :
    ∃ s t, run CachedStore.step (CachedStore.new twoVersions)
        [.commitSingleObject (sampleObject 5 [5]), .read (.getObject (ObjectID.ofByte 7))] = some s ∧
      (RocksCachedStore.new twoVersions).restoreSnapshot s.dumpSnapshot = .ok t ∧
      SameReads (fun r => (t.read r).1) (fun r => (s.read r).1) := by
  obtain ⟨t, ht, hiff⟩ := snapshot_keeps_reads_iff twoVersions
    [.commitSingleObject (sampleObject 5 [5]), .read (.getObject (ObjectID.ofByte 7))] _ rfl
  have hnone : ∀ id v, (CachedSnapshot.default.cacheObjectOnly (sampleObject 5 [5])).entry id v ≠
      some none := by
    intro id v
    rw [CachedSnapshot.entry_cacheObjectOnly, CachedSnapshot.entry_default]
    split_ifs <;> simp
  refine ⟨_, t, rfl, ht, (hiff.mpr ⟨?_, ?_⟩).2⟩
  · intro id u w o hn
    exact absurd hn.2.1 (hnone id u)
  · intro parent child b u hn
    exact absurd hn.2.1 (hnone child u)

/-- A deleted object comes back: the original answers a child read from its
tombstone, the restored database asks the backing store. -/
theorem snapshot_loses_deletion :
    ∃ s t, run CachedStore.step (CachedStore.new twoVersions)
        [.read (.getObject (ObjectID.ofByte 7)), .commitStore sampleInput sampleDeletion] = some s ∧
      (RocksCachedStore.new twoVersions).restoreSnapshot s.dumpSnapshot = .ok t ∧
      (s.readChildObject (ObjectID.ofByte 1) (ObjectID.ofByte 7) 9).1 = .ok none ∧
      (t.readChildObject (ObjectID.ofByte 1) (ObjectID.ofByte 7) 9).1 =
        .ok (some (sampleObject 3 [3])) ∧
      ¬SameReads (fun r => (t.read r).1) (fun r => (s.read r).1) := by
  refine ⟨_, _, rfl, rfl, by decide +kernel, by decide +kernel, ?_⟩
  intro h
  have hchild := Answer.result.inj (h.2.2 (ObjectID.ofByte 1) (ObjectID.ofByte 7) 9)
  exact absurd hchild (by decide +kernel)

end Movy.Store
