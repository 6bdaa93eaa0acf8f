import Movy.Store.History

/-!
# Committed versions stay readable by key

Every read path of `CachedStore` writes into the version map that commits
write into. What a commit stored under an id and a version is still found
under that key at the end of the history, unless a later commit wrote there.
-/

namespace Movy.Store

namespace CachedStore

theorem entry_step_kept (self next : CachedStore) (op : Op) (o : Object)
    (hk : self.inner.WellKeyed) (h : self.step op = some next)
    (hbase : ∀ r o', self.store.fetched r = some o' → o'.id = o.id → o'.version = o.version →
      o' = o)
    (hempty : ¬op.Empties o.id o.version)
    (hwrite : ∀ o', op.Writes o' → o'.id = o.id → o'.version = o.version → o' = o)
    (he : self.inner.entry o.id o.version = some (some o)) :
    next.inner.entry o.id o.version = some (some o) := by
  cases op with
  | read r =>
    obtain rfl := Option.some.inj h
    rcases entry_read self hk r o.id o.version with hsame | ⟨_, o', hf, hid, hv, hnew⟩ | hneg
    · exact hsame.trans he
    · rw [hnew, hbase r o' hf hid hv]
    · -- an empty child read is recorded only at a free key
      obtain ⟨_, p, _, _, hnone, _⟩ := hneg
      rw [he] at hnone
      simp at hnone
  | commitSingleObject o' =>
    obtain rfl := Option.some.inj h
    simp only [commitSingleObject, CachedSnapshot.entry_cacheObjectOnly]
    split_ifs with hc
    · rw [hwrite o' rfl hc.1.symm hc.2.symm]
    · exact he
  | commitStore store effects =>
    obtain ⟨ids, hids, _, hent⟩ := commitStore_cases self next store effects h
    have hno : (o.id, o.version) ∉ emptied store effects ids := fun hm => hempty ⟨ids, hids, hm⟩
    rw [hent, if_neg hno, entry_commitWritten]
    cases hw : store.written.get? o.id with
    | none => exact he
    | some o' =>
      have hid := store.written_keyed o.id o' hw
      simp only
      split_ifs with hv
      · have hwr : (Op.commitStore store effects).Writes o' := by
          simp only [Op.Writes, hid, hw]
        rw [hwrite o' hwr hid hv.symm]
      · exact he

theorem entry_step_written (self next : CachedStore) (op : Op) (o : Object)
    (h : self.step op = some next) (hw : op.Writes o) (hempty : ¬op.Empties o.id o.version) :
    next.inner.entry o.id o.version = some (some o) := by
  cases op with
  | read r => exact absurd hw id
  | commitSingleObject o' =>
    obtain rfl := Option.some.inj h
    obtain rfl : o' = o := hw
    simp only [commitSingleObject, CachedSnapshot.entry_cacheObjectOnly, and_self, if_true]
  | commitStore store effects =>
    obtain ⟨ids, hids, _, hent⟩ := commitStore_cases self next store effects h
    have hno : (o.id, o.version) ∉ emptied store effects ids := fun hm => hempty ⟨ids, hids, hm⟩
    have hw : store.written.get? o.id = some o := hw
    rw [hent, if_neg hno, entry_commitWritten]
    simp only [hw, if_true]

theorem getObjectByKey_of_entry (self : CachedStore) (id : ObjectID) (v : SequenceNumber)
    (o : Object) (h : self.inner.entry id v = some (some o)) :
    (self.getObjectByKey id v).1 = some o := by
  have hx := (objectExactVersion_eq_some self.inner id v o).mpr h
  simp only [getObjectByKey, hx]

/-- A commit stores `o`, no later commit empties its key or puts another
object there, and the backing store has no other object under it: then the
key answers with `o` however the history goes on. The snapshot files every
object under its own id and version all along. -/
theorem committed_durable (B : BackingStore) (before after : List Op) (op : Op) (o : Object)
    (s : CachedStore) (hrun : run step (new B) (before ++ op :: after) = some s)
    (hbase : ∀ r o', B.fetched r = some o' → o'.id = o.id → o'.version = o.version → o' = o)
    (hw : op.Writes o) (hempty : ∀ op' ∈ op :: after, ¬op'.Empties o.id o.version)
    (hlast : ∀ op' ∈ after, ∀ o', op'.Writes o' → o'.id = o.id → o'.version = o.version →
      o' = o) :
    (s.getObjectByKey o.id o.version).1 = some o ∧
      ∀ id v o', s.inner.entry id v = some (some o') → o'.id = id ∧ o'.version = v := by
  refine ⟨?_, (run_wellKeyed B s _ hrun).1⟩
  apply getObjectByKey_of_entry
  rw [run_append] at hrun
  obtain ⟨m, hm, hrest⟩ := Option.bind_eq_some_iff.mp hrun
  obtain ⟨n, hn, hafter⟩ := run_cons step m s op after hrest
  obtain ⟨hkm, hsm⟩ := run_wellKeyed B m before hm
  have hsn : n.store = B := (store_step m n op hn).trans hsm
  have hkn := wellKeyed_step m n op hkm hn
  have hen := entry_step_written m n op o hn hw (hempty op (List.mem_cons_self ..))
  -- the invariant of the rest of the history
  refine (run_invariant step
    (fun _ op' => ¬op'.Empties o.id o.version ∧
      ∀ o', op'.Writes o' → o'.id = o.id → o'.version = o.version → o' = o)
    (fun t => t.inner.WellKeyed ∧ t.store = B ∧ t.inner.entry o.id o.version = some (some o))
    ?_ n s after ⟨hkn, hsn, hen⟩ (along_of_forall step _ n after ?_) hafter).2.2
  · rintro t op' next ⟨hk, hs, he⟩ ⟨hno, hsame⟩ hnext
    refine ⟨wellKeyed_step t next op' hk hnext, (store_step t next op' hnext).trans hs, ?_⟩
    exact entry_step_kept t next op' o hk hnext (by rw [hs]; exact hbase) hno hsame he
  · intro op' hop' _
    exact ⟨hempty op' (List.mem_cons_of_mem _ hop'), hlast op' hop'⟩

theorem committed_durable_past_empty_read :
    ∃ s, run step (new EmptyStore) [.commitSingleObject (sampleObject 3 [1]),
        .read (.readChildObject (ObjectID.ofByte 1) (ObjectID.ofByte 7) 9),
        .commitSingleObject (sampleObject 4 [2])] = some s ∧
      (s.getObjectByKey (ObjectID.ofByte 7) 3).1 = some (sampleObject 3 [1]) := by
  refine ⟨_, rfl, (committed_durable EmptyStore []
    [.read (.readChildObject (ObjectID.ofByte 1) (ObjectID.ofByte 7) 9),
      .commitSingleObject (sampleObject 4 [2])]
    (.commitSingleObject (sampleObject 3 [1])) (sampleObject 3 [1]) _ rfl ?_ rfl ?_ ?_).1⟩
  · intro r o' hf
    rw [fetched_emptyStore] at hf
    simp at hf
  · simp [Op.Empties]
  · simp [Op.Writes, sampleObject]

/-- A second commit under the same key replaces the first object. -/
theorem recommit_replaces :
    ∃ s, run step (new EmptyStore) [.commitSingleObject (sampleObject 3 [1]),
        .commitSingleObject (sampleObject 3 [2])] = some s ∧
      (s.getObjectByKey (ObjectID.ofByte 7) 3).1 = some (sampleObject 3 [2]) ∧
      (s.getObjectByKey (ObjectID.ofByte 7) 3).1 ≠ some (sampleObject 3 [1]) ∧
      (∀ op ∈ [Op.commitSingleObject (sampleObject 3 [1]), .commitSingleObject (sampleObject 3 [2])],
        ¬op.Empties (ObjectID.ofByte 7) 3) ∧ ∀ r, EmptyStore.fetched r = none := by
  refine ⟨_, rfl, by decide, by decide, by simp [Op.Empties], fetched_emptyStore⟩

end CachedStore

end Movy.Store
