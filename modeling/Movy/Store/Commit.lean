import Movy.Store.Deletion

/-!
# Written objects are visible after their commit

`commit_store` first records every written object and then goes over the
removed and the stream-ended objects, so a later pass can take back what the
first one stored. For both stores, this is exactly when a written object is
returned by key and by id.
-/

namespace Movy.Store

/-! ### The in-memory cache -/

namespace CachedStore

theorem getObjectByKey_fst (s : CachedStore) (id : ObjectID) (v : SequenceNumber) :
    (s.getObjectByKey id v).1 =
      match s.inner.entry id v with
      | some (some o) => some o
      | _ => s.store.getObjectByKey id v := by
  simp only [getObjectByKey, CachedSnapshot.objectExactVersion_eq]
  rcases s.inner.entry id v with _ | _ | o
  · cases s.store.getObjectByKey id v <;> rfl
  · cases s.store.getObjectByKey id v <;> rfl
  · rfl

theorem getObject_of_newest (s : CachedStore) (id : ObjectID) (u : SequenceNumber)
    (x : Option Object) (h : s.inner.Newest id u64Max u x) :
    (s.getObject id).1 = x.or (s.store.getObject id) := by
  cases x with
  | some o =>
    have hc := (objectIdCached_eq_some s.inner id o).mpr ⟨u, h⟩
    simp only [getObject, hc, Option.some_or]
  | none =>
    have hc : s.inner.objectIdCached id = none := by
      simp only [CachedSnapshot.objectIdCached, CachedSnapshot.objectResolvedUpperbound,
        CachedSnapshot.resolve_knownNotExisting s.inner id u64Max u h, ResolvedResult.intoObject]
    simp only [getObject, hc]
    cases s.store.getObject id <;> rfl

def NothingAbove (s : CachedStore) (store : InnerTemporaryStore) (effects : TransactionEffects)
    (id : ObjectID) (u : SequenceNumber) : Prop :=
  ∀ w, u < w → s.inner.entry id w = none ∧ ¬(Op.commitStore store effects).Empties id w

/-- By key: the commit does not empty the key it wrote, or the backing store
has the object there. By id: the written version is the newest, or the newest
entry is an empty one and the backing store's latest version is the object. -/
def CommitVisible (s : CachedStore) (store : InnerTemporaryStore) (effects : TransactionEffects)
    (o : Object) : Prop :=
  (¬(Op.commitStore store effects).Empties o.id o.version ∨
    s.store.getObjectByKey o.id o.version = some o) ∧
  ((¬(Op.commitStore store effects).Empties o.id o.version ∧
      s.NothingAbove store effects o.id o.version) ∨
    (s.store.getObject o.id = some o ∧ ∃ u, o.version ≤ u ∧
      ((Op.commitStore store effects).Empties o.id u ∨
        (u ≠ o.version ∧ s.inner.entry o.id u = some none)) ∧
      s.NothingAbove store effects o.id u))

theorem entry_commitStore_written (s next : CachedStore) (store : InnerTemporaryStore)
    (effects : TransactionEffects) (o : Object) (hw : store.written.get? o.id = some o)
    (h : s.commitStore store effects = some next) (w : SequenceNumber) :
    ((Op.commitStore store effects).Empties o.id w ∧ next.inner.entry o.id w = some none) ∨
    (¬(Op.commitStore store effects).Empties o.id w ∧
      next.inner.entry o.id w = if w = o.version then some (some o) else s.inner.entry o.id w) := by
  obtain ⟨ids, hids, _, hent⟩ := commitStore_cases s next store effects h
  rw [hent, entry_commitWritten, hw]
  have hemp : (Op.commitStore store effects).Empties o.id w ↔
      (o.id, w) ∈ emptied store effects ids := by
    simp only [Op.Empties, hids, Option.some.injEq, exists_eq_left']
  by_cases hin : (o.id, w) ∈ emptied store effects ids
  · exact Or.inl ⟨hemp.mpr hin, if_pos hin⟩
  · exact Or.inr ⟨fun he => hin (hemp.mp he), if_neg hin⟩

theorem entry_above_iff (s next : CachedStore) (store : InnerTemporaryStore)
    (effects : TransactionEffects) (o : Object) (hw : store.written.get? o.id = some o)
    (h : s.commitStore store effects = some next) (u : SequenceNumber) (hu : o.version ≤ u) :
    (∀ w, u < w → next.inner.entry o.id w = none) ↔ s.NothingAbove store effects o.id u := by
  refine forall_congr' fun w => imp_congr_right fun huw => ?_
  have hne : w ≠ o.version := ne_of_gt (hu.trans_lt huw)
  rcases entry_commitStore_written s next store effects o hw h w with ⟨he, hn⟩ | ⟨he, hn⟩
  · simp [hn, he]
  · simp [hn, he, hne]

section Written

variable {s next : CachedStore} {store : InnerTemporaryStore} {effects : TransactionEffects}
  {o : Object} (hw : store.written.get? o.id = some o)
  (h : s.commitStore store effects = some next)

include hw h

theorem visible_by_key :
    (next.getObjectByKey o.id o.version).1 = some o ↔
      ¬(Op.commitStore store effects).Empties o.id o.version ∨
        s.store.getObjectByKey o.id o.version = some o := by
  have hstore : next.store = s.store := store_step s next (.commitStore store effects) h
  rw [getObjectByKey_fst, hstore]
  rcases entry_commitStore_written s next store effects o hw h o.version with ⟨he, hn⟩ | ⟨he, hn⟩
  · simp [hn, he]
  · simp [hn, he]

/-- There is an entry at the written version, so there is a newest one. -/
theorem exists_newest : ∃ u x, next.inner.Newest o.id u64Max u x ∧ o.version ≤ u := by
  have hent := entry_commitStore_written s next store effects o hw h o.version
  rcases CachedSnapshot.newest_or_unbound next.inner o.id u64Max with hall | ⟨u, x, hn⟩
  · have hv := hall o.version (le_u64Max _)
    rcases hent with ⟨_, hn⟩ | ⟨_, hn⟩ <;> simp [hn] at hv
  · refine ⟨u, x, hn, ?_⟩
    by_contra hlt
    have hv := hn.2.2 o.version (le_u64Max _) (not_le.mp hlt)
    rcases hent with ⟨_, hn⟩ | ⟨_, hn⟩ <;> simp [hn] at hv

theorem newest_of_nothingAbove {u : SequenceNumber} {x : Option Object} (hu : o.version ≤ u)
    (hx : next.inner.entry o.id u = some x) (habove : s.NothingAbove store effects o.id u) :
    next.inner.Newest o.id u64Max u x :=
  ⟨le_u64Max _, hx, fun w _ hlt =>
    (entry_above_iff s next store effects o hw h u hu).mpr habove w hlt⟩

theorem nothingAbove_of_newest {u : SequenceNumber} {x : Option Object}
    (hn : next.inner.Newest o.id u64Max u x) (hu : o.version ≤ u) :
    s.NothingAbove store effects o.id u :=
  (entry_above_iff s next store effects o hw h u hu).mp fun w hw => hn.2.2 w (le_u64Max w) hw

theorem newest_written_iff (hk : s.inner.WellKeyed) {u : SequenceNumber} {x : Option Object}
    (hn : next.inner.Newest o.id u64Max u x) (hu : o.version ≤ u) :
    x = some o ↔ ¬(Op.commitStore store effects).Empties o.id o.version ∧
      s.NothingAbove store effects o.id o.version := by
  have hent := entry_commitStore_written s next store effects o hw h
  constructor
  · rintro rfl
    have huv := (wellKeyed_commitStore s next store effects h hk _ u o hn.2.1).2
    rcases hent u with ⟨_, he⟩ | ⟨hne, _⟩
    · rw [hn.2.1] at he
      simp at he
    · exact huv ▸ ⟨hne, nothingAbove_of_newest hw h hn hu⟩
  · rintro ⟨hne, habove⟩
    have hx : next.inner.entry o.id o.version = some (some o) := by
      rcases hent o.version with ⟨he, _⟩ | ⟨_, hx⟩
      · exact absurd he hne
      · rw [hx, if_pos rfl]
    exact (CachedSnapshot.newest_unique next.inner o.id u64Max u o.version x (some o) hn
      (newest_of_nothingAbove hw h le_rfl hx habove)).2

theorem newest_empty_iff {u : SequenceNumber} {x : Option Object}
    (hn : next.inner.Newest o.id u64Max u x) (hu : o.version ≤ u) :
    x = none ↔ ∃ u', o.version ≤ u' ∧ ((Op.commitStore store effects).Empties o.id u' ∨
      (u' ≠ o.version ∧ s.inner.entry o.id u' = some none)) ∧
        s.NothingAbove store effects o.id u' := by
  have hent := entry_commitStore_written s next store effects o hw h
  constructor
  · rintro rfl
    refine ⟨u, hu, ?_, nothingAbove_of_newest hw h hn hu⟩
    rcases hent u with ⟨he, _⟩ | ⟨_, he⟩
    · exact Or.inl he
    · rw [hn.2.1] at he
      split_ifs at he with huv
      · simp at he
      · exact Or.inr ⟨huv, he.symm⟩
  · rintro ⟨u', hu', hempty, habove⟩
    have hx : next.inner.entry o.id u' = some none := by
      rcases hent u' with ⟨_, he⟩ | ⟨hne, he⟩
      · exact he
      · obtain ⟨huv, hem⟩ := hempty.resolve_left hne
        rw [he, if_neg huv, hem]
    exact (CachedSnapshot.newest_unique next.inner o.id u64Max u u' x none hn
      (newest_of_nothingAbove hw h hu' hx habove)).2

end Written

theorem visible_iff (s next : CachedStore) (hk : s.inner.WellKeyed) (store : InnerTemporaryStore)
    (effects : TransactionEffects) (o : Object) (hw : store.written.get? o.id = some o)
    (h : s.commitStore store effects = some next) :
    ((next.getObjectByKey o.id o.version).1 = some o ∧ (next.getObject o.id).1 = some o) ↔
      s.CommitVisible store effects o := by
  have hstore : next.store = s.store := store_step s next (.commitStore store effects) h
  refine and_congr (visible_by_key hw h) ?_
  obtain ⟨u, x, hn, hu⟩ := exists_newest hw h
  rw [getObject_of_newest next o.id u x hn, hstore, Option.or_eq_some_iff,
    newest_written_iff hw h hk hn hu, newest_empty_iff hw h hn hu]
  exact or_congr_right and_comm

end CachedStore

/-! ### The persistent cache -/

namespace RocksCachedStore

theorem getObjectByKey_fst (s : RocksCachedStore) (id : ObjectID) (v : SequenceNumber) :
    (s.getObjectByKey id v).1 = (s.stored id v).or (s.store.getObjectByKey id v) := by
  have hx : s.getObjectExact id v = s.stored id v := rfl
  simp only [getObjectByKey, hx]
  cases s.stored id v with
  | some o => rfl
  | none => cases s.store.getObjectByKey id v <;> rfl

theorem getObject_fst (s : RocksCachedStore) (id : ObjectID) :
    (s.getObject id).1 = (s.getObjectByIdDb id).or (s.store.getObject id) := by
  simp only [getObject]
  cases s.getObjectByIdDb id with
  | some o => rfl
  | none => cases s.store.getObject id <;> rfl

def Removes (store : InnerTemporaryStore) (effects : TransactionEffects) (id : ObjectID) : Prop :=
  ∃ ids, endedIds store effects = some ids ∧ id ∈ removedIds store effects ids

/-- A read-only database shows the object if it did so before. A writable one
shows it if the commit does not remove the id and no newer version is stored,
or if it does and the written version was not stored before. Otherwise nothing
is left of the id, and the backing store has to have the object. -/
def CommitVisible (s : RocksCachedStore) (store : InnerTemporaryStore)
    (effects : TransactionEffects) (o : Object) : Prop :=
  (s.ro = true ∧ (s.getObjectByKey o.id o.version).1 = some o ∧ (s.getObject o.id).1 = some o) ∨
  (s.ro = false ∧
    ((¬Removes store effects o.id ∧ ∀ w, o.version < w → s.stored o.id w = none) ∨
      (Removes store effects o.id ∧ s.stored o.id o.version = none) ∨
      (Removes store effects o.id ∧ s.store.getObjectByKey o.id o.version = some o ∧
        s.store.getObject o.id = some o)))

theorem getObjectByIdDb_self_iff (s : RocksCachedStore) (hk : DbKeyed s.db) (o : Object)
    (h : s.stored o.id o.version = some o) (base : Option Object) :
    (s.getObjectByIdDb o.id).or base = some o ↔
      ∀ w, o.version < w → s.stored o.id w = none := by
  constructor
  · intro hor w hlt
    cases hdb : s.getObjectByIdDb o.id with
    | none =>
      have hnone := (getObjectByIdDb_eq_none s hk o.id).mp hdb o.version
      rw [h] at hnone
      cases hnone
    | some z =>
      rw [hdb, Option.some_or, Option.some.injEq] at hor
      obtain ⟨u, _, hu, hmax⟩ := (getObjectByIdDb_eq_some s hk o.id z).mp hdb
      have huv := (stored_keyed s hk o.id u z hu).2
      rw [hor] at huv
      exact hmax w (le_u64Max w) (huv ▸ hlt)
  · intro hmax
    have hdb := (getObjectByIdDb_eq_some s hk o.id o).mpr
      ⟨o.version, le_u64Max _, h, fun w _ hlt => hmax w hlt⟩
    rw [hdb, Option.some_or]

structure Left (s next : RocksCachedStore) (o : Object) (removed : Prop) [Decidable removed] :
    Prop where
  store : next.store = s.store
  keyed : DbKeyed next.db
  stored : ∀ w, next.stored o.id w =
    if removed ∧ (s.stored o.id w).isSome = true then none
    else if w = o.version then some o else s.stored o.id w

section Left

variable {s next : RocksCachedStore} {o : Object} {removed : Prop} [Decidable removed]

/-- The commit does not remove the id. -/
theorem Left.visible_kept (h : Left s next o removed) (hkept : ¬removed) :
    ((next.getObjectByKey o.id o.version).1 = some o ∧ (next.getObject o.id).1 = some o) ↔
      ∀ w, o.version < w → s.stored o.id w = none := by
  have hstored : ∀ w, next.stored o.id w = if w = o.version then some o else s.stored o.id w := by
    intro w
    rw [h.stored, if_neg fun hr => hkept hr.1]
  have hnew : next.stored o.id o.version = some o := by rw [hstored, if_pos rfl]
  rw [getObjectByKey_fst, getObject_fst, hnew, Option.some_or, and_iff_right rfl,
    getObjectByIdDb_self_iff next h.keyed o hnew]
  refine forall_congr' fun w => imp_congr_right fun hlt => ?_
  rw [hstored, if_neg (ne_of_gt hlt)]

/-- It removes all stored versions, so only the one just written is left. -/
theorem Left.visible_new (h : Left s next o removed) (hremoved : removed)
    (hold : s.stored o.id o.version = none) :
    (next.getObjectByKey o.id o.version).1 = some o ∧ (next.getObject o.id).1 = some o := by
  have hnew : next.stored o.id o.version = some o := by simp [h.stored, hold]
  rw [getObjectByKey_fst, getObject_fst, hnew, Option.some_or, and_iff_right rfl,
    getObjectByIdDb_self_iff next h.keyed o hnew]
  intro w hlt
  rw [h.stored, if_neg (ne_of_gt hlt)]
  cases s.stored o.id w <;> simp [hremoved]

/-- If that one was stored before, nothing is left. -/
theorem Left.visible_none (h : Left s next o removed) (hremoved : removed)
    (hold : s.stored o.id o.version ≠ none) :
    ((next.getObjectByKey o.id o.version).1 = some o ∧ (next.getObject o.id).1 = some o) ↔
      s.store.getObjectByKey o.id o.version = some o ∧ s.store.getObject o.id = some o := by
  have hnone : ∀ w, next.stored o.id w = none := by
    intro w
    rw [h.stored]
    by_cases hv : w = o.version
    · subst hv
      simp [hremoved, Option.isSome_iff_ne_none.mpr hold]
    · cases s.stored o.id w <;> simp [hremoved, hv]
  rw [getObjectByKey_fst, getObject_fst, hnone, (getObjectByIdDb_eq_none next h.keyed o.id).mpr hnone,
    h.store, Option.none_or, Option.none_or]

end Left

theorem visible_iff (s next : RocksCachedStore) (hk : DbKeyed s.db) (store : InnerTemporaryStore)
    (effects : TransactionEffects) (o : Object) (hw : store.written.get? o.id = some o)
    (h : s.commitStore store effects = some next) :
    ((next.getObjectByKey o.id o.version).1 = some o ∧ (next.getObject o.id).1 = some o) ↔
      s.CommitVisible store effects o := by
  cases hro : s.ro with
  | true =>
    simp only [commitStore, hro, if_true, Option.some.injEq] at h
    subst h
    simp [CommitVisible, hro]
  | false =>
    obtain ⟨ids, hids, hstore, _, hk', hget⟩ := commitStore_cases s next hk hro store effects h
    have hrem : Removes store effects o.id ↔ o.id ∈ removedIds store effects ids := by
      simp only [Removes, hids, Option.some.injEq, exists_eq_left']
    have hleft : Left s next o (o.id ∈ removedIds store effects ids) := by
      refine ⟨hstore, hk', fun w => ?_⟩
      rw [stored, hget, hw]
      rfl
    simp only [CommitVisible, hro, Bool.false_eq_true, false_and, false_or, true_and, hrem]
    by_cases hin : o.id ∈ removedIds store effects ids
    · simp only [hin, true_and, not_true, false_and, false_or]
      by_cases hold : s.stored o.id o.version = none
      · exact iff_of_true (hleft.visible_new hin hold) (Or.inl hold)
      · rw [or_iff_right hold]
        exact hleft.visible_none hin hold
    · simp only [hin, false_and, not_false_iff, true_and, or_false]
      exact hleft.visible_kept hin

end RocksCachedStore

/-! ### Both stores -/

/-- A written object that is not deleted is returned by key and by id after the
commit exactly if `CommitVisible` held before it. -/
theorem commits_visible_iff (store : InnerTemporaryStore) (effects : TransactionEffects)
    (id : ObjectID) (o : Object) (hw : store.written.get? id = some o)
    (_hd : id ∉ effects.deleted.map Prod.fst) :
    (∀ s next : CachedStore, s.inner.WellKeyed → s.commitStore store effects = some next →
      (((next.getObjectByKey id o.version).1 = some o ∧ (next.getObject id).1 = some o) ↔
        s.CommitVisible store effects o)) ∧
    (∀ s next : RocksCachedStore, DbKeyed s.db → s.commitStore store effects = some next →
      (((next.getObjectByKey id o.version).1 = some o ∧ (next.getObject id).1 = some o) ↔
        s.CommitVisible store effects o)) := by
  obtain rfl := store.written_keyed id o hw
  constructor
  · intro s next hk h
    exact CachedStore.visible_iff s next hk store effects o hw h
  · intro s next hk h
    exact RocksCachedStore.visible_iff s next hk store effects o hw h

def sampleWrite : InnerTemporaryStore :=
  { sampleInput with
    written := SortedMap.empty.insert (ObjectID.ofByte 7) (sampleObject 5 [5])
    written_keyed := by
      intro id o h
      rw [SortedMap.get?_insert] at h
      split_ifs at h with hid
      · rw [← Option.some.inj h, hid]
        rfl
      · simp at h }

def sampleMutation : TransactionEffects where
  deleted := []
  transferredFromConsensus := []
  consensusOwnerChanged := []
  streamEndedMutablyAccessedConsensusObjects := []
  deleted_nodup := by decide

def sampleOwnerChange : TransactionEffects :=
  { sampleMutation with consensusOwnerChanged := [(ObjectID.ofByte 7, 5, [])] }

theorem mutation_visible :
    ∃ next, (CachedStore.new twoVersions).commitStore sampleWrite sampleMutation = some next ∧
      (next.getObjectByKey (ObjectID.ofByte 7) 5).1 = some (sampleObject 5 [5]) ∧
      (next.getObject (ObjectID.ofByte 7)).1 = some (sampleObject 5 [5]) := by
  refine ⟨_, rfl, ((commits_visible_iff sampleWrite sampleMutation (ObjectID.ofByte 7)
    (sampleObject 5 [5]) (by decide) (by decide)).1 (CachedStore.new twoVersions) _
    CachedSnapshot.wellKeyed_default rfl).mpr ?_⟩
  have hno : ∀ w, ¬(Op.commitStore sampleWrite sampleMutation).Empties (ObjectID.ofByte 7) w := by
    rintro w ⟨ids, hids, hm⟩
    have hnil : ids = [] := (Option.some.inj hids).symm
    subst hnil
    simp [CachedStore.emptied, tombstones, removeInputs, removedRefs, sampleMutation] at hm
  exact ⟨Or.inl (hno 5), Or.inl ⟨hno 5, fun w _ => ⟨rfl, hno w⟩⟩⟩

/-- A change of owner takes the object just written back: at once from the
in-memory cache, and from the persistent one when the commit is replayed on a
database that already has it. -/
theorem owner_change_lost :
    (∃ next, (CachedStore.new EmptyStore).commitStore sampleWrite sampleOwnerChange = some next ∧
      (next.getObjectByKey (ObjectID.ofByte 7) 5).1 = none ∧
      (next.getObject (ObjectID.ofByte 7)).1 = none) ∧
    (∃ first next, (RocksCachedStore.new EmptyStore).commitStore sampleWrite sampleOwnerChange =
        some first ∧
      first.commitStore sampleWrite sampleOwnerChange = some next ∧
      (next.getObjectByKey (ObjectID.ofByte 7) 5).1 = none ∧
      (next.getObject (ObjectID.ofByte 7)).1 = none) ∧
    sampleWrite.written.get? (ObjectID.ofByte 7) = some (sampleObject 5 [5]) ∧
    ObjectID.ofByte 7 ∉ sampleOwnerChange.deleted.map Prod.fst := by
  refine ⟨⟨_, rfl, by decide, by decide⟩, ⟨_, _, rfl, rfl, by decide +kernel, by decide +kernel⟩,
    by decide, by decide⟩

end Movy.Store
