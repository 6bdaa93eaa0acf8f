import Movy.Store.History

/-!
# Deleted objects stay absent

After a commit that deletes an object, `get_object` and every child read from
the deletion version on should report it absent until a commit writes it
again. The in-memory cache relies on an empty entry above every live one, the
persistent one on having no live entry at all; both fall back to the backing
store for `get_object`.
-/

namespace Movy.Store

def BackingStore.ChildReadsSucceed (B : BackingStore) : Prop :=
  ∀ parent child b, ∃ x, B.readChildObject parent child b = .ok x

theorem BackingStore.Consistent.no_fetch {B : BackingStore} (hB : B.Consistent) (id : ObjectID)
    (hid : B.getObject id = none) (r : Read) (o : Object) (h : B.fetched r = some o) :
    o.id ≠ id := by
  rintro rfl
  have hkey := (hB.fetched r o h).2
  rw [hB.latest_none o.id hid o.version] at hkey
  simp at hkey

theorem BackingStore.Consistent.child_of_none {B : BackingStore} (hB : B.Consistent)
    (hok : B.ChildReadsSucceed) (id : ObjectID) (hid : B.getObject id = none) (parent : ObjectID)
    (b : SequenceNumber) : B.readChildObject parent id b = .ok none := by
  obtain ⟨x, hx⟩ := hok parent id b
  cases x with
  | none => exact hx
  | some o =>
    have hkey := (hB.child parent id b o hx).1
    rw [hB.latest_none id hid] at hkey
    simp at hkey

def Op.WritesId (op : Op) (id : ObjectID) : Prop := ∃ o, op.Writes o ∧ o.id = id

theorem Op.not_written (store : InnerTemporaryStore) (effects : TransactionEffects) (id : ObjectID)
    (h : ¬(Op.commitStore store effects).WritesId id) : store.written.get? id = none := by
  cases hwr : store.written.get? id with
  | none => rfl
  | some o =>
    have hid := store.written_keyed id o hwr
    exact absurd ⟨o, by simp only [Op.Writes, hid, hwr], hid⟩ h

/-! ### The in-memory cache -/

namespace CachedStore

def ReportsAbsent (s : CachedStore) (id : ObjectID) (v : SequenceNumber) : Prop :=
  (s.getObject id).1 = none ∧
    ∀ parent b, v ≤ b → (s.readChildObject parent id b).1 = .ok none

/-- Every live version of the object is older than `v` and has an empty entry
above it. -/
def Buried (s : CachedStore) (id : ObjectID) (v : SequenceNumber) : Prop :=
  ∀ w o, s.inner.entry id w = some (some o) →
    w < v ∧ ∃ u, w < u ∧ s.inner.entry id u = some none

theorem getObject_eq_none (s : CachedStore) (id : ObjectID) :
    (s.getObject id).1 = none ↔
      s.inner.objectIdCached id = none ∧ s.store.getObject id = none := by
  simp only [getObject]
  cases s.inner.objectIdCached id with
  | some o => simp
  | none => cases s.store.getObject id <;> simp

theorem readChildObject_fst (s : CachedStore) (parent child : ObjectID) (b : SequenceNumber) :
    (s.readChildObject parent child b).1 =
      match s.lookup (.readChildObject parent child b) with
      | .hit o => .ok (some o)
      | .absent => .ok none
      | .miss => s.store.readChildObject parent child b := by
  have h := congrArg Prod.fst (read_eq s (.readChildObject parent child b))
  cases hl : s.lookup (.readChildObject parent child b) <;>
    simpa [read, hl, Read.wrap, BackingStore.answer] using h

theorem reportsAbsent_iff (s : CachedStore) (hk : s.inner.WellKeyed) (hB : s.store.Consistent)
    (hok : s.store.ChildReadsSucceed) (id : ObjectID) (v : SequenceNumber) :
    s.ReportsAbsent id v ↔ s.store.getObject id = none ∧ s.Buried id v := by
  simp only [ReportsAbsent, getObject_eq_none]
  constructor
  · intro h
    obtain ⟨⟨hcached, hbase⟩, hchild⟩ := h
    refine ⟨hbase, ?_⟩
    intro w o he
    constructor
    · -- a live entry at or above the deletion is a perfect hit there
      by_contra hvw
      have hread := hchild id w (not_lt.mp hvw)
      rw [readChildObject_fst, (lookup_child_hit s hk id id w o).mpr he] at hread
      simp at hread
    · rcases CachedSnapshot.newest_or_unbound s.inner id u64Max with hu | ⟨u, x, hn⟩
      · rw [hu w (le_u64Max w)] at he
        simp at he
      · cases x with
        | some o' =>
          rw [(objectIdCached_eq_some s.inner id o').mpr ⟨u, hn⟩] at hcached
          simp at hcached
        | none =>
          refine ⟨u, ?_, hn.2.1⟩
          rcases lt_trichotomy w u with hlt | rfl | hlt
          · exact hlt
          · rw [hn.2.1] at he
            simp at he
          · rw [hn.2.2 w (le_u64Max w) hlt] at he
            simp at he
  · intro h
    obtain ⟨hbase, hbur⟩ := h
    refine ⟨⟨?_, hbase⟩, ?_⟩
    · cases hc : s.inner.objectIdCached id with
      | none => rfl
      | some o =>
        obtain ⟨w, hn⟩ := (objectIdCached_eq_some s.inner id o).mp hc
        obtain ⟨_, u, hlt, hu⟩ := hbur w o hn.2.1
        rw [hn.2.2 u (le_u64Max u) hlt] at hu
        simp at hu
    · intro parent b hvb
      rw [readChildObject_fst]
      cases hl : s.lookup (.readChildObject parent id b) with
      | hit o =>
        have he := (lookup_child_hit s hk parent id b o).mp hl
        exact absurd (hbur b o he).1 (not_lt.mpr hvb)
      | absent => rfl
      | miss => exact hB.child_of_none hok id hbase parent b

/-- An operation that does not write the object leaves its entries alone or
empties them. -/
theorem entry_step_unwritten (s next : CachedStore) (hk : s.inner.WellKeyed)
    (hB : s.store.Consistent) (op : Op) (id : ObjectID) (hbase : s.store.getObject id = none)
    (hw : ¬op.WritesId id) (h : s.step op = some next) (w : SequenceNumber) :
    next.inner.entry id w = s.inner.entry id w ∨ next.inner.entry id w = some none := by
  cases op with
  | read r =>
    obtain rfl := Option.some.inj h
    rcases entry_read s hk r id w with hsame | ⟨_, o, hf, hid, _⟩ | ⟨_, _, _, _, _, hnew⟩
    · exact Or.inl hsame
    · exact absurd hid (hB.no_fetch id hbase r o hf)
    · exact Or.inr hnew
  | commitSingleObject o =>
    obtain rfl := Option.some.inj h
    have hid : ¬(id = o.id ∧ w = o.version) := fun hc => hw ⟨o, rfl, hc.1.symm⟩
    left
    simp only [commitSingleObject, CachedSnapshot.entry_cacheObjectOnly, if_neg hid]
  | commitStore store effects =>
    obtain ⟨ids, _, _, hent⟩ := commitStore_cases s next store effects h
    have hwr : store.written.get? id = none := Op.not_written store effects id hw
    rw [hent, entry_commitWritten, hwr]
    split_ifs
    · exact Or.inr rfl
    · exact Or.inl rfl

theorem buried_step (s next : CachedStore) (hk : s.inner.WellKeyed) (hB : s.store.Consistent)
    (op : Op) (id : ObjectID) (v : SequenceNumber) (hbase : s.store.getObject id = none)
    (hw : ¬op.WritesId id) (h : s.step op = some next) (hbur : s.Buried id v) :
    next.Buried id v := by
  have hent := entry_step_unwritten s next hk hB op id hbase hw h
  intro w o he
  have he' : s.inner.entry id w = some (some o) := by
    rcases hent w with hsame | hnone
    · exact hsame ▸ he
    · rw [hnone] at he
      simp at he
  obtain ⟨hlt, u, hwu, hu⟩ := hbur w o he'
  refine ⟨hlt, u, hwu, ?_⟩
  rcases hent u with hsame | hnone
  · exact hsame.trans hu
  · exact hnone

def LiveAt (s : CachedStore) (store : InnerTemporaryStore) (id : ObjectID) (w : SequenceNumber) :
    Prop :=
  (∃ o, s.inner.entry id w = some (some o)) ∨ ∃ o, store.written.get? id = some o ∧ o.version = w

/-- The backing store does not have the object, and every version of it that
was cached before or is written now is emptied by this commit, or else is
older than the deletion and has an empty entry above it. -/
def DeletionHolds (s : CachedStore) (store : InnerTemporaryStore) (effects : TransactionEffects)
    (id : ObjectID) (v : SequenceNumber) : Prop :=
  s.store.getObject id = none ∧
  ∀ w, s.LiveAt store id w → (Op.commitStore store effects).Empties id w ∨
    (w < v ∧ ∃ u, w < u ∧ ((Op.commitStore store effects).Empties id u ∨
      (s.inner.entry id u = some none ∧ ∀ o, store.written.get? id = some o → o.version ≠ u)))

theorem buried_commitStore_iff (s next : CachedStore) (store : InnerTemporaryStore)
    (effects : TransactionEffects) (id : ObjectID) (v : SequenceNumber)
    (h : s.commitStore store effects = some next) :
    next.store.getObject id = none ∧ next.Buried id v ↔ s.DeletionHolds store effects id v := by
  obtain ⟨ids, hids, hstore, hent⟩ := commitStore_cases s next store effects h
  have hemp : ∀ u, (Op.commitStore store effects).Empties id u ↔
      (id, u) ∈ emptied store effects ids := by
    intro u
    simp only [Op.Empties, hids, Option.some.injEq, exists_eq_left']
  have hlive : ∀ w, (∃ o, next.inner.entry id w = some (some o)) ↔
      s.LiveAt store id w ∧ ¬(Op.commitStore store effects).Empties id w := by
    intro w
    rw [hemp, hent, LiveAt, entry_commitWritten]
    split_ifs with hin
    · simp [hin]
    · cases hwr : store.written.get? id with
      | none => simp [hin]
      | some o' =>
        by_cases hv : w = o'.version
        · subst hv
          simp [hin]
        · simp [hin, hv, Ne.symm hv]
  have hempty : ∀ u, next.inner.entry id u = some none ↔
      ((Op.commitStore store effects).Empties id u ∨
        (s.inner.entry id u = some none ∧
          ∀ o, store.written.get? id = some o → o.version ≠ u)) := by
    intro u
    rw [hemp, hent, entry_commitWritten]
    split_ifs with hin
    · simp [hin]
    · cases hwr : store.written.get? id with
      | none => simp [hin]
      | some o' =>
        by_cases hv : u = o'.version
        · subst hv
          simp [hin]
        · simp [hin, hv, Ne.symm hv]
  rw [hstore, DeletionHolds]
  refine and_congr_right fun _ => ?_
  constructor
  · intro hbur w hw
    by_cases he : (Op.commitStore store effects).Empties id w
    · exact Or.inl he
    · obtain ⟨o, ho⟩ := (hlive w).mpr ⟨hw, he⟩
      obtain ⟨hlt, u, hwu, hu⟩ := hbur w o ho
      exact Or.inr ⟨hlt, u, hwu, (hempty u).mp hu⟩
  · intro hall w o ho
    obtain ⟨hw, hne⟩ := (hlive w).mp ⟨o, ho⟩
    rcases hall w hw with he | ⟨hlt, u, hwu, hu⟩
    · exact absurd he hne
    · exact ⟨hlt, u, hwu, (hempty u).mpr hu⟩

/-- From the commit on, along every history that does not write the object. -/
theorem absent_forever_iff (s next : CachedStore) (hk : s.inner.WellKeyed)
    (hB : s.store.Consistent) (hok : s.store.ChildReadsSucceed) (store : InnerTemporaryStore)
    (effects : TransactionEffects) (id : ObjectID) (v : SequenceNumber)
    (h : s.commitStore store effects = some next) :
    (∀ later t, (∀ op ∈ later, ¬op.WritesId id) → run step next later = some t →
      t.ReportsAbsent id v) ↔ s.DeletionHolds store effects id v := by
  have hs := store_step s next (.commitStore store effects) h
  have hk' := wellKeyed_commitStore s next store effects h hk
  rw [← buried_commitStore_iff s next store effects id v h]
  constructor
  · intro hall
    have habs := hall [] next (by simp) rfl
    exact (reportsAbsent_iff next hk' (hs ▸ hB) (hs ▸ hok) id v).mp habs
  · rintro ⟨hbase, hbur⟩ later t hw hrun
    rw [hs] at hbase
    have hinv := run_invariant step (fun _ op => ¬op.WritesId id)
      (fun t => t.inner.WellKeyed ∧ t.store = s.store ∧ t.Buried id v) ?_ next t later
      ⟨hk', hs, hbur⟩ (along_of_forall step _ next later fun op hop _ => hw op hop) hrun
    · obtain ⟨hkt, hst, hbt⟩ := hinv
      exact (reportsAbsent_iff t hkt (hst ▸ hB) (hst ▸ hok) id v).mpr ⟨hst ▸ hbase, hbt⟩
    · rintro a op b ⟨hka, hsa, hba⟩ hwa hab
      refine ⟨wellKeyed_step a b op hka hab, (store_step a b op hab).trans hsa, ?_⟩
      exact buried_step a b hka (hsa ▸ hB) op id v (hsa ▸ hbase) hwa hab hba

end CachedStore

/-! ### The persistent cache -/

namespace RocksCachedStore

def ReportsAbsent (s : RocksCachedStore) (id : ObjectID) (v : SequenceNumber) : Prop :=
  (s.getObject id).1 = none ∧
    ∀ parent b, v ≤ b → (s.readChildObject parent id b).1 = .ok none

theorem getObject_eq_none (s : RocksCachedStore) (id : ObjectID) :
    (s.getObject id).1 = none ↔ s.getObjectByIdDb id = none ∧ s.store.getObject id = none := by
  simp only [getObject]
  cases s.getObjectByIdDb id with
  | some o => simp
  | none => cases s.store.getObject id <;> simp

theorem readChildObject_fst (s : RocksCachedStore) (parent child : ObjectID) (b : SequenceNumber) :
    (s.readChildObject parent child b).1 =
      match s.lookup (.readChildObject parent child b) with
      | .hit o => .ok (some o)
      | .absent => .ok none
      | .miss => s.store.readChildObject parent child b := by
  have h := congrArg Prod.fst (read_eq s (.readChildObject parent child b))
  cases hl : s.lookup (.readChildObject parent child b) <;>
    simpa [read, hl, Read.wrap, BackingStore.answer] using h

theorem reportsAbsent_iff (s : RocksCachedStore) (hk : DbKeyed s.db) (hB : s.store.Consistent)
    (hok : s.store.ChildReadsSucceed) (id : ObjectID) (v : SequenceNumber) :
    s.ReportsAbsent id v ↔ s.store.getObject id = none ∧ ∀ w, s.stored id w = none := by
  simp only [ReportsAbsent, getObject_eq_none, getObjectByIdDb_eq_none s hk]
  constructor
  · intro h
    obtain ⟨⟨hnone, hbase⟩, _⟩ := h
    exact ⟨hbase, hnone⟩
  · intro h
    obtain ⟨hbase, hnone⟩ := h
    refine ⟨⟨hnone, hbase⟩, ?_⟩
    intro parent b _
    rw [readChildObject_fst]
    cases hl : s.lookup (.readChildObject parent id b) with
    | hit o =>
      rw [lookup_child_hit s hk, hnone b] at hl
      simp at hl
    | absent => rfl
    | miss => exact hB.child_of_none hok id hbase parent b

theorem stored_step_unwritten (s next : RocksCachedStore) (hk : DbKeyed s.db)
    (hB : s.store.Consistent) (op : Op) (id : ObjectID) (hbase : s.store.getObject id = none)
    (hw : ¬op.WritesId id) (h : s.step op = some next) (w : SequenceNumber)
    (hnone : s.stored id w = none) : next.stored id w = none := by
  cases op with
  | read r =>
    obtain rfl := Option.some.inj h
    rcases read_cases s r with heq | ⟨_, o, hf, heq⟩
    · rw [heq]
      exact hnone
    · have hid := hB.no_fetch id hbase r o hf
      rw [heq, stored_putObject, if_neg fun hc => hid hc.2.1.symm]
      exact hnone
  | commitSingleObject o =>
    obtain rfl := Option.some.inj h
    have hid : o.id ≠ id := fun hc => hw ⟨o, rfl, hc⟩
    rw [commitSingleObject, stored_putObject, if_neg fun hc => hid hc.2.1.symm]
    exact hnone
  | commitStore store effects =>
    have h : s.commitStore store effects = some next := h
    cases hro : s.ro with
    | true =>
      simp only [commitStore, hro, if_true, Option.some.injEq] at h
      exact h ▸ hnone
    | false =>
      obtain ⟨ids, _, _, _, _, hget⟩ := commitStore_cases s next hk hro store effects h
      have hwr : store.written.get? id = none := Op.not_written store effects id hw
      rw [stored, hget, hwr]
      split_ifs
      · rfl
      · exact hnone

/-- The backing store does not have the object, and every stored or written
version of it is removed: the database is writable, the commit removes the id,
and the version was already stored when the commit looked for keys. -/
def DeletionHolds (s : RocksCachedStore) (store : InnerTemporaryStore)
    (effects : TransactionEffects) (id : ObjectID) : Prop :=
  s.store.getObject id = none ∧
  (∀ w o, s.stored id w = some o → s.ro = false ∧
    ∃ ids, endedIds store effects = some ids ∧ id ∈ removedIds store effects ids) ∧
  (s.ro = false → ∀ o, store.written.get? id = some o → ∃ o', s.stored id o.version = some o')

theorem stored_commitStore_iff (s next : RocksCachedStore) (hk : DbKeyed s.db)
    (store : InnerTemporaryStore) (effects : TransactionEffects) (id : ObjectID)
    (h : s.commitStore store effects = some next) :
    next.store.getObject id = none ∧ (∀ w, next.stored id w = none) ↔
      s.DeletionHolds store effects id := by
  cases hro : s.ro with
  | true =>
    simp only [commitStore, hro, if_true, Option.some.injEq] at h
    subst h
    simp only [DeletionHolds, hro, Bool.true_eq_false, false_and, IsEmpty.forall_iff, and_true]
    refine and_congr_right fun _ => ⟨fun hall w o ho => ?_, fun hall w => ?_⟩
    · rw [hall w] at ho
      simp at ho
    · cases hw : s.stored id w with
      | none => rfl
      | some o => exact absurd hw (hall w o)
  | false =>
    obtain ⟨ids, hids, hstore, _, _, hget⟩ := commitStore_cases s next hk hro store effects h
    rw [hstore, DeletionHolds]
    simp only [hro, true_and, forall_const, hids, Option.some.injEq, exists_eq_left']
    refine and_congr_right fun _ => ?_
    constructor
    · intro hall
      constructor
      · intro w o ho
        by_contra hid
        have hw := hall w
        rw [stored, hget, if_neg fun hc => hid hc.1] at hw
        have ho : s.db.get? (keyEncode id w) = some o := ho
        cases hwr : store.written.get? id with
        | none =>
          rw [hwr, ho] at hw
          simp at hw
        | some o' =>
          rw [hwr, ho] at hw
          simp only at hw
          split_ifs at hw
      · intro o ho
        have hw := hall o.version
        rw [stored, hget, ho] at hw
        split_ifs at hw with hc
        · exact Option.isSome_iff_exists.mp hc.2
        · simp at hw
    · rintro ⟨hstored, hwritten⟩ w
      rw [stored, hget]
      cases hold : s.db.get? (keyEncode id w) with
      | some o =>
        have hid := hstored w o hold
        rw [if_pos ⟨hid, rfl⟩]
      | none =>
        simp only [Option.isSome_none, Bool.false_eq_true, and_false, if_false]
        cases hwr : store.written.get? id with
        | none => rfl
        | some o =>
          simp only
          split_ifs with hv
          · obtain ⟨o', ho'⟩ := hwritten o hwr
            rw [← hv, stored, hold] at ho'
            simp at ho'
          · rfl

theorem absent_forever_iff (s next : RocksCachedStore) (hk : DbKeyed s.db)
    (hB : s.store.Consistent) (hok : s.store.ChildReadsSucceed) (store : InnerTemporaryStore)
    (effects : TransactionEffects) (id : ObjectID) (v : SequenceNumber)
    (h : s.commitStore store effects = some next) :
    (∀ later t, (∀ op ∈ later, ¬op.WritesId id) → run step next later = some t →
      t.ReportsAbsent id v) ↔ s.DeletionHolds store effects id := by
  obtain ⟨hk', hs, _⟩ := step_keeps s next (.commitStore store effects) hk h
  rw [← stored_commitStore_iff s next hk store effects id h]
  constructor
  · intro hall
    have habs := hall [] next (by simp) rfl
    exact (reportsAbsent_iff next hk' (hs ▸ hB) (hs ▸ hok) id v).mp habs
  · rintro ⟨hbase, hnone⟩ later t hw hrun
    rw [hs] at hbase
    have hinv := run_invariant step (fun _ op => ¬op.WritesId id)
      (fun t => DbKeyed t.db ∧ t.store = s.store ∧ ∀ w, t.stored id w = none) ?_ next t later
      ⟨hk', hs, hnone⟩ (along_of_forall step _ next later fun op hop _ => hw op hop) hrun
    · obtain ⟨hkt, hst, hnt⟩ := hinv
      exact (reportsAbsent_iff t hkt (hst ▸ hB) (hst ▸ hok) id v).mpr ⟨hst ▸ hbase, hnt⟩
    · rintro a op b ⟨hka, hsa, hna⟩ hwa hab
      obtain ⟨hkb, hsb, _⟩ := step_keeps a b op hka hab
      refine ⟨hkb, hsb.trans hsa, fun w => ?_⟩
      exact stored_step_unwritten a b hka (hsa ▸ hB) op id (hsa ▸ hbase) hwa hab w (hna w)

end RocksCachedStore

/-! ### Both stores -/

/-- Over any history: a deleted object is reported absent, until it is written
again, exactly if the commit met `DeletionHolds`. -/
theorem deletions_stick_iff (B : BackingStore) (hB : B.Consistent) (hok : B.ChildReadsSucceed)
    (store : InnerTemporaryStore) (effects : TransactionEffects) :
    (∀ before s next, run CachedStore.step (CachedStore.new B) before = some s →
      s.commitStore store effects = some next → ∀ ref ∈ effects.deleted,
      ((∀ later t, (∀ op ∈ later, ¬op.WritesId ref.1) →
          run CachedStore.step next later = some t → t.ReportsAbsent ref.1 ref.2.1) ↔
        s.DeletionHolds store effects ref.1 ref.2.1)) ∧
    (∀ db ro before s next, DbKeyed db → run RocksCachedStore.step ⟨db, ro, B⟩ before = some s →
      s.commitStore store effects = some next → ∀ ref ∈ effects.deleted,
      ((∀ later t, (∀ op ∈ later, ¬op.WritesId ref.1) →
          run RocksCachedStore.step next later = some t → t.ReportsAbsent ref.1 ref.2.1) ↔
        s.DeletionHolds store effects ref.1)) := by
  constructor
  · intro before s next hrun hcommit ref _
    obtain ⟨hk, hs⟩ := CachedStore.run_wellKeyed B s before hrun
    exact CachedStore.absent_forever_iff s next hk (hs ▸ hB) (hs ▸ hok) store effects ref.1 ref.2.1
      hcommit
  · intro db ro before s next hdb hrun hcommit ref _
    obtain ⟨hk, hs, _⟩ := RocksCachedStore.run_keeps ⟨db, ro, B⟩ s before hdb hrun
    have hs : s.store = B := hs
    exact RocksCachedStore.absent_forever_iff s next hk (hs ▸ hB) (hs ▸ hok) store effects ref.1
      ref.2.1 hcommit

/-- A transaction with version 3 of the object with id 7 as its only input. -/
def sampleInput : InnerTemporaryStore where
  inputObjects := SortedMap.empty.insert (ObjectID.ofByte 7) (sampleObject 3 [3])
  written := SortedMap.empty
  lamportVersion := 5
  streamEndedConsensusObjects := SortedMap.empty
  input_keyed := by
    intro id o h
    rw [SortedMap.get?_insert] at h
    split_ifs at h with hid
    · rw [← Option.some.inj h, hid]
      rfl
    · simp at h
  written_keyed := by
    intro id o h
    simp at h

def sampleDeletion : TransactionEffects where
  deleted := [(ObjectID.ofByte 7, 5, [])]
  transferredFromConsensus := []
  consensusOwnerChanged := []
  streamEndedMutablyAccessedConsensusObjects := []
  deleted_nodup := by decide

theorem emptyStore_consistent : EmptyStore.Consistent ∧ EmptyStore.ChildReadsSucceed := by
  refine ⟨⟨?_, ?_, ?_, ?_, ?_, ?_, ?_⟩, fun _ _ _ => ⟨none, rfl⟩⟩ <;>
    simp [EmptyStore, eq_comm]

theorem deletion_sticks_over_empty_store :
    ∃ s next, run CachedStore.step (CachedStore.new EmptyStore)
        [.commitSingleObject (sampleObject 3 [3])] = some s ∧
      s.commitStore sampleInput sampleDeletion = some next ∧
      next.ReportsAbsent (ObjectID.ofByte 7) 5 := by
  refine ⟨_, _, rfl, rfl, ?_⟩
  have hiff := (deletions_stick_iff EmptyStore emptyStore_consistent.1 emptyStore_consistent.2
    sampleInput sampleDeletion).1 [.commitSingleObject (sampleObject 3 [3])] _ _ rfl rfl
    (ObjectID.ofByte 7, 5, []) (List.mem_cons_self ..)
  refine hiff.mpr ⟨rfl, ?_⟩ [] _ (by simp) rfl
  intro w hw
  rcases hw with ⟨o, ho⟩ | ⟨o, ho, _⟩
  · have hkey : (CachedSnapshot.default.cacheObjectOnly (sampleObject 3 [3])).entry
        (ObjectID.ofByte 7) w = some (some o) := ho
    rw [CachedSnapshot.entry_cacheObjectOnly, CachedSnapshot.entry_default] at hkey
    split_ifs at hkey with hc
    obtain ⟨_, rfl⟩ := hc
    exact Or.inr ⟨by decide, 5, by decide, Or.inl ⟨[], rfl, by decide⟩⟩
  · exact absurd ho (by simp [sampleInput])

/-- The backing store still has the deleted object, and both stores hand it out. -/
theorem deletion_forgotten :
    twoVersions.Consistent ∧ twoVersions.ChildReadsSucceed ∧
    (∃ s next, run CachedStore.step (CachedStore.new twoVersions)
        [.read (.getObject (ObjectID.ofByte 7))] = some s ∧
      s.commitStore sampleInput sampleDeletion = some next ∧
      (next.getObject (ObjectID.ofByte 7)).1 = some (sampleObject 3 [3]) ∧
      ¬next.ReportsAbsent (ObjectID.ofByte 7) 5) ∧
    (∃ s next, run RocksCachedStore.step (RocksCachedStore.new twoVersions)
        [.read (.getObject (ObjectID.ofByte 7))] = some s ∧
      s.commitStore sampleInput sampleDeletion = some next ∧
      (next.getObject (ObjectID.ofByte 7)).1 = some (sampleObject 3 [3]) ∧
      ¬next.ReportsAbsent (ObjectID.ofByte 7) 5) := by
  refine ⟨twoVersions_consistent, fun _ _ _ => ⟨_, rfl⟩,
    ⟨_, _, rfl, rfl, by decide, ?_⟩, ⟨_, _, rfl, rfl, by decide +kernel, ?_⟩⟩
  · intro h
    exact absurd h.1 (by decide)
  · intro h
    exact absurd h.1 (by decide +kernel)

end Movy.Store
