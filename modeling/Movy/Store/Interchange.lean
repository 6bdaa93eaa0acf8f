import Movy.Store.Deletion

/-!
# The two stores against each other

Fed the same history over the same backing store, `CachedStore` and
`RocksCachedStore` should give the same answers. They represent absence
differently: an empty entry in the one, no key in the other. The simulation
below holds as long as empty entries stay below all live versions of an id.
-/

namespace Movy.Store

namespace CachedStore

def NoneFrom (s : CachedStore) (o : Object) : Prop :=
  ∀ u, s.inner.entry o.id u = some none → u < o.version

/-- A child read that meets a recorded absence would find nothing in the
backing store either. -/
def ReadAgrees (s : CachedStore) : Read → Prop
  | .readChildObject parent child b =>
    s.lookup (.readChildObject parent child b) = .absent →
      s.store.readChildObject parent child b = .ok none
  | _ => True

/-- What a missed read brings does not lie at or below a recorded absence, and
an empty child read does not lie above a live version. -/
def FillAgrees (s : CachedStore) (r : Read) : Prop :=
  s.lookup r = .miss →
    (∀ o, s.store.fetched r = some o → s.NoneFrom o) ∧
    (∀ parent child b, r = .readChildObject parent child b →
      s.store.readChildObject parent child b = .ok none →
      ∀ w o, s.inner.entry child w = some (some o) → b < w)

/-- The condition on one operation: reads as above; a commit writes nothing at
or below a recorded absence, and what it empties has no live version. -/
def Interchange (s : CachedStore) : Op → Prop
  | .read r => s.ReadAgrees r ∧ s.FillAgrees r
  | .commitSingleObject o => s.NoneFrom o
  | .commitStore store effects =>
    (∀ id o, store.written.get? id = some o → s.NoneFrom o) ∧
    ∀ id w, (Op.commitStore store effects).Empties id w →
      store.written.get? id = none ∧ ∀ u o, s.inner.entry id u ≠ some (some o)

end CachedStore

/-- The live entries are the stored objects, and recorded absences lie below
them. -/
structure Matches (s : CachedStore) (t : RocksCachedStore) : Prop where
  keyed : s.inner.WellKeyed
  dbKeyed : DbKeyed t.db
  writable : t.ro = false
  store_eq : t.store = s.store
  live : ∀ id v o, s.inner.entry id v = some (some o) ↔ t.stored id v = some o
  below : ∀ id u w o, s.inner.entry id u = some none → s.inner.entry id w = some (some o) → u < w

namespace Matches

variable {s : CachedStore} {t : RocksCachedStore}

theorem new (B : BackingStore) : Matches (CachedStore.new B) (RocksCachedStore.new B) := by
  refine ⟨CachedSnapshot.wellKeyed_default, dbKeyed_empty, rfl, rfl, ?_, ?_⟩
  · intro id v o
    simp [CachedStore.new, CachedSnapshot.entry_default, RocksCachedStore.new,
      RocksCachedStore.stored]
  · intro id u w o h
    simp [CachedStore.new, CachedSnapshot.entry_default] at h

theorem objectIdCached (h : Matches s t) (id : ObjectID) :
    s.inner.objectIdCached id = t.getObjectByIdDb id := by
  apply Option.ext
  intro o
  rw [CachedStore.objectIdCached_eq_some,
    RocksCachedStore.getObjectByIdDb_eq_some t h.dbKeyed]
  constructor
  · intro hall
    obtain ⟨u, hu, he, hmax⟩ := hall
    refine ⟨u, hu, (h.live id u o).mp he, ?_⟩
    intro w hw hlt
    cases hst : t.db.get? (keyEncode id w) with
    | none => rfl
    | some o' =>
      have hlive := (h.live id w o').mpr hst
      rw [hmax w hw hlt] at hlive
      simp at hlive
  · intro hall
    obtain ⟨u, hu, he, hmax⟩ := hall
    have hlive := (h.live id u o).mpr he
    refine ⟨u, hu, hlive, ?_⟩
    intro w hw hlt
    rcases hent : s.inner.entry id w with _ | _ | o'
    · rfl
    · exact absurd (h.below id w u o hent hlive) (not_lt.mpr hlt.le)
    · have hst : t.db.get? (keyEncode id w) = some o' := (h.live id w o').mp hent
      rw [hmax w hw hlt] at hst
      simp at hst

theorem objectExactVersion (h : Matches s t) (id : ObjectID) (v : SequenceNumber) :
    s.inner.objectExactVersion id v = t.getObjectExact id v := by
  apply Option.ext
  intro o
  rw [CachedStore.objectExactVersion_eq_some, h.live]
  rfl

theorem lookup (h : Matches s t) (r : Read) :
    s.lookup r = t.lookup r ∨ (s.lookup r = .absent ∧ t.lookup r = .miss ∧
      ∃ parent child b, r = .readChildObject parent child b) := by
  cases r with
  | getObject id => exact Or.inl (congrArg Lookup.ofOption (h.objectIdCached id))
  | getObjectByKey id v => exact Or.inl (congrArg Lookup.ofOption (h.objectExactVersion id v))
  | getPackageObject id => exact Or.inl (congrArg Lookup.ofOption (h.objectIdCached id))
  | getObjectReceivedAtVersion owner id v epoch =>
    exact Or.inl (congrArg Lookup.ofOption (h.objectExactVersion id v))
  | readChildObject parent child b =>
    have hhit : ∀ o, s.lookup (.readChildObject parent child b) = .hit o ↔
        t.lookup (.readChildObject parent child b) = .hit o := by
      intro o
      rw [CachedStore.lookup_child_hit s h.keyed, RocksCachedStore.lookup_child_hit t h.dbKeyed,
        h.live]
    have hmiss : (∀ o, t.lookup (.readChildObject parent child b) ≠ .hit o) →
        t.lookup (.readChildObject parent child b) = .miss := by
      intro hno
      cases ht : t.lookup (.readChildObject parent child b) with
      | hit o => exact absurd ht (hno o)
      | absent => exact absurd ht (RocksCachedStore.lookup_child_ne_absent t parent child b)
      | miss => rfl
    cases hs : s.lookup (.readChildObject parent child b) with
    | hit o => exact Or.inl ((hhit o).mp hs).symm
    | absent =>
      refine Or.inr ⟨rfl, hmiss fun o ho => ?_, parent, child, b, rfl⟩
      rw [(hhit o).mpr ho] at hs
      simp at hs
    | miss =>
      refine Or.inl (hmiss fun o ho => ?_).symm
      rw [(hhit o).mpr ho] at hs
      simp at hs

theorem read_fst (h : Matches s t) (r : Read) (ha : s.ReadAgrees r) :
    (s.read r).1 = (t.read r).1 := by
  rw [CachedStore.read_eq, RocksCachedStore.read_eq]
  rcases h.lookup r with heq | ⟨hs, ht, parent, child, b, rfl⟩
  · rw [← heq]
    cases hl : s.lookup r with
    | hit o => rfl
    | absent => rfl
    | miss => simp only [h.store_eq]
  · have hnone : s.store.readChildObject parent child b = .ok none := ha hs
    simp only [hs, ht, h.store_eq, Read.wrap, BackingStore.answer, hnone]

/-! ### One operation -/

theorem put (h : Matches s t) (o : Object) (hn : s.NoneFrom o) :
    Matches { s with inner := s.inner.cacheObjectOnly o } (t.putObject o) := by
  obtain ⟨hstore, hro⟩ := RocksCachedStore.store_putObject t o
  refine ⟨CachedSnapshot.wellKeyed_cacheObjectOnly _ o h.keyed,
    RocksCachedStore.dbKeyed_putObject t o h.dbKeyed, hro.trans h.writable,
    hstore.trans h.store_eq, ?_, ?_⟩
  · intro id v o'
    rw [CachedSnapshot.entry_cacheObjectOnly, RocksCachedStore.stored_putObject]
    simp only [h.writable, true_and]
    split_ifs
    · simp
    · exact h.live id v o'
  · intro id u w o' hu hw
    rw [CachedSnapshot.entry_cacheObjectOnly] at hu hw
    split_ifs at hu with hcu
    · simp at hu
    · split_ifs at hw with hcw
      · rw [hcw.1] at hu
        rw [hcw.2]
        exact hn u hu
      · exact h.below id u w o' hu hw

theorem note (h : Matches s t) (child : ObjectID) (b : SequenceNumber)
    (hfree : s.inner.entry child b = none)
    (hn : ∀ w o, s.inner.entry child w = some (some o) → b < w) :
    Matches { s with inner := s.inner.cacheQuery child b none } t := by
  refine ⟨CachedSnapshot.wellKeyed_cacheQuery_none _ child b h.keyed, h.dbKeyed, h.writable,
    h.store_eq, ?_, ?_⟩
  · intro id v o
    rw [← h.live, CachedSnapshot.entry_cacheQuery]
    split_ifs with hc
    · rw [hc.1, hc.2, hfree]
      simp
    · rfl
  · intro id u w o hu hw
    rw [CachedSnapshot.entry_cacheQuery] at hu hw
    split_ifs at hw with hcw
    · simp at hw
    · split_ifs at hu with hcu
      · rw [hcu.1] at hw
        rw [hcu.2]
        exact hn w o hw
      · exact h.below id u w o hu hw

theorem read_snd (h : Matches s t) (r : Read) (ha : s.ReadAgrees r) (hf : s.FillAgrees r) :
    Matches (s.read r).2 (t.read r).2 := by
  rw [CachedStore.read_eq, RocksCachedStore.read_eq]
  rcases h.lookup r with heq | ⟨hs, ht, parent, child, b, rfl⟩
  · rw [← heq]
    cases hl : s.lookup r with
    | hit o => exact h
    | absent => exact h
    | miss =>
      obtain ⟨hput, hnote⟩ := hf hl
      simp only [CachedStore.fill, RocksCachedStore.fill, h.store_eq]
      cases hfe : s.store.fetched r with
      | some o => exact h.put o (hput o hfe)
      | none =>
        cases r with
        | readChildObject parent child b =>
          cases hb : s.store.readChildObject parent child b with
          | error e => simpa only [hb] using h
          | ok x =>
            simp only [BackingStore.fetched, BackingStore.answer, hb, Answer.carried] at hfe
            subst hfe
            simp only [hb]
            exact h.note child b (CachedStore.entry_of_child_miss s h.keyed parent child b hl)
              (hnote parent child b rfl hb)
        | getObject id => exact h
        | getObjectByKey id v => exact h
        | getPackageObject id => exact h
        | getObjectReceivedAtVersion owner id v epoch => exact h
  · have hnone : s.store.readChildObject parent child b = .ok none := ha hs
    simp only [hs, ht, RocksCachedStore.fill, h.store_eq, BackingStore.fetched,
      BackingStore.answer, hnone, Answer.carried]
    exact h

theorem mem_removedIds (store : InnerTemporaryStore) (effects : TransactionEffects)
    (ids : List ObjectID) (id : ObjectID) (h : id ∈ RocksCachedStore.removedIds store effects ids) :
    ∃ w, (id, w) ∈ CachedStore.emptied store effects ids := by
  rcases List.mem_append.mp h with h | h
  · obtain ⟨k, hk, rfl⟩ := List.mem_map.mp h
    exact ⟨k.2, List.mem_append_left _ hk⟩
  · exact ⟨store.lamportVersion, List.mem_append_right _ (List.mem_map_of_mem h)⟩

theorem commitStore (h : Matches s t) (store : InnerTemporaryStore) (effects : TransactionEffects)
    (hg : s.Interchange (.commitStore store effects)) (next : CachedStore)
    (hc : s.commitStore store effects = some next) :
    ∃ next', t.commitStore store effects = some next' ∧ Matches next next' := by
  obtain ⟨ids, hids, hstore, hent⟩ := CachedStore.commitStore_cases s next store effects hc
  obtain ⟨next', hnext'⟩ : ∃ next', t.commitStore store effects = some next' := by
    simp only [RocksCachedStore.commitStore, h.writable, Bool.false_eq_true, if_false, hids,
      Option.bind_eq_bind, Option.bind_some, Option.some.injEq, exists_eq']
  obtain ⟨ids', hids', hstore', hro', hk', hget⟩ :=
    RocksCachedStore.commitStore_cases t next' h.dbKeyed h.writable store effects hnext'
  obtain rfl : ids = ids' := Option.some.inj (hids.symm.trans hids')
  obtain ⟨hwr, hem⟩ := hg
  have hgone : ∀ id w, (id, w) ∈ CachedStore.emptied store effects ids →
      store.written.get? id = none ∧ ∀ u o, s.inner.entry id u ≠ some (some o) :=
    fun id w hm => hem id w ⟨ids, hids, hm⟩
  -- the keys that are removed were not stored
  have hstored : ∀ id v, next'.stored id v =
      (store.written.get? id).elim (t.stored id v) fun o =>
        if v = o.version then some o else t.stored id v := by
    intro id v
    rw [RocksCachedStore.stored, hget]
    rw [if_neg]
    · cases store.written.get? id <;> rfl
    · intro hall
      obtain ⟨hm, hsome⟩ := hall
      obtain ⟨w, hw⟩ := mem_removedIds store effects ids id hm
      obtain ⟨o, ho⟩ := Option.isSome_iff_exists.mp hsome
      exact (hgone id w hw).2 v o ((h.live id v o).mpr ho)
  refine ⟨next', hnext', CachedStore.wellKeyed_commitStore s next store effects hc h.keyed, hk',
    hro', hstore'.trans (h.store_eq.trans hstore.symm), ?_, ?_⟩
  · intro id v o
    rw [hent, hstored]
    split_ifs with hm
    · obtain ⟨hnw, hnl⟩ := hgone id v hm
      simp only [hnw, Option.elim_none]
      rw [← h.live]
      simp [hnl v o]
    · rw [CachedStore.entry_commitWritten]
      cases hw : store.written.get? id with
      | none => exact h.live id v o
      | some o' =>
        simp only [Option.elim_some]
        split_ifs
        · simp
        · exact h.live id v o
  · intro id u w o hu hw
    rw [hent, CachedStore.entry_commitWritten] at hu hw
    split_ifs at hw with hmw
    · simp at hw
    · split_ifs at hu with hmu
      · obtain ⟨hnw, hnl⟩ := hgone id u hmu
        simp only [hnw] at hw
        exact absurd hw (hnl w o)
      · cases hwr' : store.written.get? id with
        | none =>
          simp only [hwr'] at hu hw
          exact h.below id u w o hu hw
        | some o' =>
          have hid := store.written_keyed id o' hwr'
          simp only [hwr'] at hu hw
          split_ifs at hu with hvu
          · simp at hu
          · split_ifs at hw with hvw
            · rw [hvw]
              exact hwr id o' hwr' u (hid ▸ hu)
            · exact h.below id u w o hu hw

theorem step (h : Matches s t) (op : Op) (hg : s.Interchange op) (next : CachedStore)
    (hs : s.step op = some next) : ∃ next', t.step op = some next' ∧ Matches next next' := by
  cases op with
  | read r =>
    obtain rfl := Option.some.inj hs
    exact ⟨(t.read r).2, rfl, h.read_snd r hg.1 hg.2⟩
  | commitSingleObject o =>
    obtain rfl := Option.some.inj hs
    exact ⟨t.putObject o, rfl, h.put o hg⟩
  | commitStore store effects => exact h.commitStore store effects hg next hs

end Matches

/-- Along every history whose operations meet the condition, the persistent
store follows the in-memory one and every read gets the same answer from both. -/
theorem stores_interchangeable (B : BackingStore) (ops : List Op) (s : CachedStore)
    (hg : Along CachedStore.step CachedStore.Interchange (CachedStore.new B) ops)
    (hrun : run CachedStore.step (CachedStore.new B) ops = some s) :
    ∃ t, run RocksCachedStore.step (RocksCachedStore.new B) ops = some t ∧
      ∀ r, s.ReadAgrees r → (s.read r).1 = (t.read r).1 := by
  obtain ⟨t, ht, hm⟩ := run_simulation CachedStore.step RocksCachedStore.step
    CachedStore.Interchange Matches (fun s t op next h hg hs => h.step op hg next hs)
    (CachedStore.new B) s (RocksCachedStore.new B) ops (Matches.new B) hg hrun
  exact ⟨t, ht, fun r hr => hm.read_fst r hr⟩

theorem interchangeable_after_commit_and_read :
    ∃ s t, run CachedStore.step (CachedStore.new twoVersions)
        [.commitSingleObject (sampleObject 5 [5]), .read (.getObject (ObjectID.ofByte 7))] = some s ∧
      run RocksCachedStore.step (RocksCachedStore.new twoVersions)
        [.commitSingleObject (sampleObject 5 [5]), .read (.getObject (ObjectID.ofByte 7))] = some t ∧
      ∀ id v, (s.read (.getObjectByKey id v)).1 = (t.read (.getObjectByKey id v)).1 := by
  obtain ⟨t, ht, hr⟩ := stores_interchangeable twoVersions
    [.commitSingleObject (sampleObject 5 [5]), .read (.getObject (ObjectID.ofByte 7))] _
    ⟨fun u hu => by simp [CachedStore.new, CachedSnapshot.entry_default] at hu,
      fun next hn => ⟨⟨trivial, fun hmiss => by
        obtain rfl := Option.some.inj hn
        exact absurd hmiss (by decide)⟩, fun _ _ => trivial⟩⟩ rfl
  exact ⟨_, t, rfl, ht, fun id v => hr (.getObjectByKey id v) trivial⟩

/-- After the object was deleted, the in-memory cache reports it absent and the
persistent one asks the backing store, which still has it. -/
theorem stores_differ_after_deletion :
    ∃ s t, run CachedStore.step (CachedStore.new twoVersions)
        [.read (.getObject (ObjectID.ofByte 7)), .commitStore sampleInput sampleDeletion] = some s ∧
      run RocksCachedStore.step (RocksCachedStore.new twoVersions)
        [.read (.getObject (ObjectID.ofByte 7)), .commitStore sampleInput sampleDeletion] = some t ∧
      (s.readChildObject (ObjectID.ofByte 1) (ObjectID.ofByte 7) 9).1 = .ok none ∧
      (t.readChildObject (ObjectID.ofByte 1) (ObjectID.ofByte 7) 9).1 =
        .ok (some (sampleObject 3 [3])) := by
  refine ⟨_, _, rfl, rfl, by decide +kernel, by decide +kernel⟩

end Movy.Store
