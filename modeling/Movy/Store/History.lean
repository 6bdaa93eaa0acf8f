import Movy.Lib.Run
import Movy.Store.Backing
import Movy.Store.Rocks

/-!
# Histories of reads and commits

Reads and the two commits as operations, so that a history is a list. A read
of either store is a lookup in the cache followed, on a miss, by
the backing store's own answer and a note of it in the cache; `read_eq` says
so once for each store.
-/

namespace Movy.Store

inductive Op where
  | read (r : Read)
  | commitSingleObject (object : Object)
  | commitStore (store : InnerTemporaryStore) (effects : TransactionEffects)

def Op.Empties (op : Op) (id : ObjectID) (v : SequenceNumber) : Prop :=
  match op with
  | .commitStore store effects =>
    ∃ ids, endedIds store effects = some ids ∧ (id, v) ∈ CachedStore.emptied store effects ids
  | _ => False

def Op.Writes (op : Op) (o : Object) : Prop :=
  match op with
  | .commitSingleObject object => object = o
  | .commitStore store _ => store.written.get? o.id = some o
  | .read _ => False

/-- What an operation puts at a key by itself, whatever was there. -/
def Op.effect (op : Op) (id : ObjectID) (v : SequenceNumber) : Option (Option Object) :=
  match op with
  | .read _ => none
  | .commitSingleObject o => if id = o.id ∧ v = o.version then some (some o) else none
  | .commitStore store effects =>
    if (id, v) ∈ CachedStore.emptied store effects ((endedIds store effects).getD []) then some none
    else match store.written.get? id with
      | some o => if v = o.version then some (some o) else none
      | none => none

def CachedStore.read (self : CachedStore) : Read → Answer × CachedStore
  | .getObject id => let r := self.getObject id; (.object r.1, r.2)
  | .getObjectByKey id v => let r := self.getObjectByKey id v; (.object r.1, r.2)
  | .getPackageObject id => let r := self.getPackageObject id; (.package r.1, r.2)
  | .getObjectReceivedAtVersion owner id v epoch =>
    let r := self.getObjectReceivedAtVersion owner id v epoch; (.result r.1, r.2)
  | .readChildObject parent child b =>
    let r := self.readChildObject parent child b; (.result r.1, r.2)

def RocksCachedStore.read (self : RocksCachedStore) : Read → Answer × RocksCachedStore
  | .getObject id => let r := self.getObject id; (.object r.1, r.2)
  | .getObjectByKey id v => let r := self.getObjectByKey id v; (.object r.1, r.2)
  | .getPackageObject id => let r := self.getPackageObject id; (.package r.1, r.2)
  | .getObjectReceivedAtVersion owner id v epoch =>
    let r := self.getObjectReceivedAtVersion owner id v epoch; (.result r.1, r.2)
  | .readChildObject parent child b =>
    let r := self.readChildObject parent child b; (.result r.1, r.2)

/-- One operation of a history; `none` is a panic inside a commit. -/
def CachedStore.step (self : CachedStore) : Op → Option CachedStore
  | .read r => some (self.read r).2
  | .commitSingleObject object => some (self.commitSingleObject object)
  | .commitStore store effects => self.commitStore store effects

def RocksCachedStore.step (self : RocksCachedStore) : Op → Option RocksCachedStore
  | .read r => some (self.read r).2
  | .commitSingleObject object => some (self.commitSingleObject object)
  | .commitStore store effects => self.commitStore store effects

/-! ### Reads as lookups -/

/-- What a store finds without asking the backing store. -/
inductive Lookup where
  | hit (object : Object)
  | absent
  | miss
  deriving DecidableEq

def Lookup.ofOption : Option Object → Lookup
  | some o => .hit o
  | none => .miss

namespace CachedStore

def lookup (self : CachedStore) : Read → Lookup
  | .getObject id => .ofOption (self.inner.objectIdCached id)
  | .getObjectByKey id v => .ofOption (self.inner.objectExactVersion id v)
  | .getPackageObject id => .ofOption (self.inner.objectIdCached id)
  | .getObjectReceivedAtVersion _ id v _ => .ofOption (self.inner.objectExactVersion id v)
  | .readChildObject _ child b => match self.inner.objectResolveUpperboundDetails child b with
    | .knownNotExisting => .absent
    | .existing o => if o.version = b then .hit o else .miss
    | .unbound => .miss

/-- What a miss leaves in the snapshot. Only a child read leaves a trace when
the backing store finds nothing. -/
def fill (self : CachedStore) (r : Read) : CachedStore :=
  match self.store.fetched r, r with
  | some o, _ => { self with inner := self.inner.cacheObjectOnly o }
  | none, .readChildObject parent child b => match self.store.readChildObject parent child b with
    | .ok _ => { self with inner := self.inner.cacheQuery child b none }
    | .error _ => self
  | none, _ => self

theorem read_eq (self : CachedStore) (r : Read) :
    self.read r = match self.lookup r with
      | .hit o => (r.wrap (some o), self)
      | .absent => (r.wrap none, self)
      | .miss => (self.store.answer r, self.fill r) := by
  cases r with
  | getObject id =>
    simp only [read, getObject, lookup]
    cases hc : self.inner.objectIdCached id with
    | some o => rfl
    | none =>
      cases hb : self.store.getObject id <;>
        simp [Lookup.ofOption, BackingStore.answer, fill, BackingStore.fetched, Answer.carried, hb]
  | getObjectByKey id v =>
    simp only [read, getObjectByKey, lookup]
    cases hc : self.inner.objectExactVersion id v with
    | some o => rfl
    | none =>
      cases hb : self.store.getObjectByKey id v <;>
        simp [Lookup.ofOption, BackingStore.answer, fill, BackingStore.fetched, Answer.carried, hb]
  | getPackageObject id =>
    simp only [read, getPackageObject, lookup]
    cases hc : self.inner.objectIdCached id with
    | some o => rfl
    | none =>
      cases hb : self.store.getPackageObject id with
      | error e =>
        simp [Lookup.ofOption, BackingStore.answer, fill, BackingStore.fetched, Answer.carried, hb]
      | ok p =>
        cases p <;>
          simp [Lookup.ofOption, BackingStore.answer, fill, BackingStore.fetched, Answer.carried, hb]
  | getObjectReceivedAtVersion owner id v epoch =>
    simp only [read, getObjectReceivedAtVersion, lookup]
    cases hc : self.inner.objectExactVersion id v with
    | some o => rfl
    | none =>
      cases hb : self.store.getObjectReceivedAtVersion owner id v epoch with
      | error e =>
        simp [Lookup.ofOption, BackingStore.answer, fill, BackingStore.fetched, Answer.carried, hb]
      | ok p =>
        cases p <;>
          simp [Lookup.ofOption, BackingStore.answer, fill, BackingStore.fetched, Answer.carried, hb]
  | readChildObject parent child b =>
    have hmiss : (Answer.result (self.readChildMiss parent child b).1,
        (self.readChildMiss parent child b).2) =
        (self.store.answer (.readChildObject parent child b),
          self.fill (.readChildObject parent child b)) := by
      simp only [readChildMiss, BackingStore.answer, fill, BackingStore.fetched]
      cases hb : self.store.readChildObject parent child b with
      | error e => simp [Answer.carried, hb]
      | ok p => cases p <;> simp [Answer.carried, hb]
    simp only [read, readChildObject, lookup]
    cases hd : self.inner.objectResolveUpperboundDetails child b with
    | knownNotExisting => rfl
    | existing o =>
      by_cases hv : o.version = b
      · simp only [if_pos hv]
        rfl
      · simp only [if_neg hv]
        exact hmiss
    | unbound => exact hmiss

theorem ofOption_hit (x : Option Object) (o : Object) : Lookup.ofOption x = .hit o ↔ x = some o := by
  cases x <;> simp [Lookup.ofOption]

theorem objectIdCached_eq_some (s : CachedSnapshot) (id : ObjectID) (o : Object) :
    s.objectIdCached id = some o ↔ ∃ u, s.Newest id u64Max u (some o) := by
  constructor
  · intro h
    have hs := CachedSnapshot.resolve_spec s id u64Max
    cases hr : s.objectResolveUpperboundDetails id u64Max with
    | existing o' =>
      rw [hr] at hs
      simp only [CachedSnapshot.objectIdCached, CachedSnapshot.objectResolvedUpperbound, hr,
        ResolvedResult.intoObject, Option.some.injEq] at h
      exact h ▸ hs
    | knownNotExisting => simp [CachedSnapshot.objectIdCached,
        CachedSnapshot.objectResolvedUpperbound, hr, ResolvedResult.intoObject] at h
    | unbound => simp [CachedSnapshot.objectIdCached,
        CachedSnapshot.objectResolvedUpperbound, hr, ResolvedResult.intoObject] at h
  · intro hall
    obtain ⟨u, hu⟩ := hall
    simp only [CachedSnapshot.objectIdCached, CachedSnapshot.objectResolvedUpperbound,
      CachedSnapshot.resolve_existing s id u64Max u o hu, ResolvedResult.intoObject]

theorem objectExactVersion_eq_some (s : CachedSnapshot) (id : ObjectID) (v : SequenceNumber)
    (o : Object) : s.objectExactVersion id v = some o ↔ s.entry id v = some (some o) := by
  rw [CachedSnapshot.objectExactVersion_eq, Option.join_eq_some_iff]

theorem lookup_child_hit (self : CachedStore) (hk : self.inner.WellKeyed) (parent child : ObjectID)
    (b : SequenceNumber) (o : Object) :
    self.lookup (.readChildObject parent child b) = .hit o ↔
      self.inner.entry child b = some (some o) := by
  have hs := CachedSnapshot.resolve_spec self.inner child b
  constructor
  · intro h
    simp only [lookup] at h
    cases hr : self.inner.objectResolveUpperboundDetails child b with
    | existing o' =>
      simp only [hr] at h hs
      split_ifs at h with hv
      obtain rfl := Lookup.hit.inj h
      obtain ⟨u, _, he, _⟩ := hs
      rwa [← (hk child u o' he).2, hv] at he
    | knownNotExisting => simp [hr] at h
    | unbound => simp [hr] at h
  · intro h
    have hn : self.inner.Newest child b b (some o) :=
      ⟨le_rfl, h, fun w hw hlt => absurd hlt (not_lt.mpr hw)⟩
    simp only [lookup, CachedSnapshot.resolve_existing self.inner child b b o hn,
      (hk child b o h).2, if_pos]

theorem lookup_child_absent (self : CachedStore) (parent child : ObjectID) (b : SequenceNumber) :
    self.lookup (.readChildObject parent child b) = .absent ↔
      ∃ u, self.inner.Newest child b u none := by
  constructor
  · intro h
    have hs := CachedSnapshot.resolve_spec self.inner child b
    simp only [lookup] at h
    cases hr : self.inner.objectResolveUpperboundDetails child b with
    | existing o' =>
      simp only [hr] at h
      split_ifs at h
    | knownNotExisting => simpa only [hr] using hs
    | unbound => simp [hr] at h
  · intro hall
    obtain ⟨u, hu⟩ := hall
    simp only [lookup, CachedSnapshot.resolve_knownNotExisting self.inner child b u hu]

/-- A child read that misses finds nothing at the bound itself. -/
theorem entry_of_child_miss (self : CachedStore) (hk : self.inner.WellKeyed)
    (parent child : ObjectID) (b : SequenceNumber)
    (h : self.lookup (.readChildObject parent child b) = .miss) :
    self.inner.entry child b = none := by
  cases he : self.inner.entry child b with
  | none => rfl
  | some x =>
    cases x with
    | some o =>
      rw [(lookup_child_hit self hk parent child b o).mpr he] at h
      simp at h
    | none =>
      have hn : self.inner.Newest child b b none :=
        ⟨le_rfl, he, fun w hw hlt => absurd hlt (not_lt.mpr hw)⟩
      rw [(lookup_child_absent self parent child b).mpr ⟨b, hn⟩] at h
      simp at h

/-- Everything a read can do to the cache. -/
theorem read_cases (self : CachedStore) (r : Read) :
    (self.read r).2 = self ∨
    (self.lookup r = .miss ∧ ∃ o, self.store.fetched r = some o ∧
      (self.read r).2 = { self with inner := self.inner.cacheObjectOnly o }) ∨
    (self.lookup r = .miss ∧ ∃ parent child b, r = .readChildObject parent child b ∧
      self.store.readChildObject parent child b = .ok none ∧
      (self.read r).2 = { self with inner := self.inner.cacheQuery child b none }) := by
  rw [read_eq]
  cases hl : self.lookup r with
  | hit o => exact Or.inl rfl
  | absent => exact Or.inl rfl
  | miss =>
    cases hf : self.store.fetched r with
    | some o => exact Or.inr (Or.inl ⟨rfl, o, rfl, by simp only [fill, hf]⟩)
    | none =>
      cases r with
      | readChildObject parent child b =>
        cases hb : self.store.readChildObject parent child b with
        | error e => exact Or.inl (by simp only [fill, hf, hb])
        | ok x =>
          simp only [BackingStore.fetched, BackingStore.answer, hb, Answer.carried] at hf
          subst hf
          refine Or.inr (Or.inr ⟨rfl, parent, child, b, rfl, hb, ?_⟩)
          simp only [fill, BackingStore.fetched, BackingStore.answer, hb, Answer.carried]
      | getObject id => exact Or.inl (by simp only [fill, hf])
      | getObjectByKey id v => exact Or.inl (by simp only [fill, hf])
      | getPackageObject id => exact Or.inl (by simp only [fill, hf])
      | getObjectReceivedAtVersion owner id v epoch => exact Or.inl (by simp only [fill, hf])

theorem store_read (self : CachedStore) (r : Read) : (self.read r).2.store = self.store := by
  rcases read_cases self r with h | ⟨_, o, _, h⟩ | ⟨_, p, c, b, _, _, h⟩ <;> rw [h]

theorem wellKeyed_read (self : CachedStore) (r : Read) (hk : self.inner.WellKeyed) :
    (self.read r).2.inner.WellKeyed := by
  rcases read_cases self r with h | ⟨_, o, _, h⟩ | ⟨_, p, c, b, _, _, h⟩
  · rw [h]
    exact hk
  · rw [h]
    exact CachedSnapshot.wellKeyed_cacheObjectOnly _ o hk
  · rw [h]
    exact CachedSnapshot.wellKeyed_cacheQuery_none _ c b hk

/-- The same, seen from one key: an entry stays, or the backing store's object
is put there, or it was free and now records an empty child read. -/
theorem entry_read (self : CachedStore) (hk : self.inner.WellKeyed) (r : Read) (id : ObjectID)
    (v : SequenceNumber) :
    (self.read r).2.inner.entry id v = self.inner.entry id v ∨
    (self.lookup r = .miss ∧ ∃ o, self.store.fetched r = some o ∧ o.id = id ∧ o.version = v ∧
      (self.read r).2.inner.entry id v = some (some o)) ∨
    (self.lookup r = .miss ∧ ∃ parent, r = .readChildObject parent id v ∧
      self.store.readChildObject parent id v = .ok none ∧
      self.inner.entry id v = none ∧ (self.read r).2.inner.entry id v = some none) := by
  rcases read_cases self r with h | ⟨hl, o, ho, h⟩ | ⟨hl, p, c, b, rfl, hb, h⟩
  · exact Or.inl (by rw [h])
  · rw [h]
    simp only [CachedSnapshot.entry_cacheObjectOnly]
    split_ifs with hc
    · exact Or.inr (Or.inl ⟨hl, o, ho, hc.1.symm, hc.2.symm, rfl⟩)
    · exact Or.inl rfl
  · rw [h]
    simp only [CachedSnapshot.entry_cacheQuery]
    split_ifs with hc
    · obtain ⟨rfl, rfl⟩ := hc
      exact Or.inr (Or.inr ⟨hl, p, rfl, hb, entry_of_child_miss self hk p id v hl, rfl⟩)
    · exact Or.inl rfl

theorem store_step (self next : CachedStore) (op : Op) (h : self.step op = some next) :
    next.store = self.store := by
  cases op with
  | read r => exact Option.some.inj h ▸ store_read self r
  | commitSingleObject o => exact Option.some.inj h ▸ rfl
  | commitStore store effects =>
    obtain ⟨_, _, hs, _⟩ := commitStore_cases self next store effects h
    exact hs

theorem wellKeyed_step (self next : CachedStore) (op : Op) (hk : self.inner.WellKeyed)
    (h : self.step op = some next) : next.inner.WellKeyed := by
  cases op with
  | read r => exact Option.some.inj h ▸ wellKeyed_read self r hk
  | commitSingleObject o =>
    exact Option.some.inj h ▸ CachedSnapshot.wellKeyed_cacheObjectOnly _ o hk
  | commitStore store effects => exact wellKeyed_commitStore self next store effects h hk

/-- A commit overwrites some keys and leaves the others as they are. -/
theorem entry_commit (self next : CachedStore) (op : Op) (hc : ∀ r, op ≠ .read r)
    (h : self.step op = some next) (id : ObjectID) (v : SequenceNumber) :
    next.inner.entry id v = (op.effect id v).or (self.inner.entry id v) := by
  cases op with
  | read r => exact absurd rfl (hc r)
  | commitSingleObject o =>
    obtain rfl := Option.some.inj h
    simp only [commitSingleObject, CachedSnapshot.entry_cacheObjectOnly, Op.effect]
    split_ifs <;> simp
  | commitStore store effects =>
    obtain ⟨ids, hids, _, hent⟩ := commitStore_cases self next store effects h
    rw [hent, entry_commitWritten]
    simp only [Op.effect, hids, Option.getD_some]
    split_ifs with hm
    · simp
    · cases store.written.get? id with
      | none => simp
      | some o =>
        simp only
        split_ifs <;> simp

theorem effect_some (op : Op) (id : ObjectID) (v : SequenceNumber) (o : Object)
    (h : op.effect id v = some (some o)) : op.Writes o ∧ o.id = id ∧ o.version = v := by
  cases op with
  | read r => simp [Op.effect] at h
  | commitSingleObject o' =>
    simp only [Op.effect] at h
    split_ifs at h with hc
    obtain rfl := Option.some.inj (Option.some.inj h)
    exact ⟨rfl, hc.1.symm, hc.2.symm⟩
  | commitStore store effects =>
    simp only [Op.effect] at h
    split_ifs at h
    · simp at h
    · cases hw : store.written.get? id with
      | none => simp [hw] at h
      | some o' =>
        simp only [hw] at h
        split_ifs at h with hv
        obtain rfl := Option.some.inj (Option.some.inj h)
        have hid := store.written_keyed id o' hw
        exact ⟨by simp only [Op.Writes, hid, hw], hid, hv.symm⟩

theorem effect_none (self next : CachedStore) (op : Op) (hs : self.step op = some next)
    (id : ObjectID) (v : SequenceNumber) :
    op.effect id v = some none ↔ op.Empties id v := by
  cases op with
  | read r => simp [Op.effect, Op.Empties]
  | commitSingleObject o =>
    simp only [Op.effect, Op.Empties, iff_false]
    split_ifs <;> simp
  | commitStore store effects =>
    obtain ⟨ids, hids, _⟩ := commitStore_cases self next store effects hs
    simp only [Op.effect, Op.Empties, hids, Option.getD_some, Option.some.injEq, exists_eq_left']
    split_ifs with hm
    · simp [hm]
    · simp only [hm, iff_false]
      cases store.written.get? id with
      | none => simp
      | some o =>
        simp only
        split_ifs <;> simp

/-- Every history keeps the backing store and files objects under their keys. -/
theorem run_wellKeyed (B : BackingStore) (s : CachedStore) (ops : List Op)
    (h : run step (new B) ops = some s) : s.inner.WellKeyed ∧ s.store = B := by
  refine run_invariant step (fun _ _ => True) (fun s => s.inner.WellKeyed ∧ s.store = B)
    ?_ (new B) s ops ⟨CachedSnapshot.wellKeyed_default, rfl⟩
    (along_of_forall step (fun _ _ => True) _ ops fun _ _ _ => trivial) h
  intro t op next ht _ hn
  exact ⟨wellKeyed_step t next op ht.1 hn, (store_step t next op hn).trans ht.2⟩

end CachedStore

namespace RocksCachedStore

def lookup (self : RocksCachedStore) : Read → Lookup
  | .getObject id => .ofOption (self.getObjectByIdDb id)
  | .getObjectByKey id v => .ofOption (self.getObjectExact id v)
  | .getPackageObject id => .ofOption (self.getObjectByIdDb id)
  | .getObjectReceivedAtVersion _ id v _ => .ofOption (self.getObjectExact id v)
  | .readChildObject _ child b => match self.getObjectUpperbound child b with
    | some o => if o.version = b then .hit o else .miss
    | none => .miss

def fill (self : RocksCachedStore) (r : Read) : RocksCachedStore :=
  match self.store.fetched r with
  | some o => self.putObject o
  | none => self

theorem read_eq (self : RocksCachedStore) (r : Read) :
    self.read r = match self.lookup r with
      | .hit o => (r.wrap (some o), self)
      | .absent => (r.wrap none, self)
      | .miss => (self.store.answer r, self.fill r) := by
  cases r with
  | getObject id =>
    simp only [read, getObject, lookup]
    cases hc : self.getObjectByIdDb id with
    | some o => rfl
    | none =>
      cases hb : self.store.getObject id <;>
        simp [Lookup.ofOption, BackingStore.answer, fill, BackingStore.fetched, Answer.carried, hb]
  | getObjectByKey id v =>
    simp only [read, getObjectByKey, lookup]
    cases hc : self.getObjectExact id v with
    | some o => rfl
    | none =>
      cases hb : self.store.getObjectByKey id v <;>
        simp [Lookup.ofOption, BackingStore.answer, fill, BackingStore.fetched, Answer.carried, hb]
  | getPackageObject id =>
    simp only [read, getPackageObject, lookup]
    cases hc : self.getObjectByIdDb id with
    | some o => rfl
    | none =>
      rcases hb : self.store.getPackageObject id with e | p
      · simp [Lookup.ofOption, BackingStore.answer, fill, BackingStore.fetched, Answer.carried, hb]
      · cases p <;>
          simp [Lookup.ofOption, BackingStore.answer, fill, BackingStore.fetched, Answer.carried, hb]
  | getObjectReceivedAtVersion owner id v epoch =>
    simp only [read, getObjectReceivedAtVersion, lookup]
    cases hc : self.getObjectExact id v with
    | some o => rfl
    | none =>
      rcases hb : self.store.getObjectReceivedAtVersion owner id v epoch with e | p
      · simp [Lookup.ofOption, BackingStore.answer, fill, BackingStore.fetched, Answer.carried, hb]
      · cases p <;>
          simp [Lookup.ofOption, BackingStore.answer, fill, BackingStore.fetched, Answer.carried, hb]
  | readChildObject parent child b =>
    have hmiss : (Answer.result (self.readChildMiss parent child b).1,
        (self.readChildMiss parent child b).2) =
        (self.store.answer (.readChildObject parent child b),
          self.fill (.readChildObject parent child b)) := by
      simp only [readChildMiss, BackingStore.answer, fill, BackingStore.fetched]
      rcases hb : self.store.readChildObject parent child b with e | p
      · simp [Answer.carried]
      · cases p <;> simp [Answer.carried]
    simp only [read, readChildObject, lookup]
    cases hd : self.getObjectUpperbound child b with
    | none => exact hmiss
    | some o =>
      by_cases hv : o.version = b
      · simp only [if_pos hv]
        rfl
      · simp only [if_neg hv]
        exact hmiss

/-- Everything a read can do to the database. -/
theorem read_cases (self : RocksCachedStore) (r : Read) :
    (self.read r).2 = self ∨
    (self.lookup r = .miss ∧ ∃ o, self.store.fetched r = some o ∧
      (self.read r).2 = self.putObject o) := by
  rw [read_eq]
  cases hl : self.lookup r with
  | hit o => exact Or.inl rfl
  | absent => exact Or.inl rfl
  | miss =>
    cases hf : self.store.fetched r with
    | none => exact Or.inl (by simp only [fill, hf])
    | some o => exact Or.inr ⟨rfl, o, rfl, by simp only [fill, hf]⟩

def stored (self : RocksCachedStore) (id : ObjectID) (v : SequenceNumber) : Option Object :=
  self.db.get? (keyEncode id v)

theorem stored_putObject (self : RocksCachedStore) (o : Object) (id : ObjectID)
    (v : SequenceNumber) :
    (self.putObject o).stored id v =
      if self.ro = false ∧ id = o.id ∧ v = o.version then some o else self.stored id v := by
  cases hro : self.ro with
  | true => simp [putObject, hro, stored]
  | false => simp [putObject, hro, stored, SortedMap.get?_insert, keyEncode_inj]

theorem dbKeyed_putObject (self : RocksCachedStore) (o : Object) (hk : DbKeyed self.db) :
    DbKeyed (self.putObject o).db := by
  cases hro : self.ro with
  | true => simpa only [putObject, hro, if_true] using hk
  | false => simpa [putObject, hro] using dbKeyed_insert self.db hk o

theorem store_putObject (self : RocksCachedStore) (o : Object) :
    (self.putObject o).store = self.store ∧ (self.putObject o).ro = self.ro := by
  cases hro : self.ro <;> simp [putObject, hro]

theorem stored_keyed (self : RocksCachedStore) (hk : DbKeyed self.db) (id : ObjectID)
    (v : SequenceNumber) (o : Object) (h : self.stored id v = some o) :
    o.id = id ∧ o.version = v := by
  have hkey := (keyEncode_inj id o.id v o.version).mp (hk _ o h)
  exact ⟨hkey.1.symm, hkey.2.symm⟩

theorem getObjectByIdDb_eq_some (self : RocksCachedStore) (hk : DbKeyed self.db) (id : ObjectID)
    (o : Object) : self.getObjectByIdDb id = some o ↔ ∃ u, DbNewest self.db id u64Max u o := by
  constructor
  · intro h
    have hs := upperbound_spec self hk.versionKeys id u64Max
    rw [getObjectByIdDb] at h
    rwa [h] at hs
  · intro hall
    obtain ⟨u, hu⟩ := hall
    exact upperbound_eq_some self hk.versionKeys id u64Max u o hu

theorem getObjectByIdDb_eq_none (self : RocksCachedStore) (hk : DbKeyed self.db) (id : ObjectID) :
    self.getObjectByIdDb id = none ↔ ∀ u, self.stored id u = none := by
  constructor
  · intro h u
    have hs := upperbound_spec self hk.versionKeys id u64Max
    rw [getObjectByIdDb] at h
    rw [h] at hs
    exact hs u (le_u64Max u)
  · intro h
    exact upperbound_eq_none self hk.versionKeys id u64Max fun u _ => h u

theorem lookup_child_hit (self : RocksCachedStore) (hk : DbKeyed self.db) (parent child : ObjectID)
    (b : SequenceNumber) (o : Object) :
    self.lookup (.readChildObject parent child b) = .hit o ↔ self.stored child b = some o := by
  have hs := upperbound_spec self hk.versionKeys child b
  constructor
  · intro h
    simp only [lookup] at h
    cases hr : self.getObjectUpperbound child b with
    | none => simp [hr] at h
    | some o' =>
      simp only [hr] at h hs
      split_ifs at h with hv
      obtain rfl := Lookup.hit.inj h
      obtain ⟨u, _, hg, _⟩ := hs
      have hu := (stored_keyed self hk child u o' hg).2
      rw [hv] at hu
      rw [hu]
      exact hg
  · intro h
    have hn : DbNewest self.db child b b o :=
      ⟨le_rfl, h, fun w hw hlt => absurd hlt (not_lt.mpr hw)⟩
    simp only [lookup, upperbound_eq_some self hk.versionKeys child b b o hn,
      (stored_keyed self hk child b o h).2, if_true]

theorem lookup_child_ne_absent (self : RocksCachedStore) (parent child : ObjectID)
    (b : SequenceNumber) : self.lookup (.readChildObject parent child b) ≠ .absent := by
  simp only [lookup]
  cases self.getObjectUpperbound child b with
  | none => simp
  | some o =>
    simp only
    split_ifs <;> simp

/-- Every operation keeps the backing store, the mode and the keys. -/
theorem step_keeps (self next : RocksCachedStore) (op : Op) (hk : DbKeyed self.db)
    (h : self.step op = some next) :
    DbKeyed next.db ∧ next.store = self.store ∧ next.ro = self.ro := by
  cases op with
  | read r =>
    obtain rfl := Option.some.inj h
    rcases read_cases self r with heq | ⟨_, o, _, heq⟩
    · rw [heq]
      exact ⟨hk, rfl, rfl⟩
    · rw [heq]
      exact ⟨dbKeyed_putObject self o hk, store_putObject self o⟩
  | commitSingleObject o =>
    obtain rfl := Option.some.inj h
    exact ⟨dbKeyed_putObject self o hk, store_putObject self o⟩
  | commitStore store effects =>
    have h : self.commitStore store effects = some next := h
    cases hro : self.ro with
    | true =>
      simp only [commitStore, hro, if_true, Option.some.injEq] at h
      exact h ▸ ⟨hk, rfl, hro⟩
    | false =>
      obtain ⟨_, _, hs, hr, hk', _⟩ := commitStore_cases self next hk hro store effects h
      exact ⟨hk', hs, hr⟩

theorem run_keeps (self s : RocksCachedStore) (ops : List Op) (hk : DbKeyed self.db)
    (h : run step self ops = some s) :
    DbKeyed s.db ∧ s.store = self.store ∧ s.ro = self.ro := by
  refine run_invariant step (fun _ _ => True)
    (fun t => DbKeyed t.db ∧ t.store = self.store ∧ t.ro = self.ro) ?_ self s ops ⟨hk, rfl, rfl⟩
    (along_of_forall step (fun _ _ => True) _ ops fun _ _ _ => trivial) h
  intro t op next ht _ hn
  obtain ⟨hk', hs, hr⟩ := step_keeps t next op ht.1 hn
  exact ⟨hk', hs.trans ht.2.1, hr.trans ht.2.2⟩

end RocksCachedStore

end Movy.Store
