import Movy.Lib.BigEndian
import Movy.Store.Cache

/-!
# The persistent object cache (`movy-sui/src/database/file.rs`)

`RocksCachedStore` keeps live objects only, in one column family ordered by
key bytes: the 32 id bytes followed by the big-endian version. There are no
empty entries; a commit that removes an object deletes its keys.
-/

namespace Movy.Store

/-- `ObjectIDVersionedKey::key_encode`. -/
def keyEncode (id : ObjectID) (version : SequenceNumber) : List Byte :=
  id.bytes ++ beBytes 8 version.val

/-- The `version` field of `ObjectIDVersionedKey::key_decode`. -/
def keyDecodeVersion (key : List Byte) : ℕ := beValue (key.drop 32)

inductive BatchOp where
  | put (key : List Byte) (object : Object)
  | delete (key : List Byte)

abbrev ObjectsDb := SortedMap (List Byte) Object

def BatchOp.write (db : ObjectsDb) : BatchOp → ObjectsDb
  | .put key object => db.insert key object
  | .delete key => db.erase key

def writeBatch (db : ObjectsDb) (batch : List BatchOp) : ObjectsDb := batch.foldl BatchOp.write db

/-- The loop of `get_object_upperbound`: `result` is overwritten until a key
leaves the id or the bound. -/
def upperboundLoop (idBytes : List Byte) (upperbound : SequenceNumber) :
    Option Object → List (List Byte × Object) → Option Object
  | result, [] => result
  | result, (key, value) :: rest =>
    if idBytes.isPrefixOf key = false then result
    else if upperbound.val < keyDecodeVersion key then result
    else upperboundLoop idBytes upperbound (some value) rest

/-- The loop that collects the keys of one id for deletion. -/
def versionKeysLoop (idBytes : List Byte) : List (List Byte × Object) → List (List Byte)
  | [] => []
  | (key, _) :: rest =>
    if idBytes.isPrefixOf key = false then [] else key :: versionKeysLoop idBytes rest

structure RocksCachedStore where
  db : ObjectsDb
  ro : Bool
  store : BackingStore

namespace RocksCachedStore

/-- A freshly created writable database. -/
def new (store : BackingStore) : RocksCachedStore := ⟨SortedMap.empty, false, store⟩

def putObject (self : RocksCachedStore) (object : Object) : RocksCachedStore :=
  if self.ro then self
  else { self with db := self.db.insert (keyEncode object.id object.version) object }

def getObjectUpperbound (self : RocksCachedStore) (objectId : ObjectID)
    (upperbound : SequenceNumber) : Option Object :=
  upperboundLoop objectId.bytes upperbound none (self.db.iterFrom (keyEncode objectId 0))

def getObjectExact (self : RocksCachedStore) (objectId : ObjectID) (exact : SequenceNumber) :
    Option Object :=
  self.db.get? (keyEncode objectId exact)

def getObjectByIdDb (self : RocksCachedStore) (objectId : ObjectID) : Option Object :=
  self.getObjectUpperbound objectId u64Max

def getPackageObject (self : RocksCachedStore) (packageId : ObjectID) :
    SuiResult (Option PackageObject) × RocksCachedStore :=
  match self.getObjectByIdDb packageId with
  | some hit => (.ok (some ⟨hit⟩), self)
  | none => match self.store.getPackageObject packageId with
    | .error e => (.error e, self)
    | .ok none => (.ok none, self)
    | .ok (some pkg) => (.ok (some pkg), self.putObject pkg.object)

def getObject (self : RocksCachedStore) (objectId : ObjectID) :
    Option Object × RocksCachedStore :=
  match self.getObjectByIdDb objectId with
  | some hit => (some hit, self)
  | none => match self.store.getObject objectId with
    | none => (none, self)
    | some object => (some object, self.putObject object)

def getObjectByKey (self : RocksCachedStore) (objectId : ObjectID) (version : SequenceNumber) :
    Option Object × RocksCachedStore :=
  match self.getObjectExact objectId version with
  | some hit => (some hit, self)
  | none => match self.store.getObjectByKey objectId version with
    | none => (none, self)
    | some object => (some object, self.putObject object)

def getObjectReceivedAtVersion (self : RocksCachedStore) (owner receivingObjectId : ObjectID)
    (receiveObjectAtVersion : SequenceNumber) (epochId : EpochId) :
    SuiResult (Option Object) × RocksCachedStore :=
  match self.getObjectExact receivingObjectId receiveObjectAtVersion with
  | some hit => (.ok (some hit), self)
  | none =>
    match self.store.getObjectReceivedAtVersion owner receivingObjectId
        receiveObjectAtVersion epochId with
    | .error e => (.error e, self)
    | .ok none => (.ok none, self)
    | .ok (some hit) => (.ok (some hit), self.putObject hit)

/-- The part of `read_child_object` after a miss. Unlike the in-memory cache
it records nothing when the backing store finds nothing. -/
def readChildMiss (self : RocksCachedStore) (parent child : ObjectID)
    (childVersionUpperBound : SequenceNumber) : SuiResult (Option Object) × RocksCachedStore :=
  match self.store.readChildObject parent child childVersionUpperBound with
  | .error e => (.error e, self)
  | .ok (some hit) => (.ok (some hit), self.putObject hit)
  | .ok none => (.ok none, self)

def readChildObject (self : RocksCachedStore) (parent child : ObjectID)
    (childVersionUpperBound : SequenceNumber) : SuiResult (Option Object) × RocksCachedStore :=
  match self.getObjectUpperbound child childVersionUpperBound with
  | some hit =>
    if hit.version = childVersionUpperBound then (.ok (some hit), self)
    else self.readChildMiss parent child childVersionUpperBound
  | none => self.readChildMiss parent child childVersionUpperBound

def commitSingleObject (self : RocksCachedStore) (object : Object) : RocksCachedStore :=
  self.putObject object

/-- The keys of every stored version of `id`, as a commit finds them before
its batch is written. -/
def versionKeys (self : RocksCachedStore) (id : ObjectID) : List (List Byte) :=
  versionKeysLoop id.bytes (self.db.iterFrom (keyEncode id 0))

def putWritten (store : InnerTemporaryStore) : List BatchOp :=
  store.written.entries.map fun e => .put (keyEncode e.2.id e.2.version) e.2

def deleteVersions (self : RocksCachedStore) (ids : List ObjectID) : List BatchOp :=
  ids.flatMap fun id => (self.versionKeys id).map .delete

def commitStore (self : RocksCachedStore) (store : InnerTemporaryStore)
    (effects : TransactionEffects) : Option RocksCachedStore :=
  if self.ro then some self
  else do
    let removed := self.deleteVersions ((tombstones store effects).map Prod.fst)
    let ids ← endedIds store effects
    let ended := self.deleteVersions ids
    some { self with db := writeBatch self.db (putWritten store ++ removed ++ ended) }

end RocksCachedStore

/-! ### Keys -/

theorem version_lt_256 (v : SequenceNumber) : v.val < 256 ^ 8 := by
  have h : (2 : ℕ) ^ 64 = 256 ^ 8 := by decide
  exact v.isLt.trans_eq h

theorem beBytes8_lt_iff (v w : SequenceNumber) :
    beBytes 8 v.val < beBytes 8 w.val ↔ v < w := by
  rw [beBytes_lt_iff 8 v.val w.val (version_lt_256 v) (version_lt_256 w), Fin.lt_def]

theorem keyEncode_lt_iff (id j : ObjectID) (v w : SequenceNumber) :
    keyEncode id v < keyEncode j w ↔ id.bytes < j.bytes ∨ id = j ∧ v < w := by
  have hl : id.bytes.length = j.bytes.length := id.length_bytes.trans j.length_bytes.symm
  rw [keyEncode, keyEncode, append_lt_append_iff _ _ _ _ hl, beBytes8_lt_iff,
    ObjectID.bytes_injective.eq_iff]

theorem keyEncode_inj (id j : ObjectID) (v w : SequenceNumber) :
    keyEncode id v = keyEncode j w ↔ id = j ∧ v = w := by
  constructor
  · intro h
    have hl : id.bytes.length = j.bytes.length := id.length_bytes.trans j.length_bytes.symm
    obtain ⟨hid, hver⟩ := List.append_inj h hl
    have hval := beBytes_injective 8 v.val w.val (version_lt_256 v) (version_lt_256 w) hver
    exact ⟨ObjectID.bytes_injective hid, Fin.ext hval⟩
  · intro hall
    obtain ⟨rfl, rfl⟩ := hall
    rfl

theorem keyDecodeVersion_keyEncode (id : ObjectID) (v : SequenceNumber) :
    keyDecodeVersion (keyEncode id v) = v.val := by
  have hd : (id.bytes ++ beBytes 8 v.val).drop 32 = beBytes 8 v.val := by
    rw [← id.length_bytes]
    exact List.drop_left
  rw [keyDecodeVersion, keyEncode, hd, beValue_beBytes 8 v.val (version_lt_256 v)]

theorem isPrefixOf_keyEncode (id j : ObjectID) (v : SequenceNumber) :
    id.bytes.isPrefixOf (keyEncode j v) = true ↔ id = j := by
  rw [keyEncode, isPrefixOf_append_iff _ _ _ (id.length_bytes.trans j.length_bytes.symm)]
  exact ObjectID.bytes_injective.eq_iff

/-! ### Bounded lookup -/

/-- Every stored object sits under the key made of its own id and version. -/
def DbKeyed (db : ObjectsDb) : Prop :=
  ∀ key o, db.get? key = some o → key = keyEncode o.id o.version

/-- Every key is that of some id and version, whatever object sits under it. -/
def VersionKeys (db : ObjectsDb) : Prop :=
  ∀ key o, db.get? key = some o → ∃ id v, key = keyEncode id v

theorem DbKeyed.versionKeys {db : ObjectsDb} (h : DbKeyed db) : VersionKeys db := by
  intro key o hget
  exact ⟨o.id, o.version, h key o hget⟩

/-- `o` is stored at `u`, the greatest stored version of `id` up to `b`. -/
def DbNewest (db : ObjectsDb) (id : ObjectID) (b u : SequenceNumber) (o : Object) : Prop :=
  u ≤ b ∧ db.get? (keyEncode id u) = some o ∧
    ∀ w, w ≤ b → u < w → db.get? (keyEncode id w) = none

/-- The loop goes on exactly while this test holds. -/
def inRange (idBytes : List Byte) (upperbound : SequenceNumber) (e : List Byte × Object) : Bool :=
  idBytes.isPrefixOf e.1 && decide (keyDecodeVersion e.1 ≤ upperbound.val)

theorem upperboundLoop_eq (idBytes : List Byte) (b : SequenceNumber) (r : Option Object)
    (l : List (List Byte × Object)) :
    upperboundLoop idBytes b r l =
      match (l.takeWhile (inRange idBytes b)).getLast? with
      | some e => some e.2
      | none => r := by
  induction l generalizing r with
  | nil => rfl
  | cons e rest ih =>
    obtain ⟨key, value⟩ := e
    by_cases hp : idBytes.isPrefixOf key = true
    · by_cases hv : b.val < keyDecodeVersion key
      · have hin : inRange idBytes b (key, value) = false := by
          simp only [inRange, hp, Bool.true_and, decide_eq_false_iff_not]
          omega
        simp [upperboundLoop, hp, hv, hin]
      · have hin : inRange idBytes b (key, value) = true := by
          simp only [inRange, hp, Bool.true_and, decide_eq_true_eq]
          omega
        simp only [upperboundLoop, hp, Bool.true_eq_false, if_false, hv, ih,
          List.takeWhile_cons, hin, if_true]
        cases ht : rest.takeWhile (inRange idBytes b) with
        | nil => rfl
        | cons a as =>
          simp only [List.getLast?_cons_cons]
          cases hl : (a :: as).getLast? with
          | none => simp at hl
          | some z => rfl
    · have hp' : idBytes.isPrefixOf key = false := Bool.eq_false_of_not_eq_true hp
      have hin : inRange idBytes b (key, value) = false := by
        simp only [inRange, hp', Bool.false_and]
      simp [upperboundLoop, hp', hin]

theorem getLast?_of_pairwise {α : Type} (r : α → α → Prop) (l : List α) (e : α)
    (hs : l.Pairwise r) (h : l.getLast? = some e) : ∀ a ∈ l, a = e ∨ r a e := by
  induction l with
  | nil => simp
  | cons x xs ih =>
    obtain ⟨hx, hxs⟩ := List.pairwise_cons.mp hs
    intro a ha
    cases xs with
    | nil =>
      simp only [List.getLast?_singleton, Option.some.injEq] at h
      simp only [List.mem_singleton] at ha
      exact Or.inl (ha.trans h)
    | cons y ys =>
      rw [List.getLast?_cons_cons] at h
      rcases List.mem_cons.mp ha with rfl | ha
      · exact Or.inr (hx e (List.mem_of_getLast? h))
      · exact ih hxs h a ha

theorem mem_iterFrom (db : ObjectsDb) (id : ObjectID) (e : List Byte × Object) :
    e ∈ db.iterFrom (keyEncode id 0) ↔
      db.get? e.1 = some e.2 ∧ keyEncode id 0 ≤ e.1 := by
  simp only [SortedMap.iterFrom, List.mem_filter, decide_eq_true_eq]
  rw [show e = (e.1, e.2) from rfl, SortedMap.mem_entries]

theorem keyEncode_zero_le (id : ObjectID) (v : SequenceNumber) :
    keyEncode id 0 ≤ keyEncode id v := by
  rw [← not_lt, keyEncode_lt_iff]
  rintro (h | ⟨-, h⟩)
  · exact lt_irrefl _ h
  · exact absurd h (Nat.not_lt_zero v.val)

theorem inRange_keyEncode (id j : ObjectID) (b v : SequenceNumber) (o : Object) :
    inRange id.bytes b (keyEncode j v, o) = true ↔ id = j ∧ v ≤ b := by
  rw [inRange, Bool.and_eq_true, decide_eq_true_eq, isPrefixOf_keyEncode,
    keyDecodeVersion_keyEncode, Fin.le_def]

/-- Among the entries from the first key of an id on, those of that id come
first, in version order: the test of the loop holds on an initial segment. -/
theorem inRange_downward (db : ObjectsDb) (hk : VersionKeys db) (id : ObjectID)
    (b : SequenceNumber) :
    ∀ a ∈ db.iterFrom (keyEncode id 0), ∀ c ∈ db.iterFrom (keyEncode id 0), a.1 < c.1 →
      inRange id.bytes b c = true → inRange id.bytes b a = true := by
  intro a ha c hc hlt hin
  obtain ⟨hga, hla⟩ := (mem_iterFrom db id a).mp ha
  obtain ⟨hgc, _⟩ := (mem_iterFrom db id c).mp hc
  obtain ⟨ka, oa⟩ := a
  obtain ⟨kc, oc⟩ := c
  obtain ⟨i, v, rfl⟩ := hk ka oa hga
  obtain ⟨j, w, rfl⟩ := hk kc oc hgc
  obtain ⟨rfl, hwb⟩ := (inRange_keyEncode id j b w oc).mp hin
  rw [inRange_keyEncode]
  rw [← not_lt, keyEncode_lt_iff] at hla
  rcases (keyEncode_lt_iff i id v w).mp hlt with hbefore | ⟨rfl, hvw⟩
  · exact absurd (Or.inl hbefore) hla
  · exact ⟨rfl, hvw.le.trans hwb⟩

theorem upperbound_spec (self : RocksCachedStore) (hk : VersionKeys self.db) (id : ObjectID)
    (b : SequenceNumber) :
    match self.getObjectUpperbound id b with
    | some o => ∃ u, DbNewest self.db id b u o
    | none => ∀ u, u ≤ b → self.db.get? (keyEncode id u) = none := by
  have hs : (self.db.iterFrom (keyEncode id 0)).Pairwise fun a c => a.1 < c.1 :=
    self.db.sorted.filter _
  have htake := takeWhile_eq_filter (fun a c : List Byte × Object => a.1 < c.1)
    (inRange id.bytes b) _ hs (inRange_downward self.db hk id b)
  have hmem : ∀ u o, u ≤ b → self.db.get? (keyEncode id u) = some o →
      (keyEncode id u, o) ∈ (self.db.iterFrom (keyEncode id 0)).filter (inRange id.bytes b) := by
    intro u o hu hg
    refine List.mem_filter.mpr ⟨(mem_iterFrom _ _ _).mpr ⟨hg, keyEncode_zero_le id u⟩, ?_⟩
    exact (inRange_keyEncode id id b u o).mpr ⟨rfl, hu⟩
  simp only [RocksCachedStore.getObjectUpperbound, upperboundLoop_eq, htake]
  cases hl : ((self.db.iterFrom (keyEncode id 0)).filter (inRange id.bytes b)).getLast? with
  | none =>
    have hnil := List.getLast?_eq_none_iff.mp hl
    intro u hu
    cases hg : self.db.get? (keyEncode id u) with
    | none => rfl
    | some o =>
      have h := hmem u o hu hg
      rw [hnil] at h
      simp at h
  | some e =>
    have he := List.mem_filter.mp (List.mem_of_getLast? hl)
    obtain ⟨hge, _⟩ := (mem_iterFrom _ _ _).mp he.1
    obtain ⟨key, o⟩ := e
    obtain ⟨j, v, rfl⟩ := hk key o hge
    obtain ⟨rfl, hvb⟩ := (inRange_keyEncode id j b v o).mp he.2
    refine ⟨v, hvb, hge, ?_⟩
    intro w hw hlt
    cases hg : self.db.get? (keyEncode id w) with
    | none => rfl
    | some o' =>
      rcases getLast?_of_pairwise _ _ _ (hs.filter _) hl _ (hmem w o' hw hg) with heq | hkw
      · have hkey := congrArg Prod.fst heq
        exact absurd ((keyEncode_inj id id w v).mp hkey).2 (ne_of_gt hlt)
      · rcases (keyEncode_lt_iff id id w v).mp hkw with h | h
        · exact absurd h (lt_irrefl _)
        · exact absurd h.2 (not_lt.mpr hlt.le)

theorem dbNewest_unique (db : ObjectsDb) (id : ObjectID) (b u u' : SequenceNumber) (o o' : Object)
    (h : DbNewest db id b u o) (h' : DbNewest db id b u' o') : u = u' ∧ o = o' :=
  greatest_unique (fun v => db.get? (keyEncode id v)) b u u' o o' h h'

theorem upperbound_eq_some (self : RocksCachedStore) (hk : VersionKeys self.db) (id : ObjectID)
    (b u : SequenceNumber) (o : Object) (h : DbNewest self.db id b u o) :
    self.getObjectUpperbound id b = some o := by
  have hs := upperbound_spec self hk id b
  cases hr : self.getObjectUpperbound id b with
  | none =>
    rw [hr] at hs
    have he := h.2.1
    rw [hs u h.1] at he
    simp at he
  | some o' =>
    rw [hr] at hs
    obtain ⟨u', hu'⟩ := hs
    rw [(dbNewest_unique self.db id b u u' o o' h hu').2]

theorem upperbound_eq_none (self : RocksCachedStore) (hk : VersionKeys self.db) (id : ObjectID)
    (b : SequenceNumber) (h : ∀ u, u ≤ b → self.db.get? (keyEncode id u) = none) :
    self.getObjectUpperbound id b = none := by
  have hs := upperbound_spec self hk id b
  cases hr : self.getObjectUpperbound id b with
  | none => rfl
  | some o =>
    rw [hr] at hs
    obtain ⟨u, hu, hg, _⟩ := hs
    rw [h u hu] at hg
    simp at hg

/-! ### Writes -/

theorem dbKeyed_empty : DbKeyed SortedMap.empty := by
  intro key o h
  simp at h

theorem dbKeyed_insert (db : ObjectsDb) (hk : DbKeyed db) (o : Object) :
    DbKeyed (db.insert (keyEncode o.id o.version) o) := by
  intro key o' h
  rw [SortedMap.get?_insert] at h
  split_ifs at h with hkey
  · rw [← Option.some.inj h]
    exact hkey
  · exact hk key o' h

theorem dbKeyed_erase (db : ObjectsDb) (hk : DbKeyed db) (key : List Byte) :
    DbKeyed (db.erase key) := by
  intro key' o h
  rw [SortedMap.get?_erase] at h
  split_ifs at h
  exact hk key' o h

theorem dbKeyed_writeBatch (batch : List BatchOp) (db : ObjectsDb) (hk : DbKeyed db)
    (hb : ∀ key o, .put key o ∈ batch → key = keyEncode o.id o.version) :
    DbKeyed (writeBatch db batch) := by
  induction batch generalizing db with
  | nil => exact hk
  | cons op rest ih =>
    have hrest : ∀ key o, .put key o ∈ rest → key = keyEncode o.id o.version :=
      fun key o h => hb key o (List.mem_cons_of_mem _ h)
    cases op with
    | put key o =>
      have hkey := hb key o (List.mem_cons_self ..)
      subst hkey
      exact ih _ (dbKeyed_insert db hk o) hrest
    | delete key => exact ih _ (dbKeyed_erase db hk key) hrest

theorem writeBatch_append (db : ObjectsDb) (a b : List BatchOp) :
    writeBatch db (a ++ b) = writeBatch (writeBatch db a) b := List.foldl_append

theorem get?_writeBatch_deletes (keys : List (List Byte)) (db : ObjectsDb) (key : List Byte) :
    (writeBatch db (keys.map .delete)).get? key = if key ∈ keys then none else db.get? key := by
  induction keys generalizing db with
  | nil => rfl
  | cons k ks ih =>
    have hstep : writeBatch db ((k :: ks).map .delete) = writeBatch (db.erase k) (ks.map .delete) := rfl
    rw [hstep, ih, SortedMap.get?_erase]
    by_cases hin : key ∈ ks
    · simp [hin]
    · by_cases hk : key = k <;> simp [hin, hk]

theorem get?_writeBatch_puts (l : List (ObjectID × Object)) (db : ObjectsDb)
    (hs : l.Pairwise fun a b => a.1 < b.1) (hk : ∀ e ∈ l, e.2.id = e.1)
    (id : ObjectID) (v : SequenceNumber) :
    (writeBatch db (l.map fun e => .put (keyEncode e.2.id e.2.version) e.2)).get?
        (keyEncode id v) =
      match rawLookup id l with
      | some o => if v = o.version then some o else db.get? (keyEncode id v)
      | none => db.get? (keyEncode id v) := by
  induction l generalizing db with
  | nil => rfl
  | cons e es ih =>
    obtain ⟨he, hes⟩ := List.pairwise_cons.mp hs
    have hke := hk e (List.mem_cons_self ..)
    have hstep : writeBatch db
        ((e :: es).map fun e => .put (keyEncode e.2.id e.2.version) e.2) =
        writeBatch (db.insert (keyEncode e.2.id e.2.version) e.2)
          (es.map fun e => .put (keyEncode e.2.id e.2.version) e.2) := rfl
    rw [hstep, ih _ hes (fun a ha => hk a (List.mem_cons_of_mem _ ha)), rawLookup]
    by_cases hid : id = e.1
    · have hno : rawLookup id es = none := lookup_eq_none es id (hid ▸ he)
      rw [hno, if_pos hid]
      simp only [SortedMap.get?_insert, keyEncode_inj, hke, hid, true_and]
    · simp only [SortedMap.get?_insert, keyEncode_inj, hke, hid, false_and, if_false]

namespace RocksCachedStore

/-- The keys collected for deletion are those of the stored versions. -/
theorem mem_versionKeys (self : RocksCachedStore) (hk : DbKeyed self.db) (id : ObjectID)
    (key : List Byte) :
    key ∈ self.versionKeys id ↔ ∃ v o, key = keyEncode id v ∧ self.db.get? key = some o := by
  have hs : (self.db.iterFrom (keyEncode id 0)).Pairwise fun a c => a.1 < c.1 :=
    self.db.sorted.filter _
  have hloop : ∀ l : List (List Byte × Object), versionKeysLoop id.bytes l =
      (l.takeWhile fun e => id.bytes.isPrefixOf e.1).map Prod.fst := by
    intro l
    induction l with
    | nil => rfl
    | cons e rest ih =>
      obtain ⟨k, o⟩ := e
      cases hp : id.bytes.isPrefixOf k <;> simp [versionKeysLoop, hp, ih]
  have hpre : ∀ a ∈ self.db.iterFrom (keyEncode id 0), ∀ c ∈ self.db.iterFrom (keyEncode id 0),
      a.1 < c.1 → id.bytes.isPrefixOf c.1 = true → id.bytes.isPrefixOf a.1 = true := by
    intro a ha c hc hlt hp
    have hin : inRange id.bytes u64Max c = true := by
      obtain ⟨hgc, _⟩ := (mem_iterFrom _ _ _).mp hc
      simp only [inRange, hp, Bool.true_and, decide_eq_true_eq]
      rw [hk c.1 c.2 hgc, keyDecodeVersion_keyEncode]
      exact le_u64Max _
    have ha' := inRange_downward self.db hk.versionKeys id u64Max a ha c hc hlt hin
    simp only [inRange, Bool.and_eq_true] at ha'
    exact ha'.1
  rw [versionKeys, hloop, takeWhile_eq_filter (fun a c : List Byte × Object => a.1 < c.1)
    (fun e => id.bytes.isPrefixOf e.1) _ hs hpre]
  simp only [List.mem_map, List.mem_filter, mem_iterFrom]
  constructor
  · intro h
    obtain ⟨e, ⟨⟨hg, _⟩, hp⟩, rfl⟩ := h
    have hke := hk e.1 e.2 hg
    rw [hke, isPrefixOf_keyEncode] at hp
    exact ⟨e.2.version, e.2, hke.trans (by rw [hp]), hg⟩
  · intro h
    obtain ⟨v, o, rfl, hg⟩ := h
    exact ⟨(keyEncode id v, o),
      ⟨⟨hg, keyEncode_zero_le id v⟩, (isPrefixOf_keyEncode id id v).mpr rfl⟩, rfl⟩

/-- The ids whose stored versions a commit deletes. -/
def removedIds (store : InnerTemporaryStore) (effects : TransactionEffects) (ids : List ObjectID) :
    List ObjectID :=
  (tombstones store effects).map Prod.fst ++ ids

theorem mem_deleteVersions (self : RocksCachedStore) (hk : DbKeyed self.db) (ids : List ObjectID) :
    ∃ keys : List (List Byte), self.deleteVersions ids = keys.map .delete ∧ ∀ id v,
      (keyEncode id v ∈ keys ↔ id ∈ ids ∧ (self.db.get? (keyEncode id v)).isSome = true) := by
  refine ⟨ids.flatMap self.versionKeys, ?_, ?_⟩
  · simp only [deleteVersions, List.map_flatMap]
  · intro id v
    simp only [List.mem_flatMap, mem_versionKeys self hk, Option.isSome_iff_exists]
    constructor
    · intro h
      obtain ⟨j, hj, w, o, hkey, hg⟩ := h
      obtain ⟨rfl, rfl⟩ := (keyEncode_inj id j v w).mp hkey
      exact ⟨hj, o, hg⟩
    · intro h
      obtain ⟨hid, o, hg⟩ := h
      exact ⟨id, hid, v, o, rfl, hg⟩

/-- What a commit leaves under a key of a writable database. A deletion reaches
only the keys that were stored before the commit. -/
theorem commitStore_cases (self next : RocksCachedStore) (hk : DbKeyed self.db)
    (hro : self.ro = false) (store : InnerTemporaryStore) (effects : TransactionEffects)
    (h : self.commitStore store effects = some next) :
    ∃ ids, endedIds store effects = some ids ∧ next.store = self.store ∧ next.ro = false ∧
      DbKeyed next.db ∧
      ∀ id v, next.db.get? (keyEncode id v) =
        if id ∈ removedIds store effects ids ∧ (self.db.get? (keyEncode id v)).isSome = true then none
        else match store.written.get? id with
          | some o => if v = o.version then some o else self.db.get? (keyEncode id v)
          | none => self.db.get? (keyEncode id v) := by
  simp only [commitStore, hro, Bool.false_eq_true, if_false, Option.bind_eq_bind] at h
  obtain ⟨ids, hids, hnext⟩ := Option.bind_eq_some_iff.mp h
  obtain rfl := Option.some.inj hnext
  obtain ⟨keys, hkeys, hmem⟩ := mem_deleteVersions self hk ((tombstones store effects).map Prod.fst)
  obtain ⟨keys', hkeys', hmem'⟩ := mem_deleteVersions self hk ids
  refine ⟨ids, hids, rfl, rfl, ?_, ?_⟩
  · refine dbKeyed_writeBatch _ self.db hk ?_
    intro key o hm
    simp only [hkeys, hkeys', List.mem_append, List.mem_map, putWritten, BatchOp.put.injEq,
      reduceCtorEq, and_false, exists_false, or_false] at hm
    obtain ⟨e, _, he, heo⟩ := hm
    rw [← he, heo]
  · intro id v
    simp only [hkeys, hkeys', writeBatch_append, get?_writeBatch_deletes, hmem, hmem', putWritten]
    rw [get?_writeBatch_puts store.written.entries self.db store.written.sorted
      (fun e he => store.written_keyed e.1 e.2 ((SortedMap.mem_entries _ _ _).mp he)) id v]
    have hget : rawLookup id store.written.entries = store.written.get? id := rfl
    rw [hget]
    simp only [removedIds, List.mem_append]
    by_cases hsome : (self.db.get? (keyEncode id v)).isSome = true
    · by_cases h1 : id ∈ ids <;> by_cases h2 : id ∈ (tombstones store effects).map Prod.fst <;>
        simp [hsome, h1, h2]
    · simp [hsome]

end RocksCachedStore

end Movy.Store
