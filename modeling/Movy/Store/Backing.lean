import Movy.Store.Object

/-!
# Reads of a backing store

The five reads as data, the answers a backing store gives to them, and what a
backing store promises: all its answers come from one set of versions.
-/

namespace Movy.Store

inductive Read where
  | getObject (id : ObjectID)
  | getObjectByKey (id : ObjectID) (version : SequenceNumber)
  | getPackageObject (id : ObjectID)
  | getObjectReceivedAtVersion (owner id : ObjectID) (version : SequenceNumber) (epoch : EpochId)
  | readChildObject (parent child : ObjectID) (bound : SequenceNumber)

inductive Answer where
  | object (o : Option Object)
  | package (r : SuiResult (Option PackageObject))
  | result (r : SuiResult (Option Object))

/-- The answer to `r` that carries the object `o`, if any. -/
def Read.wrap (o : Option Object) : Read → Answer
  | .getObject _ => .object o
  | .getObjectByKey _ _ => .object o
  | .getPackageObject _ => .package (.ok (o.map PackageObject.mk))
  | .getObjectReceivedAtVersion _ _ _ _ => .result (.ok o)
  | .readChildObject _ _ _ => .result (.ok o)

def Answer.carried : Answer → Option Object
  | .object o => o
  | .package (.ok p) => p.map PackageObject.object
  | .package (.error _) => none
  | .result (.ok o) => o
  | .result (.error _) => none

def BackingStore.answer (self : BackingStore) : Read → Answer
  | .getObject id => .object (self.getObject id)
  | .getObjectByKey id v => .object (self.getObjectByKey id v)
  | .getPackageObject id => .package (self.getPackageObject id)
  | .getObjectReceivedAtVersion owner id v epoch =>
    .result (self.getObjectReceivedAtVersion owner id v epoch)
  | .readChildObject parent child b => .result (self.readChildObject parent child b)

def BackingStore.fetched (self : BackingStore) (r : Read) : Option Object :=
  (self.answer r).carried

theorem fetched_emptyStore (r : Read) : EmptyStore.fetched r = none := by
  cases r <;> rfl

/-- The backing store answers from one set of versions: `getObjectByKey` lists
it, `getObject` is its latest version and `readChildObject` the latest one not
above the bound. A read may also fail, and a received object is not handed
out to every owner. -/
structure BackingStore.Consistent (B : BackingStore) : Prop where
  keyed : ∀ id v o, B.getObjectByKey id v = some o → o.id = id ∧ o.version = v
  latest : ∀ id o, B.getObject id = some o →
    B.getObjectByKey id o.version = some o ∧
      ∀ v o', B.getObjectByKey id v = some o' → v ≤ o.version
  latest_none : ∀ id, B.getObject id = none → ∀ v, B.getObjectByKey id v = none
  package : ∀ id p, B.getPackageObject id = .ok p → p = (B.getObject id).map PackageObject.mk
  received : ∀ owner id v epoch o,
    B.getObjectReceivedAtVersion owner id v epoch = .ok (some o) → B.getObjectByKey id v = some o
  child : ∀ parent id b o, B.readChildObject parent id b = .ok (some o) →
    B.getObjectByKey id o.version = some o ∧ o.version ≤ b ∧
      ∀ v o', v ≤ b → B.getObjectByKey id v = some o' → v ≤ o.version
  child_none : ∀ parent id b, B.readChildObject parent id b = .ok none →
    ∀ v, v ≤ b → B.getObjectByKey id v = none

def Read.target : Read → ObjectID
  | .getObject id => id
  | .getObjectByKey id _ => id
  | .getPackageObject id => id
  | .getObjectReceivedAtVersion _ id _ _ => id
  | .readChildObject _ child _ => child

/-- Whatever a read brings is a version of the object it is about. -/
theorem BackingStore.Consistent.fetched {B : BackingStore} (hB : B.Consistent) (r : Read)
    (o : Object) (h : B.fetched r = some o) :
    o.id = r.target ∧ B.getObjectByKey o.id o.version = some o := by
  have hkey : ∀ v, B.getObjectByKey r.target v = some o →
      o.id = r.target ∧ B.getObjectByKey o.id o.version = some o := by
    intro v hv
    obtain ⟨hid, hver⟩ := hB.keyed r.target v o hv
    exact ⟨hid, by rw [hid, hver]; exact hv⟩
  cases r with
  | getObject id => exact hkey o.version (hB.latest id o h).1
  | getObjectByKey id v => exact hkey v h
  | getPackageObject id =>
    cases hp : B.getPackageObject id with
    | error e => simp [BackingStore.fetched, BackingStore.answer, hp, Answer.carried] at h
    | ok p =>
      simp only [BackingStore.fetched, BackingStore.answer, hp, Answer.carried] at h
      have hpkg := hB.package id p hp
      cases hg : B.getObject id with
      | none => simp [hpkg, hg] at h
      | some o' =>
        simp only [hpkg, hg, Option.map_some, Option.some.injEq] at h
        subst h
        exact hkey o'.version (hB.latest id o' hg).1
  | getObjectReceivedAtVersion owner id v epoch =>
    cases hp : B.getObjectReceivedAtVersion owner id v epoch with
    | error e => simp [BackingStore.fetched, BackingStore.answer, hp, Answer.carried] at h
    | ok p =>
      simp only [BackingStore.fetched, BackingStore.answer, hp, Answer.carried] at h
      subst h
      exact hkey v (hB.received owner id v epoch o hp)
  | readChildObject parent id b =>
    cases hp : B.readChildObject parent id b with
    | error e => simp [BackingStore.fetched, BackingStore.answer, hp, Answer.carried] at h
    | ok p =>
      simp only [BackingStore.fetched, BackingStore.answer, hp, Answer.carried] at h
      subst h
      exact hkey o.version (hB.child parent id b o hp).1

/-! ### A small backing store -/

def sampleObject (v : SequenceNumber) (contents : List Byte) : Object :=
  ⟨ObjectID.ofByte 7, v, .move contents⟩

/-- Versions 1 and 3 of the object with id 7, and nothing else. -/
def twoVersions : BackingStore where
  getObject id := if id = ObjectID.ofByte 7 then some (sampleObject 3 [3]) else none
  getObjectByKey id v :=
    if id = ObjectID.ofByte 7 then
      if v = 1 then some (sampleObject 1 [1])
      else if v = 3 then some (sampleObject 3 [3]) else none
    else none
  getPackageObject id :=
    .ok (if id = ObjectID.ofByte 7 then some ⟨sampleObject 3 [3]⟩ else none)
  getObjectReceivedAtVersion _ _ _ _ := .ok none
  readChildObject _ id b :=
    .ok (if id = ObjectID.ofByte 7 then
      if 3 ≤ b then some (sampleObject 3 [3])
      else if 1 ≤ b then some (sampleObject 1 [1]) else none
    else none)

theorem twoVersions_byKey (id : ObjectID) (v : SequenceNumber) (o : Object)
    (h : twoVersions.getObjectByKey id v = some o) :
    id = ObjectID.ofByte 7 ∧ (v = 1 ∧ o = sampleObject 1 [1] ∨ v = 3 ∧ o = sampleObject 3 [3]) := by
  simp only [twoVersions] at h
  split_ifs at h with hid h1 h3
  · exact ⟨hid, Or.inl ⟨h1, (Option.some.inj h).symm⟩⟩
  · exact ⟨hid, Or.inr ⟨h3, (Option.some.inj h).symm⟩⟩

theorem twoVersions_consistent : twoVersions.Consistent := by
  have hle : ∀ id v o, twoVersions.getObjectByKey id v = some o → v ≤ 3 := by
    intro id v o h
    rcases (twoVersions_byKey id v o h).2 with ⟨rfl, _⟩ | ⟨rfl, _⟩
    · decide
    · exact le_rfl
  refine ⟨?_, ?_, ?_, ?_, ?_, ?_, ?_⟩
  · intro id v o h
    obtain ⟨rfl, ⟨rfl, rfl⟩ | ⟨rfl, rfl⟩⟩ := twoVersions_byKey id v o h
    · exact ⟨rfl, rfl⟩
    · exact ⟨rfl, rfl⟩
  · intro id o h
    simp only [twoVersions] at h
    split_ifs at h with hid
    obtain rfl := Option.some.inj h
    subst hid
    exact ⟨by decide, fun v o' h' => hle _ v o' h'⟩
  · intro id h v
    simp only [twoVersions] at h ⊢
    split_ifs at h with hid
    simp only [if_neg hid]
  · intro id p h
    simp only [twoVersions, Except.ok.injEq] at h ⊢
    rw [← h]
    split_ifs
    · rfl
    · rfl
  · intro owner id v epoch o h
    simp [twoVersions] at h
  · intro parent id b o h
    simp only [twoVersions, Except.ok.injEq] at h
    split_ifs at h with hid h3 h1
    · obtain rfl := Option.some.inj h
      subst hid
      exact ⟨by decide, h3, fun v o' _ h' => hle _ v o' h'⟩
    · obtain rfl := Option.some.inj h
      subst hid
      refine ⟨by decide, h1, ?_⟩
      intro v o' hv h'
      rcases (twoVersions_byKey _ v o' h').2 with ⟨rfl, _⟩ | ⟨rfl, _⟩
      · exact le_rfl
      · exact absurd hv h3
  · intro parent id b h v hv
    simp only [twoVersions, Except.ok.injEq] at h
    cases hk : twoVersions.getObjectByKey id v with
    | none => rfl
    | some o =>
      obtain ⟨rfl, hcase⟩ := twoVersions_byKey id v o hk
      simp only [if_true] at h
      split_ifs at h with h3 h1
      rcases hcase with ⟨rfl, _⟩ | ⟨rfl, _⟩
      · exact absurd hv h1
      · exact absurd hv h3

end Movy.Store
