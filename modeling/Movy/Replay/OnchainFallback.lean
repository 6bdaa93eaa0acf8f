import Movy.Store.ById
import Movy.Sui.Relink
import Mathlib.Data.Finset.Max
import Mathlib.Data.Finset.Sort

/-!
# Fetching missing dependencies from the chain (`movy-replay/src/env.rs`)

Before `load_local` deploys a package, it goes over a set of package ids that
the package depends on. An id that the database does not know is fetched from
the chain together with the packages of its linkage table, and the ids of that
table join the set.
-/

namespace Movy.Replay

open Store CachedStore CachedSnapshot Sui

structure UpgradeInfo where
  upgradedId : ObjectID
  upgradedVersion : SequenceNumber

inductive FetchError where
  | packageNotFound (id : ObjectID)
  | objectNotFound (id : ObjectID)
  | expectedPackage (id : ObjectID)
  | rpc (message : String)

/-- What the chain answers; it has finitely many objects, each under its own id. -/
structure GraphQlDatabase where
  getObject : ObjectID → Except String (Option Object)
  ids : Finset ObjectID
  keyed : ∀ id o, getObject id = .ok (some o) → o.id = id ∧ id ∈ ids

section

variable (linkageTable : List Byte → SortedMap ObjectID UpgradeInfo) (rpc : GraphQlDatabase)

def tryAsPackage (object : Object) : Option (SortedMap ObjectID UpgradeInfo) :=
  match object.data with
  | .package modules => some (linkageTable modules)
  | .move _ => none

def deployObjectId (db : CachedStore) (packageId : ObjectID) :
    Except FetchError Unit × CachedStore :=
  match rpc.getObject packageId with
  | .error e => (.error (.rpc e), db)
  | .ok none => (.error (.objectNotFound packageId), db)
  | .ok (some object) => (.ok (), db.commitSingleObject object)

def fetchLinked (db : CachedStore) :
    List (ObjectID × UpgradeInfo) → Finset ObjectID →
      Except FetchError (Finset ObjectID) × CachedStore
  | [], out => (.ok out, db)
  | e :: rest, out => match db.getObject e.2.upgradedId with
    | (some _, db) => fetchLinked db rest (insert e.1 out)
    | (none, db) => match deployObjectId rpc db e.2.upgradedId with
      | (.error err, db) => (.error err, db)
      | (.ok _, db) => fetchLinked db rest (insert e.1 out)

def fetchPackageAtAddress (db : CachedStore) (packageId : ObjectID) :
    Except FetchError (Finset ObjectID) × CachedStore :=
  match rpc.getObject packageId with
  | .error e => (.error (.rpc e), db)
  | .ok none => (.error (.packageNotFound packageId), db)
  | .ok (some object) => match tryAsPackage linkageTable object with
    | none => (.error (.expectedPackage object.id), db)
    | some linkage => match fetchLinked rpc db linkage.entries ∅ with
      | (.error err, db) => (.error err, db)
      | (.ok out, db) => (.ok out, db.commitSingleObject object)

/-- The loop over `packages_to_fetch`; `own` is the id of the package that is
loaded. A failed fetch is only logged. `none` is out of fuel. -/
def onchainFallback (own : ObjectID) : ℕ → CachedStore → Finset ObjectID → Option CachedStore
  | 0, _, _ => none
  | fuel + 1, db, packagesToFetch =>
    if h : packagesToFetch.Nonempty then
      let dep := packagesToFetch.max' h
      let packagesToFetch := packagesToFetch.erase dep
      if dep ≠ ZERO ∧ dep ≠ own then
        match db.getObject dep with
        | (some _, db) => onchainFallback own fuel db packagesToFetch
        | (none, db) => match fetchPackageAtAddress linkageTable rpc db dep with
          | (.ok nexts, db) => onchainFallback own fuel db (packagesToFetch ∪ nexts)
          | (.error _, db) => onchainFallback own fuel db packagesToFetch
      else onchainFallback own fuel db packagesToFetch
    else some db

end

/-! ### What the database gains -/

variable (linkageTable : List Byte → SortedMap ObjectID UpgradeInfo) (rpc : GraphQlDatabase)

/-- A database in which no object of the chain is recorded as absent. -/
structure Ready (db : CachedStore) : Prop where
  keyed : db.inner.WellKeyed
  base : db.BaseKeyed
  standing : ∀ id o, rpc.getObject id = .ok (some o) → db.Standing id

/-- Every answer stays, and a new one is the answer of the chain. -/
structure Grows (db db' : CachedStore) : Prop where
  ready : Ready rpc db'
  keeps : ∀ id o, db.byId id = some o → db'.byId id = some o
  adds : ∀ id o, db'.byId id = some o → db.byId id = some o ∨ rpc.getObject id = .ok (some o)

variable {rpc}

theorem Grows.refl {db : CachedStore} (h : Ready rpc db) : Grows rpc db db :=
  ⟨h, fun _ _ h => h, fun _ _ h => Or.inl h⟩

theorem Grows.trans {a b c : CachedStore} (hab : Grows rpc a b) (hbc : Grows rpc b c) :
    Grows rpc a c := by
  refine ⟨hbc.ready, fun id o h => hbc.keeps id o (hab.keeps id o h), fun id o h => ?_⟩
  rcases hbc.adds id o h with h | h
  · exact hab.adds id o h
  · exact Or.inr h

theorem Grows.known {a b : CachedStore} (h : Grows rpc a b) (id : ObjectID)
    (ha : a.byId id ≠ none) : b.byId id ≠ none := by
  obtain ⟨o, ho⟩ := Option.ne_none_iff_exists'.mp ha
  rw [h.keeps id o ho]
  simp

theorem grows_getObject (db : CachedStore) (id : ObjectID) (h : Ready rpc db) :
    Grows rpc db (db.getObject id).2 := by
  have hsame : ∀ j, (db.getObject id).2.byId j = db.byId j := byId_getObject db h.base id
  refine ⟨⟨wellKeyed_getObject db id h.keyed, ?_, ?_⟩, ?_, ?_⟩
  · intro j o hj
    rw [store_getObject] at hj
    exact h.base j o hj
  · exact fun j o hj => standing_getObject db id j (h.standing j o hj)
  · exact fun j o hj => (hsame j).trans hj
  · exact fun j o hj => Or.inl ((hsame j).symm.trans hj)

theorem grows_commitSingleObject (db : CachedStore) (id : ObjectID) (o : Object)
    (h : Ready rpc db) (ho : rpc.getObject id = .ok (some o))
    (hid : db.byId id = none ∨ db.byId id = some o) :
    Grows rpc db (db.commitSingleObject o) ∧ (db.commitSingleObject o).byId id = some o ∧
      ∀ j, j ≠ id → (db.commitSingleObject o).byId j = db.byId j := by
  obtain ⟨rfl, -⟩ := rpc.keyed id o ho
  have hself := byId_commitSingleObject_self db o h.keyed (h.standing _ o ho) hid
  have hne := fun j hj => byId_commitSingleObject_of_ne db o j hj
  refine ⟨⟨⟨wellKeyed_cacheObjectOnly _ _ h.keyed, h.base, ?_⟩, ?_, ?_⟩, hself, hne⟩
  · exact fun j p hj => standing_commitSingleObject db o j (h.standing j p hj)
  · intro j p hj
    by_cases hjo : j = o.id
    · subst hjo
      rcases hid with hid | hid
      · rw [hid] at hj
        cases hj
      · rw [hself, ← hid, hj]
    · rw [hne j hjo, hj]
  · intro j p hj
    by_cases hjo : j = o.id
    · subst hjo
      rw [hself] at hj
      exact Or.inr (hj ▸ ho)
    · exact Or.inl ((hne j hjo).symm.trans hj)

variable (rpc) in
structure LinkedFetch (db db' : CachedStore) (l : List (ObjectID × UpgradeInfo))
    (out : Finset ObjectID) (r : Except FetchError (Finset ObjectID)) : Prop where
  grows : Grows rpc db db'
  only : ∀ id, db'.byId id ≠ none → db.byId id ≠ none ∨ ∃ e ∈ l, id = e.2.upgradedId
  linked : ∀ out', r = .ok out' → (∀ e ∈ l, db'.byId e.2.upgradedId ≠ none) ∧
    ∀ id, id ∈ out' ↔ id ∈ out ∨ ∃ e ∈ l, id = e.1
  succeeds : (∀ e ∈ l, ∃ o, rpc.getObject e.2.upgradedId = .ok (some o)) → ∃ out', r = .ok out'

theorem linkedFetch_cons (db db₁ db' : CachedStore) (e : ObjectID × UpgradeInfo)
    (rest : List (ObjectID × UpgradeInfo)) (out : Finset ObjectID)
    (r : Except FetchError (Finset ObjectID)) (hg : Grows rpc db db₁)
    (hthere : db₁.byId e.2.upgradedId ≠ none)
    (hother : ∀ j, j ≠ e.2.upgradedId → db₁.byId j = db.byId j)
    (h : LinkedFetch rpc db₁ db' rest (insert e.1 out) r) :
    LinkedFetch rpc db db' (e :: rest) out r := by
  refine ⟨hg.trans h.grows, ?_, ?_, ?_⟩
  · intro id hid
    rcases h.only id hid with h₁ | ⟨e', he', rfl⟩
    · by_cases hj : id = e.2.upgradedId
      · exact Or.inr ⟨e, List.mem_cons_self, hj⟩
      · rw [hother id hj] at h₁
        exact Or.inl h₁
    · exact Or.inr ⟨e', List.mem_cons_of_mem _ he', rfl⟩
  · intro out' hr
    obtain ⟨hlinked, hout⟩ := h.linked out' hr
    refine ⟨?_, fun id => ?_⟩
    · intro e' he'
      rcases List.mem_cons.mp he' with rfl | he'
      · exact h.grows.known _ hthere
      · exact hlinked e' he'
    · rw [hout, Finset.mem_insert, List.exists_mem_cons_iff]
      tauto
  · exact fun hall => h.succeeds fun e' he' => hall e' (List.mem_cons_of_mem _ he')

theorem fetchLinked_spec (l : List (ObjectID × UpgradeInfo)) (db : CachedStore)
    (out : Finset ObjectID) (h : Ready rpc db) :
    LinkedFetch rpc db (fetchLinked rpc db l out).2 l out (fetchLinked rpc db l out).1 := by
  induction l generalizing db out with
  | nil =>
    refine ⟨Grows.refl h, fun _ hid => Or.inl hid, ?_, fun _ => ⟨out, rfl⟩⟩
    intro out' hr
    obtain rfl := Except.ok.inj hr
    exact ⟨fun e he => absurd he List.not_mem_nil, fun id => by simp⟩
  | cons e rest ih =>
    have hread := grows_getObject db e.2.upgradedId h
    have hsame : ∀ j, (db.getObject e.2.upgradedId).2.byId j = db.byId j :=
      byId_getObject db h.base e.2.upgradedId
    rcases hget : db.getObject e.2.upgradedId with ⟨answer, db₁⟩
    rw [hget] at hread hsame
    have hanswer : db.byId e.2.upgradedId = answer := by rw [byId, hget]
    cases answer with
    | some o =>
      have hthere : db₁.byId e.2.upgradedId ≠ none := by rw [hsame, hanswer]; simp
      have hrest := ih db₁ (insert e.1 out) hread.ready
      simp only [fetchLinked, hget]
      exact linkedFetch_cons db db₁ _ e rest out _ hread hthere (fun j _ => hsame j) hrest
    | none =>
      cases hrpc : rpc.getObject e.2.upgradedId with
      | error msg =>
        simp only [fetchLinked, hget, deployObjectId, hrpc]
        refine ⟨hread, fun id hid => Or.inl (hsame id ▸ hid), fun _ hr => (by cases hr), ?_⟩
        intro hall
        obtain ⟨o, ho⟩ := hall e List.mem_cons_self
        rw [hrpc] at ho
        cases ho
      | ok found =>
        cases found with
        | none =>
          simp only [fetchLinked, hget, deployObjectId, hrpc]
          refine ⟨hread, fun id hid => Or.inl (hsame id ▸ hid), fun _ hr => (by cases hr), ?_⟩
          intro hall
          obtain ⟨o, ho⟩ := hall e List.mem_cons_self
          rw [hrpc] at ho
          cases ho
        | some o =>
          have hnone : db₁.byId e.2.upgradedId = none := (hsame _).trans hanswer
          obtain ⟨hg, hthere, hne⟩ :=
            grows_commitSingleObject db₁ e.2.upgradedId o hread.ready hrpc (Or.inl hnone)
          have hrest := ih (db₁.commitSingleObject o) (insert e.1 out) hg.ready
          simp only [fetchLinked, hget, deployObjectId, hrpc]
          refine linkedFetch_cons db _ _ e rest out _ (hread.trans hg) ?_ ?_ hrest
          · rw [hthere]
            simp
          · exact fun j hj => (hne j hj).trans (hsame j)

/-! ### Fetching one package -/

/-- Every package of the chain has the packages of its linkage table on the chain. -/
def Complete (rpc : GraphQlDatabase) : Prop :=
  ∀ id o linkage, rpc.getObject id = .ok (some o) → tryAsPackage linkageTable o = some linkage →
    ∀ e ∈ linkage.entries, ∃ o', rpc.getObject e.2.upgradedId = .ok (some o')

/-- The chain has a package at the id, with this linkage table. -/
def ChainPackage (rpc : GraphQlDatabase) (id : ObjectID)
    (linkage : SortedMap ObjectID UpgradeInfo) : Prop :=
  ∃ o, rpc.getObject id = .ok (some o) ∧ tryAsPackage linkageTable o = some linkage

/-- A package of the chain whose linked packages are all on the chain. -/
def Fetchable (rpc : GraphQlDatabase) (id : ObjectID) : Prop :=
  ∃ linkage, ChainPackage linkageTable rpc id linkage ∧
    ∀ e ∈ linkage.entries, ∃ o, rpc.getObject e.2.upgradedId = .ok (some o)

variable (rpc) in
structure PackageFetch (db db' : CachedStore) (id : ObjectID)
    (r : Except FetchError (Finset ObjectID)) : Prop where
  grows : Grows rpc db db'
  fetched : ∀ nexts, r = .ok nexts → ∃ linkage, ChainPackage linkageTable rpc id linkage ∧
    db'.byId id ≠ none ∧ (∀ e ∈ linkage.entries, db'.byId e.2.upgradedId ≠ none) ∧
    (∀ k, k ∈ nexts ↔ ∃ e ∈ linkage.entries, k = e.1) ∧
    ∀ j, db'.byId j ≠ none → db.byId j ≠ none ∨ j = id ∨
      ∃ e ∈ linkage.entries, j = e.2.upgradedId
  succeeds : Fetchable linkageTable rpc id → ∃ nexts, r = .ok nexts
  failed : ∀ err, r = .error err → Complete linkageTable rpc → db' = db

section Fetch

variable {linkageTable}

theorem not_fetchable {id : ObjectID} (h : ∀ linkage, ¬ ChainPackage linkageTable rpc id linkage) :
    ¬ Fetchable linkageTable rpc id :=
  fun ⟨linkage, hpackage, _⟩ => h linkage hpackage

theorem ChainPackage.linkage_eq {id : ObjectID} {o : Object}
    {linkage linkage' : SortedMap ObjectID UpgradeInfo} (hrpc : rpc.getObject id = .ok (some o))
    (hpkg : tryAsPackage linkageTable o = some linkage)
    (h : ChainPackage linkageTable rpc id linkage') : linkage' = linkage := by
  obtain ⟨o', ho', hl⟩ := h
  rw [hrpc] at ho'
  cases ho'
  exact Option.some.inj (hl.symm.trans hpkg)

variable {db db₁ : CachedStore} {id : ObjectID}

theorem packageFetch_missing (h : Ready rpc db) {r : Except FetchError (Finset ObjectID)}
    (hr : ∀ nexts, r ≠ .ok nexts) (hno : ∀ linkage, ¬ ChainPackage linkageTable rpc id linkage) :
    PackageFetch linkageTable rpc db db id r :=
  ⟨Grows.refl h, fun nexts hn => absurd hn (hr nexts), fun hf => absurd hf (not_fetchable hno),
    fun _ _ _ => rfl⟩

variable {o : Object} {linkage : SortedMap ObjectID UpgradeInfo}
  (hrpc : rpc.getObject id = .ok (some o)) (hpkg : tryAsPackage linkageTable o = some linkage)

include hrpc hpkg

theorem packageFetch_failed {err : FetchError}
    (h : LinkedFetch rpc db db₁ linkage.entries ∅ (.error err)) :
    PackageFetch linkageTable rpc db db₁ id (.error err) := by
  have hno : ¬ ∀ e ∈ linkage.entries, ∃ o', rpc.getObject e.2.upgradedId = .ok (some o') := by
    intro hall
    obtain ⟨out, hout⟩ := h.succeeds hall
    cases hout
  refine ⟨h.grows, fun _ hn => (by cases hn), ?_, fun _ _ hc => absurd (hc id o linkage hrpc hpkg) hno⟩
  intro hfetch
  obtain ⟨linkage', hchain, hall⟩ := hfetch
  obtain rfl := hchain.linkage_eq hrpc hpkg
  exact absurd hall hno

/-- The package is committed after those that it links to; it may be there already, as one
of them. -/
theorem packageFetch_done (hid : db.byId id = none) {out : Finset ObjectID}
    (h : LinkedFetch rpc db db₁ linkage.entries ∅ (.ok out)) :
    PackageFetch linkageTable rpc db (db₁.commitSingleObject o) id (.ok out) := by
  obtain ⟨hlinked, hout⟩ := h.linked out rfl
  have hnow : db₁.byId id = none ∨ db₁.byId id = some o := by
    cases hb : db₁.byId id with
    | none => exact Or.inl rfl
    | some p =>
      rcases h.grows.adds id p hb with hp | hp
      · rw [hid] at hp
        cases hp
      · rw [hrpc] at hp
        cases hp
        exact Or.inr rfl
  obtain ⟨hg, hself, hne⟩ := grows_commitSingleObject db₁ id o h.grows.ready hrpc hnow
  refine ⟨h.grows.trans hg, ?_, fun _ => ⟨out, rfl⟩, fun _ hn => by cases hn⟩
  intro nexts hn
  obtain rfl := Except.ok.inj hn
  refine ⟨linkage, ⟨o, hrpc, hpkg⟩, by rw [hself]; simp,
    fun e he => hg.known _ (hlinked e he), fun k => by rw [hout]; simp, ?_⟩
  intro j hj
  by_cases hji : j = id
  · exact Or.inr (Or.inl hji)
  · rw [hne j hji] at hj
    rcases h.only j hj with hj | hj
    · exact Or.inl hj
    · exact Or.inr (Or.inr hj)

end Fetch

theorem fetchPackageAtAddress_spec (db : CachedStore) (id : ObjectID) (h : Ready rpc db)
    (hid : db.byId id = none) :
    PackageFetch linkageTable rpc db (fetchPackageAtAddress linkageTable rpc db id).2 id
      (fetchPackageAtAddress linkageTable rpc db id).1 := by
  cases hrpc : rpc.getObject id with
  | error msg =>
    simp only [fetchPackageAtAddress, hrpc]
    refine packageFetch_missing h (fun _ hn => by cases hn) fun linkage hchain => ?_
    obtain ⟨o, ho, -⟩ := hchain
    rw [hrpc] at ho
    cases ho
  | ok found =>
    cases found with
    | none =>
      simp only [fetchPackageAtAddress, hrpc]
      refine packageFetch_missing h (fun _ hn => by cases hn) fun linkage hchain => ?_
      obtain ⟨o, ho, -⟩ := hchain
      rw [hrpc] at ho
      cases ho
    | some o =>
      cases hpkg : tryAsPackage linkageTable o with
      | none =>
        simp only [fetchPackageAtAddress, hrpc, hpkg]
        refine packageFetch_missing h (fun _ hn => by cases hn) fun linkage hchain => ?_
        obtain ⟨o', ho', hl⟩ := hchain
        rw [hrpc] at ho'
        cases ho'
        rw [hpkg] at hl
        cases hl
      | some linkage =>
        have hspec := fetchLinked_spec linkage.entries db ∅ h
        rcases hf : fetchLinked rpc db linkage.entries ∅ with ⟨r, db₁⟩
        rw [hf] at hspec
        simp only [fetchPackageAtAddress, hrpc, hpkg, hf]
        cases r with
        | error err => exact packageFetch_failed hrpc hpkg hspec
        | ok out => exact packageFetch_done hrpc hpkg hid hspec

/-! ### The whole loop -/

variable (rpc) in
/-- What the loop owes an id of the set: it is not a dependency, or the database
knows it, or the chain cannot provide it. -/
def Settled (own : ObjectID) (db : CachedStore) (id : ObjectID) : Prop :=
  id = ZERO ∨ id = own ∨ db.byId id ≠ none ∨ ¬ Fetchable linkageTable rpc id

theorem Settled.grows (own : ObjectID) (db db' : CachedStore) (id : ObjectID)
    (hg : Grows rpc db db') (h : Settled linkageTable rpc own db id) :
    Settled linkageTable rpc own db' id := by
  rcases h with h | h | h | h
  · exact Or.inl h
  · exact Or.inr (Or.inl h)
  · exact Or.inr (Or.inr (Or.inl (hg.known id h)))
  · exact Or.inr (Or.inr (Or.inr h))

variable (rpc) in
/-- `q` came from the chain between `db` and `db'` with all its linked packages, and
`p` is `q` or one of those. -/
structure CameWith (db db' : CachedStore) (p q : ObjectID)
    (linkage : SortedMap ObjectID UpgradeInfo) : Prop where
  package : ChainPackage linkageTable rpc q linkage
  new : db.byId q = none
  there : db'.byId q ≠ none
  linked : ∀ e ∈ linkage.entries, db'.byId e.2.upgradedId ≠ none
  part : p = q ∨ ∃ e ∈ linkage.entries, p = e.2.upgradedId

variable (rpc) in
structure Loaded (own : ObjectID) (db db' : CachedStore) (packagesToFetch : Finset ObjectID) :
    Prop where
  grows : Grows rpc db db'
  settled : ∀ id ∈ packagesToFetch, Settled linkageTable rpc own db' id
  covered : Complete linkageTable rpc → ∀ p, db.byId p = none → db'.byId p ≠ none →
    ∃ q linkage, CameWith linkageTable rpc db db' p q linkage ∧
      ∀ e ∈ linkage.entries, Settled linkageTable rpc own db' e.1

def missing (rpc : GraphQlDatabase) (db : CachedStore) : ℕ :=
  (rpc.ids.filter fun id => (db.byId id).isNone).card

theorem missing_le {db db' : CachedStore} (h : Grows rpc db db') :
    missing rpc db' ≤ missing rpc db := by
  refine Finset.card_le_card fun id hid => ?_
  rw [Finset.mem_filter, Option.isNone_iff_eq_none] at hid ⊢
  refine ⟨hid.1, ?_⟩
  by_contra hne
  exact h.known id hne hid.2

theorem missing_lt {db db' : CachedStore} (h : Grows rpc db db') (id : ObjectID)
    (hin : id ∈ rpc.ids) (hold : db.byId id = none) (hnew : db'.byId id ≠ none) :
    missing rpc db' < missing rpc db := by
  refine Finset.card_lt_card ⟨fun j hj => ?_, fun hsub => ?_⟩
  · rw [Finset.mem_filter, Option.isNone_iff_eq_none] at hj ⊢
    refine ⟨hj.1, ?_⟩
    by_contra hne
    exact h.known j hne hj.2
  · have hmem := hsub (Finset.mem_filter.mpr ⟨hin, Option.isNone_iff_eq_none.mpr hold⟩)
    rw [Finset.mem_filter, Option.isNone_iff_eq_none] at hmem
    exact hnew hmem.2

variable (rpc) in
/-- One turn of the loop, from `db` to `db₁`. It is done with `dep`, and it either brings a new
object or leaves a smaller set. -/
structure Turn (own dep : ObjectID) (db db₁ : CachedStore) (work work₁ : Finset ObjectID) :
    Prop where
  runs : ∀ fuel, onchainFallback linkageTable rpc own (fuel + 1) db work =
    onchainFallback linkageTable rpc own fuel db₁ work₁
  grows : Grows rpc db db₁
  rest : work.erase dep ⊆ work₁
  settled : Settled linkageTable rpc own db₁ dep
  new : Complete linkageTable rpc → ∀ p, db.byId p = none → db₁.byId p ≠ none →
    ∃ linkage, CameWith linkageTable rpc db db₁ p dep linkage ∧ ∀ e ∈ linkage.entries, e.1 ∈ work₁
  smaller : missing rpc db₁ < missing rpc db ∨ work₁ = work.erase dep

theorem Turn.loaded {own dep : ObjectID} {db db₁ db' : CachedStore} {work work₁ : Finset ObjectID}
    (t : Turn linkageTable rpc own dep db db₁ work work₁)
    (h : Loaded linkageTable rpc own db₁ db' work₁) : Loaded linkageTable rpc own db db' work := by
  refine ⟨t.grows.trans h.grows, ?_, ?_⟩
  · intro id hid
    by_cases hd : id = dep
    · exact hd ▸ t.settled.grows linkageTable own db₁ db' dep h.grows
    · exact h.settled id (t.rest (Finset.mem_erase.mpr ⟨hd, hid⟩))
  · intro hc p hp hp'
    by_cases hp₁ : db₁.byId p = none
    · obtain ⟨q, linkage, hq, hkeys⟩ := h.covered hc p hp₁ hp'
      refine ⟨q, linkage, ⟨hq.package, ?_, hq.there, hq.linked, hq.part⟩, hkeys⟩
      by_contra hne
      exact t.grows.known q hne hq.new
    · obtain ⟨linkage, hq, hkeys⟩ := t.new hc p hp hp₁
      exact ⟨dep, linkage, ⟨hq.package, hq.new, h.grows.known _ hq.there,
        fun e he => h.grows.known _ (hq.linked e he), hq.part⟩,
        fun e he => h.settled e.1 (hkeys e he)⟩

section Turns

variable {linkageTable} {own dep : ObjectID} {db db₁ : CachedStore} {work : Finset ObjectID}

theorem turn_quiet (hg : Grows rpc db db₁) (hdep : Settled linkageTable rpc own db₁ dep)
    (hsame : Complete linkageTable rpc → ∀ p, db.byId p = none → db₁.byId p = none)
    (hruns : ∀ fuel, onchainFallback linkageTable rpc own (fuel + 1) db work =
      onchainFallback linkageTable rpc own fuel db₁ (work.erase dep)) :
    Turn linkageTable rpc own dep db db₁ work (work.erase dep) :=
  ⟨hruns, hg, Finset.Subset.refl _, hdep, fun hc p hp hp' => absurd (hsame hc p hp) hp', .inr rfl⟩

theorem turn_fetched {db₀ : CachedStore} {nexts : Finset ObjectID} (hread : Grows rpc db db₀)
    (hlooked : ∀ j, db₀.byId j = db.byId j) (hanswer : db.byId dep = none)
    (h : PackageFetch linkageTable rpc db₀ db₁ dep (.ok nexts))
    (hruns : ∀ fuel, onchainFallback linkageTable rpc own (fuel + 1) db work =
      onchainFallback linkageTable rpc own fuel db₁ (work.erase dep ∪ nexts)) :
    Turn linkageTable rpc own dep db db₁ work (work.erase dep ∪ nexts) := by
  have hg := hread.trans h.grows
  obtain ⟨linkage, hpkg, hthere, hlinked, hnexts, honly⟩ := h.fetched nexts rfl
  have hin : dep ∈ rpc.ids := by
    obtain ⟨o, ho, -⟩ := hpkg
    exact (rpc.keyed _ o ho).2
  refine ⟨hruns, hg, Finset.subset_union_left, .inr (.inr (.inl hthere)), ?_,
    .inl (missing_lt hg _ hin hanswer hthere)⟩
  intro _ p hp hp'
  refine ⟨linkage, ⟨hpkg, hanswer, hthere, hlinked, ?_⟩, fun e he => ?_⟩
  · rcases honly p hp' with hold | hpart
    · rw [hlooked] at hold
      exact absurd hp hold
    · exact hpart
  · exact Finset.mem_union_right _ ((hnexts e.1).mpr ⟨e, he, rfl⟩)

end Turns

theorem exists_turn (own : ObjectID) (db : CachedStore) (work : Finset ObjectID)
    (h : Ready rpc db) (hne : work.Nonempty) :
    ∃ db₁ work₁, Turn linkageTable rpc own (work.max' hne) db db₁ work work₁ := by
  by_cases hdep : work.max' hne ≠ ZERO ∧ work.max' hne ≠ own
  · have hread := grows_getObject db (work.max' hne) h
    have hsame : ∀ j, (db.getObject (work.max' hne)).2.byId j = db.byId j :=
      byId_getObject db h.base _
    rcases hget : db.getObject (work.max' hne) with ⟨answer, db₀⟩
    rw [hget] at hread hsame
    have hanswer : db.byId (work.max' hne) = answer := by rw [byId, hget]
    cases answer with
    | some o =>
      refine ⟨db₀, _, turn_quiet hread (.inr (.inr (.inl ?_))) (fun _ p hp => (hsame p).trans hp)
        fun fuel => ?_⟩
      · rw [hsame, hanswer]
        simp
      · simp only [onchainFallback, dif_pos hne, if_pos hdep, hget]
    | none =>
      have hnone : db₀.byId (work.max' hne) = none := (hsame _).trans hanswer
      have hspec := fetchPackageAtAddress_spec linkageTable db₀ _ hread.ready hnone
      rcases hfetch : fetchPackageAtAddress linkageTable rpc db₀ (work.max' hne) with ⟨r, db₁⟩
      rw [hfetch] at hspec
      cases r with
      | error err =>
        refine ⟨db₁, _, turn_quiet (hread.trans hspec.grows) (.inr (.inr (.inr ?_))) ?_
          fun fuel => ?_⟩
        · intro hf
          obtain ⟨nexts, hn⟩ := hspec.succeeds hf
          cases hn
        · intro hcomplete p hp
          have heq : db₁ = db₀ := hspec.failed err rfl hcomplete
          exact heq ▸ (hsame p).trans hp
        · simp only [onchainFallback, dif_pos hne, if_pos hdep, hget, hfetch]
      | ok nexts =>
        refine ⟨db₁, _, turn_fetched hread hsame hanswer hspec fun fuel => ?_⟩
        simp only [onchainFallback, dif_pos hne, if_pos hdep, hget, hfetch]
  · refine ⟨db, _, turn_quiet (Grows.refl h) ?_ (fun _ _ hp => hp) fun fuel => ?_⟩
    · rcases not_and_or.mp hdep with hz | ho
      · exact .inl (not_not.mp hz)
      · exact .inr (.inl (not_not.mp ho))
    · simp only [onchainFallback, dif_pos hne, if_neg hdep]

variable (rpc) in
def Ends (own : ObjectID) (db : CachedStore) (work : Finset ObjectID) : Prop :=
  ∃ n db', (∀ fuel, n ≤ fuel → onchainFallback linkageTable rpc own fuel db work = some db') ∧
    Loaded linkageTable rpc own db db' work

theorem Turn.ends {own dep : ObjectID} {db db₁ : CachedStore} {work work₁ : Finset ObjectID}
    (t : Turn linkageTable rpc own dep db db₁ work work₁) (h : Ends linkageTable rpc own db₁ work₁) :
    Ends linkageTable rpc own db work := by
  obtain ⟨n, db', hrun, hloaded⟩ := h
  refine ⟨n + 1, db', fun fuel hle => ?_, t.loaded linkageTable hloaded⟩
  obtain ⟨k, rfl⟩ : ∃ k, fuel = k + 1 := ⟨fuel - 1, by omega⟩
  rw [t.runs k]
  exact hrun k (by omega)

/-- By induction on what the database does not know, and then on the set. -/
theorem fallback_ends (own : ObjectID) (m : ℕ) (c : ℕ) (db : CachedStore)
    (work : Finset ObjectID) (h : Ready rpc db) (hm : missing rpc db = m) (hc : work.card = c) :
    Ends linkageTable rpc own db work := by
  induction m using Nat.strong_induction_on generalizing c db work with
  | _ m ihm =>
    induction c generalizing db work with
    | zero =>
      obtain rfl := Finset.card_eq_zero.mp hc
      refine ⟨1, db, fun fuel hle => ?_, Grows.refl h, fun id hid => ?_, ?_⟩
      · obtain ⟨k, rfl⟩ : ∃ k, fuel = k + 1 := ⟨fuel - 1, by omega⟩
        simp [onchainFallback]
      · exact absurd hid (Finset.notMem_empty id)
      · exact fun _ p hp hp' => absurd hp hp'
    | succ c ihc =>
      have hne : work.Nonempty := Finset.card_pos.mp (by omega)
      obtain ⟨db₁, work₁, t⟩ := exists_turn linkageTable own db work h hne
      refine t.ends linkageTable ?_
      rcases Nat.lt_or_eq_of_le (hm ▸ missing_le t.grows) with hlt | heq
      · exact ihm _ hlt _ db₁ work₁ t.grows.ready rfl rfl
      · have hwork : work₁ = work.erase (work.max' hne) :=
          t.smaller.resolve_left (by omega)
        refine ihc db₁ work₁ t.grows.ready heq ?_
        rw [hwork, Finset.card_erase_of_mem (Finset.max'_mem work hne)]
        omega

/-- The loop ends on every database in which no chain object is recorded as
absent. It changes no answer of the database and adds answers of the chain only;
every dependency it was given is known afterwards, unless the chain cannot
provide it. On a chain that is complete, whatever it added is a package that it
fetched or stands in the linkage table of one: a fetched package has all packages
of its table beside it, and the ids of the table are settled, too. What came only
as an entry of a table is not followed further. -/
theorem onchain_fallback_loads (own : ObjectID) (db : CachedStore) (h : Ready rpc db)
    (packagesToFetch : Finset ObjectID) :
    ∃ n db', (∀ fuel, n ≤ fuel →
        onchainFallback linkageTable rpc own fuel db packagesToFetch = some db') ∧
      (∀ id o, db.byId id = some o → db'.byId id = some o) ∧
      (∀ id o, db'.byId id = some o → db.byId id = some o ∨ rpc.getObject id = .ok (some o)) ∧
      (∀ id ∈ packagesToFetch, Settled linkageTable rpc own db' id) ∧
      (Complete linkageTable rpc → ∀ p, db.byId p = none → db'.byId p ≠ none →
        ∃ q linkage, CameWith linkageTable rpc db db' p q linkage ∧
          ∀ e ∈ linkage.entries, Settled linkageTable rpc own db' e.1) := by
  obtain ⟨n, db', hrun, hl⟩ := fallback_ends linkageTable own _ _ db packagesToFetch h rfl rfl
  exact ⟨n, db', hrun, hl.grows.keeps, hl.grows.adds, hl.settled, hl.covered⟩

def samplePackage (n : Byte) (linked : List Byte) : Object :=
  ⟨ObjectID.ofByte n, 1, .package linked⟩

def sampleLinkage (modules : List Byte) : SortedMap ObjectID UpgradeInfo :=
  modules.foldl (fun m b => m.insert (ObjectID.ofByte b) ⟨ObjectID.ofByte b, 1⟩) SortedMap.empty

def sampleChain : GraphQlDatabase where
  getObject id :=
    if id = ObjectID.ofByte 5 then .ok (some (samplePackage 5 [6]))
    else if id = ObjectID.ofByte 6 then .ok (some (samplePackage 6 []))
    else .ok none
  ids := {ObjectID.ofByte 5, ObjectID.ofByte 6}
  keyed := by
    intro id o h
    split_ifs at h with h5 h6
    · cases h
      exact ⟨h5.symm, by simp [h5]⟩
    · cases h
      exact ⟨h6.symm, by simp [h6]⟩
    · cases h

theorem onchain_fallback_loads_linked :
    ∃ n db', (∀ fuel, n ≤ fuel → onchainFallback sampleLinkage sampleChain (ObjectID.ofByte 9)
        fuel (CachedStore.new EmptyStore) {ObjectID.ofByte 5} = some db') ∧
      db'.byId (ObjectID.ofByte 5) ≠ none := by
  have hready : Ready sampleChain (CachedStore.new EmptyStore) :=
    ⟨wellKeyed_default, fun _ _ h => (by cases h), fun _ _ _ _ h => (by cases h)⟩
  obtain ⟨n, db', hrun, -, -, hsettled, -⟩ := onchain_fallback_loads sampleLinkage
    (ObjectID.ofByte 9) (CachedStore.new EmptyStore) hready {ObjectID.ofByte 5}
  refine ⟨n, db', hrun, ?_⟩
  have hfetch : Fetchable sampleLinkage sampleChain (ObjectID.ofByte 5) := by
    refine ⟨sampleLinkage [6], ⟨samplePackage 5 [6], by rfl, rfl⟩, fun e he => ?_⟩
    obtain rfl : e = (ObjectID.ofByte 6, ⟨ObjectID.ofByte 6, 1⟩) := List.mem_singleton.mp he
    exact ⟨samplePackage 6 [], by rfl⟩
  rcases hsettled _ (Finset.mem_singleton_self _) with h | h | h | h
  · exact absurd h (by decide)
  · exact absurd h (by decide)
  · exact h
  · exact absurd hfetch h

end Movy.Replay
