import Movy.Store.History

/-!
# Reads through an empty cache

Without commits a `CachedStore` should answer every read as the backing store
does. `ReadOk` is the exact condition on the reads made so far under which the
next one is answered as the backing store would.
-/

namespace Movy.Store

namespace BackingStore

def Fetched (B : BackingStore) (earlier : List Read) (o : Object) : Prop :=
  ∃ r ∈ earlier, B.fetched r = some o

/-- The backing store answers `r`, after the reads `earlier`, no differently
from a cache that remembers what these reads brought. -/
def ReadOk (B : BackingStore) (earlier : List Read) : Read → Prop
  -- if some version was fetched, the latest was
  | .getObject id => ∀ o, B.Fetched earlier o → o.id = id →
      ∃ o', B.getObject id = some o' ∧ B.Fetched earlier o'
  | .getPackageObject id => ∀ o, B.Fetched earlier o → o.id = id →
      ∃ o', B.getPackageObject id = .ok (some ⟨o'⟩) ∧ B.Fetched earlier o'
  | .getObjectByKey _ _ => True
  -- what was fetched under the key is handed out to this owner too
  | .getObjectReceivedAtVersion owner id v epoch => ∀ o, B.Fetched earlier o → o.id = id →
      o.version = v → B.getObjectReceivedAtVersion owner id v epoch = .ok (some o)
  -- a fetched object at the bound is this parent's child, and an empty answer
  -- at a smaller bound does not hide one up to this bound
  | .readChildObject parent child b =>
    (∀ o, B.Fetched earlier o → o.id = child → o.version = b →
      B.readChildObject parent child b = .ok (some o)) ∧
    (∀ parent' b', .readChildObject parent' child b' ∈ earlier → b' ≤ b →
      B.readChildObject parent' child b' = .ok none →
      (∀ o, B.Fetched earlier o → o.id = child → b < o.version) →
      B.readChildObject parent child b = .ok none)

def ReadsOk (B : BackingStore) : List Read → List Read → Prop
  | _, [] => True
  | earlier, r :: rest => B.ReadOk earlier r ∧ ReadsOk B (r :: earlier) rest

variable {B : BackingStore}

theorem fetched_cons (earlier : List Read) (r : Read) (o : Object) :
    B.Fetched (r :: earlier) o ↔ B.fetched r = some o ∨ B.Fetched earlier o := by
  simp only [Fetched, List.mem_cons, exists_eq_or_imp]

theorem Consistent.fetchedKey (hB : B.Consistent) (earlier : List Read) (o : Object)
    (h : B.Fetched earlier o) : B.getObjectByKey o.id o.version = some o := by
  obtain ⟨r, _, hf⟩ := h
  exact (hB.fetched r o hf).2

end BackingStore

namespace CachedStore

def answers (self : CachedStore) : List Read → List Answer
  | [] => []
  | r :: rest => (self.read r).1 :: (self.read r).2.answers rest

/-- After reads that were all answered as the backing store answers them, the
snapshot holds the fetched objects, and an empty entry only where a child read
came back empty. -/
structure Remembers (B : BackingStore) (earlier : List Read) (s : CachedStore) : Prop where
  store_eq : s.store = B
  live : ∀ id v o, s.inner.entry id v = some (some o) ↔
    B.Fetched earlier o ∧ o.id = id ∧ o.version = v
  empty : ∀ id v, s.inner.entry id v = some none →
    ∃ parent, .readChildObject parent id v ∈ earlier ∧ B.readChildObject parent id v = .ok none
  covered : ∀ parent id b, .readChildObject parent id b ∈ earlier →
    B.readChildObject parent id b = .ok none → ∃ u, u ≤ b ∧ s.inner.entry id u = some none

variable {B : BackingStore} {earlier : List Read} {s : CachedStore}

theorem Remembers.wellKeyed (h : Remembers B earlier s) : s.inner.WellKeyed := by
  intro id v o he
  exact ((h.live id v o).mp he).2

theorem remembers_new (B : BackingStore) : Remembers B [] (new B) := by
  refine ⟨rfl, ?_, ?_, ?_⟩
  · intro id v o
    simp [new, CachedSnapshot.entry_default, BackingStore.Fetched]
  · intro id v he
    simp [new, CachedSnapshot.entry_default] at he
  · intro parent id b hm
    simp at hm

theorem Remembers.empty_below (hB : B.Consistent) (h : Remembers B earlier s) (id : ObjectID)
    (u v : SequenceNumber) (o : Object) (hu : s.inner.entry id u = some none)
    (hv : B.getObjectByKey id v = some o) : u < v := by
  obtain ⟨parent, _, hnone⟩ := h.empty id u hu
  by_contra hle
  rw [hB.child_none parent id u hnone v (not_lt.mp hle)] at hv
  simp at hv

/-! ### When a cached answer is the right one -/

theorem carried_wrap (r : Read) (x : Option Object) : (r.wrap x).carried = x := by
  cases r with
  | getPackageObject id => cases x <;> rfl
  | _ => rfl

theorem read_fst (s : CachedStore) (r : Read) (hs : s.store = B) :
    (s.read r).1 = B.answer r ↔
      (∀ o, s.lookup r = .hit o → r.wrap (some o) = B.answer r) ∧
      (s.lookup r = .absent → r.wrap none = B.answer r) := by
  rw [read_eq]
  cases hl : s.lookup r with
  | hit o => simp
  | absent => simp
  | miss => simp [hs]

/-- A fetched id is cached, since an empty entry cannot stand above a live one. -/
theorem Remembers.cached_of_fetched (hB : B.Consistent) (h : Remembers B earlier s) (o : Object)
    (ho : B.Fetched earlier o) :
    ∃ o', s.inner.objectIdCached o.id = some o' ∧ B.Fetched earlier o' := by
  have he : s.inner.entry o.id o.version = some (some o) :=
    (h.live o.id o.version o).mpr ⟨ho, rfl, rfl⟩
  rcases CachedSnapshot.newest_or_unbound s.inner o.id u64Max with hu | ⟨u, x, hn⟩
  · rw [hu o.version (le_u64Max _)] at he
    simp at he
  · cases x with
    | some o' =>
      exact ⟨o', (objectIdCached_eq_some _ _ _).mpr ⟨u, hn⟩, ((h.live o.id u o').mp hn.2.1).1⟩
    | none =>
      have hlt := h.empty_below hB o.id u o.version o hn.2.1 (hB.fetchedKey earlier o ho)
      rw [hn.2.2 o.version (le_u64Max _) hlt] at he
      simp at he

/-- The newest live entry of an id is the latest version exactly if the latest
version was fetched. -/
theorem Remembers.cached_latest (hB : B.Consistent) (h : Remembers B earlier s) (id : ObjectID) :
    (∀ o, s.inner.objectIdCached id = some o → B.getObject id = some o) ↔
      ∀ o, B.Fetched earlier o → o.id = id →
        ∃ o', B.getObject id = some o' ∧ B.Fetched earlier o' := by
  constructor
  · intro hall o ho hid
    obtain ⟨o', hc, hf⟩ := h.cached_of_fetched hB o ho
    exact ⟨o', hall o' (hid ▸ hc), hf⟩
  · intro hall o ho
    obtain ⟨u, hn⟩ := (objectIdCached_eq_some _ _ _).mp ho
    obtain ⟨hf, hid, hv⟩ := (h.live id u o).mp hn.2.1
    obtain ⟨o', hg, hf'⟩ := hall o hf hid
    obtain ⟨hkey', hmax⟩ := hB.latest id o' hg
    have hid' := (hB.keyed id o'.version o' hkey').1
    have he' := (h.live id o'.version o').mpr ⟨hf', hid', rfl⟩
    have hkey := hB.fetchedKey earlier o hf
    rw [hid] at hkey
    have hle : o.version ≤ o'.version := hmax o.version o hkey
    have hge : ¬u < o'.version := by
      intro hlt
      rw [hn.2.2 o'.version (le_u64Max _) hlt] at he'
      simp at he'
    have heq : o.version = o'.version := le_antisymm hle (hv ▸ not_lt.mp hge)
    rw [heq, hkey'] at hkey
    rw [hg, Option.some.inj hkey]

theorem Remembers.cached_package (hB : B.Consistent) (h : Remembers B earlier s) (id : ObjectID) :
    (∀ o, s.inner.objectIdCached id = some o → B.getPackageObject id = .ok (some ⟨o⟩)) ↔
      ∀ o, B.Fetched earlier o → o.id = id →
        ∃ o', B.getPackageObject id = .ok (some ⟨o'⟩) ∧ B.Fetched earlier o' := by
  have hget : ∀ o, B.getPackageObject id = .ok (some ⟨o⟩) → B.getObject id = some o := by
    intro o ho
    have hp := hB.package id _ ho
    cases hg : B.getObject id with
    | none => simp [hg] at hp
    | some o' =>
      simp only [hg, Option.map_some, Option.some.injEq, PackageObject.mk.injEq] at hp
      rw [hp]
  constructor
  · intro hall o ho hid
    obtain ⟨o', hc, hf⟩ := h.cached_of_fetched hB o ho
    exact ⟨o', hall o' (hid ▸ hc), hf⟩
  · intro hall o ho
    have hlat : ∀ o, B.Fetched earlier o → o.id = id →
        ∃ o', B.getObject id = some o' ∧ B.Fetched earlier o' := by
      intro o ho hid
      obtain ⟨o', hp, hf⟩ := hall o ho hid
      exact ⟨o', hget o' hp, hf⟩
    have hg := (h.cached_latest hB id).mpr hlat o ho
    obtain ⟨u, hn⟩ := (objectIdCached_eq_some _ _ _).mp ho
    obtain ⟨hf, hid, _⟩ := (h.live id u o).mp hn.2.1
    obtain ⟨o', hp, _⟩ := hall o hf hid
    have hsame := hget o' hp
    rw [hg, Option.some.injEq] at hsame
    rw [hsame]
    exact hp

theorem Remembers.cached_exact (h : Remembers B earlier s) (id : ObjectID) (v : SequenceNumber)
    (o : Object) : s.inner.objectExactVersion id v = some o ↔
      B.Fetched earlier o ∧ o.id = id ∧ o.version = v := by
  rw [objectExactVersion_eq_some, h.live]

/-- The newest entry up to a bound is empty exactly if some child read came back
empty at a bound that is not larger and nothing up to the bound was fetched. -/
theorem Remembers.child_absent (hB : B.Consistent) (h : Remembers B earlier s)
    (parent child : ObjectID) (b : SequenceNumber) :
    s.lookup (.readChildObject parent child b) = .absent ↔
      (∃ parent' b', .readChildObject parent' child b' ∈ earlier ∧ b' ≤ b ∧
        B.readChildObject parent' child b' = .ok none) ∧
      ∀ o, B.Fetched earlier o → o.id = child → b < o.version := by
  rw [lookup_child_absent]
  constructor
  · intro hcase
    obtain ⟨u, hub, hu, hmax⟩ := hcase
    obtain ⟨parent', hm, hnone⟩ := h.empty child u hu
    refine ⟨⟨parent', u, hm, hub, hnone⟩, ?_⟩
    intro o ho hid
    have he := (h.live child o.version o).mpr ⟨ho, hid, rfl⟩
    have hkey := hB.fetchedKey earlier o ho
    rw [hid] at hkey
    have hlt := h.empty_below hB child u o.version o hu hkey
    by_contra hle
    rw [hmax o.version (not_lt.mp hle) hlt] at he
    simp at he
  · intro hcase
    obtain ⟨⟨parent', b', hm, hb', hnone⟩, hall⟩ := hcase
    obtain ⟨u, hu, he⟩ := h.covered parent' child b' hm hnone
    rcases CachedSnapshot.newest_or_unbound s.inner child b with hub | ⟨w, x, hn⟩
    · rw [hub u (hu.trans hb')] at he
      simp at he
    · cases x with
      | none => exact ⟨w, hn⟩
      | some o =>
        obtain ⟨hf, hid, hv⟩ := (h.live child w o).mp hn.2.1
        have hlt := hall o hf hid
        rw [hv] at hlt
        exact absurd hn.1 (not_le.mpr hlt)

theorem Remembers.read_iff (hB : B.Consistent) (h : Remembers B earlier s) (r : Read) :
    (s.read r).1 = B.answer r ↔ B.ReadOk earlier r := by
  rw [read_fst s r h.store_eq]
  cases r with
  | getObject id =>
    have hna : s.lookup (.getObject id) ≠ .absent := by
      cases hc : s.inner.objectIdCached id <;> simp [lookup, hc, Lookup.ofOption]
    have hc := h.cached_latest hB id
    simp only [BackingStore.ReadOk, ← hc, lookup, ofOption_hit, Read.wrap, BackingStore.answer,
      Answer.object.injEq]
    exact ⟨fun hx o ho => (hx.1 o ho).symm, fun hx => ⟨fun o ho => (hx o ho).symm,
      fun ha => absurd ha hna⟩⟩
  | getPackageObject id =>
    have hna : s.lookup (.getPackageObject id) ≠ .absent := by
      cases hc : s.inner.objectIdCached id <;> simp [lookup, hc, Lookup.ofOption]
    have hc := h.cached_package hB id
    simp only [BackingStore.ReadOk, ← hc, lookup, ofOption_hit, Read.wrap, BackingStore.answer,
      Answer.package.injEq, Option.map_some]
    exact ⟨fun hx o ho => (hx.1 o ho).symm, fun hx => ⟨fun o ho => (hx o ho).symm,
      fun ha => absurd ha hna⟩⟩
  | getObjectByKey id v =>
    have hna : s.lookup (.getObjectByKey id v) ≠ .absent := by
      cases hc : s.inner.objectExactVersion id v <;> simp [lookup, hc, Lookup.ofOption]
    simp only [BackingStore.ReadOk, iff_true]
    refine ⟨?_, fun ha => absurd ha hna⟩
    intro o ho
    simp only [lookup, ofOption_hit, h.cached_exact] at ho
    obtain ⟨hf, rfl, rfl⟩ := ho
    simp only [Read.wrap, BackingStore.answer, hB.fetchedKey earlier o hf]
  | getObjectReceivedAtVersion owner id v epoch =>
    have hna : s.lookup (.getObjectReceivedAtVersion owner id v epoch) ≠ .absent := by
      cases hc : s.inner.objectExactVersion id v <;> simp [lookup, hc, Lookup.ofOption]
    simp only [BackingStore.ReadOk, lookup, ofOption_hit, h.cached_exact, Read.wrap,
      BackingStore.answer, Answer.result.injEq]
    exact ⟨fun hx o hf hid hv => (hx.1 o ⟨hf, hid, hv⟩).symm,
      fun hx => ⟨fun o ho => (hx o ho.1 ho.2.1 ho.2.2).symm, fun ha => absurd ha hna⟩⟩
  | readChildObject parent child b =>
    simp only [BackingStore.ReadOk, lookup_child_hit s h.wellKeyed, h.live, h.child_absent hB,
      Read.wrap, BackingStore.answer, Answer.result.injEq]
    constructor
    · intro hcase
      obtain ⟨hhit, habs⟩ := hcase
      refine ⟨fun o hf hid hv => (hhit o ⟨hf, hid, hv⟩).symm, ?_⟩
      intro parent' b' hm hb hnone hall
      exact (habs ⟨⟨parent', b', hm, hb, hnone⟩, hall⟩).symm
    · intro hcase
      obtain ⟨hhit, habs⟩ := hcase
      refine ⟨fun o ho => (hhit o ho.1 ho.2.1 ho.2.2).symm, ?_⟩
      intro hcase
      obtain ⟨⟨parent', b', hm, hb, hnone⟩, hall⟩ := hcase
      exact (habs parent' b' hm hb hnone hall).symm

/-! ### A whole sequence of reads -/

theorem Remembers.cons (h : Remembers B earlier s) (r : Read)
    (hf : ∀ o, B.fetched r = some o → B.Fetched earlier o)
    (hc : ∀ parent id b, r = .readChildObject parent id b →
      B.readChildObject parent id b = .ok none → ∃ u, u ≤ b ∧ s.inner.entry id u = some none) :
    Remembers B (r :: earlier) s := by
  refine ⟨h.store_eq, ?_, ?_, ?_⟩
  · intro id v o
    have hiff : B.Fetched (r :: earlier) o ↔ B.Fetched earlier o := by
      rw [BackingStore.fetched_cons]
      exact or_iff_right_of_imp (hf o)
    rw [h.live, hiff]
  · intro id v he
    obtain ⟨parent, hm, hnone⟩ := h.empty id v he
    exact ⟨parent, List.mem_cons_of_mem _ hm, hnone⟩
  · intro parent id b hm hnone
    rcases List.mem_cons.mp hm with heq | hm
    · exact hc parent id b heq.symm hnone
    · exact h.covered parent id b hm hnone

theorem Remembers.cacheObjectOnly (hB : B.Consistent) (h : Remembers B earlier s) (r : Read)
    (o : Object) (ho : B.fetched r = some o) :
    Remembers B (r :: earlier) { s with inner := s.inner.cacheObjectOnly o } := by
  obtain ⟨_, hkey⟩ := hB.fetched r o ho
  refine ⟨h.store_eq, ?_, ?_, ?_⟩
  · intro id v o'
    rw [CachedSnapshot.entry_cacheObjectOnly, BackingStore.fetched_cons]
    split_ifs with hk
    · obtain ⟨rfl, rfl⟩ := hk
      constructor
      · intro he
        obtain rfl := Option.some.inj (Option.some.inj he)
        exact ⟨Or.inl ho, rfl, rfl⟩
      · intro hall
        obtain ⟨hf, hid, hv⟩ := hall
        have hkey' : B.getObjectByKey o'.id o'.version = some o' := by
          rcases hf with hf | hf
          · exact (hB.fetched r o' hf).2
          · exact hB.fetchedKey earlier o' hf
        rw [hid, hv, hkey] at hkey'
        rw [hkey']
    · rw [h.live]
      constructor
      · intro hall
        obtain ⟨hf, hid, hv⟩ := hall
        exact ⟨Or.inr hf, hid, hv⟩
      · intro hall
        obtain ⟨hf | hf, hid, hv⟩ := hall
        · rw [ho] at hf
          obtain rfl := Option.some.inj hf
          exact absurd ⟨hid.symm, hv.symm⟩ hk
        · exact ⟨hf, hid, hv⟩
  · intro id v he
    rw [CachedSnapshot.entry_cacheObjectOnly] at he
    split_ifs at he
    · simp at he
    · obtain ⟨parent, hm, hnone⟩ := h.empty id v he
      exact ⟨parent, List.mem_cons_of_mem _ hm, hnone⟩
  · intro parent id b hm hnone
    rcases List.mem_cons.mp hm with heq | hm
    · subst heq
      simp [BackingStore.fetched, BackingStore.answer, hnone, Answer.carried] at ho
    · obtain ⟨u, hu, he⟩ := h.covered parent id b hm hnone
      refine ⟨u, hu, ?_⟩
      rw [CachedSnapshot.entry_cacheObjectOnly]
      split_ifs with hk
      · -- the object would sit where the backing store has none
        obtain ⟨rfl, rfl⟩ := hk
        exact absurd (h.empty_below hB o.id o.version o.version o he hkey) (lt_irrefl _)
      · exact he

theorem Remembers.cacheQuery (h : Remembers B earlier s) (parent child : ObjectID)
    (b : SequenceNumber) (hl : s.lookup (.readChildObject parent child b) = .miss)
    (hnone : B.readChildObject parent child b = .ok none) :
    Remembers B (.readChildObject parent child b :: earlier)
      { s with inner := s.inner.cacheQuery child b none } := by
  have hfree := entry_of_child_miss s h.wellKeyed parent child b hl
  have hf : B.fetched (.readChildObject parent child b) = none := by
    simp only [BackingStore.fetched, BackingStore.answer, hnone, Answer.carried]
  refine ⟨h.store_eq, ?_, ?_, ?_⟩
  · intro id v o
    rw [CachedSnapshot.entry_cacheQuery, BackingStore.fetched_cons, hf]
    simp only [reduceCtorEq, false_or]
    rw [← h.live]
    split_ifs with hk
    · obtain ⟨rfl, rfl⟩ := hk
      simp [hfree]
    · rfl
  · intro id v he
    rw [CachedSnapshot.entry_cacheQuery] at he
    split_ifs at he with hk
    · obtain ⟨rfl, rfl⟩ := hk
      exact ⟨parent, List.mem_cons_self .., hnone⟩
    · obtain ⟨parent', hm, hn⟩ := h.empty id v he
      exact ⟨parent', List.mem_cons_of_mem _ hm, hn⟩
  · intro parent' id b' hm hn
    have hkeep : ∀ u, s.inner.entry id u = some none →
        (s.inner.cacheQuery child b none).entry id u = some none := by
      intro u hu
      rw [CachedSnapshot.entry_cacheQuery]
      split_ifs
      · rfl
      · exact hu
    rcases List.mem_cons.mp hm with heq | hm
    · simp only [Read.readChildObject.injEq] at heq
      obtain ⟨_, rfl, rfl⟩ := heq
      refine ⟨b', le_rfl, ?_⟩
      simp only [CachedSnapshot.entry_cacheQuery, and_self, if_true]
    · obtain ⟨u, hu, he⟩ := h.covered parent' id b' hm hn
      exact ⟨u, hu, hkeep u he⟩

theorem Remembers.read (hB : B.Consistent) (h : Remembers B earlier s) (r : Read)
    (hr : (s.read r).1 = B.answer r) : Remembers B (r :: earlier) (s.read r).2 := by
  rcases read_cases s r with heq | ⟨_, o, ho, heq⟩ | ⟨hl, parent, child, b, rfl, hb, heq⟩
  · rw [heq]
    rw [read_eq] at hr heq
    cases hl : s.lookup r with
    | hit o =>
      simp only [hl] at hr
      have hf : B.fetched r = some o := by
        rw [BackingStore.fetched, ← hr, carried_wrap]
      refine h.cons r ?_ ?_
      · intro o' ho'
        rw [hf] at ho'
        obtain rfl := Option.some.inj ho'
        cases r with
        | getObject id =>
          simp only [lookup, ofOption_hit, objectIdCached_eq_some] at hl
          obtain ⟨u, hn⟩ := hl
          exact ((h.live id u o).mp hn.2.1).1
        | getPackageObject id =>
          simp only [lookup, ofOption_hit, objectIdCached_eq_some] at hl
          obtain ⟨u, hn⟩ := hl
          exact ((h.live id u o).mp hn.2.1).1
        | getObjectByKey id v =>
          simp only [lookup, ofOption_hit, h.cached_exact] at hl
          exact hl.1
        | getObjectReceivedAtVersion owner id v epoch =>
          simp only [lookup, ofOption_hit, h.cached_exact] at hl
          exact hl.1
        | readChildObject parent child b =>
          rw [lookup_child_hit s h.wellKeyed, h.live] at hl
          exact hl.1
      · intro parent id b hrb hnone
        subst hrb
        simp [BackingStore.fetched, BackingStore.answer, hnone, Answer.carried] at hf
    | absent =>
      simp only [hl] at hr
      have hf : B.fetched r = none := by
        rw [BackingStore.fetched, ← hr, carried_wrap]
      refine h.cons r ?_ ?_
      · intro o ho
        rw [hf] at ho
        simp at ho
      · intro parent id b hrb _
        subst hrb
        obtain ⟨u, hn⟩ := (lookup_child_absent s parent id b).mp hl
        exact ⟨u, hn.1, hn.2.1⟩
    | miss =>
      simp only [hl] at heq
      refine h.cons r ?_ ?_
      · intro o ho
        simp only [fill, h.store_eq, ho] at heq
        have he : s.inner.entry o.id o.version = some (some o) := by
          rw [← heq, CachedSnapshot.entry_cacheObjectOnly]
          simp only [and_self, if_true]
        exact ((h.live o.id o.version o).mp he).1
      · intro parent id b hrb hnone
        subst hrb
        simp only [fill, h.store_eq, BackingStore.fetched, BackingStore.answer, hnone,
          Answer.carried] at heq
        refine ⟨b, le_rfl, ?_⟩
        rw [← heq, CachedSnapshot.entry_cacheQuery]
        simp only [and_self, if_true]
  · rw [heq]
    rw [h.store_eq] at ho
    exact h.cacheObjectOnly hB r o ho
  · rw [heq]
    rw [h.store_eq] at hb
    exact h.cacheQuery parent child b hl hb

theorem Remembers.answers_iff (hB : B.Consistent) (h : Remembers B earlier s) (rs : List Read) :
    s.answers rs = rs.map B.answer ↔ B.ReadsOk earlier rs := by
  induction rs generalizing earlier s with
  | nil => simp [answers, BackingStore.ReadsOk]
  | cons r rest ih =>
    simp only [answers, List.map_cons, List.cons.injEq, BackingStore.ReadsOk]
    rw [← h.read_iff hB r]
    constructor
    · intro hall
      obtain ⟨hr, hrest⟩ := hall
      exact ⟨hr, (ih (h.read hB r hr)).mp hrest⟩
    · intro hall
      obtain ⟨hr, hrest⟩ := hall
      exact ⟨hr, (ih (h.read hB r hr)).mpr hrest⟩

/-- A fresh cache over a consistent store gives the store's own answers to a
sequence of reads exactly if each read is fit for those before it. -/
theorem answers_eq_backing_iff (B : BackingStore) (hB : B.Consistent) (rs : List Read) :
    (new B).answers rs = rs.map B.answer ↔ B.ReadsOk [] rs :=
  (remembers_new B).answers_iff hB rs

theorem answers_eq_backing_after_latest :
    (new twoVersions).answers [.getObjectByKey (ObjectID.ofByte 7) 3, .getObject (ObjectID.ofByte 7)] =
      [.getObjectByKey (ObjectID.ofByte 7) 3, .getObject (ObjectID.ofByte 7)].map
        twoVersions.answer := by
  refine (answers_eq_backing_iff twoVersions twoVersions_consistent _).mpr ⟨trivial, ?_, trivial⟩
  intro o _ _
  exact ⟨sampleObject 3 [3], by decide, _, List.mem_cons_self .., by decide⟩

/-- After an old version was read by key, `get_object` returns that version. -/
theorem old_version_shadows_latest :
    twoVersions.Consistent ∧
    (new twoVersions).answers [.getObjectByKey (ObjectID.ofByte 7) 1, .getObject (ObjectID.ofByte 7)] ≠
      [.getObjectByKey (ObjectID.ofByte 7) 1, .getObject (ObjectID.ofByte 7)].map
        twoVersions.answer := by
  refine ⟨twoVersions_consistent, ?_⟩
  intro h
  have hc := congrArg (List.map Answer.carried) h
  revert hc
  decide

end CachedStore

end Movy.Store
