import Movy.Store.Deletion
import Movy.Store.Durable

/-!
# Child reads over the merged history

A child read with a version bound should see the versions committed locally
and those of the backing store as one history. `mergedRead` states that; the
local history is the snapshot that the commits alone would have left.
-/

namespace Movy.Store

namespace CachedSnapshot

def newestUpTo (s : CachedSnapshot) (id : ObjectID) (b : SequenceNumber) :
    Option (SequenceNumber × Option Object) :=
  (s.objects.get? id).bind fun t => t.floor b

theorem newestUpTo_eq_some (s : CachedSnapshot) (id : ObjectID) (b u : SequenceNumber)
    (x : Option Object) : s.newestUpTo id b = some (u, x) ↔ s.Newest id b u x := by
  cases hm : s.objects.get? id with
  | none => simp [newestUpTo, Newest, entry, hm]
  | some t =>
    have hent : ∀ w, s.entry id w = t.get? w := fun w => by simp [entry, hm]
    simp only [newestUpTo, hm, Option.bind_some, SortedMap.floor_eq_some, Newest, hent]
    exact ⟨fun h => ⟨h.2.1, h.1, h.2.2⟩, fun h => ⟨h.2.1, h.1, h.2.2⟩⟩

theorem not_newest_of_unbound {s : CachedSnapshot} {id : ObjectID} {b : SequenceNumber}
    (h : ∀ u, u ≤ b → s.entry id u = none) (u : SequenceNumber) (x : Option Object) :
    ¬s.Newest id b u x := by
  intro hn
  have hnone := h u hn.1
  rw [hn.2.1] at hnone
  cases hnone

end CachedSnapshot

/-- The object of greatest version among the local versions up to the bound and
the backing store's answer `y`. A local removal is a version without object. -/
def mergedRead (committed : CachedSnapshot) (y : Option Object) (child : ObjectID)
    (b : SequenceNumber) : Option Object :=
  match committed.newestUpTo child b, y with
  | none, y => y
  | some (u, x), some o => if u < o.version then some o else x
  | some (_, x), none => x

theorem mergedRead_local {committed : CachedSnapshot} {y x : Option Object} {child : ObjectID}
    {b u : SequenceNumber} (h : committed.Newest child b u x)
    (hle : ∀ o, y = some o → o.version ≤ u) : mergedRead committed y child b = x := by
  have hn := (CachedSnapshot.newestUpTo_eq_some committed child b u x).mpr h
  cases y with
  | none => simp only [mergedRead, hn]
  | some o => simp only [mergedRead, hn, if_neg (not_lt.mpr (hle o rfl))]

theorem mergedRead_backing {committed : CachedSnapshot} {y : Option Object} {child : ObjectID}
    {b : SequenceNumber}
    (h : ∀ u x, committed.Newest child b u x → ∃ o, y = some o ∧ u < o.version) :
    mergedRead committed y child b = y := by
  cases hn : committed.newestUpTo child b with
  | none => simp only [mergedRead, hn]
  | some e =>
    obtain ⟨u, x⟩ := e
    obtain ⟨o, rfl, hlt⟩ := h u x ((CachedSnapshot.newestUpTo_eq_some _ _ _ _ _).mp hn)
    simp only [mergedRead, hn, if_pos hlt]

namespace CachedStore

def localStep (self : CachedStore) : Op → Option CachedStore
  | .read _ => some self
  | op => self.step op

/-- An absence that a read recorded, not a commit. -/
def ReadAbsence (s l : CachedStore) (id : ObjectID) (u : SequenceNumber) : Prop :=
  s.inner.entry id u = some none ∧ l.inner.entry id u = none

/-- A commit of `o` agrees with the backing store on its key and is not below an
absence that a read recorded. -/
def FreshCommit (s l : CachedStore) (o : Object) : Prop :=
  (∀ o', s.store.getObjectByKey o.id o.version = some o' → o' = o) ∧
    ∀ u, s.ReadAbsence l o.id u → u ≤ o.version

/-- The condition on a child read, where `y` is the backing store's answer: it
is at least as new as the newest local version, unless that is a perfect hit;
and where the newest cached entry is an absence, it is not newer than a local
removal. -/
def ChildReadOk (s l : CachedStore) (child : ObjectID) (b : SequenceNumber) (y : Option Object) :
    Prop :=
  (∀ w o, l.inner.Newest child b w (some o) → w < b → ∃ o', y = some o' ∧ w ≤ o'.version) ∧
    ∀ u, s.inner.Newest child b u none → ∀ o', y = some o' →
      ∃ w, l.inner.Newest child b w none ∧ o'.version ≤ w

def HistoryOk (st : CachedStore × CachedStore) : Op → Prop
  | .read (.readChildObject parent child b) =>
    ∀ y, st.1.store.readChildObject parent child b = .ok y → st.1.ChildReadOk st.2 child b y
  | .read _ => True
  | .commitSingleObject o => st.1.FreshCommit st.2 o
  | .commitStore store effects =>
    (∀ id o, store.written.get? id = some o → st.1.FreshCommit st.2 o) ∧
      ∀ id w, (Op.commitStore store effects).Empties id w → st.1.store.getObjectByKey id w = none

/-- The cache `s` contains the local history `l`; what else it records comes
from the backing store, and no absence recorded by a read stands right above a
live local version. -/
structure Extends (s l : CachedStore) : Prop where
  keyed : s.inner.WellKeyed
  contains : ∀ id v x, l.inner.entry id v = some x → s.inner.entry id v = some x
  agrees : ∀ id v x, l.inner.entry id v = some x →
    ∀ o, s.store.getObjectByKey id v = some o → x = some o
  fetched : ∀ id v o, s.inner.entry id v = some (some o) → l.inner.entry id v = none →
    s.store.getObjectByKey id v = some o
  absence : ∀ id u, s.ReadAbsence l id u → ∀ w o, ¬l.inner.Newest id u w (some o)

variable {s l : CachedStore}

theorem extends_new (B : BackingStore) : Extends (new B) (new B) := by
  refine ⟨CachedSnapshot.wellKeyed_default, ?_, ?_, ?_, ?_⟩ <;>
    simp [new, CachedSnapshot.entry_default, ReadAbsence]

theorem Extends.newest_le (h : Extends s l) (id : ObjectID) (b u w : SequenceNumber)
    (x y : Option Object) (hs : s.inner.Newest id b u x) (hl : l.inner.Newest id b w y) :
    w ≤ u := by
  by_contra hlt
  have he := h.contains id w y hl.2.1
  rw [hs.2.2 w hl.1 (not_le.mp hlt)] at he
  simp at he

theorem newest_shrink (snap : CachedSnapshot) (id : ObjectID) (b u w : SequenceNumber)
    (x : Option Object) (h : snap.Newest id b w x) (hw : w ≤ u) (hu : u ≤ b) :
    snap.Newest id u w x :=
  ⟨hw, h.2.1, fun v hv hlt => h.2.2 v (hv.trans hu) hlt⟩

theorem Extends.absent_local (h : Extends s l) (id : ObjectID) (b u w : SequenceNumber) (o : Object)
    (hs : s.inner.Newest id b u none) (hl : l.inner.Newest id b w (some o)) : False := by
  have hwu := h.newest_le id b u w none (some o) hs hl
  cases hlu : l.inner.entry id u with
  | none =>
    exact h.absence id u ⟨hs.2.1, hlu⟩ w o (newest_shrink l.inner id b u w _ hl hwu hs.1)
  | some x =>
    have hx := h.contains id u x hlu
    rw [hs.2.1] at hx
    obtain rfl := (Option.some.inj hx).symm
    rcases hwu.lt_or_eq with hlt | rfl
    · rw [hl.2.2 u hs.1 hlt] at hlu
      simp at hlu
    · rw [hl.2.1] at hlu
      simp at hlu

/-! ### A child read in such a state -/

theorem Extends.merged_hit (hB : s.store.Consistent) (h : Extends s l) (parent child : ObjectID)
    (b : SequenceNumber) (y : Option Object)
    (hy : s.store.readChildObject parent child b = .ok y) (o : Object)
    (he : s.inner.entry child b = some (some o)) : mergedRead l.inner y child b = some o := by
  cases hlb : l.inner.entry child b with
  | some x =>
    -- the hit is a local version
    have hx := h.contains child b x hlb
    rw [he, Option.some.injEq] at hx
    subst hx
    have hn : l.inner.Newest child b b (some o) :=
      ⟨le_rfl, hlb, fun w hw hlt => absurd hlt (not_lt.mpr hw)⟩
    refine mergedRead_local hn fun o' ho' => ?_
    subst ho'
    exact (hB.child parent child b o' hy).2.1
  | none =>
    -- the hit is the backing store's version at the bound
    have hkey := h.fetched child b o he hlb
    have hyo : y = some o := by
      cases y with
      | none =>
        rw [hB.child_none parent child b hy b le_rfl] at hkey
        simp at hkey
      | some o' =>
        obtain ⟨hk', hle, hmax⟩ := hB.child parent child b o' hy
        have heq : o'.version = b := le_antisymm hle (hmax b o le_rfl hkey)
        rw [heq, hkey] at hk'
        exact hk'.symm
    subst hyo
    refine mergedRead_backing fun w x hw => ⟨o, rfl, ?_⟩
    rw [(h.keyed child b o he).2]
    refine lt_of_le_of_ne hw.1 ?_
    rintro rfl
    rw [hw.2.1] at hlb
    simp at hlb

theorem Extends.merged_absent (h : Extends s l) (child : ObjectID) (b u : SequenceNumber)
    (y : Option Object) (hu : s.inner.Newest child b u none)
    (habs : ∀ o', y = some o' → ∃ w, l.inner.Newest child b w none ∧ o'.version ≤ w) :
    mergedRead l.inner y child b = none := by
  rcases CachedSnapshot.newest_or_unbound l.inner child b with hno | ⟨w, x, hw⟩
  · have hy : y = none := by
      cases y with
      | none => rfl
      | some o' =>
        obtain ⟨w, hw, _⟩ := habs o' rfl
        exact absurd hw (CachedSnapshot.not_newest_of_unbound hno w none)
    rw [hy]
    exact mergedRead_backing fun w x hw =>
      absurd hw (CachedSnapshot.not_newest_of_unbound hno w x)
  · cases x with
    | some o => exact (h.absent_local child b u w o hu hw).elim
    | none =>
      refine mergedRead_local hw fun o' ho' => ?_
      obtain ⟨w', hw', hle⟩ := habs o' ho'
      obtain ⟨rfl, _⟩ := CachedSnapshot.newest_unique l.inner child b w w' _ _ hw hw'
      exact hle

theorem Extends.above_removal (hB : s.store.Consistent) (h : Extends s l) (parent child : ObjectID)
    (b w : SequenceNumber) (y : Option Object)
    (hy : s.store.readChildObject parent child b = .ok y)
    (hl : s.lookup (.readChildObject parent child b) = .miss) (hw : l.inner.Newest child b w none) :
    ∃ o', y = some o' ∧ w < o'.version := by
  have hsw := h.contains child w none hw.2.1
  obtain ⟨u, z, hu⟩ : ∃ u z, s.inner.Newest child b u z := by
    rcases CachedSnapshot.newest_or_unbound s.inner child b with hub | hu
    · rw [hub w hw.1] at hsw
      simp at hsw
    · exact hu
  have hwu := h.newest_le child b u w z none hu hw
  cases z with
  | none =>
    rw [(lookup_child_absent s parent child b).mpr ⟨u, hu⟩] at hl
    simp at hl
  | some o =>
    have hlt : w < u := by
      refine lt_of_le_of_ne hwu ?_
      rintro rfl
      rw [hu.2.1] at hsw
      simp at hsw
    have hkey := h.fetched child u o hu.2.1 (hw.2.2 u hu.1 hlt)
    cases y with
    | none =>
      rw [hB.child_none parent child b hy u hu.1] at hkey
      simp at hkey
    | some o' =>
      have hle := (hB.child parent child b o' hy).2.2 u o hu.1 hkey
      exact ⟨o', rfl, hlt.trans_le hle⟩

theorem Extends.merged_miss (hB : s.store.Consistent) (h : Extends s l) (parent child : ObjectID)
    (b : SequenceNumber) (y : Option Object)
    (hy : s.store.readChildObject parent child b = .ok y)
    (hl : s.lookup (.readChildObject parent child b) = .miss)
    (hlive : ∀ w o, l.inner.Newest child b w (some o) → w < b →
      ∃ o', y = some o' ∧ w ≤ o'.version) : mergedRead l.inner y child b = y := by
  rcases CachedSnapshot.newest_or_unbound l.inner child b with hno | ⟨w, x, hw⟩
  · exact mergedRead_backing fun w x hw =>
      absurd hw (CachedSnapshot.not_newest_of_unbound hno w x)
  · have hnewer : ∀ o', y = some o' → w < o'.version → mergedRead l.inner y child b = y := by
      intro o' ho' hlt
      refine mergedRead_backing fun w' x' hw' => ⟨o', ho', ?_⟩
      rw [(CachedSnapshot.newest_unique l.inner child b w' w _ _ hw' hw).1]
      exact hlt
    cases x with
    | some o =>
      have hsw := h.contains child w (some o) hw.2.1
      have hwb : w < b := by
        refine lt_of_le_of_ne hw.1 ?_
        rintro rfl
        rw [entry_of_child_miss s h.keyed parent child w hl] at hsw
        simp at hsw
      obtain ⟨o', rfl, hle⟩ := hlive w o hw hwb
      rcases hle.lt_or_eq with hlt | heq
      · exact hnewer o' rfl hlt
      · -- the same version on both sides is the same object
        have hkey := (hB.child parent child b o' hy).1
        rw [← heq] at hkey
        have hsame := h.agrees child w (some o) hw.2.1 o' hkey
        rw [hsame] at hw
        exact mergedRead_local hw fun o'' ho'' => (Option.some.inj ho'' ▸ heq).ge
    | none =>
      obtain ⟨o', ho', hlt⟩ := h.above_removal hB parent child b w y hy hl hw
      exact hnewer o' ho' hlt

theorem Extends.readChild (hB : s.store.Consistent) (h : Extends s l) (parent child : ObjectID)
    (b : SequenceNumber) (y : Option Object)
    (hy : s.store.readChildObject parent child b = .ok y) (hok : s.ChildReadOk l child b y) :
    (s.readChildObject parent child b).1 = .ok (mergedRead l.inner y child b) := by
  obtain ⟨hlive, habs⟩ := hok
  rw [readChildObject_fst]
  cases hl : s.lookup (.readChildObject parent child b) with
  | hit o =>
    have he := (lookup_child_hit s h.keyed parent child b o).mp hl
    rw [h.merged_hit hB parent child b y hy o he]
  | absent =>
    obtain ⟨u, hu⟩ := (lookup_child_absent s parent child b).mp hl
    rw [h.merged_absent child b u y hu (habs u hu)]
  | miss =>
    simp only [hy, Except.ok.injEq]
    exact (h.merged_miss hB parent child b y hy hl hlive).symm

/-! ### Preservation -/

theorem Extends.read (hB : s.store.Consistent) (h : Extends s l) (r : Read)
    (hok : HistoryOk (s, l) (.read r)) : Extends (s.read r).2 l := by
  have hstore := store_read s r
  have hent := entry_read s h.keyed r
  refine ⟨wellKeyed_read s r h.keyed, ?_, ?_, ?_, ?_⟩
  · intro id v x hl
    have he := h.contains id v x hl
    rcases hent id v with hsame | ⟨_, o, hf, rfl, rfl, hnew⟩ | ⟨_, _, _, _, hnone, _⟩
    · exact hsame.trans he
    · rw [hnew, h.agrees _ _ x hl o (hB.fetched r o hf).2]
    · rw [he] at hnone
      simp at hnone
  · intro id v x hl o ho
    rw [hstore] at ho
    exact h.agrees id v x hl o ho
  · intro id v o he hl
    rw [hstore]
    rcases hent id v with hsame | ⟨_, o', hf, rfl, rfl, hnew⟩ | ⟨_, _, _, _, _, hnew⟩
    · exact h.fetched id v o (hsame ▸ he) hl
    · rw [hnew] at he
      obtain rfl := Option.some.inj (Option.some.inj he)
      exact (hB.fetched r o' hf).2
    · rw [hnew] at he
      simp at he
  · rintro id u ⟨hu, hlu⟩ w o hn
    rcases hent id u with hsame | ⟨_, o', _, _, _, hnew⟩ | ⟨_, parent, rfl, hb, hnone, _⟩
    · exact h.absence id u ⟨hsame ▸ hu, hlu⟩ w o hn
    · rw [hnew] at hu
      simp at hu
    · -- the read found nothing although a live local version is below its bound
      rcases hn.1.lt_or_eq with hlt | rfl
      · obtain ⟨o', ho', _⟩ := (hok none hb).1 w o hn hlt
        simp at ho'
      · rw [h.contains id w (some o) hn.2.1] at hnone
        simp at hnone

theorem Extends.commit (h : Extends s l) (op : Op) (hc : ∀ r, op ≠ .read r) (s' l' : CachedStore)
    (hs : s.step op = some s') (hl : l.step op = some l') (hok : HistoryOk (s, l) op) :
    Extends s' l' := by
  have hstore := store_step s s' op hs
  have hes := entry_commit s s' op hc hs
  have hel := entry_commit l l' op hc hl
  have hfresh : ∀ o, op.Writes o → s.FreshCommit l o := by
    intro o hw
    cases op with
    | read r => exact absurd rfl (hc r)
    | commitSingleObject o' => exact hw ▸ hok
    | commitStore store effects => exact hok.1 o.id o hw
  have hempty : ∀ id w, op.Empties id w → s.store.getObjectByKey id w = none := by
    intro id w he
    cases op with
    | read r => exact absurd rfl (hc r)
    | commitSingleObject o' => exact he.elim
    | commitStore store effects => exact hok.2 id w he
  refine ⟨wellKeyed_step s s' op h.keyed hs, ?_, ?_, ?_, ?_⟩
  · intro id v x hx
    rw [hel] at hx
    rw [hes]
    cases hf : op.effect id v with
    | none =>
      rw [hf] at hx
      exact h.contains id v x hx
    | some z =>
      rw [hf] at hx
      exact hx
  · intro id v x hx o ho
    rw [hel] at hx
    rw [hstore] at ho
    cases hf : op.effect id v with
    | none =>
      rw [hf] at hx
      exact h.agrees id v x hx o ho
    | some z =>
      rw [hf] at hx
      obtain rfl := Option.some.inj hx
      cases z with
      | none =>
        rw [hempty id v ((effect_none s s' op hs id v).mp hf)] at ho
        simp at ho
      | some o' =>
        obtain ⟨hw, rfl, rfl⟩ := effect_some op id v o' hf
        rw [(hfresh o' hw).1 o ho]
  · intro id v o he hl0
    rw [hel, Option.or_eq_none_iff] at hl0
    rw [hes, hl0.1, Option.none_or] at he
    rw [hstore]
    exact h.fetched id v o he hl0.2
  · rintro id u ⟨hu, hlu⟩ w o hn
    rw [hel, Option.or_eq_none_iff] at hlu
    rw [hes, hlu.1, Option.none_or] at hu
    have hab : s.ReadAbsence l id u := ⟨hu, hlu.2⟩
    have hw := hn.2.1
    rw [hel] at hw
    cases hf : op.effect id w with
    | some z =>
      rw [hf] at hw
      obtain rfl := Option.some.inj hw
      obtain ⟨hwr, rfl, rfl⟩ := effect_some op id w o hf
      -- the commit lies at or above the absence, which it did not overwrite
      have heq : o.version = u := le_antisymm hn.1 ((hfresh o hwr).2 u hab)
      rw [heq, hlu.1] at hf
      simp at hf
    | none =>
      rw [hf] at hw
      refine h.absence id u hab w o ⟨hn.1, hw, fun w' hw' hlt => ?_⟩
      have hnone := hn.2.2 w' hw' hlt
      rw [hel, Option.or_eq_none_iff] at hnone
      exact hnone.2

theorem Extends.step (hB : s.store.Consistent) (h : Extends s l) (op : Op) (s' l' : CachedStore)
    (hs : s.step op = some s') (hl : l.localStep op = some l') (hok : HistoryOk (s, l) op) :
    Extends s' l' := by
  cases op with
  | read r =>
    obtain rfl := Option.some.inj hs
    obtain rfl := Option.some.inj hl
    exact h.read hB r hok
  | commitSingleObject o => exact h.commit _ (by simp) s' l' hs hl hok
  | commitStore store effects => exact h.commit _ (by simp) s' l' hs hl hok

/-- Along every history that meets `HistoryOk`: a child read that meets it is
the bounded read of the merged history, and a live local version stays
reachable, by key and below every bound at which it is the newest local one. -/
theorem child_reads_merge (B : BackingStore) (hB : B.Consistent) (hok : B.ChildReadsSucceed)
    (ops : List Op) (s l : CachedStore)
    (hg : Along (stepBoth step localStep) HistoryOk (new B, new B) ops)
    (hrun : run (stepBoth step localStep) (new B, new B) ops = some (s, l)) :
    (∀ parent child b, HistoryOk (s, l) (.read (.readChildObject parent child b)) →
      ∃ y, B.readChildObject parent child b = .ok y ∧
        (s.readChildObject parent child b).1 = .ok (mergedRead l.inner y child b)) ∧
    (∀ id b v o, l.inner.Newest id b v (some o) →
      (s.getObjectByKey id v).1 = some o ∧
        ∃ u o', v ≤ u ∧ s.inner.Newest id b u (some o')) := by
  have hinv : s.store = B ∧ Extends s l := by
    refine run_invariant (stepBoth step localStep) HistoryOk
      (fun st => st.1.store = B ∧ Extends st.1 st.2) ?_ (new B, new B) (s, l) ops
      ⟨rfl, extends_new B⟩ hg hrun
    rintro ⟨s, l⟩ op ⟨s', l'⟩ ⟨hst, hex⟩ hop hn
    obtain ⟨hs, hl⟩ := (stepBoth_eq_some step localStep (s, l) (s', l') op).mp hn
    exact ⟨(store_step s s' op hs).trans hst, hex.step (hst ▸ hB) op s' l' hs hl hop⟩
  obtain ⟨rfl, hex⟩ := hinv
  constructor
  · intro parent child b hr
    obtain ⟨y, hy⟩ := hok parent child b
    exact ⟨y, hy, hex.readChild hB parent child b y hy (hr y hy)⟩
  · intro id b v o hl
    have he := hex.contains id v (some o) hl.2.1
    refine ⟨getObjectByKey_of_entry s id v o he, ?_⟩
    rcases CachedSnapshot.newest_or_unbound s.inner id b with hub | ⟨u, x, hu⟩
    · rw [hub v hl.1] at he
      simp at he
    · have hle := hex.newest_le id b u v x (some o) hu hl
      cases x with
      | none => exact (hex.absent_local id b u v o hu hl).elim
      | some o' => exact ⟨u, o', hle, hu⟩

theorem child_read_merges_commit :
    ∃ s l, run (stepBoth step localStep) (new twoVersions, new twoVersions)
        [.commitSingleObject (sampleObject 5 [5])] = some (s, l) ∧
      ∃ y, twoVersions.readChildObject (ObjectID.ofByte 1) (ObjectID.ofByte 7) 5 = .ok y ∧
        (s.readChildObject (ObjectID.ofByte 1) (ObjectID.ofByte 7) 5).1 =
          .ok (mergedRead l.inner y (ObjectID.ofByte 7) 5) := by
  refine ⟨_, _, rfl, (child_reads_merge twoVersions twoVersions_consistent (fun _ _ _ => ⟨_, rfl⟩)
    [.commitSingleObject (sampleObject 5 [5])] _ _ ⟨?_, fun _ _ => trivial⟩ rfl).1
    (ObjectID.ofByte 1) (ObjectID.ofByte 7) 5 ?_⟩
  · have hfree : twoVersions.getObjectByKey (ObjectID.ofByte 7) 5 = none := by decide
    refine ⟨fun o' ho' => ?_, ?_⟩
    · have ho' : twoVersions.getObjectByKey (ObjectID.ofByte 7) 5 = some o' := ho'
      rw [hfree] at ho'
      simp at ho'
    · rintro u ⟨hu, _⟩
      simp [new, CachedSnapshot.entry_default] at hu
  · intro y _
    constructor
    · intro w o hn hlt
      have hnone := hn.2.2 5 le_rfl hlt
      simp [commitSingleObject, CachedSnapshot.entry_cacheObjectOnly, sampleObject] at hnone
    · intro u hn
      have hu := hn.2.1
      simp only [commitSingleObject, new, CachedSnapshot.entry_cacheObjectOnly,
        CachedSnapshot.entry_default] at hu
      split_ifs at hu
      simp at hu

/-- Version 3 is committed and the backing store has nothing: a child read with
bound 9 finds nothing, and afterwards `get_object` finds nothing either. -/
theorem local_version_hidden :
    EmptyStore.readChildObject (ObjectID.ofByte 1) (ObjectID.ofByte 7) 9 = .ok none ∧
    ∃ s l, run (stepBoth step localStep) (new EmptyStore, new EmptyStore)
        [.commitSingleObject (sampleObject 3 [3])] = some (s, l) ∧
      mergedRead l.inner none (ObjectID.ofByte 7) 9 = some (sampleObject 3 [3]) ∧
      (s.readChildObject (ObjectID.ofByte 1) (ObjectID.ofByte 7) 9).1 = .ok none ∧
      (s.getObject (ObjectID.ofByte 7)).1 = some (sampleObject 3 [3]) ∧
      ((s.readChildObject (ObjectID.ofByte 1) (ObjectID.ofByte 7) 9).2.getObject
        (ObjectID.ofByte 7)).1 = none := by
  refine ⟨rfl, _, _, rfl, by decide, by rfl, by decide, by decide⟩

end CachedStore

end Movy.Store
