import Movy.Store.Commit

/-!
# Reading an object by its id

What `get_object` answers, how reading changes no later answer, and what the
commit of a single object changes.
-/

namespace Movy.Store

open CachedSnapshot

namespace CachedStore

/-- The answer of `get_object`. -/
def byId (self : CachedStore) (id : ObjectID) : Option Object := (self.getObject id).1

def BaseKeyed (self : CachedStore) : Prop := ∀ id o, self.store.getObject id = some o → o.id = id

/-- Nothing is recorded as absent under `id`. -/
def Standing (self : CachedStore) (id : ObjectID) : Prop := ∀ v, self.inner.entry id v ≠ some none

theorem byId_of_newest (s : CachedStore) (id : ObjectID) (u : SequenceNumber) (x : Option Object)
    (h : s.inner.Newest id u64Max u x) : s.byId id = x.or (s.store.getObject id) :=
  getObject_of_newest s id u x h

theorem byId_of_unbound (s : CachedStore) (id : ObjectID)
    (h : ∀ u, s.inner.entry id u = none) : s.byId id = s.store.getObject id := by
  have hc : s.inner.objectIdCached id = none := by
    cases hr : s.inner.objectIdCached id with
    | none => rfl
    | some o =>
      obtain ⟨u, hu⟩ := (objectIdCached_eq_some s.inner id o).mp hr
      have he := hu.2.1
      rw [h u] at he
      cases he
  simp only [byId, getObject, hc]
  cases s.store.getObject id <;> rfl

theorem byId_congr (s t : CachedStore) (id : ObjectID)
    (he : ∀ v, s.inner.entry id v = t.inner.entry id v)
    (hb : s.store.getObject id = t.store.getObject id) : s.byId id = t.byId id := by
  rcases newest_or_unbound s.inner id u64Max with hn | ⟨u, x, hn⟩
  · have hs : ∀ u, s.inner.entry id u = none := fun u => hn u (le_u64Max u)
    rw [byId_of_unbound s id hs, byId_of_unbound t id fun u => he u ▸ hs u, hb]
  · have ht : t.inner.Newest id u64Max u x :=
      ⟨hn.1, he u ▸ hn.2.1, fun w hw hlt => he w ▸ hn.2.2 w hw hlt⟩
    rw [byId_of_newest s id u x hn, byId_of_newest t id u x ht, hb]

theorem byId_commitSingleObject_of_ne (s : CachedStore) (o : Object) (id : ObjectID)
    (h : id ≠ o.id) : (s.commitSingleObject o).byId id = s.byId id := by
  refine byId_congr _ s id (fun v => ?_) rfl
  rw [commitSingleObject, entry_cacheObjectOnly, if_neg fun hc => h hc.1]

/-- An object that is read already, or whose id is not known at all, is read after
it is committed. -/
theorem byId_commitSingleObject_self (s : CachedStore) (o : Object) (hw : s.inner.WellKeyed)
    (hst : s.Standing o.id) (h : s.byId o.id = none ∨ s.byId o.id = some o) :
    (s.commitSingleObject o).byId o.id = some o := by
  have hent : ∀ w, (s.commitSingleObject o).inner.entry o.id w =
      if w = o.version then some (some o) else s.inner.entry o.id w := by
    intro w
    rw [commitSingleObject, entry_cacheObjectOnly]
    simp only [true_and]
  have hall : ∀ w, o.version < w → s.inner.entry o.id w = none := by
    intro w hlt
    rcases newest_or_unbound s.inner o.id u64Max with hn | ⟨u, x, hn⟩
    · exact hn w (le_u64Max w)
    · cases x with
      | none => exact absurd hn.2.1 (hst u)
      | some p =>
        have hp := byId_of_newest s o.id u (some p) hn
        rw [Option.some_or] at hp
        rcases h with h | h
        · rw [h] at hp
          cases hp
        · rw [h] at hp
          obtain rfl := Option.some.inj hp
          rw [(hw o.id u o hn.2.1).2] at hlt
          exact hn.2.2 w (le_u64Max w) hlt
  have hnew : (s.commitSingleObject o).inner.Newest o.id u64Max o.version (some o) := by
    refine ⟨le_u64Max _, by rw [hent, if_pos rfl], fun w _ hlt => ?_⟩
    rw [hent, if_neg (ne_of_gt hlt)]
    exact hall w hlt
  rw [byId_of_newest _ _ _ _ hnew, Option.some_or]

/-- A read leaves every later read as it was. -/
theorem byId_getObject (s : CachedStore) (hb : s.BaseKeyed) (id j : ObjectID) :
    ((s.getObject id).2).byId j = s.byId j := by
  cases hc : s.inner.objectIdCached id with
  | some hit => simp only [getObject, hc]
  | none =>
    cases hf : s.store.getObject id with
    | none => simp only [getObject, hc, hf]
    | some hit =>
      have hid := hb id hit hf
      have hs : (s.getObject id).2 = s.commitSingleObject hit := by
        simp only [getObject, hc, hf, commitSingleObject]
      rw [hs]
      by_cases hj : j = hit.id
      · subst hj
        have hold : s.byId hit.id = some hit := by
          rw [byId, hid]
          simp only [getObject, hc, hf]
        rw [hold]
        -- the newest entry, if any, is an absence; the new one is below or above it
        have hent : ∀ w, (s.commitSingleObject hit).inner.entry hit.id w =
            if w = hit.version then some (some hit) else s.inner.entry hit.id w := by
          intro w
          rw [commitSingleObject, entry_cacheObjectOnly]
          simp only [true_and]
        have hcached : s.inner.objectIdCached hit.id = none := hid ▸ hc
        rcases newest_or_unbound s.inner hit.id u64Max with hn | ⟨u, x, hn⟩
        · have hnew : (s.commitSingleObject hit).inner.Newest hit.id u64Max hit.version
              (some hit) := by
            refine ⟨le_u64Max _, by rw [hent, if_pos rfl], fun w _ hlt => ?_⟩
            rw [hent, if_neg (ne_of_gt hlt)]
            exact hn w (le_u64Max w)
          rw [byId_of_newest _ _ _ _ hnew, Option.some_or]
        · cases x with
          | some p =>
            rw [(objectIdCached_eq_some s.inner hit.id p).mpr ⟨u, hn⟩] at hcached
            cases hcached
          | none =>
            have hbase : (s.commitSingleObject hit).store.getObject hit.id = some hit :=
              hid.symm ▸ hf
            rcases lt_or_ge hit.version u with hlt | hle
            · have hnew : (s.commitSingleObject hit).inner.Newest hit.id u64Max u none := by
                refine ⟨hn.1, by rw [hent, if_neg (ne_of_gt hlt), hn.2.1], fun w hw hw' => ?_⟩
                rw [hent, if_neg (ne_of_gt (hlt.trans hw'))]
                exact hn.2.2 w hw hw'
              rw [byId_of_newest _ _ _ _ hnew, Option.none_or, hbase]
            · have hnew : (s.commitSingleObject hit).inner.Newest hit.id u64Max hit.version
                  (some hit) := by
                refine ⟨le_u64Max _, by rw [hent, if_pos rfl], fun w hw hlt => ?_⟩
                rw [hent, if_neg (ne_of_gt hlt)]
                exact hn.2.2 w hw (lt_of_le_of_lt hle hlt)
              rw [byId_of_newest _ _ _ _ hnew, Option.some_or]
      · exact byId_commitSingleObject_of_ne s hit j hj

theorem standing_getObject (s : CachedStore) (id j : ObjectID) (h : s.Standing j) :
    ((s.getObject id).2).Standing j := by
  intro v
  simp only [getObject]
  split
  · exact h v
  · split
    · exact h v
    · rw [entry_cacheObjectOnly]
      split_ifs
      · simp
      · exact h v

theorem standing_commitSingleObject (s : CachedStore) (o : Object) (j : ObjectID)
    (h : s.Standing j) : (s.commitSingleObject o).Standing j := by
  intro v
  rw [commitSingleObject, entry_cacheObjectOnly]
  split_ifs
  · simp
  · exact h v

theorem wellKeyed_getObject (s : CachedStore) (id : ObjectID) (h : s.inner.WellKeyed) :
    ((s.getObject id).2).inner.WellKeyed := by
  simp only [getObject]
  split
  · exact h
  · split
    · exact h
    · exact wellKeyed_cacheObjectOnly _ _ h

theorem store_getObject (s : CachedStore) (id : ObjectID) :
    ((s.getObject id).2).store = s.store := by
  simp only [getObject]
  split
  · rfl
  · split <;> rfl

end CachedStore

end Movy.Store
