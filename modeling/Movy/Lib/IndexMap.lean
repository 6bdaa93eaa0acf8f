import Mathlib.Data.List.Basic
import Mathlib.Data.List.Nodup

/-!
# Insertion-ordered maps

A map that remembers the order in which its keys were first inserted, so that
an entry can also be addressed by its position. Inserting under a known key
replaces the value and keeps the position.
-/

namespace Movy

variable {κ ν : Type} [DecidableEq κ]

def pushNew (keys : List κ) (k : κ) : List κ := if k ∈ keys then keys else keys ++ [k]

/-- The distinct members of a list in the order of their first occurrence. -/
def firstOccurrences (l : List κ) : List κ := l.foldl pushNew []

theorem pushNew_nodup (keys : List κ) (k : κ) (h : keys.Nodup) : (pushNew keys k).Nodup := by
  unfold pushNew
  split_ifs with hk
  · exact h
  · rw [List.nodup_append]
    refine ⟨h, List.nodup_singleton k, ?_⟩
    intro a ha b hb hab
    rw [List.mem_singleton.mp hb] at hab
    exact hk (hab ▸ ha)

theorem mem_pushNew (keys : List κ) (k j : κ) : j ∈ pushNew keys k ↔ j ∈ keys ∨ j = k := by
  unfold pushNew
  split_ifs with hk
  · constructor
    · exact .inl
    · intro h
      rcases h with h | rfl
      · exact h
      · exact hk
  · simp

theorem mem_firstOccurrences (l : List κ) (k : κ) : k ∈ firstOccurrences l ↔ k ∈ l := by
  have hall : ∀ keys, k ∈ l.foldl pushNew keys ↔ k ∈ keys ∨ k ∈ l := by
    induction l with
    | nil => simp
    | cons j l ih =>
      intro keys
      rw [List.foldl_cons, ih, mem_pushNew, List.mem_cons, or_assoc]
  simpa [firstOccurrences] using hall []

theorem firstOccurrences_nodup (l : List κ) : (firstOccurrences l).Nodup := by
  have hall : ∀ keys : List κ, keys.Nodup → (l.foldl pushNew keys).Nodup := by
    induction l with
    | nil => exact fun keys h => h
    | cons j l ih => exact fun keys h => ih _ (pushNew_nodup keys j h)
  exact hall [] List.nodup_nil

def rawSet (k : κ) (v : ν) : List (κ × ν) → List (κ × ν)
  | [] => [(k, v)]
  | e :: es => if e.1 = k then (k, v) :: es else e :: rawSet k v es

def rawGet (k : κ) : List (κ × ν) → Option ν
  | [] => none
  | e :: es => if e.1 = k then some e.2 else rawGet k es

theorem keys_rawSet (k : κ) (v : ν) (l : List (κ × ν)) :
    (rawSet k v l).map Prod.fst = pushNew (l.map Prod.fst) k := by
  induction l with
  | nil => rfl
  | cons e es ih =>
    by_cases he : e.1 = k
    · simp [rawSet, he, pushNew]
    · simp only [rawSet, he, if_false, List.map_cons, ih, pushNew, List.mem_cons,
        Ne.symm he, false_or]
      split_ifs <;> rfl

theorem rawGet_rawSet (k j : κ) (v : ν) (l : List (κ × ν)) :
    rawGet j (rawSet k v l) = if j = k then some v else rawGet j l := by
  induction l with
  | nil =>
    by_cases hj : j = k
    · simp [rawSet, rawGet, hj]
    · simp [rawSet, rawGet, hj, Ne.symm hj]
  | cons e es ih =>
    by_cases he : e.1 = k
    · by_cases hj : j = k
      · simp [rawSet, he, rawGet, hj]
      · simp [rawSet, he, rawGet, hj, Ne.symm hj]
    · by_cases hj : e.1 = j
      · have hjk : j ≠ k := fun h => he (hj.trans h)
        simp [rawSet, rawGet, hj, hjk]
      · simp [rawSet, he, rawGet, hj, ih]

theorem rawGet_of_getElem? (l : List (κ × ν)) (hn : (l.map Prod.fst).Nodup) (i : ℕ) (k : κ)
    (v : ν) (h : l[i]? = some (k, v)) : rawGet k l = some v := by
  induction l generalizing i with
  | nil => simp at h
  | cons e es ih =>
    obtain ⟨hne, hes⟩ := List.nodup_cons.mp hn
    cases i with
    | zero =>
      simp only [List.getElem?_cons_zero, Option.some.injEq] at h
      simp [rawGet, h]
    | succ i =>
      simp only [List.getElem?_cons_succ] at h
      have hmem : k ∈ es.map Prod.fst := List.mem_map.mpr ⟨(k, v), List.mem_of_getElem? h, rfl⟩
      have hk : e.1 ≠ k := fun heq => hne (heq ▸ hmem)
      simp [rawGet, hk, ih hes i h]

theorem mem_of_rawGet (l : List (κ × ν)) (k : κ) (v : ν) (h : rawGet k l = some v) :
    (k, v) ∈ l := by
  induction l with
  | nil => cases h
  | cons e es ih =>
    by_cases he : e.1 = k
    · simp only [rawGet, he, if_true, Option.some.injEq] at h
      rw [← h, ← he]
      exact List.mem_cons_self ..
    · simp only [rawGet, he, if_false] at h
      exact List.mem_cons_of_mem _ (ih h)

theorem rawGet_eq_none (l : List (κ × ν)) (k : κ) (h : k ∉ l.map Prod.fst) :
    rawGet k l = none := by
  induction l with
  | nil => rfl
  | cons e es ih =>
    rw [List.map_cons, List.mem_cons, not_or] at h
    simp only [rawGet, Ne.symm h.1, if_false, ih h.2]

theorem rawGet_filter (l : List (κ × ν)) (hn : (l.map Prod.fst).Nodup) (p : κ × ν → Bool) (k : κ) :
    rawGet k (l.filter p) = (rawGet k l).filter fun v => p (k, v) := by
  induction l with
  | nil => rfl
  | cons e es ih =>
    obtain ⟨hne, hes⟩ := List.nodup_cons.mp hn
    by_cases he : e.1 = k
    · have hnone : rawGet k (es.filter p) = none := by
        apply rawGet_eq_none
        intro hmem
        obtain ⟨e', he', rfl⟩ := List.mem_map.mp hmem
        exact hne (he ▸ List.mem_map_of_mem (List.mem_of_mem_filter he'))
      subst he
      cases hp : p e with
      | true => simp [hp, rawGet, Option.filter]
      | false => simp [hp, rawGet, Option.filter, hnone]
    · cases hp : p e <;> simp [hp, rawGet, he, ih hes]

theorem rawGet_mapValues (l : List (κ × ν)) (f : κ → ν → ν) (k : κ) :
    rawGet k (l.map fun e => (e.1, f e.1 e.2)) = (rawGet k l).map (f k) := by
  induction l with
  | nil => rfl
  | cons e es ih =>
    by_cases he : e.1 = k
    · simp [rawGet, he]
    · simp [rawGet, he, ih]

/-- An insertion-ordered map with distinct keys. -/
structure IndexMap (κ ν : Type) [DecidableEq κ] where
  entries : List (κ × ν)
  nodup : (entries.map Prod.fst).Nodup

namespace IndexMap

def empty : IndexMap κ ν := ⟨[], List.nodup_nil⟩

def keys (m : IndexMap κ ν) : List κ := m.entries.map Prod.fst

def values (m : IndexMap κ ν) : List ν := m.entries.map Prod.snd

def get? (m : IndexMap κ ν) (k : κ) : Option ν := rawGet k m.entries

def insert (m : IndexMap κ ν) (k : κ) (v : ν) : IndexMap κ ν :=
  ⟨rawSet k v m.entries, by
    rw [keys_rawSet]
    exact pushNew_nodup _ k m.nodup⟩

def filter (m : IndexMap κ ν) (p : κ × ν → Bool) : IndexMap κ ν :=
  ⟨m.entries.filter p, m.nodup.sublist (List.filter_sublist.map Prod.fst)⟩

def erase (m : IndexMap κ ν) (k : κ) : IndexMap κ ν := m.filter fun e => decide (e.1 ≠ k)

def mapValues (m : IndexMap κ ν) (f : κ → ν → ν) : IndexMap κ ν :=
  ⟨m.entries.map fun e => (e.1, f e.1 e.2), by
    rw [List.map_map]
    exact m.nodup⟩

/-- The position that `insert` gives to the key: its old one, or the end. -/
def insertIndex (m : IndexMap κ ν) (k : κ) : ℕ := m.keys.idxOf k

theorem keys_insert (m : IndexMap κ ν) (k : κ) (v : ν) :
    (m.insert k v).keys = pushNew m.keys k := keys_rawSet k v m.entries

theorem get?_insert (m : IndexMap κ ν) (k j : κ) (v : ν) :
    (m.insert k v).get? j = if j = k then some v else m.get? j := rawGet_rawSet k j v m.entries

theorem get?_filter (m : IndexMap κ ν) (p : κ × ν → Bool) (k : κ) :
    (m.filter p).get? k = (m.get? k).filter fun v => p (k, v) :=
  rawGet_filter m.entries m.nodup p k

theorem get?_erase (m : IndexMap κ ν) (k j : κ) :
    (m.erase k).get? j = if j = k then none else m.get? j := by
  rw [erase, get?_filter]
  split_ifs with h
  · cases m.get? j <;> simp [Option.filter, h]
  · cases m.get? j <;> simp [Option.filter, h]

theorem get?_mapValues (m : IndexMap κ ν) (f : κ → ν → ν) (k : κ) :
    (m.mapValues f).get? k = (m.get? k).map (f k) := rawGet_mapValues m.entries f k

theorem mem_entries_of_get? (m : IndexMap κ ν) (k : κ) (v : ν) (h : m.get? k = some v) :
    (k, v) ∈ m.entries := mem_of_rawGet m.entries k v h

theorem values_getElem? (m : IndexMap κ ν) (i : ℕ) (v : ν) (h : m.values[i]? = some v) :
    ∃ k, m.keys[i]? = some k ∧ m.get? k = some v := by
  simp only [values, List.getElem?_map, Option.map_eq_some_iff] at h
  obtain ⟨e, he, rfl⟩ := h
  refine ⟨e.1, by simp only [keys, List.getElem?_map, he, Option.map_some], ?_⟩
  exact rawGet_of_getElem? m.entries m.nodup i e.1 e.2 he

theorem values_of_key (m : IndexMap κ ν) (i : ℕ) (k : κ) (v : ν) (hk : m.keys[i]? = some k)
    (hv : m.get? k = some v) : m.values[i]? = some v := by
  simp only [keys, List.getElem?_map, Option.map_eq_some_iff] at hk
  obtain ⟨e, he, rfl⟩ := hk
  have hg := rawGet_of_getElem? m.entries m.nodup i e.1 e.2 he
  rw [get?, hg] at hv
  simp only [values, List.getElem?_map, he, Option.map_some, hv]

end IndexMap

end Movy
