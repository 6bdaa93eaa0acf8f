import Mathlib.Data.List.Lex
import Mathlib.Data.List.Sort
import Mathlib.Order.Basic

/-!
# Sorted association maps

A finite map kept as a strictly sorted list of entries. This is the reading
of an ordered container in which iteration order is observable: an in-memory
B-tree map, or a column family of an ordered key-value database.
-/

namespace Movy

variable {κ ν : Type} [LinearOrder κ]

/-! ### Raw entry lists -/

/-- Sorted insertion; an entry under the same key is replaced. -/
def rawInsert (k : κ) (v : ν) : List (κ × ν) → List (κ × ν)
  | [] => [(k, v)]
  | e :: es =>
    if k < e.1 then (k, v) :: e :: es
    else if k = e.1 then (k, v) :: es
    else e :: rawInsert k v es

def rawLookup (k : κ) : List (κ × ν) → Option ν
  | [] => none
  | e :: es => if k = e.1 then some e.2 else rawLookup k es

/-- The last entry among those of greatest key. -/
def maxByKey : List (κ × ν) → Option (κ × ν)
  | [] => none
  | e :: es => match maxByKey es with
    | none => some e
    | some e' => if e'.1 < e.1 then some e else some e'

theorem mem_rawInsert (k : κ) (v : ν) (l : List (κ × ν)) (e : κ × ν)
    (h : e ∈ rawInsert k v l) : e = (k, v) ∨ e ∈ l := by
  induction l with
  | nil =>
    simp only [rawInsert, List.mem_singleton] at h
    exact Or.inl h
  | cons a as ih =>
    simp only [rawInsert] at h
    split_ifs at h with h1 h2
    · exact List.mem_cons.mp h
    · rcases List.mem_cons.mp h with h | h
      · exact Or.inl h
      · exact Or.inr (List.mem_cons_of_mem _ h)
    · rcases List.mem_cons.mp h with h | h
      · exact Or.inr (h ▸ List.mem_cons_self ..)
      · rcases ih h with h | h
        · exact Or.inl h
        · exact Or.inr (List.mem_cons_of_mem _ h)

theorem rawInsert_sorted (k : κ) (v : ν) (l : List (κ × ν))
    (h : l.Pairwise fun a b => a.1 < b.1) :
    (rawInsert k v l).Pairwise fun a b => a.1 < b.1 := by
  induction l with
  | nil => exact List.pairwise_singleton _ _
  | cons a as ih =>
    obtain ⟨ha, has⟩ := List.pairwise_cons.mp h
    simp only [rawInsert]
    split_ifs with h1 h2
    · refine List.pairwise_cons.mpr ⟨?_, h⟩
      intro b hb
      rcases List.mem_cons.mp hb with rfl | hb
      · exact h1
      · exact h1.trans (ha b hb)
    · refine List.pairwise_cons.mpr ⟨?_, has⟩
      intro b hb
      rw [h2]
      exact ha b hb
    · refine List.pairwise_cons.mpr ⟨?_, ih has⟩
      intro b hb
      rcases mem_rawInsert k v as b hb with rfl | hb
      · exact lt_of_le_of_ne (not_lt.mp h1) (Ne.symm h2)
      · exact ha b hb

theorem lookup_rawInsert (k j : κ) (v : ν) (l : List (κ × ν)) :
    rawLookup j (rawInsert k v l) = if j = k then some v else rawLookup j l := by
  induction l with
  | nil => rfl
  | cons a as ih =>
    simp only [rawInsert]
    by_cases h1 : k < a.1
    · simp only [if_pos h1, rawLookup]
    · by_cases h2 : k = a.1
      · rw [if_neg h1, if_pos h2, rawLookup, rawLookup, ← h2]
        split_ifs <;> rfl
      · simp only [if_neg h1, if_neg h2, rawLookup, ih]
        by_cases hj : j = a.1
        · have hk : j ≠ k := fun h => h2 (h.symm.trans hj)
          simp only [if_pos hj, if_neg hk]
        · simp only [if_neg hj]

theorem mem_of_lookup (l : List (κ × ν)) (k : κ) (v : ν) (h : rawLookup k l = some v) :
    (k, v) ∈ l := by
  induction l with
  | nil => simp [rawLookup] at h
  | cons a as ih =>
    rw [rawLookup] at h
    split_ifs at h with ha
    · rw [ha, ← Option.some.inj h]
      exact List.mem_cons_self ..
    · exact List.mem_cons_of_mem _ (ih h)

theorem lookup_of_mem (l : List (κ × ν)) (hs : l.Pairwise fun a b => a.1 < b.1)
    (k : κ) (v : ν) (h : (k, v) ∈ l) : rawLookup k l = some v := by
  induction l with
  | nil => simp at h
  | cons a as ih =>
    obtain ⟨ha, has⟩ := List.pairwise_cons.mp hs
    rcases List.mem_cons.mp h with h | h
    · rw [← h, rawLookup, if_pos rfl]
    · have hne : k ≠ a.1 := ne_of_gt (ha _ h)
      rw [rawLookup, if_neg hne]
      exact ih has h

theorem lookup_eq_none (l : List (κ × ν)) (k : κ) (h : ∀ e ∈ l, k < e.1) : rawLookup k l = none := by
  cases hl : rawLookup k l with
  | none => rfl
  | some v => exact absurd (h _ (mem_of_lookup l k v hl)) (lt_irrefl _)

/-- The greatest key up to a bound that has a value is unique, and so is the value. -/
theorem greatest_unique (f : κ → Option ν) (b u u' : κ) (x x' : ν)
    (h : u ≤ b ∧ f u = some x ∧ ∀ w, w ≤ b → u < w → f w = none)
    (h' : u' ≤ b ∧ f u' = some x' ∧ ∀ w, w ≤ b → u' < w → f w = none) : u = u' ∧ x = x' := by
  obtain ⟨hub, hu, hmax⟩ := h
  obtain ⟨hub', hu', hmax'⟩ := h'
  have heq : u = u' := by
    rcases lt_trichotomy u u' with hlt | heq | hlt
    · rw [hmax u' hub' hlt] at hu'
      cases hu'
    · exact heq
    · rw [hmax' u hub hlt] at hu
      cases hu
  subst heq
  rw [hu] at hu'
  exact ⟨rfl, Option.some.inj hu'⟩

theorem maxByKey_mem (l : List (κ × ν)) (e : κ × ν) (h : maxByKey l = some e) : e ∈ l := by
  induction l generalizing e with
  | nil => simp [maxByKey] at h
  | cons a as ih =>
    cases hm : maxByKey as with
    | none =>
      simp only [maxByKey, hm, Option.some.injEq] at h
      exact h ▸ List.mem_cons_self ..
    | some b =>
      simp only [maxByKey, hm] at h
      split_ifs at h
      · exact Option.some.inj h ▸ List.mem_cons_self ..
      · exact List.mem_cons_of_mem _ (ih e (hm.trans h))

theorem maxByKey_ge (l : List (κ × ν)) (e : κ × ν) (h : maxByKey l = some e) :
    ∀ a ∈ l, a.1 ≤ e.1 := by
  induction l generalizing e with
  | nil => simp
  | cons a as ih =>
    intro x hx
    cases hm : maxByKey as with
    | none =>
      have hnil : as = [] := by
        cases as with
        | nil => rfl
        | cons b bs =>
          simp only [maxByKey] at hm
          split at hm
          · simp at hm
          · split_ifs at hm
      simp only [maxByKey, hm, Option.some.injEq] at h
      simp only [hnil, List.mem_singleton] at hx
      rw [hx, h]
    | some b =>
      have hb := ih b hm
      simp only [maxByKey, hm] at h
      split_ifs at h with hlt
      · obtain rfl := Option.some.inj h
        rcases List.mem_cons.mp hx with rfl | hx
        · exact le_rfl
        · exact (hb x hx).trans hlt.le
      · obtain rfl := Option.some.inj h
        rcases List.mem_cons.mp hx with rfl | hx
        · exact not_lt.mp hlt
        · exact hb x hx

theorem maxByKey_eq_none (l : List (κ × ν)) : maxByKey l = none ↔ l = [] := by
  cases l with
  | nil => simp [maxByKey]
  | cons a as =>
    simp only [maxByKey]
    split
    · simp
    · split_ifs <;> simp

/-! ### The map -/

/-- A finite map with strictly increasing keys. -/
structure SortedMap (κ ν : Type) [LinearOrder κ] where
  entries : List (κ × ν)
  sorted : entries.Pairwise fun a b => a.1 < b.1

namespace SortedMap

def empty : SortedMap κ ν := ⟨[], List.Pairwise.nil⟩

def get? (m : SortedMap κ ν) (k : κ) : Option ν := rawLookup k m.entries

def insert (m : SortedMap κ ν) (k : κ) (v : ν) : SortedMap κ ν :=
  ⟨rawInsert k v m.entries, rawInsert_sorted k v m.entries m.sorted⟩

def filterKeys (m : SortedMap κ ν) (p : κ → Bool) : SortedMap κ ν :=
  ⟨m.entries.filter fun e => p e.1, m.sorted.filter _⟩

def erase (m : SortedMap κ ν) (k : κ) : SortedMap κ ν := m.filterKeys fun j => decide (j ≠ k)

/-- Entries from `k` on, in ascending order. -/
def iterFrom (m : SortedMap κ ν) (k : κ) : List (κ × ν) :=
  m.entries.filter fun e => decide (k ≤ e.1)

def extend (m m' : SortedMap κ ν) : SortedMap κ ν :=
  m'.entries.foldl (fun acc e => acc.insert e.1 e.2) m

/-- The entry of greatest key not above `b`. -/
def floor (m : SortedMap κ ν) (b : κ) : Option (κ × ν) :=
  maxByKey (m.entries.filter fun e => decide (e.1 ≤ b))

theorem mem_entries (m : SortedMap κ ν) (k : κ) (v : ν) :
    (k, v) ∈ m.entries ↔ m.get? k = some v :=
  ⟨lookup_of_mem m.entries m.sorted k v, mem_of_lookup m.entries k v⟩

@[simp] theorem get?_empty (k : κ) : (empty : SortedMap κ ν).get? k = none := rfl

theorem get?_insert (m : SortedMap κ ν) (k j : κ) (v : ν) :
    (m.insert k v).get? j = if j = k then some v else m.get? j :=
  lookup_rawInsert k j v m.entries

/-- A fold that updates one key per entry touches each key at most once, so it
can be read off key by key. -/
theorem get?_foldl_update {ω : Type} (f : Option ν → ω → ν) (l : List (κ × ω))
    (hs : l.Pairwise fun a b => a.1 < b.1) (m : SortedMap κ ν) (k : κ) :
    (l.foldl (fun acc e => acc.insert e.1 (f (acc.get? e.1) e.2)) m).get? k =
      match rawLookup k l with
      | some w => some (f (m.get? k) w)
      | none => m.get? k := by
  induction l generalizing m with
  | nil => rfl
  | cons e es ih =>
    obtain ⟨he, hes⟩ := List.pairwise_cons.mp hs
    rw [List.foldl_cons, ih hes, rawLookup, get?_insert]
    by_cases hk : k = e.1
    · have hno : rawLookup k es = none := lookup_eq_none es k (hk ▸ he)
      subst hk
      simp only [hno, if_true]
    · simp only [if_neg hk]

theorem get?_extend (m m' : SortedMap κ ν) (k : κ) :
    (m.extend m').get? k = (m'.get? k).or (m.get? k) := by
  have h := get?_foldl_update (fun _ w => w) m'.entries m'.sorted m k
  rw [extend, h]
  show (match m'.get? k with | some w => some w | none => m.get? k) = _
  cases m'.get? k <;> rfl

theorem ext_get? (m m' : SortedMap κ ν) (h : ∀ k, m.get? k = m'.get? k) : m = m' := by
  have hmem : ∀ e, e ∈ m.entries ↔ e ∈ m'.entries := by
    intro e
    rw [show e = (e.1, e.2) from rfl, mem_entries, mem_entries, h]
  have hnodup : ∀ l : List (κ × ν), (l.Pairwise fun a b => a.1 < b.1) → l.Nodup := by
    intro l hl
    refine hl.imp ?_
    rintro a b hlt rfl
    exact lt_irrefl _ hlt
  have hperm : m.entries.Perm m'.entries :=
    (List.perm_ext_iff_of_nodup (hnodup _ m.sorted) (hnodup _ m'.sorted)).mpr hmem
  have heq : m.entries = m'.entries := by
    refine hperm.eq_of_pairwise ?_ m.sorted m'.sorted
    intro a b _ _ hab hba
    exact absurd (hab.trans hba) (lt_irrefl _)
  obtain ⟨es, hs⟩ := m
  obtain ⟨es', hs'⟩ := m'
  simp only at heq
  subst heq
  rfl

theorem insert_insert (m : SortedMap κ ν) (k : κ) (v w : ν) :
    (m.insert k v).insert k w = m.insert k w := by
  refine ext_get? _ _ fun j => ?_
  simp only [get?_insert]
  split_ifs <;> rfl

/-- An entry that agrees with all others under its key is found after they are inserted. -/
theorem get?_foldl_insert (l : List (κ × ν)) (m : SortedMap κ ν) (k : κ) (v : ν)
    (hin : (k, v) ∈ l) (hfun : ∀ w, (k, w) ∈ l → w = v) :
    (l.foldl (fun acc e => acc.insert e.1 e.2) m).get? k = some v := by
  have hkeep : ∀ (es : List (κ × ν)) (m : SortedMap κ ν), m.get? k = some v →
      (∀ w, (k, w) ∈ es → w = v) →
      (es.foldl (fun acc e => acc.insert e.1 e.2) m).get? k = some v := by
    intro es
    induction es with
    | nil => exact fun m hm _ => hm
    | cons e es ih =>
      intro m hm hes
      refine ih _ ?_ fun w hw => hes w (List.mem_cons_of_mem _ hw)
      rw [get?_insert]
      split_ifs with hk
      · rw [hes e.2 (by rw [hk]; exact List.mem_cons_self)]
      · exact hm
  induction l generalizing m with
  | nil => exact absurd hin List.not_mem_nil
  | cons e es ih =>
    rw [List.foldl_cons]
    have hrest : ∀ w, (k, w) ∈ es → w = v := fun w hw => hfun w (List.mem_cons_of_mem _ hw)
    rcases List.mem_cons.mp hin with rfl | hes
    · exact hkeep es _ (by rw [get?_insert, if_pos rfl]) hrest
    · exact ih _ hes hrest

theorem get?_filterKeys (m : SortedMap κ ν) (p : κ → Bool) (k : κ) :
    (m.filterKeys p).get? k = if p k then m.get? k else none := by
  have hiff : ∀ v, (m.filterKeys p).get? k = some v ↔ (m.get? k = some v ∧ p k = true) := by
    intro v
    rw [← mem_entries, ← mem_entries]
    simp only [filterKeys, List.mem_filter]
  apply Option.ext
  intro v
  rw [hiff]
  split_ifs with hp <;> simp [hp]

theorem get?_erase (m : SortedMap κ ν) (k j : κ) :
    (m.erase k).get? j = if j = k then none else m.get? j := by
  by_cases h : j = k <;> simp [erase, get?_filterKeys, h]

theorem floor_eq_none (m : SortedMap κ ν) (b : κ) :
    m.floor b = none ↔ ∀ k, k ≤ b → m.get? k = none := by
  simp only [floor, maxByKey_eq_none, List.filter_eq_nil_iff, decide_eq_true_eq]
  constructor
  · intro h k hk
    cases hv : m.get? k with
    | none => rfl
    | some v => exact absurd hk (h (k, v) ((mem_entries m k v).mpr hv))
  · intro h e he hle
    have hv := (mem_entries m e.1 e.2).mp he
    rw [h e.1 hle] at hv
    simp at hv

theorem floor_eq_some (m : SortedMap κ ν) (b k : κ) (v : ν) :
    m.floor b = some (k, v) ↔
      m.get? k = some v ∧ k ≤ b ∧ ∀ j, j ≤ b → k < j → m.get? j = none := by
  have hall : ∀ e, m.floor b = some e →
      m.get? e.1 = some e.2 ∧ e.1 ≤ b ∧ ∀ j, j ≤ b → e.1 < j → m.get? j = none := by
    intro e he
    have hm := List.mem_filter.mp (maxByKey_mem _ _ he)
    refine ⟨(mem_entries m e.1 e.2).mp hm.1, of_decide_eq_true hm.2, ?_⟩
    intro j hj hlt
    cases hw : m.get? j with
    | none => rfl
    | some w =>
      have hin : (j, w) ∈ m.entries.filter fun e => decide (e.1 ≤ b) :=
        List.mem_filter.mpr ⟨(mem_entries m j w).mpr hw, decide_eq_true hj⟩
      exact absurd (maxByKey_ge _ _ he _ hin) (not_le.mpr hlt)
  constructor
  · exact hall (k, v)
  · intro h
    obtain ⟨hv, hk, hmax⟩ := h
    cases hf : m.floor b with
    | none =>
      rw [(floor_eq_none m b).mp hf k hk] at hv
      simp at hv
    | some e =>
      obtain ⟨hev, heb, hemax⟩ := hall e hf
      have heq : e.1 = k :=
        (greatest_unique m.get? b e.1 k e.2 v ⟨heb, hev, hemax⟩ ⟨hk, hv, hmax⟩).1
      rw [heq, hv] at hev
      rw [← heq, Option.some.inj hev]

/-! ### Agreement -/

/-- Every binding of `m` is one of `s`. -/
def Extends (s m : SortedMap κ ν) : Prop := ∀ k v, m.get? k = some v → s.get? k = some v

theorem extends_refl (m : SortedMap κ ν) : m.Extends m := fun _ _ h => h

theorem Extends.trans {a b c : SortedMap κ ν} (hab : a.Extends b) (hbc : b.Extends c) :
    a.Extends c := fun k v h => hab k v (hbc k v h)

theorem Extends.extend_eq {s m : SortedMap κ ν} (h : s.Extends m) : s.extend m = s := by
  apply ext_get?
  intro k
  rw [get?_extend]
  cases hm : m.get? k with
  | none => rfl
  | some v => exact (h k v hm).symm

theorem extends_empty (s : SortedMap κ ν) : s.Extends empty := by
  intro k v h
  simp at h

theorem extends_insert_empty (s : SortedMap κ ν) (k : κ) (v : ν) :
    s.Extends (empty.insert k v) ↔ s.get? k = some v := by
  constructor
  · intro h
    exact h k v (by rw [get?_insert, if_pos rfl])
  · intro h j w hj
    rw [get?_insert] at hj
    split_ifs at hj with hjk
    · rw [hjk, ← Option.some.inj hj]
      exact h
    · simp at hj

theorem insert_extends (m : SortedMap κ ν) (k : κ) (v : ν)
    (h : ∀ w, m.get? k = some w → w = v) : (m.insert k v).Extends m := by
  intro j w hj
  rw [get?_insert]
  split_ifs with hjk
  · rw [h w (hjk ▸ hj)]
  · exact hj

/-- The entries are inserted one by one; one that disagrees with what stands
under its key makes the whole merge fail. -/
def mergeAgree [DecidableEq ν] : SortedMap κ ν → List (κ × ν) → Option (SortedMap κ ν)
  | m, [] => some m
  | m, e :: es =>
    if (m.get? e.1).any fun v => v ≠ e.2 then none else mergeAgree (m.insert e.1 e.2) es

section

variable [DecidableEq ν]

theorem mergeAgree_cons (m r : SortedMap κ ν) (e : κ × ν) (es : List (κ × ν))
    (h : mergeAgree m (e :: es) = some r) :
    (∀ v, m.get? e.1 = some v → v = e.2) ∧ mergeAgree (m.insert e.1 e.2) es = some r := by
  rw [mergeAgree] at h
  split_ifs at h with hc
  refine ⟨?_, h⟩
  intro v hv
  simp only [hv, Option.any_some, decide_eq_true_eq, not_not] at hc
  exact hc

/-- A merge keeps what was there, adds every entry, and adds nothing else. -/
theorem mergeAgree_spec (l : List (κ × ν)) (m r : SortedMap κ ν) (h : mergeAgree m l = some r) :
    r.Extends m ∧ (∀ e ∈ l, r.get? e.1 = some e.2) ∧
      ∀ k v, r.get? k = some v → m.get? k = some v ∨ (k, v) ∈ l := by
  induction l generalizing m with
  | nil =>
    obtain rfl := Option.some.inj h
    exact ⟨extends_refl m, by simp, fun k v hv => Or.inl hv⟩
  | cons e es ih =>
    obtain ⟨hagree, hrest⟩ := mergeAgree_cons m r e es h
    obtain ⟨hext, hall, honly⟩ := ih (m.insert e.1 e.2) hrest
    refine ⟨hext.trans (insert_extends m e.1 e.2 hagree), ?_, ?_⟩
    · intro a ha
      rcases List.mem_cons.mp ha with rfl | ha
      · exact hext _ _ (by rw [get?_insert, if_pos rfl])
      · exact hall a ha
    · intro k v hv
      rcases honly k v hv with hm | hm
      · rw [get?_insert] at hm
        split_ifs at hm with hk
        · refine Or.inr (List.mem_cons.mpr (Or.inl ?_))
          rw [hk, ← Option.some.inj hm]
        · exact Or.inl hm
      · exact Or.inr (List.mem_cons_of_mem _ hm)

/-- What fits into one map can be merged. -/
theorem mergeAgree_of_extends (l : List (κ × ν)) (m s : SortedMap κ ν) (hm : s.Extends m)
    (hl : ∀ e ∈ l, s.get? e.1 = some e.2) : ∃ r, mergeAgree m l = some r ∧ s.Extends r := by
  induction l generalizing m with
  | nil => exact ⟨m, rfl, hm⟩
  | cons e es ih =>
    have he := hl e (List.mem_cons_self ..)
    have hins : s.Extends (m.insert e.1 e.2) := by
      intro k v hk
      rw [get?_insert] at hk
      split_ifs at hk with hke
      · rw [hke, ← Option.some.inj hk]
        exact he
      · exact hm k v hk
    obtain ⟨r, hr, hs⟩ := ih (m.insert e.1 e.2) hins fun a ha => hl a (List.mem_cons_of_mem _ ha)
    refine ⟨r, ?_, hs⟩
    have hc : ((m.get? e.1).any fun v => decide (v ≠ e.2)) = false := by
      cases hg : m.get? e.1 with
      | none => rfl
      | some v =>
        have hv := hm e.1 v hg
        rw [he] at hv
        simp [Option.some.inj hv]
    rw [mergeAgree, hc]
    exact hr

end

end SortedMap

end Movy
