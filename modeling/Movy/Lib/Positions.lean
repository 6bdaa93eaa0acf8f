import Mathlib.Data.List.Basic
import Mathlib.Data.List.Induction
import Mathlib.Data.Nat.Count

/-!
# Positions of kept members

When only some members of a list are kept, a kept one moves to the position that
counts the kept ones before it.
-/

namespace Movy

variable {α β : Type}

def keptIndices (p : ℕ → Prop) [DecidablePred p] (n : ℕ) : List ℕ :=
  (List.range n).filter fun i => decide (p i)

section

variable (p q : ℕ → Prop) [DecidablePred p] [DecidablePred q]

theorem keptIndices_succ (n : ℕ) :
    keptIndices p (n + 1) = keptIndices p n ++ if p n then [n] else [] := by
  rw [keptIndices, List.range_succ, List.filter_append, keptIndices]
  by_cases hn : p n
  · simp [hn]
  · simp [hn]

theorem length_keptIndices (n : ℕ) : (keptIndices p n).length = Nat.count p n := by
  induction n with
  | zero => rfl
  | succ n ih =>
    rw [keptIndices_succ, List.length_append, ih, Nat.count_succ]
    split_ifs <;> rfl

theorem mem_keptIndices (n i : ℕ) : i ∈ keptIndices p n ↔ i < n ∧ p i := by
  simp [keptIndices]

/-- A kept index stands where it is counted. -/
theorem getElem?_keptIndices (n k i : ℕ) :
    (keptIndices p n)[k]? = some i ↔ i < n ∧ p i ∧ Nat.count p i = k := by
  induction n with
  | zero => simp [keptIndices]
  | succ n ih =>
    rw [keptIndices_succ, List.getElem?_append, length_keptIndices]
    by_cases hk : k < Nat.count p n
    · rw [if_pos hk, ih]
      constructor
      · intro hall
        obtain ⟨hi, hrest⟩ := hall
        exact ⟨by omega, hrest⟩
      · intro hall
        obtain ⟨hi, hp, hcount⟩ := hall
        refine ⟨?_, hp, hcount⟩
        have hne : i ≠ n := by
          rintro rfl
          omega
        omega
    · rw [if_neg hk]
      have hlast : (if p n then [n] else [])[k - Nat.count p n]? = some i ↔
          p n ∧ i = n ∧ k = Nat.count p n := by
        split_ifs with hn
        · rw [List.getElem?_singleton]
          split_ifs with hzero
          · simp only [Option.some.injEq, hn, true_and]
            constructor
            · rintro rfl
              exact ⟨rfl, by omega⟩
            · exact fun h => h.1.symm
          · simp only [hn, true_and, false_iff]
            intro hall
            obtain ⟨-, rfl⟩ := hall
            exact hzero (Nat.sub_self _)
        · simp [hn]
      rw [hlast]
      constructor
      · intro hall
        obtain ⟨hn, rfl, rfl⟩ := hall
        exact ⟨Nat.lt_succ_self i, hn, rfl⟩
      · intro hall
        obtain ⟨hi, hp, rfl⟩ := hall
        have hin : i = n := by
          by_contra hne
          exact hk (Nat.count_strict_mono hp (by omega))
        subst hin
        exact ⟨hp, rfl, rfl⟩

/-- Fewer are kept, and as many before `n`: the same ones. -/
theorem count_eq_count_iff (hpq : ∀ i, p i → q i) (n : ℕ) :
    Nat.count p n = Nat.count q n ↔ ∀ i < n, q i → p i := by
  induction n with
  | zero => simp
  | succ n ih =>
    have hle := Nat.count_mono_left (n := n) fun i _ => hpq i
    rw [Nat.count_succ, Nat.count_succ]
    constructor
    · intro heq
      have hn : q n → p n := by
        intro hq
        by_contra hp
        rw [if_neg hp, if_pos hq] at heq
        omega
      have hcount : Nat.count p n = Nat.count q n := by
        by_cases hp : p n
        · rw [if_pos hp, if_pos (hpq n hp)] at heq
          omega
        · rw [if_neg hp, if_neg fun hq => hp (hn hq)] at heq
          exact heq
      intro i hi
      rcases Nat.lt_succ_iff_lt_or_eq.mp hi with hi | rfl
      · exact ih.mp hcount i hi
      · exact hn
    · intro hall
      rw [ih.mpr fun i hi => hall i (by omega)]
      by_cases hp : p n
      · rw [if_pos hp, if_pos (hpq n hp)]
      · rw [if_neg hp, if_neg fun hq => hp (hall n (Nat.lt_succ_self n) hq)]

end

/-! ### Kept members -/

theorem filterMap_eq_range (f : α → Option β) (l : List α) :
    l.filterMap f = (List.range l.length).filterMap fun i => (l[i]?).bind f := by
  induction l with
  | nil => rfl
  | cons a l ih =>
    rw [List.length_cons, List.range_succ_eq_map, List.filterMap_cons, List.filterMap_cons, ih,
      List.filterMap_map]
    rfl

theorem getElem?_filterMap_isSome (g : ℕ → Option β) (l : List ℕ)
    (h : ∀ i ∈ l, (g i).isSome = true) (k : ℕ) : (l.filterMap g)[k]? = (l[k]?).bind g := by
  induction l generalizing k with
  | nil => rfl
  | cons i l ih =>
    obtain ⟨b, hb⟩ := Option.isSome_iff_exists.mp (h i (List.mem_cons_self ..))
    rw [List.filterMap_cons_some hb]
    cases k with
    | zero => exact hb.symm
    | succ k => exact ih (fun j hj => h j (List.mem_cons_of_mem _ hj)) k

/-- What `filterMap` keeps, by position. -/
theorem getElem?_filterMap (f : α → Option β) (l : List α) (p : ℕ → Prop) [DecidablePred p]
    (hp : ∀ i, i < l.length → (p i ↔ ((l[i]?).bind f).isSome = true)) (k : ℕ) :
    (l.filterMap f)[k]? = ((keptIndices p l.length)[k]?).bind fun i => (l[i]?).bind f := by
  have hfilter : (List.range l.length).filterMap (fun i => (l[i]?).bind f) =
      (keptIndices p l.length).filterMap fun i => (l[i]?).bind f := by
    rw [keptIndices, List.filterMap_filter]
    apply List.filterMap_congr
    intro i hi
    have hiff := hp i (List.mem_range.mp hi)
    by_cases hpi : p i
    · simp [hpi]
    · have hnone := Option.not_isSome_iff_eq_none.mp fun h => hpi (hiff.mpr h)
      simp [hpi, hnone]
  rw [filterMap_eq_range, hfilter, getElem?_filterMap_isSome]
  intro i hi
  obtain ⟨hlt, hpi⟩ := (mem_keptIndices p l.length i).mp hi
  exact (hp i hlt).mp hpi

theorem zipIdx_filter_zipIdx (l : List α) (p : ℕ → Prop) [DecidablePred p] :
    ((l.zipIdx.filter fun e => decide (p e.2)).map Prod.fst).zipIdx =
      (l.zipIdx.filter fun e => decide (p e.2)).map fun e => (e.1, Nat.count p e.2) := by
  induction l using List.reverseRecOn with
  | nil => rfl
  | append_singleton l a ih =>
    have hlength : (l.zipIdx.filter fun e => decide (p e.2)).length = Nat.count p l.length := by
      have hsnd : l.zipIdx.map Prod.snd = List.range l.length := by
        simp [List.range_eq_range']
      rw [← length_keptIndices, keptIndices, ← hsnd, List.filter_map, List.length_map]
      rfl
    rw [List.zipIdx_append, List.filter_append, List.map_append, List.zipIdx_append, ih,
      List.map_append, List.length_map, hlength, Nat.zero_add, Nat.zero_add]
    by_cases ha : p l.length
    · simp [ha]
    · simp [ha]

end Movy
