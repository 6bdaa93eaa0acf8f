import Mathlib.Data.List.Dedup
import Mathlib.Data.List.Nodup
import Mathlib.Data.List.Perm.Basic
import Mathlib.Data.List.Range

/-!
# Removing positions from a list

What becomes of the other positions when the members at some positions are
taken out: each moves down by the number of removed positions before it.
-/

namespace Movy

variable {α : Type}

/-- The members of the list at the positions that are not removed. -/
def withoutIdxs (l : List α) (removed : List ℕ) : List α :=
  (l.zipIdx.filter fun e => decide (e.2 ∉ removed)).map Prod.fst

/-- How many removed positions are before `j`. -/
def removedBefore (removed : List ℕ) (j : ℕ) : ℕ :=
  (removed.dedup.filter fun x => decide (x < j)).length

theorem filter_range_mem_length (removed : List ℕ) (j : ℕ) :
    ((List.range j).filter fun x => decide (x ∈ removed)).length = removedBefore removed j := by
  have hleft : ((List.range j).filter fun x => decide (x ∈ removed)).Nodup :=
    List.nodup_range.filter _
  have hright : (removed.dedup.filter fun x => decide (x < j)).Nodup :=
    (List.nodup_dedup removed).filter _
  apply List.Perm.length_eq
  rw [List.perm_ext_iff_of_nodup hleft hright]
  intro x
  simp only [List.mem_filter, List.mem_range, List.mem_dedup, decide_eq_true_eq]
  exact and_comm

theorem removedBefore_le (removed : List ℕ) (j : ℕ) : removedBefore removed j ≤ j := by
  rw [← filter_range_mem_length]
  calc _ ≤ (List.range j).length := List.length_filter_le _ _
    _ = j := List.length_range

theorem filter_range_not_mem_length (removed : List ℕ) (j : ℕ) :
    ((List.range j).filter fun x => decide (x ∉ removed)).length =
      j - removedBefore removed j := by
  have hsum := List.length_eq_length_filter_add (l := List.range j) fun x => decide (x ∈ removed)
  have hnot : ((List.range j).filter fun x => !decide (x ∈ removed)) =
      (List.range j).filter fun x => decide (x ∉ removed) := by
    apply List.filter_congr
    intro x _
    exact (decide_not ..).symm
  rw [List.length_range, filter_range_mem_length, hnot] at hsum
  omega

theorem length_withoutIdxs (l : List α) (removed : List ℕ) :
    (withoutIdxs l removed).length = l.length - removedBefore removed l.length := by
  rw [← filter_range_not_mem_length, withoutIdxs, List.length_map]
  have hsnd : l.zipIdx.map Prod.snd = List.range l.length := by
    simp [List.range_eq_range']
  rw [← hsnd, List.filter_map, List.length_map]
  rfl

theorem getElem?_withoutIdxs (l : List α) (removed : List ℕ) (j : ℕ) (a : α)
    (hj : l[j]? = some a) (hnot : j ∉ removed) :
    (withoutIdxs l removed)[j - removedBefore removed j]? = some a := by
  obtain ⟨hlt, hget⟩ := List.getElem?_eq_some_iff.mp hj
  have hsplit : l = l.take j ++ a :: l.drop (j + 1) := by
    rw [← hget, List.getElem_cons_drop, List.take_append_drop]
  have hlen : (l.take j).length = j := by
    rw [List.length_take]
    omega
  have htake := length_withoutIdxs (l.take j) removed
  rw [hlen] at htake
  have hcons : withoutIdxs l removed = withoutIdxs (l.take j) removed ++
      a :: (((l.drop (j + 1)).zipIdx (j + 1)).filter fun e => decide (e.2 ∉ removed)).map
        Prod.fst := by
    conv_lhs => rw [hsplit]
    unfold withoutIdxs
    rw [List.zipIdx_append, List.filter_append, List.map_append, hlen, List.zipIdx_cons,
      Nat.zero_add]
    simp [hnot]
  rw [hcons, List.getElem?_append_right (by omega), htake, Nat.sub_self]
  rfl

theorem removedBefore_strictMono (removed : List ℕ) (i j : ℕ) (hij : i < j) (hi : i ∉ removed) :
    i - removedBefore removed i < j - removedBefore removed j := by
  rw [← filter_range_not_mem_length, ← filter_range_not_mem_length]
  have hsplit : List.range j = List.range i ++ i :: (List.range' (i + 1) (j - i - 1)) := by
    have hlen : j = i + (j - i - 1 + 1) := by omega
    conv_lhs => rw [hlen, List.range_eq_range', ← List.range'_append_1, Nat.zero_add,
      List.range'_succ]
    rw [List.range_eq_range']
  rw [hsplit, List.filter_append, List.length_append]
  simp [hi]

/-! ### One at a time -/

/-- `none` if there is no such position. -/
def removeAt (l : List α) (i : ℕ) : Option (List α) :=
  if i < l.length then some (l.eraseIdx i) else none

theorem removeAt_withoutIdxs (l : List α) (a : ℕ) (removed : List ℕ) (ha : a < l.length)
    (hlt : ∀ i ∈ removed, a < i) :
    removeAt (withoutIdxs l removed) a = some (withoutIdxs l (a :: removed)) := by
  have hsplit : l = l.take a ++ l[a] :: l.drop (a + 1) := by
    rw [List.getElem_cons_drop, List.take_append_drop]
  have hlen : (l.take a).length = a := by
    rw [List.length_take]
    omega
  have hfront : ∀ r : List ℕ, (∀ i ∈ r, a ≤ i) → withoutIdxs (l.take a) r = l.take a := by
    intro r hr
    have hall : (l.take a).zipIdx.filter (fun e => decide (e.2 ∉ r)) = (l.take a).zipIdx := by
      apply List.filter_eq_self.mpr
      intro e he
      obtain ⟨-, hlt, -⟩ := List.mem_zipIdx he
      rw [decide_eq_true_eq]
      intro hmem
      have := hr e.2 hmem
      omega
    rw [withoutIdxs, hall, List.zipIdx_map_fst]
  have hcut : ∀ r : List ℕ, (∀ i ∈ r, a ≤ i) → withoutIdxs l r = l.take a ++
      ((if a ∈ r then [] else [l[a]]) ++
        (((l.drop (a + 1)).zipIdx (a + 1)).filter fun e => decide (e.2 ∉ r)).map Prod.fst) := by
    intro r hr
    have hl := hfront r hr
    conv_lhs => rw [hsplit]
    unfold withoutIdxs at hl ⊢
    rw [List.zipIdx_append, List.filter_append, List.map_append, hl, hlen, List.zipIdx_cons,
      Nat.zero_add]
    by_cases hmem : a ∈ r
    · simp [hmem]
    · simp [hmem]
  have hnot : a ∉ removed := fun hmem => Nat.lt_irrefl a (hlt a hmem)
  have hback : (((l.drop (a + 1)).zipIdx (a + 1)).filter fun e => decide (e.2 ∉ a :: removed)) =
      ((l.drop (a + 1)).zipIdx (a + 1)).filter fun e => decide (e.2 ∉ removed) := by
    apply List.filter_congr
    intro e he
    obtain ⟨hle, -⟩ := List.mem_zipIdx he
    have hne : e.2 ≠ a := by omega
    simp [hne]
  rw [hcut removed fun i hi => Nat.le_of_lt (hlt i hi), if_neg hnot, hcut (a :: removed), hback,
    if_pos (List.mem_cons_self ..), removeAt, if_pos]
  · rw [List.eraseIdx_append_of_length_le (by omega), hlen, Nat.sub_self]
    rfl
  · simp only [List.length_append, hlen, List.length_singleton]
    omega
  · intro i hi
    rcases List.mem_cons.mp hi with rfl | hi
    · exact Nat.le_refl i
    · exact Nat.le_of_lt (hlt i hi)

/-- Removing ascending positions one at a time, from the last one on. -/
theorem foldr_removeAt (l : List α) (removed : List ℕ) (hsorted : removed.Pairwise (· < ·))
    (hlt : ∀ i ∈ removed, i < l.length) :
    removed.foldr (fun i rest => rest.bind fun l => removeAt l i) (some l) =
      some (withoutIdxs l removed) := by
  induction removed with
  | nil => simp [withoutIdxs]
  | cons a removed ih =>
    obtain ⟨hfirst, hrest⟩ := List.pairwise_cons.mp hsorted
    rw [List.foldr_cons, ih hrest fun i hi => hlt i (List.mem_cons_of_mem _ hi), Option.bind_some]
    exact removeAt_withoutIdxs l a removed (hlt a (List.mem_cons_self ..)) hfirst

end Movy
