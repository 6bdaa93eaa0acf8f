import Movy.Fuzz.MutateSequence
import Movy.Lib.Weighted

/-!
# Drawing a target function (`weighted_sample` in `mutators/sequence/append.rs`)

The weights are scores of 64 bits, some of them given by the user, and their sum
is a number of 64 bits as well. Where the exact sum does not fit, no number of
draws can be proportional to the weights.
-/

namespace Movy.Fuzz

open Movy.Types Movy.Store

def exactSum (weights : List U64) : ℕ := (weights.map Fin.val).sum

theorem exactSum_cons (w : U64) (weights : List U64) :
    exactSum (w :: weights) = w.val + exactSum weights := by
  rw [exactSum, exactSum, List.map_cons, List.sum_cons]

theorem sum_of_fits (weights : List U64) (h : exactSum weights < 2 ^ 64) :
    weights.sum.val = exactSum weights := by
  induction weights with
  | nil => rfl
  | cons w weights ih =>
    rw [exactSum_cons] at h ⊢
    rw [List.sum_cons, Fin.val_add, ih (by omega), Nat.mod_eq_of_lt h]

theorem exactSum_take (weights : List U64) (k : ℕ) :
    exactSum (weights.take k) ≤ exactSum weights := by
  induction weights generalizing k with
  | nil => rw [List.take_nil]
  | cons w weights ih =>
    cases k with
    | zero => exact Nat.zero_le _
    | succ k =>
      have htail := ih k
      rw [List.take_succ_cons, exactSum_cons, exactSum_cons]
      omega

theorem exactSum_pos (weights : List U64) (h : ∃ w ∈ weights, w ≠ 0) : 0 < exactSum weights := by
  obtain ⟨w, hw, hne⟩ := h
  have hle : w.val ≤ exactSum weights :=
    List.single_le_sum (fun _ _ => Nat.zero_le _) _ (List.mem_map_of_mem hw)
  have hpos : w.val ≠ 0 := fun hzero => hne (Fin.ext hzero)
  omega

/-! ### The loop -/

theorem reachWeight_drawIndex {α : Type} (items : List α) (weights : List U64)
    (hlen : items.length = weights.length) (cumulative : U64) (r : ℕ)
    (hfits : cumulative.val + exactSum weights < 2 ^ 64) :
    reachWeight (cumulative.val + r + 1) (items.zip weights) cumulative =
      (drawIndex (weights.map Fin.val) r).bind fun i => items[i]? := by
  induction weights generalizing items cumulative r with
  | nil => rw [List.zip_nil_right, reachWeight, List.map_nil, drawIndex, Option.bind_none]
  | cons w weights ih =>
    cases items with
    | nil => cases hlen
    | cons item items =>
      rw [exactSum_cons] at hfits
      have hval : (cumulative + w).val = cumulative.val + w.val := by
        rw [Fin.val_add, Nat.mod_eq_of_lt (by omega)]
      rw [List.zip_cons_cons, reachWeight, List.map_cons, drawIndex, hval]
      by_cases hr : r < w.val
      · rw [if_pos (by omega), if_pos hr]
        rfl
      · have htail := ih items (Nat.succ.inj hlen) (cumulative + w) (r - w.val) (by omega)
        rw [if_neg (by omega), if_neg hr, Option.bind_map]
        rw [hval, show cumulative.val + w.val + (r - w.val) + 1 = cumulative.val + r + 1 by omega]
          at htail
        exact htail

theorem weightedSample_drawIndex {α : Type} (items : List α) (weights : List U64)
    (hlen : items.length = weights.length) (hpos : ∃ w ∈ weights, w ≠ 0)
    (hfits : exactSum weights < 2 ^ 64) (d : ℕ) (rest : List ℕ) :
    weightedSample items weights (d :: rest) =
      ((drawIndex (weights.map Fin.val) (d % exactSum weights)).bind fun i => items[i]?).map
        fun item => (item, rest) := by
  have hsum := sum_of_fits weights hfits
  have hpositive := exactSum_pos weights hpos
  have hne : weights.sum ≠ 0 := by
    intro hzero
    rw [hzero] at hsum
    exact absurd hsum.symm (Nat.ne_of_gt hpositive)
  have hloop := reachWeight_drawIndex items weights hlen 0 (d % exactSum weights) (by
    rw [Fin.val_zero, Nat.zero_add]
    exact hfits)
  rw [Fin.val_zero, Nat.zero_add] at hloop
  have hdraw : weightedSample items weights (d :: rest) =
      Choice.expect (reachWeight (d % exactSum weights + 1) (items.zip weights) 0) rest := by
    rw [weightedSample, if_neg hne, hsum]
    show Choice.expect (reachWeight
      ((if exactSum weights = 0 then 0 else d % exactSum weights) + 1) _ 0) rest = _
    rw [if_neg (by omega)]
  rw [hdraw, hloop]
  cases (drawIndex (weights.map Fin.val) (d % exactSum weights)).bind fun i => items[i]? with
  | none => rfl
  | some item => rfl

/-! ### Fair draws -/

def sampledIndex (weights : List U64) (d : ℕ) : Option ℕ :=
  (weightedSample (List.range weights.length) weights [d]).map Prod.fst

/- Every draw returns an item of positive weight, each position is selected by as many
of the draws as its weight says, and no sum of the weights that is formed overflows. -/
structure SamplesFairly {α : Type} (items : List α) (weights : List U64) : Prop where
  total : ∀ d rest, ∃ i item w, sampledIndex weights d = some i ∧ items[i]? = some item ∧
    weights[i]? = some w ∧ w ≠ 0 ∧ weightedSample items weights (d :: rest) = some (item, rest)
  proportional : ∀ i w, weights[i]? = some w →
    Nat.count (fun d => sampledIndex weights d = some i) weights.sum.val = w.val
  noOverflow : ∀ k, (weights.take k).sum.val = exactSum (weights.take k)

theorem sampledIndex_drawIndex (weights : List U64) (hpos : ∃ w ∈ weights, w ≠ 0)
    (hfits : exactSum weights < 2 ^ 64) (d : ℕ) :
    sampledIndex weights d = drawIndex (weights.map Fin.val) (d % exactSum weights) := by
  rw [sampledIndex, weightedSample_drawIndex _ weights List.length_range hpos hfits, Option.map_map]
  cases hdraw : drawIndex (weights.map Fin.val) (d % exactSum weights) with
  | none => rfl
  | some i =>
    obtain ⟨v, hv, _⟩ := drawIndex_positive _ _ _ hdraw
    have hi := (List.getElem?_eq_some_iff.mp hv).1
    rw [List.length_map] at hi
    rw [Option.bind_some, List.getElem?_range hi]
    rfl

theorem samplesFairly_of_fits {α : Type} (items : List α) (weights : List U64)
    (hlen : items.length = weights.length) (hpos : ∃ w ∈ weights, w ≠ 0)
    (hfits : exactSum weights < 2 ^ 64) : SamplesFairly items weights := by
  have hpositive := exactSum_pos weights hpos
  constructor
  · intro d rest
    obtain ⟨i, hi⟩ := drawIndex_total (weights.map Fin.val) (d % exactSum weights)
      (Nat.mod_lt d hpositive)
    obtain ⟨v, hv, hvpos⟩ := drawIndex_positive _ _ _ hi
    rw [List.getElem?_map] at hv
    obtain ⟨w, hw, rfl⟩ := Option.map_eq_some_iff.mp hv
    have hilt : i < items.length := hlen ▸ (List.getElem?_eq_some_iff.mp hw).1
    have hitem := List.getElem?_eq_getElem hilt
    refine ⟨i, items[i], w, ?_, hitem, hw, ?_, ?_⟩
    · rw [sampledIndex_drawIndex weights hpos hfits, hi]
    · rintro rfl
      exact Nat.lt_irrefl 0 hvpos
    · rw [weightedSample_drawIndex items weights hlen hpos hfits, hi, Option.bind_some, hitem]
      rfl
  · intro i w hw
    have hcount := count_drawIndex (weights.map Fin.val) i w.val (by
      rw [List.getElem?_map, hw]
      rfl)
    have hdraws : ∀ d ∈ Finset.range (exactSum weights),
        (sampledIndex weights d = some i ↔ drawIndex (weights.map Fin.val) d = some i) := by
      intro d hd
      rw [sampledIndex_drawIndex weights hpos hfits, Nat.mod_eq_of_lt (Finset.mem_range.mp hd)]
    rw [sum_of_fits weights hfits, ← hcount, Nat.count_eq_card_filter_range,
      Nat.count_eq_card_filter_range]
    exact congrArg Finset.card (Finset.filter_congr hdraws)
  · intro k
    exact sum_of_fits _ (Nat.lt_of_le_of_lt (exactSum_take weights k) hfits)

/- In any case the draws are bounded, so that nothing is proportional to more. -/
theorem fits_of_samplesFairly {α : Type} (items : List α) (weights : List U64)
    (h : SamplesFairly items weights) : exactSum weights < 2 ^ 64 := by
  have hle : exactSum weights ≤ weights.sum.val := by
    apply sum_le_of_count (weights.map Fin.val) (sampledIndex weights)
    intro i v hv
    rw [List.getElem?_map] at hv
    obtain ⟨w, hw, rfl⟩ := Option.map_eq_some_iff.mp hv
    exact h.proportional i w hw
  exact Nat.lt_of_le_of_lt hle weights.sum.isLt

theorem samplesFairly_iff {α : Type} (items : List α) (weights : List U64)
    (hlen : items.length = weights.length) (hpos : ∃ w ∈ weights, w ≠ 0) :
    SamplesFairly items weights ↔ exactSum weights < 2 ^ 64 :=
  ⟨fits_of_samplesFairly items weights, samplesFairly_of_fits items weights hlen hpos⟩

theorem samplesFairly_small :
    SamplesFairly ["stake", "swap"] [100, 5100] :=
  (samplesFairly_iff ["stake", "swap"] [100, 5100] rfl ⟨100, by decide⟩).mpr (by decide)

/- Two functions that the user gives half of the range each. -/
def heavyScores : Scores :=
  Scores.derive [FunctionIdent.new (ObjectID.ofByte 5) "pool" "stake",
    FunctionIdent.new (ObjectID.ofByte 5) "pool" "swap"] fun _ => some (2 ^ 63)

/- Their sum is zero to the code, which panics. -/
theorem heavyScores_unfair :
    (∃ w ∈ heavyScores.weights, w ≠ 0) ∧
      ¬ SamplesFairly heavyScores.targetFunctions heavyScores.weights := by
  have hweights : heavyScores.weights = [2 ^ 63, 2 ^ 63] := by decide
  refine ⟨⟨2 ^ 63, ?_⟩, ?_⟩
  · rw [hweights]
    decide
  · intro h
    have hfits := fits_of_samplesFairly _ _ h
    rw [hweights] at hfits
    exact absurd hfits (by decide)

end Movy.Fuzz
