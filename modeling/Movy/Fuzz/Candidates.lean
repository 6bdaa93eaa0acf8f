import Mathlib.Data.List.Perm.Basic
import Movy.Fuzz.Construct
import Movy.Lib.MapUnion

/-!
# Candidates for the type arguments (`get_ty_args_candidates`)

Every parameter that is sampled contributes a row of partial maps. The candidates are
the unions of the consistent choices of one map per row, no more and no fewer.
-/

namespace Movy.Fuzz

open Movy.Types MoveAbiSignatureToken

theorem mem_cartesianProduct (rows : List (List TyArgs)) (combo : List TyArgs) :
    combo ∈ cartesianProduct rows ↔ List.Forall₂ (· ∈ ·) combo rows := by
  induction rows generalizing combo with
  | nil => simp [cartesianProduct]
  | cons row rows ih =>
    simp only [cartesianProduct, List.mem_flatMap, List.mem_map, ih]
    constructor
    · intro h
      obtain ⟨a, ha, rest, hrest, rfl⟩ := h
      exact .cons ha hrest
    · intro h
      cases h with
      | cons ha hrest => exact ⟨_, ha, _, hrest, rfl⟩

/- By induction on the combination: each step takes the union with the next map, and
finds a conflict only if there is no union at all. -/
theorem intersectGenerics_eq_some (combo : List TyArgs) (acc r : TyArgs) :
    intersectGenerics acc combo = some r ↔ r.IsUnion (acc :: combo) := by
  induction combo generalizing acc with
  | nil =>
    rw [SortedMap.isUnion_singleton, intersectGenerics, Option.some.injEq]
    exact eq_comm
  | cons tyArgs combo ih =>
    rw [intersectGenerics, Option.bind_eq_some_iff]
    constructor
    · intro h
      obtain ⟨mid, hmid, hrest⟩ := h
      have hunion := (SortedMap.mergeAgree_eq_some acc tyArgs mid).mp hmid
      exact (SortedMap.isUnion_cons_iff hunion combo).mp ((ih mid).mp hrest)
    · intro h
      have hagrees : acc.Agrees tyArgs := h.agrees _ _ (List.mem_cons_self ..) (by simp)
      obtain ⟨mid, hunion⟩ := SortedMap.exists_isUnion [acc, tyArgs] (by simpa using hagrees)
      exact ⟨mid, (SortedMap.mergeAgree_eq_some acc tyArgs mid).mpr hunion,
        (ih mid).mpr ((SortedMap.isUnion_cons_iff hunion combo).mpr h)⟩

/- One map of every row, and any two of them agree on common indices. -/
structure ConsistentChoice (rows : List (List TyArgs)) (combo : List TyArgs) : Prop where
  chosen : List.Forall₂ (· ∈ ·) combo rows
  agree : combo.Pairwise SortedMap.Agrees

theorem mem_getTyArgsCandidates (rows : List (List TyArgs)) (m : TyArgs) :
    m ∈ getTyArgsCandidates rows ↔
      ∃ combo, List.Forall₂ (· ∈ ·) combo rows ∧ m.IsUnion combo := by
  simp only [getTyArgsCandidates, List.mem_filterMap, mem_cartesianProduct,
    intersectGenerics_eq_some, SortedMap.isUnion_empty_cons]

theorem mem_candidates_iff_consistent (rows : List (List TyArgs)) (m : TyArgs) :
    m ∈ getTyArgsCandidates rows ↔ ∃ combo, ConsistentChoice rows combo ∧ m.IsUnion combo := by
  rw [mem_getTyArgsCandidates]
  constructor
  · intro h
    obtain ⟨combo, hchosen, hunion⟩ := h
    exact ⟨combo, ⟨hchosen, List.pairwise_of_forall_mem_list fun a ha b hb =>
      hunion.agrees a b ha hb⟩, hunion⟩
  · intro h
    obtain ⟨combo, hconsistent, hunion⟩ := h
    exact ⟨combo, hconsistent.chosen, hunion⟩

theorem candidates_eq_nil (rows : List (List TyArgs)) :
    getTyArgsCandidates rows = [] ↔ ∀ combo, ¬ ConsistentChoice rows combo := by
  rw [List.eq_nil_iff_forall_not_mem]
  constructor
  · intro h combo hconsistent
    obtain ⟨m, hm⟩ := SortedMap.exists_isUnion combo hconsistent.agree
    exact h m ((mem_candidates_iff_consistent rows m).mpr ⟨combo, hconsistent, hm⟩)
  · intro h m hm
    obtain ⟨combo, hconsistent, _⟩ := (mem_candidates_iff_consistent rows m).mp hm
    exact h combo hconsistent

/- A choice from rows in another order is the same choice in another order. -/
theorem mem_candidates_of_perm (rows rows' : List (List TyArgs)) (hperm : rows.Perm rows')
    (m : TyArgs) (h : m ∈ getTyArgsCandidates rows) : m ∈ getTyArgsCandidates rows' := by
  obtain ⟨combo, hchosen, hunion⟩ := (mem_getTyArgsCandidates rows m).mp h
  obtain ⟨combo', hchosen', hsame⟩ := List.perm_comp_forall₂ hperm.symm hchosen.flip
  exact (mem_getTyArgsCandidates rows' m).mpr ⟨combo', hchosen'.flip, hunion.perm hsame.symm⟩

/- The candidates are exactly the unions of the consistent choices; there is none exactly when
there is no consistent choice, and the order of the rows does not matter. -/
theorem getTyArgsCandidates_exact (rows : List (List TyArgs)) :
    (∀ m, m ∈ getTyArgsCandidates rows ↔
      ∃ combo, ConsistentChoice rows combo ∧ m.IsUnion combo) ∧
    (getTyArgsCandidates rows = [] ↔ ∀ combo, ¬ ConsistentChoice rows combo) ∧
    ∀ rows', rows.Perm rows' → ∀ m, m ∈ getTyArgsCandidates rows ↔ m ∈ getTyArgsCandidates rows' :=
  ⟨mem_candidates_iff_consistent rows, candidates_eq_nil rows, fun rows' hperm m =>
    ⟨mem_candidates_of_perm rows rows' hperm m, mem_candidates_of_perm rows' rows hperm.symm m⟩⟩

def pairRow : List TyArgs :=
  [SortedMap.empty.insert 0 .u64, (SortedMap.empty.insert 0 .bool).insert 1 .u8]

def sameRow : List TyArgs := [(SortedMap.empty.insert 0 .bool).insert 2 .u8]

def pairUnion : TyArgs := ((SortedMap.empty.insert 0 .bool).insert 1 .u8).insert 2 .u8

example : getTyArgsCandidates [pairRow, sameRow] = [pairUnion] := rfl

theorem getTyArgsCandidates_exact_pair : pairUnion ∈ getTyArgsCandidates [sameRow, pairRow] :=
  ((getTyArgsCandidates_exact [pairRow, sameRow]).2.2 [sameRow, pairRow] (List.Perm.swap _ _ _)
    pairUnion).mp (List.mem_singleton_self pairUnion)

end Movy.Fuzz
