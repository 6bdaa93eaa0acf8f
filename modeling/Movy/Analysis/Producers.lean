import Movy.Analysis.TypeGraph
import Movy.Types.Convert

/-!
# Producers that can feed a parameter

The type graph looks producers up without references, and with the roles of consumer
and producer exchanged. `append_function` then compares the parameter as it is with
the results as they are. Both agree on everything but the references.
-/

namespace Movy.Analysis

open Movy.Types Movy.Fuzz MoveAbiSignatureToken

def isTypeParameter : MoveAbiSignatureToken → Bool
  | .typeParameter _ _ => true
  | _ => false

/- Whether the references of the producer's type `r` go with those of `c`, where both
are the same type otherwise. A bare type parameter takes the type that is referred to,
but not another type parameter. -/
def passes : MoveAbiSignatureToken → MoveAbiSignatureToken → Bool
  | .reference _, .reference _ => true
  | .reference _, .mutableReference _ => true
  | .mutableReference _, .mutableReference _ => true
  | .mutableReference c, .reference r => isTypeParameter c && !isTypeParameter r
  | .reference c, r => !(isTypeParameter c && isTypeParameter r)
  | .mutableReference c, r => !(isTypeParameter c && isTypeParameter r)
  | c, .reference r => isTypeParameter c && !isTypeParameter r
  | c, .mutableReference r => isTypeParameter c && !isTypeParameter r
  | _, _ => true

theorem matches_symm (c p : MoveAbiSignatureToken) (hc : RefFree c) (hp : RefFree p) :
    (c.partialExtractTyArgs p).isSome = true ↔ (p.partialExtractTyArgs c).isSome = true := by
  constructor
  · intro h
    obtain ⟨r, hr⟩ := Option.isSome_iff_exists.mp h
    rw [partialExtractTyArgs_symm c p r hc hp hr]
    rfl
  · intro h
    obtain ⟨r, hr⟩ := Option.isSome_iff_exists.mp h
    rw [partialExtractTyArgs_symm p c r hp hc hr]
    rfl

theorem not_typeParameter (ty : MoveAbiSignatureToken) (h : isTypeParameter ty = false) (i : U16)
    (a : MoveAbility) : ty ≠ .typeParameter i a := by
  rintro rfl
  cases h

theorem param_matches_ref (i : U16) (a : MoveAbility) (p q : MoveAbiSignatureToken)
    (hq : isTypeParameter q = false) (hsubst : q.subst SortedMap.empty = p.subst SortedMap.empty) :
    (partialExtractTyArgs (.typeParameter i a) q).isSome = true ↔
      (p.partialExtractTyArgs (.typeParameter i a)).isSome = true ∧ isTypeParameter p = false := by
  rw [partialExtract_left_param q (not_typeParameter q hq), hsubst, Option.isSome_map]
  cases hp : isTypeParameter p with
  | true =>
    cases p with
    | typeParameter j b => simp [subst, SortedMap.get?_empty]
    | _ => cases hp
  | false =>
    rw [partialExtract_right_param p (not_typeParameter p hp), Option.isSome_map]
    simp

theorem value_matches_ref (c p : MoveAbiSignatureToken) (hc : RefFree c)
    (hparam : isTypeParameter c = false) :
    c.partialExtractTyArgs (.reference p) = none ∧
      c.partialExtractTyArgs (.mutableReference p) = none := by
  cases c with
  | typeParameter i a => cases hparam
  | reference c => exact hc.elim
  | mutableReference c => exact hc.elim
  | _ => simp [partialExtractTyArgs]

theorem ref_matches_param (c q : MoveAbiSignatureToken) (hq : isTypeParameter q = false)
    (hsubst : q.subst SortedMap.empty = c.subst SortedMap.empty) (j : U16) (b : MoveAbility) :
    (q.partialExtractTyArgs (.typeParameter j b)).isSome = true ↔
      (partialExtractTyArgs (.typeParameter j b) c).isSome = true ∧ isTypeParameter c = false := by
  rw [partialExtract_right_param q (not_typeParameter q hq), hsubst, Option.isSome_map]
  cases hc : isTypeParameter c with
  | true =>
    cases c with
    | typeParameter i a => simp [subst, SortedMap.get?_empty]
    | _ => cases hc
  | false =>
    rw [partialExtract_left_param c (not_typeParameter c hc), Option.isSome_map]
    simp

theorem ref_matches_value (c p : MoveAbiSignatureToken) (hp : RefFree p)
    (hparam : isTypeParameter p = false) :
    partialExtractTyArgs (.reference c) p = c.partialExtractTyArgs p ∧
      partialExtractTyArgs (.mutableReference c) p = c.partialExtractTyArgs p := by
  cases p with
  | typeParameter i a => cases hparam
  | reference p => exact hp.elim
  | mutableReference p => exact hp.elim
  | _ => simp [partialExtractTyArgs]

theorem bare_value (ty : MoveAbiSignatureToken) (h : RefFree ty) : bare ty = ty := by
  cases ty with
  | reference p => exact h.elim
  | mutableReference p => exact h.elim
  | _ => rfl

theorem passes_values (c r : MoveAbiSignatureToken) (hc : RefFree c) (hr : RefFree r) :
    passes c r = true := by
  cases c with
  | reference p => exact hc.elim
  | mutableReference p => exact hc.elim
  | _ =>
    cases r with
    | reference p => exact hr.elim
    | mutableReference p => exact hr.elim
    | _ => rfl

theorem passes_value_ref (c p : MoveAbiSignatureToken) (hc : RefFree c) :
    passes c (.reference p) = (isTypeParameter c && !isTypeParameter p) ∧
      passes c (.mutableReference p) = (isTypeParameter c && !isTypeParameter p) := by
  cases c with
  | reference p => exact hc.elim
  | mutableReference p => exact hc.elim
  | _ => exact ⟨rfl, rfl⟩

theorem passes_ref_value (c r : MoveAbiSignatureToken) (hr : RefFree r) :
    passes (.reference c) r = !(isTypeParameter c && isTypeParameter r) ∧
      passes (.mutableReference c) r = !(isTypeParameter c && isTypeParameter r) := by
  cases r with
  | reference p => exact hr.elim
  | mutableReference p => exact hr.elim
  | _ => exact ⟨rfl, rfl⟩

/- A value against what is, or stands for, a reference to `p`. -/
theorem value_matches_iff (c p q : MoveAbiSignatureToken) (hc : RefFree c)
    (hq : q = .reference p ∨ q = .mutableReference p) :
    (c.partialExtractTyArgs q).isSome = true ↔ (p.partialExtractTyArgs c).isSome = true ∧
      (isTypeParameter c && !isTypeParameter p) = true := by
  cases hparam : isTypeParameter c with
  | true =>
    cases c with
    | typeParameter i a =>
      rcases hq with rfl | rfl
      · simp [param_matches_ref i a p (.reference p) rfl rfl]
      · simp [param_matches_ref i a p (.mutableReference p) rfl rfl]
    | _ => cases hparam
  | false =>
    have hnone := value_matches_ref c p hc hparam
    rcases hq with rfl | rfl
    · simp [hnone.1]
    · simp [hnone.2]

/- A reference to `c` against a value. -/
theorem ref_matches_iff (c q r : MoveAbiSignatureToken) (hc : RefFree c) (hr : RefFree r)
    (hq : q = .reference c ∨ q = .mutableReference c) :
    (q.partialExtractTyArgs r).isSome = true ↔ (r.partialExtractTyArgs c).isSome = true ∧
      (!(isTypeParameter c && isTypeParameter r)) = true := by
  cases hparam : isTypeParameter r with
  | true =>
    cases r with
    | typeParameter j b =>
      rcases hq with rfl | rfl
      · simp [ref_matches_param c (.reference c) rfl rfl j b]
      · simp [ref_matches_param c (.mutableReference c) rfl rfl j b]
    | _ => cases hparam
  | false =>
    have hvalue := ref_matches_value c r hr hparam
    have hsymm := matches_symm c r hc hr
    rcases hq with rfl | rfl
    · simp [hvalue.1, hsymm]
    · simp [hvalue.2, hsymm]

theorem reference_cases (ty : MoveAbiSignatureToken) (h : TopRefs ty) :
    (∃ p, ty = .reference p ∧ RefFree p) ∨ (∃ p, ty = .mutableReference p ∧ RefFree p) ∨
      RefFree ty := by
  cases ty with
  | reference p => exact .inl ⟨p, rfl, h⟩
  | mutableReference p => exact .inr (.inl ⟨p, rfl, h⟩)
  | _ => exact .inr (.inr h)

/- The comparison of `append_function` in terms of the lookup. -/
theorem matches_iff_passes (c r : MoveAbiSignatureToken) (hc : TopRefs c) (hr : TopRefs r) :
    (c.partialExtractTyArgs r).isSome = true ↔
      ((bare r).partialExtractTyArgs (bare c)).isSome = true ∧ passes c r = true := by
  rcases reference_cases c hc with ⟨c, rfl, hc⟩ | ⟨c, rfl, hc⟩ | hc
  · rcases reference_cases r hr with ⟨r, rfl, hr⟩ | ⟨r, rfl, hr⟩ | hr
    · simpa [partialExtractTyArgs, passes] using matches_symm c r hc hr
    · simpa [partialExtractTyArgs, passes] using matches_symm c r hc hr
    · rw [(passes_ref_value c r hr).1, bare_value r hr]
      exact ref_matches_iff c _ r hc hr (.inl rfl)
  · rcases reference_cases r hr with ⟨r, rfl, hr⟩ | ⟨r, rfl, hr⟩ | hr
    · have hstep : partialExtractTyArgs (.mutableReference c) (.reference r) =
          c.partialExtractTyArgs (.reference r) := by
        simp [partialExtractTyArgs]
      rw [hstep]
      exact value_matches_iff c r _ hc (.inl rfl)
    · simpa [partialExtractTyArgs, passes] using matches_symm c r hc hr
    · rw [(passes_ref_value c r hr).2, bare_value r hr]
      exact ref_matches_iff c _ r hc hr (.inr rfl)
  · rw [bare_value c hc]
    rcases reference_cases r hr with ⟨r, rfl, hr⟩ | ⟨r, rfl, hr⟩ | hr
    · rw [(passes_value_ref c r hc).1]
      exact value_matches_iff c r _ hc (.inl rfl)
    · rw [(passes_value_ref c r hc).2]
      exact value_matches_iff c r _ hc (.inr rfl)
    · rw [bare_value r hr, passes_values c r hc hr, and_iff_left rfl]
      exact matches_symm c r hc hr

/-! ### The graph of some packages -/

/- A function that may be returned at all. -/
def Eligible (g : MoveTypeGraph) (excluded : Option (MoveAddress × String × String))
    (mf : MoveModuleId × MoveFunctionAbi) : Prop :=
  mf ∈ g.functions ∧ MoveTypeGraph.offered true excluded mf.1 mf.2 = true

theorem firstMatch_isSome (c : MoveAbiSignatureToken) (rts : List MoveAbiSignatureToken) (i : ℕ) :
    (firstMatch c i rts).isSome = true ↔ ∃ rt ∈ rts, (c.partialExtractTyArgs rt).isSome = true := by
  induction rts generalizing i with
  | nil => simp [firstMatch]
  | cons rt rts ih =>
    rw [firstMatch, List.exists_mem_cons_iff]
    cases h : c.partialExtractTyArgs rt with
    | some r => simp
    | none => simp [ih]

theorem findProducers_iff (abis : List MovePackageAbi) (c : MoveAbiSignatureToken)
    (excluded : Option (MoveAddress × String × String)) (mf : MoveModuleId × MoveFunctionAbi) :
    mf ∈ (MoveTypeGraph.ofPackages abis).findProducers c true excluded ↔
      Eligible (MoveTypeGraph.ofPackages abis) excluded mf ∧
        ∃ rt ∈ mf.2.returnParamters, ((bare rt).partialExtractTyArgs (bare c)).isSome = true := by
  rw [MoveTypeGraph.mem_findProducers _ (MoveTypeGraph.ofPackages_indexed abis), Eligible,
    and_assoc]

/- What is looked up without references may lack a result to be passed, but nothing
that could be passed is missed. -/
theorem findProducers_usable (abis : List MovePackageAbi) (c : MoveAbiSignatureToken)
    (hc : TopRefs c) (excluded : Option (MoveAddress × String × String))
    (mf : MoveModuleId × MoveFunctionAbi) (hrets : ∀ rt ∈ mf.2.returnParamters, TopRefs rt) :
    (mf ∈ (MoveTypeGraph.ofPackages abis).findProducers c true excluded ↔
        Eligible (MoveTypeGraph.ofPackages abis) excluded mf ∧
          ∃ rt ∈ mf.2.returnParamters, ((bare rt).partialExtractTyArgs (bare c)).isSome = true) ∧
      (Eligible (MoveTypeGraph.ofPackages abis) excluded mf →
        (∃ rt ∈ mf.2.returnParamters, (c.partialExtractTyArgs rt).isSome = true) →
          mf ∈ (MoveTypeGraph.ofPackages abis).findProducers c true excluded) ∧
      (mf ∈ (MoveTypeGraph.ofPackages abis).findProducers c true excluded →
        (firstMatch c 0 mf.2.returnParamters = none ↔ ∀ rt ∈ mf.2.returnParamters,
          ((bare rt).partialExtractTyArgs (bare c)).isSome = true → passes c rt = false)) := by
  refine ⟨findProducers_iff abis c excluded mf, ?_, ?_⟩
  · rintro heligible ⟨rt, hrt, hmatch⟩
    have hlookup := ((matches_iff_passes c rt hc (hrets rt hrt)).mp hmatch).1
    exact (findProducers_iff abis c excluded mf).mpr ⟨heligible, rt, hrt, hlookup⟩
  · intro _
    have hfirst := firstMatch_isSome c mf.2.returnParamters 0
    constructor
    · intro hnone rt hrt hlookup
      by_contra hpasses
      have hmatch := (matches_iff_passes c rt hc (hrets rt hrt)).mpr
        ⟨hlookup, Bool.eq_true_of_not_eq_false hpasses⟩
      rw [hnone] at hfirst
      exact absurd (hfirst.mpr ⟨rt, hrt, hmatch⟩) (by decide)
    · intro hfail
      cases hsome : firstMatch c 0 mf.2.returnParamters with
      | none => rfl
      | some r =>
        rw [hsome] at hfirst
        obtain ⟨rt, hrt, hmatch⟩ := hfirst.mp rfl
        obtain ⟨hlookup, hpasses⟩ := (matches_iff_passes c rt hc (hrets rt hrt)).mp hmatch
        rw [hfail rt hrt hlookup] at hpasses
        cases hpasses

def vaultId : MoveModuleId := ⟨Store.ObjectID.ofByte 7, "vault"⟩

def itemToken : MoveAbiSignatureToken := .struct ⟨vaultId, "Item", MoveAbility.empty, []⟩

def borrowAbi : MoveFunctionAbi where
  name := "borrow"
  parameters := []
  returnParamters := [.reference itemToken]
  typeParameters := []
  visibility := .public_

def vaultPackage : MovePackageAbi := ⟨[⟨vaultId, [borrowAbi], []⟩]⟩

theorem vaultPackage_producers :
    (MoveTypeGraph.ofPackages [vaultPackage]).findProducers itemToken true none =
      [(vaultId, borrowAbi)] := rfl

theorem findProducers_usable_borrow :
    (vaultId, borrowAbi) ∈
        (MoveTypeGraph.ofPackages [vaultPackage]).findProducers (.reference itemToken) true none :=
  (findProducers_usable [vaultPackage] (.reference itemToken) trivial none (vaultId, borrowAbi)
    (List.forall_mem_singleton.mpr trivial)).2.1
    ⟨List.mem_singleton_self _, rfl⟩ ⟨_, List.mem_singleton_self _, rfl⟩

/- The item itself cannot be had from the vault. -/
theorem borrow_not_usable :
    ¬ ((vaultId, borrowAbi) ∈
        (MoveTypeGraph.ofPackages [vaultPackage]).findProducers itemToken true none ↔
      ∃ rt ∈ borrowAbi.returnParamters, (itemToken.partialExtractTyArgs rt).isSome = true) := by
  rw [vaultPackage_producers]
  intro h
  obtain ⟨rt, hrt, hmatch⟩ := h.mp (List.mem_singleton_self _)
  rw [List.mem_singleton.mp hrt] at hmatch
  cases hmatch

end Movy.Analysis
