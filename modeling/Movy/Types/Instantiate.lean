import Movy.Types.Unify

/-!
# Instantiating in steps

Substituting some of the type arguments first, with `partial_subst`, and the
others later comes to the same as substituting all of them at once. What a
comparison binds are type parameters that occur.
-/

namespace Movy.Types

namespace MoveAbiSignatureToken

/-! ### Occurring type parameters -/

theorem substList_congr (ts : List MoveAbiSignatureToken) (s s' : TyArgs)
    (ih : ∀ t ∈ ts, (∀ i, t.containsTypeParam i = true → s.get? i = s'.get? i) →
      t.subst s = t.subst s')
    (h : ∀ i, anyContainsTypeParam i ts = true → s.get? i = s'.get? i) :
    substList s ts = substList s' ts := by
  induction ts with
  | nil => rfl
  | cons t ts ihl =>
    have hhead := ih t (List.mem_cons_self ..) fun i hi => h i (by
      rw [anyContainsTypeParam, hi, Bool.true_or])
    have htail := ihl (fun a ha => ih a (List.mem_cons_of_mem _ ha)) fun i hi => h i (by
      rw [anyContainsTypeParam, hi, Bool.or_true])
    simp only [substList, hhead, htail]

theorem subst_congr (t : MoveAbiSignatureToken) (s s' : TyArgs)
    (h : ∀ i, t.containsTypeParam i = true → s.get? i = s'.get? i) : t.subst s = t.subst s' := by
  induction t using MoveAbiSignatureToken.induct with
  | hvector t ih => simp only [subst, ih h]
  | hinst hd ts ih => simp only [subst, substList_congr ts s s' ih h]
  | hparam i a => exact h i (by simp [containsTypeParam])
  | href t ih => exact ih h
  | hmut t ih => exact ih h
  | _ => rfl

theorem substList_bound (ts : List MoveAbiSignatureToken) (s : TyArgs) (i : U16)
    (ih : ∀ t ∈ ts, ∀ g, t.subst s = some g → t.containsTypeParam i = true →
      ∃ ty, s.get? i = some ty)
    (gs : List MoveTypeTag) (h : substList s ts = some gs)
    (hi : anyContainsTypeParam i ts = true) : ∃ ty, s.get? i = some ty := by
  induction ts generalizing gs with
  | nil => cases hi
  | cons t ts ihl =>
    obtain ⟨g, hg, h⟩ := Option.bind_eq_some_iff.mp h
    obtain ⟨gs', hgs', _⟩ := Option.map_eq_some_iff.mp h
    rw [anyContainsTypeParam, Bool.or_eq_true] at hi
    rcases hi with hi | hi
    · exact ih t (List.mem_cons_self ..) g hg hi
    · exact ihl (fun a ha => ih a (List.mem_cons_of_mem _ ha)) gs' hgs' hi

/-- An instance has all type parameters bound. -/
theorem subst_bound (t : MoveAbiSignatureToken) (s : TyArgs) (g : MoveTypeTag) (i : U16)
    (h : t.subst s = some g) (hi : t.containsTypeParam i = true) : ∃ ty, s.get? i = some ty := by
  induction t using MoveAbiSignatureToken.induct generalizing g with
  | hvector t ih =>
    obtain ⟨g', hg', _⟩ := Option.map_eq_some_iff.mp h
    exact ih g' hg' hi
  | hinst hd ts ih =>
    obtain ⟨gs, hgs, _⟩ := Option.map_eq_some_iff.mp h
    exact substList_bound ts s i ih gs hgs hi
  | hparam j a =>
    obtain rfl : j = i := of_decide_eq_true hi
    exact ⟨g, h⟩
  | href t ih => exact ih g h hi
  | hmut t ih => exact ih g h hi
  | _ => cases hi

/-- It is enough that the occurring type parameters are extended. -/
theorem subst_of_extends (t : MoveAbiSignatureToken) (s s' : TyArgs) (g : MoveTypeTag)
    (h : t.subst s = some g)
    (hext : ∀ i ty, t.containsTypeParam i = true → s.get? i = some ty → s'.get? i = some ty) :
    t.subst s' = some g := by
  rw [← h]
  apply subst_congr
  intro i hi
  obtain ⟨ty, hty⟩ := subst_bound t s g i h hi
  rw [hty, hext i ty hi hty]

/-! ### `partial_subst` -/

theorem fromTypeTagLossyList_subst (gs : List MoveTypeTag) (s : TyArgs)
    (ih : ∀ g ∈ gs, (fromTypeTagLossy g).subst s = some g) :
    substList s (fromTypeTagLossyList gs) = some gs := by
  induction gs with
  | nil => rfl
  | cons g gs ihl =>
    have hhead := ih g (List.mem_cons_self ..)
    have htail := ihl fun a ha => ih a (List.mem_cons_of_mem _ ha)
    simp only [fromTypeTagLossyList, substList, hhead, htail, Option.bind_some, Option.map_some]

/-- What is lost does not matter here. -/
theorem fromTypeTagLossy_subst (g : MoveTypeTag) (s : TyArgs) :
    (fromTypeTagLossy g).subst s = some g := by
  induction g using MoveTypeTag.induct with
  | hvector g ih => simp only [fromTypeTagLossy, subst, ih, Option.map_some]
  | hstruct a m n tys ih =>
    simp only [fromTypeTagLossy]
    split_ifs with hempty
    · rw [List.isEmpty_iff.mp hempty]
      rfl
    · simp only [subst, fromTypeTagLossyList_subst tys s ih, Option.map_some]
  | _ => rfl

theorem fromTypeTagLossy_closed (g : MoveTypeTag) (i : U16) :
    (fromTypeTagLossy g).containsTypeParam i = false := by
  cases h : (fromTypeTagLossy g).containsTypeParam i with
  | false => rfl
  | true =>
    obtain ⟨ty, hty⟩ := subst_bound _ SortedMap.empty g i (fromTypeTagLossy_subst g _) h
    cases hty

theorem substList_partialSubst (ts : List MoveAbiSignatureToken) (f s : TyArgs)
    (ih : ∀ t ∈ ts, (t.partialSubst f).subst s = t.subst (s.extend f)) :
    substList s (partialSubstList f ts) = substList (s.extend f) ts := by
  induction ts with
  | nil => rfl
  | cons t ts ihl =>
    have hhead := ih t (List.mem_cons_self ..)
    have htail := ihl fun a ha => ih a (List.mem_cons_of_mem _ ha)
    simp only [partialSubstList, substList, hhead, htail]

theorem subst_partialSubst (t : MoveAbiSignatureToken) (f s : TyArgs) :
    (t.partialSubst f).subst s = t.subst (s.extend f) := by
  induction t using MoveAbiSignatureToken.induct with
  | hvector t ih => simp only [partialSubst, subst, ih]
  | hinst hd ts ih => simp only [partialSubst, subst, substList_partialSubst ts f s ih]
  | hparam i a =>
    simp only [partialSubst, subst, SortedMap.get?_extend]
    cases hf : f.get? i with
    | none => rfl
    | some g => exact fromTypeTagLossy_subst g s
  | href t ih => exact ih
  | hmut t ih => exact ih
  | _ => rfl

theorem anyContains_partialSubst (ts : List MoveAbiSignatureToken) (f : TyArgs) (i : U16)
    (ih : ∀ t ∈ ts, (t.partialSubst f).containsTypeParam i = true →
      t.containsTypeParam i = true ∧ f.get? i = none)
    (h : anyContainsTypeParam i (partialSubstList f ts) = true) :
    anyContainsTypeParam i ts = true ∧ f.get? i = none := by
  induction ts with
  | nil => cases h
  | cons t ts ihl =>
    rw [partialSubstList, anyContainsTypeParam, Bool.or_eq_true] at h
    rw [anyContainsTypeParam, Bool.or_eq_true]
    rcases h with h | h
    · obtain ⟨ht, hf⟩ := ih t (List.mem_cons_self ..) h
      exact ⟨.inl ht, hf⟩
    · obtain ⟨hts, hf⟩ := ihl (fun a ha => ih a (List.mem_cons_of_mem _ ha)) h
      exact ⟨.inr hts, hf⟩

/-- What is substituted does not occur any more. -/
theorem contains_partialSubst (t : MoveAbiSignatureToken) (f : TyArgs) (i : U16)
    (h : (t.partialSubst f).containsTypeParam i = true) :
    t.containsTypeParam i = true ∧ f.get? i = none := by
  induction t using MoveAbiSignatureToken.induct with
  | hvector t ih => exact ih h
  | hinst hd ts ih => exact anyContains_partialSubst ts f i ih h
  | hparam j a =>
    simp only [partialSubst] at h
    cases hf : f.get? j with
    | none =>
      rw [hf] at h
      obtain rfl : j = i := of_decide_eq_true h
      exact ⟨h, hf⟩
    | some g =>
      rw [hf, fromTypeTagLossy_closed] at h
      cases h
  | href t ih => exact ih h
  | hmut t ih => exact ih h
  | _ => cases h

/-! ### What a comparison binds -/

theorem get?_singleton (i j : U16) (g ty : MoveTypeTag)
    (h : ((SortedMap.empty : TyArgs).insert i g).get? j = some ty) : i = j := by
  rw [SortedMap.get?_insert] at h
  split_ifs at h with hij
  · exact hij.symm
  · cases h

theorem extractTyArgsLoop_contains (ts : List MoveAbiSignatureToken) (i : U16)
    (ih : ∀ t ∈ ts, ∀ g m, t.extractTyArgs g = some m → ∀ ty, m.get? i = some ty →
      t.containsTypeParam i = true)
    (gs : List MoveTypeTag) (acc m : TyArgs) (h : extractTyArgsLoop acc ts gs = some m)
    (ty : MoveTypeTag) (hi : m.get? i = some ty) :
    acc.get? i = some ty ∨ anyContainsTypeParam i ts = true := by
  induction ts generalizing gs acc with
  | nil =>
    rw [extractTyArgsLoop] at h
    · rw [Option.some.inj h]
      exact .inl hi
    · simp
  | cons t ts ihl =>
    cases gs with
    | nil =>
      rw [extractTyArgsLoop] at h
      · rw [Option.some.inj h]
        exact .inl hi
      · simp
    | cons g gs =>
      simp only [extractTyArgsLoop] at h
      cases hsub : t.extractTyArgs g with
      | none => simp [hsub] at h
      | some sub =>
        simp only [hsub] at h
        obtain ⟨merged, hmerged, hrest⟩ := Option.bind_eq_some_iff.mp h
        rw [anyContainsTypeParam, Bool.or_eq_true]
        rcases ihl (fun a ha => ih a (List.mem_cons_of_mem _ ha)) gs merged hrest with hacc | hts
        · rcases (SortedMap.mergeAgree_spec sub.entries acc merged hmerged).2.2 i ty hacc with
            hacc | hmem
          · exact .inl hacc
          · exact .inr (.inl (ih t (List.mem_cons_self ..) g sub hsub ty
              ((SortedMap.mem_entries sub i ty).mp hmem)))
        · exact .inr (.inr hts)

theorem extractTyArgs_contains (t : MoveAbiSignatureToken) (g : MoveTypeTag) (m : TyArgs)
    (h : t.extractTyArgs g = some m) (i : U16) (ty : MoveTypeTag) (hi : m.get? i = some ty) :
    t.containsTypeParam i = true := by
  induction t using MoveAbiSignatureToken.induct generalizing g m ty with
  | hvector t ih =>
    cases g with
    | vector g => exact ih g m h ty hi
    | _ => simp [extractTyArgs] at h
  | hstruct hd =>
    cases g with
    | struct a n k tys =>
      simp only [extractTyArgs] at h
      split_ifs at h
      rw [← Option.some.inj h] at hi
      cases hi
    | _ => simp [extractTyArgs] at h
  | hinst hd ts ih =>
    cases g with
    | struct a n k tys =>
      simp only [extractTyArgs] at h
      split_ifs at h
      rcases extractTyArgsLoop_contains ts i ih tys SortedMap.empty m h ty hi with hempty | hts
      · cases hempty
      · exact hts
    | _ => simp [extractTyArgs] at h
  | hparam j a =>
    simp only [extractTyArgs] at h
    rw [← Option.some.inj h] at hi
    exact decide_eq_true (get?_singleton j i g ty hi)
  | href t ih =>
    simp only [extractTyArgs] at h
    exact ih g m h ty hi
  | hmut t ih =>
    simp only [extractTyArgs] at h
    exact ih g m h ty hi
  | _ =>
    cases g <;> simp only [extractTyArgs, reduceCtorEq] at h
    rw [← Option.some.inj h] at hi
    cases hi

/-- Only occurring type parameters are bound and linked. -/
structure BindsOccurring (c p : MoveAbiSignatureToken) (r : PartialTyArgs) : Prop where
  left : ∀ i ty, r.1.get? i = some ty → c.containsTypeParam i = true
  right : ∀ j ty, r.2.1.get? j = some ty → p.containsTypeParam j = true
  linked : ∀ ij ∈ r.2.2, c.containsTypeParam ij.1 = true ∧ p.containsTypeParam ij.2 = true

theorem bindsOccurring_nil (c p : MoveAbiSignatureToken) :
    BindsOccurring c p (SortedMap.empty, SortedMap.empty, []) :=
  ⟨fun _ _ h => (by cases h), fun _ _ h => (by cases h), fun _ h => (by cases h)⟩

theorem right_param_binds (c : MoveAbiSignatureToken) (hc : ∀ i a, c ≠ .typeParameter i a) (j : U16)
    (b : MoveAbility) (r : PartialTyArgs) (h : c.partialExtractTyArgs (.typeParameter j b) = some r) :
    BindsOccurring c (.typeParameter j b) r := by
  rw [partialExtract_right_param c hc] at h
  obtain ⟨ty, _, rfl⟩ := Option.map_eq_some_iff.mp h
  refine ⟨fun _ _ h => (by cases h), ?_, fun _ h => (by cases h)⟩
  intro i ty' hi
  exact decide_eq_true (get?_singleton j i ty ty' hi)

/-- The same for the accumulated result of the loop. -/
structure LoopBinds (cs ps : List MoveAbiSignatureToken) (acc r : PartialTyArgs) : Prop where
  left : ∀ i ty, r.1.get? i = some ty → acc.1.get? i = some ty ∨ anyContainsTypeParam i cs = true
  right : ∀ j ty, r.2.1.get? j = some ty →
    acc.2.1.get? j = some ty ∨ anyContainsTypeParam j ps = true
  linked : ∀ ij ∈ r.2.2, ij ∈ acc.2.2 ∨
    (anyContainsTypeParam ij.1 cs = true ∧ anyContainsTypeParam ij.2 ps = true)

theorem partialExtractLoop_binds (cs : List MoveAbiSignatureToken)
    (ih : ∀ c ∈ cs, ∀ p r, c.partialExtractTyArgs p = some r → BindsOccurring c p r)
    (ps : List MoveAbiSignatureToken) (acc r : PartialTyArgs)
    (h : partialExtractLoop acc cs ps = some r) : LoopBinds cs ps acc r := by
  induction cs generalizing ps acc with
  | nil =>
    rw [partialExtractLoop] at h
    · rw [Option.some.inj h]
      exact ⟨fun _ _ h => .inl h, fun _ _ h => .inl h, fun _ h => .inl h⟩
    · simp
  | cons c cs ihl =>
    cases ps with
    | nil =>
      rw [partialExtractLoop] at h
      · rw [Option.some.inj h]
        exact ⟨fun _ _ h => .inl h, fun _ _ h => .inl h, fun _ h => .inl h⟩
      · simp
    | cons p ps =>
      obtain ⟨sub, a, b, hsub, ha, hb, hrest⟩ := partialExtractLoop_cons acc r c p cs ps h
      have hhead := ih c (List.mem_cons_self ..) p sub hsub
      have htail := ihl (fun x hx => ih x (List.mem_cons_of_mem _ hx)) ps _ hrest
      have honly := (SortedMap.mergeAgree_spec sub.1.entries acc.1 a ha).2.2
      have honly' := (SortedMap.mergeAgree_spec sub.2.1.entries acc.2.1 b hb).2.2
      constructor
      · intro i ty hi
        rw [anyContainsTypeParam, Bool.or_eq_true]
        rcases htail.left i ty hi with hacc | hcs
        · rcases honly i ty hacc with hacc | hmem
          · exact .inl hacc
          · exact .inr (.inl (hhead.left i ty ((SortedMap.mem_entries sub.1 i ty).mp hmem)))
        · exact .inr (.inr hcs)
      · intro j ty hj
        rw [anyContainsTypeParam, Bool.or_eq_true]
        rcases htail.right j ty hj with hacc | hps
        · rcases honly' j ty hacc with hacc | hmem
          · exact .inl hacc
          · exact .inr (.inl (hhead.right j ty ((SortedMap.mem_entries sub.2.1 j ty).mp hmem)))
        · exact .inr (.inr hps)
      · intro ij hij
        rw [anyContainsTypeParam, anyContainsTypeParam, Bool.or_eq_true, Bool.or_eq_true]
        rcases htail.linked ij hij with hacc | ⟨hcs, hps⟩
        · rcases List.mem_append.mp hacc with hacc | hsub'
          · exact .inl hacc
          · obtain ⟨hc, hp⟩ := hhead.linked ij hsub'
            exact .inr ⟨.inl hc, .inl hp⟩
        · exact .inr ⟨.inr hcs, .inr hps⟩

theorem LoopBinds.instantiations {cs ps : List MoveAbiSignatureToken} {r : PartialTyArgs}
    (h : LoopBinds cs ps (SortedMap.empty, SortedMap.empty, []) r) (hd hd' : MoveStructHandle) :
    BindsOccurring (.structInstantiation hd cs) (.structInstantiation hd' ps) r := by
  refine ⟨?_, ?_, ?_⟩
  · intro i ty hi
    exact (h.left i ty hi).resolve_left fun hempty => (by cases hempty)
  · intro j ty hj
    exact (h.right j ty hj).resolve_left fun hempty => (by cases hempty)
  · intro ij hij
    exact (h.linked ij hij).resolve_left List.not_mem_nil

theorem partialExtractTyArgs_binds (c p : MoveAbiSignatureToken) (r : PartialTyArgs)
    (h : c.partialExtractTyArgs p = some r) : BindsOccurring c p r := by
  induction c using MoveAbiSignatureToken.induct generalizing p r with
  | hparam i a =>
    cases hp : p with
    | typeParameter j b =>
      subst hp
      simp only [partialExtractTyArgs, Option.some.injEq] at h
      rw [← h]
      refine ⟨fun _ _ h => (by cases h), fun _ _ h => (by cases h), ?_⟩
      intro ij hij
      rw [List.mem_singleton.mp hij]
      simp [containsTypeParam]
    | _ =>
      rw [partialExtract_left_param p (by simp [hp])] at h
      obtain ⟨ty, _, rfl⟩ := Option.map_eq_some_iff.mp h
      refine ⟨?_, fun _ _ h => (by cases h), fun _ h => (by cases h)⟩
      intro j ty' hj
      exact decide_eq_true (get?_singleton i j ty ty' hj)
  | hvector c ih =>
    cases p with
    | typeParameter j b => exact right_param_binds _ (by simp) j b r h
    | vector p =>
      simp only [partialExtractTyArgs] at h
      obtain ⟨hl, hr, hlinked⟩ := ih p r h
      exact ⟨hl, hr, hlinked⟩
    | _ => simp [partialExtractTyArgs] at h
  | hstruct hd =>
    cases p with
    | typeParameter j b => exact right_param_binds _ (by simp) j b r h
    | struct hd' =>
      simp only [partialExtractTyArgs] at h
      split_ifs at h
      rw [← Option.some.inj h]
      exact bindsOccurring_nil _ _
    | _ => simp [partialExtractTyArgs] at h
  | hinst hd ts ih =>
    cases p with
    | typeParameter j b => exact right_param_binds _ (by simp) j b r h
    | structInstantiation hd' ts' =>
      simp only [partialExtractTyArgs] at h
      split_ifs at h
      exact (partialExtractLoop_binds ts ih ts' _ r h).instantiations hd hd'
    | _ => simp [partialExtractTyArgs] at h
  | href c ih =>
    cases p with
    | typeParameter j b => exact right_param_binds _ (by simp) j b r h
    | reference p | mutableReference p =>
      simp only [partialExtractTyArgs] at h
      obtain ⟨hl, hr, hlinked⟩ := ih p r h
      exact ⟨hl, hr, hlinked⟩
    | _ =>
      simp only [partialExtractTyArgs] at h
      obtain ⟨hl, hr, hlinked⟩ := ih _ r h
      exact ⟨hl, hr, hlinked⟩
  | hmut c ih =>
    cases p with
    | typeParameter j b => exact right_param_binds _ (by simp) j b r h
    | mutableReference p =>
      simp only [partialExtractTyArgs] at h
      obtain ⟨hl, hr, hlinked⟩ := ih p r h
      exact ⟨hl, hr, hlinked⟩
    | _ =>
      simp only [partialExtractTyArgs] at h
      obtain ⟨hl, hr, hlinked⟩ := ih _ r h
      exact ⟨hl, hr, hlinked⟩
  | _ =>
    cases p with
    | typeParameter j b => exact right_param_binds _ (by simp) j b r h
    | _ =>
      simp only [partialExtractTyArgs] at h
      split_ifs at h
      rw [← Option.some.inj h]
      exact bindsOccurring_nil _ _

/-! ### Tokens that can be instantiated -/

mutual

/-- Type parameters below `n` only, and no struct that lacks its type arguments. -/
def instantiable (n : ℕ) : MoveAbiSignatureToken → Bool
  | .vector inner => instantiable n inner
  | .reference inner => instantiable n inner
  | .mutableReference inner => instantiable n inner
  | .struct inner => inner.typeParameters.isEmpty
  | .structInstantiation _ typeParams => allInstantiable n typeParams
  | .typeParameter index _ => index.val < n
  | _ => true

def allInstantiable (n : ℕ) : List MoveAbiSignatureToken → Bool
  | [] => true
  | ty :: rest => instantiable n ty && allInstantiable n rest

end

theorem allInstantiable_mem (n : ℕ) (ts : List MoveAbiSignatureToken)
    (h : allInstantiable n ts = true) : ∀ t ∈ ts, t.instantiable n = true := by
  induction ts with
  | nil => exact fun t ht => absurd ht List.not_mem_nil
  | cons t ts ih =>
    rw [allInstantiable, Bool.and_eq_true] at h
    exact List.forall_mem_cons.mpr ⟨h.1, ih h.2⟩

theorem anyContainsTypeParam_mem (i : U16) (ts : List MoveAbiSignatureToken)
    (h : anyContainsTypeParam i ts = true) : ∃ t ∈ ts, t.containsTypeParam i = true := by
  induction ts with
  | nil => cases h
  | cons t ts ih =>
    rw [anyContainsTypeParam, Bool.or_eq_true] at h
    rcases h with h | h
    · exact ⟨t, List.mem_cons_self .., h⟩
    · obtain ⟨t', ht', h⟩ := ih h
      exact ⟨t', List.mem_cons_of_mem _ ht', h⟩

theorem instantiable_lt (t : MoveAbiSignatureToken) (n : ℕ) (h : t.instantiable n = true) (i : U16)
    (hi : t.containsTypeParam i = true) : i.val < n := by
  induction t using MoveAbiSignatureToken.induct with
  | hvector t ih => exact ih h hi
  | hinst hd ts ih =>
    obtain ⟨t, ht, hi⟩ := anyContainsTypeParam_mem i ts hi
    exact ih t ht (allInstantiable_mem n ts h t ht) hi
  | hparam j a =>
    obtain rfl : j = i := of_decide_eq_true hi
    exact of_decide_eq_true h
  | href t ih => exact ih h hi
  | hmut t ih => exact ih h hi
  | _ => cases hi

theorem instantiable_substList (ts : List MoveAbiSignatureToken) (s : TyArgs)
    (h : ∀ t ∈ ts, ∃ g, t.subst s = some g) : ∃ gs, substList s ts = some gs := by
  induction ts with
  | nil => exact ⟨[], rfl⟩
  | cons t ts ih =>
    obtain ⟨g, hg⟩ := h t (List.mem_cons_self ..)
    obtain ⟨gs, hgs⟩ := ih fun a ha => h a (List.mem_cons_of_mem _ ha)
    exact ⟨g :: gs, by rw [substList, hg, hgs]; rfl⟩

theorem instantiable_subst (t : MoveAbiSignatureToken) (n : ℕ) (h : t.instantiable n = true)
    (s : TyArgs) (hs : ∀ i : U16, i.val < n → ∃ ty, s.get? i = some ty) :
    ∃ g, t.subst s = some g := by
  induction t using MoveAbiSignatureToken.induct with
  | hvector t ih =>
    obtain ⟨g, hg⟩ := ih h
    exact ⟨.vector g, by rw [subst, hg]; rfl⟩
  | hstruct hd =>
    have hempty : hd.typeParameters.isEmpty = true := h
    exact ⟨_, by rw [subst, if_pos hempty]⟩
  | hinst hd ts ih =>
    obtain ⟨gs, hgs⟩ := instantiable_substList ts s fun t ht =>
      ih t ht (allInstantiable_mem n ts h t ht)
    exact ⟨_, by rw [subst, hgs]; rfl⟩
  | hparam i a => exact hs i (of_decide_eq_true h)
  | href t ih => exact ih h
  | hmut t ih => exact ih h
  | _ => exact ⟨_, rfl⟩

theorem toTypeTagList_subst (ts : List MoveAbiSignatureToken) (s : TyArgs)
    (ih : ∀ t ∈ ts, ∀ g, t.toTypeTag = some g → t.subst s = some g) (gs : List MoveTypeTag)
    (h : toTypeTagList ts = some gs) : substList s ts = some gs := by
  induction ts generalizing gs with
  | nil => exact h
  | cons t ts ihl =>
    obtain ⟨g, hg, h⟩ := Option.bind_eq_some_iff.mp h
    obtain ⟨gs', hgs', rfl⟩ := Option.map_eq_some_iff.mp h
    have hhead := ih t (List.mem_cons_self ..) g hg
    have htail := ihl (fun a ha => ih a (List.mem_cons_of_mem _ ha)) gs' hgs'
    simp only [substList, hhead, htail, Option.bind_some, Option.map_some]

/-- A token that is a type has no type parameters to substitute. -/
theorem toTypeTag_subst (t : MoveAbiSignatureToken) (g : MoveTypeTag) (h : t.toTypeTag = some g)
    (s : TyArgs) : t.subst s = some g := by
  induction t using MoveAbiSignatureToken.induct generalizing g with
  | hvector t ih =>
    obtain ⟨g', hg', rfl⟩ := Option.map_eq_some_iff.mp h
    rw [subst, ih g' hg', Option.map_some]
  | hinst hd ts ih =>
    simp only [toTypeTag] at h
    split_ifs at h
    obtain ⟨gs, hgs, rfl⟩ := Option.map_eq_some_iff.mp h
    rw [subst, toTypeTagList_subst ts s ih gs hgs, Option.map_some]
  | hstruct | hparam | href | hmut => cases h
  | _ => exact h

end MoveAbiSignatureToken

end Movy.Types
