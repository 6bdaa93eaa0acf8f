import Movy.Types.Abi

/-!
# Matching a token against a type

`extract_ty_args` reads the type arguments off a concrete type. It is a
one-sided matching: it succeeds exactly on the instances of the token, and
returns the type arguments that occur in it.
-/

namespace Movy.Types

namespace MoveAbiSignatureToken

mutual

def extractTyArgs : MoveAbiSignatureToken → MoveTypeTag → Option TyArgs
  | .vector inner, .vector innerTy => extractTyArgs inner innerTy
  | .structInstantiation inner typeArgs, .struct addr module name tys =>
    if inner.moduleId.moduleAddress ≠ addr ∨ inner.moduleId.moduleName ≠ module ∨
        inner.structName ≠ name then none
    else extractTyArgsLoop SortedMap.empty typeArgs tys
  | .struct inner, .struct addr module name _ =>
    if inner.moduleId.moduleAddress ≠ addr ∨ inner.moduleId.moduleName ≠ module ∨
        inner.structName ≠ name then none
    else if !inner.typeParameters.isEmpty then none
    else some SortedMap.empty
  | .reference inner, ty => extractTyArgs inner ty
  | .mutableReference inner, ty => extractTyArgs inner ty
  | .typeParameter index _, ty => some (SortedMap.empty.insert index ty)
  | .bool, .bool | .address, .address | .u8, .u8 | .u16, .u16 | .u32, .u32 | .u64, .u64
  | .u128, .u128 | .u256, .u256 | .signer, .signer => some SortedMap.empty
  | _, _ => none

def extractTyArgsLoop :
    TyArgs → List MoveAbiSignatureToken → List MoveTypeTag → Option TyArgs
  | tyArgs, generic :: generics, ty :: tys =>
    match extractTyArgs generic ty with
    | some subTyArgs =>
      (tyArgs.mergeAgree subTyArgs.entries).bind fun merged => extractTyArgsLoop merged generics tys
    | none => none
  | tyArgs, _, _ => some tyArgs

end

/-! ### Arities -/

/-- How many type arguments each struct takes. -/
abbrev Arity := MoveAddress → String → String → ℕ

mutual

/-- Every struct in the token has the arity that `ar` gives it. -/
def HasArity (ar : Arity) : MoveAbiSignatureToken → Prop
  | .vector inner => HasArity ar inner
  | .reference inner => HasArity ar inner
  | .mutableReference inner => HasArity ar inner
  | .struct h => h.typeParameters.length =
      ar h.moduleId.moduleAddress h.moduleId.moduleName h.structName
  | .structInstantiation h ts => ts.length =
      ar h.moduleId.moduleAddress h.moduleId.moduleName h.structName ∧ HaveArity ar ts
  | _ => True

def HaveArity (ar : Arity) : List MoveAbiSignatureToken → Prop
  | [] => True
  | t :: ts => HasArity ar t ∧ HaveArity ar ts

end

end MoveAbiSignatureToken

namespace MoveTypeTag

open MoveAbiSignatureToken (Arity)

mutual

def HasArity (ar : Arity) : MoveTypeTag → Prop
  | .vector inner => HasArity ar inner
  | .struct a m n tys => tys.length = ar a m n ∧ HaveArity ar tys
  | _ => True

def HaveArity (ar : Arity) : List MoveTypeTag → Prop
  | [] => True
  | t :: ts => HasArity ar t ∧ HaveArity ar ts

end

end MoveTypeTag

namespace MoveAbiSignatureToken

/-! ### Substitution depends on the occurring parameters only -/

theorem subst_extends (t : MoveAbiSignatureToken) (s m : TyArgs) (hs : s.Extends m)
    (g : MoveTypeTag) (h : t.subst m = some g) : t.subst s = some g := by
  induction t using MoveAbiSignatureToken.induct generalizing g with
  | hvector t ih =>
    simp only [subst, Option.map_eq_some_iff] at h ⊢
    obtain ⟨g', hg', rfl⟩ := h
    exact ⟨g', ih g' hg', rfl⟩
  | hinst hd ts ih =>
    simp only [subst, Option.map_eq_some_iff] at h ⊢
    obtain ⟨gs, hgs, rfl⟩ := h
    refine ⟨gs, ?_, rfl⟩
    clear hd
    induction ts generalizing gs with
    | nil => exact hgs
    | cons t ts ihl =>
      simp only [substList, Option.bind_eq_some_iff, Option.map_eq_some_iff] at hgs ⊢
      obtain ⟨g', hg', gs', hgs', rfl⟩ := hgs
      exact ⟨g', ih t (List.mem_cons_self ..) g' hg', gs',
        ihl (fun a ha => ih a (List.mem_cons_of_mem _ ha)) gs' hgs', rfl⟩
  | hparam i a =>
    simp only [subst] at h ⊢
    exact hs i g h
  | href t ih => exact ih g h
  | hmut t ih => exact ih g h
  | _ => exact h

/-! ### Completeness -/

theorem extractTyArgsLoop_complete (s : TyArgs) (ts : List MoveAbiSignatureToken)
    (ih : ∀ t ∈ ts, ∀ g, t.subst s = some g → ∃ m, t.extractTyArgs g = some m ∧ s.Extends m)
    (gs : List MoveTypeTag) (h : substList s ts = some gs) (acc : TyArgs) (hacc : s.Extends acc) :
    ∃ m, extractTyArgsLoop acc ts gs = some m ∧ s.Extends m := by
  induction ts generalizing gs acc with
  | nil =>
    refine ⟨acc, ?_, hacc⟩
    rw [extractTyArgsLoop]
    simp
  | cons t ts ihl =>
    simp only [substList, Option.bind_eq_some_iff, Option.map_eq_some_iff] at h
    obtain ⟨g, hg, gs', hgs', rfl⟩ := h
    obtain ⟨sub, hsub, hsubs⟩ := ih t (List.mem_cons_self ..) g hg
    obtain ⟨merged, hmerged, hms⟩ := SortedMap.mergeAgree_of_extends sub.entries acc s hacc
      fun e he => hsubs e.1 e.2 ((SortedMap.mem_entries sub e.1 e.2).mp he)
    obtain ⟨m, hm, hmext⟩ :=
      ihl (fun a ha => ih a (List.mem_cons_of_mem _ ha)) gs' hgs' merged hms
    refine ⟨m, ?_, hmext⟩
    simp only [extractTyArgsLoop, hsub, hmerged, Option.bind_some, hm]

theorem extractTyArgs_complete (t : MoveAbiSignatureToken) (s : TyArgs) (g : MoveTypeTag)
    (h : t.subst s = some g) : ∃ m, t.extractTyArgs g = some m ∧ s.Extends m := by
  induction t using MoveAbiSignatureToken.induct generalizing g with
  | hvector t ih =>
    simp only [subst, Option.map_eq_some_iff] at h
    obtain ⟨g', hg', rfl⟩ := h
    simpa only [extractTyArgs] using ih g' hg'
  | hstruct hd =>
    simp only [subst] at h
    split_ifs at h with hp
    obtain rfl := Option.some.inj h
    exact ⟨SortedMap.empty, by simp [extractTyArgs, hp], SortedMap.extends_empty s⟩
  | hinst hd ts ih =>
    simp only [subst, Option.map_eq_some_iff] at h
    obtain ⟨gs, hgs, rfl⟩ := h
    obtain ⟨m, hm, hs⟩ :=
      extractTyArgsLoop_complete s ts ih gs hgs SortedMap.empty (SortedMap.extends_empty s)
    exact ⟨m, by simp [extractTyArgs, hm], hs⟩
  | hparam i a =>
    refine ⟨SortedMap.empty.insert i g, ?_, (SortedMap.extends_insert_empty s i g).mpr h⟩
    simp only [extractTyArgs]
  | href t ih => simpa only [extractTyArgs] using ih g h
  | hmut t ih => simpa only [extractTyArgs] using ih g h
  | _ =>
    obtain rfl := Option.some.inj h
    exact ⟨SortedMap.empty, by simp [extractTyArgs], SortedMap.extends_empty s⟩

/-! ### Soundness -/

def Reproduces (t : MoveAbiSignatureToken) (g : MoveTypeTag) (m : TyArgs) : Prop :=
  t.subst m = some g ∧ ∀ i, (∃ ty, m.get? i = some ty) ↔ t.containsTypeParam i = true

theorem extractTyArgsLoop_sound (ar : Arity) (ts : List MoveAbiSignatureToken)
    (ih : ∀ t ∈ ts, ∀ g m, HasArity ar t → g.HasArity ar → t.extractTyArgs g = some m →
      t.Reproduces g m)
    (gs : List MoveTypeTag) (hts : HaveArity ar ts) (hgs : MoveTypeTag.HaveArity ar gs)
    (hlen : ts.length = gs.length) (acc m : TyArgs) (h : extractTyArgsLoop acc ts gs = some m) :
    m.Extends acc ∧ substList m ts = some gs ∧
      ∀ i, (∃ ty, m.get? i = some ty) ↔
        (∃ ty, acc.get? i = some ty) ∨ anyContainsTypeParam i ts = true := by
  induction ts generalizing gs acc with
  | nil =>
    obtain rfl : gs = [] := List.length_eq_zero_iff.mp hlen.symm
    rw [extractTyArgsLoop] at h
    · obtain rfl := Option.some.inj h
      refine ⟨SortedMap.extends_refl acc, rfl, ?_⟩
      intro i
      simp [anyContainsTypeParam]
    · simp
  | cons t ts ihl =>
    cases gs with
    | nil => simp at hlen
    | cons g gs =>
      obtain ⟨ht, hts⟩ := hts
      obtain ⟨hg, hgs⟩ := hgs
      have hlen : ts.length = gs.length := Nat.succ.inj hlen
      simp only [extractTyArgsLoop] at h
      cases hsub : t.extractTyArgs g with
      | none => simp [hsub] at h
      | some sub =>
        simp only [hsub] at h
        obtain ⟨merged, hmerged, hrest⟩ := Option.bind_eq_some_iff.mp h
        obtain ⟨hsubst, hdom⟩ := ih t (List.mem_cons_self ..) g sub ht hg hsub
        obtain ⟨hext, hall, honly⟩ := SortedMap.mergeAgree_spec sub.entries acc merged hmerged
        obtain ⟨hmext, htail, hmdom⟩ :=
          ihl (fun a ha => ih a (List.mem_cons_of_mem _ ha)) gs hts hgs hlen merged hrest
        have hsubext : merged.Extends sub := fun k v hk =>
          hall (k, v) ((SortedMap.mem_entries sub k v).mpr hk)
        refine ⟨hmext.trans hext, ?_, ?_⟩
        · have hhead := subst_extends t m sub (hmext.trans hsubext) g hsubst
          simp only [substList, hhead, htail, Option.bind_some, Option.map_some]
        · intro i
          have hbound : (∃ ty, merged.get? i = some ty) ↔
              (∃ ty, acc.get? i = some ty) ∨ t.containsTypeParam i = true := by
            rw [← hdom i]
            constructor
            · intro hcase
              obtain ⟨ty, hty⟩ := hcase
              rcases honly i ty hty with ha | hs
              · exact Or.inl ⟨ty, ha⟩
              · exact Or.inr ⟨ty, (SortedMap.mem_entries sub i ty).mp hs⟩
            · rintro (⟨ty, hty⟩ | ⟨ty, hty⟩)
              · exact ⟨ty, hext i ty hty⟩
              · exact ⟨ty, hsubext i ty hty⟩
          rw [hmdom i, hbound, anyContainsTypeParam, Bool.or_eq_true, or_assoc]

theorem extractTyArgs_sound (ar : Arity) (t : MoveAbiSignatureToken) (g : MoveTypeTag) (m : TyArgs)
    (ht : HasArity ar t) (hg : g.HasArity ar) (h : t.extractTyArgs g = some m) :
    t.Reproduces g m := by
  induction t using MoveAbiSignatureToken.induct generalizing g m with
  | hvector t ih =>
    cases g with
    | vector g =>
      obtain ⟨hsubst, hdom⟩ := ih g m ht hg h
      refine ⟨?_, hdom⟩
      simp only [subst, hsubst, Option.map_some]
    | _ => simp [extractTyArgs] at h
  | hstruct hd =>
    cases g with
    | struct a n k tys =>
      simp only [extractTyArgs] at h
      split_ifs at h with hid hp
      obtain rfl := Option.some.inj h
      simp only [not_or, not_not] at hid
      obtain ⟨rfl, rfl, rfl⟩ := hid
      -- a struct without type parameters has arity zero, so the tag has no arguments
      have hempty : hd.typeParameters = [] := by simpa using hp
      have htys : tys = [] := by
        have hlen : hd.typeParameters.length = _ := ht
        rw [hempty] at hlen
        exact List.length_eq_zero_iff.mp (hg.1.trans hlen.symm)
      subst htys
      refine ⟨by simp [subst, hempty], ?_⟩
      intro i
      simp [containsTypeParam]
    | _ => simp [extractTyArgs] at h
  | hinst hd ts ih =>
    cases g with
    | struct a n k tys =>
      simp only [extractTyArgs] at h
      split_ifs at h with hid
      simp only [not_or, not_not] at hid
      obtain ⟨rfl, rfl, rfl⟩ := hid
      obtain ⟨_, hsubst, hdom⟩ := extractTyArgsLoop_sound ar ts
        (fun t hmem g m ht hg h => ih t hmem g m ht hg h) tys ht.2 hg.2
        (ht.1.trans hg.1.symm) SortedMap.empty m h
      refine ⟨by simp only [subst, hsubst, Option.map_some], ?_⟩
      intro i
      rw [hdom i, containsTypeParam]
      simp
    | _ => simp [extractTyArgs] at h
  | hparam i a =>
    simp only [extractTyArgs] at h
    obtain rfl := Option.some.inj h
    refine ⟨?_, ?_⟩
    · rw [subst, SortedMap.get?_insert, if_pos rfl]
    · intro j
      simp only [SortedMap.get?_insert, SortedMap.get?_empty, containsTypeParam, decide_eq_true_eq]
      by_cases hj : j = i
      · simp [hj]
      · simp [hj, Ne.symm hj]
  | href t ih =>
    simp only [extractTyArgs] at h
    exact ih g m ht hg h
  | hmut t ih =>
    simp only [extractTyArgs] at h
    exact ih g m ht hg h
  | _ =>
    cases g <;> simp only [extractTyArgs, reduceCtorEq] at h
    obtain rfl := Option.some.inj h
    refine ⟨rfl, ?_⟩
    intro i
    simp [containsTypeParam]

/-- `extract_ty_args` succeeds exactly on the instances of the token, and then
returns the type arguments that give this instance, for the parameters that
occur and no others. -/
theorem extractTyArgs_exact (t : MoveAbiSignatureToken) (g : MoveTypeTag)
    (har : ∃ ar, HasArity ar t ∧ g.HasArity ar) :
    ((∃ m, t.extractTyArgs g = some m) ↔ ∃ s, t.subst s = some g) ∧
      ∀ m, t.extractTyArgs g = some m →
        t.subst m = some g ∧ ∀ i, (∃ ty, m.get? i = some ty) ↔ t.containsTypeParam i = true := by
  obtain ⟨ar, ht, hg⟩ := har
  refine ⟨⟨?_, ?_⟩, fun m hm => extractTyArgs_sound ar t g m ht hg hm⟩
  · intro h
    obtain ⟨m, hm⟩ := h
    exact ⟨m, (extractTyArgs_sound ar t g m ht hg hm).1⟩
  · intro h
    obtain ⟨s, hs⟩ := h
    obtain ⟨m, hm, _⟩ := extractTyArgs_complete t s g hs
    exact ⟨m, hm⟩

/-- `0x2::coin::Coin<T0>` against `0x2::coin::Coin<u64>`. -/
def coinHandle : MoveStructHandle :=
  ⟨⟨MoveAddress.two, "coin"⟩, "Coin", ⟨false, false, true, true⟩, [⟨MoveAbility.empty, true⟩]⟩

theorem extractTyArgs_exact_coin :
    ∃ m, (structInstantiation coinHandle [.typeParameter 0 MoveAbility.empty]).extractTyArgs
        (.struct MoveAddress.two "coin" "Coin" [.u64]) = some m ∧
      (structInstantiation coinHandle [.typeParameter 0 MoveAbility.empty]).subst m =
        some (.struct MoveAddress.two "coin" "Coin" [.u64]) := by
  have h := extractTyArgs_exact
    (.structInstantiation coinHandle [.typeParameter 0 MoveAbility.empty])
    (.struct MoveAddress.two "coin" "Coin" [.u64])
    ⟨fun _ _ _ => 1, ⟨rfl, trivial, trivial⟩, ⟨rfl, trivial, trivial⟩⟩
  obtain ⟨m, hm⟩ := h.1.mpr ⟨SortedMap.empty.insert 0 .u64, rfl⟩
  exact ⟨m, hm, (h.2 m hm).1⟩

end MoveAbiSignatureToken

end Movy.Types
