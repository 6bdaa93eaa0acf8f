import Movy.Types.Instantiate

/-!
# From tokens to tags and values

`to_type_tag` and `subst` both read a type off a token, `gen_input_arg` makes a value
of it. The three do not agree on all types.
-/

namespace Movy.Types

open MoveAbiSignatureToken

/-- Substituting some type arguments first and the others later is substituting all of
them, the first ones with precedence; and a type that was made a token comes back. -/
theorem substitution_composes (t : MoveAbiSignatureToken) (m1 m2 : TyArgs) (g : MoveTypeTag) :
    (t.partialSubst m1).subst m2 = t.subst (m2.extend m1) ∧
      (∀ i, (m2.extend m1).get? i = (m1.get? i).or (m2.get? i)) ∧
      (fromTypeTagLossy g).subst m2 = some g :=
  ⟨subst_partialSubst t m1 m2, SortedMap.get?_extend m2 m1, fromTypeTagLossy_subst g m2⟩

namespace MoveAbiSignatureToken

/-! ### `to_type_tag` -/

mutual

def saturated : MoveAbiSignatureToken → Bool
  | .vector inner => saturated inner
  | .structInstantiation st tys => st.typeParameters.length = tys.length && allSaturated tys
  | .struct _ => false
  | .typeParameter _ _ => false
  | .reference _ => false
  | .mutableReference _ => false
  | _ => true

def allSaturated : List MoveAbiSignatureToken → Bool
  | [] => true
  | ty :: rest => saturated ty && allSaturated rest

end

theorem toTypeTagList_isSome (ts : List MoveAbiSignatureToken)
    (ih : ∀ t ∈ ts, t.toTypeTag.isSome = t.saturated) :
    (toTypeTagList ts).isSome = allSaturated ts := by
  induction ts with
  | nil => rfl
  | cons t ts ihl =>
    rw [toTypeTagList, allSaturated, ← ih t (List.mem_cons_self ..),
      ← ihl fun a ha => ih a (List.mem_cons_of_mem _ ha)]
    cases t.toTypeTag with
    | none => rfl
    | some g => simp

theorem toTypeTag_isSome (t : MoveAbiSignatureToken) : t.toTypeTag.isSome = t.saturated := by
  induction t using MoveAbiSignatureToken.induct with
  | hvector t ih => rw [toTypeTag, saturated, Option.isSome_map, ih]
  | hinst st ts ih =>
    rw [toTypeTag, saturated]
    split_ifs with hlen
    · rw [Option.isSome_map, toTypeTagList_isSome ts ih, decide_eq_true hlen, Bool.true_and]
    · rw [decide_eq_false hlen]
      rfl
  | _ => rfl

theorem substList_empty_isSome (ts : List MoveAbiSignatureToken)
    (ih : ∀ t ∈ ts, (t.subst SortedMap.empty).isSome = t.instantiable 0) :
    (substList SortedMap.empty ts).isSome = allInstantiable 0 ts := by
  induction ts with
  | nil => rfl
  | cons t ts ihl =>
    rw [substList, allInstantiable, ← ih t (List.mem_cons_self ..),
      ← ihl fun a ha => ih a (List.mem_cons_of_mem _ ha)]
    cases t.subst SortedMap.empty with
    | none => rfl
    | some g => simp

theorem subst_empty_isSome (t : MoveAbiSignatureToken) :
    (t.subst SortedMap.empty).isSome = t.instantiable 0 := by
  induction t using MoveAbiSignatureToken.induct with
  | hvector t ih => rw [subst, instantiable, Option.isSome_map, ih]
  | hinst st ts ih => rw [subst, instantiable, Option.isSome_map, substList_empty_isSome ts ih]
  | hstruct st =>
    rw [subst, instantiable]
    split_ifs with hempty
    · exact hempty.symm
    · exact (Bool.eq_false_of_not_eq_true hempty).symm
  | hparam i a => simp [subst, instantiable, SortedMap.get?_empty]
  | href t ih => exact ih
  | hmut t ih => exact ih
  | _ => rfl

/-- The two agree where both find a type, and where neither does. -/
theorem toTypeTag_eq_subst_iff (t : MoveAbiSignatureToken) :
    t.toTypeTag = t.subst SortedMap.empty ↔
      t.saturated = true ∨ t.instantiable 0 = false := by
  rw [← toTypeTag_isSome, ← subst_empty_isSome]
  cases h : t.toTypeTag with
  | some g => simp [toTypeTag_subst t g h SortedMap.empty]
  | none =>
    cases hs : t.subst SortedMap.empty with
    | none => simp
    | some g => simp

def clockToken : MoveAbiSignatureToken :=
  .struct ⟨⟨MoveAddress.two, "clock"⟩, "Clock", MoveAbility.empty, []⟩

/-- A struct without type parameters has a type, but no tag. -/
theorem clock_toTypeTag_ne :
    RefFree clockToken ∧ (∀ i, clockToken.containsTypeParam i = false) ∧
      clockToken.toTypeTag ≠ clockToken.subst SortedMap.empty :=
  ⟨trivial, fun _ => rfl, fun h => by cases h⟩

end MoveAbiSignatureToken

/-! ### Default values -/

def InputArgument.ty : InputArgument → MoveTypeTag
  | .bool _ => .bool
  | .address _ => .address
  | .signer _ => .signer
  | .vector ty _ => ty
  | .object ty _ => ty
  | .u8 _ => .u8
  | .u16 _ => .u16
  | .u32 _ => .u32
  | .u64 _ => .u64
  | .u128 _ => .u128
  | .u256 _ => .u256

namespace MoveAbiSignatureToken

def TopRefs (t : MoveAbiSignatureToken) : Prop := RefFree (t.dereference.getD t)

def isVector : MoveAbiSignatureToken → Bool
  | .vector _ => true
  | _ => false

theorem genInputArg_value (t : MoveAbiSignatureToken) (hrefs : RefFree t)
    (htx : t.isTxContext = false) (hsample : t.needsSample = false) :
    (∃ v, t.genInputArg = some v) ∧ ∃ g, t.toTypeTag = some g := by
  induction t using MoveAbiSignatureToken.induct with
  | hvector b ih =>
    have hb : b.isTxContext = false ∧ b.needsSample = false := by
      cases b with
      | struct st => cases hsample
      | reference b => exact hrefs.elim
      | mutableReference b => exact hrefs.elim
      | _ => exact ⟨rfl, hsample⟩
    obtain ⟨⟨v, hv⟩, g, hg⟩ := ih hrefs hb.1 hb.2
    refine ⟨⟨.vector g (List.replicate 1024 v), ?_⟩, .vector g, ?_⟩
    · rw [genInputArg, hv, Option.bind_some, hg, Option.map_some]
    · rw [toTypeTag, hg, Option.map_some]
  | hstruct st =>
    simp only [needsSample, htx] at hsample
    cases hsample
  | hinst | hparam => cases hsample
  | href | hmut => exact hrefs.elim
  | _ => exact ⟨⟨_, rfl⟩, _, rfl⟩

theorem genInputArg_ty (t : MoveAbiSignatureToken) (v : InputArgument) (h : t.genInputArg = some v)
    (hrefs : RefFree t) : t.subst SortedMap.empty = some v.ty ↔ t.isVector = false := by
  cases t with
  | vector b =>
    obtain ⟨w, _, h⟩ := Option.bind_eq_some_iff.mp h
    obtain ⟨g, hg, rfl⟩ := Option.map_eq_some_iff.mp h
    rw [subst, toTypeTag_subst b g hg, Option.map_some, InputArgument.ty, isVector]
    simp only [Option.some.injEq, reduceCtorEq, iff_false]
    intro heq
    have hsize := congrArg sizeOf heq
    simp at hsize
  | reference b => exact hrefs.elim
  | mutableReference b => exact hrefs.elim
  | struct | structInstantiation | typeParameter => cases h
  | _ =>
    rw [← Option.some.inj h]
    exact ⟨fun _ => rfl, fun _ => rfl⟩

theorem genInputArg_dereference (t : MoveAbiSignatureToken) (hrefs : TopRefs t)
    (htx : t.isTxContext = false) (hsample : t.needsSample = false) :
    ∃ p, t.dereference.getD t = p ∧ RefFree p ∧ p.isTxContext = false ∧ p.needsSample = false ∧
      t.genInputArg = p.genInputArg ∧ t.subst SortedMap.empty = p.subst SortedMap.empty := by
  cases t with
  | reference p | mutableReference p =>
    have htx : p.isTxContext = false := htx
    have hp : p.needsSample = false := by
      simpa only [needsSample, htx, Bool.not_false, Bool.true_and] using hsample
    refine ⟨p, rfl, hrefs, htx, hp, ?_, rfl⟩
    rw [genInputArg, hp]
    rfl
  | _ => exact ⟨_, rfl, hrefs, htx, hsample, rfl, rfl⟩

/-- There always is a default value; it states its type unless it is a vector. -/
theorem genInputArg_typed_iff (t : MoveAbiSignatureToken) (hrefs : TopRefs t)
    (htx : t.isTxContext = false) (hsample : t.needsSample = false) :
    (∃ v, t.genInputArg = some v) ∧
      ((∃ v, t.genInputArg = some v ∧ t.subst SortedMap.empty = some v.ty) ↔
        (t.dereference.getD t).isVector = false) := by
  obtain ⟨p, hp, hrefs, htx, hsample, hgen, hsubst⟩ :=
    genInputArg_dereference t hrefs htx hsample
  obtain ⟨⟨v, hv⟩, _⟩ := genInputArg_value p hrefs htx hsample
  rw [hp, hgen, hsubst]
  refine ⟨⟨v, hv⟩, ?_⟩
  have hty := genInputArg_ty p v hv hrefs
  constructor
  · intro hall
    obtain ⟨w, hw, h⟩ := hall
    obtain rfl : v = w := Option.some.inj (hv.symm.trans hw)
    exact hty.mp h
  · exact fun h => ⟨v, hv, hty.mpr h⟩

theorem genInputArg_typed_u64 :
    ∃ v, (reference u64).genInputArg = some v ∧
      (reference u64).subst SortedMap.empty = some v.ty :=
  (genInputArg_typed_iff (.reference .u64) trivial rfl rfl).2.mpr rfl

/-- The default of a `vector<u8>` says that it is a `u8`. -/
theorem bytes_not_typed :
    TopRefs (vector u8) ∧ (vector u8).isTxContext = false ∧ (vector u8).needsSample = false ∧
      ¬ ∃ v, (vector u8).genInputArg = some v ∧ (vector u8).subst SortedMap.empty = some v.ty := by
  refine ⟨trivial, rfl, rfl, ?_⟩
  intro h
  obtain ⟨v, hv, hty⟩ := h
  rw [← Option.some.inj hv] at hty
  cases hty

end MoveAbiSignatureToken

end Movy.Types
