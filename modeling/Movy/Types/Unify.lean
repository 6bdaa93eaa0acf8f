import Movy.Types.Extract

/-!
# Matching a consumer against a producer

`partial_extract_ty_args` compares a parameter (the consumer) with a result
(the producer) of another function. Both may be generic, so it returns the
type arguments it found on either side and the pairs of parameters that have
to be instantiated alike.
-/

namespace Movy.Types

namespace MoveAbiSignatureToken

abbrev PartialTyArgs := TyArgs × TyArgs × List (U16 × U16)

mutual

def partialExtractTyArgs : MoveAbiSignatureToken → MoveAbiSignatureToken → Option PartialTyArgs
  | .typeParameter index _, .typeParameter otherIndex _ =>
    some (SortedMap.empty, SortedMap.empty, [(index, otherIndex)])
  -- nested type parameters are ignored: the other side has to be closed
  | .typeParameter index _, other =>
    (other.subst SortedMap.empty).map fun ty =>
      (SortedMap.empty.insert index ty, SortedMap.empty, [])
  | self, .typeParameter otherIndex _ =>
    (self.subst SortedMap.empty).map fun ty =>
      (SortedMap.empty, SortedMap.empty.insert otherIndex ty, [])
  | .struct inner, .struct otherInner =>
    if inner.moduleId ≠ otherInner.moduleId ∨ inner.structName ≠ otherInner.structName ∨
        inner.typeParameters.length ≠ otherInner.typeParameters.length then none
    else some (SortedMap.empty, SortedMap.empty, [])
  | .structInstantiation inner typeArgs, .structInstantiation otherInner otherTypeArgs =>
    if inner.moduleId ≠ otherInner.moduleId ∨ inner.structName ≠ otherInner.structName ∨
        typeArgs.length ≠ otherTypeArgs.length then none
    else partialExtractLoop (SortedMap.empty, SortedMap.empty, []) typeArgs otherTypeArgs
  -- `&mut T` can be passed in `&T` and `&mut T`, but not in `T`
  | .mutableReference inner, .mutableReference otherInner => partialExtractTyArgs inner otherInner
  | .reference inner, .mutableReference otherInner => partialExtractTyArgs inner otherInner
  | .reference inner, .reference otherInner => partialExtractTyArgs inner otherInner
  | .vector inner, .vector otherInner => partialExtractTyArgs inner otherInner
  | .mutableReference inner, other => partialExtractTyArgs inner other
  | .reference inner, other => partialExtractTyArgs inner other
  | self, other => if self ≠ other then none else some (SortedMap.empty, SortedMap.empty, [])

def partialExtractLoop :
    PartialTyArgs → List MoveAbiSignatureToken → List MoveAbiSignatureToken → Option PartialTyArgs
  | acc, generic :: generics, other :: others =>
    (partialExtractTyArgs generic other).bind fun sub =>
      (acc.1.mergeAgree sub.1.entries).bind fun tyArgs =>
        (acc.2.1.mergeAgree sub.2.1.entries).bind fun otherTyArgs =>
          partialExtractLoop (tyArgs, otherTyArgs, acc.2.2 ++ sub.2.2) generics others
  | acc, _, _ => some acc

end

/-! ### Soundness -/

/-- `sc` and `sp` complete the result of the comparison. -/
structure Completes (sc sp : TyArgs) (r : PartialTyArgs) : Prop where
  left : sc.Extends r.1
  right : sp.Extends r.2.1
  linked : ∀ p ∈ r.2.2, sc.get? p.1 = sp.get? p.2

theorem partialExtractLoop_cons (acc r : PartialTyArgs) (c p : MoveAbiSignatureToken)
    (cs ps : List MoveAbiSignatureToken) (h : partialExtractLoop acc (c :: cs) (p :: ps) = some r) :
    ∃ sub a b, c.partialExtractTyArgs p = some sub ∧ acc.1.mergeAgree sub.1.entries = some a ∧
      acc.2.1.mergeAgree sub.2.1.entries = some b ∧
      partialExtractLoop (a, b, acc.2.2 ++ sub.2.2) cs ps = some r := by
  simp only [partialExtractLoop] at h
  obtain ⟨sub, hsub, h⟩ := Option.bind_eq_some_iff.mp h
  obtain ⟨a, ha, h⟩ := Option.bind_eq_some_iff.mp h
  obtain ⟨b, hb, h⟩ := Option.bind_eq_some_iff.mp h
  exact ⟨sub, a, b, hsub, ha, hb, h⟩

theorem extends_of_merge (s acc a sub : TyArgs) (h : acc.mergeAgree sub.entries = some a)
    (hs : s.Extends a) : s.Extends acc ∧ s.Extends sub := by
  obtain ⟨hacc, hsub, _⟩ := SortedMap.mergeAgree_spec sub.entries acc a h
  exact ⟨hs.trans hacc, hs.trans fun k v hk => hsub (k, v) ((SortedMap.mem_entries sub k v).mpr hk)⟩

theorem partialExtractLoop_sound (cs : List MoveAbiSignatureToken)
    (ih : ∀ c ∈ cs, ∀ p r, c.partialExtractTyArgs p = some r → ∀ sc sp, Completes sc sp r →
      c.subst sc = p.subst sp)
    (ps : List MoveAbiSignatureToken) (hlen : cs.length = ps.length) (acc r : PartialTyArgs)
    (h : partialExtractLoop acc cs ps = some r) (sc sp : TyArgs) (hr : Completes sc sp r) :
    Completes sc sp acc ∧ substList sc cs = substList sp ps := by
  induction cs generalizing ps acc with
  | nil =>
    obtain rfl : ps = [] := List.length_eq_zero_iff.mp hlen.symm
    rw [partialExtractLoop] at h
    · obtain rfl := Option.some.inj h
      exact ⟨hr, rfl⟩
    · simp
  | cons c cs ihl =>
    cases ps with
    | nil => simp at hlen
    | cons p ps =>
      obtain ⟨sub, a, b, hsub, ha, hb, hrest⟩ := partialExtractLoop_cons acc r c p cs ps h
      obtain ⟨⟨hleft, hright, hlinked⟩, htail⟩ :=
        ihl (fun x hx => ih x (List.mem_cons_of_mem _ hx)) ps (Nat.succ.inj hlen) _ hrest
      obtain ⟨hacc, hsubl⟩ := extends_of_merge sc acc.1 a sub.1 ha hleft
      obtain ⟨hacc', hsubr⟩ := extends_of_merge sp acc.2.1 b sub.2.1 hb hright
      have hhead := ih c (List.mem_cons_self ..) p sub hsub sc sp
        ⟨hsubl, hsubr, fun q hq => hlinked q (List.mem_append_right _ hq)⟩
      refine ⟨⟨hacc, hacc', fun q hq => hlinked q (List.mem_append_left _ hq)⟩, ?_⟩
      simp only [substList, hhead, htail]

/-- Anything against a type parameter of the producer. -/
theorem partialExtract_right_param (c : MoveAbiSignatureToken) (hc : ∀ i a, c ≠ .typeParameter i a)
    (j : U16) (b : MoveAbility) :
    c.partialExtractTyArgs (.typeParameter j b) = (c.subst SortedMap.empty).map fun ty =>
      (SortedMap.empty, SortedMap.empty.insert j ty, []) := by
  cases c with
  | typeParameter i a => exact absurd rfl (hc i a)
  | _ => simp only [partialExtractTyArgs]

theorem partialExtract_left_param (p : MoveAbiSignatureToken) (hp : ∀ i a, p ≠ .typeParameter i a)
    (i : U16) (a : MoveAbility) :
    partialExtractTyArgs (.typeParameter i a) p = (p.subst SortedMap.empty).map fun ty =>
      (SortedMap.empty.insert i ty, SortedMap.empty, []) := by
  cases p with
  | typeParameter j b => exact absurd rfl (hp j b)
  | _ => simp only [partialExtractTyArgs]

/-- A closed token that was bound to a parameter of the other side. -/
theorem subst_of_bound (t : MoveAbiSignatureToken) (ty : MoveTypeTag) (s s' : TyArgs) (i : U16)
    (h : t.subst SortedMap.empty = some ty) (hs : s.Extends (SortedMap.empty.insert i ty)) :
    t.subst s' = s.get? i := by
  rw [(SortedMap.extends_insert_empty s i ty).mp hs]
  exact subst_extends t s' SortedMap.empty (SortedMap.extends_empty s') ty h

theorem right_param_sound (c : MoveAbiSignatureToken) (hc : ∀ i a, c ≠ .typeParameter i a)
    (j : U16) (b : MoveAbility) (r : PartialTyArgs)
    (h : c.partialExtractTyArgs (.typeParameter j b) = some r) (sc sp : TyArgs)
    (hr : Completes sc sp r) : c.subst sc = sp.get? j := by
  rw [partialExtract_right_param c hc] at h
  obtain ⟨ty, hty, rfl⟩ := Option.map_eq_some_iff.mp h
  exact subst_of_bound c ty sp sc j hty hr.right

theorem partialExtractTyArgs_sound (c p : MoveAbiSignatureToken) (r : PartialTyArgs)
    (h : c.partialExtractTyArgs p = some r) (sc sp : TyArgs) (hr : Completes sc sp r) :
    c.subst sc = p.subst sp := by
  induction c using MoveAbiSignatureToken.induct generalizing p r sc sp with
  | hparam i a =>
    cases hp : p with
    | typeParameter j b =>
      subst hp
      simp only [partialExtractTyArgs, Option.some.injEq] at h
      subst h
      exact hr.linked (i, j) (List.mem_singleton_self _)
    | _ =>
      rw [← hp]
      rw [partialExtract_left_param p (by simp [hp])] at h
      obtain ⟨ty, hty, rfl⟩ := Option.map_eq_some_iff.mp h
      exact (subst_of_bound p ty sc sp i hty hr.left).symm
  | hvector c ih =>
    cases p with
    | typeParameter j b => exact right_param_sound _ (by simp) j b r h sc sp hr
    | vector p =>
      simp only [partialExtractTyArgs] at h
      simp only [subst, ih p r h sc sp hr]
    | _ => simp [partialExtractTyArgs] at h
  | hstruct hd =>
    cases p with
    | typeParameter j b => exact right_param_sound _ (by simp) j b r h sc sp hr
    | struct hd' =>
      simp only [partialExtractTyArgs] at h
      split_ifs at h with hid
      simp only [not_or, not_not] at hid
      obtain ⟨hmod, hname, hlen⟩ := hid
      have hempty : hd.typeParameters.isEmpty = hd'.typeParameters.isEmpty := by
        rw [Bool.eq_iff_iff, List.isEmpty_iff_length_eq_zero, List.isEmpty_iff_length_eq_zero, hlen]
      simp only [subst, hmod, hname, hempty]
    | _ => simp [partialExtractTyArgs] at h
  | hinst hd ts ih =>
    cases p with
    | typeParameter j b => exact right_param_sound _ (by simp) j b r h sc sp hr
    | structInstantiation hd' ts' =>
      simp only [partialExtractTyArgs] at h
      split_ifs at h with hid
      simp only [not_or, not_not] at hid
      obtain ⟨hmod, hname, hlen⟩ := hid
      have htys := (partialExtractLoop_sound ts ih ts' hlen _ r h sc sp hr).2
      simp only [subst, hmod, hname, htys]
    | _ => simp [partialExtractTyArgs] at h
  | href c ih =>
    cases p with
    | typeParameter j b => exact right_param_sound _ (by simp) j b r h sc sp hr
    | reference p =>
      simp only [partialExtractTyArgs] at h
      exact ih p r h sc sp hr
    | mutableReference p =>
      simp only [partialExtractTyArgs] at h
      exact ih p r h sc sp hr
    | _ =>
      simp only [partialExtractTyArgs] at h
      exact ih _ r h sc sp hr
  | hmut c ih =>
    cases p with
    | typeParameter j b => exact right_param_sound _ (by simp) j b r h sc sp hr
    | mutableReference p =>
      simp only [partialExtractTyArgs] at h
      exact ih p r h sc sp hr
    | _ =>
      simp only [partialExtractTyArgs] at h
      exact ih _ r h sc sp hr
  | _ =>
    cases p with
    | typeParameter j b => exact right_param_sound _ (by simp) j b r h sc sp hr
    | _ => first | rfl | simp [partialExtractTyArgs] at h

/-! ### Symmetry -/

mutual

def RefFree : MoveAbiSignatureToken → Prop
  | .reference _ => False
  | .mutableReference _ => False
  | .vector inner => RefFree inner
  | .structInstantiation _ ts => AllRefFree ts
  | _ => True

def AllRefFree : List MoveAbiSignatureToken → Prop
  | [] => True
  | t :: ts => RefFree t ∧ AllRefFree ts

end

def flipResult (r : PartialTyArgs) : PartialTyArgs := (r.2.1, r.1, r.2.2.map Prod.swap)

theorem partialExtractLoop_symm (cs : List MoveAbiSignatureToken)
    (ih : ∀ c ∈ cs, ∀ p r, RefFree c → RefFree p → c.partialExtractTyArgs p = some r →
      p.partialExtractTyArgs c = some (flipResult r))
    (ps : List MoveAbiSignatureToken) (hcs : AllRefFree cs) (hps : AllRefFree ps)
    (acc r : PartialTyArgs) (h : partialExtractLoop acc cs ps = some r) :
    partialExtractLoop (flipResult acc) ps cs = some (flipResult r) := by
  induction cs generalizing ps acc with
  | nil =>
    rw [partialExtractLoop] at h
    · obtain rfl := Option.some.inj h
      rw [partialExtractLoop]
      simp
    · simp
  | cons c cs ihl =>
    cases ps with
    | nil =>
      rw [partialExtractLoop] at h
      · obtain rfl := Option.some.inj h
        rw [partialExtractLoop]
        simp
      · simp
    | cons p ps =>
      obtain ⟨sub, a, b, hsub, ha, hb, hrest⟩ := partialExtractLoop_cons acc r c p cs ps h
      have hflip := ih c (List.mem_cons_self ..) p sub hcs.1 hps.1 hsub
      have htail := ihl (fun x hx => ih x (List.mem_cons_of_mem _ hx)) ps hcs.2 hps.2 _ hrest
      simp only [flipResult, List.map_append] at htail
      simp only [partialExtractLoop, hflip, flipResult, ha, hb, Option.bind_some]
      exact htail

/-- A type parameter on one side is settled before the recursion. -/
theorem left_param_flip (t : MoveAbiSignatureToken) (ht : ∀ i a, t ≠ .typeParameter i a) (i : U16)
    (a : MoveAbility) (r : PartialTyArgs) (h : partialExtractTyArgs (.typeParameter i a) t = some r) :
    t.partialExtractTyArgs (.typeParameter i a) = some (flipResult r) := by
  rw [partialExtract_left_param t ht] at h
  rw [partialExtract_right_param t ht]
  obtain ⟨ty, hty, rfl⟩ := Option.map_eq_some_iff.mp h
  simp only [hty, Option.map_some, flipResult, List.map_nil]

theorem right_param_flip (t : MoveAbiSignatureToken) (ht : ∀ i a, t ≠ .typeParameter i a) (i : U16)
    (a : MoveAbility) (r : PartialTyArgs) (h : t.partialExtractTyArgs (.typeParameter i a) = some r) :
    partialExtractTyArgs (.typeParameter i a) t = some (flipResult r) := by
  rw [partialExtract_right_param t ht] at h
  rw [partialExtract_left_param t ht]
  obtain ⟨ty, hty, rfl⟩ := Option.map_eq_some_iff.mp h
  simp only [hty, Option.map_some, flipResult, List.map_nil]

theorem partialExtractTyArgs_symm (c p : MoveAbiSignatureToken) (r : PartialTyArgs)
    (hc : RefFree c) (hp : RefFree p) (h : c.partialExtractTyArgs p = some r) :
    p.partialExtractTyArgs c = some (flipResult r) := by
  induction c using MoveAbiSignatureToken.induct generalizing p r with
  | hparam i a =>
    cases hpc : p with
    | typeParameter j b =>
      subst hpc
      simp only [partialExtractTyArgs, Option.some.injEq] at h ⊢
      subst h
      rfl
    | _ =>
      rw [← hpc]
      exact left_param_flip p (by simp [hpc]) i a r h
  | hvector c ih =>
    cases p with
    | typeParameter j b => exact right_param_flip _ (by simp) j b r h
    | vector p =>
      simp only [partialExtractTyArgs] at h ⊢
      exact ih p r hc hp h
    | _ => simp [partialExtractTyArgs] at h
  | hstruct hd =>
    cases p with
    | typeParameter j b => exact right_param_flip _ (by simp) j b r h
    | struct hd' =>
      simp only [partialExtractTyArgs] at h
      split_ifs at h with hid
      obtain rfl := Option.some.inj h
      simp only [not_or, not_not] at hid
      obtain ⟨hmod, hname, hlen⟩ := hid
      simp [partialExtractTyArgs, hmod, hname, hlen, flipResult]
    | _ => simp [partialExtractTyArgs] at h
  | hinst hd ts ih =>
    cases p with
    | typeParameter j b => exact right_param_flip _ (by simp) j b r h
    | structInstantiation hd' ts' =>
      simp only [partialExtractTyArgs] at h
      split_ifs at h with hid
      simp only [not_or, not_not] at hid
      obtain ⟨hmod, hname, hlen⟩ := hid
      have hloop := partialExtractLoop_symm ts ih ts' hc hp _ r h
      simp only [flipResult, List.map_nil] at hloop
      simp [partialExtractTyArgs, hmod, hname, hlen, hloop, flipResult]
    | _ => simp [partialExtractTyArgs] at h
  | href c ih => exact absurd hc id
  | hmut c ih => exact absurd hc id
  | _ =>
    cases p with
    | typeParameter j b => exact right_param_flip _ (by simp) j b r h
    | _ => cases h <;> rfl

/-- Instantiating both sides in a way that completes the result makes the two
tokens the same type; and without references the comparison can be turned
around. -/
theorem partialExtractTyArgs_unifies (c p : MoveAbiSignatureToken) (a b : TyArgs)
    (map : List (U16 × U16)) (h : c.partialExtractTyArgs p = some (a, b, map)) :
    (∀ sc sp : TyArgs, sc.Extends a → sp.Extends b →
        (∀ ij ∈ map, sc.get? ij.1 = sp.get? ij.2) → c.subst sc = p.subst sp) ∧
      (RefFree c → RefFree p → p.partialExtractTyArgs c = some (b, a, map.map Prod.swap)) := by
  refine ⟨?_, ?_⟩
  · intro sc sp hsc hsp hlink
    exact partialExtractTyArgs_sound c p (a, b, map) h sc sp ⟨hsc, hsp, hlink⟩
  · intro hc hp
    exact partialExtractTyArgs_symm c p (a, b, map) hc hp h

/-- `Coin<T0>` is fed by `Coin<T1>` when the two parameters are the same type. -/
theorem partialExtractTyArgs_unifies_coin :
    subst (SortedMap.empty.insert 0 .u64)
        (.structInstantiation coinHandle [.typeParameter 0 MoveAbility.empty]) =
      subst (SortedMap.empty.insert 1 .u64)
        (.structInstantiation coinHandle [.typeParameter 1 MoveAbility.empty]) :=
  (partialExtractTyArgs_unifies
    (.structInstantiation coinHandle [.typeParameter 0 MoveAbility.empty])
    (.structInstantiation coinHandle [.typeParameter 1 MoveAbility.empty])
    SortedMap.empty SortedMap.empty [(0, 1)] rfl).1 _ _ (SortedMap.extends_empty _)
    (SortedMap.extends_empty _) (List.forall_mem_singleton.2 rfl)

end MoveAbiSignatureToken

end Movy.Types
