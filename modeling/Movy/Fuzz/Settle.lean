import Movy.Fuzz.Candidates
import Movy.Fuzz.Typing

/-!
# The type arguments of a call

They are put together from what the sampled objects determine, from what is
given, from what producers settle, and from defaults.
-/

namespace Movy.Fuzz

open Movy.Types Movy.Store MoveAbiSignatureToken

/-! ### Type arguments as a map -/

theorem foldl_insert_zipIdx (tys : List MoveTypeTag) (n : ℕ) (acc : TyArgs)
    (hlen : n + tys.length ≤ 2 ^ 16) (i : U16) :
    (((tys.zipIdx n).map fun (ty, i) => (asU16 i, ty)).foldl (fun m e => m.insert e.1 e.2)
      acc).get? i = if n ≤ i.val then (tys[i.val - n]?).or (acc.get? i) else acc.get? i := by
  induction tys generalizing n acc with
  | nil => simp
  | cons ty tys ih =>
    rw [List.length_cons] at hlen
    have hval := asU16_val n (by omega)
    rw [List.zipIdx_cons, List.map_cons, List.foldl_cons, ih (n + 1) _ (by omega)]
    simp only [SortedMap.get?_insert]
    rcases Nat.lt_trichotomy i.val n with hlt | heq | hgt
    · have hne : i ≠ asU16 n := fun h => by
        rw [h, hval] at hlt
        exact Nat.lt_irrefl n hlt
      rw [if_neg (by omega), if_neg hne, if_neg (by omega)]
    · have hi : i = asU16 n := Fin.ext (heq.trans hval.symm)
      rw [if_neg (by omega), if_pos hi, if_pos (by omega)]
      simp [heq]
    · have hne : i ≠ asU16 n := fun h => by
        rw [h, hval] at hgt
        exact Nat.lt_irrefl n hgt
      obtain ⟨k, hk⟩ : ∃ k, i.val - n = k + 1 := ⟨i.val - n - 1, by omega⟩
      have hk' : i.val - (n + 1) = k := by omega
      rw [if_pos (by omega), if_neg hne, if_pos (by omega), hk, hk', List.getElem?_cons_succ]

theorem tyArgsMap_get? (tys : List MoveTypeTag) (hlen : tys.length ≤ 2 ^ 16) (i : U16) :
    (tyArgsMap tys).get? i = tys[i.val]? := by
  unfold tyArgsMap
  rw [foldl_insert_zipIdx tys 0 _ (by omega), if_pos (Nat.zero_le _), Nat.sub_zero]
  cases tys[i.val]? <;> rfl

/-! ### Abilities -/

/-- The type has the abilities that are declared for the type parameter. -/
def Able (st : FuzzState) (abilities : List MoveAbility) (i : ℕ) (ty : MoveTypeTag) : Prop :=
  ∃ wanted found, abilities[i]? = some wanted ∧ st.getTypeTagAbility ty = some found ∧
    wanted.isSubsetOf found = true

theorem abilitiesFail_false (st : FuzzState) (abilities : List MoveAbility)
    (entries : List (U16 × MoveTypeTag)) (h : abilitiesFail st abilities entries = some false)
    (e : U16 × MoveTypeTag) (he : e ∈ entries) : Able st abilities e.1.val e.2 := by
  induction entries with
  | nil => cases he
  | cons a rest ih =>
    obtain ⟨idx, tag⟩ := a
    obtain ⟨found, hfound, h⟩ := Option.bind_eq_some_iff.mp h
    obtain ⟨wanted, hwanted, h⟩ := Option.bind_eq_some_iff.mp h
    split_ifs at h with hbad
    · cases h
    · rcases List.mem_cons.mp he with rfl | he
      · exact ⟨wanted, found, hwanted, hfound, by simpa using hbad⟩
      · exact ih h he

/-! ### What is drawn -/

theorem mem_sampleTags {α : Type} (f : α → Option (List TyArgs)) (l : List α) (r : List TyArgs)
    (h : sampleTags f l = some r) (tyArgs : TyArgs) (hmem : tyArgs ∈ r) :
    ∃ a ∈ l, ∃ found, f a = some found ∧ tyArgs ∈ found := by
  induction l generalizing r with
  | nil =>
    rw [← Option.some.inj h] at hmem
    cases hmem
  | cons a rest ih =>
    obtain ⟨found, hfound, h⟩ := Option.bind_eq_some_iff.mp h
    obtain ⟨more, hmore, rfl⟩ := Option.map_eq_some_iff.mp h
    rcases List.mem_append.mp hmem with hmem | hmem
    · exact ⟨a, List.mem_cons_self .., found, hfound, hmem⟩
    · obtain ⟨b, hb, found', hfound', hmem⟩ := ih more hmore hmem
      exact ⟨b, List.mem_cons_of_mem _ hb, found', hfound', hmem⟩

theorem sampleTag_spec (st : FuzzState) (ty : MoveAbiSignatureToken) (abilities : List MoveAbility)
    (hasMatch : Bool) (tag : MoveTypeTag) (r : List TyArgs)
    (h : sampleTag st ty abilities hasMatch tag = some r) (tyArgs : TyArgs) (hmem : tyArgs ∈ r)
    (i : U16) (g : MoveTypeTag) (hi : tyArgs.get? i = some g) :
    ty.containsTypeParam i = true ∧ Able st abilities i.val g := by
  unfold sampleTag at h
  split at h
  · rw [← Option.some.inj h] at hmem
    cases hmem
  · rename_i found hfound
    obtain ⟨bad, hbad, h⟩ := Option.bind_eq_some_iff.mp h
    by_cases hb : bad = true
    · rw [if_pos hb] at h
      rw [← Option.some.inj h] at hmem
      cases hmem
    · rw [if_neg hb] at h
      obtain rfl : bad = false := by simpa using hb
      split at h
      · have hr := Option.some.inj h
        cases hasMatch with
        | true =>
          rw [← hr, if_pos rfl] at hmem
          obtain rfl := List.mem_singleton.mp hmem
          have hentry := (SortedMap.mem_entries tyArgs i g).mpr hi
          exact ⟨extractTyArgs_contains ty _ tyArgs hfound i g hi,
            abilitiesFail_false st abilities _ hbad (i, g) hentry⟩
        | false =>
          rw [← hr, if_neg Bool.false_ne_true] at hmem
          cases hmem
      · cases h

theorem paramCandidates_spec (st : FuzzState) (objects : ExistingObjects)
    (abilities : List MoveAbility) (p : MoveAbiSignatureToken × Gate) (row : List TyArgs)
    (h : paramCandidates st objects abilities p = some row) (tyArgs : TyArgs) (hmem : tyArgs ∈ row)
    (i : U16) (g : MoveTypeTag) (hi : tyArgs.get? i = some g) :
    p.1.containsTypeParam i = true ∧ Able st abilities i.val g := by
  obtain ⟨fromCache, hcache, h⟩ := Option.bind_eq_some_iff.mp h
  obtain ⟨ability, _, h⟩ := Option.bind_eq_some_iff.mp h
  have hcached : tyArgs ∈ fromCache → p.1.containsTypeParam i = true ∧ Able st abilities i.val g := by
    intro hmem
    obtain ⟨e, _, found, hfound, hmem⟩ := mem_sampleTags _ _ _ hcache tyArgs hmem
    exact sampleTag_spec st p.1 abilities _ _ found hfound tyArgs hmem i g hi
  dsimp only at h
  split_ifs at h
  · obtain ⟨fromDb, hdb, h⟩ := Option.bind_eq_some_iff.mp h
    rw [← Option.some.inj h] at hmem
    rcases List.mem_append.mp hmem with hmem | hmem
    · exact hcached hmem
    · obtain ⟨e, _, found, hfound, hmem⟩ := mem_sampleTags _ _ _ hdb tyArgs hmem
      exact sampleTag_spec st p.1 abilities _ _ found hfound tyArgs hmem i g hi
  · rw [← Option.some.inj h, List.append_nil] at hmem
    exact hcached hmem

theorem mem_allCandidates (st : FuzzState) (objects : ExistingObjects)
    (abilities : List MoveAbility) (params : List (MoveAbiSignatureToken × Gate))
    (rows : List (List TyArgs)) (h : allCandidates st objects abilities params = some rows)
    (row : List TyArgs) (hrow : row ∈ rows) :
    ∃ p ∈ params, paramCandidates st objects abilities p = some row := by
  induction params generalizing rows with
  | nil =>
    rw [← Option.some.inj h] at hrow
    cases hrow
  | cons p params ih =>
    obtain ⟨first, hfirst, h⟩ := Option.bind_eq_some_iff.mp h
    obtain ⟨rest, hrest, rfl⟩ := Option.map_eq_some_iff.mp h
    rcases List.mem_cons.mp hrow with rfl | hrow
    · exact ⟨p, List.mem_cons_self .., hfirst⟩
    · obtain ⟨q, hq, hcandidates⟩ := ih rest hrest hrow
      exact ⟨q, List.mem_cons_of_mem _ hq, hcandidates⟩

theorem withGate_spec (fixedTyArgs : TyArgs) (param : MoveAbiSignatureToken)
    (p : MoveAbiSignatureToken × Gate) (h : withGate fixedTyArgs param = some p) :
    (∀ s, p.1.subst s = param.subst (s.extend fixedTyArgs)) ∧
      ∀ i, p.1.containsTypeParam i = true →
        param.containsTypeParam i = true ∧ fixedTyArgs.get? i = none := by
  have hsubst := fun s => subst_partialSubst param fixedTyArgs s
  have hcontains := fun i => contains_partialSubst param fixedTyArgs i
  unfold withGate at h
  split_ifs at h
  split at h
  · rename_i hp
    rw [← Option.some.inj h]
    rw [hp] at hsubst hcontains
    exact ⟨hsubst, hcontains⟩
  · rename_i hp
    rw [← Option.some.inj h]
    rw [hp] at hsubst hcontains
    exact ⟨hsubst, hcontains⟩
  · rename_i hp
    split_ifs at h
    rw [← Option.some.inj h]
    rw [hp] at hsubst hcontains
    exact ⟨hsubst, hcontains⟩
  · rename_i hp
    split_ifs at h
    rw [← Option.some.inj h]
    rw [hp] at hsubst hcontains
    exact ⟨hsubst, hcontains⟩
  · cases h

theorem Drawn.tyArgsMap_spec {st : FuzzState} {inputLen : ℕ} {params : List MoveAbiSignatureToken}
    {abilities : List MoveAbility} {fixedTyArgs : TyArgs} {data : ObjectData}
    (d : Drawn st inputLen params abilities fixedTyArgs data) (i : U16) (g : MoveTypeTag)
    (hi : d.tyArgsMap.get? i = some g) :
    Able st abilities i.val g ∧ fixedTyArgs.get? i = none := by
  obtain ⟨combo, hchosen, hunion⟩ := (mem_getTyArgsCandidates _ _).mp d.drawn
  obtain ⟨tyArgs, hmem, hg⟩ := (hunion i g).mp hi
  obtain ⟨n, hn⟩ := List.mem_iff_getElem?.mp hmem
  obtain ⟨row, hrow, hmem⟩ := getElem?_forall₂ hchosen n tyArgs hn
  have hrow := List.mem_of_mem_filter (List.mem_of_getElem? hrow)
  obtain ⟨p, hp, hcandidates⟩ := mem_allCandidates _ _ _ _ _ d.candidates row hrow
  obtain ⟨hcontains, hable⟩ := paramCandidates_spec st _ abilities p row hcandidates tyArgs hmem i
    g hg
  refine ⟨hable, ?_⟩
  obtain ⟨k, hk⟩ := List.mem_iff_getElem?.mp hp
  have hgates := mapM_forall₂ _ _ _ d.gated
  have hlt := (List.getElem?_eq_some_iff.mp hk).1
  rw [← hgates.length_eq] at hlt
  obtain ⟨p', hp', hgate⟩ := getElem?_forall₂ hgates k _ (List.getElem?_eq_getElem hlt)
  rw [hk, Option.some.injEq] at hp'
  subst hp'
  exact ((withGate_spec fixedTyArgs _ p hgate).2 i hcontains).2

/-! ### From known type arguments to a list -/

/-- The list takes what is known, and defaults. -/
structure TypeArgsFrom (st : FuzzState) (abilities : List MoveAbility) (known : TyArgs)
    (tys : List MoveTypeTag) : Prop where
  length_eq : tys.length = abilities.length
  entry : ∀ (i : ℕ) ability, abilities[i]? = some ability → ∃ ty, tys[i]? = some ty ∧
    (known.get? (asU16 i) = some ty ∨
      known.get? (asU16 i) = none ∧ Choice.Yields (st.genTypeTagByAbilities ability) ty)

section

variable (st : FuzzState)

/-- The entries of the list from position `n` on. -/
def EntriesFrom (known : TyArgs) (n : ℕ) (abilities : List MoveAbility) (tys : List MoveTypeTag) :
    Prop :=
  tys.length = abilities.length ∧
  ∀ (i : ℕ) ability, abilities[i]? = some ability → ∃ ty, tys[i]? = some ty ∧
    (known.get? (asU16 (n + i)) = some ty ∨
      known.get? (asU16 (n + i)) = none ∧ Choice.Yields (st.genTypeTagByAbilities ability) ty)

theorem EntriesFrom.cons {known : TyArgs} {n : ℕ} {abilities : List MoveAbility}
    {tys : List MoveTypeTag} (h : EntriesFrom st known (n + 1) abilities tys)
    (ability : MoveAbility) (ty : MoveTypeTag)
    (hty : known.get? (asU16 n) = some ty ∨
      known.get? (asU16 n) = none ∧ Choice.Yields (st.genTypeTagByAbilities ability) ty) :
    EntriesFrom st known n (ability :: abilities) (ty :: tys) := by
  refine ⟨by rw [List.length_cons, List.length_cons, h.1], ?_⟩
  intro i a hi
  cases i with
  | zero =>
    obtain rfl := Option.some.inj hi
    exact ⟨ty, rfl, hty⟩
  | succ i =>
    obtain ⟨ty', hty', hcase⟩ := h.2 i a hi
    have hsum : n + (i + 1) = n + 1 + i := by omega
    rw [hsum]
    exact ⟨ty', hty', hcase⟩

theorem fillTyArgs_entries (known : TyArgs) (abilities : List MoveAbility) (n : ℕ)
    (tys : List MoveTypeTag) (h : Choice.Yields (fillTyArgs st known (abilities.zipIdx n)) tys) :
    EntriesFrom st known n abilities tys := by
  induction abilities generalizing n tys with
  | nil =>
    rw [(Choice.yields_pure _ _).mp h]
    exact ⟨rfl, fun i a hi => by simp at hi⟩
  | cons ability rest ih =>
    obtain ⟨default, hdefault, h⟩ := Choice.yields_bind _ _ _ h
    obtain ⟨more, hmore, h⟩ := Choice.yields_bind _ _ _ h
    rw [(Choice.yields_pure _ _).mp h]
    refine (ih (n + 1) more hmore).cons st ability _ ?_
    cases hknown : known.get? (asU16 n) with
    | some ty => exact .inl rfl
    | none => exact .inr ⟨rfl, hdefault⟩

theorem finishTyArgs_entries (tyArgsMap fixedTyArgs : TyArgs) (abilities : List MoveAbility) (n : ℕ)
    (tys : List MoveTypeTag)
    (h : Choice.Yields (finishTyArgs st tyArgsMap fixedTyArgs (abilities.zipIdx n)) tys) :
    EntriesFrom st (fixedTyArgs.extend tyArgsMap) n abilities tys := by
  induction abilities generalizing n tys with
  | nil =>
    rw [(Choice.yields_pure _ _).mp h]
    exact ⟨rfl, fun i a hi => by simp at hi⟩
  | cons ability rest ih =>
    rw [List.zipIdx_cons] at h
    cases hdrawn : tyArgsMap.get? (asU16 n) with
    | some ty =>
      simp only [finishTyArgs, hdrawn] at h
      obtain ⟨ty', hty', h⟩ := Choice.yields_bind _ _ _ h
      obtain ⟨more, hmore, h⟩ := Choice.yields_bind _ _ _ h
      rw [(Choice.yields_pure _ _).mp h, (Choice.yields_pure _ _).mp hty']
      refine (ih (n + 1) more hmore).cons st ability ty (.inl ?_)
      rw [SortedMap.get?_extend, hdrawn, Option.some_or]
    | none =>
      simp only [finishTyArgs, hdrawn] at h
      obtain ⟨default, hdefault, h⟩ := Choice.yields_bind _ _ _ h
      obtain ⟨ty, hty, h⟩ := Choice.yields_bind _ _ _ h
      obtain ⟨more, hmore, h⟩ := Choice.yields_bind _ _ _ h
      rw [(Choice.yields_pure _ _).mp h, (Choice.yields_pure _ _).mp hty]
      refine (ih (n + 1) more hmore).cons st ability _ ?_
      rw [SortedMap.get?_extend, hdrawn, Option.none_or]
      cases hgiven : fixedTyArgs.get? (asU16 n) with
      | some ty' => exact .inl rfl
      | none => exact .inr ⟨rfl, hdefault⟩

theorem EntriesFrom.typeArgsFrom {known : TyArgs} {abilities : List MoveAbility}
    {tys : List MoveTypeTag} (h : EntriesFrom st known 0 abilities tys) :
    TypeArgsFrom st abilities known tys := by
  refine ⟨h.1, ?_⟩
  intro i ability hi
  obtain ⟨ty, hty, hcase⟩ := h.2 i ability hi
  rw [Nat.zero_add] at hcase
  exact ⟨ty, hty, hcase⟩

end

/-- The arguments that were sampled for a call, and its type arguments. -/
structure TypedCall (st : FuzzState) (fixedArgs : FixedArgs) (ptb : MoveSequence)
    (function : MoveFunctionAbi) (fixedTyArgs : TyArgs) (objectData : ObjectData)
    (tyArgs : TyArgs) (slots : List (Option SequenceArgument)) (start draft : Draft)
    (typeArguments : List MoveTypeTag) where
  d : Drawn st ptb.inputs.length (sampledParams fixedArgs function.parameters)
    function.typeParameters (hintTyArgs fixedArgs fixedTyArgs) objectData
  inputs_eq : start.inputs = d.sampling.inputs
  slots_eq : slots = d.sampling.returnArgs
  known : TyArgs
  from_known : TypeArgsFrom st function.typeParameters known typeArguments
  known_eq : slots.all Option.isSome ∧
      known = (hintTyArgs fixedArgs fixedTyArgs).extend d.tyArgsMap ∨
    ¬ slots.all Option.isSome ∧ tyArgs = d.tyArgsMap.extend (hintTyArgs fixedArgs fixedTyArgs) ∧
      known = draft.typeArguments

theorem Constructed.typed {st : FuzzState} {fixedArgs : FixedArgs} {ptb : MoveSequence}
    {function : MoveFunctionAbi} {fixedTyArgs : TyArgs} {objectData : ObjectData}
    {used : List SequenceArgument} {tyArgs : TyArgs} {slots : List (Option SequenceArgument)}
    {start draft : Draft} {typeArguments : List MoveTypeTag}
    (h : Constructed st fixedArgs ptb function fixedTyArgs objectData used tyArgs slots start draft
      typeArguments) :
    Nonempty (TypedCall st fixedArgs ptb function fixedTyArgs objectData tyArgs slots start draft
      typeArguments) := by
  obtain ⟨d, hinputs, hslots, ⟨hall, hfinish⟩ | ⟨hnot, htys, hfill⟩⟩ := h.drawn
  · exact ⟨d, hinputs, hslots, _, (finishTyArgs_entries st _ _ _ 0 _ hfinish).typeArgsFrom,
      .inl ⟨hall, rfl⟩⟩
  · exact ⟨d, hinputs, hslots, _, (fillTyArgs_entries st _ _ 0 _ hfill).typeArgsFrom,
      .inr ⟨hnot, htys, rfl⟩⟩

/-! ### What producers settle -/

theorem firstMatch_spec (argType : MoveAbiSignatureToken) (n : ℕ)
    (rets : List MoveAbiSignatureToken) (r : PartialTyArgs) (k : ℕ)
    (h : firstMatch argType n rets = some (r, k)) :
    ∃ ret, n ≤ k ∧ rets[k - n]? = some ret ∧ argType.partialExtractTyArgs ret = some r := by
  induction rets generalizing n with
  | nil => cases h
  | cons ret rest ih =>
    unfold firstMatch at h
    cases hextract : argType.partialExtractTyArgs ret with
    | some r' =>
      rw [hextract] at h
      obtain ⟨rfl, rfl⟩ := Prod.mk.inj (Option.some.inj h)
      exact ⟨ret, Nat.le_refl _, by rw [Nat.sub_self]; rfl, hextract⟩
    | none =>
      rw [hextract] at h
      obtain ⟨ret', hle, hget, hextract'⟩ := ih (n + 1) h
      obtain ⟨m, hm⟩ : ∃ m, k - n = m + 1 := ⟨k - n - 1, by omega⟩
      have hm' : k - (n + 1) = m := by omega
      refine ⟨ret', by omega, ?_, hextract'⟩
      rw [hm, List.getElem?_cons_succ, ← hm']
      exact hget

theorem settledTyArgs_other (call : MoveCall) (tyArgs settled : TyArgs) (mapping : List (U16 × U16))
    (h : settledTyArgs call tyArgs mapping = some settled) (i : U16)
    (hi : ∀ m ∈ mapping, m.1 ≠ i) : settled.get? i = tyArgs.get? i := by
  induction mapping generalizing tyArgs with
  | nil => rw [← Option.some.inj h]
  | cons m rest ih =>
    obtain ⟨ty, _, h⟩ := Option.bind_eq_some_iff.mp h
    rw [ih _ h fun m' hm' => hi m' (List.mem_cons_of_mem _ hm'), SortedMap.get?_insert,
      if_neg (hi m (List.mem_cons_self ..)).symm]

section

variable {st : FuzzState} {ident : FunctionIdent} {fixedArgs : FixedArgs} {tyArgs : TyArgs}
  {append : MoveSequence → FunctionIdent → TyArgs → List SequenceArgument →
    Choice (Option Appended × MoveSequence)}

theorem settled_extends (param retTy : MoveAbiSignatureToken) (argTyArg producingTyArg : TyArgs)
    (mapping : List (U16 × U16)) (call : MoveCall) (settled : TyArgs)
    (hmatch : (param.partialSubst tyArgs).partialExtractTyArgs retTy =
      some (argTyArg, producingTyArg, mapping))
    (h : settledTyArgs call (tyArgs.extend argTyArg) mapping = some settled) :
    settled.Extends tyArgs := by
  intro i ty hi
  have hbinds := partialExtractTyArgs_binds _ _ _ hmatch
  have hnot : (param.partialSubst tyArgs).containsTypeParam i ≠ true := by
    intro hcontains
    have hnone := (contains_partialSubst param tyArgs i hcontains).2
    rw [hi] at hnone
    cases hnone
  rw [settledTyArgs_other call _ settled mapping h i, SortedMap.get?_extend]
  · cases harg : argTyArg.get? i with
    | none => rw [Option.none_or, hi]
    | some g => exact absurd (hbinds.left i g harg) hnot
  · intro m hm heq
    exact hnot (heq ▸ (hbinds.linked m hm).1)

theorem Produced.typeArguments_extends {d next : Draft} {param : MoveAbiSignatureToken}
    (h : Produced st ident tyArgs append d param next) : next.typeArguments.Extends tyArgs := by
  cases h with
  | intro preFunc argTyArg producingTyArg producing mapping retIdx appended ptb newCall settled ret
      hfunc hmatch hlink happend hcall hsettled hret =>
    obtain ⟨retTy, _, _, hextract⟩ := firstMatch_spec _ _ _ _ _ hmatch
    intro i ty hi
    have hsettledTy := settled_extends param retTy argTyArg producingTyArg mapping newCall settled
      hextract hsettled i ty hi
    show (d.typeArguments.extend settled).get? i = some ty
    rw [SortedMap.get?_extend, hsettledTy, Option.some_or]

theorem Fills.typeArguments_extends {inputLen : ℕ} {params : List (MoveAbiSignatureToken × ℕ)}
    {slots : List (Option SequenceArgument)} {d d' : Draft}
    (h : Fills st inputLen fixedArgs (Produced st ident tyArgs append) params slots d d') :
    (d.typeArguments.Extends tyArgs → d'.typeArguments.Extends tyArgs) ∧
      (none ∈ slots.take (slotParams fixedArgs params).length →
        d'.typeArguments.Extends tyArgs) := by
  induction h with
  | done slots d => exact ⟨fun h => h, fun h => by cases h⟩
  | fixed param i rest slots d d' arg ty hfixed _ ih =>
    rw [slotParams_fixed fixedArgs param i rest _ hfixed]
    exact ih
  | injected param i rest slots d d' hfixed hctx _ ih =>
    rw [slotParams_plain fixedArgs param i rest (needsSample_not_txContext param hctx)]
    exact ih
  | sampled param i rest slots d d' arg hfixed hctx hsample _ ih =>
    rw [slotParams_cons fixedArgs param i rest hfixed hsample, List.length_cons, List.take_succ_cons]
    refine ⟨ih.1, fun hmem => ih.2 ?_⟩
    rcases List.mem_cons.mp hmem with h | h
    · cases h
    · exact h
  | produced param i rest slots d next d' hfixed hctx hsample hproduced _ ih =>
    have hnext := ih.1 hproduced.typeArguments_extends
    exact ⟨fun _ => hnext, fun _ => hnext⟩
  | fresh param i rest slots d d' init v hfixed hctx hsample hinit hmutate _ ih =>
    rw [slotParams_plain fixedArgs param i rest hsample]
    exact ih

end

/-- What is known of the type arguments of a call at the end. -/
theorem TypedCall.known_extends {st : FuzzState} {ident : FunctionIdent} {fixedArgs : FixedArgs}
    {append : MoveSequence → FunctionIdent → TyArgs → List SequenceArgument →
      Choice (Option Appended × MoveSequence)}
    {ptb : MoveSequence} {function : MoveFunctionAbi} {fixedTyArgs : TyArgs}
    {objectData : ObjectData} {tyArgs : TyArgs} {slots : List (Option SequenceArgument)}
    {start draft : Draft} {typeArguments : List MoveTypeTag}
    (t : TypedCall st fixedArgs ptb function fixedTyArgs objectData tyArgs slots start draft
      typeArguments)
    (hfills : Fills st ptb.inputs.length fixedArgs (Produced st ident tyArgs append)
      function.parameters.zipIdx slots start draft) :
    t.known.Extends (t.d.tyArgsMap.extend (hintTyArgs fixedArgs fixedTyArgs)) := by
  intro i ty hi
  rcases t.known_eq with ⟨_, hknown⟩ | ⟨hnot, htyArgs, hknown⟩
  · rw [hknown, SortedMap.get?_extend]
    rw [SortedMap.get?_extend] at hi
    cases hdrawn : t.d.tyArgsMap.get? i with
    | some g =>
      rw [(t.d.tyArgsMap_spec i g hdrawn).2, hdrawn, Option.none_or] at hi
      exact hi
    | none =>
      rw [hdrawn, Option.or_none] at hi
      exact hi
  · rw [hknown]
    refine hfills.typeArguments_extends.2 ?_ i ty (htyArgs ▸ hi)
    have hlength := t.d.slots_length
    rw [← t.slots_eq] at hlength
    have htake : slots.take (slotParams fixedArgs function.parameters.zipIdx).length = slots :=
      List.take_of_length_le (Nat.le_of_eq hlength)
    rw [htake]
    by_contra hnone
    apply hnot
    rw [List.all_eq_true]
    intro slot hslot
    cases slot with
    | none => exact absurd hslot hnone
    | some arg => rfl

theorem AppendRun.given {st : FuzzState}
    {append : MoveSequence → FunctionIdent → TyArgs → List SequenceArgument →
      Choice (Option Appended × MoveSequence)}
    {ptb : MoveSequence} {ident : FunctionIdent} {fixedArgs : FixedArgs} {fixedTyArgs : TyArgs}
    {used : List SequenceArgument} {disableSplit : Bool} {appended : Appended}
    {ptb' : MoveSequence}
    (run : AppendRun st append ptb ident fixedArgs fixedTyArgs used disableSplit appended ptb')
    (i : U16) (ty : MoveTypeTag) (hi : (hintTyArgs fixedArgs fixedTyArgs).get? i = some ty)
    (hlt : i.val < run.function.typeParameters.length) :
    run.typeArguments[i.val]? = some ty := by
  obtain ⟨t⟩ := run.constructed.typed
  have hknown := t.known_extends run.fills i ty (by
    rw [SortedMap.get?_extend, hi, Option.some_or])
  obtain ⟨ty', hty', hcase⟩ := t.from_known.entry i.val _ (List.getElem?_eq_getElem hlt)
  have hself : asU16 i.val = i := Fin.ext (asU16_val _ i.isLt)
  rw [hself, hknown] at hcase
  rcases hcase with h | ⟨h, _⟩
  · rw [hty', Option.some.inj h]
  · cases h

/-! ### Pinned type arguments -/

theorem hintTyArgs_extends (fixedArgs : FixedArgs) (fixedTyArgs : TyArgs) :
    (hintTyArgs fixedArgs fixedTyArgs).Extends fixedTyArgs := by
  unfold hintTyArgs
  induction fixedArgs.entries generalizing fixedTyArgs with
  | nil => exact SortedMap.extends_refl fixedTyArgs
  | cons e entries ih =>
    rw [List.foldl_cons]
    refine (ih _).trans ?_
    cases hget : fixedTyArgs.get? e.1 with
    | some ty => exact SortedMap.extends_refl fixedTyArgs
    | none =>
      apply SortedMap.insert_extends
      intro ty hty
      rw [hget] at hty
      cases hty

/-- The call has the type arguments that are pinned. -/
def PinsHonoured (function : MoveFunctionAbi) (fixedTyArgs : TyArgs) (call : MoveCall) : Prop :=
  ∀ (i : U16) ty, i.val < function.typeParameters.length → fixedTyArgs.get? i = some ty →
    call.typeArguments[i.val]? = some ty

end Movy.Fuzz
