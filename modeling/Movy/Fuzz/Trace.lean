import Movy.Fuzz.Finish

/-!
# Runs of `append_function`

What a call of `append_function` has done when it returns one: the arguments
that were sampled, the loop over the parameters as a derivation with one rule
for each of its branches, and the finished call. The complete case is the
partial one with nothing missing.
-/

namespace Movy.Fuzz

open Movy.Types Movy.Store MoveAbiSignatureToken

/-! ### Sampling -/

section

variable (st : FuzzState) (inputLen : ℕ) (tyArgsMap : TyArgs)

/-- The sampling of the parameters, one after the other. -/
inductive Samples : List ((MoveAbiSignatureToken × Gate) × Bool) → Sampling → Sampling → Prop where
  | done (s : Sampling) : Samples [] s s
  | missing (p : MoveAbiSignatureToken × Gate) (known : Bool)
      (rest : List ((MoveAbiSignatureToken × Gate) × Bool)) (s s' : Sampling)
      (htail : Samples rest { s with returnArgs := s.returnArgs ++ [none] } s') :
      Samples ((p, known) :: rest) s s'
  | existing (p : MoveAbiSignatureToken × Gate)
      (rest : List ((MoveAbiSignatureToken × Gate) × Bool)) (s s' : Sampling) (ty : MoveTypeTag)
      (args : List (SequenceArgument × Gate)) (i : ℕ) (c : SequenceArgument × Gate)
      (hty : p.1.subst tyArgsMap = some ty) (hargs : s.existingObjects.get? ty = some args)
      (hc : args[i]? = some c) (hgate : gateAccepts p.2 c.2)
      (htail : Samples rest { s with
        existingObjects :=
          if p.2 = .owned then s.existingObjects.insert ty (eraseAt args i) else s.existingObjects
        returnArgs := s.returnArgs ++ [some c.1] } s') :
      Samples ((p, true) :: rest) s s'
  | pool (p : MoveAbiSignatureToken × Gate)
      (rest : List ((MoveAbiSignatureToken × Gate) × Bool)) (s s' : Sampling) (ty : MoveTypeTag)
      (id : MoveAddress) (object : MoveObjectInfo) (input : InputArgument)
      (hty : p.1.subst tyArgsMap = some ty) (hnone : s.existingObjects.get? ty = none)
      (hid : id ∈ availableObjects st ty p.2) (hunused : id ∉ s.usedObjectIds)
      (hobject : st.getMoveObjectInfo id = some object) (hinput : objectInput id object = some input)
      (htail : Samples rest { s with
        usedObjectIds := s.usedObjectIds ++ [id]
        inputs := s.inputs ++ [input]
        returnArgs := s.returnArgs ++ [some (.input (asU16 (inputLen + s.inputs.length)))] } s') :
      Samples ((p, true) :: rest) s s'

theorem sampleParam_samples (s next s' : Sampling) (p : MoveAbiSignatureToken × Gate) (known : Bool)
    (rest : List ((MoveAbiSignatureToken × Gate) × Bool))
    (h : Choice.Yields (sampleParam st inputLen tyArgsMap s p known) (some next))
    (htail : Samples st inputLen tyArgsMap rest next s') :
    Samples st inputLen tyArgsMap ((p, known) :: rest) s s' := by
  cases known with
  | false =>
    simp only [sampleParam, Bool.not_false, if_true] at h
    rw [Choice.yields_pure, Option.some.injEq] at h
    subst h
    exact .missing p false rest s s' htail
  | true =>
    simp only [sampleParam, Bool.not_true, Bool.false_eq_true, if_false] at h
    obtain ⟨ty, hty, h⟩ := Choice.yields_bind _ _ _ h
    have hty := Choice.yields_expect _ _ hty
    split at h
    · split at h
      · rename_i args hargs
        obtain ⟨next', hnext, h⟩ := Choice.yields_bind _ _ _ h
        rw [Choice.yields_pure, Option.some.injEq] at h
        subst h
        simp only [sampleExisting] at hnext
        split_ifs at hnext with hempty howned
        · rw [Choice.yields_pure] at hnext
          subst hnext
          exact .missing p true rest s s' htail
        all_goals
          obtain ⟨i, hi, hnext⟩ := Choice.yields_bind _ _ _ hnext
          obtain ⟨c, hc, hnext⟩ := Choice.yields_bind _ _ _ hnext
          have hc := Choice.yields_expect _ _ hc
          have hmem := (List.mem_filter.mp (Choice.yields_pick _ _ hi)).2
          rw [hc, Option.any_some] at hmem
          rw [Choice.yields_pure] at hnext
          subst hnext
        · exact .existing p rest s s' _ args i c hty hargs hc hmem (by rw [if_pos howned]; exact htail)
        · exact .existing p rest s s' _ args i c hty hargs hc hmem (by rw [if_neg howned]; exact htail)
      · rename_i hnone
        simp only [sampleFromPool] at h
        split_ifs at h
        · rw [Choice.yields_pure, Option.some.injEq] at h
          subst h
          exact .missing p true rest s s' htail
        · obtain ⟨id, hid, h⟩ := Choice.yields_bind _ _ _ h
          obtain ⟨havail, hunused⟩ := List.mem_filter.mp (Choice.yields_pick _ _ hid)
          cases hinput : (st.getMoveObjectInfo id).bind (objectInput id) with
          | none => simp [hinput, Choice.yields_pure] at h
          | some input =>
            simp only [hinput] at h
            rw [Choice.yields_pure, Option.some.injEq] at h
            subst h
            obtain ⟨object, hobject, hinput⟩ := Option.bind_eq_some_iff.mp hinput
            exact .pool p rest s s' _ id object input hty hnone havail (of_decide_eq_true hunused)
              hobject hinput htail
    · exact absurd h (Choice.not_yields_panic _)

theorem sampleParams_samples (params : List ((MoveAbiSignatureToken × Gate) × Bool))
    (s s' : Sampling)
    (h : Choice.Yields (sampleParams st inputLen tyArgsMap s params) (some s')) :
    Samples st inputLen tyArgsMap params s s' := by
  induction params generalizing s with
  | nil =>
    rw [sampleParams, Choice.yields_pure, Option.some.injEq] at h
    rw [h]
    exact .done s
  | cons p rest ih =>
    obtain ⟨p, known⟩ := p
    obtain ⟨r, hr, h⟩ := Choice.yields_bind _ _ _ h
    cases r with
    | none => simp [Choice.yields_pure] at h
    | some next => exact sampleParam_samples st inputLen tyArgsMap s next s' p known rest hr (ih next h)

end

/-- What a construction of arguments has drawn. -/
structure Drawn (st : FuzzState) (inputLen : ℕ) (params : List MoveAbiSignatureToken)
    (functionAbilities : List MoveAbility) (fixedTyArgs : TyArgs) (objectData : ObjectData) where
  withGates : List (MoveAbiSignatureToken × Gate)
  rows : List (List TyArgs)
  tyArgsMap : TyArgs
  sampling : Sampling
  samplable : ∀ param ∈ params, samplable param
  gated : params.mapM (withGate fixedTyArgs) = some withGates
  candidates : allCandidates st objectData.existingObjects functionAbilities withGates = some rows
  drawn : tyArgsMap ∈ getTyArgsCandidates (rows.filter fun row => !row.isEmpty)
  samples : Samples st inputLen tyArgsMap (withGates.zip (rows.map fun row => !row.isEmpty))
    ⟨objectData.existingObjects, objectData.usedObjectIds, [], []⟩ sampling

theorem tryConstructArgs_drawn (st : FuzzState) (inputLen : ℕ)
    (params : List MoveAbiSignatureToken) (functionAbilities : List MoveAbility)
    (fixedTyArgs : TyArgs) (objectData : ObjectData) (result : ConstructResult)
    (h : Choice.Yields (tryConstructArgs st inputLen params functionAbilities fixedTyArgs
      objectData) result) :
    result = .unsolvable ∨
    ∃ d : Drawn st inputLen params functionAbilities fixedTyArgs objectData,
      (∃ tys, d.sampling.returnArgs.all Option.isSome ∧
        Choice.Yields (finishTyArgs st d.tyArgsMap fixedTyArgs functionAbilities.zipIdx) tys ∧
        result = .ok (d.sampling.returnArgs.filterMap id) tys d.sampling.inputs) ∨
      ¬ d.sampling.returnArgs.all Option.isSome ∧
        result = .partialFound d.sampling.returnArgs (d.tyArgsMap.extend fixedTyArgs)
          d.sampling.inputs := by
  unfold tryConstructArgs at h
  split_ifs at h with hsamplable
  · exact .inl ((Choice.yields_pure _ _).mp h)
  · obtain ⟨withGates, hgates, h⟩ := Choice.yields_bind _ _ _ h
    obtain ⟨rows, hrows, h⟩ := Choice.yields_bind _ _ _ h
    dsimp only at h
    split_ifs at h with hcandidates
    · exact .inl ((Choice.yields_pure _ _).mp h)
    · obtain ⟨tyArgsMap, hpick, h⟩ := Choice.yields_bind _ _ _ h
      obtain ⟨sampled, hsampled, h⟩ := Choice.yields_bind _ _ _ h
      cases sampled with
      | none => exact .inl ((Choice.yields_pure _ _).mp h)
      | some s =>
        have hall : ∀ param ∈ params, samplable param := by
          intro param hparam
          by_contra hnot
          apply hsamplable
          rw [List.any_eq_true]
          exact ⟨param, hparam, by simp [hnot]⟩
        right
        refine ⟨⟨withGates, rows, tyArgsMap, s, hall, Choice.yields_expect _ _ hgates,
          Choice.yields_expect _ _ hrows, Choice.yields_pick _ _ hpick,
          sampleParams_samples _ _ _ _ _ _ hsampled⟩, ?_⟩
        dsimp only at h
        split_ifs at h with hsome
        · obtain ⟨tys, htys, h⟩ := Choice.yields_bind _ _ _ h
          exact .inl ⟨tys, hsome, htys, (Choice.yields_pure _ _).mp h⟩
        · exact .inr ⟨hsome, (Choice.yields_pure _ _).mp h⟩

/-! ### The loop over the parameters -/

section

variable (st : FuzzState) (ident : FunctionIdent) (inputLen : ℕ) (fixedArgs : FixedArgs)
  (tyArgs : TyArgs)
  (append : MoveSequence → FunctionIdent → TyArgs → List SequenceArgument →
    Choice (Option Appended × MoveSequence))

/-- A producer was appended and one of its results is the argument. -/
inductive Produced (d : Draft) (param : MoveAbiSignatureToken) : Draft → Prop where
  | intro (preFunc : MoveModuleId × MoveFunctionAbi) (argTyArg producingTyArg producing : TyArgs)
      (mapping : List (U16 × U16)) (retIdx : ℕ) (appended : Appended) (ptb : MoveSequence)
      (newCall : MoveCall) (settled : TyArgs) (ret : SequenceArgument)
      (hfunc : preFunc ∈ st.typeGraph.findProducers (param.partialSubst tyArgs) ident)
      (hmatch : firstMatch (param.partialSubst tyArgs) 0 preFunc.2.returnParamters =
        some ((argTyArg, producingTyArg, mapping), retIdx))
      (hlink : linkTyArgs d.typeArguments producingTyArg mapping = some producing)
      (happend : Choice.Yields (append d.ptb ⟨preFunc.1, preFunc.2.name⟩ producing d.usedArguments)
        (some appended, ptb))
      (hcall : lastCall ptb = some newCall)
      (hsettled : settledTyArgs newCall (tyArgs.extend argTyArg) mapping = some settled)
      (hret : appended.2[retIdx]? = some ret) :
      Produced d param { d with
        ptb := ptb
        arguments := d.arguments ++ [ret]
        typeArguments := d.typeArguments.extend settled
        usedArguments := if isReference param then d.usedArguments else d.usedArguments ++ [ret] }

theorem produceArg_produced (d next : Draft) (param : MoveAbiSignatureToken) (ptb : MoveSequence)
    (h : Choice.Yields (produceArg st ident tyArgs append d param) (some next, ptb)) :
    Produced st ident tyArgs append d param next := by
  simp only [produceArg] at h
  by_cases hfuncs : (st.typeGraph.findProducers (param.partialSubst tyArgs) ident).isEmpty
  · rw [if_pos hfuncs] at h
    simp [Choice.yields_pure] at h
  · rw [if_neg hfuncs] at h
    obtain ⟨preFunc, hpick, h⟩ := Choice.yields_bind _ _ _ h
    have hfunc := Choice.yields_pick _ _ hpick
    cases hmatch : firstMatch (param.partialSubst tyArgs) 0 preFunc.2.returnParamters with
    | none => simp [hmatch, Choice.yields_pure] at h
    | some found =>
      obtain ⟨⟨argTyArg, producingTyArg, mapping⟩, retIdx⟩ := found
      simp only [hmatch] at h
      cases hlink : linkTyArgs d.typeArguments producingTyArg mapping with
      | none => simp [hlink, Choice.yields_pure] at h
      | some producing =>
        simp only [hlink] at h
        obtain ⟨⟨r, ptb'⟩, happend, h⟩ := Choice.yields_bind _ _ _ h
        cases r with
        | none => simp [Choice.yields_pure] at h
        | some appended =>
          obtain ⟨newCall, hcall, h⟩ := Choice.yields_bind _ _ _ h
          obtain ⟨settled, hsettled, h⟩ := Choice.yields_bind _ _ _ h
          obtain ⟨ret, hret, h⟩ := Choice.yields_bind _ _ _ h
          rw [Choice.yields_pure, Prod.mk.injEq, Option.some.injEq] at h
          rw [h.1]
          exact .intro preFunc argTyArg producingTyArg producing mapping retIdx appended ptb'
            newCall settled ret hfunc hmatch hlink happend (Choice.yields_expect _ _ hcall)
            (Choice.yields_expect _ _ hsettled) (Choice.yields_expect _ _ hret)

/-- The loop over the parameters; the slots are the sampled arguments, and what is
missing is `produced`. -/
inductive Fills (produced : Draft → MoveAbiSignatureToken → Draft → Prop) :
    List (MoveAbiSignatureToken × ℕ) → List (Option SequenceArgument) → Draft → Draft → Prop where
  | done (slots : List (Option SequenceArgument)) (d : Draft) : Fills produced [] slots d d
  | fixed (param : MoveAbiSignatureToken) (i : ℕ) (rest : List (MoveAbiSignatureToken × ℕ))
      (slots : List (Option SequenceArgument)) (d d' : Draft) (arg : SequenceArgument)
      (ty : MoveTypeTag) (hfixed : fixedArgs.get? (asU16 i) = some (arg, ty))
      (htail : Fills produced rest slots { d with arguments := d.arguments ++ [arg] } d') :
      Fills produced ((param, i) :: rest) slots d d'
  | injected (param : MoveAbiSignatureToken) (i : ℕ) (rest : List (MoveAbiSignatureToken × ℕ))
      (slots : List (Option SequenceArgument)) (d d' : Draft)
      (hfixed : fixedArgs.get? (asU16 i) = none) (hctx : param.isTxContext = true)
      (htail : Fills produced rest slots d d') : Fills produced ((param, i) :: rest) slots d d'
  | sampled (param : MoveAbiSignatureToken) (i : ℕ) (rest : List (MoveAbiSignatureToken × ℕ))
      (slots : List (Option SequenceArgument)) (d d' : Draft) (arg : SequenceArgument)
      (hfixed : fixedArgs.get? (asU16 i) = none) (hctx : param.isTxContext = false)
      (hsample : param.needsSample = true)
      (htail : Fills produced rest slots { d with arguments := d.arguments ++ [arg] } d') :
      Fills produced ((param, i) :: rest) (some arg :: slots) d d'
  | produced (param : MoveAbiSignatureToken) (i : ℕ) (rest : List (MoveAbiSignatureToken × ℕ))
      (slots : List (Option SequenceArgument)) (d next d' : Draft)
      (hfixed : fixedArgs.get? (asU16 i) = none) (hctx : param.isTxContext = false)
      (hsample : param.needsSample = true)
      (hproduced : produced d param next)
      (htail : Fills produced rest slots next d') :
      Fills produced ((param, i) :: rest) (none :: slots) d d'
  | fresh (param : MoveAbiSignatureToken) (i : ℕ) (rest : List (MoveAbiSignatureToken × ℕ))
      (slots : List (Option SequenceArgument)) (d d' : Draft) (init v : InputArgument)
      (hfixed : fixedArgs.get? (asU16 i) = none) (hctx : param.isTxContext = false)
      (hsample : param.needsSample = false) (hinit : param.genInputArg = some init)
      (hmutate : Choice.Yields (mutateValue st init) v)
      (htail : Fills produced rest slots { d with
        arguments := d.arguments ++ [.input (asU16 (inputLen + d.inputs.length))]
        inputs := d.inputs ++ [v] } d') :
      Fills produced ((param, i) :: rest) slots d d'

theorem Fills.mono {produced produced' : Draft → MoveAbiSignatureToken → Draft → Prop}
    {params : List (MoveAbiSignatureToken × ℕ)} {slots : List (Option SequenceArgument)}
    {d d' : Draft} (h : Fills st inputLen fixedArgs produced params slots d d')
    (himp : ∀ d param next, produced d param next → produced' d param next) :
    Fills st inputLen fixedArgs produced' params slots d d' := by
  induction h with
  | done slots d => exact .done slots d
  | fixed param i rest slots d d' arg ty hfixed _ ih =>
    exact .fixed param i rest slots d d' arg ty hfixed ih
  | injected param i rest slots d d' hfixed hctx _ ih =>
    exact .injected param i rest slots d d' hfixed hctx ih
  | sampled param i rest slots d d' arg hfixed hctx hsample _ ih =>
    exact .sampled param i rest slots d d' arg hfixed hctx hsample ih
  | produced param i rest slots d next d' hfixed hctx hsample hproduced _ ih =>
    exact .produced param i rest slots d next d' hfixed hctx hsample (himp d param next hproduced) ih
  | fresh param i rest slots d d' init v hfixed hctx hsample hinit hmutate _ ih =>
    exact .fresh param i rest slots d d' init v hfixed hctx hsample hinit hmutate ih

theorem freshInput_yields (param : MoveAbiSignatureToken) (v : InputArgument)
    (h : Choice.Yields (freshInput st param) v) :
    ∃ init, param.genInputArg = some init ∧ Choice.Yields (mutateValue st init) v := by
  obtain ⟨init, hinit, h⟩ := Choice.yields_bind _ _ _ h
  exact ⟨init, Choice.yields_expect _ _ hinit, h⟩

/-- The loop of the partial case, whatever produces the missing arguments. -/
def fillArgs (produce : Draft → MoveAbiSignatureToken → Choice (Option Draft × MoveSequence)) :
    List (MoveAbiSignatureToken × ℕ) → List (Option SequenceArgument) → Draft →
      Choice (Option Draft × MoveSequence)
  | [], _, d => pure (some d, d.ptb)
  | (param, i) :: rest, args, d =>
    match fixedArgs.get? (asU16 i) with
    | some (arg, _) => fillArgs produce rest args { d with arguments := d.arguments ++ [arg] }
    | none =>
      if param.isTxContext then fillArgs produce rest args d
      else if param.needsSample then
        match args with
        | [] => Choice.panic
        | some arg :: args => fillArgs produce rest args { d with arguments := d.arguments ++ [arg] }
        | none :: args => do
          let (r, ptb) ← produce d param
          match r with
          | none => pure (none, ptb)
          | some next => fillArgs produce rest args next
      else do
        let v ← freshInput st param
        fillArgs produce rest args { d with
          arguments := d.arguments ++ [.input (asU16 (inputLen + d.inputs.length))]
          inputs := d.inputs ++ [v] }

theorem partialArgs_eq_fillArgs (params : List (MoveAbiSignatureToken × ℕ))
    (slots : List (Option SequenceArgument)) (d : Draft) :
    partialArgs st ident inputLen fixedArgs tyArgs append params slots d =
      fillArgs st inputLen fixedArgs (produceArg st ident tyArgs append) params slots d := by
  induction params generalizing slots d with
  | nil => rfl
  | cons p rest ih =>
    obtain ⟨param, i⟩ := p
    simp only [partialArgs, ih]
    rfl

theorem fillArgs_fills
    (produce : Draft → MoveAbiSignatureToken → Choice (Option Draft × MoveSequence))
    (params : List (MoveAbiSignatureToken × ℕ)) (slots : List (Option SequenceArgument))
    (d d' : Draft) (ptb : MoveSequence)
    (h : Choice.Yields (fillArgs st inputLen fixedArgs produce params slots d) (some d', ptb)) :
    Fills st inputLen fixedArgs
      (fun d param next => ∃ ptb, Choice.Yields (produce d param) (some next, ptb)) params slots d
      d' := by
  induction params generalizing slots d with
  | nil =>
    rw [fillArgs, Choice.yields_pure, Prod.mk.injEq, Option.some.injEq] at h
    rw [h.1]
    exact .done slots d
  | cons p rest ih =>
    obtain ⟨param, i⟩ := p
    unfold fillArgs at h
    cases hfixed : fixedArgs.get? (asU16 i) with
    | some e =>
      obtain ⟨arg, ty⟩ := e
      simp only [hfixed] at h
      exact .fixed param i rest slots d d' arg ty hfixed (ih slots _ h)
    | none =>
      simp only [hfixed] at h
      cases hctx : param.isTxContext with
      | true =>
        simp only [hctx, if_true] at h
        exact .injected param i rest slots d d' hfixed hctx (ih slots d h)
      | false =>
        cases hsample : param.needsSample with
        | true =>
          simp only [hctx, Bool.false_eq_true, if_false, hsample, if_true] at h
          match slots with
          | [] => exact absurd h (Choice.not_yields_panic _)
          | some arg :: slots =>
            exact .sampled param i rest slots d d' arg hfixed hctx hsample (ih slots _ h)
          | none :: slots =>
            obtain ⟨⟨r, ptb'⟩, hproduce, h⟩ := Choice.yields_bind _ _ _ h
            cases r with
            | none => simp [Choice.yields_pure] at h
            | some next =>
              exact .produced param i rest slots d next d' hfixed hctx hsample ⟨ptb', hproduce⟩
                (ih slots next h)
        | false =>
          simp only [hctx, hsample, Bool.false_eq_true, if_false] at h
          obtain ⟨v, hv, h⟩ := Choice.yields_bind _ _ _ h
          obtain ⟨init, hinit, hmutate⟩ := freshInput_yields st param v hv
          exact .fresh param i rest slots d d' init v hfixed hctx hsample hinit hmutate
            (ih slots _ h)

theorem completeArgs_fills (produced : Draft → MoveAbiSignatureToken → Draft → Prop)
    (params : List (MoveAbiSignatureToken × ℕ))
    (args arguments : List SequenceArgument) (inputs : List InputArgument)
    (r : List SequenceArgument × List InputArgument) (d : Draft)
    (h : Choice.Yields (completeArgs st inputLen fixedArgs params args arguments inputs) r) :
    Fills st inputLen fixedArgs produced params (args.map some)
      { d with arguments := arguments, inputs := inputs }
      { d with arguments := r.1, inputs := r.2 } := by
  induction params generalizing args arguments inputs with
  | nil =>
    rw [completeArgs, Choice.yields_pure] at h
    rw [h]
    exact .done _ _
  | cons p rest ih =>
    obtain ⟨param, i⟩ := p
    unfold completeArgs at h
    cases hfixed : fixedArgs.get? (asU16 i) with
    | some e =>
      obtain ⟨arg, ty⟩ := e
      simp only [hfixed] at h
      exact .fixed param i rest _ _ _ arg ty hfixed (ih args _ inputs h)
    | none =>
      simp only [hfixed] at h
      cases hctx : param.isTxContext with
      | true =>
        simp only [hctx, if_true] at h
        exact .injected param i rest _ _ _ hfixed hctx (ih args arguments inputs h)
      | false =>
        cases hsample : param.needsSample with
        | true =>
          simp only [hctx, Bool.false_eq_true, if_false, hsample, if_true] at h
          match args with
          | [] => exact absurd h (Choice.not_yields_panic _)
          | arg :: args =>
            exact .sampled param i rest _ _ _ arg hfixed hctx hsample (ih args _ inputs h)
        | false =>
          simp only [hctx, hsample, Bool.false_eq_true, if_false] at h
          obtain ⟨v, hv, h⟩ := Choice.yields_bind _ _ _ h
          obtain ⟨init, hinit, hmutate⟩ := freshInput_yields st param v hv
          exact .fresh param i rest _ _ _ init v hfixed hctx hsample hinit hmutate
            (ih args _ _ h)

/-! ### The whole run -/

/-- How the slots and the type arguments of a call came about. -/
inductive Constructed (ptb : MoveSequence) (function : MoveFunctionAbi) (fixedTyArgs : TyArgs)
    (objectData : ObjectData) (usedArguments : List SequenceArgument) :
    TyArgs → List (Option SequenceArgument) → Draft → Draft → List MoveTypeTag → Prop where
  | complete (args : List SequenceArgument) (typeArguments : List MoveTypeTag)
      (inputs : List InputArgument) (tyArgs : TyArgs) (d' : Draft)
      (hconstruct : Choice.Yields (tryConstructArgs st ptb.inputs.length
        (sampledParams fixedArgs function.parameters) function.typeParameters
        (hintTyArgs fixedArgs fixedTyArgs) objectData) (.ok args typeArguments inputs)) :
      Constructed ptb function fixedTyArgs objectData usedArguments tyArgs (args.map some)
        ⟨ptb, [], inputs, SortedMap.empty, usedArguments⟩ d' typeArguments
  | missing (slots : List (Option SequenceArgument)) (typeArguments : List MoveTypeTag)
      (inputs : List InputArgument) (tyArgs : TyArgs) (d' : Draft)
      (hconstruct : Choice.Yields (tryConstructArgs st ptb.inputs.length
        (sampledParams fixedArgs function.parameters) function.typeParameters
        (hintTyArgs fixedArgs fixedTyArgs) objectData) (.partialFound slots tyArgs inputs))
      (hfill : Choice.Yields (fillTyArgs st d'.typeArguments function.typeParameters.zipIdx)
        typeArguments) :
      Constructed ptb function fixedTyArgs objectData usedArguments tyArgs slots
        ⟨ptb, [], inputs, SortedMap.empty, takenArgs slots (sampledParams fixedArgs
          function.parameters) ++ usedArguments⟩ d' typeArguments

end

/-- A run that returns a call. -/
structure AppendRun (st : FuzzState)
    (append : MoveSequence → FunctionIdent → TyArgs → List SequenceArgument →
      Choice (Option Appended × MoveSequence))
    (ptb : MoveSequence) (ident : FunctionIdent) (fixedArgs : FixedArgs) (fixedTyArgs : TyArgs)
    (usedArguments : List SequenceArgument) (disableSplit : Bool) (appended : Appended)
    (ptb' : MoveSequence) where
  objectData : ObjectData
  function : MoveFunctionAbi
  tyArgs : TyArgs
  slots : List (Option SequenceArgument)
  start : Draft
  draft : Draft
  typeArguments : List MoveTypeTag
  data : ObjectData.fromPtbAndRemoveUsed st ptb usedArguments = some objectData
  found : st.getFunction ident.moduleId.moduleAddress ident.moduleId.moduleName ident.function =
    some function
  constructed : Constructed st fixedArgs ptb function fixedTyArgs objectData usedArguments tyArgs
    slots start draft typeArguments
  fills : Fills st ptb.inputs.length fixedArgs (Produced st ident tyArgs append)
    function.parameters.zipIdx slots start draft
  finished : Finished function ident disableSplit ptb.inputs.length draft.ptb draft.arguments
    typeArguments draft.inputs appended ptb'

def ConstructResult.slots : ConstructResult → List (Option SequenceArgument)
  | .ok args _ _ => args.map some
  | .partialFound args _ _ => args
  | .unsolvable => []

def ConstructResult.inputs : ConstructResult → List InputArgument
  | .ok _ _ inputs => inputs
  | .partialFound _ _ inputs => inputs
  | .unsolvable => []

def ConstructResult.tyArgs : ConstructResult → TyArgs
  | .partialFound _ tyArgs _ => tyArgs
  | _ => SortedMap.empty

def appendResult (st : FuzzState)
    (produce : MoveFunctionAbi → TyArgs → Draft → MoveAbiSignatureToken →
      Choice (Option Draft × MoveSequence))
    (ptb : MoveSequence) (ident : FunctionIdent) (fixedArgs : FixedArgs)
    (usedArguments : List SequenceArgument) (disableSplit : Bool) (function : MoveFunctionAbi)
    (result : ConstructResult) : Choice (Option Appended × MoveSequence) :=
  let inputLen := ptb.inputs.length
  match result with
  | .unsolvable => pure (none, ptb)
  | .ok args tyArgs inputs => do
    let (arguments, inputs) ← completeArgs st inputLen fixedArgs function.parameters.zipIdx args
      [] inputs
    finishAppend function ident disableSplit inputLen ptb arguments tyArgs inputs
  | .partialFound args tyArgs inputs => do
    let (r, ptb) ← fillArgs st inputLen fixedArgs (produce function tyArgs)
      function.parameters.zipIdx args
      ⟨ptb, [], inputs, SortedMap.empty,
        takenArgs args (sampledParams fixedArgs function.parameters) ++ usedArguments⟩
    match r with
    | none => pure (none, ptb)
    | some d => do
      let tyArgs ← fillTyArgs st d.typeArguments function.typeParameters.zipIdx
      finishAppend function ident disableSplit inputLen d.ptb d.arguments tyArgs d.inputs

/-- One level of the recursion, whatever produces the missing arguments. -/
def appendStepWith (st : FuzzState)
    (produce : MoveFunctionAbi → TyArgs → Draft → MoveAbiSignatureToken →
      Choice (Option Draft × MoveSequence))
    (ptb : MoveSequence) (ident : FunctionIdent) (fixedArgs : FixedArgs) (fixedTyArgs : TyArgs)
    (usedArguments : List SequenceArgument) (disableSplit : Bool) :
    Choice (Option Appended × MoveSequence) := do
  let objectData ← Choice.expect (ObjectData.fromPtbAndRemoveUsed st ptb usedArguments)
  let function ← Choice.expect
    (st.getFunction ident.moduleId.moduleAddress ident.moduleId.moduleName ident.function)
  let result ← tryConstructArgs st ptb.inputs.length (sampledParams fixedArgs function.parameters)
    function.typeParameters (hintTyArgs fixedArgs fixedTyArgs) objectData
  appendResult st produce ptb ident fixedArgs usedArguments disableSplit function result

theorem appendStep_eq_with (st : FuzzState)
    (append : MoveSequence → FunctionIdent → TyArgs → List SequenceArgument →
      Choice (Option Appended × MoveSequence))
    (ptb : MoveSequence) (ident : FunctionIdent) (fixedArgs : FixedArgs) (fixedTyArgs : TyArgs)
    (usedArguments : List SequenceArgument) (disableSplit : Bool) :
    appendStep st append ptb ident fixedArgs fixedTyArgs usedArguments disableSplit =
      appendStepWith st (fun _ tyArgs => produceArg st ident tyArgs append) ptb ident fixedArgs
        fixedTyArgs usedArguments disableSplit := by
  unfold appendStep
  simp only [partialArgs_eq_fillArgs]
  rfl

theorem appendResult_run (st : FuzzState)
    (produce : MoveFunctionAbi → TyArgs → Draft → MoveAbiSignatureToken →
      Choice (Option Draft × MoveSequence))
    (append : MoveSequence → FunctionIdent → TyArgs → List SequenceArgument →
      Choice (Option Appended × MoveSequence))
    (ptb : MoveSequence) (ident : FunctionIdent) (fixedArgs : FixedArgs) (fixedTyArgs : TyArgs)
    (usedArguments : List SequenceArgument) (disableSplit : Bool) (appended : Appended)
    (ptb' : MoveSequence) (objectData : ObjectData) (function : MoveFunctionAbi)
    (result : ConstructResult)
    (hproduce : ∀ function tyArgs d param next ptb,
      Choice.Yields (produce function tyArgs d param) (some next, ptb) →
        Produced st ident tyArgs append d param next)
    (hdata : ObjectData.fromPtbAndRemoveUsed st ptb usedArguments = some objectData)
    (hfunction : st.getFunction ident.moduleId.moduleAddress ident.moduleId.moduleName
      ident.function = some function)
    (hresult : Choice.Yields (tryConstructArgs st ptb.inputs.length
      (sampledParams fixedArgs function.parameters) function.typeParameters
      (hintTyArgs fixedArgs fixedTyArgs) objectData) result)
    (h : Choice.Yields (appendResult st produce ptb ident fixedArgs usedArguments disableSplit
      function result) (some appended, ptb')) :
    ∃ run : AppendRun st append ptb ident fixedArgs fixedTyArgs usedArguments disableSplit appended
        ptb',
      (run.slots = result.slots ∧ run.start.inputs = result.inputs ∧ run.tyArgs = result.tyArgs) ∧
      Fills st ptb.inputs.length fixedArgs
        (fun d param next => ∃ ptb,
          Choice.Yields (produce run.function run.tyArgs d param) (some next, ptb))
        run.function.parameters.zipIdx run.slots run.start run.draft := by
  cases result with
  | unsolvable =>
    have := (Choice.yields_pure _ _).mp h
    cases this
  | ok args typeArguments inputs =>
    obtain ⟨built, hbuilt, h⟩ := Choice.yields_bind _ _ _ h
    obtain ⟨finished⟩ := (finishAppend_finished _ _ _ _ _ _ _ _).of_yields h appended rfl
    have hfills := fun produced => completeArgs_fills st ptb.inputs.length fixedArgs produced
      function.parameters.zipIdx args [] inputs built
      ⟨ptb, [], inputs, SortedMap.empty, usedArguments⟩ hbuilt
    exact ⟨⟨objectData, function, SortedMap.empty, _, _, _, typeArguments, hdata, hfunction,
      .complete args typeArguments inputs _ _ hresult, hfills _, finished⟩, ⟨rfl, rfl, rfl⟩,
      hfills _⟩
  | partialFound slots tyArgs inputs =>
    obtain ⟨⟨r, mid⟩, hloop, h⟩ := Choice.yields_bind _ _ _ h
    cases r with
    | none =>
      have := (Choice.yields_pure _ _).mp h
      cases this
    | some d =>
      obtain ⟨typeArguments, hfill, h⟩ := Choice.yields_bind _ _ _ h
      obtain ⟨finished⟩ := (finishAppend_finished _ _ _ _ _ _ _ _).of_yields h appended rfl
      have hfills := fillArgs_fills st ptb.inputs.length fixedArgs (produce function tyArgs)
        function.parameters.zipIdx slots _ d mid hloop
      have hproduced := hfills.mono st ptb.inputs.length fixedArgs fun d param next hnext =>
        hproduce function tyArgs d param next hnext.choose hnext.choose_spec
      exact ⟨⟨objectData, function, tyArgs, slots, _, d, typeArguments, hdata, hfunction,
        .missing slots typeArguments inputs tyArgs d hresult hfill, hproduced, finished⟩,
        ⟨rfl, rfl, rfl⟩, hfills⟩

theorem appendStepWith_run (st : FuzzState)
    (produce : MoveFunctionAbi → TyArgs → Draft → MoveAbiSignatureToken →
      Choice (Option Draft × MoveSequence))
    (append : MoveSequence → FunctionIdent → TyArgs → List SequenceArgument →
      Choice (Option Appended × MoveSequence))
    (ptb : MoveSequence) (ident : FunctionIdent) (fixedArgs : FixedArgs) (fixedTyArgs : TyArgs)
    (usedArguments : List SequenceArgument) (disableSplit : Bool) (appended : Appended)
    (ptb' : MoveSequence)
    (hproduce : ∀ function tyArgs d param next ptb,
      Choice.Yields (produce function tyArgs d param) (some next, ptb) →
        Produced st ident tyArgs append d param next)
    (h : Choice.Yields (appendStepWith st produce ptb ident fixedArgs fixedTyArgs usedArguments
      disableSplit) (some appended, ptb')) :
    ∃ run : AppendRun st append ptb ident fixedArgs fixedTyArgs usedArguments disableSplit appended
        ptb',
      Fills st ptb.inputs.length fixedArgs
        (fun d param next => ∃ ptb,
          Choice.Yields (produce run.function run.tyArgs d param) (some next, ptb))
        run.function.parameters.zipIdx run.slots run.start run.draft := by
  obtain ⟨objectData, hdata, h⟩ := Choice.yields_bind _ _ _ h
  obtain ⟨function, hfunction, h⟩ := Choice.yields_bind _ _ _ h
  obtain ⟨result, hresult, h⟩ := Choice.yields_bind _ _ _ h
  obtain ⟨run, -, hfills⟩ := appendResult_run st produce append ptb ident fixedArgs fixedTyArgs
    usedArguments disableSplit appended ptb' objectData function result hproduce
    (Choice.yields_expect _ _ hdata) (Choice.yields_expect _ _ hfunction) hresult h
  exact ⟨run, hfills⟩

theorem appendStep_run (st : FuzzState)
    (append : MoveSequence → FunctionIdent → TyArgs → List SequenceArgument →
      Choice (Option Appended × MoveSequence))
    (ptb : MoveSequence) (ident : FunctionIdent) (fixedArgs : FixedArgs) (fixedTyArgs : TyArgs)
    (usedArguments : List SequenceArgument) (disableSplit : Bool) (appended : Appended)
    (ptb' : MoveSequence)
    (h : Choice.Yields (appendStep st append ptb ident fixedArgs fixedTyArgs usedArguments
      disableSplit) (some appended, ptb')) :
    Nonempty (AppendRun st append ptb ident fixedArgs fixedTyArgs usedArguments disableSplit
      appended ptb') := by
  rw [appendStep_eq_with] at h
  obtain ⟨run, _⟩ := appendStepWith_run st _ append ptb ident fixedArgs fixedTyArgs usedArguments
    disableSplit appended ptb' (fun _ tyArgs d param next ptb =>
      produceArg_produced st ident tyArgs append d next param ptb) h
  exact ⟨run⟩

/-- The producers of a run have less depth left. -/
def appendProducer (st : FuzzState) (fuel : ℕ) (ptb : MoveSequence) (ident : FunctionIdent)
    (tyArgs : TyArgs) (used : List SequenceArgument) : Choice (Option Appended × MoveSequence) :=
  appendFunction st fuel ptb ident SortedMap.empty tyArgs used false

theorem appendFunction_run (st : FuzzState) (fuel : ℕ) (ptb : MoveSequence)
    (ident : FunctionIdent) (fixedArgs : FixedArgs) (fixedTyArgs : TyArgs)
    (usedArguments : List SequenceArgument) (disableSplit : Bool) (appended : Appended)
    (ptb' : MoveSequence)
    (h : Choice.Yields (appendFunction st fuel ptb ident fixedArgs fixedTyArgs usedArguments
      disableSplit) (some appended, ptb')) :
    ∃ n, fuel = n + 1 ∧ Nonempty (AppendRun st (appendProducer st n) ptb ident fixedArgs
      fixedTyArgs usedArguments disableSplit appended ptb') := by
  cases fuel with
  | zero =>
    have := (Choice.yields_pure _ _).mp h
    cases this
  | succ n =>
    exact ⟨n, rfl, appendStep_run st (appendProducer st n) ptb ident fixedArgs fixedTyArgs
      usedArguments disableSplit appended ptb' h⟩

/-! ### Growing along a run -/

theorem Fills.grows {st : FuzzState} {ident : FunctionIdent} {inputLen : ℕ}
    {fixedArgs : FixedArgs} {tyArgs : TyArgs}
    {append : MoveSequence → FunctionIdent → TyArgs → List SequenceArgument →
      Choice (Option Appended × MoveSequence)}
    (happend : ∀ ptb ident tyArgs used,
      Choice.Ensures (append ptb ident tyArgs used) fun r => GrowsFreely ptb r.2)
    {params : List (MoveAbiSignatureToken × ℕ)} {slots : List (Option SequenceArgument)}
    {d d' : Draft}
    (h : Fills st inputLen fixedArgs (Produced st ident tyArgs append) params slots d d') :
    GrowsFreely d.ptb d'.ptb := by
  induction h with
  | done slots d => exact Grows.refl _ _
  | fixed _ _ _ _ _ _ _ _ _ _ ih => exact ih
  | injected _ _ _ _ _ _ _ _ _ ih => exact ih
  | sampled _ _ _ _ _ _ _ _ _ _ _ ih => exact ih
  | produced param i rest slots d next d' hfixed hctx hsample hproduced _ ih =>
    cases hproduced with
    | intro _ _ _ _ _ _ _ _ _ _ _ _ _ _ hrun => exact Grows.trans ((happend _ _ _ _).of_yields hrun) ih
  | fresh _ _ _ _ _ _ _ _ _ _ _ _ _ _ ih => exact ih

theorem Fills.inputs_grow {st : FuzzState} {ident : FunctionIdent} {inputLen : ℕ}
    {fixedArgs : FixedArgs} {tyArgs : TyArgs}
    {append : MoveSequence → FunctionIdent → TyArgs → List SequenceArgument →
      Choice (Option Appended × MoveSequence)}
    {params : List (MoveAbiSignatureToken × ℕ)} {slots : List (Option SequenceArgument)}
    {d d' : Draft}
    (h : Fills st inputLen fixedArgs (Produced st ident tyArgs append) params slots d d') :
    d.inputs <+: d'.inputs := by
  induction h with
  | done slots d => exact List.prefix_rfl
  | fixed _ _ _ _ _ _ _ _ _ _ ih => exact ih
  | injected _ _ _ _ _ _ _ _ _ ih => exact ih
  | sampled _ _ _ _ _ _ _ _ _ _ _ ih => exact ih
  | produced _ _ _ _ _ _ _ _ _ _ hproduced _ ih =>
    cases hproduced
    exact ih
  | fresh _ _ _ _ _ _ _ _ _ _ _ _ _ _ ih => exact (List.prefix_append ..).trans ih

theorem appendProducer_grows (st : FuzzState) (fuel : ℕ) (ptb : MoveSequence)
    (ident : FunctionIdent) (tyArgs : TyArgs) (used : List SequenceArgument) :
    Choice.Ensures (appendProducer st fuel ptb ident tyArgs used) fun r => GrowsFreely ptb r.2 :=
  appendFunction_grows st fuel ptb ident SortedMap.empty tyArgs used false

theorem Constructed.start_ptb {st : FuzzState} {fixedArgs : FixedArgs} {ptb : MoveSequence}
    {function : MoveFunctionAbi} {fixedTyArgs : TyArgs} {objectData : ObjectData}
    {used : List SequenceArgument} {tyArgs : TyArgs} {slots : List (Option SequenceArgument)}
    {start draft : Draft} {typeArguments : List MoveTypeTag}
    (h : Constructed st fixedArgs ptb function fixedTyArgs objectData used tyArgs slots start draft
      typeArguments) : start.ptb = ptb ∧ start.arguments = [] := by
  cases h <;> exact ⟨rfl, rfl⟩

theorem Finished.lastCall_eq {function : MoveFunctionAbi} {ident : FunctionIdent}
    {disableSplit : Bool} {inputLen : ℕ} {ptb : MoveSequence} {arguments : List SequenceArgument}
    {typeArguments : List MoveTypeTag} {inputs : List InputArgument} {appended : Appended}
    {ptb' : MoveSequence}
    (f : Finished function ident disableSplit inputLen ptb arguments typeArguments inputs appended
      ptb') :
    lastCall ptb' = some ⟨ident.moduleId.moduleAddress, ident.moduleId.moduleName, ident.function,
      typeArguments, appended.1⟩ := by
  have hlast := congrArg lastCall f.result
  simpa [lastCall] using hlast

theorem map_some_filterMap_id {α : Type} (l : List (Option α)) (h : l.all Option.isSome) :
    (l.filterMap id).map some = l := by
  induction l with
  | nil => rfl
  | cons o l ih =>
    rw [List.all_cons, Bool.and_eq_true] at h
    obtain ⟨a, rfl⟩ := Option.isSome_iff_exists.mp h.1
    show some a :: (l.filterMap id).map some = some a :: l
    rw [ih h.2]

section

variable {st : FuzzState} {fixedArgs : FixedArgs} {ptb : MoveSequence} {function : MoveFunctionAbi}
  {fixedTyArgs : TyArgs} {objectData : ObjectData} {used : List SequenceArgument} {tyArgs : TyArgs}
  {slots : List (Option SequenceArgument)} {start draft : Draft} {typeArguments : List MoveTypeTag}

theorem Constructed.drawn
    (h : Constructed st fixedArgs ptb function fixedTyArgs objectData used tyArgs slots start draft
      typeArguments) :
    ∃ d : Drawn st ptb.inputs.length (sampledParams fixedArgs function.parameters)
        function.typeParameters (hintTyArgs fixedArgs fixedTyArgs) objectData,
      start.inputs = d.sampling.inputs ∧ slots = d.sampling.returnArgs ∧
        (slots.all Option.isSome ∧ Choice.Yields (finishTyArgs st d.tyArgsMap
            (hintTyArgs fixedArgs fixedTyArgs) function.typeParameters.zipIdx) typeArguments ∨
          ¬ slots.all Option.isSome ∧ tyArgs = d.tyArgsMap.extend (hintTyArgs fixedArgs fixedTyArgs) ∧
            Choice.Yields (fillTyArgs st draft.typeArguments function.typeParameters.zipIdx)
              typeArguments) := by
  cases h with
  | complete args typeArguments inputs tyArgs d' hconstruct =>
    rcases tryConstructArgs_drawn st _ _ _ _ _ _ hconstruct with h | ⟨d, h | h⟩
    · cases h
    · obtain ⟨tys, hall, hfinish, h⟩ := h
      cases h
      have hslots := map_some_filterMap_id _ hall
      exact ⟨d, rfl, hslots, .inl ⟨by rw [hslots]; exact hall, hfinish⟩⟩
    · cases h.2
  | missing slots typeArguments inputs tyArgs d' hconstruct hfill =>
    rcases tryConstructArgs_drawn st _ _ _ _ _ _ hconstruct with h | ⟨d, h | h⟩
    · cases h
    · obtain ⟨tys, hall, _, h⟩ := h
      cases h
    · obtain ⟨hnot, h⟩ := h
      cases h
      exact ⟨d, rfl, rfl, .inr ⟨hnot, rfl, hfill⟩⟩

theorem Constructed.start_drawn
    (h : Constructed st fixedArgs ptb function fixedTyArgs objectData used tyArgs slots start draft
      typeArguments) :
    ∃ d : Drawn st ptb.inputs.length (sampledParams fixedArgs function.parameters)
      function.typeParameters (hintTyArgs fixedArgs fixedTyArgs) objectData,
      start.inputs = d.sampling.inputs ∧ slots = d.sampling.returnArgs := by
  obtain ⟨d, hinputs, hslots, -⟩ := h.drawn
  exact ⟨d, hinputs, hslots⟩

end

/-! ### Counting new inputs -/

theorem Samples.inputs_length {st : FuzzState} {inputLen : ℕ} {tyArgsMap : TyArgs}
    {params : List ((MoveAbiSignatureToken × Gate) × Bool)} {s s' : Sampling}
    (h : Samples st inputLen tyArgsMap params s s') :
    s'.inputs.length ≤ s.inputs.length + params.length := by
  induction h with
  | done s => exact Nat.le_add_right ..
  | missing _ _ _ _ _ _ ih =>
    simp only [List.length_cons] at ih ⊢
    omega
  | existing _ _ _ _ _ _ _ _ _ _ _ _ _ ih =>
    simp only [List.length_cons] at ih ⊢
    omega
  | pool _ _ _ _ _ _ _ _ _ _ _ _ _ _ _ ih =>
    simp only [List.length_append, List.length_cons, List.length_nil] at ih ⊢
    omega

def freshParams (fixedArgs : FixedArgs) (params : List (MoveAbiSignatureToken × ℕ)) :
    List (MoveAbiSignatureToken × ℕ) :=
  params.filter fun e => (fixedArgs.get? (asU16 e.2)).isNone && !e.1.needsSample

theorem Fills.inputs_length {st : FuzzState} {ident : FunctionIdent} {inputLen : ℕ}
    {fixedArgs : FixedArgs} {tyArgs : TyArgs}
    {append : MoveSequence → FunctionIdent → TyArgs → List SequenceArgument →
      Choice (Option Appended × MoveSequence)}
    {params : List (MoveAbiSignatureToken × ℕ)} {slots : List (Option SequenceArgument)}
    {d d' : Draft}
    (h : Fills st inputLen fixedArgs (Produced st ident tyArgs append) params slots d d') :
    d'.inputs.length ≤ d.inputs.length + (freshParams fixedArgs params).length := by
  have hcons : ∀ e rest, (freshParams fixedArgs rest).length ≤
      (freshParams fixedArgs (e :: rest)).length := by
    intro e rest
    exact ((List.sublist_cons_self e rest).filter _).length_le
  induction h with
  | done slots d => exact Nat.le_add_right ..
  | fixed param i rest _ _ _ _ _ _ _ ih => exact ih.trans (Nat.add_le_add_left (hcons _ _) _)
  | injected param i rest _ _ _ _ _ _ ih => exact ih.trans (Nat.add_le_add_left (hcons _ _) _)
  | sampled param i rest _ _ _ _ _ _ _ _ ih => exact ih.trans (Nat.add_le_add_left (hcons _ _) _)
  | produced param i rest _ _ _ _ _ _ _ hproduced _ ih =>
    cases hproduced
    exact ih.trans (Nat.add_le_add_left (hcons _ _) _)
  | fresh param i rest slots d d' init v hfixed hctx hsample hinit hmutate _ ih =>
    have hhead : freshParams fixedArgs ((param, i) :: rest) =
        (param, i) :: freshParams fixedArgs rest := by
      simp [freshParams, hfixed, hsample]
    rw [hhead]
    simp only [List.length_append, List.length_cons, List.length_nil] at ih ⊢
    omega

theorem filter_disjoint_length {α : Type} (p q : α → Bool) (l : List α)
    (h : ∀ a, p a = true → q a = false) :
    (l.filter p).length + (l.filter q).length ≤ l.length := by
  induction l with
  | nil => exact Nat.le_refl _
  | cons a l ih =>
    cases hp : p a with
    | true =>
      simp only [List.filter_cons, hp, h a hp, Bool.false_eq_true, if_true, if_false,
        List.length_cons]
      omega
    | false =>
      simp only [List.filter_cons, hp, Bool.false_eq_true, if_false, List.length_cons]
      split_ifs
      · simp only [List.length_cons]
        omega
      · omega

/-- A call brings at most one new input for each parameter, before splits. -/
theorem AppendRun.inputs_length {st : FuzzState}
    {append : MoveSequence → FunctionIdent → TyArgs → List SequenceArgument →
      Choice (Option Appended × MoveSequence)}
    {ptb : MoveSequence} {ident : FunctionIdent} {fixedArgs : FixedArgs} {fixedTyArgs : TyArgs}
    {used : List SequenceArgument} {disableSplit : Bool} {appended : Appended}
    {ptb' : MoveSequence}
    (run : AppendRun st append ptb ident fixedArgs fixedTyArgs used disableSplit appended ptb') :
    run.draft.inputs.length ≤ run.function.parameters.length := by
  obtain ⟨d, hinputs, _⟩ := run.constructed.start_drawn
  have hsampled := d.samples.inputs_length
  have hfresh := run.fills.inputs_length
  have hgates : d.withGates.length = (sampledParams fixedArgs run.function.parameters).length :=
    (mapM_forall₂ _ _ _ d.gated).length_eq.symm
  have hdisjoint := filter_disjoint_length
    (fun e : MoveAbiSignatureToken × ℕ => (fixedArgs.get? (asU16 e.2)).isNone && e.1.needsSample)
    (fun e => (fixedArgs.get? (asU16 e.2)).isNone && !e.1.needsSample)
    run.function.parameters.zipIdx (by
      intro e he
      rw [Bool.and_eq_true] at he
      simp [he.2])
  rw [List.length_zipIdx] at hdisjoint
  simp only [List.length_zip, List.length_nil, Nat.zero_add] at hsampled
  simp only [sampledParams, List.length_map] at hgates
  unfold freshParams at hfresh
  rw [hinputs] at hfresh
  omega

end Movy.Fuzz
