import Movy.Fuzz.Agree

/-!
# The types of the arguments of a call that is put together

What is sampled has the type of its parameter under the type arguments that were
drawn, and what a producer returns has it under those that it settled. As long as
producers agree, all of them hold under the type arguments that are known at the
end.
-/

namespace Movy.Fuzz

open Movy.Types Movy.Store MoveAbiSignatureToken

/-! ### What is known of the environment -/

def splitModule (param : MoveAbiSignatureToken) : String :=
  if param.isBalance then "balance" else "coin"

/- A parameter that is split has one type argument, and the `split` of the framework
returns what it is given. -/
def SplitKnown (st : FuzzState) (param : MoveAbiSignatureToken) : Prop :=
  ∃ handle inner split handle' ability, param = .structInstantiation handle [inner] ∧
    st.getFunction MoveAddress.two (splitModule param) "split" = some split ∧
    split.returnParamters = [.structInstantiation handle' [.typeParameter 0 ability]] ∧
    handle'.moduleId = handle.moduleId ∧ handle'.structName = handle.structName

/- The metadata was read off packages and objects that exist. -/
structure MetaWellFormed (st : FuzzState) : Prop where
  returns : ReturnsFit st
  arity : ∀ address module name function,
    st.getFunction address module name = some function →
    function.typeParameters.length ≤ 2 ^ 16
  parameters : ∀ address module name function,
    st.getFunction address module name = some function →
    ∀ param ∈ function.parameters, param.instantiable function.typeParameters.length = true
  results : ∀ address module name function,
    st.getFunction address module name = some function →
    ∀ ret ∈ function.returnParamters, ret.instantiable function.typeParameters.length = true
  splits : ∀ address module name function,
    st.getFunction address module name = some function →
    ∀ param ∈ function.parameters, isSplitParam param = true → SplitKnown st param
  graph : ∀ e ∈ st.typeGraph.functions,
    st.getFunction e.1.moduleAddress e.1.moduleName e.2.name = some e.2
  pool : ∀ ty ids id object, st.typesPool.get? ty = some ids → id ∈ ids →
    st.getMoveObjectInfo id = some object → object.ty = ty
  defaults : ∀ ability tys ty, st.abilityToTypeTag ability = some tys → ty ∈ tys →
    st.getTypeTagAbility ty = some ability

/-! ### Sampled arguments -/

/- The argument is listed under the type, or it is a new input of that type. -/
def SampledAt (inputLen : ℕ) (objects : ExistingObjects) (inputs : List InputArgument)
    (ty : MoveTypeTag) (arg : SequenceArgument) : Prop :=
  Lists objects ty arg ∨ ∃ j v, arg = .input (asU16 (inputLen + j)) ∧ inputs[j]? = some v ∧
    InputArgument.typeTag v = ty

theorem objectInput_type (id : MoveAddress) (object : MoveObjectInfo) (input : InputArgument)
    (h : objectInput id object = some input) : InputArgument.typeTag input = object.ty := by
  obtain ⟨obj, rfl, -⟩ := objectInput_cases id object input h
  rfl

theorem SampledFor.at {st : FuzzState} (hst : MetaWellFormed st) {inputLen : ℕ}
    {objects : ExistingObjects} {inputs : List InputArgument} {gate : Gate} {ty : MoveTypeTag}
    {arg : SequenceArgument} (h : SampledFor st inputLen objects inputs gate ty arg) :
    SampledAt inputLen objects inputs ty arg := by
  rcases h with ⟨args, c, hargs, hc, _, rfl⟩ | ⟨j, id, object, input, harg, hj, hid, hobject, hinput⟩
  · exact .inl ⟨args, hargs, List.mem_map_of_mem hc⟩
  · refine .inr ⟨j, input, harg, hj, ?_⟩
    rw [objectInput_type id object input hinput]
    -- the pool lists the id under the type
    have hmem := List.mem_of_mem_filter hid
    cases hids : st.typesPool.get? ty with
    | none => simp [hids] at hmem
    | some ids =>
      rw [hids, Option.getD_some] at hmem
      exact hst.pool ty ids id object hids hmem hobject

theorem Drawn.slots_typed {st : FuzzState} (hst : MetaWellFormed st) {inputLen : ℕ}
    {params : List MoveAbiSignatureToken} {abilities : List MoveAbility} {fixedTyArgs : TyArgs}
    {data : ObjectData} (d : Drawn st inputLen params abilities fixedTyArgs data) (k : ℕ)
    (param : MoveAbiSignatureToken) (arg : SequenceArgument) (hparam : params[k]? = some param)
    (hk : d.sampling.returnArgs[k]? = some (some arg)) :
    ∃ ty, param.subst (d.tyArgsMap.extend fixedTyArgs) = some ty ∧
      SampledAt inputLen data.existingObjects d.sampling.inputs ty arg := by
  obtain ⟨p, ty, hgate, hty, hsampled⟩ := d.sampled k param arg hparam hk
  refine ⟨ty, ?_, hsampled.at hst⟩
  rw [← (withGate_spec fixedTyArgs param p hgate).1]
  exact hty

/-! ### Arguments of a draft -/

def draftType (st : FuzzState) (inputLen : ℕ) (inputs : List InputArgument) (ptb : MoveSequence) :
    SequenceArgument → Option MoveTypeTag
  | .input i =>
    if i.val < inputLen then argType st ptb (.input i)
    else (inputs[i.val - inputLen]?).map InputArgument.typeTag
  | arg => argType st ptb arg

/- The argument has the type of the parameter under the type arguments. -/
def DraftTyped (st : FuzzState) (inputLen : ℕ) (known : TyArgs) (inputs : List InputArgument)
    (ptb : MoveSequence) (param : MoveAbiSignatureToken) (arg : SequenceArgument) : Prop :=
  ∃ ty, draftType st inputLen inputs ptb arg = some ty ∧ param.subst known = some ty

theorem draftType_grows (st : FuzzState) (inputLen : ℕ) (inputs inputs' : List InputArgument)
    (ptb ptb' : MoveSequence) (arg : SequenceArgument) (ty : MoveTypeTag)
    (hin : inputs <+: inputs') (hgrows : GrowsFreely ptb ptb')
    (h : draftType st inputLen inputs ptb arg = some ty) :
    draftType st inputLen inputs' ptb' arg = some ty := by
  cases arg with
  | input i =>
    simp only [draftType] at h ⊢
    split_ifs at h ⊢
    · exact argType_grows st ptb ptb' _ ty hgrows h
    · obtain ⟨v, hv, rfl⟩ := Option.map_eq_some_iff.mp h
      obtain ⟨tail, rfl⟩ := hin
      rw [List.getElem?_append_left (List.getElem?_eq_some_iff.mp hv).1, hv, Option.map_some]
  | gasCoin => exact argType_grows st ptb ptb' .gasCoin ty hgrows h
  | result i => exact argType_grows st ptb ptb' (.result i) ty hgrows h
  | nestedResult i j => exact argType_grows st ptb ptb' (.nestedResult i j) ty hgrows h

theorem DraftTyped.grows {st : FuzzState} {inputLen : ℕ} {known : TyArgs}
    {inputs inputs' : List InputArgument} {ptb ptb' : MoveSequence}
    {param : MoveAbiSignatureToken} {arg : SequenceArgument}
    (h : DraftTyped st inputLen known inputs ptb param arg) (hin : inputs <+: inputs')
    (hgrows : GrowsFreely ptb ptb') : DraftTyped st inputLen known inputs' ptb' param arg := by
  obtain ⟨ty, hty, hsubst⟩ := h
  exact ⟨ty, draftType_grows st inputLen inputs inputs' ptb ptb' arg ty hin hgrows hty, hsubst⟩

theorem draftType_old (st : FuzzState) (inputs : List InputArgument) (ptb : MoveSequence)
    (arg : SequenceArgument) (ty : MoveTypeTag) (h : argType st ptb arg = some ty) :
    draftType st ptb.inputs.length inputs ptb arg = some ty := by
  cases arg with
  | input i =>
    have hlt : i.val < ptb.inputs.length := argType_before st ptb (.input i) ty h (by simp)
    rw [draftType, if_pos hlt]
    exact h
  | _ => exact h

theorem draftType_new (st : FuzzState) (inputLen : ℕ) (inputs : List InputArgument)
    (ptb : MoveSequence) (j : ℕ) (v : InputArgument) (hj : inputs[j]? = some v)
    (hlen : inputLen + j < 2 ^ 16) :
    draftType st inputLen inputs ptb (.input (asU16 (inputLen + j))) =
      some (InputArgument.typeTag v) := by
  have hval := asU16_val (inputLen + j) hlen
  rw [draftType, if_neg (by omega), hval, Nat.add_sub_cancel_left, hj, Option.map_some]

theorem SampledAt.draftType_eq {st : FuzzState} {objects : ExistingObjects}
    {inputs : List InputArgument} {ty : MoveTypeTag} {arg : SequenceArgument} {ptb : MoveSequence}
    (h : SampledAt ptb.inputs.length objects inputs ty arg) (hlists : ListsTyped st ptb objects)
    (hlen : ptb.inputs.length + inputs.length ≤ 2 ^ 16) :
    draftType st ptb.inputs.length inputs ptb arg = some ty := by
  rcases h with hlisted | ⟨j, v, rfl, hv, rfl⟩
  · exact draftType_old st inputs ptb arg ty (hlists ty arg hlisted)
  · have hj := (List.getElem?_eq_some_iff.mp hv).1
    exact draftType_new st ptb.inputs.length inputs ptb j v hv (by omega)

/-! ### Producers -/

theorem linkTyArgs_extends (typeArguments producing r : TyArgs) (mapping : List (U16 × U16))
    (h : linkTyArgs typeArguments producing mapping = some r) : r.Extends producing := by
  induction mapping generalizing producing with
  | nil =>
    rw [← Option.some.inj h]
    exact SortedMap.extends_refl _
  | cons m rest ih =>
    obtain ⟨self, other⟩ := m
    unfold linkTyArgs at h
    split at h
    · exact ih producing h
    · split at h
      · split_ifs at h
        exact ih producing h
      · rename_i hnone
        refine (ih _ h).trans (SortedMap.insert_extends producing other _ ?_)
        intro w hw
        rw [hnone] at hw
        cases hw

theorem settledTyArgs_bound (call : MoveCall) (tyArgs settled : TyArgs)
    (mapping : List (U16 × U16)) (h : settledTyArgs call tyArgs mapping = some settled)
    (m : U16 × U16) (hm : m ∈ mapping) : ∃ ty, call.typeArguments[m.2.val]? = some ty := by
  induction mapping generalizing tyArgs with
  | nil => cases hm
  | cons m' rest ih =>
    obtain ⟨ty, hty, h⟩ := Option.bind_eq_some_iff.mp h
    rcases List.mem_cons.mp hm with rfl | hm
    · exact ⟨ty, hty⟩
    · exact ih _ h hm

theorem mem_comparedTyArgs (argTyArg : TyArgs) (mapping : List (U16 × U16)) (call : MoveCall) :
    (∀ i ty, argTyArg.get? i = some ty → (i, ty) ∈ comparedTyArgs argTyArg mapping call) ∧
      ∀ m ∈ mapping, ∀ ty, call.typeArguments[m.2.val]? = some ty →
        (m.1, ty) ∈ comparedTyArgs argTyArg mapping call := by
  constructor
  · intro i ty h
    exact List.mem_append_left _ ((SortedMap.mem_entries argTyArg i ty).mpr h)
  · intro m hm ty hty
    refine List.mem_append_right _ (List.mem_filterMap.mpr ⟨m, hm, ?_⟩)
    rw [hty, Option.map_some]

/- What is settled was known, or the comparison says something about it. -/
theorem settled_from (argTyArg tyArgs settled : TyArgs) (mapping : List (U16 × U16))
    (call : MoveCall) (h : settledTyArgs call (tyArgs.extend argTyArg) mapping = some settled)
    (i : U16) (ty : MoveTypeTag) (hi : settled.get? i = some ty) :
    tyArgs.get? i = some ty ∨ ∃ ty', (i, ty') ∈ comparedTyArgs argTyArg mapping call := by
  have hmem := mem_comparedTyArgs argTyArg mapping call
  by_cases hlinked : ∃ m ∈ mapping, m.1 = i
  · obtain ⟨m, hm, rfl⟩ := hlinked
    obtain ⟨ty', hty'⟩ := settledTyArgs_bound _ _ _ _ h m hm
    exact .inr ⟨ty', hmem.2 m hm ty' hty'⟩
  · have hother : ∀ m ∈ mapping, m.1 ≠ i := fun m hm heq => hlinked ⟨m, hm, heq⟩
    rw [settledTyArgs_other call _ settled mapping h i hother, SortedMap.get?_extend] at hi
    cases harg : argTyArg.get? i with
    | none =>
      rw [harg, Option.none_or] at hi
      exact .inl hi
    | some ty' => exact .inr ⟨ty', hmem.1 i ty' harg⟩

theorem mem_findProducers (graph : MoveTypeGraph) (ty : MoveAbiSignatureToken)
    (excluded : FunctionIdent) (e : MoveModuleId × MoveFunctionAbi)
    (h : e ∈ graph.findProducers ty excluded) : e ∈ graph.functions := by
  obtain ⟨⟨m, f⟩, hmem, h⟩ := List.mem_flatMap.mp h
  obtain ⟨rt, _, h⟩ := List.mem_filterMap.mp h
  split_ifs at h
  rw [← Option.some.inj h]
  exact hmem

structure ProducerCall (st : FuzzState) (ptb : MoveSequence) (function : MoveFunctionAbi)
    (producing : TyArgs) (returns : List SequenceArgument) (call : MoveCall) : Prop where
  called : st.getCalled call = some function
  arity : call.typeArguments.length = function.typeParameters.length
  given : ∀ (i : U16) ty, producing.get? i = some ty → i.val < function.typeParameters.length →
    call.typeArguments[i.val]? = some ty
  returned : ∃ c : ℕ, ptb.commands[c]? = some (.call call) ∧
    ∀ (j : ℕ) ret, returns[j]? = some ret →
      ret = ObjectData.resultArg function.returnParamters.length c j ∧
        j < function.returnParamters.length

theorem appendProducer_call (st : FuzzState) (fuel : ℕ) (ptb ptb' : MoveSequence)
    (ident : FunctionIdent) (function : MoveFunctionAbi) (producing : TyArgs)
    (used : List SequenceArgument) (appended : Appended) (call : MoveCall)
    (hfunction : st.getFunction ident.moduleId.moduleAddress ident.moduleId.moduleName
      ident.function = some function)
    (h : Choice.Yields (appendProducer st fuel ptb ident producing used) (some appended, ptb'))
    (hcall : lastCall ptb' = some call) :
    ProducerCall st ptb' function producing appended.2 call := by
  obtain ⟨n, _, ⟨run⟩⟩ := appendFunction_run st fuel ptb ident SortedMap.empty producing used false
    appended ptb' h
  obtain rfl : run.function = function := Option.some.inj (run.found.symm.trans hfunction)
  obtain rfl := Option.some.inj (hcall.symm.trans run.finished.lastCall_eq)
  refine ⟨hfunction, run.finished.arity, fun i ty hi hlt => run.given i ty hi hlt, ?_⟩
  refine ⟨run.finished.splitPtb.commands.length, ?_, ?_⟩
  · have hcommands := congrArg MoveSequence.commands run.finished.result
    rw [hcommands]
    exact List.getElem?_concat_length
  · intro j ret hret
    rw [run.finished.returns, List.getElem?_map] at hret
    obtain ⟨j', hj', rfl⟩ := Option.map_eq_some_iff.mp hret
    have hlt := (List.getElem?_eq_some_iff.mp hj').1
    rw [List.length_range] at hlt
    rw [List.getElem?_range hlt, Option.some.injEq] at hj'
    rw [hj']
    exact ⟨rfl, hj' ▸ hlt⟩

/- What a producer that agrees has done to the draft. -/
structure ProducedTyped (st : FuzzState) (abilities : List MoveAbility) (tyArgs : TyArgs)
    (d : Draft) (param : MoveAbiSignatureToken) (next : Draft) : Prop where
  pushed : ∃ ret ty, next.arguments = d.arguments ++ [ret] ∧ (∀ i, ret ≠ .input i) ∧
    argType st next.ptb ret = some ty ∧ param.subst next.typeArguments = some ty
  inputs_eq : next.inputs = d.inputs
  grows : GrowsFreely d.ptb next.ptb
  kept : next.typeArguments.Extends d.typeArguments
  settled : ∀ i ty, next.typeArguments.get? i = some ty → d.typeArguments.get? i = some ty ∨
    tyArgs.get? i = some ty ∨ Able st abilities i.val ty

theorem producerAgrees_spec (st : FuzzState) (abilities : List MoveAbility) (tyArgs : TyArgs)
    (d next : Draft) (param : MoveAbiSignatureToken) (call : MoveCall) (function : MoveFunctionAbi)
    (argTyArg producingTyArg : TyArgs) (mapping : List (U16 × U16)) (retIdx : ℕ)
    (hcall : lastCall next.ptb = some call) (hcalled : st.getCalled call = some function)
    (hmatch : firstMatch (param.partialSubst tyArgs) 0 function.returnParamters =
      some ((argTyArg, producingTyArg, mapping), retIdx))
    (h : producerAgrees st abilities tyArgs d param next = true) :
    (∀ e ∈ comparedTyArgs argTyArg mapping call,
      next.typeArguments.get? e.1 = some e.2 ∧ Able st abilities e.1.val e.2) ∧
      next.typeArguments.Extends d.typeArguments := by
  simp only [producerAgrees, hcall, hcalled, hmatch, Option.any_some, Bool.and_eq_true,
    List.all_eq_true, decide_eq_true_eq, able_iff] at h
  obtain ⟨hcompared, hkept⟩ := h
  exact ⟨hcompared, fun i ty hi =>
    hkept (i, ty) ((SortedMap.mem_entries d.typeArguments i ty).mpr hi)⟩

/- What was settled before, or is new and was compared. -/
theorem settled_able {st : FuzzState} {abilities : List MoveAbility} {known tyArgs : TyArgs}
    {argTyArg settled : TyArgs} {mapping : List (U16 × U16)} {call : MoveCall}
    (hsettled : settledTyArgs call (tyArgs.extend argTyArg) mapping = some settled)
    (hcompared : ∀ e ∈ comparedTyArgs argTyArg mapping call,
      (known.extend settled).get? e.1 = some e.2 ∧ Able st abilities e.1.val e.2)
    (i : U16) (ty : MoveTypeTag) (hi : (known.extend settled).get? i = some ty) :
    known.get? i = some ty ∨ tyArgs.get? i = some ty ∨ Able st abilities i.val ty := by
  have hnext := hi
  rw [SortedMap.get?_extend] at hnext
  cases hs : settled.get? i with
  | none =>
    rw [hs, Option.none_or] at hnext
    exact .inl hnext
  | some settledTy =>
    rw [hs, Option.some_or, Option.some.injEq] at hnext
    subst hnext
    right
    rcases settled_from argTyArg tyArgs settled mapping call hsettled i _ hs with hknown | h
    · exact .inl hknown
    · obtain ⟨compared, hmem⟩ := h
      obtain ⟨hget, hable⟩ := hcompared (i, compared) hmem
      rw [hi, Option.some.injEq] at hget
      rw [hget]
      exact .inr hable

theorem Agreed.typed {st : FuzzState} (hst : MetaWellFormed st) {abilities : List MoveAbility}
    {ident : FunctionIdent} {tyArgs : TyArgs} {fuel : ℕ} {d next : Draft}
    {param : MoveAbiSignatureToken}
    (h : Agreed st abilities ident tyArgs (appendProducer st fuel) d param next)
    (hlen : next.ptb.commands.length ≤ 2 ^ 16) :
    ProducedTyped st abilities tyArgs d param next := by
  obtain ⟨hproduced, hagrees⟩ := h
  have hknown := hproduced.typeArguments_extends
  cases hproduced with
  | intro preFunc argTyArg producingTyArg producing mapping retIdx appended ptb newCall settled ret
      hfunc hmatch hlink happend hcall hsettled hret =>
    have hfunction := hst.graph preFunc (mem_findProducers _ _ _ _ hfunc)
    have hproducer := appendProducer_call st fuel d.ptb ptb ⟨preFunc.1, preFunc.2.name⟩ preFunc.2
      producing d.usedArguments appended newCall hfunction happend hcall
    obtain ⟨hcompared, hkept⟩ := producerAgrees_spec st abilities tyArgs d _ param newCall preFunc.2
      argTyArg producingTyArg mapping retIdx hcall hproducer.called hmatch hagrees
    obtain ⟨retTy, _, hretTy, hextract⟩ := firstMatch_spec _ _ _ _ _ hmatch
    rw [Nat.sub_zero] at hretTy
    have hbinds := partialExtractTyArgs_binds _ _ _ hextract
    have hmem := mem_comparedTyArgs argTyArg mapping newCall
    -- the type arguments of the producer
    have harity := hst.arity _ _ _ _ hfunction
    have hinst := hst.results _ _ _ _ hfunction retTy (List.mem_of_getElem? hretTy)
    have hget := tyArgsMap_get? newCall.typeArguments (by rw [hproducer.arity]; exact harity)
    obtain ⟨c, hcmd, hreturns⟩ := hproducer.returned
    obtain ⟨rfl, hlt⟩ := hreturns retIdx ret hret
    have hc := (List.getElem?_eq_some_iff.mp hcmd).1
    have hfit := hst.returns _ _ _ _ hfunction
    have htype := argType_resultArg st ptb c retIdx newCall preFunc.2 retTy
      (Nat.lt_of_lt_of_le hc hlen) (Nat.lt_of_lt_of_le hlt hfit) hcmd hproducer.called hretTy
    obtain ⟨ty, hty⟩ := instantiable_subst retTy _ hinst (tyArgsMap newCall.typeArguments) (by
      intro i hi
      rw [hget, List.getElem?_eq_getElem (by rw [hproducer.arity]; exact hi)]
      exact ⟨_, rfl⟩)
    refine ⟨⟨_, ty, rfl, ?_, htype.trans hty, ?_⟩, rfl,
      (appendProducer_grows st fuel _ _ _ _).of_yields happend, hkept, ?_⟩
    · intro i
      unfold ObjectData.resultArg
      split_ifs <;> simp
    · -- the parameter and the result are the same type under what is settled
      have hunify := (partialExtractTyArgs_unifies _ _ _ _ _ hextract).1
        (d.typeArguments.extend settled) (tyArgsMap newCall.typeArguments)
        (fun i g hi => (hcompared (i, g) (hmem.1 i g hi)).1)
        (fun i g hi => by
          rw [hget]
          exact hproducer.given i g (linkTyArgs_extends _ _ _ _ hlink i g hi)
            (instantiable_lt retTy _ hinst i (hbinds.right i g hi)))
        (fun ij hij => by
          obtain ⟨g, hg⟩ := settledTyArgs_bound _ _ _ _ hsettled ij hij
          rw [hget, hg]
          exact (hcompared (ij.1, g) (hmem.2 ij hij g hg)).1)
      rw [subst_partialSubst, hty] at hunify
      rw [← hunify]
      exact congrArg (subst · param) (SortedMap.Extends.extend_eq hknown).symm
    · exact settled_able hsettled hcompared

/-! ### The loop -/

def isSigner : MoveAbiSignatureToken → Bool
  | .signer => true
  | .reference inner => isSigner inner
  | .mutableReference inner => isSigner inner
  | _ => false

/- A fresh value has the type of its parameter; that of a signer is an address. -/
theorem genInputArg_type (param : MoveAbiSignatureToken) (v : InputArgument)
    (h : param.genInputArg = some v) (hsigner : isSigner param = false) (s : TyArgs) :
    param.subst s = some (InputArgument.typeTag v) := by
  induction param using MoveAbiSignatureToken.induct generalizing v with
  | hvector inner ih =>
    obtain ⟨w, _, h⟩ := Option.bind_eq_some_iff.mp h
    obtain ⟨ty, hty, rfl⟩ := Option.map_eq_some_iff.mp h
    rw [subst, toTypeTag_subst inner ty hty, Option.map_some, InputArgument.typeTag]
  | href inner ih =>
    unfold genInputArg at h
    split_ifs at h
    exact ih v h hsigner
  | hmut inner ih =>
    unfold genInputArg at h
    split_ifs at h
    exact ih v h hsigner
  | hsigner => cases hsigner
  | hstruct | hinst | hparam => cases h
  | _ =>
    rw [← Option.some.inj h]
    rfl

section

variable {st : FuzzState} {abilities : List MoveAbility} {ident : FunctionIdent} {tyArgs : TyArgs}
  {fuel inputLen : ℕ} {fixedArgs : FixedArgs} {params : List (MoveAbiSignatureToken × ℕ)}
  {slots : List (Option SequenceArgument)} {d d' : Draft}

theorem Fills.agreed_grows
    (h : Fills st inputLen fixedArgs (Agreed st abilities ident tyArgs (appendProducer st fuel))
      params slots d d') : d.inputs <+: d'.inputs ∧ GrowsFreely d.ptb d'.ptb := by
  have hproduced := h.mono st inputLen fixedArgs fun _ _ _ hagreed => hagreed.1
  exact ⟨hproduced.inputs_grow, hproduced.grows (appendProducer_grows st fuel)⟩

/- What the loop is given has the types of the parameters that it is for. -/
structure Supplied (st : FuzzState) (inputLen : ℕ) (known : TyArgs) (fixedArgs : FixedArgs)
    (d : Draft) (params : List (MoveAbiSignatureToken × ℕ))
    (slots : List (Option SequenceArgument)) : Prop where
  fixed : ∀ e ∈ params, ∀ arg ty, fixedArgs.get? (asU16 e.2) = some (arg, ty) →
    DraftTyped st inputLen known d.inputs d.ptb e.1 arg
  slots : ∀ (k : ℕ) arg param, slots[k]? = some (some arg) →
    (slotParams fixedArgs params)[k]? = some param →
      DraftTyped st inputLen known d.inputs d.ptb param arg
  signer : ∀ e ∈ params, fixedArgs.get? (asU16 e.2) = none → isSigner e.1 = false

namespace Supplied

variable {known : TyArgs} {e : MoveAbiSignatureToken × ℕ}

theorem noSlot (h : Supplied st inputLen known fixedArgs d (e :: params) slots)
    (hslot : slotParams fixedArgs (e :: params) = slotParams fixedArgs params) :
    Supplied st inputLen known fixedArgs d params slots where
  fixed := fun e' he => h.fixed e' (List.mem_cons_of_mem _ he)
  slots := hslot ▸ h.slots
  signer := fun e' he => h.signer e' (List.mem_cons_of_mem _ he)

theorem slot {slot : Option SequenceArgument}
    (h : Supplied st inputLen known fixedArgs d (e :: params) (slot :: slots))
    (hslot : slotParams fixedArgs (e :: params) = e.1 :: slotParams fixedArgs params) :
    Supplied st inputLen known fixedArgs d params slots where
  fixed := fun e' he => h.fixed e' (List.mem_cons_of_mem _ he)
  slots := fun k arg param hk hparam => h.slots (k + 1) arg param hk (hslot ▸ hparam)
  signer := fun e' he => h.signer e' (List.mem_cons_of_mem _ he)

theorem first {arg : SequenceArgument}
    (h : Supplied st inputLen known fixedArgs d (e :: params) (some arg :: slots))
    (hslot : slotParams fixedArgs (e :: params) = e.1 :: slotParams fixedArgs params) :
    DraftTyped st inputLen known d.inputs d.ptb e.1 arg :=
  h.slots 0 arg e.1 rfl (hslot ▸ rfl)

theorem grows (h : Supplied st inputLen known fixedArgs d params slots)
    (hin : d.inputs <+: d'.inputs) (hgrows : GrowsFreely d.ptb d'.ptb) :
    Supplied st inputLen known fixedArgs d' params slots where
  fixed := fun e he arg ty harg => (h.fixed e he arg ty harg).grows hin hgrows
  slots := fun k arg param hk hparam => (h.slots k arg param hk hparam).grows hin hgrows
  signer := h.signer

theorem pushed (h : Supplied st inputLen known fixedArgs d params slots)
    {arguments : List SequenceArgument} :
    Supplied st inputLen known fixedArgs { d with arguments := arguments } params slots :=
  ⟨h.fixed, h.slots, h.signer⟩

end Supplied

theorem ProducedTyped.typed (inputLen : ℕ) {param : MoveAbiSignatureToken} {next : Draft}
    (h : ProducedTyped st abilities tyArgs d param next) :
    ∃ ret, next.arguments = d.arguments ++ [ret] ∧
      DraftTyped st inputLen next.typeArguments next.inputs next.ptb param ret := by
  obtain ⟨ret, ty, hret, hnoInput, htype, hsubst⟩ := h.pushed
  refine ⟨ret, hret, ty, ?_, hsubst⟩
  cases ret with
  | input i => exact absurd rfl (hnoInput i)
  | _ => exact htype

theorem DraftTyped.extends {known known' : TyArgs} {inputs : List InputArgument}
    {ptb : MoveSequence} {param : MoveAbiSignatureToken} {arg : SequenceArgument}
    (h : DraftTyped st inputLen known inputs ptb param arg) (hknown : known'.Extends known) :
    DraftTyped st inputLen known' inputs ptb param arg := by
  obtain ⟨ty, hdraft, hsubst⟩ := h
  exact ⟨ty, hdraft, subst_extends param known' known hknown ty hsubst⟩

theorem draftTyped_fresh (st : FuzzState) (inputLen : ℕ) (known : TyArgs) (d : Draft)
    (init v : InputArgument) (param : MoveAbiSignatureToken) (hinit : param.genInputArg = some init)
    (hsigner : isSigner param = false) (hmutate : Choice.Yields (mutateValue st init) v)
    (hroom : inputLen + d.inputs.length < 2 ^ 16) :
    DraftTyped st inputLen known (d.inputs ++ [v]) d.ptb param
      (.input (asU16 (inputLen + d.inputs.length))) := by
  refine ⟨_, draftType_new st inputLen (d.inputs ++ [v]) d.ptb d.inputs.length v
    List.getElem?_concat_length hroom, ?_⟩
  rw [((mutateValue_keeps st init).of_yields hmutate).1]
  exact genInputArg_type param init hinit hsigner known

variable (hst : MetaWellFormed st)

include hst

/- The type arguments that are known along the loop. -/
theorem Fills.agreed_kept
    (h : Fills st inputLen fixedArgs (Agreed st abilities ident tyArgs (appendProducer st fuel))
      params slots d d') (hlen : d'.ptb.commands.length ≤ 2 ^ 16) :
    d'.typeArguments.Extends d.typeArguments ∧
      ∀ i ty, d'.typeArguments.get? i = some ty → d.typeArguments.get? i = some ty ∨
        tyArgs.get? i = some ty ∨ Able st abilities i.val ty := by
  induction h with
  | done slots d => exact ⟨SortedMap.extends_refl _, fun i ty hi => .inl hi⟩
  | fixed _ _ _ _ _ _ _ _ _ _ ih => exact ih hlen
  | injected _ _ _ _ _ _ _ _ _ ih => exact ih hlen
  | sampled _ _ _ _ _ _ _ _ _ _ _ ih => exact ih hlen
  | produced param i rest slots d next d' hfixed hctx hsample hproduced htail ih =>
    have hnext := htail.agreed_grows.2.commands.length_le
    have htyped := hproduced.typed hst (by omega)
    obtain ⟨hkept, hfrom⟩ := ih hlen
    refine ⟨hkept.trans htyped.kept, fun i ty hi => ?_⟩
    rcases hfrom i ty hi with h | h | h
    · exact htyped.settled i ty h
    · exact .inr (.inl h)
    · exact .inr (.inr h)
  | fresh _ _ _ _ _ _ _ _ _ _ _ _ _ _ ih => exact ih hlen

/- The arguments that the loop pushes, under what is known at the end. -/
theorem Fills.agreed_typed {known : TyArgs}
    (h : Fills st inputLen fixedArgs (Agreed st abilities ident tyArgs (appendProducer st fuel))
      params slots d d')
    (hinputs : inputLen + d'.inputs.length ≤ 2 ^ 16) (hcommands : d'.ptb.commands.length ≤ 2 ^ 16)
    (hknown : known.Extends d'.typeArguments)
    (hsupplied : Supplied st inputLen known fixedArgs d params slots) :
    ∃ new, d'.arguments = d.arguments ++ new ∧
      List.Forall₂ (fun e arg => DraftTyped st inputLen known d'.inputs d'.ptb e.1 arg)
        (builtFor fixedArgs params) new := by
  induction h with
  | done slots d => exact ⟨[], (List.append_nil _).symm, .nil⟩
  | fixed param i rest slots d d' arg ty hget htail ih =>
    obtain ⟨new, hnew, htyped⟩ := ih hinputs hcommands hknown
      (hsupplied.noSlot (slotParams_fixed fixedArgs param i rest _ hget)).pushed
    obtain ⟨hin, hgrows⟩ := htail.agreed_grows
    refine ⟨arg :: new, by rw [hnew, List.append_assoc]; rfl, ?_⟩
    rw [builtFor_cons fixedArgs (param, i) rest (isInjected_fixed fixedArgs param i _ hget)]
    exact .cons ((hsupplied.fixed _ (List.mem_cons_self ..) arg ty hget).grows hin hgrows) htyped
  | injected param i rest slots d d' hget hctx _ ih =>
    rw [builtFor_injected fixedArgs (param, i) rest (isInjected_context fixedArgs param i hget hctx)]
    exact ih hinputs hcommands hknown
      (hsupplied.noSlot
        (slotParams_plain fixedArgs param i rest (needsSample_not_txContext param hctx)))
  | sampled param i rest slots d d' arg hget hctx hsample htail ih =>
    have hslot := slotParams_cons fixedArgs param i rest hget hsample
    obtain ⟨new, hnew, htyped⟩ := ih hinputs hcommands hknown (hsupplied.slot hslot).pushed
    obtain ⟨hin, hgrows⟩ := htail.agreed_grows
    refine ⟨arg :: new, by rw [hnew, List.append_assoc]; rfl, ?_⟩
    rw [builtFor_cons fixedArgs (param, i) rest (isInjected_plain fixedArgs param i hctx)]
    exact .cons ((hsupplied.first hslot).grows hin hgrows) htyped
  | produced param i rest slots d next d' hget hctx hsample hproduced htail ih =>
    obtain ⟨hin, hgrows⟩ := htail.agreed_grows
    have hstep := hproduced.typed hst (by
      have := hgrows.commands.length_le
      omega)
    obtain ⟨new, hnew, htyped⟩ := ih hinputs hcommands hknown
      ((hsupplied.slot (slotParams_cons fixedArgs param i rest hget hsample)).grows
        (hstep.inputs_eq ▸ List.prefix_rfl) hstep.grows)
    obtain ⟨ret, hret, hdraft⟩ := hstep.typed inputLen
    refine ⟨ret :: new, by rw [hnew, hret, List.append_assoc]; rfl, ?_⟩
    rw [builtFor_cons fixedArgs (param, i) rest (isInjected_plain fixedArgs param i hctx)]
    have hkept := (htail.agreed_kept hst hcommands).1
    exact .cons ((hdraft.extends (hknown.trans hkept)).grows hin hgrows) htyped
  | fresh param i rest slots d d' init v hget hctx hsample hinit hmutate htail ih =>
    obtain ⟨new, hnew, htyped⟩ := ih hinputs hcommands hknown
      ((hsupplied.noSlot (slotParams_plain fixedArgs param i rest hsample)).grows
        (List.prefix_append ..) (Grows.refl _ _))
    obtain ⟨hin, hgrows⟩ := htail.agreed_grows
    have hlength := hin.length_le
    rw [List.length_append, List.length_singleton] at hlength
    have hdraft := draftTyped_fresh st inputLen known d init v param hinit
      (hsupplied.signer (param, i) (List.mem_cons_self ..) hget) hmutate (by omega)
    refine ⟨_ :: new, by rw [hnew, List.append_assoc]; rfl, ?_⟩
    rw [builtFor_cons fixedArgs (param, i) rest (isInjected_plain fixedArgs param i hctx)]
    exact .cons (hdraft.grows hin hgrows) htyped

end

end Movy.Fuzz
