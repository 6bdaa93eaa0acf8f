import Movy.Fuzz.DraftTypes

/-!
# Appended calls are well typed

A call is judged by the sequence in front of it: every argument is there already
and has the type of its parameter under the type arguments of the call.
-/

namespace Movy.Fuzz

open Movy.Types Movy.Store MoveAbiSignatureToken

/- A call of the function, behind the sequence. -/
structure WellTyped (st : FuzzState) (ptb : MoveSequence) (function : MoveFunctionAbi)
    (call : MoveCall) : Prop where
  count : call.arguments.length = (passedParams function).length
  typed : ∀ (k : ℕ) param arg, (passedParams function)[k]? = some param →
    call.arguments[k]? = some arg → ∃ ty, argType st ptb arg = some ty ∧
      param.subst (tyArgsMap call.typeArguments) = some ty
  arity : call.typeArguments.length = function.typeParameters.length
  able : ∀ (i : ℕ) ty, call.typeArguments[i]? = some ty → Able st function.typeParameters i ty
  earlier : ∀ arg ∈ call.arguments, arg ≠ .gasCoin →
    Before ptb.inputs.length ptb.commands.length 0 arg

/- A default for the type parameter has its abilities. -/
def hasDefault (st : FuzzState) (ability : MoveAbility) : Bool :=
  ((st.abilityToTypeTag ability).any fun tys => !tys.isEmpty) ||
    ability.isSubsetOf MoveAbility.PRIMITIVES

/- The function can be called with what is fixed. -/
structure CallFits (st : FuzzState) (function : MoveFunctionAbi) (fixedArgs : FixedArgs)
    (fixedTyArgs : TyArgs) (disableSplit : Bool) : Prop where
  fixed : ∀ (k : ℕ) param arg ty, function.parameters[k]? = some param →
    fixedArgs.get? (asU16 k) = some (arg, ty) → param.isTxContext = false ∧
      param.subst (hintTyArgs fixedArgs fixedTyArgs) = some ty
  given : ∀ i ty, (hintTyArgs fixedArgs fixedTyArgs).get? i = some ty →
    i.val < function.typeParameters.length → Able st function.typeParameters i.val ty
  default : ∀ (i : ℕ) ability, function.typeParameters[i]? = some ability →
    (hintTyArgs fixedArgs fixedTyArgs).get? (asU16 i) = none →
    (∀ param ∈ sampledParams fixedArgs function.parameters,
      param.containsTypeParam (asU16 i) = false) → hasDefault st ability = true
  signer : ∀ (k : ℕ) param, function.parameters[k]? = some param →
    fixedArgs.get? (asU16 k) = none → isSigner param = false
  aligned : disableSplit = false → ∀ (k : ℕ) param passed, function.parameters[k]? = some param →
    isSplitParam param = true → (passedParams function)[k]? = some passed → passed = param

/-! ### Arguments of the finished call -/

theorem FinishedArgs.renumber_type {st : FuzzState} {function : MoveFunctionAbi}
    {disableSplit : Bool} {inputLen : ℕ} {ptb : MoveSequence} {arguments : List SequenceArgument}
    {inputs : List InputArgument} {appended : Appended} {ptb' : MoveSequence} {removed : List ℕ}
    {more : List InputArgument}
    (h : FinishedArgs function disableSplit inputLen ptb arguments inputs appended ptb' removed
      more) (hlen : ptb'.inputs.length ≤ 2 ^ 16) (arg : SequenceArgument) (ty : MoveTypeTag)
    (hty : draftType st inputLen inputs ptb arg = some ty) :
    argType st ⟨ptb'.inputs, ptb.commands⟩ (renumber ptb.inputs inputs inputLen removed arg) =
      some ty := by
  cases arg with
  | input idx =>
    have hvalue : ∃ v, (if idx.val < inputLen then ptb.inputs[idx.val]?
        else inputs[idx.val - inputLen]?) = some v ∧ InputArgument.typeTag v = ty := by
      simp only [draftType] at hty
      split_ifs at hty ⊢
      all_goals exact Option.map_eq_some_iff.mp hty
    obtain ⟨v, hv, rfl⟩ := hvalue
    obtain ⟨idx', hrenumber, hget⟩ := h.renumber_input hlen idx v hv
    rw [hrenumber, argType, hget, Option.map_some]
  | _ => exact hty

theorem split_type (st : FuzzState) (ptb : MoveSequence) (param : MoveAbiSignatureToken)
    (hknown : SplitKnown st param) (s : TyArgs) (c : ℕ) (hc : c < 2 ^ 16) (address : MoveAddress)
    (module name : String) (tys : List MoveTypeTag) (arg amount : SequenceArgument)
    (hsubst : param.subst s = some (.struct address module name tys))
    (hcmd : ptb.commands[c]? = some (splitCall (splitModule param) tys arg amount)) :
    argType st ptb (.result (asU16 c)) = param.subst s := by
  obtain ⟨handle, inner, split, handle', ability, rfl, hsplit, hreturns, hmodule, hname⟩ := hknown
  rw [hsubst]
  simp only [subst, substList] at hsubst
  obtain ⟨gs, hgs, hstruct⟩ := Option.map_eq_some_iff.mp hsubst
  obtain ⟨g, hg, rfl⟩ : ∃ g, subst s inner = some g ∧ [g] = gs := by
    obtain ⟨g, hg, hgs⟩ := Option.bind_eq_some_iff.mp hgs
    exact ⟨g, hg, Option.some.inj hgs⟩
  simp only [MoveTypeTag.struct.injEq] at hstruct
  obtain ⟨rfl, rfl, rfl, rfl⟩ := hstruct
  have hcalled : st.getCalled ⟨MoveAddress.two,
      splitModule (.structInstantiation handle [inner]), "split", [g], [arg, amount]⟩ =
        some split := hsplit
  have hbound : (tyArgsMap [g]).get? 0 = some g := rfl
  simp only [splitCall] at hcmd
  simp only [argType, asU16_val c hc, hcmd, Option.bind_some, returnTypes, hcalled, Option.map_some,
    hreturns, List.map_cons, List.map_nil, List.length_singleton, if_true, List.getElem?_cons_zero,
    Option.join_some, subst, substList, hbound, hmodule, hname]

/-! ### The type arguments of the call -/

theorem MoveAbility.isSubsetOf_refl (ability : MoveAbility) : ability.isSubsetOf ability = true := by
  obtain ⟨c, d, s, k⟩ := ability
  cases c <;> cases d <;> cases s <;> cases k <;> rfl

theorem default_able {st : FuzzState} (hst : MetaWellFormed st) (abilities : List MoveAbility)
    (i : ℕ) (ability : MoveAbility) (ty : MoveTypeTag) (hi : abilities[i]? = some ability)
    (hdefault : hasDefault st ability = true)
    (h : Choice.Yields (st.genTypeTagByAbilities ability) ty) : Able st abilities i ty := by
  unfold FuzzState.genTypeTagByAbilities at h
  unfold hasDefault at hdefault
  have hu64 : ability.isSubsetOf MoveAbility.PRIMITIVES = true → Able st abilities i .u64 :=
    fun hsubset => ⟨ability, _, hi, rfl, hsubset⟩
  split at h
  · rename_i hnone
    rw [hnone, Option.any_none, Bool.false_or] at hdefault
    rw [(Choice.yields_pure _ _).mp h]
    exact hu64 hdefault
  · rename_i hnil
    rw [hnil, Option.any_some, List.isEmpty_nil, Bool.not_true, Bool.false_or] at hdefault
    rw [(Choice.yields_pure _ _).mp h]
    exact hu64 hdefault
  · rename_i tys _ htys
    exact ⟨ability, ability, hi, hst.defaults ability tys ty htys (Choice.yields_pick _ _ h),
      MoveAbility.isSubsetOf_refl ability⟩

theorem TypeArgsFrom.subst_eq {st : FuzzState} {abilities : List MoveAbility} {known : TyArgs}
    {tys : List MoveTypeTag} (h : TypeArgsFrom st abilities known tys)
    (hlen : abilities.length ≤ 2 ^ 16) (param : MoveAbiSignatureToken) (ty : MoveTypeTag)
    (hinst : param.instantiable abilities.length = true) (hsubst : param.subst known = some ty) :
    param.subst (tyArgsMap tys) = some ty := by
  refine subst_of_extends param known _ ty hsubst fun i g hi hg => ?_
  have hlt := instantiable_lt param _ hinst i hi
  obtain ⟨g', hg', hcase⟩ := h.entry i.val _ (List.getElem?_eq_getElem hlt)
  have hself : asU16 i.val = i := Fin.ext (asU16_val _ i.isLt)
  rw [hself, hg] at hcase
  rw [tyArgsMap_get? tys (by rw [h.length_eq]; exact hlen), hg']
  rcases hcase with h | ⟨h, _⟩
  · exact h.symm
  · cases h

theorem Fills.typeArguments_eq {st : FuzzState} {inputLen : ℕ} {fixedArgs : FixedArgs}
    {produced : Draft → MoveAbiSignatureToken → Draft → Prop}
    {params : List (MoveAbiSignatureToken × ℕ)} {slots : List (Option SequenceArgument)}
    {d d' : Draft} (h : Fills st inputLen fixedArgs produced params slots d d')
    (hall : slots.all Option.isSome = true) : d'.typeArguments = d.typeArguments := by
  induction h with
  | done slots d => rfl
  | fixed _ _ _ _ _ _ _ _ _ _ ih => exact ih hall
  | injected _ _ _ _ _ _ _ _ _ ih => exact ih hall
  | sampled _ _ _ _ _ _ _ _ _ _ _ ih =>
    rw [List.all_cons, Bool.and_eq_true] at hall
    exact ih hall.2
  | produced => cases hall
  | fresh _ _ _ _ _ _ _ _ _ _ _ _ _ _ ih => exact ih hall

theorem Constructed.start_typeArguments {st : FuzzState} {fixedArgs : FixedArgs}
    {ptb : MoveSequence} {function : MoveFunctionAbi} {fixedTyArgs : TyArgs}
    {objectData : ObjectData} {used : List SequenceArgument} {tyArgs : TyArgs}
    {slots : List (Option SequenceArgument)} {start draft : Draft}
    {typeArguments : List MoveTypeTag}
    (h : Constructed st fixedArgs ptb function fixedTyArgs objectData used tyArgs slots start draft
      typeArguments) : start.typeArguments = SortedMap.empty := by
  cases h <;> rfl

/-! ### The whole call -/

theorem hint_known {st : FuzzState} {fixedArgs : FixedArgs} {ptb : MoveSequence}
    {function : MoveFunctionAbi} {fixedTyArgs : TyArgs} {objectData : ObjectData}
    {tyArgs : TyArgs} {slots : List (Option SequenceArgument)} {start draft : Draft}
    {typeArguments : List MoveTypeTag}
    (t : TypedCall st fixedArgs ptb function fixedTyArgs objectData tyArgs slots start draft
      typeArguments)
    (hknown : t.known.Extends (t.d.tyArgsMap.extend (hintTyArgs fixedArgs fixedTyArgs))) :
    t.known.Extends (hintTyArgs fixedArgs fixedTyArgs) := by
  intro i ty hi
  apply hknown i ty
  rw [SortedMap.get?_extend, hi, Option.some_or]

section

variable {st : FuzzState} (hst : MetaWellFormed st) {fuel : ℕ} {ptb ptb' : MoveSequence}
  {ident : FunctionIdent} {fixedArgs : FixedArgs} {fixedTyArgs : TyArgs}
  {used : List SequenceArgument} {disableSplit : Bool} {appended : Appended}
  (run : AppendRun st (appendProducer st fuel) ptb ident fixedArgs fixedTyArgs used disableSplit
    appended ptb')
  (hfills : Fills st ptb.inputs.length fixedArgs
    (Agreed st run.function.typeParameters ident run.tyArgs (appendProducer st fuel))
    run.function.parameters.zipIdx run.slots run.start run.draft)
  (hinputs : ptb'.inputs.length + run.function.parameters.length ≤ 2 ^ 16)
  (hcommands : ptb'.commands.length ≤ 2 ^ 16)

theorem AppendRun.split_grows :
    GrowsFreely ⟨ptb'.inputs, run.draft.ptb.commands⟩ ⟨ptb'.inputs, run.finished.splitPtb.commands⟩ := by
  obtain ⟨added, hadded⟩ := run.finished.split_grows
  exact ⟨List.prefix_rfl, added, hadded.symm, fun _ _ => trivial⟩

include hst hinputs hcommands

theorem AppendRun.argument_typed
    (hfits : CallFits st run.function fixedArgs fixedTyArgs disableSplit)
    (t : TypedCall st fixedArgs ptb run.function fixedTyArgs run.objectData run.tyArgs run.slots
      run.start run.draft run.typeArguments)
    (hdraft : List.Forall₂ (fun e arg => DraftTyped st ptb.inputs.length t.known run.draft.inputs
      run.draft.ptb e.1 arg) (builtFor fixedArgs run.function.parameters.zipIdx)
        run.draft.arguments)
    (hpassed : (builtFor fixedArgs run.function.parameters.zipIdx).map Prod.fst =
      passedParams run.function)
    (k : ℕ) (param : MoveAbiSignatureToken) (arg : SequenceArgument)
    (hparam : (passedParams run.function)[k]? = some param) (harg : appended.1[k]? = some arg) :
    ∃ ty, argType st ⟨ptb'.inputs, run.finished.splitPtb.commands⟩ arg = some ty ∧
      param.subst (tyArgsMap run.typeArguments) = some ty := by
  obtain ⟨removed, more, hfinished⟩ := run.args_finished
  have hmem := List.mem_of_mem_filter (List.mem_of_getElem? hparam)
  have hinst := hst.parameters _ _ _ _ run.found param hmem
  have hcount := hst.arity _ _ _ _ run.found
  -- what the loop has pushed there
  have hbuilt := hparam
  rw [← hpassed, List.getElem?_map, Option.map_eq_some_iff] at hbuilt
  obtain ⟨e, he, rfl⟩ := hbuilt
  obtain ⟨a, ha, ty, hty, hsubst⟩ := getElem?_forall₂ hdraft k e he
  have hcall := t.from_known.subst_eq hcount e.1 ty hinst hsubst
  have hposition := hfinished.argument_eq k a ha
  rw [harg, Option.some.injEq] at hposition
  refine ⟨ty, ?_, hcall⟩
  by_cases hsplitAt : isSplitAt run.function disableSplit k = true
  · rw [if_pos hsplitAt] at hposition
    rw [isSplitAt, Bool.and_eq_true, Bool.not_eq_true', Option.any_eq_true] at hsplitAt
    obtain ⟨hdisable, param', hparam', hsplitParam⟩ := hsplitAt
    obtain rfl : e.1 = param' := hfits.aligned hdisable k param' e.1 hparam' hsplitParam hparam
    have hsplit := run.finished.split
    rw [if_neg (by rw [hdisable]; exact Bool.false_ne_true)] at hsplit
    have hlength := (splitArgs_spec _ _ _ _ _ _ _ _ hsplit).2.2.2.1
    have hk := (List.getElem?_eq_some_iff.mp harg).1
    obtain ⟨splitOf, hsplitOf⟩ : ∃ a, run.finished.args[k]? = some a :=
      ⟨_, List.getElem?_eq_getElem (by omega)⟩
    obtain ⟨address, module, name, tys, amount, hstruct, hcmd⟩ :=
      (splitArgs_commands _ _ _ _ _ _ _ _ hsplit).2 k splitOf e.1 hsplitOf hparam' hsplitParam
    have hlast := congrArg (fun p => p.commands.length) run.finished.result
    simp only [List.length_append, List.length_singleton] at hlast
    have hlt := (List.getElem?_eq_some_iff.mp hcmd).1
    rw [hposition, ← hcall]
    exact split_type st _ e.1 (hst.splits _ _ _ _ run.found e.1 hmem hsplitParam) _ _ (by omega)
      address module name tys splitOf amount hstruct hcmd
  · rw [if_neg hsplitAt] at hposition
    rw [hposition]
    have hrenumber := hfinished.renumber_type (by omega) a ty hty
    exact argType_grows st _ _ _ ty run.split_grows hrenumber

include hfills

theorem AppendRun.draft_typed (hptb : InputsTyped st ptb)
    (hfixed : ∀ i arg ty, fixedArgs.get? i = some (arg, ty) → argType st ptb arg = some ty)
    (hfits : CallFits st run.function fixedArgs fixedTyArgs disableSplit)
    (t : TypedCall st fixedArgs ptb run.function fixedTyArgs run.objectData run.tyArgs run.slots
      run.start run.draft run.typeArguments) :
    List.Forall₂ (fun e arg => DraftTyped st ptb.inputs.length t.known run.draft.inputs
      run.draft.ptb e.1 arg) (builtFor fixedArgs run.function.parameters.zipIdx)
        run.draft.arguments := by
  obtain ⟨hgrown, hcmd, hlast, hnew⟩ := run.bounds hinputs
  obtain ⟨hstart, harguments⟩ := run.constructed.start_ptb
  have hknown := t.known_extends run.fills
  have hcount : run.start.inputs.length ≤ run.draft.inputs.length := hfills.agreed_grows.1.length_le
  have hlists := fromPtbAndRemoveUsed_typed st ptb hst.returns hptb (by omega) (by omega)
    run.objectData used run.data
  have hsettled : t.known.Extends run.draft.typeArguments := by
    rcases t.known_eq with ⟨hall, _⟩ | ⟨_, _, hknown⟩
    · rw [hfills.typeArguments_eq hall, run.constructed.start_typeArguments]
      exact SortedMap.extends_empty _
    · rw [hknown]
      exact SortedMap.extends_refl _
  have hfixedTyped : ∀ e ∈ run.function.parameters.zipIdx, ∀ arg ty,
      fixedArgs.get? (asU16 e.2) = some (arg, ty) →
        DraftTyped st ptb.inputs.length t.known run.start.inputs run.start.ptb e.1 arg := by
    rintro ⟨param, k⟩ he arg ty hget
    obtain ⟨_, hsubst⟩ := hfits.fixed k param arg ty (List.mem_zipIdx_iff_getElem?.mp he) hget
    refine ⟨ty, ?_, subst_extends param _ _ (hint_known t hknown) ty hsubst⟩
    rw [hstart]
    exact draftType_old st _ ptb arg ty (hfixed _ arg ty hget)
  have hslotsTyped : ∀ (k : ℕ) arg param, run.slots[k]? = some (some arg) →
      (slotParams fixedArgs run.function.parameters.zipIdx)[k]? = some param →
        DraftTyped st ptb.inputs.length t.known run.start.inputs run.start.ptb param arg := by
    intro k arg param hk hparam
    rw [t.slots_eq] at hk
    obtain ⟨ty, hsubst, hsampled⟩ := t.d.slots_typed hst k param arg hparam hk
    refine ⟨ty, ?_, subst_extends param _ _ hknown ty hsubst⟩
    rw [hstart, t.inputs_eq]
    rw [t.inputs_eq] at hcount
    exact hsampled.draftType_eq hlists (by omega)
  have hsigner : ∀ e ∈ run.function.parameters.zipIdx, fixedArgs.get? (asU16 e.2) = none →
      isSigner e.1 = false := by
    rintro ⟨param, k⟩ he hget
    exact hfits.signer k param (List.mem_zipIdx_iff_getElem?.mp he) hget
  obtain ⟨new, hpushed, htyped⟩ := hfills.agreed_typed hst (by omega) (by omega) hsettled
    ⟨hfixedTyped, hslotsTyped, hsigner⟩
  rw [hpushed, harguments, List.nil_append]
  exact htyped

theorem AppendRun.able
    (hfits : CallFits st run.function fixedArgs fixedTyArgs disableSplit)
    (t : TypedCall st fixedArgs ptb run.function fixedTyArgs run.objectData run.tyArgs run.slots
      run.start run.draft run.typeArguments)
    (hdraft : List.Forall₂ (fun e arg => DraftTyped st ptb.inputs.length t.known run.draft.inputs
      run.draft.ptb e.1 arg) (builtFor fixedArgs run.function.parameters.zipIdx)
        run.draft.arguments)
    (i : ℕ) (ty : MoveTypeTag) (hi : run.typeArguments[i]? = some ty) :
    Able st run.function.typeParameters i ty := by
  have hlt := (List.getElem?_eq_some_iff.mp hi).1
  rw [run.finished.arity] at hlt
  have hval := asU16_val i (Nat.lt_of_lt_of_le hlt (hst.arity _ _ _ _ run.found))
  have hknown := t.known_extends run.fills
  have hgiven : ∀ g, (hintTyArgs fixedArgs fixedTyArgs).get? (asU16 i) = some g →
      Able st run.function.typeParameters i g := by
    intro g hg
    have hable := hfits.given _ g hg (by omega)
    rwa [hval] at hable
  have hdrawn : ∀ g, t.d.tyArgsMap.get? (asU16 i) = some g →
      Able st run.function.typeParameters i g := by
    intro g hg
    have hable := (t.d.tyArgsMap_spec _ g hg).1
    rwa [hval] at hable
  obtain ⟨ty', hty', hcase⟩ := t.from_known.entry i _ (List.getElem?_eq_getElem hlt)
  obtain rfl : ty = ty' := Option.some.inj (hi.symm.trans hty')
  rcases hcase with hget | ⟨hnone, hdefault⟩
  · rcases t.known_eq with ⟨_, heq⟩ | ⟨_, htyArgs, heq⟩
    · rw [heq, SortedMap.get?_extend, Option.or_eq_some_iff] at hget
      rcases hget with hget | ⟨_, hget⟩
      · exact hdrawn ty hget
      · exact hgiven ty hget
    · obtain ⟨_, hlen, hlast, _⟩ := run.bounds hinputs
      rw [heq] at hget
      rcases (hfills.agreed_kept hst (by omega)).2 _ ty hget with hstart | hfound | hable
      · rw [run.constructed.start_typeArguments] at hstart
        cases hstart
      · rw [htyArgs, SortedMap.get?_extend, Option.or_eq_some_iff] at hfound
        rcases hfound with hfound | ⟨_, hfound⟩
        · exact hgiven ty hfound
        · exact hdrawn ty hfound
      · rwa [hval] at hable
  · -- a default is taken where no sampled parameter says anything
    refine default_able hst _ i _ ty (List.getElem?_eq_getElem hlt) ?_ hdefault
    refine hfits.default i _ (List.getElem?_eq_getElem hlt) ?_ ?_
    · cases hhint : (hintTyArgs fixedArgs fixedTyArgs).get? (asU16 i) with
      | none => rfl
      | some g =>
        rw [hint_known t hknown _ g hhint] at hnone
        cases hnone
    · intro param hparam
      rw [← Bool.not_eq_true]
      intro hcontains
      obtain ⟨e, he, rfl⟩ := List.mem_map.mp hparam
      obtain ⟨hmem, hsampled⟩ := List.mem_filter.mp he
      rw [Bool.and_eq_true] at hsampled
      have hbuilt : e ∈ builtFor fixedArgs run.function.parameters.zipIdx := by
        refine List.mem_filter.mpr ⟨hmem, ?_⟩
        cases hctx : e.1.isTxContext with
        | false => simp [isInjected, hctx]
        | true =>
          rw [needsSample_not_txContext e.1 hctx] at hsampled
          cases hsampled.2
      obtain ⟨k, hk⟩ := List.mem_iff_getElem?.mp hbuilt
      obtain ⟨_, _, g, _, hsubst⟩ := getElem?_forall₂ hdraft k e hk
      obtain ⟨g', hg'⟩ := subst_bound e.1 _ g _ hsubst hcontains
      rw [hnone] at hg'
      cases hg'

end

theorem builtFor_passed (function : MoveFunctionAbi) (fixedArgs : FixedArgs)
    (hctx : ∀ (k : ℕ) param arg ty, function.parameters[k]? = some param →
      fixedArgs.get? (asU16 k) = some (arg, ty) → param.isTxContext = false) :
    (builtFor fixedArgs function.parameters.zipIdx).map Prod.fst = passedParams function := by
  have hfst : function.parameters.zipIdx.map Prod.fst = function.parameters := List.zipIdx_map_fst ..
  have hfilter : builtFor fixedArgs function.parameters.zipIdx =
      function.parameters.zipIdx.filter fun e => !e.1.isTxContext := by
    apply List.filter_congr
    rintro ⟨param, k⟩ he
    cases hget : fixedArgs.get? (asU16 k) with
    | none => simp [isInjected, hget]
    | some fixed =>
      have := hctx k param fixed.1 fixed.2 (List.mem_zipIdx_iff_getElem?.mp he) hget
      simp [isInjected, hget, this]
  rw [hfilter]
  unfold passedParams
  conv_rhs => rw [← hfst]
  rw [List.filter_map]
  rfl

/- If the function can be called with what is fixed, and every producer agrees with
what is settled before it, then the call that `append_function` builds is well
typed. -/
theorem appendFunction_wellTyped (st : FuzzState) (fuel : ℕ) (ptb ptb' : MoveSequence)
    (ident : FunctionIdent) (function : MoveFunctionAbi) (fixedArgs : FixedArgs)
    (fixedTyArgs : TyArgs) (used : List SequenceArgument) (disableSplit : Bool)
    (appended : Appended) (rs rest : List ℕ)
    (hst : MetaWellFormed st) (hptb : InputsTyped st ptb)
    (hfixed : ∀ i arg ty, fixedArgs.get? i = some (arg, ty) → argType st ptb arg = some ty)
    (hfunction : st.getFunction ident.moduleId.moduleAddress ident.moduleId.moduleName
      ident.function = some function)
    (hfits : CallFits st function fixedArgs fixedTyArgs disableSplit)
    (hrun : appendFunction st fuel ptb ident fixedArgs fixedTyArgs used disableSplit rs =
      some ((some appended, ptb'), rest))
    (hagree : (appendChecked st fuel ptb ident fixedArgs fixedTyArgs used disableSplit rs).isSome)
    (hinputs : ptb'.inputs.length + function.parameters.length ≤ 2 ^ 16)
    (hcommands : ptb'.commands.length ≤ 2 ^ 16) :
    ∃ call, lastCall ptb' = some call ∧ call.arguments = appended.1 ∧
      WellTyped st ⟨ptb'.inputs, ptb'.commands.dropLast⟩ function call := by
  obtain ⟨r, hchecked⟩ := Option.isSome_iff_exists.mp hagree
  obtain rfl := Option.some.inj ((appendChecked_refines st fuel ptb ident fixedArgs fixedTyArgs used
    disableSplit rs r hchecked).symm.trans hrun)
  obtain ⟨n, run, hfills⟩ := appendChecked_run st fuel ptb ident fixedArgs fixedTyArgs used
    disableSplit appended ptb' ⟨rs, rest, hchecked⟩
  obtain rfl : run.function = function := Option.some.inj (run.found.symm.trans hfunction)
  obtain ⟨t⟩ := run.constructed.typed
  have hdraft := run.draft_typed hst hfills hinputs hcommands hptb hfixed hfits t
  have hpassed := builtFor_passed run.function fixedArgs fun k param arg ty hparam hget =>
    (hfits.fixed k param arg ty hparam hget).1
  have htyped := run.argument_typed hst hinputs hcommands hfits t hdraft hpassed
  have hcount : appended.1.length = (passedParams run.function).length := by
    rw [run.arguments_length, ← hpassed, List.length_map]
  have hbefore : ptb'.commands.dropLast = run.finished.splitPtb.commands := by
    have hlast := congrArg (fun p => p.commands.dropLast) run.finished.result
    exact hlast.trans List.dropLast_concat
  refine ⟨_, run.finished.lastCall_eq, rfl, ?_⟩
  rw [hbefore]
  refine ⟨hcount, htyped, run.finished.arity, run.able hst hfills hinputs hcommands hfits t hdraft,
    ?_⟩
  intro arg harg hgas
  obtain ⟨k, hk⟩ := List.mem_iff_getElem?.mp harg
  have hlt := (List.getElem?_eq_some_iff.mp hk).1
  obtain ⟨ty, hty, _⟩ := htyped k _ arg (List.getElem?_eq_getElem (by rw [← hcount]; exact hlt)) hk
  exact argType_before st _ arg ty hty hgas

/- Two functions that make a box, and one that takes two boxes of one type. -/
def boxModule : MoveModuleId := ⟨ObjectID.ofByte 7, "box"⟩

def boxHandle : MoveStructHandle :=
  ⟨boxModule, "Box", ⟨false, true, true, false⟩, [⟨MoveAbility.empty, false⟩]⟩

def mkU64Abi : MoveFunctionAbi :=
  ⟨"mk_u64", [], [.structInstantiation boxHandle [.u64]], [], .public_⟩

def mkBoolAbi : MoveFunctionAbi :=
  ⟨"mk_bool", [], [.structInstantiation boxHandle [.bool]], [], .public_⟩

def sameBoxAbi : MoveFunctionAbi :=
  ⟨"same", [.reference (.structInstantiation boxHandle [.typeParameter 0 MoveAbility.empty]),
    .reference (.structInstantiation boxHandle [.typeParameter 0 MoveAbility.empty])], [],
    [MoveAbility.empty], .public_⟩

def boxState : FuzzState :=
  FuzzState.ofModule ⟨boxModule, [mkU64Abi, mkBoolAbi, sameBoxAbi], [boxHandle]⟩

def boxCall (function : String) (tys : List MoveTypeTag) (arguments : List SequenceArgument) :
    MoveSequenceCall := .call ⟨ObjectID.ofByte 7, "box", function, tys, arguments⟩

theorem boxState_functions (address : MoveAddress) (module name : String)
    (function : MoveFunctionAbi)
    (h : boxState.getFunction address module name = some function) :
    function = mkU64Abi ∨ function = mkBoolAbi ∨ function = sameBoxAbi := by
  obtain ⟨m, hm, hfind⟩ := Option.bind_eq_some_iff.mp h
  obtain ⟨pkg, hpkg, hm⟩ := Option.bind_eq_some_iff.mp hm
  obtain ⟨_, hpkg⟩ := Option.ite_none_right_eq_some.mp hpkg
  obtain rfl := Option.some.inj hpkg
  obtain rfl := List.mem_singleton.mp (List.mem_of_find?_eq_some hm)
  have hmem := List.mem_of_find?_eq_some hfind
  simpa only [List.mem_cons, List.not_mem_nil, or_false] using hmem

theorem boxState_wellFormed : MetaWellFormed boxState where
  returns := by
    intro address module name function h
    rcases boxState_functions address module name function h with rfl | rfl | rfl <;> decide
  arity := by
    intro address module name function h
    rcases boxState_functions address module name function h with rfl | rfl | rfl <;> decide
  parameters := by
    intro address module name function h
    rcases boxState_functions address module name function h with rfl | rfl | rfl <;> decide
  results := by
    intro address module name function h
    rcases boxState_functions address module name function h with rfl | rfl | rfl <;> decide
  splits := by
    intro address module name function h param hparam hsplit
    rcases boxState_functions address module name function h with rfl | rfl | rfl
    · cases hparam
    · cases hparam
    · rcases List.mem_pair.mp hparam with rfl | rfl <;> cases hsplit
  graph := by
    intro e he
    simp only [boxState, FuzzState.ofModule, List.map_cons, List.map_nil, List.mem_cons,
      List.not_mem_nil, or_false] at he
    rcases he with rfl | rfl | rfl <;> rfl
  pool := by
    intro ty ids id object h
    cases h
  defaults := by
    intro ability tys ty h
    cases h

/- Both boxes come from the same function. -/
theorem appendFunction_wellTyped_same : ∃ call,
    lastCall ⟨[], [boxCall "mk_u64" [] [], boxCall "mk_u64" [] [],
        boxCall "same" [.u64] [.result 0, .result 1]]⟩ = some call ∧
      call.arguments = [.result 0, .result 1] ∧
      WellTyped boxState ⟨[], [boxCall "mk_u64" [] [], boxCall "mk_u64" [] []]⟩ sameBoxAbi call :=
  appendFunction_wellTyped boxState 11 ⟨[], []⟩
    ⟨[], [boxCall "mk_u64" [] [], boxCall "mk_u64" [] [],
      boxCall "same" [.u64] [.result 0, .result 1]]⟩
    ⟨boxModule, "same"⟩ sameBoxAbi SortedMap.empty SortedMap.empty [] false
    ([.result 0, .result 1], []) [0, 0, 0, 0, 0] [] boxState_wellFormed
    (fun i ty obj id object h => by simp at h) (fun i arg ty h => by cases h) rfl
    { fixed := fun k param arg ty _ h => by cases h
      given := fun i ty h => by cases h
      default := fun i ability hi _ hno => by
        have hfirst := hno _ (List.mem_cons_self ..)
        obtain rfl : i = 0 := by
          have hlt := (List.getElem?_eq_some_iff.mp hi).1
          simpa [sameBoxAbi] using hlt
        cases hfirst
      signer := fun k param hparam _ => by
        rcases List.mem_pair.mp (List.mem_of_getElem? hparam) with rfl | rfl <;> rfl
      aligned := fun _ k param passed hparam hsplit => by
        rcases List.mem_pair.mp (List.mem_of_getElem? hparam) with rfl | rfl <;> cases hsplit }
    rfl rfl (by decide) (by decide)

/- The second box settles the type argument that the first one was made for. -/
theorem appendTop_mixes_types :
    appendTop boxState ⟨[], []⟩ ⟨boxModule, "same"⟩ SortedMap.empty SortedMap.empty [] false
        [0, 0, 0, 1, 0] =
      some ((some ([.result 0, .result 1], []), ⟨[], [boxCall "mk_u64" [] [],
        boxCall "mk_bool" [] [], boxCall "same" [.bool] [.result 0, .result 1]]⟩), []) ∧
      ¬ WellTyped boxState ⟨[], [boxCall "mk_u64" [] [], boxCall "mk_bool" [] []]⟩ sameBoxAbi
        ⟨ObjectID.ofByte 7, "box", "same", [.bool], [.result 0, .result 1]⟩ := by
  refine ⟨rfl, fun h => ?_⟩
  obtain ⟨ty, hty, hsubst⟩ := h.typed 0 _ _ rfl rfl
  have hmade : argType boxState ⟨[], [boxCall "mk_u64" [] [], boxCall "mk_bool" [] []]⟩
      (.result 0) = some (.struct (ObjectID.ofByte 7) "box" "Box" [.u64]) := rfl
  have hwanted : subst (tyArgsMap [.bool])
      (.reference (.structInstantiation boxHandle [.typeParameter 0 MoveAbility.empty])) =
        some (.struct (ObjectID.ofByte 7) "box" "Box" [.bool]) := rfl
  obtain rfl := Option.some.inj (hmade.symm.trans hty)
  have := Option.some.inj (hwanted.symm.trans hsubst)
  simp at this

/-! ### Pinned type arguments -/

/- Every call that `append_function` builds has the type arguments that are pinned, whether
all of its arguments were sampled or producers were called for some of them. -/
theorem appendFunction_pinned (st : FuzzState) (fuel : ℕ) (ptb ptb' : MoveSequence)
    (ident : FunctionIdent) (fixedArgs : FixedArgs) (fixedTyArgs : TyArgs)
    (used : List SequenceArgument) (disableSplit : Bool) (appended : Appended) (rs rest : List ℕ)
    (hrun : appendFunction st fuel ptb ident fixedArgs fixedTyArgs used disableSplit rs =
      some ((some appended, ptb'), rest)) :
    ∃ function call, st.getFunction ident.moduleId.moduleAddress ident.moduleId.moduleName
        ident.function = some function ∧ lastCall ptb' = some call ∧
      st.getCalled call = some function ∧ call.arguments = appended.1 ∧
      call.typeArguments.length = function.typeParameters.length ∧
      PinsHonoured function fixedTyArgs call := by
  obtain ⟨n, _, ⟨run⟩⟩ := appendFunction_run st fuel ptb ident fixedArgs fixedTyArgs used
    disableSplit appended ptb' ⟨rs, rest, hrun⟩
  refine ⟨run.function, _, run.found, run.finished.lastCall_eq, run.found, rfl,
    run.finished.arity, ?_⟩
  intro i ty hlt hi
  exact run.given i ty (hintTyArgs_extends fixedArgs fixedTyArgs i ty hi) hlt

/- The first parameter is fixed to a `u64`, which hints at `u64` for the type parameter;
`bool` is pinned, so only one of the two producers fits. -/
def pinAbi : MoveFunctionAbi :=
  ⟨"pin", [.u64,
    .reference (.structInstantiation boxHandle [.typeParameter 0 MoveAbility.empty])], [],
    [MoveAbility.empty], .public_⟩

def pinState : FuzzState :=
  FuzzState.ofModule ⟨boxModule, [mkU64Abi, mkBoolAbi, pinAbi], [boxHandle]⟩

theorem appendFunction_pinned_bool : ∃ function call,
    pinState.getFunction (ObjectID.ofByte 7) "box" "pin" = some function ∧
      lastCall ⟨[.u64 3], [boxCall "mk_bool" [] [], boxCall "pin" [.bool] [.input 0, .result 0]]⟩ =
        some call ∧
      pinState.getCalled call = some function ∧ call.arguments = [.input 0, .result 0] ∧
      call.typeArguments.length = function.typeParameters.length ∧
      PinsHonoured function (SortedMap.empty.insert 0 .bool) call :=
  appendFunction_pinned pinState 11 ⟨[.u64 3], []⟩
    ⟨[.u64 3], [boxCall "mk_bool" [] [], boxCall "pin" [.bool] [.input 0, .result 0]]⟩
    ⟨boxModule, "pin"⟩ (SortedMap.empty.insert 0 (.input 0, .u64))
    (SortedMap.empty.insert 0 .bool) [] false ([.input 0, .result 0], []) [0, 0, 0] [] rfl

end Movy.Fuzz
