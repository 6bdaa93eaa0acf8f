import Movy.Fuzz.ArgMutator
import Movy.Fuzz.Built

/-!
# Arguments and parameters side by side

A call has no argument for a `TxContext`, but wherever the mutators read the
arguments of a call along its parameters they take the two lists as they are.
-/

namespace Movy.Fuzz

open Movy.Types Movy.Store MoveAbiSignatureToken

/-! ### Values keep their type -/

/-- Two inputs of the same type, both pure or both objects. -/
def SameKind (v v' : InputArgument) : Prop :=
  InputArgument.typeTag v' = InputArgument.typeTag v ∧
    InputArgument.isObject v' = InputArgument.isObject v

theorem SameKind.refl (v : InputArgument) : SameKind v v := ⟨rfl, rfl⟩

theorem mutateValue_keeps (st : FuzzState) (v : InputArgument) :
    Choice.Ensures (mutateValue st v) (SameKind v) := by
  cases v with
  | bool b =>
    apply Choice.ensures_then
    intro n
    exact Choice.ensures_pure _ _ ⟨rfl, rfl⟩
  | u8 n =>
    apply Choice.ensures_then
    intro n
    exact Choice.ensures_pure _ _ ⟨rfl, rfl⟩
  | address a =>
    apply Choice.ensures_then
    intro c
    apply Choice.ensures_then
    intro a
    exact Choice.ensures_pure _ _ ⟨rfl, rfl⟩
  | u32 n | u64 n | u128 n =>
    apply Choice.ensures_then
    intro c
    split_ifs
    · apply Choice.ensures_then
      intro m
      exact Choice.ensures_pure _ _ ⟨rfl, rfl⟩
    · exact Choice.ensures_pure _ _ ⟨rfl, rfl⟩
  | u16 n | u256 n => exact Choice.ensures_pure _ _ ⟨rfl, rfl⟩
  | vector ty vs => exact Choice.ensures_pure _ _ ⟨rfl, rfl⟩
  | signer a => exact Choice.ensures_pure _ _ ⟨rfl, rfl⟩
  | object ty o => exact Choice.ensures_pure _ _ ⟨rfl, rfl⟩

theorem mutateValueIn_keeps (st : FuzzState) (pool : List (List Byte)) (split : Bool)
    (v : InputArgument) : Choice.Ensures (mutateValueIn st pool split v) (SameKind v) := by
  unfold mutateValueIn
  split
  · split_ifs
    · exact Choice.ensures_panic _
    · exact Choice.ensures_pure _ _ (SameKind.refl _)
  · split_ifs
    · exact Choice.ensures_panic _
    · exact Choice.ensures_pure _ _ (SameKind.refl _)
  · exact mutateValue_keeps st v

theorem commit_keeps (bytes : List Byte) (v v' : InputArgument) (h : commit bytes v = some v') :
    SameKind v v' := by
  cases v with
  | vector ty vs =>
    obtain ⟨vs', _, rfl⟩ := Option.map_eq_some_iff.mp h
    exact ⟨rfl, rfl⟩
  | u8 n | u16 n | u32 n | u64 n | u128 n | u256 n =>
    obtain ⟨m, _, rfl⟩ := Option.map_eq_some_iff.mp h
    exact ⟨rfl, rfl⟩
  | bool | signer | address | object => cases h

theorem sampleMagicNumber_keeps (pool : List (List Byte)) (v : InputArgument) :
    Choice.Ensures (sampleMagicNumber pool v) (fun r => SameKind v r.2) := by
  have hfits : ∀ fitValues : List (List Byte), Choice.Ensures
      (if fitValues.isEmpty then pure (.skipped, v) else do
        let bytes ← Choice.pick fitValues
        let value ← Choice.expect (commit bytes v)
        pure (MutationResult.mutated, value) : Choice (MutationResult × InputArgument))
      (fun r => SameKind v r.2) := by
    intro fitValues
    split_ifs
    · exact Choice.ensures_pure _ _ (SameKind.refl v)
    · apply Choice.ensures_then
      intro bytes
      refine Choice.ensures_bind _ _ (SameKind v) _ (Choice.ensures_expect _ _ ?_) ?_
      · intro v' hv'
        exact commit_keeps bytes v v' hv'
      · intro v' hv'
        exact Choice.ensures_pure _ _ hv'
  unfold sampleMagicNumber
  split
  case' h_13 => exact Choice.ensures_pure _ _ (SameKind.refl _)
  all_goals exact Choice.ensures_then _ _ _ fun bytes => hfits _

theorem sampleValue_keeps (pool : List (List Byte)) (v : InputArgument) :
    Choice.Ensures (sampleValue pool v) (SameKind v) :=
  Choice.ensures_bind _ _ _ _ (sampleMagicNumber_keeps pool v) fun _ hr =>
    Choice.ensures_pure _ _ hr

theorem sameObject_pure (x v : InputArgument) (h : InputArgument.isObject v = false) :
    sameObject x v = false := by
  cases v with
  | object ty o => cases h
  | _ => cases x <;> rfl

def PureOf (param : MoveAbiSignatureToken) (v : InputArgument) : Prop :=
  InputArgument.isObject v = false ∧ param.toTypeTag = some (InputArgument.typeTag v)

theorem PureOf.keeps {param : MoveAbiSignatureToken} {v v' : InputArgument} (h : PureOf param v)
    (hkeeps : SameKind v v') : PureOf param v' :=
  ⟨hkeeps.2.trans h.1, h.2.trans (congrArg some hkeeps.1.symm)⟩

theorem genInputArg_pureOf (param : MoveAbiSignatureToken) (v : InputArgument)
    (hmut : param.isMutable = true) (h : param.genInputArg = some v) : PureOf param v := by
  cases param with
  | vector inner =>
    obtain ⟨w, _, h⟩ := Option.bind_eq_some_iff.mp h
    obtain ⟨ty, hty, rfl⟩ := Option.map_eq_some_iff.mp h
    refine ⟨rfl, ?_⟩
    simp only [toTypeTag, hty, Option.map_some, InputArgument.typeTag]
  | bool | address | u8 | u16 | u32 | u64 | u128 | u256 =>
    rw [← Option.some.inj h]
    exact ⟨rfl, rfl⟩
  | _ => cases hmut

theorem valueFromAssignment_pureOf (param : MoveAbiSignatureToken) (n : ℕ) (v : InputArgument)
    (h : valueFromAssignment param n = some v) : PureOf param v := by
  cases param with
  | bool =>
    simp only [valueFromAssignment] at h
    split_ifs at h <;>
    · rw [← Option.some.inj h]
      exact ⟨rfl, rfl⟩
  | u8 | u16 | u32 | u64 | u128 | u256 =>
    simp only [valueFromAssignment] at h
    split_ifs at h
    rw [← Option.some.inj h]
    exact ⟨rfl, rfl⟩
  | _ => cases h

theorem isMutable_plain (param : MoveAbiSignatureToken) (h : param.isMutable = true) :
    param.needsSample = false ∧ param.isTxContext = false ∧ isSplitParam param = false := by
  induction param using MoveAbiSignatureToken.induct with
  | hvector inner ih =>
    have hinner : inner.isMutable = true := h
    obtain ⟨hsample, _, _⟩ := ih hinner
    refine ⟨?_, rfl, rfl⟩
    cases inner <;> first | exact hsample | cases hinner
  | hstruct | hinst | hparam | href | hmut | hsigner => cases h
  | _ => exact ⟨rfl, rfl, rfl⟩

/-! ### Which parameter an argument was built for -/

/-- No parameter with an argument comes after one without. -/
def TxContextLast (fixedArgs : FixedArgs) (parameters : List MoveAbiSignatureToken) : Prop :=
  parameters.zipIdx.Pairwise fun a b => isInjected fixedArgs a → isInjected fixedArgs b

instance (fixedArgs : FixedArgs) (parameters : List MoveAbiSignatureToken) :
    Decidable (TxContextLast fixedArgs parameters) :=
  inferInstanceAs (Decidable (List.Pairwise _ _))

theorem builtFor_aligned_iff (fixedArgs : FixedArgs) (parameters : List MoveAbiSignatureToken)
    (n : ℕ) :
    (∀ k e, (builtFor fixedArgs (parameters.zipIdx n))[k]? = some e → e.2 = n + k) ↔
      (parameters.zipIdx n).Pairwise fun a b => isInjected fixedArgs a → isInjected fixedArgs b := by
  induction parameters generalizing n with
  | nil => simp [builtFor]
  | cons p ps ih =>
    rw [List.zipIdx_cons, List.pairwise_cons]
    cases hinj : isInjected fixedArgs (p, n) with
    | false =>
      rw [builtFor_cons _ _ _ hinj, ← ih (n + 1)]
      constructor
      · intro h
        refine ⟨fun b _ hp => (by cases hp), ?_⟩
        intro k e he
        have := h (k + 1) e (by rw [List.getElem?_cons_succ]; exact he)
        omega
      · rintro ⟨_, h⟩ k e he
        cases k with
        | zero =>
          rw [List.getElem?_cons_zero, Option.some.injEq] at he
          rw [← he]
          rfl
        | succ k =>
          have := h k e (by rw [List.getElem?_cons_succ] at he; exact he)
          omega
    | true =>
      -- a first argument behind the gap would have an index that is too large
      have hnil : (∀ k e, (builtFor fixedArgs (ps.zipIdx (n + 1)))[k]? = some e → e.2 = n + k) ↔
          ∀ b ∈ ps.zipIdx (n + 1), isInjected fixedArgs b = true := by
        constructor
        · intro h b hb
          by_contra hb'
          have hnot : isInjected fixedArgs b = false := by simpa using hb'
          have hmem : b ∈ builtFor fixedArgs (ps.zipIdx (n + 1)) := by
            simp [builtFor, hb, hnot]
          cases hl : builtFor fixedArgs (ps.zipIdx (n + 1)) with
          | nil => simp [hl] at hmem
          | cons e es =>
            have hindex := h 0 e (by rw [hl]; rfl)
            have he : e ∈ ps.zipIdx (n + 1) := by
              apply List.mem_of_mem_filter (p := fun e => !isInjected fixedArgs e)
              show e ∈ builtFor fixedArgs (ps.zipIdx (n + 1))
              rw [hl]
              exact List.mem_cons_self ..
            have := (List.mem_zipIdx he).1
            omega
        · intro h k e he
          have hmem := List.mem_of_getElem? he
          obtain ⟨hin, hnot⟩ := List.mem_filter.mp hmem
          simp [h e hin] at hnot
      rw [builtFor_injected _ _ _ hinj, hnil]
      constructor
      · intro h
        exact ⟨fun b hb _ => h b hb, List.pairwise_of_forall_mem_list fun a _ b hb _ => h b hb⟩
      · rintro ⟨h, _⟩ b hb
        exact h b hb rfl

theorem txContextLast_of_count (fixedArgs : FixedArgs) (parameters : List MoveAbiSignatureToken)
    (m : ℕ) (hcount : (builtFor fixedArgs parameters.zipIdx).length = m)
    (hfront : ∀ e ∈ parameters.zipIdx.take m, isInjected fixedArgs e = false)
    (hm : m ≤ parameters.length) : TxContextLast fixedArgs parameters := by
  have hcut := List.take_append_drop m parameters.zipIdx
  have htake : (parameters.zipIdx.take m).filter (fun e => !isInjected fixedArgs e) =
      parameters.zipIdx.take m := by
    rw [List.filter_eq_self]
    intro e he
    rw [hfront e he, Bool.not_false]
  have hlength : (parameters.zipIdx.take m).length = m := by
    rw [List.length_take, List.length_zipIdx, Nat.min_eq_left hm]
  have hback : ∀ e ∈ parameters.zipIdx.drop m, isInjected fixedArgs e = true := by
    rw [builtFor, ← hcut, List.filter_append, htake, List.length_append, hlength] at hcount
    have hnil : (parameters.zipIdx.drop m).filter (fun e => !isInjected fixedArgs e) = [] :=
      List.eq_nil_of_length_eq_zero (by omega)
    intro e he
    simpa using List.filter_eq_nil_iff.mp hnil e he
  unfold TxContextLast
  rw [← hcut, List.pairwise_append]
  refine ⟨List.pairwise_of_forall_mem_list fun a ha b _ hinj => ?_,
    List.pairwise_of_forall_mem_list fun a _ b hb _ => hback b hb, fun a _ b hb _ => hback b hb⟩
  rw [hfront a ha] at hinj
  cases hinj

/-! ### Writes -/

/-- One pure input was replaced by a pure value of the same type. -/
def OverwritesPure (ptb ptb' : MoveSequence) : Prop :=
  ptb'.commands = ptb.commands ∧ ∃ i old new, ptb.inputs[i]? = some old ∧
    InputArgument.isObject old = false ∧ InputArgument.isObject new = false ∧
    InputArgument.typeTag new = InputArgument.typeTag old ∧ ptb'.inputs = ptb.inputs.set i new

/-- Whatever `mutate_arg` and `solve_arg` write for a call. -/
def WritesPure (st : FuzzState) (ptb : MoveSequence) (function : MoveFunctionAbi)
    (call : MoveCall) : Prop :=
  (∀ magic pool inputLimit cmdIdx ptb', Choice.Yields (mutateCallArg st magic pool inputLimit ptb
    cmdIdx function call) (some ptb') → OverwritesPure ptb ptb') ∧
  ∀ answer inputLimit ptb', Choice.Yields (solveCallArg answer inputLimit ptb function call)
    (some ptb') → OverwritesPure ptb ptb'

theorem mem_argIdxCandidates (function : MoveFunctionAbi) (call : MoveCall) (inputLimit k : ℕ)
    (h : k ∈ argIdxCandidates function call inputLimit) :
    ∃ param, function.parameters[k]? = some param ∧ param.isMutable = true := by
  obtain ⟨⟨⟨param, arg⟩, i⟩, hmem, h⟩ := List.mem_filterMap.mp h
  split_ifs at h with hcond
  obtain rfl := Option.some.inj h
  rw [Bool.and_eq_true] at hcond
  have hget := List.mem_zipIdx_iff_getElem?.mp hmem
  rw [List.getElem?_zip_eq_some] at hget
  exact ⟨param, hget.1, hcond.1⟩

/-- A write goes to the input of an argument that stands at a pure parameter. -/
theorem overwriteArg_writes (function : MoveFunctionAbi) (call : MoveCall) (inputLimit : ℕ)
    (ptb ptb' : MoveSequence) (newValue : ℕ → InputArgument → Choice (Option InputArgument))
    (h : Choice.Yields (overwriteArg function call inputLimit ptb newValue) (some ptb')) :
    ∃ k param inputIdx old new, function.parameters[k]? = some param ∧ param.isMutable = true ∧
      call.arguments[k]? = some (.input inputIdx) ∧ ptb.inputs[inputIdx.val]? = some old ∧
      Choice.Yields (newValue k old) (some new) ∧
      ptb' = { ptb with inputs := ptb.inputs.set inputIdx.val new } := by
  unfold overwriteArg at h
  dsimp only at h
  split_ifs at h
  · have := (Choice.yields_pure _ _).mp h
    cases this
  · obtain ⟨k, hk, h⟩ := Choice.yields_bind _ _ _ h
    obtain ⟨arg, harg, h⟩ := Choice.yields_bind _ _ _ h
    obtain ⟨param, hparam, hmut⟩ := mem_argIdxCandidates function call inputLimit k
      (Choice.yields_pick _ _ hk)
    cases arg with
    | input inputIdx =>
      obtain ⟨old, hold, h⟩ := Choice.yields_bind _ _ _ h
      obtain ⟨new, hnew, h⟩ := Choice.yields_bind _ _ _ h
      cases new with
      | none =>
        have := (Choice.yields_pure _ _).mp h
        cases this
      | some new =>
        have hptb := (Choice.yields_pure _ _).mp h
        rw [Option.some.injEq] at hptb
        exact ⟨k, param, inputIdx, old, new, hparam, hmut, Choice.yields_expect _ _ harg,
          Choice.yields_expect _ _ hold, hnew, hptb⟩
    | _ =>
      have := (Choice.yields_pure _ _).mp h
      cases this

/-- If pure parameters have pure values of their type, both mutators keep to that. -/
theorem writesPure_of_typed (st : FuzzState) (ptb : MoveSequence) (function : MoveFunctionAbi)
    (call : MoveCall)
    (htyped : ∀ (k : ℕ) param idx v, function.parameters[k]? = some param →
      param.isMutable = true → call.arguments[k]? = some (.input idx) →
      ptb.inputs[idx.val]? = some v → PureOf param v) : WritesPure st ptb function call := by
  constructor
  · intro magic pool inputLimit cmdIdx ptb' h
    obtain ⟨k, param, idx, old, new, hparam, hmut, harg, hold, hnew, rfl⟩ :=
      overwriteArg_writes _ _ _ _ _ _ h
    have hpure := htyped k param idx old hparam hmut harg hold
    have hkind : SameKind old new := by
      dsimp only at hnew
      split_ifs at hnew
      · obtain ⟨v, hv, hnew⟩ := Choice.yields_bind _ _ _ hnew
        rw [Choice.yields_pure, Option.some.injEq] at hnew
        rw [hnew]
        exact (sampleValue_keeps _ old).of_yields hv
      · obtain ⟨v, hv, hnew⟩ := Choice.yields_bind _ _ _ hnew
        rw [Choice.yields_pure, Option.some.injEq] at hnew
        rw [hnew]
        exact (mutateValueIn_keeps st _ _ old).of_yields hv
    exact ⟨rfl, idx.val, old, new, hold, hpure.1, (hpure.keeps hkind).1, hkind.1, rfl⟩
  · intro answer inputLimit ptb' h
    obtain ⟨k, param, idx, old, new, hparam, hmut, harg, hold, hnew, rfl⟩ :=
      overwriteArg_writes _ _ _ _ _ _ h
    have hpure := htyped k param idx old hparam hmut harg hold
    have hsome := (Choice.yields_pure _ _).mp hnew
    obtain ⟨solution, _, hsome⟩ := Option.bind_eq_some_iff.mp hsome.symm
    obtain ⟨n, _, hsome⟩ := Option.bind_eq_some_iff.mp hsome
    rw [hparam, Option.bind_some] at hsome
    have hvalue := valueFromAssignment_pureOf param n new hsome
    exact ⟨rfl, idx.val, old, new, hold, hpure.1, hvalue.1,
      Option.some.inj (hvalue.2.symm.trans hpure.2), rfl⟩

/-! ### Calls of `append_function` -/

/-- A fixed argument for a pure parameter, if it is an input, is a pure value of
that type. -/
def FixedPure (fixedArgs : FixedArgs) (parameters : List MoveAbiSignatureToken)
    (ptb : MoveSequence) : Prop :=
  ∀ (k : ℕ) param idx ty, parameters[k]? = some param → param.isMutable = true →
    fixedArgs.get? (asU16 k) = some (.input idx, ty) →
    ∃ v, ptb.inputs[idx.val]? = some v ∧ PureOf param v

/-- Every argument of the call stands for what was built for the parameter at its index: it is
that value or result, or the result of a split of it. -/
def PairsAligned (st : FuzzState) (ptb ptb' : MoveSequence) (ident : FunctionIdent)
    (function : MoveFunctionAbi) (fixedArgs : FixedArgs) (fixedTyArgs : TyArgs)
    (used : List SequenceArgument) (disableSplit : Bool) (rs : List ℕ)
    (arguments : List SequenceArgument) : Prop :=
  ∃ data result rest news,
    ObjectData.fromPtbAndRemoveUsed st ptb used = some data ∧
    tryConstructArgs st ptb.inputs.length (sampledParams fixedArgs function.parameters)
      function.typeParameters (hintTyArgs fixedArgs fixedTyArgs) data rs = some (result, rest) ∧
    result.inputs <+: news ∧
    ∀ (k : ℕ) arg', arguments[k]? = some arg' → ∃ param arg,
      function.parameters[k]? = some param ∧
      BuiltFrom st ident ptb fixedArgs fixedTyArgs function.parameters data.existingObjects
        result.slots result.inputs result.tyArgs ptb' news (param, k) arg ∧
      StandsFor (ptb.inputs ++ news) ptb' disableSplit param arg arg'

section

variable {st : FuzzState} {fuel : ℕ} {ptb ptb' : MoveSequence} {ident : FunctionIdent}
  {fixedArgs : FixedArgs} {fixedTyArgs : TyArgs} {used : List SequenceArgument}
  {disableSplit : Bool} {appended : Appended}
  (run : AppendRun st (appendProducer st fuel) ptb ident fixedArgs fixedTyArgs used disableSplit
    appended ptb')

include run

theorem AppendRun.draft_grows : GrowsFreely ptb run.draft.ptb := by
  have hgrows := run.fills.grows (appendProducer_grows st fuel)
  rw [run.constructed.start_ptb.1] at hgrows
  exact hgrows

theorem AppendRun.slots_sampled (k : ℕ) (param : MoveAbiSignatureToken) (arg : SequenceArgument)
    (hparam : (sampledParams fixedArgs run.function.parameters)[k]? = some param)
    (hslot : run.slots[k]? = some (some arg)) :
    Sampled st ptb.inputs.length run.objectData.existingObjects (hintTyArgs fixedArgs fixedTyArgs)
      run.start.inputs param arg := by
  obtain ⟨d, hinputs, hslots⟩ := run.constructed.start_drawn
  rw [hslots] at hslot
  rw [hinputs]
  obtain ⟨p, ty, hgate, hty, hsampled⟩ := d.sampled k param arg hparam hslot
  exact ⟨p, d.tyArgsMap, ty, hgate, hty, hsampled⟩

theorem AppendRun.built :
    run.start.inputs <+: run.draft.inputs ∧ List.Forall₂
      (BuiltFrom st ident ptb fixedArgs fixedTyArgs run.function.parameters
        run.objectData.existingObjects run.slots run.start.inputs run.tyArgs ptb' run.draft.inputs)
      (builtFor fixedArgs run.function.parameters.zipIdx) run.draft.arguments := by
  obtain ⟨hstart, harguments⟩ := run.constructed.start_ptb
  have hafter : run.draft.ptb.commands <+: ptb'.commands := by
    have hcommands := congrArg MoveSequence.commands run.finished.result
    rw [hcommands]
    exact run.finished.split_grows.trans (List.prefix_append ..)
  obtain ⟨hin, new, hnew, hall⟩ := run.fills.built run.slots_sampled hafter [] rfl rfl rfl
    (by rw [hstart])
  rw [harguments, List.nil_append] at hnew
  rw [hnew]
  exact ⟨hin, hall⟩

theorem AppendRun.draft_bounds :
    run.draft.arguments.length ≤ run.function.parameters.length ∧
      ptb.inputs.length ≤ run.draft.ptb.inputs.length := by
  constructor
  · rw [← run.built.2.length_eq]
    calc _ ≤ run.function.parameters.zipIdx.length := List.length_filter_le _ _
      _ = _ := List.length_zipIdx
  · exact run.draft_grows.1.length_le

theorem AppendRun.args_finished :
    ∃ removed more, FinishedArgs run.function disableSplit ptb.inputs.length run.draft.ptb
      run.draft.arguments run.draft.inputs appended ptb' removed more :=
  run.finished.args_spec run.draft_bounds.1 run.draft_bounds.2

theorem AppendRun.arguments_length :
    appended.1.length = (builtFor fixedArgs run.function.parameters.zipIdx).length := by
  obtain ⟨removed, more, hfinished⟩ := run.args_finished
  rw [hfinished.length_eq, run.built.2.length_eq]

/-- What an argument stands for is what was built for the parameter at its index. -/
theorem AppendRun.aligned (hlen : ptb'.inputs.length ≤ 2 ^ 16)
    (hlast : TxContextLast fixedArgs run.function.parameters) (k : ℕ) (arg' : SequenceArgument)
    (harg : appended.1[k]? = some arg') :
    ∃ param arg, run.function.parameters[k]? = some param ∧
      BuiltFrom st ident ptb fixedArgs fixedTyArgs run.function.parameters
        run.objectData.existingObjects run.slots run.start.inputs run.tyArgs ptb' run.draft.inputs
        (param, k) arg ∧
      StandsFor (ptb.inputs ++ run.draft.inputs) ptb' disableSplit param arg arg' := by
  have hk := (List.getElem?_eq_some_iff.mp harg).1
  rw [run.arguments_length] at hk
  have he := List.getElem?_eq_getElem hk
  have hindex := (builtFor_aligned_iff fixedArgs run.function.parameters 0).mpr hlast k _ he
  rw [Nat.zero_add] at hindex
  generalize (builtFor fixedArgs run.function.parameters.zipIdx)[k] = e at he hindex
  obtain ⟨param, i⟩ := e
  obtain rfl : i = k := hindex
  have hparam : run.function.parameters[i]? = some param :=
    List.mem_zipIdx_iff_getElem?.mp (List.mem_of_mem_filter (List.mem_of_getElem? he))
  obtain ⟨arg, hdraft, hbuilt⟩ := getElem?_forall₂ run.built.2 i _ he
  obtain ⟨arg'', harg'', hstands⟩ := run.finished.standsFor run.draft_bounds.1 run.draft_grows.1
    hlen i param arg hdraft hparam
  obtain rfl := Option.some.inj (harg.symm.trans harg'')
  exact ⟨param, arg, hparam, hbuilt, hstands⟩

theorem AppendRun.pure_typed (hfixed : FixedPure fixedArgs run.function.parameters ptb)
    (hlen : ptb'.inputs.length + run.function.parameters.length ≤ 2 ^ 16)
    (hlast : TxContextLast fixedArgs run.function.parameters) (k : ℕ)
    (param : MoveAbiSignatureToken) (idx : U16) (v : InputArgument)
    (hparam : run.function.parameters[k]? = some param) (hmut : param.isMutable = true)
    (harg : appended.1[k]? = some (.input idx)) (hv : ptb'.inputs[idx.val]? = some v) :
    PureOf param v := by
  obtain ⟨hsample, _, hplain⟩ := isMutable_plain param hmut
  obtain ⟨param', arg, hparam', hbuilt, hstands⟩ := run.aligned (by omega) hlast k _ harg
  obtain rfl : param = param' := Option.some.inj (hparam.symm.trans hparam')
  rw [StandsFor, if_neg (by simp [hplain])] at hstands
  -- the argument that was built is an input with the same value
  obtain ⟨built, rfl, hvalue⟩ : ∃ built, arg = .input built ∧
      (ptb.inputs ++ run.draft.inputs)[built.val]? = some v := by
    cases arg with
    | input built =>
      obtain ⟨idx', w, hidx, hw, hw'⟩ := hstands
      obtain rfl : idx = idx' := SequenceArgument.input.inj hidx
      exact ⟨built, rfl, hw.trans (hw'.symm.trans hv)⟩
    | _ => cases hstands
  cases hbuilt with
  | fixed _ _ _ ty hget =>
    obtain ⟨w, hw, hpure⟩ := hfixed k param built ty hparam hmut hget
    rw [List.getElem?_append_left (List.getElem?_eq_some_iff.mp hw).1, hw] at hvalue
    rw [← Option.some.inj hvalue]
    exact hpure
  | sampled _ _ _ _ _ hneeds => rw [hsample] at hneeds; cases hneeds
  | produced _ _ _ _ _ hneeds => rw [hsample] at hneeds; cases hneeds
  | fresh _ _ j init w hget _ _ _ hinit hmutate hnew =>
    have hj := (List.getElem?_eq_some_iff.mp hnew).1
    have hcount := run.inputs_length
    obtain ⟨removed, more, hfinished⟩ := run.args_finished
    have hptb : ptb.inputs.length ≤ ptb'.inputs.length := by
      have := run.draft_bounds.2
      rw [hfinished.inputs_eq, List.length_append, List.length_append]
      omega
    rw [asU16_val _ (by omega), List.getElem?_append_right (by omega), Nat.add_sub_cancel_left,
      hnew] at hvalue
    rw [← Option.some.inj hvalue]
    exact (genInputArg_pureOf param init hmut hinit).keeps ((mutateValue_keeps st init).of_yields
      hmutate)

end

theorem appendFunction_constructed (st : FuzzState) (fuel : ℕ) (ptb ptb' : MoveSequence)
    (ident : FunctionIdent) (fixedArgs : FixedArgs) (fixedTyArgs : TyArgs)
    (used : List SequenceArgument) (disableSplit : Bool) (appended : Appended) (rs rest : List ℕ)
    (hrun : appendFunction st fuel ptb ident fixedArgs fixedTyArgs used disableSplit rs =
      some ((some appended, ptb'), rest)) :
    ∃ n, ∃ run : AppendRun st (appendProducer st n) ptb ident fixedArgs fixedTyArgs used
        disableSplit appended ptb', ∃ result mid,
      tryConstructArgs st ptb.inputs.length (sampledParams fixedArgs run.function.parameters)
        run.function.typeParameters (hintTyArgs fixedArgs fixedTyArgs) run.objectData rs =
          some (result, mid) ∧ result ≠ .unsolvable ∧
      run.slots = result.slots ∧ run.start.inputs = result.inputs ∧ run.tyArgs = result.tyArgs := by
  cases fuel with
  | zero => cases hrun
  | succ n =>
    have hstep : appendStep st (appendProducer st n) ptb ident fixedArgs fixedTyArgs used
        disableSplit rs = some ((some appended, ptb'), rest) := hrun
    rw [appendStep_eq_with, appendStepWith, Choice.bind_eq_some] at hstep
    obtain ⟨data, rs₁, hread, hstep⟩ := hstep
    obtain ⟨hdata, hrs₁⟩ := (Choice.expect_eq_some _ _ (data, rs₁)).mp hread
    obtain ⟨function, rs₂, hlookup, hstep⟩ := (Choice.bind_eq_some _ _ _ _).mp hstep
    obtain ⟨hfunction, hrs₂⟩ := (Choice.expect_eq_some _ _ (function, rs₂)).mp hlookup
    obtain ⟨result, mid, hresult, hstep⟩ := (Choice.bind_eq_some _ _ _ _).mp hstep
    -- neither of the two lookups has taken a random number
    obtain rfl : rs₂ = rs := hrs₂.trans hrs₁
    obtain ⟨run, hparts, _⟩ := appendResult_run st _ (appendProducer st n) ptb ident fixedArgs
      fixedTyArgs used disableSplit appended ptb' data function result (fun _ tyArgs d param next
        ptb => produceArg_produced st ident tyArgs (appendProducer st n) d next param ptb) hdata
      hfunction ⟨_, _, hresult⟩ ⟨_, _, hstep⟩
    obtain rfl : run.objectData = data := Option.some.inj (run.data.symm.trans hdata)
    obtain rfl : run.function = function := Option.some.inj (run.found.symm.trans hfunction)
    refine ⟨n, run, result, mid, hresult, ?_, hparts⟩
    rintro rfl
    have := (Choice.pure_eq_some _ _ _).mp hstep
    cases this

/-- For every call that `append_function` builds: its arguments stand at the
parameters that they were built for, and `mutate_arg` and `solve_arg` write pure
values of the right type, exactly when no parameter with an argument comes after
a `TxContext`. -/
theorem appendFunction_aligned_iff (st : FuzzState) (fuel : ℕ) (ptb ptb' : MoveSequence)
    (ident : FunctionIdent) (function : MoveFunctionAbi) (fixedArgs : FixedArgs)
    (fixedTyArgs : TyArgs) (used : List SequenceArgument) (disableSplit : Bool)
    (appended : Appended) (rs rest : List ℕ)
    (hfunction : st.getFunction ident.moduleId.moduleAddress ident.moduleId.moduleName
      ident.function = some function)
    (hfixed : FixedPure fixedArgs function.parameters ptb)
    (hrun : appendFunction st fuel ptb ident fixedArgs fixedTyArgs used disableSplit rs =
      some ((some appended, ptb'), rest))
    (hlen : ptb'.inputs.length + function.parameters.length ≤ 2 ^ 16) :
    (PairsAligned st ptb ptb' ident function fixedArgs fixedTyArgs used disableSplit rs
        appended.1 ∧
      ∃ call, lastCall ptb' = some call ∧ call.arguments = appended.1 ∧
        WritesPure st ptb' function call) ↔
      TxContextLast fixedArgs function.parameters := by
  obtain ⟨n, run, result, mid, hresult, _, hslots, hinputs, htyArgs⟩ := appendFunction_constructed st
    fuel ptb ptb' ident fixedArgs fixedTyArgs used disableSplit appended rs rest hrun
  obtain rfl : run.function = function := Option.some.inj (run.found.symm.trans hfunction)
  constructor
  · rintro ⟨⟨_, _, _, _, _, _, _, haligned⟩, _⟩
    have hcount := run.arguments_length
    have hm : appended.1.length ≤ run.function.parameters.length := by
      rw [hcount]
      exact (List.length_filter_le _ _).trans_eq List.length_zipIdx
    apply txContextLast_of_count fixedArgs run.function.parameters appended.1.length hcount.symm _ hm
    intro e he
    obtain ⟨k, hk⟩ := List.mem_iff_getElem?.mp he
    rw [List.getElem?_take] at hk
    split_ifs at hk with hlt
    obtain ⟨param, arg, hparam, hbuilt, _⟩ := haligned k _ (List.getElem?_eq_getElem hlt)
    have he' : e = (param, k) := by
      rw [List.getElem?_zipIdx, hparam, Option.map_some, Nat.zero_add, Option.some.injEq] at hk
      exact hk.symm
    rw [he']
    exact hbuilt.not_injected
  · intro hlast
    refine ⟨⟨run.objectData, result, mid, run.draft.inputs, run.data, hresult, ?_, ?_⟩,
      ⟨ident.moduleId.moduleAddress, ident.moduleId.moduleName, ident.function, run.typeArguments,
        appended.1⟩, run.finished.lastCall_eq, rfl, ?_⟩
    · rw [← hinputs]
      exact run.built.1
    · rw [← hslots, ← hinputs, ← htyArgs]
      exact run.aligned (by omega) hlast
    · apply writesPure_of_typed
      intro k param idx v hparam hmut harg hv
      exact run.pure_typed hfixed hlen hlast k param idx v hparam hmut harg hv

def vaultModule : MoveModuleId := ⟨ObjectID.ofByte 7, "vault"⟩

def itemHandle : MoveStructHandle := ⟨vaultModule, "Item", ⟨false, false, true, true⟩, []⟩

def itemTag : MoveTypeTag := .struct (ObjectID.ofByte 7) "vault" "Item" []

def txContextHandle : MoveStructHandle :=
  ⟨⟨MoveAddress.two, "tx_context"⟩, "TxContext", ⟨false, true, false, false⟩, []⟩

def stakeAbi : MoveFunctionAbi :=
  ⟨"stake", [.u64, .reference (.struct itemHandle), .mutableReference (.struct txContextHandle)],
    [], [], .public_⟩

def vaultState : FuzzState :=
  { FuzzState.ofModule ⟨vaultModule,
      [⟨"deposit", [.mutableReference (.struct txContextHandle), .u64,
          .reference (.struct itemHandle)], [], [], .public_⟩, stakeAbi], [itemHandle]⟩ with
    typesPool := IndexMap.empty.insert itemTag [ObjectID.ofByte 5]
    getMoveObjectInfo := fun id => if id = ObjectID.ofByte 5 then
      some ⟨id, itemTag, .addressOwner (ObjectID.ofByte 9), 1, []⟩ else none }

def itemInput : InputArgument :=
  .object itemTag (.immOrOwnedObject (ObjectID.ofByte 5, 1, []))

def vaultCall (function : String) (arguments : List SequenceArgument) : MoveSequenceCall :=
  .call ⟨ObjectID.ofByte 7, "vault", function, [], arguments⟩

theorem appendFunction_aligned_iff_stake :
    PairsAligned vaultState ⟨[], []⟩ ⟨[itemInput, .u64 0],
        [vaultCall "stake" [.input 1, .input 0]]⟩ ⟨vaultModule, "stake"⟩ stakeAbi SortedMap.empty
        SortedMap.empty [] false [0, 0, 0] [.input 1, .input 0] ∧
      ∃ call, lastCall ⟨[itemInput, .u64 0], [vaultCall "stake" [.input 1, .input 0]]⟩ = some call ∧
        call.arguments = [.input 1, .input 0] ∧
        WritesPure vaultState ⟨[itemInput, .u64 0], [vaultCall "stake" [.input 1, .input 0]]⟩
          stakeAbi call :=
  (appendFunction_aligned_iff vaultState 11 ⟨[], []⟩
    ⟨[itemInput, .u64 0], [vaultCall "stake" [.input 1, .input 0]]⟩ ⟨vaultModule, "stake"⟩ stakeAbi
    SortedMap.empty SortedMap.empty [] false ([.input 1, .input 0], []) [0, 0, 0] [] rfl
    (fun _ _ _ _ _ _ h => by cases h) rfl (by decide)).mpr (by decide)

/-- The solver's number for the amount of a deposit is written over the item. -/
theorem solveArg_overwrites_object :
    appendTop vaultState ⟨[], []⟩ ⟨vaultModule, "deposit"⟩ SortedMap.empty SortedMap.empty [] false
        [0, 0, 0] =
      some ((some ([.input 1, .input 0], []),
        ⟨[itemInput, .u64 0], [vaultCall "deposit" [.input 1, .input 0]]⟩), []) ∧
      solveArg vaultState none (fun _ => some fun i => if i = 1 then some 5 else none) none
          ⟨[itemInput, .u64 0], [vaultCall "deposit" [.input 1, .input 0]]⟩ [0, 0] =
        some (some ⟨[.u64 5, .u64 0], [vaultCall "deposit" [.input 1, .input 0]]⟩, []) :=
  ⟨rfl, rfl⟩

end Movy.Fuzz
