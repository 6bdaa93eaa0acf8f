import Movy.Fuzz.Listed
import Movy.Fuzz.Trace
import Movy.Lib.Pointwise

/-!
# What the arguments of a call are built from

The loop of `append_function` goes over the parameters and pushes one argument
for each of them but the `TxContext`. Here the arguments of the finished call are
traced back: to the fixed argument, to the sampled slot, to the producer's result
or to the fresh value that they were built from.
-/

namespace Movy.Fuzz

open Movy.Types Movy.Store MoveAbiSignatureToken

/-! ### Which parameter an argument was built for -/

/- The parameter gets no argument. -/
def isInjected (fixedArgs : FixedArgs) (e : MoveAbiSignatureToken × ℕ) : Bool :=
  (fixedArgs.get? (asU16 e.2)).isNone && e.1.isTxContext

/- The parameters that get an argument, in the order of the arguments. -/
def builtFor (fixedArgs : FixedArgs) (params : List (MoveAbiSignatureToken × ℕ)) :
    List (MoveAbiSignatureToken × ℕ) := params.filter fun e => !isInjected fixedArgs e

theorem isInjected_fixed (fixedArgs : FixedArgs) (param : MoveAbiSignatureToken) (i : ℕ)
    (fixed : SequenceArgument × MoveTypeTag) (h : fixedArgs.get? (asU16 i) = some fixed) :
    isInjected fixedArgs (param, i) = false := by
  simp only [isInjected, h, Option.isNone_some, Bool.false_and]

theorem isInjected_plain (fixedArgs : FixedArgs) (param : MoveAbiSignatureToken) (i : ℕ)
    (h : param.isTxContext = false) : isInjected fixedArgs (param, i) = false := by
  simp only [isInjected, h, Bool.and_false]

theorem isInjected_context (fixedArgs : FixedArgs) (param : MoveAbiSignatureToken) (i : ℕ)
    (hfixed : fixedArgs.get? (asU16 i) = none) (h : param.isTxContext = true) :
    isInjected fixedArgs (param, i) = true := by
  simp only [isInjected, hfixed, h, Option.isNone_none, Bool.and_true]

theorem builtFor_cons (fixedArgs : FixedArgs) (e : MoveAbiSignatureToken × ℕ)
    (rest : List (MoveAbiSignatureToken × ℕ)) (h : isInjected fixedArgs e = false) :
    builtFor fixedArgs (e :: rest) = e :: builtFor fixedArgs rest := by
  simp only [builtFor, List.filter_cons, h, Bool.not_false, if_true]

theorem builtFor_injected (fixedArgs : FixedArgs) (e : MoveAbiSignatureToken × ℕ)
    (rest : List (MoveAbiSignatureToken × ℕ)) (h : isInjected fixedArgs e = true) :
    builtFor fixedArgs (e :: rest) = builtFor fixedArgs rest := by
  simp only [builtFor, List.filter_cons, h, Bool.not_true, Bool.false_eq_true, if_false]

/-! ### Sampled slots -/

theorem eraseAt_eq {α : Type} (l : List α) (i : ℕ) : eraseAt l i = l.eraseIdx i :=
  (List.eraseIdx_eq_take_drop_succ l i).symm

theorem narrows_eraseAt (objects : ExistingObjects) (ty : MoveTypeTag)
    (args : List (SequenceArgument × Gate)) (i : ℕ) (hargs : objects.get? ty = some args) :
    Narrows (objects.insert ty (eraseAt args i)) objects := by
  apply narrows_insert objects ty args _ hargs
  rw [eraseAt_eq]
  exact List.eraseIdx_sublist ..

theorem narrows_sampled (gate : Gate) (objects : ExistingObjects) (ty : MoveTypeTag)
    (args : List (SequenceArgument × Gate)) (i : ℕ) (hargs : objects.get? ty = some args) :
    Narrows (if gate = .owned then objects.insert ty (eraseAt args i) else objects) objects := by
  split_ifs
  · exact narrows_eraseAt _ _ _ _ hargs
  · exact Narrows.refl _

/- The argument is listed under the type, or it is a new input with an object of the pool; the
gate accepts it. -/
def SampledFor (st : FuzzState) (inputLen : ℕ) (objects : ExistingObjects)
    (inputs : List InputArgument) (gate : Gate) (ty : MoveTypeTag) (arg : SequenceArgument) : Prop :=
  (∃ args c, objects.get? ty = some args ∧ c ∈ args ∧ gateAccepts gate c.2 ∧ c.1 = arg) ∨
  ∃ j id object input, arg = .input (asU16 (inputLen + j)) ∧ inputs[j]? = some input ∧
    id ∈ availableObjects st ty gate ∧ st.getMoveObjectInfo id = some object ∧
    objectInput id object = some input

theorem SampledFor.widen {st : FuzzState} {inputLen : ℕ} {objects objects' : ExistingObjects}
    {inputs : List InputArgument} {gate : Gate} {ty : MoveTypeTag} {arg : SequenceArgument}
    (h : SampledFor st inputLen objects' inputs gate ty arg) (hn : Narrows objects' objects) :
    SampledFor st inputLen objects inputs gate ty arg := by
  rcases h with ⟨args, c, hargs, hc, hgate, harg⟩ | hpool
  · obtain ⟨args', hargs', hsub⟩ := hn ty args hargs
    exact .inl ⟨args', c, hargs', hsub.subset hc, hgate, harg⟩
  · exact .inr hpool

def SlotsSampled (st : FuzzState) (inputLen : ℕ) (objects : ExistingObjects) (tyArgsMap : TyArgs)
    (inputs : List InputArgument) (params : List ((MoveAbiSignatureToken × Gate) × Bool))
    (slots : List (Option SequenceArgument)) : Prop :=
  ∀ (k : ℕ) arg, slots[k]? = some (some arg) → ∃ p ty, params[k]? = some (p, true) ∧
    p.1.subst tyArgsMap = some ty ∧ SampledFor st inputLen objects inputs p.2 ty arg

theorem SlotsSampled.cons {st : FuzzState} {inputLen : ℕ} {objects objects' : ExistingObjects}
    {tyArgsMap : TyArgs} {inputs : List InputArgument}
    {params : List ((MoveAbiSignatureToken × Gate) × Bool)}
    {slots : List (Option SequenceArgument)}
    (htail : SlotsSampled st inputLen objects' tyArgsMap inputs params slots)
    (hn : Narrows objects' objects) (p : MoveAbiSignatureToken × Gate) (known : Bool)
    (slot : Option SequenceArgument)
    (hhead : ∀ arg, slot = some arg → known = true ∧ ∃ ty, p.1.subst tyArgsMap = some ty ∧
      SampledFor st inputLen objects inputs p.2 ty arg) :
    SlotsSampled st inputLen objects tyArgsMap inputs ((p, known) :: params) (slot :: slots) := by
  intro k arg hk
  cases k with
  | zero =>
    obtain ⟨rfl, ty, hty, hsampled⟩ := hhead arg (Option.some.inj hk)
    exact ⟨p, ty, rfl, hty, hsampled⟩
  | succ k =>
    obtain ⟨q, ty, hq, hty, hsampled⟩ := htail k arg hk
    exact ⟨q, ty, hq, hty, hsampled.widen hn⟩

theorem Samples.sampledFor {st : FuzzState} {inputLen : ℕ} {tyArgsMap : TyArgs}
    {params : List ((MoveAbiSignatureToken × Gate) × Bool)} {s s' : Sampling}
    (h : Samples st inputLen tyArgsMap params s s') :
    s.inputs <+: s'.inputs ∧ ∃ slots, s'.returnArgs = s.returnArgs ++ slots ∧
      SlotsSampled st inputLen s.existingObjects tyArgsMap s'.inputs params slots := by
  induction h with
  | done s =>
    exact ⟨List.prefix_rfl, [], (List.append_nil _).symm, fun k arg hk => by simp at hk⟩
  | missing p known rest s s' _ ih =>
    obtain ⟨hin, slots, hslots, hall⟩ := ih
    refine ⟨hin, none :: slots, by rw [hslots, List.append_assoc]; rfl, ?_⟩
    exact hall.cons (Narrows.refl _) p known none fun arg h => by cases h
  | existing p rest s s' ty args i c hty hargs hc hgate _ ih =>
    obtain ⟨hin, slots, hslots, hall⟩ := ih
    have hnarrows := narrows_sampled p.2 s.existingObjects ty args i hargs
    refine ⟨hin, some c.1 :: slots, by rw [hslots, List.append_assoc]; rfl, ?_⟩
    apply hall.cons hnarrows p true (some c.1)
    intro arg harg
    rw [← Option.some.inj harg]
    exact ⟨rfl, ty, hty, .inl ⟨args, c, hargs, List.mem_of_getElem? hc, hgate, rfl⟩⟩
  | pool p rest s s' ty id object input hty hnone hid hunused hobject hinput _ ih =>
    obtain ⟨hin, slots, hslots, hall⟩ := ih
    refine ⟨(List.prefix_append ..).trans hin, _ :: slots,
      by rw [hslots, List.append_assoc]; rfl, ?_⟩
    apply hall.cons (Narrows.refl _) p true _
    intro arg harg
    rw [← Option.some.inj harg]
    obtain ⟨tail, htail⟩ := hin
    have hget : s'.inputs[s.inputs.length]? = some input := by
      rw [← htail, List.getElem?_append_left (by simp), List.getElem?_concat_length]
    exact ⟨rfl, ty, hty, .inr ⟨s.inputs.length, id, object, input, rfl, hget, hid, hobject, hinput⟩⟩

theorem Samples.slots_length {st : FuzzState} {inputLen : ℕ} {tyArgsMap : TyArgs}
    {params : List ((MoveAbiSignatureToken × Gate) × Bool)} {s s' : Sampling}
    (h : Samples st inputLen tyArgsMap params s s') :
    s'.returnArgs.length = s.returnArgs.length + params.length := by
  induction h with
  | done s => rfl
  | missing _ _ _ _ _ _ ih =>
    simp only [List.length_append, List.length_cons, List.length_nil] at ih ⊢
    omega
  | existing _ _ _ _ _ _ _ _ _ _ _ _ _ ih =>
    simp only [List.length_append, List.length_cons, List.length_nil] at ih ⊢
    omega
  | pool _ _ _ _ _ _ _ _ _ _ _ _ _ _ _ ih =>
    simp only [List.length_append, List.length_cons, List.length_nil] at ih ⊢
    omega

theorem allCandidates_length (st : FuzzState) (objects : ExistingObjects)
    (abilities : List MoveAbility) (params : List (MoveAbiSignatureToken × Gate))
    (rows : List (List TyArgs)) (h : allCandidates st objects abilities params = some rows) :
    rows.length = params.length := by
  induction params generalizing rows with
  | nil =>
    rw [← Option.some.inj h]
    rfl
  | cons p params ih =>
    obtain ⟨row, _, h⟩ := Option.bind_eq_some_iff.mp h
    obtain ⟨rest, hrest, rfl⟩ := Option.map_eq_some_iff.mp h
    rw [List.length_cons, List.length_cons, ih rest hrest]

theorem Drawn.slots_length {st : FuzzState} {inputLen : ℕ} {params : List MoveAbiSignatureToken}
    {abilities : List MoveAbility} {fixedTyArgs : TyArgs} {data : ObjectData}
    (d : Drawn st inputLen params abilities fixedTyArgs data) :
    d.sampling.returnArgs.length = params.length := by
  have hlength := d.samples.slots_length
  have hgates := (mapM_forall₂ _ _ _ d.gated).length_eq
  have hrows := allCandidates_length _ _ _ _ _ d.candidates
  rw [List.length_zip, List.length_map] at hlength
  simp only [List.length_nil] at hlength
  omega

def Sampled (st : FuzzState) (inputLen : ℕ) (objects : ExistingObjects) (fixedTyArgs : TyArgs)
    (inputs : List InputArgument) (param : MoveAbiSignatureToken) (arg : SequenceArgument) : Prop :=
  ∃ p tyArgs ty, withGate fixedTyArgs param = some p ∧ p.1.subst tyArgs = some ty ∧
    SampledFor st inputLen objects inputs p.2 ty arg

theorem Drawn.sampled {st : FuzzState} {inputLen : ℕ} {params : List MoveAbiSignatureToken}
    {abilities : List MoveAbility} {fixedTyArgs : TyArgs} {data : ObjectData}
    (d : Drawn st inputLen params abilities fixedTyArgs data) (k : ℕ)
    (param : MoveAbiSignatureToken) (arg : SequenceArgument) (hparam : params[k]? = some param)
    (hk : d.sampling.returnArgs[k]? = some (some arg)) :
    ∃ p ty, withGate fixedTyArgs param = some p ∧ p.1.subst d.tyArgsMap = some ty ∧
      SampledFor st inputLen data.existingObjects d.sampling.inputs p.2 ty arg := by
  obtain ⟨_, slots, hslots, hall⟩ := d.samples.sampledFor
  rw [List.nil_append] at hslots
  rw [hslots] at hk
  obtain ⟨p, ty, hp, hty, hsampled⟩ := hall k arg hk
  obtain ⟨hgated, _⟩ := List.getElem?_zip_eq_some.mp hp
  obtain ⟨p', hp', hgate⟩ := getElem?_forall₂ (mapM_forall₂ _ _ _ d.gated) k param hparam
  rw [hgated, Option.some.injEq] at hp'
  subst hp'
  exact ⟨p, ty, hgate, hty, hsampled⟩

/-! ### What an argument was built from -/

def slotCount (fixedArgs : FixedArgs) (params : List (MoveAbiSignatureToken × ℕ)) : ℕ :=
  params.countP fun e => (fixedArgs.get? (asU16 e.2)).isNone && e.1.needsSample

def freshCount (fixedArgs : FixedArgs) (params : List (MoveAbiSignatureToken × ℕ)) : ℕ :=
  params.countP fun e =>
    (fixedArgs.get? (asU16 e.2)).isNone && !e.1.isTxContext && !e.1.needsSample

section

variable (st : FuzzState) (ident : FunctionIdent) (ptb : MoveSequence)

/- A call behind the sequence returns the argument where a producer's signature
matches the parameter. -/
def ReturnedFor (ptb' : MoveSequence) (tyArgs : TyArgs) (param : MoveAbiSignatureToken)
    (arg : SequenceArgument) : Prop :=
  ∃ (preFunc : MoveModuleId × MoveFunctionAbi) (found : TyArgs × TyArgs × List (U16 × U16))
    (retIdx : ℕ) (function : MoveFunctionAbi) (c : ℕ) (call : MoveCall),
    preFunc ∈ st.typeGraph.findProducers (param.partialSubst tyArgs) ident ∧
    firstMatch (param.partialSubst tyArgs) 0 preFunc.2.returnParamters = some (found, retIdx) ∧
    st.getFunction preFunc.1.moduleAddress preFunc.1.moduleName preFunc.2.name = some function ∧
    retIdx < function.returnParamters.length ∧ ptb.commands.length ≤ c ∧
    ptb'.commands[c]? = some (.call call) ∧ callIdent call = ⟨preFunc.1, preFunc.2.name⟩ ∧
    arg = ObjectData.resultArg function.returnParamters.length c retIdx

variable (fixedArgs : FixedArgs) (fixedTyArgs : TyArgs) (parameters : List MoveAbiSignatureToken)
  (objects : ExistingObjects) (slots : List (Option SequenceArgument))
  (inputs : List InputArgument) (tyArgs : TyArgs)

/- The argument of a parameter: the one that was fixed for it, the object that was sampled for
it, what a producer returns for it, or a fresh value of its type. New inputs are numbered behind
those of the sequence, first the sampled objects, then the fresh values. -/
inductive BuiltFrom (ptb' : MoveSequence) (news : List InputArgument) :
    MoveAbiSignatureToken × ℕ → SequenceArgument → Prop where
  | fixed (param : MoveAbiSignatureToken) (i : ℕ) (arg : SequenceArgument) (ty : MoveTypeTag)
      (hfixed : fixedArgs.get? (asU16 i) = some (arg, ty)) : BuiltFrom ptb' news (param, i) arg
  | sampled (param : MoveAbiSignatureToken) (i : ℕ) (arg : SequenceArgument)
      (hfixed : fixedArgs.get? (asU16 i) = none) (hctx : param.isTxContext = false)
      (hsample : param.needsSample = true)
      (hslot : slots[slotCount fixedArgs (parameters.zipIdx.take i)]? = some (some arg))
      (hdrawn : Sampled st ptb.inputs.length objects (hintTyArgs fixedArgs fixedTyArgs)
        inputs param arg) :
      BuiltFrom ptb' news (param, i) arg
  | produced (param : MoveAbiSignatureToken) (i : ℕ) (arg : SequenceArgument)
      (hfixed : fixedArgs.get? (asU16 i) = none) (hctx : param.isTxContext = false)
      (hsample : param.needsSample = true)
      (hslot : slots[slotCount fixedArgs (parameters.zipIdx.take i)]? = some none)
      (hreturned : ReturnedFor st ident ptb ptb' tyArgs param arg) :
      BuiltFrom ptb' news (param, i) arg
  | fresh (param : MoveAbiSignatureToken) (i j : ℕ) (init v : InputArgument)
      (hfixed : fixedArgs.get? (asU16 i) = none) (hctx : param.isTxContext = false)
      (hsample : param.needsSample = false)
      (hindex : j = inputs.length + freshCount fixedArgs (parameters.zipIdx.take i))
      (hinit : param.genInputArg = some init) (hmutate : Choice.Yields (mutateValue st init) v)
      (hnew : news[j]? = some v) :
      BuiltFrom ptb' news (param, i) (.input (asU16 (ptb.inputs.length + j)))

end

theorem BuiltFrom.not_injected {st : FuzzState} {ident : FunctionIdent} {ptb : MoveSequence}
    {fixedArgs : FixedArgs} {fixedTyArgs : TyArgs} {parameters : List MoveAbiSignatureToken}
    {objects : ExistingObjects} {slots : List (Option SequenceArgument)}
    {inputs : List InputArgument} {tyArgs : TyArgs} {ptb' : MoveSequence}
    {news : List InputArgument} {e : MoveAbiSignatureToken × ℕ} {arg : SequenceArgument}
    (h : BuiltFrom st ident ptb fixedArgs fixedTyArgs parameters objects slots inputs tyArgs ptb'
      news e arg) :
    isInjected fixedArgs e = false := by
  cases h with
  | fixed param i _ ty hfixed => exact isInjected_fixed fixedArgs param i _ hfixed
  | sampled param i _ hfixed hctx => exact isInjected_plain fixedArgs param i hctx
  | produced param i _ hfixed hctx => exact isInjected_plain fixedArgs param i hctx
  | fresh param i _ _ _ hfixed hctx => exact isInjected_plain fixedArgs param i hctx

theorem BuiltFrom.eq_fixed {st : FuzzState} {ident : FunctionIdent} {ptb : MoveSequence}
    {fixedArgs : FixedArgs} {fixedTyArgs : TyArgs} {parameters : List MoveAbiSignatureToken}
    {objects : ExistingObjects} {slots : List (Option SequenceArgument)}
    {inputs : List InputArgument} {tyArgs : TyArgs} {ptb' : MoveSequence}
    {news : List InputArgument} {param : MoveAbiSignatureToken} {i : ℕ}
    {arg arg' : SequenceArgument} {ty : MoveTypeTag}
    (h : BuiltFrom st ident ptb fixedArgs fixedTyArgs parameters objects slots inputs tyArgs ptb'
      news (param, i) arg')
    (hget : fixedArgs.get? (asU16 i) = some (arg, ty)) : arg' = arg := by
  cases h with
  | fixed _ _ _ ty' hfixed =>
    have hpair := Option.some.inj (hfixed.symm.trans hget)
    exact congrArg Prod.fst hpair
  | sampled _ _ _ hfixed => rw [hfixed] at hget; cases hget
  | produced _ _ _ hfixed => rw [hfixed] at hget; cases hget
  | fresh _ _ _ _ _ hfixed => rw [hfixed] at hget; cases hget

/-! ### What the loop pushes -/

theorem needsSample_not_txContext (param : MoveAbiSignatureToken) (h : param.isTxContext = true) :
    param.needsSample = false := by
  cases param with
  | struct inner =>
    simp only [needsSample, h]
    rfl
  | reference inner =>
    have hinner : inner.isTxContext = true := h
    simp [needsSample, hinner]
  | mutableReference inner =>
    have hinner : inner.isTxContext = true := h
    simp [needsSample, hinner]
  | _ => cases h

theorem Finished.split_grows {function : MoveFunctionAbi} {ident : FunctionIdent}
    {disableSplit : Bool} {inputLen : ℕ} {ptb : MoveSequence} {arguments : List SequenceArgument}
    {typeArguments : List MoveTypeTag} {inputs : List InputArgument} {appended : Appended}
    {ptb' : MoveSequence}
    (f : Finished function ident disableSplit inputLen ptb arguments typeArguments inputs appended
      ptb') : ptb.commands <+: f.splitPtb.commands := by
  have hsplit := f.split
  by_cases hdisable : disableSplit = true
  · rw [if_pos hdisable, Option.some.injEq, Prod.mk.injEq] at hsplit
    exact (congrArg MoveSequence.commands hsplit.1) ▸ List.prefix_rfl
  · rw [if_neg hdisable] at hsplit
    exact (splitArgs_commands _ _ _ _ _ _ _ _ hsplit).1

theorem appendProducer_returns (st : FuzzState) (fuel : ℕ) (ptb ptb' : MoveSequence)
    (ident : FunctionIdent) (tyArgs : TyArgs) (used : List SequenceArgument) (appended : Appended)
    (h : Choice.Yields (appendProducer st fuel ptb ident tyArgs used) (some appended, ptb')) :
    ∃ function call c, st.getFunction ident.moduleId.moduleAddress ident.moduleId.moduleName
        ident.function = some function ∧ ptb.commands.length ≤ c ∧
      ptb'.commands[c]? = some (.call call) ∧ callIdent call = ident ∧
      appended.2 = (List.range function.returnParamters.length).map fun j =>
        ObjectData.resultArg function.returnParamters.length c j := by
  obtain ⟨n, _, ⟨run⟩⟩ := appendFunction_run st fuel ptb ident SortedMap.empty tyArgs used false
    appended ptb' h
  have hgrows := run.fills.grows (appendProducer_grows st n)
  rw [run.constructed.start_ptb.1] at hgrows
  have hlength := (hgrows.commands.trans run.finished.split_grows).length_le
  refine ⟨run.function, ⟨ident.moduleId.moduleAddress, ident.moduleId.moduleName, ident.function,
    run.typeArguments, appended.1⟩, run.finished.splitPtb.commands.length, run.found, hlength, ?_,
    rfl, run.finished.returns⟩
  have hcommands := congrArg MoveSequence.commands run.finished.result
  rw [hcommands, List.getElem?_concat_length]

theorem Produced.returnedFor {st : FuzzState} {fuel : ℕ} {ident : FunctionIdent} {tyArgs : TyArgs}
    {ptb ptb' : MoveSequence} {d next : Draft} {param : MoveAbiSignatureToken}
    (h : Produced st ident tyArgs (appendProducer st fuel) d param next)
    (hbefore : ptb.commands.length ≤ d.ptb.commands.length)
    (hafter : next.ptb.commands <+: ptb'.commands) :
    ∃ ret, next.arguments = d.arguments ++ [ret] ∧ next.inputs = d.inputs ∧
      d.ptb.commands.length ≤ next.ptb.commands.length ∧
      ReturnedFor st ident ptb ptb' tyArgs param ret := by
  cases h with
  | intro preFunc argTyArg producingTyArg producing mapping retIdx appended _ newCall settled ret
      hfunc hmatch hlink happend hcall hsettled hret =>
    obtain ⟨function, call, c, hfound, hc, hget, hident, hreturns⟩ :=
      appendProducer_returns st fuel _ _ _ _ _ _ happend
    obtain ⟨tail, htail⟩ := hafter
    have hlt := (List.getElem?_eq_some_iff.mp hget).1
    rw [hreturns, List.getElem?_map, Option.map_eq_some_iff] at hret
    obtain ⟨j, hj, rfl⟩ := hret
    obtain ⟨hrange, hj⟩ := List.getElem?_eq_some_iff.mp hj
    rw [List.getElem_range] at hj
    subst hj
    rw [List.length_range] at hrange
    have hgrows := ((appendProducer_grows st fuel _ _ _ _).of_yields happend).commands
    refine ⟨_, rfl, rfl, hgrows.length_le, preFunc, _, retIdx, function, c, call, hfunc, hmatch,
      hfound, hrange, by omega, ?_, hident, rfl⟩
    rw [← htail, List.getElem?_append_left hlt]
    exact hget

section

variable {st : FuzzState} {fuel : ℕ} {ident : FunctionIdent} {ptb ptb' : MoveSequence}
  {fixedArgs : FixedArgs} {fixedTyArgs : TyArgs} {parameters : List MoveAbiSignatureToken}
  {objects : ExistingObjects} {allSlots : List (Option SequenceArgument)}
  {inputs : List InputArgument} {tyArgs : TyArgs}

/- A parameter behind others has its number. -/
theorem take_zipIdx_of_split (before rest : List (MoveAbiSignatureToken × ℕ))
    (param : MoveAbiSignatureToken) (i : ℕ)
    (h : parameters.zipIdx = before ++ (param, i) :: rest) :
    parameters.zipIdx.take i = before := by
  have hget : parameters.zipIdx[before.length]? = some (param, i) := by
    rw [h, List.getElem?_append_right (Nat.le_refl _), Nat.sub_self, List.getElem?_cons_zero]
  rw [List.getElem?_zipIdx, Option.map_eq_some_iff] at hget
  obtain ⟨_, _, hpair⟩ := hget
  have hi : i = before.length := by
    have := congrArg Prod.snd hpair
    simp only at this
    omega
  rw [h, hi, List.take_left]

theorem sampledParams_slot (before rest : List (MoveAbiSignatureToken × ℕ))
    (param : MoveAbiSignatureToken) (i : ℕ)
    (h : parameters.zipIdx = before ++ (param, i) :: rest)
    (hfixed : fixedArgs.get? (asU16 i) = none) (hsample : param.needsSample = true) :
    (sampledParams fixedArgs parameters)[slotCount fixedArgs before]? = some param := by
  have hlength : slotCount fixedArgs before = ((before.filter fun e =>
      (fixedArgs.get? (asU16 e.2)).isNone && e.1.needsSample).map Prod.fst).length := by
    rw [List.length_map, slotCount, List.countP_eq_length_filter]
  rw [sampledParams, h, List.filter_append, List.map_append, hlength,
    List.getElem?_append_right (Nat.le_refl _), Nat.sub_self]
  simp [hfixed, hsample]

theorem Fills.built
    (hslots : ∀ (k : ℕ) param arg, (sampledParams fixedArgs parameters)[k]? = some param →
      allSlots[k]? = some (some arg) →
      Sampled st ptb.inputs.length objects (hintTyArgs fixedArgs fixedTyArgs) inputs param
        arg)
    {params : List (MoveAbiSignatureToken × ℕ)} {slots : List (Option SequenceArgument)}
    {d d' : Draft}
    (h : Fills st ptb.inputs.length fixedArgs
      (Produced st ident tyArgs (appendProducer st fuel)) params slots d d')
    (hafter : d'.ptb.commands <+: ptb'.commands)
    (before : List (MoveAbiSignatureToken × ℕ)) (hsplit : parameters.zipIdx = before ++ params)
    (hdrop : slots = allSlots.drop (slotCount fixedArgs before))
    (hinputs : d.inputs.length = inputs.length + freshCount fixedArgs before)
    (hbefore : ptb.commands.length ≤ d.ptb.commands.length) :
    d.inputs <+: d'.inputs ∧ ∃ new, d'.arguments = d.arguments ++ new ∧
      List.Forall₂
        (BuiltFrom st ident ptb fixedArgs fixedTyArgs parameters objects allSlots inputs tyArgs
          ptb' d'.inputs)
        (builtFor fixedArgs params) new := by
  induction h generalizing before with
  | done slots d => exact ⟨List.prefix_rfl, [], (List.append_nil _).symm, .nil⟩
  | fixed param i rest slots d d' arg ty hfixed _ ih =>
    obtain ⟨hin, new, hnew, hall⟩ := ih hafter (before ++ [(param, i)]) (by simp [hsplit])
      (by simp [slotCount, hfixed, hdrop]) (by simp [freshCount, hfixed, hinputs]) hbefore
    refine ⟨hin, arg :: new, by rw [hnew, List.append_assoc]; rfl, ?_⟩
    rw [builtFor_cons _ _ _ (isInjected_fixed fixedArgs param i _ hfixed)]
    exact .cons (.fixed param i arg ty hfixed) hall
  | injected param i rest slots d d' hfixed hctx _ ih =>
    have hsample : param.needsSample = false := needsSample_not_txContext param hctx
    obtain ⟨hin, new, hnew, hall⟩ := ih hafter (before ++ [(param, i)]) (by simp [hsplit])
      (by simp [slotCount, hsample, hdrop]) (by simp [freshCount, hctx, hinputs]) hbefore
    rw [builtFor_injected _ _ _ (isInjected_context fixedArgs param i hfixed hctx)]
    exact ⟨hin, new, hnew, hall⟩
  | sampled param i rest slots d d' arg hfixed hctx hsample _ ih =>
    have htake := take_zipIdx_of_split before rest param i hsplit
    obtain ⟨hslot, htail⟩ := drop_eq_cons hdrop.symm
    have hrest : slots = allSlots.drop (slotCount fixedArgs before + 1) := htail.symm
    obtain ⟨hin, new, hnew, hall⟩ := ih hafter (before ++ [(param, i)]) (by simp [hsplit])
      (by simp [slotCount, hfixed, hsample, hrest]) (by simp [freshCount, hsample, hinputs]) hbefore
    refine ⟨hin, arg :: new, by rw [hnew, List.append_assoc]; rfl, ?_⟩
    rw [builtFor_cons _ _ _ (isInjected_plain fixedArgs param i hctx)]
    refine .cons (.sampled param i arg hfixed hctx hsample (by rw [htake]; exact hslot) ?_) hall
    exact hslots _ param arg (sampledParams_slot before rest param i hsplit hfixed hsample) hslot
  | produced param i rest slots d next d' hfixed hctx hsample hproduced hfills ih =>
    have htake := take_zipIdx_of_split before rest param i hsplit
    obtain ⟨hslot, htail⟩ := drop_eq_cons hdrop.symm
    have hrest : slots = allSlots.drop (slotCount fixedArgs before + 1) := htail.symm
    have hgrows := (hfills.grows (appendProducer_grows st fuel)).commands
    obtain ⟨ret, hret, hnext, hlonger, hreturned⟩ :=
      hproduced.returnedFor hbefore (hgrows.trans hafter)
    obtain ⟨hin, new, hnew, hall⟩ := ih hafter (before ++ [(param, i)]) (by simp [hsplit])
      (by simp [slotCount, hfixed, hsample, hrest])
      (by simp [freshCount, hsample, hinputs, hnext]) (hbefore.trans hlonger)
    refine ⟨by rw [← hnext]; exact hin, ret :: new, by rw [hnew, hret, List.append_assoc]; rfl, ?_⟩
    rw [builtFor_cons _ _ _ (isInjected_plain fixedArgs param i hctx)]
    exact .cons (.produced param i ret hfixed hctx hsample (by rw [htake]; exact hslot) hreturned)
      hall
  | fresh param i rest slots d d' init v hfixed hctx hsample hinit hmutate _ ih =>
    have htake := take_zipIdx_of_split before rest param i hsplit
    obtain ⟨hin, new, hnew, hall⟩ := ih hafter (before ++ [(param, i)]) (by simp [hsplit])
      (by simp [slotCount, hsample, hdrop])
      (by simp [freshCount, hfixed, hctx, hsample, hinputs]; omega) hbefore
    refine ⟨(List.prefix_append ..).trans hin, _ :: new,
      by rw [hnew, List.append_assoc]; rfl, ?_⟩
    rw [builtFor_cons _ _ _ (isInjected_plain fixedArgs param i hctx)]
    refine .cons (.fresh param i d.inputs.length init v hfixed hctx hsample
      (by rw [htake]; exact hinputs) hinit hmutate ?_) hall
    obtain ⟨tail, htail⟩ := hin
    rw [← htail, List.getElem?_append_left (by simp), List.getElem?_concat_length]

end

/-! ### The finished arguments -/

/- An input with the same value, or the same result. -/
def SamePlace (inputs inputs' : List InputArgument) (arg arg' : SequenceArgument) : Prop :=
  match arg with
  | .input idx => ∃ idx' v, arg' = .input idx' ∧ inputs[idx.val]? = some v ∧
      inputs'[idx'.val]? = some v
  | arg => arg' = arg

/- The argument has kept its place; for a coin or a balance it is the result of a split that
has taken it. -/
def StandsFor (inputs : List InputArgument) (ptb' : MoveSequence) (disableSplit : Bool)
    (param : MoveAbiSignatureToken) (arg arg' : SequenceArgument) : Prop :=
  if !disableSplit && isSplitParam param then ∃ (c : ℕ) (tys : List MoveTypeTag)
      (taken amount : SequenceArgument), arg' = .result (asU16 c) ∧ ptb'.commands[c]? =
        some (splitCall (if param.isBalance then "balance" else "coin") tys taken amount) ∧
      SamePlace inputs ptb'.inputs arg taken
  else SamePlace inputs ptb'.inputs arg arg'

/- New inputs are numbered as if they followed the inputs at the start. -/
theorem FinishedArgs.samePlace {function : MoveFunctionAbi} {disableSplit : Bool}
    {ptb draft : MoveSequence} {arguments : List SequenceArgument} {inputs : List InputArgument}
    {appended : Appended} {ptb' : MoveSequence} {removed : List ℕ} {more : List InputArgument}
    (h : FinishedArgs function disableSplit ptb.inputs.length draft arguments inputs appended ptb'
      removed more) (hlen : ptb'.inputs.length ≤ 2 ^ 16) (hgrown : ptb.inputs <+: draft.inputs)
    (arg : SequenceArgument)
    (hrange : ∀ idx, arg = .input idx → ¬ idx.val < ptb.inputs.length →
      idx.val - ptb.inputs.length < inputs.length) :
    SamePlace (ptb.inputs ++ inputs) ptb'.inputs arg
      (renumber draft.inputs inputs ptb.inputs.length removed arg) := by
  cases arg with
  | input idx =>
    by_cases hold : idx.val < ptb.inputs.length
    · obtain ⟨tail, htail⟩ := hgrown
      have hv := List.getElem?_eq_getElem hold
      obtain ⟨idx', hidx', hget⟩ := h.renumber_input hlen idx ptb.inputs[idx.val] (by
        rw [if_pos hold, ← htail, List.getElem?_append_left hold, hv])
      exact ⟨idx', _, hidx', by rw [List.getElem?_append_left hold, hv], hget⟩
    · have hv := List.getElem?_eq_getElem (hrange idx rfl hold)
      obtain ⟨idx', hidx', hget⟩ := h.renumber_input hlen idx _ (by rw [if_neg hold]; exact hv)
      refine ⟨idx', _, hidx', ?_, hget⟩
      rw [List.getElem?_append_right (Nat.le_of_not_lt hold), hv]
  | _ => rfl

/- The finished argument at the index of a parameter. -/
theorem Finished.standsFor {function : MoveFunctionAbi} {ident : FunctionIdent}
    {disableSplit : Bool} {ptb draft : MoveSequence} {arguments : List SequenceArgument}
    {typeArguments : List MoveTypeTag} {inputs : List InputArgument} {appended : Appended}
    {ptb' : MoveSequence}
    (f : Finished function ident disableSplit ptb.inputs.length draft arguments typeArguments inputs
      appended ptb')
    (hcount : arguments.length ≤ function.parameters.length)
    (hgrown : ptb.inputs <+: draft.inputs) (hlen : ptb'.inputs.length ≤ 2 ^ 16) (k : ℕ)
    (param : MoveAbiSignatureToken) (arg : SequenceArgument) (hk : arguments[k]? = some arg)
    (hparam : function.parameters[k]? = some param) :
    ∃ arg', appended.1[k]? = some arg' ∧
      StandsFor (ptb.inputs ++ inputs) ptb' disableSplit param arg arg' := by
  obtain ⟨removed, more, h⟩ := f.args_spec hcount hgrown.length_le
  obtain ⟨removed', hremoved, hargs, _⟩ := reindex_spec _ _ _ _ _ _ _ hcount hgrown.length_le
    f.reindexed
  obtain rfl : removed' = removed := hremoved.trans h.removed_eq.symm
  have hplace := h.samePlace hlen hgrown arg (by
    rintro idx rfl hnew
    exact reindex_range _ _ _ _ _ _ hcount f.reindexed k idx hk hnew)
  refine ⟨_, h.argument k arg hk, ?_⟩
  unfold StandsFor
  cases disableSplit with
  | true => exact hplace
  | false =>
    rw [if_neg Bool.false_ne_true, splitArg, hparam, Option.any_some]
    by_cases hsplitParam : isSplitParam param = true
    · have hsplit := f.split
      rw [if_neg Bool.false_ne_true] at hsplit
      have harg : f.args[k]? = some (renumber draft.inputs inputs ptb.inputs.length removed' arg) := by
        rw [hargs, List.getElem?_map, hk, Option.map_some]
      obtain ⟨_, _, _, tys, amount, _, hcmd⟩ :=
        (splitArgs_commands _ _ _ _ _ _ _ _ hsplit).2 k _ param harg hparam hsplitParam
      rw [if_pos hsplitParam, if_pos (by simp [hsplitParam])]
      refine ⟨_, tys, _, amount, rfl, ?_, hplace⟩
      have hcommands := congrArg MoveSequence.commands f.result
      rw [hcommands, List.getElem?_append_left (List.getElem?_eq_some_iff.mp hcmd).1]
      exact hcmd
    · rw [if_neg hsplitParam, if_neg (by simp [hsplitParam])]
      exact hplace

end Movy.Fuzz
