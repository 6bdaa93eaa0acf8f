import Movy.Fuzz.Align
import Movy.Lib.Queues

/-!
# Mapped objects (`movy-fuzz/src/operations/sui_test.rs`)

`--object-mapping` lists objects by type. Before a test function is called,
`build_test_fixed_args` makes each of them an input and binds it to the next
parameter of its type; `append_function` is then called with these arguments fixed.
-/

namespace Movy.Fuzz

open Movy.Types Movy.Store MoveAbiSignatureToken

/- The type of the object that a parameter takes, and whether it is passed as `&T`. -/
def objectParamInfo (tyArgs : TyArgs) (param : MoveAbiSignatureToken) :
    Option (MoveTypeTag × Bool) :=
  match param with
  | .struct _ | .structInstantiation _ _ => (param.subst tyArgs).map fun ty => (ty, false)
  | .reference inner => match inner with
    | .struct _ | .structInstantiation _ _ => (inner.subst tyArgs).map fun ty => (ty, true)
    | _ => none
  | .mutableReference inner => match inner with
    | .struct _ | .structInstantiation _ _ => (inner.subst tyArgs).map fun ty => (ty, false)
    | _ => none
  | _ => none

/- The store has no such object, or "--object-mapping object {id} has unsupported
owner {other:?}". -/
inductive MappingError (ε : Type) where
  | store (error : ε)
  | unsupportedOwner (id : MoveAddress) (owner : MoveOwner)

section

variable {ε : Type}

def mappedInput (id : MoveAddress) (info : MoveObjectInfo) (immutableRef : Bool) :
    Except (MappingError ε) InputArgument :=
  match info.owner with
  | .addressOwner _ | .immutable =>
    .ok (.object info.ty (.immOrOwnedObject (id, info.version, info.digest)))
  | .shared v => .ok (.object info.ty (.sharedObject id v (!immutableRef)))
  | other => .error (.unsupportedOwner id other)

structure Bindings where
  sequence : MoveSequence
  remaining : IndexMap MoveTypeTag (List MoveAddress)
  fixed : FixedArgs

def Bindings.bindObject (b : Bindings) (i : ℕ) (ty : MoveTypeTag) (queue : List MoveAddress)
    (input : InputArgument) : Bindings :=
  let inputs := b.sequence.inputs ++ [input]
  let arg := SequenceArgument.input (asU16 (inputs.length - 1))
  ⟨{ b.sequence with inputs := inputs }, b.remaining.insert ty queue,
    b.fixed.insert (asU16 i) (arg, ty)⟩

variable (store : MoveAddress → Except ε MoveObjectInfo) (tyArgs : TyArgs)

def bindParam (b : Bindings) (e : MoveAbiSignatureToken × ℕ) : Except (MappingError ε) Bindings :=
  if e.1.isTxContext then .ok b
  else match objectParamInfo tyArgs e.1 with
    | none => .ok b
    | some (ty, immutableRef) => match b.remaining.get? ty with
      | none => .ok b
      | some [] => .ok b
      | some (id :: queue) => do
        let info ← (store id).mapError MappingError.store
        let input ← mappedInput id info immutableRef
        .ok (b.bindObject e.2 ty queue input)

def buildTestFixedArgs (function : MoveFunctionAbi) (sequence : MoveSequence)
    (remaining : IndexMap MoveTypeTag (List MoveAddress)) : Except (MappingError ε) Bindings :=
  function.parameters.zipIdx.foldlM (bindParam store tyArgs)
    ⟨sequence, remaining, SortedMap.empty⟩

/-! ### The loop serves requests -/

def mappedIds (mapping : IndexMap MoveTypeTag (List MoveAddress)) (ty : MoveTypeTag) :
    List MoveAddress := (mapping.get? ty).getD []

def boundType (param : MoveAbiSignatureToken) : Option MoveTypeTag :=
  if param.isTxContext then none else (objectParamInfo tyArgs param).map Prod.fst

def BindsAs (b : Bindings) (i : ℕ) (param : MoveAbiSignatureToken) : Option MoveAddress → Prop
  | none => b.fixed.get? (asU16 i) = none
  | some id => ∃ ty immutableRef info input idx,
      objectParamInfo tyArgs param = some (ty, immutableRef) ∧ store id = .ok info ∧
      mappedInput (ε := ε) id info immutableRef = .ok input ∧
      b.fixed.get? (asU16 i) = some (.input idx, ty) ∧ b.sequence.inputs[idx.val]? = some input

theorem mappedIds_insert (mapping : IndexMap MoveTypeTag (List MoveAddress)) (ty : MoveTypeTag)
    (id : MoveAddress) (queue : List MoveAddress) (h : mapping.get? ty = some (id :: queue)) :
    mappedIds (mapping.insert ty queue) = popQueue (mappedIds mapping) ty := by
  funext ty'
  unfold mappedIds popQueue
  rw [IndexMap.get?_insert]
  by_cases hty : ty' = ty
  · subst hty
    rw [if_pos rfl, Function.update_self]
    simp only [h, Option.getD_some, List.tail_cons]
  · rw [if_neg hty, Function.update_of_ne hty]

theorem bindObject_get? (b : Bindings) (i : ℕ) (ty : MoveTypeTag) (queue : List MoveAddress)
    (input : InputArgument) (k : U16) :
    (b.bindObject i ty queue input).fixed.get? k =
      if k = asU16 i then some (.input (asU16 b.sequence.inputs.length), ty)
      else b.fixed.get? k := by
  have hlen : (b.sequence.inputs ++ [input]).length - 1 = b.sequence.inputs.length := by
    rw [List.length_append, List.length_singleton, Nat.add_sub_cancel]
  rw [Bindings.bindObject, SortedMap.get?_insert, hlen]

theorem bindParam_cases (b b' : Bindings) (param : MoveAbiSignatureToken) (i : ℕ)
    (h : bindParam store tyArgs b (param, i) = .ok b') :
    (b' = b ∧ ∀ ty, boundType tyArgs param = some ty → mappedIds b.remaining ty = []) ∨
    ∃ ty immutableRef id queue info input, boundType tyArgs param = some ty ∧
      objectParamInfo tyArgs param = some (ty, immutableRef) ∧
      b.remaining.get? ty = some (id :: queue) ∧ store id = .ok info ∧
      mappedInput (ε := ε) id info immutableRef = .ok input ∧
      b' = b.bindObject i ty queue input := by
  unfold bindParam at h
  cases hctx : param.isTxContext with
  | true =>
    simp only [hctx, if_true, Except.ok.injEq] at h
    refine .inl ⟨h.symm, fun ty hty => ?_⟩
    simp [boundType, hctx] at hty
  | false =>
    have hbound : boundType tyArgs param = (objectParamInfo tyArgs param).map Prod.fst := by
      simp [boundType, hctx]
    simp only [hctx, Bool.false_eq_true, if_false] at h
    cases hinfo : objectParamInfo tyArgs param with
    | none =>
      simp only [hinfo, Except.ok.injEq] at h
      refine .inl ⟨h.symm, fun ty hty => ?_⟩
      simp [hbound, hinfo] at hty
    | some found =>
      obtain ⟨ty, immutableRef⟩ := found
      rw [hinfo] at hbound h
      have hskip : mappedIds b.remaining ty = [] → ∀ ty', some ty = some ty' →
          mappedIds b.remaining ty' = [] := by
        intro hempty ty' hty'
        rw [← Option.some.inj hty']
        exact hempty
      cases hqueue : b.remaining.get? ty with
      | none =>
        simp only [hqueue, Except.ok.injEq] at h
        refine .inl ⟨h.symm, ?_⟩
        rw [hbound]
        exact hskip (by simp [mappedIds, hqueue])
      | some ids =>
        cases ids with
        | nil =>
          simp only [hqueue, Except.ok.injEq] at h
          refine .inl ⟨h.symm, ?_⟩
          rw [hbound]
          exact hskip (by simp [mappedIds, hqueue])
        | cons id queue =>
          simp only [hqueue] at h
          cases hstore : store id with
          | error e => simp [hstore, Except.mapError, bind, Except.bind] at h
          | ok info =>
            cases hinput : mappedInput (ε := ε) id info immutableRef with
            | error e => simp [hstore, hinput, Except.mapError, bind, Except.bind] at h
            | ok input =>
              simp only [hstore, hinput, Except.mapError, bind, Except.bind, Except.ok.injEq] at h
              exact .inr ⟨ty, immutableRef, id, queue, info, input, hbound, rfl, hqueue, hstore,
                hinput, h.symm⟩

theorem asU16_ne {m n : ℕ} (hm : m < 2 ^ 16) (hn : n < 2 ^ 16) (h : m ≠ n) : asU16 m ≠ asU16 n := by
  intro heq
  have hval : m % 2 ^ 16 = n % 2 ^ 16 := congrArg Fin.val heq
  rw [Nat.mod_eq_of_lt hm, Nat.mod_eq_of_lt hn] at hval
  exact h hval

/- By induction on the parameters: the requests are served from the objects that are
left, and the positions behind are still free. -/
theorem foldlM_bindParam (params : List MoveAbiSignatureToken) (n : ℕ) (b b' : Bindings)
    (hrun : (params.zipIdx n).foldlM (bindParam store tyArgs) b = .ok b')
    (hlen : n + params.length ≤ 2 ^ 16) (hinputs : b.sequence.inputs.length ≤ n)
    (hfree : ∀ m, n ≤ m → m < 2 ^ 16 → b.fixed.get? (asU16 m) = none) :
    b.sequence.inputs <+: b'.sequence.inputs ∧
      (∀ m < n, b'.fixed.get? (asU16 m) = b.fixed.get? (asU16 m)) ∧
      ∀ (j : ℕ) param served, params[j]? = some param →
        (serve (mappedIds b.remaining) (params.map (boundType tyArgs)))[j]? = some served →
        BindsAs store tyArgs b' (n + j) param served := by
  induction params generalizing n b with
  | nil =>
    obtain rfl : b = b' := Except.ok.inj hrun
    exact ⟨List.prefix_rfl, fun _ _ => rfl, fun j param served hparam => by simp at hparam⟩
  | cons param params ih =>
    rw [List.length_cons] at hlen
    rw [List.zipIdx_cons, List.foldlM_cons] at hrun
    cases hstep : bindParam store tyArgs b (param, n) with
    | error e =>
      rw [hstep] at hrun
      cases hrun
    | ok mid =>
      rw [hstep] at hrun
      have hn : n < 2 ^ 16 := by omega
      rcases bindParam_cases store tyArgs b mid param n hstep with ⟨rfl, hidle⟩ |
        ⟨ty, immutableRef, id, queue, info, input, hty, hinfo, hqueue, hstore, hinput, rfl⟩
      · obtain ⟨hgrown, hframe, hbinds⟩ := ih (n + 1) mid hrun (by omega) (by omega)
          fun m hm hm' => hfree m (by omega) hm'
        refine ⟨hgrown, fun m hm => hframe m (by omega), ?_⟩
        intro j param' served hparam hserved
        rw [List.map_cons, serve_idle _ _ _ hidle] at hserved
        cases j with
        | zero =>
          obtain rfl : none = served := Option.some.inj hserved
          exact (hframe n (by omega)).trans (hfree n (Nat.le_refl n) hn)
        | succ j =>
          rw [List.getElem?_cons_succ] at hparam hserved
          have := hbinds j param' served hparam hserved
          rwa [Nat.add_right_comm, Nat.add_assoc] at this
      · have hnew : ∀ m, m ≠ n → m < 2 ^ 16 →
            (b.bindObject n ty queue input).fixed.get? (asU16 m) = b.fixed.get? (asU16 m) := by
          intro m hm hm'
          rw [bindObject_get?, if_neg (asU16_ne hm' hn hm)]
        obtain ⟨hgrown, hframe, hbinds⟩ := ih (n + 1) _ hrun (by omega)
          (by rw [Bindings.bindObject, List.length_append, List.length_singleton]; omega)
          (fun m hm hm' => (hnew m (by omega) hm').trans (hfree m (by omega) hm'))
        refine ⟨(List.prefix_append ..).trans hgrown,
          fun m hm => (hframe m (by omega)).trans (hnew m (by omega) (by omega)), ?_⟩
        intro j param' served hparam hserved
        have hhead : mappedIds b.remaining ty = id :: queue := by simp [mappedIds, hqueue]
        rw [List.map_cons, hty, serve, hhead] at hserved
        cases j with
        | zero =>
          obtain rfl : some id = served := Option.some.inj hserved
          obtain rfl := Option.some.inj hparam
          refine ⟨ty, immutableRef, info, input, asU16 b.sequence.inputs.length, hinfo, hstore,
            hinput, ?_, ?_⟩
          · rw [Nat.add_zero, hframe n (by omega), bindObject_get?, if_pos rfl]
          · have hval : (asU16 b.sequence.inputs.length).val = b.sequence.inputs.length :=
              Nat.mod_eq_of_lt (by omega)
            obtain ⟨tail, htail⟩ := hgrown
            rw [hval, ← htail, Bindings.bindObject, List.append_assoc,
              List.getElem?_append_right (Nat.le_refl _), Nat.sub_self]
            rfl
        | succ j =>
          rw [List.getElem?_cons_succ] at hparam hserved
          rw [← mappedIds_insert b.remaining ty id queue hqueue] at hserved
          have := hbinds j param' served hparam hserved
          rwa [Nat.add_right_comm, Nat.add_assoc] at this

theorem buildTestFixedArgs_binds (function : MoveFunctionAbi)
    (mapping : IndexMap MoveTypeTag (List MoveAddress)) (b : Bindings)
    (hbuild : buildTestFixedArgs store tyArgs function ⟨[], []⟩ mapping = .ok b)
    (hlen : function.parameters.length ≤ 2 ^ 16) (i : ℕ) (param : MoveAbiSignatureToken)
    (served : Option MoveAddress) (hparam : function.parameters[i]? = some param)
    (hserved : (serve (mappedIds mapping) (function.parameters.map (boundType tyArgs)))[i]? =
      some served) : BindsAs store tyArgs b i param served := by
  have hrun := (foldlM_bindParam store tyArgs function.parameters 0 _ b hbuild (by omega)
    (Nat.le_refl 0) fun m _ _ => rfl).2.2 i param served hparam hserved
  rwa [Nat.zero_add] at hrun

end

/-! ### Fixed inputs reach the call -/

/- The argument of parameter `i`: it is passed as it is, or the split of the coin or
balance takes it. -/
def PassedAs (ptb : MoveSequence) (arguments : List SequenceArgument) (i : ℕ)
    (param : MoveAbiSignatureToken) (arg : SequenceArgument) : Prop :=
  if isSplitParam param then ∃ (c : ℕ) (tys : List MoveTypeTag) (amount : SequenceArgument),
    arguments[i]? = some (.result (asU16 c)) ∧ ptb.commands[c]? =
      some (splitCall (if param.isBalance then "balance" else "coin") tys arg amount)
  else arguments[i]? = some arg

section

variable {st : FuzzState} {fuel : ℕ} {ptb ptb' : MoveSequence} {ident : FunctionIdent}
  {fixedArgs : FixedArgs} {fixedTyArgs : TyArgs} {used : List SequenceArgument}
  {appended : Appended}
  (run : AppendRun st (appendProducer st fuel) ptb ident fixedArgs fixedTyArgs used false
    appended ptb')

include run

theorem AppendRun.old_input (i : ℕ) (v : InputArgument) (hi : ptb.inputs[i]? = some v) :
    ptb'.inputs[i]? = some v := by
  obtain ⟨removed, more, hfinished⟩ := run.args_finished
  have hgrows := (run.fills.grows (appendProducer_grows st fuel)).1
  rw [run.constructed.start_ptb.1] at hgrows
  obtain ⟨tail, htail⟩ := hgrows
  apply hfinished.old_input
  rw [← htail, List.getElem?_append_left (List.getElem?_eq_some_iff.mp hi).1]
  exact hi

theorem AppendRun.fixed_pushed (hlast : TxContextLast fixedArgs run.function.parameters) (i : ℕ)
    (param : MoveAbiSignatureToken) (arg : SequenceArgument) (ty : MoveTypeTag)
    (hparam : run.function.parameters[i]? = some param)
    (hfixed : fixedArgs.get? (asU16 i) = some (arg, ty)) :
    run.draft.arguments[i]? = some arg := by
  have hmem : (param, i) ∈ builtFor fixedArgs run.function.parameters.zipIdx := by
    refine List.mem_filter.mpr ⟨List.mem_zipIdx_iff_getElem?.mpr hparam, ?_⟩
    rw [isInjected_fixed fixedArgs param i _ hfixed]
    rfl
  obtain ⟨k, hk⟩ := List.mem_iff_getElem?.mp hmem
  have hindex := (builtFor_aligned_iff fixedArgs run.function.parameters 0).mpr hlast k _ hk
  obtain rfl : i = k := by omega
  obtain ⟨pushed, hpushed, hbuilt⟩ := getElem?_forall₂ run.built.2 i _ hk
  rw [hpushed, hbuilt.eq_fixed hfixed]

theorem AppendRun.fixed_passed (hlast : TxContextLast fixedArgs run.function.parameters) (i : ℕ)
    (param : MoveAbiSignatureToken) (idx : U16) (ty : MoveTypeTag)
    (hparam : run.function.parameters[i]? = some param)
    (hfixed : fixedArgs.get? (asU16 i) = some (.input idx, ty))
    (hold : idx.val < ptb.inputs.length) : PassedAs ptb' appended.1 i param (.input idx) := by
  have hpushed := run.fixed_pushed hlast i param _ ty hparam hfixed
  have hkept : ∀ removed, renumber run.draft.ptb.inputs run.draft.inputs ptb.inputs.length
      removed (.input idx) = .input idx := by
    intro removed
    simp only [renumber, hold, if_true]
  obtain ⟨removed, more, hfinished⟩ := run.args_finished
  unfold PassedAs
  by_cases hsplitParam : isSplitParam param = true
  · rw [if_pos hsplitParam]
    obtain ⟨removed', _, hargs, _⟩ := reindex_spec _ _ _ _ _ _ _ run.draft_bounds.1
      run.draft_bounds.2 run.finished.reindexed
    have harg : run.finished.args[i]? = some (.input idx) := by
      rw [hargs, List.getElem?_map, hpushed, Option.map_some, hkept]
    have hsplit := run.finished.split
    rw [if_neg Bool.false_ne_true] at hsplit
    obtain ⟨_, _, _, tys, amount, _, hcmd⟩ := (splitArgs_commands _ _ _ _ _ _ _ _ hsplit).2 i
      _ param harg hparam hsplitParam
    refine ⟨run.draft.ptb.commands.length + splitCount run.function.parameters i, tys, amount,
      ?_, ?_⟩
    · rw [hfinished.argument i _ hpushed, if_neg Bool.false_ne_true, splitArg, hparam,
        Option.any_some, if_pos hsplitParam]
    · have hcommands := congrArg MoveSequence.commands run.finished.result
      rw [hcommands, List.getElem?_append_left (List.getElem?_eq_some_iff.mp hcmd).1]
      exact hcmd
  · rw [if_neg hsplitParam, hfinished.argument_plain i _ param hpushed hparam (by simpa using
      hsplitParam), hkept]

end

/-! ### Which parameter gets which object -/

/- The object type of a parameter by value, `&` or `&mut`: a struct, or what the type
arguments put for a type parameter. -/
def objectType (tyArgs : TyArgs) (param : MoveAbiSignatureToken) : Option MoveTypeTag :=
  if param.isTxContext then none
  else match param.dereference.getD param with
    | .struct handle => subst tyArgs (.struct handle)
    | .structInstantiation handle args => subst tyArgs (.structInstantiation handle args)
    | .typeParameter index _ => match tyArgs.get? index with
      | some (.struct addr module name tys) => some (.struct addr module name tys)
      | _ => none
    | _ => none

/- `T`, `&T` or `&mut T` for a type parameter `T`. -/
def isBareParameter (param : MoveAbiSignatureToken) : Bool :=
  match param.dereference.getD param with
  | .typeParameter _ _ => true
  | _ => false

def isImmutableReference : MoveAbiSignatureToken → Bool
  | .reference _ => true
  | _ => false

theorem boundType_eq (tyArgs : TyArgs) (param : MoveAbiSignatureToken)
    (h : isBareParameter param = false) : boundType tyArgs param = objectType tyArgs param := by
  have hmap : ∀ (o : Option MoveTypeTag) (r : Bool),
      (o.map fun ty => (ty, r)).map Prod.fst = o := by
    intro o r
    cases o <;> rfl
  unfold boundType objectType
  cases param with
  | reference inner | mutableReference inner =>
    cases inner with
    | typeParameter => cases h
    | _ => simp [objectParamInfo, dereference, hmap]
  | typeParameter => cases h
  | _ => simp [objectParamInfo, dereference, hmap]

theorem boundType_bare (tyArgs : TyArgs) (param : MoveAbiSignatureToken)
    (h : isBareParameter param = true) : boundType tyArgs param = none := by
  unfold boundType
  cases param with
  | reference inner | mutableReference inner =>
    cases inner with
    | typeParameter => simp [objectParamInfo]
    | _ => cases h
  | typeParameter => simp [objectParamInfo]
  | _ => cases h

/- A type parameter is left to the sampler, which only looks for structs. -/
theorem isBareParameter_sample (param : MoveAbiSignatureToken) (h : isBareParameter param = true) :
    param.needsSample = true ∧ samplable param = false := by
  cases param with
  | reference inner | mutableReference inner =>
    cases inner with
    | typeParameter => exact ⟨rfl, rfl⟩
    | _ => cases h
  | typeParameter => exact ⟨rfl, rfl⟩
  | _ => cases h

theorem objectParamInfo_immutable (tyArgs : TyArgs) (param : MoveAbiSignatureToken)
    (ty : MoveTypeTag) (immutableRef : Bool)
    (h : objectParamInfo tyArgs param = some (ty, immutableRef)) :
    immutableRef = isImmutableReference param := by
  cases param with
  | reference inner | mutableReference inner =>
    cases inner with
    | struct | structInstantiation =>
      obtain ⟨_, _, heq⟩ := Option.map_eq_some_iff.mp h
      exact (congrArg Prod.snd heq).symm
    | _ => cases h
  | struct | structInstantiation =>
    obtain ⟨_, _, heq⟩ := Option.map_eq_some_iff.mp h
    exact (congrArg Prod.snd heq).symm
  | _ => cases h

section

variable {ε : Type} (store : MoveAddress → Except ε MoveObjectInfo)
  (mapping : IndexMap MoveTypeTag (List MoveAddress)) (tyArgs : TyArgs)
  (function : MoveFunctionAbi) (b : Bindings) (ptb : MoveSequence)
  (arguments : List SequenceArgument)

/- Parameter `i` receives the object, in the sequence and in the call at its end. -/
def Receives (i : ℕ) (param : MoveAbiSignatureToken) (ty : MoveTypeTag) (id : MoveAddress) : Prop :=
  ∃ idx info obj, b.fixed.get? (asU16 i) = some (.input idx, ty) ∧
    PassedAs ptb arguments i param (.input idx) ∧ store id = .ok info ∧
    ptb.inputs[idx.val]? = some (.object info.ty obj) ∧ ObjectData.objectId obj = some id ∧
    ∀ v, info.owner = .shared v → obj = .sharedObject id v (!isImmutableReference param)

/- The objects that are left for parameter `i`: it is the `k`-th of its type, so it gets
the `k`-th object. -/
def mappedTo (i : ℕ) (ty : MoveTypeTag) : Option MoveAddress :=
  (mappedIds mapping ty)[requestsBefore (function.parameters.map (objectType tyArgs)) i ty]?

/- The `k`-th parameter of an object type receives the `k`-th object of the type. -/
def MappingReached : Prop :=
  ∀ i param ty id, function.parameters[i]? = some param → objectType tyArgs param = some ty →
    mappedTo mapping tyArgs function i ty = some id →
    Receives store b ptb arguments i param ty id

variable {store mapping tyArgs function b}

theorem mappedInput_ok {id : MoveAddress} {info : MoveObjectInfo} {immutableRef : Bool}
    {input : InputArgument} (h : mappedInput (ε := ε) id info immutableRef = .ok input) :
    ∃ obj, input = .object info.ty obj ∧ ObjectData.objectId obj = some id ∧
      ∀ v, info.owner = .shared v → obj = .sharedObject id v (!immutableRef) := by
  unfold mappedInput at h
  cases howner : info.owner with
  | addressOwner owner =>
    rw [howner] at h
    exact ⟨_, (Except.ok.inj h).symm, rfl, fun v hv => by cases hv⟩
  | immutable =>
    rw [howner] at h
    exact ⟨_, (Except.ok.inj h).symm, rfl, fun v hv => by cases hv⟩
  | shared v =>
    rw [howner] at h
    refine ⟨_, (Except.ok.inj h).symm, rfl, fun v' hv => ?_⟩
    rw [MoveOwner.shared.inj hv]
  | _ =>
    rw [howner] at h
    cases h

theorem serve_objectType (i : ℕ) (param : MoveAbiSignatureToken)
    (hparam : function.parameters[i]? = some param) :
    (serve (mappedIds mapping) (function.parameters.map (objectType tyArgs)))[i]? =
      some ((objectType tyArgs param).bind (mappedTo mapping tyArgs function i)) := by
  rw [getElem?_serve, List.getElem?_map, hparam, Option.map_some, Option.map_some]
  rfl

variable (hbuild : buildTestFixedArgs store tyArgs function ⟨[], []⟩ mapping = .ok b)
  (hlen : function.parameters.length ≤ 2 ^ 16)

include hbuild hlen

theorem not_bound (i : ℕ) (param : MoveAbiSignatureToken)
    (hparam : function.parameters[i]? = some param) (hnone : boundType tyArgs param = none) :
    b.fixed.get? (asU16 i) = none := by
  apply buildTestFixedArgs_binds store tyArgs function mapping b hbuild hlen i param none hparam
  rw [getElem?_serve, List.getElem?_map, hparam, Option.map_some, Option.map_some, hnone]
  rfl

theorem txContextLast_bound (hctx : TxContextLast SortedMap.empty function.parameters) :
    TxContextLast b.fixed function.parameters := by
  refine List.Pairwise.imp_of_mem ?_ hctx
  intro e e' _ he' hlast hinj
  have hcontext : e.1.isTxContext = true := by
    rw [isInjected, Bool.and_eq_true] at hinj
    exact hinj.2
  have hnext := hlast (isInjected_context _ e.1 e.2 rfl hcontext)
  have hcontext' : e'.1.isTxContext = true := by
    rw [isInjected, Bool.and_eq_true] at hnext
    exact hnext.2
  apply isInjected_context _ _ _ _ hcontext'
  apply not_bound hbuild hlen e'.2 e'.1 (List.mem_zipIdx_iff_getElem?.mp he')
  rw [boundType, if_pos hcontext']

/- A parameter that stays a type parameter is not bound, and cannot be sampled either:
there is no call. -/
theorem AppendRun.not_bareParameter {st : FuzzState} {fuel : ℕ} {ident : FunctionIdent}
    {used : List SequenceArgument} {disableSplit : Bool} {appended : Appended} {ptb : MoveSequence}
    (run : AppendRun st (appendProducer st fuel) b.sequence ident b.fixed tyArgs used disableSplit
      appended ptb) (hrun : run.function = function) (param : MoveAbiSignatureToken)
    (hparam : param ∈ function.parameters) : isBareParameter param = false := by
  by_contra hbare
  have hbare : isBareParameter param = true := by simpa using hbare
  obtain ⟨i, hi⟩ := List.mem_iff_getElem?.mp hparam
  have hfree := not_bound hbuild hlen i param hi (boundType_bare tyArgs param hbare)
  obtain ⟨hsample, hnot⟩ := isBareParameter_sample param hbare
  obtain ⟨d, _⟩ := run.constructed.drawn
  have hsampled : param ∈ sampledParams b.fixed run.function.parameters := by
    refine List.mem_map.mpr ⟨(param, i), List.mem_filter.mpr ⟨?_, ?_⟩, rfl⟩
    · rw [hrun]
      exact List.mem_zipIdx_iff_getElem?.mpr hi
    · simp [hfree, hsample]
  rw [d.samplable param hsampled] at hnot
  cases hnot

end

/- Whenever `build_test_fixed_args` and `append_function` return for a mapping, every object
reaches its parameter. Positions are keys of sixteen bits; in bytecode a signature has no
more than 255 parameters. -/
theorem mapping_reached {ε : Type} (st : FuzzState)
    (store : MoveAddress → Except ε MoveObjectInfo) (ident : FunctionIdent)
    (function : MoveFunctionAbi) (mapping : IndexMap MoveTypeTag (List MoveAddress))
    (tyArgs : TyArgs) (b : Bindings) (appended : Appended) (ptb : MoveSequence)
    (rs rest : List ℕ)
    (hfunction : st.getFunction ident.moduleId.moduleAddress ident.moduleId.moduleName
      ident.function = some function)
    (hlen : function.parameters.length ≤ 2 ^ 16)
    (hctx : TxContextLast SortedMap.empty function.parameters)
    (hbuild : buildTestFixedArgs store tyArgs function ⟨[], []⟩ mapping = .ok b)
    (happend : appendTop st b.sequence ident b.fixed tyArgs [] false rs =
      some ((some appended, ptb), rest)) :
    ∃ call, lastCall ptb = some call ∧
      MappingReached store mapping tyArgs function b ptb call.arguments := by
  obtain ⟨n, _, ⟨run⟩⟩ := appendFunction_run st 11 b.sequence ident b.fixed tyArgs [] false
    appended ptb ⟨rs, rest, happend⟩
  obtain rfl : run.function = function := Option.some.inj (run.found.symm.trans hfunction)
  have htypes : ∀ param ∈ run.function.parameters,
      boundType tyArgs param = objectType tyArgs param := fun param hparam =>
    boundType_eq tyArgs param (run.not_bareParameter hbuild hlen rfl param hparam)
  refine ⟨_, run.finished.lastCall_eq, ?_⟩
  intro i param ty id hparam hty hid
  have hbound := htypes param (List.mem_of_getElem? hparam)
  have hbinds : BindsAs store tyArgs b i param (some id) := by
    apply buildTestFixedArgs_binds store tyArgs run.function mapping b hbuild hlen i param _ hparam
    rw [List.map_congr_left htypes, serve_objectType i param hparam, hty, Option.bind_some, hid]
  obtain ⟨ty', immutableRef, info, input, idx, hinfo, hstore, hinput, hfixed, hget⟩ := hbinds
  obtain ⟨obj, rfl, hobj, hshared⟩ := mappedInput_ok hinput
  obtain rfl : ty = ty' := by
    rw [hty, boundType] at hbound
    split_ifs at hbound
    rw [hinfo] at hbound
    exact (Option.some.inj hbound).symm
  rw [objectParamInfo_immutable tyArgs param ty immutableRef hinfo] at hshared
  have hold := (List.getElem?_eq_some_iff.mp hget).1
  exact ⟨idx, info, obj, hfixed, run.fixed_passed (txContextLast_bound hbuild hlen hctx) i param
    idx ty hparam hfixed hold, hstore, run.old_input idx.val _ hget, hobj, hshared⟩

/- Two items, one of them shared, and a coin; `trade` takes an item by `&`, another by
`&mut`, and the coin by value. -/
def coinTag : MoveTypeTag := .struct MoveAddress.two "coin" "Coin" [itemTag]

def tradeAbi : MoveFunctionAbi :=
  ⟨"trade", [.reference (.struct itemHandle),
    .structInstantiation coinHandle [.struct itemHandle], .mutableReference (.struct itemHandle),
    .mutableReference (.struct txContextHandle)], [], [], .public_⟩

def tradeStore (id : MoveAddress) : Except Unit MoveObjectInfo :=
  if id = ObjectID.ofByte 5 then .ok ⟨id, itemTag, .addressOwner (ObjectID.ofByte 9), 1, []⟩
  else if id = ObjectID.ofByte 6 then .ok ⟨id, itemTag, .shared 3, 4, []⟩
  else if id = ObjectID.ofByte 7 then .ok ⟨id, coinTag, .immutable, 2, []⟩
  else .error ()

def tradeState : FuzzState :=
  { FuzzState.ofModule ⟨vaultModule, [tradeAbi], [itemHandle]⟩ with
    getMoveObjectInfo := fun id => (tradeStore id).toOption }

def tradeMapping : IndexMap MoveTypeTag (List MoveAddress) :=
  (IndexMap.empty.insert itemTag [ObjectID.ofByte 5, ObjectID.ofByte 6]).insert coinTag
    [ObjectID.ofByte 7]

def tradeInputs : List InputArgument :=
  [itemInput, .object coinTag (.immOrOwnedObject (ObjectID.ofByte 7, 2, [])),
    .object itemTag (.sharedObject (ObjectID.ofByte 6) 3 true)]

def tradeBindings : Bindings :=
  ⟨⟨tradeInputs, []⟩,
    (((tradeMapping.insert itemTag [ObjectID.ofByte 6]).insert coinTag []).insert itemTag []),
    ((SortedMap.empty.insert 0 (.input 0, itemTag)).insert 1 (.input 1, coinTag)).insert 2
      (.input 2, itemTag)⟩

def tradeSequence : MoveSequence :=
  ⟨tradeInputs ++ [.u64 0], [splitCall "coin" [itemTag] (.input 1) (.input 3),
    vaultCall "trade" [.input 0, .result 0, .input 2]]⟩

theorem mapping_reached_trade :
    ∃ call, lastCall tradeSequence = some call ∧
      MappingReached tradeStore tradeMapping SortedMap.empty tradeAbi tradeBindings tradeSequence
        call.arguments :=
  mapping_reached tradeState tradeStore ⟨vaultModule, "trade"⟩ tradeAbi tradeMapping SortedMap.empty
    tradeBindings ([.input 0, .result 0, .input 2], []) tradeSequence [0] [] rfl (by decide)
    (by decide) rfl rfl

end Movy.Fuzz
