import Movy.Fuzz.Align

/-!
# No value twice in one call

A value that is passed by value is taken out of the candidates, and an object of
the pool is drawn once. A value of the sequence that is passed by reference stays
a candidate for the parameters behind it.
-/

namespace Movy.Fuzz

open Movy.Types Movy.Store MoveAbiSignatureToken

/-! ### Drawing apart -/

def isShared : MoveAbiSignatureToken → Bool
  | .reference _ => true
  | _ => false

def passedParams (function : MoveFunctionAbi) : List MoveAbiSignatureToken :=
  function.parameters.filter fun param => !param.isTxContext

def isSplitAt (function : MoveFunctionAbi) (disableSplit : Bool) (k : ℕ) : Bool :=
  !disableSplit && function.parameters[k]?.any isSplitParam

/- The sampled ones among the parameters, each with its position. -/
def sampledAt (params : List (MoveAbiSignatureToken × ℕ)) : List (MoveAbiSignatureToken × ℕ) :=
  params.filter fun e => e.1.needsSample

section

variable (function : MoveFunctionAbi) (disableSplit : Bool)

/- One object may be the argument of both: they are `&`, or a split is passed for one. -/
def mayShare (a b : MoveAbiSignatureToken × ℕ) : Bool :=
  (isShared a.1 && isShared b.1) || isSplitAt function disableSplit a.2 ||
    isSplitAt function disableSplit b.2

/- An object that was drawn, and the parameter it was drawn for. -/
abbrev DrawnAt : Type := SequenceArgument × (MoveAbiSignatureToken × ℕ)

def Apart (a b : DrawnAt) : Prop := a.1 = b.1 → mayShare function disableSplit a.2 b.2 = true

instance (a b : DrawnAt) : Decidable (Apart function disableSplit a b) :=
  inferInstanceAs (Decidable (_ → _))

/- The sampling loop, cut off where it draws an object again that the draw for an
earlier parameter has left among the candidates. -/
def sampleApart (st : FuzzState) (inputLen : ℕ) (tyArgsMap : TyArgs) :
    List DrawnAt → Sampling →
      List (((MoveAbiSignatureToken × Gate) × Bool) × (MoveAbiSignatureToken × ℕ)) →
        Choice (Option Sampling)
  | _, s, [] => pure (some s)
  | held, s, ((p, known), place) :: rest => do
    let r ← sampleParam st inputLen tyArgsMap s p known
    match r with
    | none => pure none
    | some next =>
      match next.returnArgs.getLast?.join with
      | none => sampleApart st inputLen tyArgsMap held next rest
      | some arg =>
        if ∀ e ∈ held, Apart function disableSplit e (arg, place) then
          sampleApart st inputLen tyArgsMap (held ++ [(arg, place)]) next rest
        else Choice.panic

/- What `append_function` draws before the producers, cut off in this way. -/
def drawApart (st : FuzzState) (ptb : MoveSequence) (fixedTyArgs : TyArgs)
    (used : List SequenceArgument) : Choice (Option Sampling) := do
  let objectData ← Choice.expect (ObjectData.fromPtbAndRemoveUsed st ptb used)
  let withGates ← Choice.expect
    ((sampledParams SortedMap.empty function.parameters).mapM (withGate fixedTyArgs))
  let rows ← Choice.expect
    (allCandidates st objectData.existingObjects function.typeParameters withGates)
  let tyArgsMap ← Choice.pick (getTyArgsCandidates (rows.filter fun row => !row.isEmpty))
  sampleApart function disableSplit st ptb.inputs.length tyArgsMap []
    ⟨objectData.existingObjects, objectData.usedObjectIds, [], []⟩
    ((withGates.zip (rows.map fun row => !row.isEmpty)).zip
      (sampledAt (passedParams function).zipIdx))

/- The objects that were drawn, with their parameters. -/
def drawnAt (slots : List (Option SequenceArgument)) (places : List (MoveAbiSignatureToken × ℕ)) :
    List DrawnAt :=
  (slots.zip places).filterMap fun e => e.1.map fun arg => (arg, e.2)

theorem sampleParam_slot (st : FuzzState) (inputLen : ℕ) (tyArgsMap : TyArgs) (s next : Sampling)
    (p : MoveAbiSignatureToken × Gate) (known : Bool)
    (h : Choice.Yields (sampleParam st inputLen tyArgsMap s p known) (some next)) :
    ∃ slot, next.returnArgs = s.returnArgs ++ [slot] := by
  have hsamples := sampleParam_samples st inputLen tyArgsMap s next next p known [] h (.done next)
  obtain ⟨_, slots, hslots, _⟩ := hsamples.sampledFor
  have hlength := hsamples.slots_length
  rw [hslots, List.length_append, List.length_singleton, Nat.add_left_cancel_iff] at hlength
  obtain ⟨slot, rfl⟩ := List.length_eq_one_iff.mp hlength
  exact ⟨slot, hslots⟩

/- The loop is cut off unless all draws are apart. -/
theorem sampleApart_isSome (st : FuzzState) (inputLen : ℕ) (tyArgsMap : TyArgs)
    (params : List ((MoveAbiSignatureToken × Gate) × Bool))
    (places : List (MoveAbiSignatureToken × ℕ)) (held : List DrawnAt) (s s' : Sampling)
    (rs rest : List ℕ) (hlen : params.length = places.length)
    (hheld : held.Pairwise (Apart function disableSplit))
    (h : sampleParams st inputLen tyArgsMap s params rs = some (some s', rest)) :
    ∃ slots, s'.returnArgs = s.returnArgs ++ slots ∧
      ((sampleApart function disableSplit st inputLen tyArgsMap held s (params.zip places) rs).isSome
        ↔ (held ++ drawnAt slots places).Pairwise (Apart function disableSplit)) := by
  induction params generalizing places held s rs with
  | nil =>
    obtain ⟨hs, _⟩ := Prod.mk.inj ((Choice.pure_eq_some _ _ _).mp h)
    obtain rfl := Option.some.inj hs
    obtain rfl := List.length_eq_zero_iff.mp hlen.symm
    refine ⟨[], (List.append_nil _).symm, ?_⟩
    show true = true ↔ (held ++ []).Pairwise _
    rw [List.append_nil]
    exact ⟨fun _ => hheld, fun _ => rfl⟩
  | cons e params ih =>
    obtain ⟨p, known⟩ := e
    obtain ⟨place, places, rfl⟩ := List.exists_cons_of_length_eq_add_one hlen.symm
    have hlen := Nat.succ.inj hlen
    obtain ⟨r, mid, hparam, h⟩ := (Choice.bind_eq_some _ _ _ _).mp h
    cases r with
    | none =>
      have := (Choice.pure_eq_some _ _ _).mp h
      cases this
    | some next =>
      obtain ⟨slot, hslot⟩ := sampleParam_slot st inputLen tyArgsMap s next p known ⟨rs, mid, hparam⟩
      rw [List.zip_cons_cons, sampleApart, Choice.bind_eq _ _ _ _ _ hparam]
      dsimp only
      rw [hslot, List.getLast?_concat]
      cases slot with
      | none =>
        obtain ⟨slots, hslots, hiff⟩ := ih places held next mid hlen hheld h
        exact ⟨none :: slots, by rw [hslots, hslot, List.append_assoc]; rfl, hiff⟩
      | some arg =>
        dsimp only [Option.join_some]
        split_ifs with hapart
        · have hheld' : (held ++ [(arg, place)]).Pairwise (Apart function disableSplit) := by
            rw [List.pairwise_append]
            refine ⟨hheld, List.pairwise_singleton _ _, fun e he e' he' => ?_⟩
            rw [List.mem_singleton.mp he']
            exact hapart e he
          obtain ⟨slots, hslots, hiff⟩ := ih places _ next mid hlen hheld' h
          refine ⟨some arg :: slots, by rw [hslots, hslot, List.append_assoc]; rfl, ?_⟩
          rw [hiff, List.append_assoc]
          rfl
        · obtain ⟨slots, hslots, _⟩ := ih places [] next mid hlen List.Pairwise.nil h
          refine ⟨some arg :: slots, by rw [hslots, hslot, List.append_assoc]; rfl, ?_⟩
          constructor
          · intro hnone
            cases hnone
          · intro hall
            refine absurd (fun e he => ?_) hapart
            exact (List.pairwise_append.mp hall).2.2 e he (arg, place) (List.mem_cons_self ..)

end

theorem input_ne_before {inputs cmd n : ℕ} (hle : inputs ≤ n) (hn : n < 2 ^ 16) :
    ¬ Before inputs cmd 0 (.input (asU16 n)) := by
  show ¬ (asU16 n).val < inputs
  rw [asU16_val n hn]
  omega

/-! ### New objects -/

def inputId : InputArgument → Option MoveAddress
  | .object _ obj => ObjectData.objectId obj
  | _ => none

theorem objectInput_cases (id : MoveAddress) (object : MoveObjectInfo) (input : InputArgument)
    (h : objectInput id object = some input) :
    ∃ obj, input = .object object.ty obj ∧ ObjectData.objectId obj = some id := by
  unfold objectInput at h
  split at h
  · exact ⟨_, (Option.some.inj h).symm, rfl⟩
  · exact ⟨_, (Option.some.inj h).symm, rfl⟩
  · exact ⟨_, (Option.some.inj h).symm, rfl⟩
  · cases h

theorem objectInput_id (id : MoveAddress) (object : MoveObjectInfo) (input : InputArgument)
    (h : objectInput id object = some input) : inputId input = some id := by
  obtain ⟨obj, rfl, hid⟩ := objectInput_cases id object input h
  exact hid

theorem sameObject_id (v w : InputArgument) (h : sameObject v w = true) : inputId v = inputId w :=
  congrArg inputId (sameObject_eq v w h)

/- New objects have an id that was not there before, each its own. -/
structure NewObjects (before : List MoveAddress) (inputs : List InputArgument) : Prop where
  id : ∀ v ∈ inputs, InputArgument.isObject v = true → ∃ id, inputId v = some id ∧ id ∉ before
  distinct : ∀ (i j : ℕ) v w id, inputs[i]? = some v → inputs[j]? = some w →
    inputId v = some id → inputId w = some id → i = j

theorem NewObjects.append {before : List MoveAddress} {inputs : List InputArgument}
    (h : NewObjects before inputs) (v : InputArgument)
    (hid : InputArgument.isObject v = true → ∃ id, inputId v = some id ∧ id ∉ before)
    (hnew : ∀ w ∈ inputs, ∀ id, inputId v = some id → inputId w ≠ some id) :
    NewObjects before (inputs ++ [v]) where
  id := by
    intro w hw hobject
    rcases List.mem_append.mp hw with hw | hw
    · exact h.id w hw hobject
    · rw [List.mem_singleton.mp hw] at hobject ⊢
      exact hid hobject
  distinct := by
    intro i j w w' id hi hj hw hw'
    rw [List.getElem?_append] at hi hj
    split_ifs at hi hj with hlt hlt'
    · exact h.distinct i j w w' id hi hj hw hw'
    · obtain rfl : v = w' := List.mem_singleton.mp (List.mem_of_getElem? hj) |>.symm
      exact absurd hw (hnew w (List.mem_of_getElem? hi) id hw')
    · obtain rfl : v = w := List.mem_singleton.mp (List.mem_of_getElem? hi) |>.symm
      exact absurd hw' (hnew w' (List.mem_of_getElem? hj) id hw)
    · have hi' := (List.getElem?_eq_some_iff.mp hi).1
      have hj' := (List.getElem?_eq_some_iff.mp hj).1
      simp only [List.length_singleton] at hi' hj'
      omega

theorem NewObjects.append_pure {before : List MoveAddress} {inputs : List InputArgument}
    (h : NewObjects before inputs) (v : InputArgument) (hpure : InputArgument.isObject v = false) :
    NewObjects before (inputs ++ [v]) := by
  apply h.append v
  · intro hobject
    rw [hpure] at hobject
    cases hobject
  · intro w _ id hid
    cases v with
    | object ty obj => cases hpure
    | _ => cases hid

theorem Samples.newObjects {st : FuzzState} {inputLen : ℕ} {tyArgsMap : TyArgs}
    {params : List ((MoveAbiSignatureToken × Gate) × Bool)} {s s' : Sampling}
    (h : Samples st inputLen tyArgsMap params s s') (before : List MoveAddress)
    (hbefore : ∀ id ∈ before, id ∈ s.usedObjectIds)
    (hids : ∀ v ∈ s.inputs, ∀ id, inputId v = some id → id ∈ s.usedObjectIds)
    (hnew : NewObjects before s.inputs) : NewObjects before s'.inputs := by
  induction h with
  | done s => exact hnew
  | missing _ _ _ _ _ _ ih => exact ih hbefore hids hnew
  | existing _ _ _ _ _ _ _ _ _ _ _ _ _ ih => exact ih hbefore hids hnew
  | pool p rest s s' ty id object input hty hnone hid hunused hobject hinput _ ih =>
    have hinputId := objectInput_id id object input hinput
    apply ih
    · exact fun id' hid' => List.mem_append_left _ (hbefore id' hid')
    · intro v hv id' hid'
      rcases List.mem_append.mp hv with hv | hv
      · exact List.mem_append_left _ (hids v hv id' hid')
      · rw [List.mem_singleton.mp hv, hinputId, Option.some.injEq] at hid'
        exact List.mem_append_right _ (List.mem_singleton.mpr hid'.symm)
    · apply hnew.append input
      · exact fun _ => ⟨id, hinputId, fun hin => hunused (hbefore id hin)⟩
      · intro w hw id' hid' hw'
        rw [hinputId, Option.some.injEq] at hid'
        subst hid'
        exact hunused (hids w hw id hw')

theorem genInputArg_pure (param : MoveAbiSignatureToken) (v : InputArgument)
    (h : param.genInputArg = some v) : InputArgument.isObject v = false := by
  induction param using MoveAbiSignatureToken.induct generalizing v with
  | hvector inner ih =>
    obtain ⟨w, _, h⟩ := Option.bind_eq_some_iff.mp h
    obtain ⟨ty, _, rfl⟩ := Option.map_eq_some_iff.mp h
    rfl
  | href inner ih =>
    unfold genInputArg at h
    split_ifs at h
    exact ih v h
  | hmut inner ih =>
    unfold genInputArg at h
    split_ifs at h
    exact ih v h
  | hstruct | hinst | hparam => cases h
  | _ =>
    rw [← Option.some.inj h]
    rfl

theorem Fills.newObjects {st : FuzzState} {ident : FunctionIdent} {inputLen : ℕ}
    {fixedArgs : FixedArgs} {tyArgs : TyArgs}
    {append : MoveSequence → FunctionIdent → TyArgs → List SequenceArgument →
      Choice (Option Appended × MoveSequence)}
    {params : List (MoveAbiSignatureToken × ℕ)} {slots : List (Option SequenceArgument)}
    {d d' : Draft}
    (h : Fills st inputLen fixedArgs (Produced st ident tyArgs append) params slots d d')
    (before : List MoveAddress) (hnew : NewObjects before d.inputs) :
    NewObjects before d'.inputs := by
  induction h with
  | done _ _ => exact hnew
  | fixed _ _ _ _ _ _ _ _ _ _ ih => exact ih hnew
  | injected _ _ _ _ _ _ _ _ _ ih => exact ih hnew
  | sampled _ _ _ _ _ _ _ _ _ _ _ ih => exact ih hnew
  | produced _ _ _ _ _ _ _ _ _ _ hproduced _ ih =>
    cases hproduced
    exact ih hnew
  | fresh param i rest slots d d' init v hfixed hctx hsample hinit hmutate _ ih =>
    have hkind := (mutateValue_keeps st init).of_yields hmutate
    exact ih (hnew.append_pure v (hkind.2.trans (genInputArg_pure param init hinit)))

/-! ### Results of producers -/

theorem resultArg_before (n inputs cmd c j : ℕ) (hc : c < 2 ^ 16) :
    Before inputs cmd 0 (ObjectData.resultArg n c j) ↔ c < cmd := by
  have hval := asU16_val c hc
  unfold ObjectData.resultArg
  split_ifs
  · show (_ < cmd ∨ (_ = cmd ∧ 0 < 0)) ↔ c < cmd
    omega
  · show (_ < cmd ∨ (_ = cmd ∧ _ < 0)) ↔ c < cmd
    omega

/- What a call returns are results of a command that was not there before. -/
def ReturnsNew (append : MoveSequence → FunctionIdent → TyArgs → List SequenceArgument →
    Choice (Option Appended × MoveSequence)) : Prop :=
  ∀ ptb ident tyArgs used appended ptb',
    Choice.Yields (append ptb ident tyArgs used) (some appended, ptb') → ∀ ret ∈ appended.2,
      ∃ n c j, ret = ObjectData.resultArg n c j ∧ ptb.commands.length ≤ c ∧ c < ptb'.commands.length

theorem appendProducer_returnsNew (st : FuzzState) (fuel : ℕ) :
    ReturnsNew (appendProducer st fuel) := by
  intro ptb ident tyArgs used appended ptb' h ret hret
  obtain ⟨n, _, ⟨run⟩⟩ := appendFunction_run st fuel ptb ident SortedMap.empty tyArgs used false
    appended ptb' h
  obtain ⟨removed, more, hfinished⟩ := run.args_finished
  obtain ⟨_, added, hadded, _⟩ := run.fills.grows (appendProducer_grows st n)
  have hlength := congrArg (fun p => p.commands.length) run.finished.result
  have hgrown := congrArg List.length hadded
  have hcommands := hfinished.commands_eq
  rw [run.constructed.start_ptb.1] at hgrown
  simp only [List.length_append, List.length_singleton] at hlength hgrown
  rw [run.finished.returns] at hret
  obtain ⟨j, _, rfl⟩ := List.mem_map.mp hret
  exact ⟨_, _, j, rfl, by omega, by omega⟩

/-! ### The arguments that the loop pushes -/

def builtParams (fixedArgs : FixedArgs) (params : List (MoveAbiSignatureToken × ℕ)) :
    List MoveAbiSignatureToken := (builtFor fixedArgs params).map Prod.fst

/- The parameters that slots are for. -/
def slotParams (fixedArgs : FixedArgs) (params : List (MoveAbiSignatureToken × ℕ)) :
    List MoveAbiSignatureToken :=
  (params.filter fun e => (fixedArgs.get? (asU16 e.2)).isNone && e.1.needsSample).map Prod.fst

theorem builtParams_cons (fixedArgs : FixedArgs) (param : MoveAbiSignatureToken) (i : ℕ)
    (rest : List (MoveAbiSignatureToken × ℕ)) (hctx : param.isTxContext = false) :
    builtParams fixedArgs ((param, i) :: rest) = param :: builtParams fixedArgs rest := by
  rw [builtParams, builtFor_cons _ _ _ (isInjected_plain fixedArgs param i hctx)]
  rfl

theorem slotParams_cons (fixedArgs : FixedArgs) (param : MoveAbiSignatureToken) (i : ℕ)
    (rest : List (MoveAbiSignatureToken × ℕ)) (hfixed : fixedArgs.get? (asU16 i) = none)
    (hsample : param.needsSample = true) :
    slotParams fixedArgs ((param, i) :: rest) = param :: slotParams fixedArgs rest := by
  simp only [slotParams, List.filter_cons, hfixed, hsample, Option.isNone_none, Bool.and_true, if_true,
    List.map_cons]

theorem slotParams_fixed (fixedArgs : FixedArgs) (param : MoveAbiSignatureToken) (i : ℕ)
    (rest : List (MoveAbiSignatureToken × ℕ)) (fixed : SequenceArgument × MoveTypeTag)
    (h : fixedArgs.get? (asU16 i) = some fixed) :
    slotParams fixedArgs ((param, i) :: rest) = slotParams fixedArgs rest := by
  simp only [slotParams, List.filter_cons, h, Option.isNone_some, Bool.false_and,
    Bool.false_eq_true, if_false]

theorem slotParams_plain (fixedArgs : FixedArgs) (param : MoveAbiSignatureToken) (i : ℕ)
    (rest : List (MoveAbiSignatureToken × ℕ)) (h : param.needsSample = false) :
    slotParams fixedArgs ((param, i) :: rest) = slotParams fixedArgs rest := by
  simp only [slotParams, List.filter_cons, h, Bool.and_false, Bool.false_eq_true, if_false]

/- The slots at the positions of the arguments; there is none for a fresh value. -/
def slotsAt : List MoveAbiSignatureToken → List (Option SequenceArgument) →
    List (Option SequenceArgument)
  | [], _ => []
  | param :: params, slots =>
    if param.needsSample then slots.head?.join :: slotsAt params slots.tail
    else none :: slotsAt params slots

theorem mem_slotsAt (params : List MoveAbiSignatureToken) (slots : List (Option SequenceArgument))
    (arg : SequenceArgument) (h : some arg ∈ slotsAt params slots) : some arg ∈ slots := by
  induction params generalizing slots with
  | nil => cases h
  | cons param params ih =>
    unfold slotsAt at h
    split_ifs at h
    · cases slots with
      | nil =>
        rcases List.mem_cons.mp h with h | h
        · cases h
        · exact ih [] h
      | cons slot slots =>
        rcases List.mem_cons.mp h with h | h
        · rw [h]
          exact List.mem_cons_self ..
        · exact List.mem_cons_of_mem _ (ih slots h)
    · rcases List.mem_cons.mp h with h | h
      · cases h
      · exact ih slots h

theorem drawnAt_slotsAt (params : List MoveAbiSignatureToken)
    (slots : List (Option SequenceArgument)) (n : ℕ) :
    drawnAt (slotsAt params slots) (params.zipIdx n) =
      drawnAt slots (sampledAt (params.zipIdx n)) := by
  induction params generalizing slots n with
  | nil => simp [drawnAt, slotsAt, sampledAt]
  | cons param params ih =>
    rw [List.zipIdx_cons, slotsAt, sampledAt, List.filter_cons]
    dsimp only
    split_ifs with hsample
    · cases slots with
      | nil =>
        have hnil := ih [] (n + 1)
        simp only [drawnAt, List.zip_nil_left, List.filterMap_nil] at hnil ⊢
        exact hnil
      | cons slot slots =>
        have htail := ih slots (n + 1)
        simp only [drawnAt, sampledAt] at htail
        simp only [drawnAt, List.head?_cons, Option.join_some, List.tail_cons, List.zip_cons_cons,
          List.filterMap_cons, htail]
    · exact ih slots (n + 1)

/- The sequence and the new inputs so far. -/
def PlacedBefore (inputLen : ℕ) (d : Draft) (arg : SequenceArgument) : Prop :=
  Before (inputLen + d.inputs.length) d.ptb.commands.length 0 arg

/- The pushed arguments are there at the end. Those that are no slots were not there at the
start, and no two of them are the same. -/
structure Pushes (inputLen : ℕ) (d d' : Draft) (slots : List (Option SequenceArgument))
    (new : List SequenceArgument) : Prop where
  placed : ∀ arg ∈ new, PlacedBefore inputLen d' arg
  slot : ∀ (k : ℕ) arg, slots[k]? = some (some arg) → new[k]? = some arg
  origin : ∀ (k : ℕ) arg, new[k]? = some arg →
    slots[k]? = some (some arg) ∨ ¬ PlacedBefore inputLen d arg
  twice : ∀ (i j : ℕ) arg, i < j → new[i]? = some arg → new[j]? = some arg →
    slots[i]? = some (some arg) ∧ slots[j]? = some (some arg)

theorem Pushes.nil (inputLen : ℕ) (d : Draft) : Pushes inputLen d d [] [] where
  placed := fun arg h => by cases h
  slot := fun k arg h => by simp at h
  origin := fun k arg h => by simp at h
  twice := fun i j arg _ h => by simp at h

theorem Pushes.cons {inputLen : ℕ} {d next d' : Draft} {slots : List (Option SequenceArgument)}
    {new : List SequenceArgument} (htail : Pushes inputLen next d' slots new)
    (slot : Option SequenceArgument) (arg : SequenceArgument)
    (hslots : ∀ a, some a ∈ slots → PlacedBefore inputLen d a)
    (hstart : ∀ a, PlacedBefore inputLen d a → PlacedBefore inputLen next a)
    (hend : ∀ a, PlacedBefore inputLen next a → PlacedBefore inputLen d' a)
    (hplaced : PlacedBefore inputLen next arg)
    (hnew : slot = some arg ∨ slot = none ∧ ¬ PlacedBefore inputLen d arg) :
    Pushes inputLen d d' (slot :: slots) (arg :: new) where
  placed := by
    intro a ha
    rcases List.mem_cons.mp ha with rfl | ha
    · exact hend a hplaced
    · exact htail.placed a ha
  slot := by
    intro k a hk
    cases k with
    | zero =>
      obtain rfl : slot = some a := Option.some.inj hk
      rcases hnew with hslot | hnone
      · rw [Option.some.inj hslot]
        rfl
      · cases hnone.1
    | succ k => exact htail.slot k a hk
  origin := by
    intro k a hk
    cases k with
    | zero =>
      obtain rfl : arg = a := Option.some.inj hk
      rcases hnew with hslot | hnone
      · exact .inl (congrArg some hslot)
      · exact .inr hnone.2
    | succ k =>
      rcases htail.origin k a hk with hslot | hnot
      · exact .inl hslot
      · exact .inr fun hbefore => hnot (hstart a hbefore)
  twice := by
    intro i j a hij hi hj
    obtain ⟨j, rfl⟩ : ∃ n, j = n + 1 := ⟨j - 1, by omega⟩
    cases i with
    | zero =>
      obtain rfl : arg = a := Option.some.inj hi
      -- behind it, the argument is in a slot, and so it was there at the start
      rcases htail.origin j arg hj with hslot | hnot
      · rcases hnew with h | hnone
        · exact ⟨congrArg some h, hslot⟩
        · exact absurd (hslots arg (List.mem_of_getElem? hslot)) hnone.2
      · exact absurd hplaced hnot
    | succ i => exact htail.twice i j a (by omega) hi hj

theorem PlacedBefore.mono {inputLen : ℕ} {d d' : Draft} {arg : SequenceArgument}
    (h : PlacedBefore inputLen d arg) (hin : d.inputs.length ≤ d'.inputs.length)
    (hcmd : d.ptb.commands.length ≤ d'.ptb.commands.length) : PlacedBefore inputLen d' arg := by
  apply Before.mono h (Nat.add_le_add_left hin _)
  rcases Nat.lt_or_ge d.ptb.commands.length d'.ptb.commands.length with hlt | hge
  · exact .inl hlt
  · exact .inr ⟨by omega, Nat.le_refl _⟩

theorem Fills.lengths {st : FuzzState} {ident : FunctionIdent} {inputLen : ℕ}
    {fixedArgs : FixedArgs} {tyArgs : TyArgs}
    {append : MoveSequence → FunctionIdent → TyArgs → List SequenceArgument →
      Choice (Option Appended × MoveSequence)}
    (hgrows : ∀ ptb ident tyArgs used,
      Choice.Ensures (append ptb ident tyArgs used) fun r => GrowsFreely ptb r.2)
    {params : List (MoveAbiSignatureToken × ℕ)} {slots : List (Option SequenceArgument)}
    {d d' : Draft}
    (h : Fills st inputLen fixedArgs (Produced st ident tyArgs append) params slots d d') :
    d.inputs.length ≤ d'.inputs.length ∧ d.ptb.commands.length ≤ d'.ptb.commands.length := by
  exact ⟨h.inputs_grow.length_le, (h.grows hgrows).commands.length_le⟩

section

variable {st : FuzzState} {ident : FunctionIdent} {tyArgs : TyArgs}
  {append : MoveSequence → FunctionIdent → TyArgs → List SequenceArgument →
    Choice (Option Appended × MoveSequence)}

theorem Produced.new (hgrows : ∀ ptb ident tyArgs used,
      Choice.Ensures (append ptb ident tyArgs used) fun r => GrowsFreely ptb r.2)
    (hreturns : ReturnsNew append) {d next : Draft} {param : MoveAbiSignatureToken}
    (h : Produced st ident tyArgs append d param next) (inputLen : ℕ)
    (hcommands : next.ptb.commands.length ≤ 2 ^ 16) :
    ∃ ret, next.arguments = d.arguments ++ [ret] ∧ next.inputs = d.inputs ∧
      d.ptb.commands.length ≤ next.ptb.commands.length ∧ PlacedBefore inputLen next ret ∧
      ¬ PlacedBefore inputLen d ret := by
  cases h with
  | intro preFunc argTyArg producingTyArg producing mapping retIdx appended ptb newCall settled
      ret hfunc hmatch hlink happend hcall hsettled hret =>
    obtain ⟨n, c, j, rfl, hle, hlt⟩ := hreturns _ _ _ _ _ _ happend ret (List.mem_of_getElem? hret)
    have hcommands : ptb.commands.length ≤ 2 ^ 16 := hcommands
    refine ⟨_, rfl, rfl, ((hgrows _ _ _ _).of_yields happend).commands.length_le, ?_, ?_⟩
    · exact (resultArg_before _ _ _ _ _ (by omega)).mpr hlt
    · unfold PlacedBefore
      rw [resultArg_before _ _ _ _ _ (by omega)]
      omega

theorem fresh_new (inputLen : ℕ) (d : Draft) (v : InputArgument)
    (args : List SequenceArgument) (hlen : inputLen + d.inputs.length < 2 ^ 16) :
    PlacedBefore inputLen { d with arguments := args, inputs := d.inputs ++ [v] }
        (.input (asU16 (inputLen + d.inputs.length))) ∧
      ¬ PlacedBefore inputLen d (.input (asU16 (inputLen + d.inputs.length))) := by
  refine ⟨?_, input_ne_before (Nat.le_refl _) hlen⟩
  show (asU16 _).val < inputLen + (d.inputs ++ [v]).length
  rw [asU16_val _ hlen, List.length_append, List.length_singleton]
  omega

theorem Fills.pushes {inputLen : ℕ} {fixedArgs : FixedArgs}
    (hgrows : ∀ ptb ident tyArgs used,
      Choice.Ensures (append ptb ident tyArgs used) fun r => GrowsFreely ptb r.2)
    (hreturns : ReturnsNew append) (hnone : ∀ i, fixedArgs.get? i = none)
    {params : List (MoveAbiSignatureToken × ℕ)} {slots : List (Option SequenceArgument)}
    {d d' : Draft}
    (h : Fills st inputLen fixedArgs (Produced st ident tyArgs append) params slots d d')
    (hinputs : inputLen + d'.inputs.length ≤ 2 ^ 16) (hcommands : d'.ptb.commands.length ≤ 2 ^ 16)
    (hslots : ∀ arg, some arg ∈ slots → PlacedBefore inputLen d arg) :
    ∃ new, d'.arguments = d.arguments ++ new ∧
      Pushes inputLen d d' (slotsAt (builtParams fixedArgs params) slots) new := by
  induction h with
  | done slots d => exact ⟨[], (List.append_nil _).symm, Pushes.nil inputLen d⟩
  | fixed param i rest slots d d' arg ty hfixed _ _ =>
    rw [hnone] at hfixed
    cases hfixed
  | injected param i rest slots d d' hfixed hctx htail ih =>
    rw [show builtParams fixedArgs ((param, i) :: rest) = builtParams fixedArgs rest from
      congrArg (List.map Prod.fst) (builtFor_injected fixedArgs (param, i) rest
        (isInjected_context fixedArgs param i hfixed hctx))]
    exact ih hinputs hcommands hslots
  | sampled param i rest slots d d' arg hfixed hctx hsample htail ih =>
    have htailSlots : ∀ a, some a ∈ slots → PlacedBefore inputLen d a :=
      fun a ha => hslots a (List.mem_cons_of_mem _ ha)
    obtain ⟨new, hnew, hpushes⟩ := ih hinputs hcommands htailSlots
    obtain ⟨hin, hcmd⟩ := htail.lengths hgrows
    rw [builtParams_cons fixedArgs param i rest hctx, slotsAt, if_pos hsample]
    refine ⟨arg :: new, by rw [hnew, List.append_assoc]; rfl, ?_⟩
    exact hpushes.cons (some arg) arg (fun a ha => htailSlots a (mem_slotsAt _ _ a ha))
      (fun a ha => ha) (fun a ha => ha.mono hin hcmd) (hslots arg (List.mem_cons_self ..)) (.inl rfl)
  | produced param i rest slots d next d' hfixed hctx hsample hproduced htail ih =>
    obtain ⟨hin, hcmd⟩ := htail.lengths hgrows
    obtain ⟨ret, hargs, hnext, hgrown, hplaced, hold⟩ := hproduced.new hgrows hreturns inputLen
      (by omega)
    have hstart : ∀ a, PlacedBefore inputLen d a → PlacedBefore inputLen next a :=
      fun a ha => ha.mono (by rw [hnext]) hgrown
    have htailSlots : ∀ a, some a ∈ slots → PlacedBefore inputLen d a :=
      fun a ha => hslots a (List.mem_cons_of_mem _ ha)
    obtain ⟨new, hnew, hpushes⟩ := ih hinputs hcommands fun a ha => hstart a (htailSlots a ha)
    rw [builtParams_cons fixedArgs param i rest hctx, slotsAt, if_pos hsample]
    refine ⟨ret :: new, by rw [hnew, hargs, List.append_assoc]; rfl, ?_⟩
    exact hpushes.cons none ret (fun a ha => htailSlots a (mem_slotsAt _ _ a ha)) hstart
      (fun a ha => ha.mono hin hcmd) hplaced (.inr ⟨rfl, hold⟩)
  | fresh param i rest slots d d' init v hfixed hctx hsample hinit hmutate htail ih =>
    obtain ⟨hin, hcmd⟩ := htail.lengths hgrows
    have hin' : d.inputs.length + 1 ≤ d'.inputs.length := by simpa using hin
    obtain ⟨hplaced, hold⟩ := fresh_new inputLen d v
      (d.arguments ++ [.input (asU16 (inputLen + d.inputs.length))]) (by omega)
    have hstart : ∀ a, PlacedBefore inputLen d a → PlacedBefore inputLen { d with
        arguments := d.arguments ++ [.input (asU16 (inputLen + d.inputs.length))]
        inputs := d.inputs ++ [v] } a :=
      fun a ha => ha.mono (by simp) (Nat.le_refl _)
    obtain ⟨new, hnew, hpushes⟩ := ih hinputs hcommands fun a ha => hstart a (hslots a ha)
    rw [builtParams_cons fixedArgs param i rest hctx, slotsAt,
      if_neg (by rw [hsample]; exact Bool.false_ne_true)]
    refine ⟨_ :: new, by rw [hnew, List.append_assoc]; rfl, ?_⟩
    exact hpushes.cons none _ (fun a ha => hslots a (mem_slotsAt _ _ a ha)) hstart
      (fun a ha => ha.mono hin hcmd) hplaced (.inr ⟨rfl, hold⟩)

end

/-! ### Renumbering -/

section

variable (before : List MoveAddress) (ptbInputs inputs : List InputArgument) (inputLen : ℕ)
  (removed : List ℕ)

/- Where an input goes: it stays, it is shared with one of the sequence, or it
moves behind the inputs of the sequence. -/
inductive Renumbered (idx : U16) : ℕ → Prop where
  | old (hlt : idx.val < inputLen) : Renumbered idx idx.val
  | shared (pos : ℕ) (v x : InputArgument) (id : MoveAddress) (hle : inputLen ≤ idx.val)
      (hv : inputs[idx.val - inputLen]? = some v) (hid : inputId v = some id)
      (hx : ptbInputs[pos]? = some x) (hxid : inputId x = some id) (hnew : id ∉ before) :
      Renumbered idx pos
  | kept (j : ℕ) (hj : idx.val = inputLen + j) (hkept : j ∉ removed) :
      Renumbered idx (ptbInputs.length + (j - removedBefore removed j))

variable (hnew : NewObjects before inputs)

include hnew

theorem renumber_renumbered (idx : U16) (arguments : List SequenceArgument)
    (hremoved : removed = arguments.filterMap (leftBehind ptbInputs inputs inputLen))
    (hplaced : idx.val < inputLen + inputs.length) (hgrown : inputLen ≤ ptbInputs.length)
    (hlen : ptbInputs.length + inputs.length ≤ 2 ^ 16) :
    ∃ n, n < 2 ^ 16 ∧ renumber ptbInputs inputs inputLen removed (.input idx) =
        .input (asU16 n) ∧ Renumbered before ptbInputs inputs inputLen removed idx n := by
  by_cases hold : idx.val < inputLen
  · refine ⟨idx.val, idx.isLt, ?_, .old hold⟩
    have hself : asU16 idx.val = idx := Fin.ext (asU16_val _ idx.isLt)
    simp only [renumber, hold, if_true, hself]
  · cases hshared : sharedPos ptbInputs inputs inputLen (.input idx) with
    | some pos =>
      have hpos := hshared
      simp only [sharedPos, hold, if_false] at hpos
      obtain ⟨v, hv, hfind⟩ := Option.bind_eq_some_iff.mp hpos
      obtain ⟨hlt, hsame, _⟩ := List.findIdx?_eq_some_iff_getElem.mp hfind
      have hobject : InputArgument.isObject v = true := by
        cases hv' : InputArgument.isObject v with
        | true => rfl
        | false =>
          rw [sameObject_pure _ v hv'] at hsame
          cases hsame
      obtain ⟨id, hid, hidNew⟩ := hnew.id v (List.mem_of_getElem? hv) hobject
      refine ⟨pos, by omega, ?_, .shared pos v ptbInputs[pos] id (by omega) hv hid
        (List.getElem?_eq_getElem hlt) ((sameObject_id _ _ hsame).trans hid) hidNew⟩
      simp only [renumber, hold, if_false, hshared]
    | none =>
      have hle := removedBefore_le removed (idx.val - inputLen)
      refine ⟨_, ?_, ?_, .kept (idx.val - inputLen) (by omega) ?_⟩
      · omega
      · simp only [renumber, hold, if_false, hshared]
      · rw [hremoved]
        exact not_removed_of_unshared ptbInputs inputs inputLen arguments idx hold hshared

end

theorem Renumbered.inj {before : List MoveAddress} {ptbInputs inputs : List InputArgument}
    {inputLen : ℕ} {removed : List ℕ} (hnew : NewObjects before inputs)
    (hgrown : inputLen ≤ ptbInputs.length) {idx idx' : U16} {n n' : ℕ}
    (h : Renumbered before ptbInputs inputs inputLen removed idx n)
    (h' : Renumbered before ptbInputs inputs inputLen removed idx' n') (hn : n = n')
    (hold : idx.val < inputLen → ∀ v id, ptbInputs[idx.val]? = some v → inputId v = some id →
      id ∈ before)
    (hold' : idx'.val < inputLen → ∀ v id, ptbInputs[idx'.val]? = some v → inputId v = some id →
      id ∈ before) : idx = idx' := by
  cases h with
  | old hlt =>
    cases h' with
    | old hlt' => exact Fin.ext hn
    | shared pos v x id hle hv hid hx hxid hidNew =>
      exact absurd (hold hlt x id (hn ▸ hx) hxid) hidNew
    | kept j hj hkept => omega
  | shared pos v x id hle hv hid hx hxid hidNew =>
    have hpos := (List.getElem?_eq_some_iff.mp hx).1
    cases h' with
    | old hlt' => exact absurd (hold' hlt' x id (hn ▸ hx) hxid) hidNew
    | shared pos' v' x' id' hle' hv' hid' hx' hxid' _ =>
      rw [hn, hx', Option.some.injEq] at hx
      rw [hx, hxid, Option.some.injEq] at hxid'
      subst hxid'
      have := hnew.distinct _ _ v v' id hv hv' hid hid'
      exact Fin.ext (by omega)
    | kept j hj hkept => omega
  | kept j hj hkept =>
    cases h' with
    | old hlt' => omega
    | shared pos v x id hle hv hid hx hxid hidNew =>
      have hpos := (List.getElem?_eq_some_iff.mp hx).1
      omega
    | kept j' hj' hkept' =>
      rcases Nat.lt_trichotomy j j' with hlt | heq | hgt
      · have := removedBefore_strictMono removed j j' hlt hkept
        omega
      · exact Fin.ext (by omega)
      · have := removedBefore_strictMono removed j' j hgt hkept'
        omega

theorem renumber_inj {before : List MoveAddress} {ptbInputs inputs : List InputArgument}
    {inputLen : ℕ} {removed : List ℕ} (hnew : NewObjects before inputs)
    (arguments : List SequenceArgument)
    (hremoved : removed = arguments.filterMap (leftBehind ptbInputs inputs inputLen))
    (hgrown : inputLen ≤ ptbInputs.length) (hlen : ptbInputs.length + inputs.length ≤ 2 ^ 16)
    (hplaced : ∀ idx, .input idx ∈ arguments → idx.val < inputLen + inputs.length)
    (hold : ∀ idx, .input idx ∈ arguments → idx.val < inputLen → ∀ v id,
      ptbInputs[idx.val]? = some v → inputId v = some id → id ∈ before)
    {a b : SequenceArgument} (ha : a ∈ arguments) (hb : b ∈ arguments)
    (h : renumber ptbInputs inputs inputLen removed a =
      renumber ptbInputs inputs inputLen removed b) : a = b := by
  have hinput : ∀ idx, .input idx ∈ arguments → ∃ n, n < 2 ^ 16 ∧
      renumber ptbInputs inputs inputLen removed (.input idx) = .input (asU16 n) ∧
      Renumbered before ptbInputs inputs inputLen removed idx n := fun idx hidx =>
    renumber_renumbered before ptbInputs inputs inputLen removed hnew idx arguments hremoved
      (hplaced idx hidx) hgrown hlen
  cases a with
  | input idx =>
    obtain ⟨n, hn, heq, hre⟩ := hinput idx ha
    cases b with
    | input idx' =>
      obtain ⟨n', hn', heq', hre'⟩ := hinput idx' hb
      rw [heq, heq'] at h
      have hval := congrArg Fin.val (SequenceArgument.input.inj h)
      rw [asU16_val n hn, asU16_val n' hn'] at hval
      rw [hre.inj hnew hgrown hre' hval (hold idx ha) (hold idx' hb)]
    | _ =>
      rw [heq] at h
      cases h
  | _ =>
    cases b with
    | input idx' =>
      obtain ⟨n', _, heq', _⟩ := hinput idx' hb
      rw [heq'] at h
      cases h
    | _ => exact h

theorem renumber_result (ptbInputs inputs : List InputArgument) (inputLen : ℕ) (removed : List ℕ)
    (arg : SequenceArgument) (c : U16)
    (h : renumber ptbInputs inputs inputLen removed arg = .result c) : arg = .result c := by
  cases arg with
  | input idx =>
    simp only [renumber] at h
    split_ifs at h
    split at h <;> cases h
  | _ => exact h

/-! ### Splits -/

theorem FinishedArgs.argument_eq {function : MoveFunctionAbi} {disableSplit : Bool} {inputLen : ℕ}
    {ptb : MoveSequence} {arguments : List SequenceArgument} {inputs : List InputArgument}
    {appended : Appended} {ptb' : MoveSequence} {removed : List ℕ} {more : List InputArgument}
    (h : FinishedArgs function disableSplit inputLen ptb arguments inputs appended ptb' removed
      more) (k : ℕ) (arg : SequenceArgument) (hk : arguments[k]? = some arg) :
    appended.1[k]? = some (if isSplitAt function disableSplit k then
        .result (asU16 (ptb.commands.length + splitCount function.parameters k))
      else renumber ptb.inputs inputs inputLen removed arg) := by
  rw [h.argument k arg hk]
  cases disableSplit <;> rfl

theorem FinishedArgs.split_lt {function : MoveFunctionAbi} {disableSplit : Bool} {inputLen : ℕ}
    {ptb : MoveSequence} {arguments : List SequenceArgument} {inputs : List InputArgument}
    {appended : Appended} {ptb' : MoveSequence} {removed : List ℕ} {more : List InputArgument}
    (h : FinishedArgs function disableSplit inputLen ptb arguments inputs appended ptb' removed
      more) (k : ℕ) (hk : k < arguments.length) (hsplit : isSplitAt function disableSplit k = true) :
    ptb.commands.length + splitCount function.parameters k < ptb'.commands.length ∧
      ∀ j, k < j → splitCount function.parameters k < splitCount function.parameters j := by
  rw [isSplitAt, Bool.and_eq_true, Bool.not_eq_true'] at hsplit
  have hcommands := h.commands_eq
  rw [hsplit.1, if_neg Bool.false_ne_true] at hcommands
  have hcount := splitCount_lt function.parameters k arguments.length hk hsplit.2
  exact ⟨by omega, fun j hj => splitCount_lt function.parameters k j hj hsplit.2⟩

/-! ### One call -/

/- A value that is passed by value or by mutable reference is passed once. -/
def PassedOnce (function : MoveFunctionAbi) (arguments : List SequenceArgument) : Prop :=
  ∀ (i j : ℕ) param arg, (passedParams function)[i]? = some param → isShared param = false →
    arguments[i]? = some arg → arguments[j]? = some arg → i = j

theorem builtParams_empty (function : MoveFunctionAbi) :
    builtParams SortedMap.empty function.parameters.zipIdx = passedParams function := by
  have hfst : function.parameters.zipIdx.map Prod.fst = function.parameters := List.zipIdx_map_fst ..
  unfold passedParams
  conv_rhs => rw [← hfst]
  rw [List.filter_map]
  rfl

theorem map_fst_sampledAt (params : List MoveAbiSignatureToken) :
    (sampledAt params.zipIdx).map Prod.fst = params.filter needsSample := by
  have hfst : params.zipIdx.map Prod.fst = params := List.zipIdx_map_fst ..
  conv_rhs => rw [← hfst, List.filter_map]
  rfl

theorem sampledAt_fst (function : MoveFunctionAbi) :
    (sampledAt (passedParams function).zipIdx).map Prod.fst =
      sampledParams SortedMap.empty function.parameters := by
  have hall : sampledParams SortedMap.empty function.parameters =
      (sampledAt function.parameters.zipIdx).map Prod.fst := rfl
  rw [hall, map_fst_sampledAt, map_fst_sampledAt, passedParams, List.filter_filter]
  apply List.filter_congr
  intro param _
  cases hctx : param.isTxContext with
  | false => rw [Bool.not_false, Bool.and_true]
  | true => rw [needsSample_not_txContext param hctx, Bool.false_and]

theorem tryConstructArgs_sampled (st : FuzzState) (inputLen : ℕ)
    (params : List MoveAbiSignatureToken) (functionAbilities : List MoveAbility)
    (fixedTyArgs : TyArgs) (objectData : ObjectData) (result : ConstructResult) (rs rest : List ℕ)
    (h : tryConstructArgs st inputLen params functionAbilities fixedTyArgs objectData rs =
      some (result, rest)) (hsolvable : result ≠ .unsolvable) :
    ∃ withGates rows tyArgsMap mid sampling mid',
      params.mapM (withGate fixedTyArgs) = some withGates ∧
      allCandidates st objectData.existingObjects functionAbilities withGates = some rows ∧
      Choice.pick (getTyArgsCandidates (rows.filter fun row => !row.isEmpty)) rs =
        some (tyArgsMap, mid) ∧
      sampleParams st inputLen tyArgsMap
        ⟨objectData.existingObjects, objectData.usedObjectIds, [], []⟩
        (withGates.zip (rows.map fun row => !row.isEmpty)) mid = some (some sampling, mid') ∧
      result.slots = sampling.returnArgs := by
  unfold tryConstructArgs at h
  split_ifs at h with hsamplable
  · obtain ⟨rfl, _⟩ := Prod.mk.inj ((Choice.pure_eq_some _ _ _).mp h)
    exact absurd rfl hsolvable
  · obtain ⟨withGates, rs₁, hgates, hloop⟩ := (Choice.bind_eq_some _ _ _ _).mp h
    obtain ⟨hgated, hrs₁⟩ := (Choice.expect_eq_some _ _ (withGates, rs₁)).mp hgates
    obtain ⟨rows, rs₂, hrows, hrest⟩ := (Choice.bind_eq_some _ _ _ _).mp hloop
    obtain ⟨hcandidates, hrs₂⟩ := (Choice.expect_eq_some _ _ (rows, rs₂)).mp hrows
    obtain rfl : rs₂ = rs := hrs₂.trans hrs₁
    split_ifs at hrest with hempty
    · obtain ⟨rfl, _⟩ := Prod.mk.inj ((Choice.pure_eq_some _ _ _).mp hrest)
      exact absurd rfl hsolvable
    · obtain ⟨tyArgsMap, mid, hpick, hsampling⟩ := (Choice.bind_eq_some _ _ _ _).mp hrest
      obtain ⟨sampled, mid', hsampled, hresult⟩ := (Choice.bind_eq_some _ _ _ _).mp hsampling
      cases sampled with
      | none =>
        obtain ⟨rfl, _⟩ := Prod.mk.inj ((Choice.pure_eq_some _ _ _).mp hresult)
        exact absurd rfl hsolvable
      | some sampling =>
        refine ⟨withGates, rows, tyArgsMap, mid, sampling, mid', hgated, hcandidates, hpick,
          hsampled, ?_⟩
        dsimp only at hresult
        split_ifs at hresult with hsome
        · obtain ⟨tys, rs₃, _, hdone⟩ := (Choice.bind_eq_some _ _ _ _).mp hresult
          obtain ⟨rfl, _⟩ := Prod.mk.inj ((Choice.pure_eq_some _ _ _).mp hdone)
          exact map_some_filterMap_id _ hsome
        · obtain ⟨rfl, _⟩ := Prod.mk.inj ((Choice.pure_eq_some _ _ _).mp hresult)
          rfl

theorem drawApart_isSome (st : FuzzState) (ptb : MoveSequence) (function : MoveFunctionAbi)
    (fixedTyArgs : TyArgs) (used : List SequenceArgument) (disableSplit : Bool)
    (objectData : ObjectData) (result : ConstructResult) (rs rest : List ℕ)
    (hdata : ObjectData.fromPtbAndRemoveUsed st ptb used = some objectData)
    (h : tryConstructArgs st ptb.inputs.length (sampledParams SortedMap.empty function.parameters)
      function.typeParameters fixedTyArgs objectData rs = some (result, rest))
    (hsolvable : result ≠ .unsolvable) :
    (drawApart function disableSplit st ptb fixedTyArgs used rs).isSome ↔
      (drawnAt result.slots (sampledAt (passedParams function).zipIdx)).Pairwise
        (Apart function disableSplit) := by
  obtain ⟨withGates, rows, tyArgsMap, mid, sampling, mid', hgates, hrows, hpick, hsampled, hslots⟩ :=
    tryConstructArgs_sampled st _ _ _ _ _ _ _ _ h hsolvable
  have hlen : (withGates.zip (rows.map fun row => !row.isEmpty)).length =
      (sampledAt (passedParams function).zipIdx).length := by
    have hplaces := congrArg List.length (sampledAt_fst function)
    rw [List.length_map] at hplaces
    rw [hplaces, List.length_zip, List.length_map, allCandidates_length _ _ _ _ _ hrows,
      Nat.min_self, (mapM_forall₂ _ _ _ hgates).length_eq]
  obtain ⟨slots, hreturn, hiff⟩ := sampleApart_isSome function disableSplit st ptb.inputs.length
    tyArgsMap _ _ [] _ sampling mid mid' hlen List.Pairwise.nil hsampled
  have hrun : drawApart function disableSplit st ptb fixedTyArgs used rs =
      sampleApart function disableSplit st ptb.inputs.length tyArgsMap []
        ⟨objectData.existingObjects, objectData.usedObjectIds, [], []⟩
        ((withGates.zip (rows.map fun row => !row.isEmpty)).zip
          (sampledAt (passedParams function).zipIdx)) mid := by
    unfold drawApart
    rw [hdata, Choice.bind_eq _ _ _ _ _ rfl, hgates, Choice.bind_eq _ _ _ _ _ rfl, hrows,
      Choice.bind_eq _ _ _ _ _ rfl, Choice.bind_eq _ _ _ _ _ hpick]
  rw [hrun, hiff, hslots, hreturn]
  rfl

theorem drawnAt_apart_iff (function : MoveFunctionAbi) (disableSplit : Bool)
    (slots : List (Option SequenceArgument)) :
    (drawnAt slots (sampledAt (passedParams function).zipIdx)).Pairwise
        (Apart function disableSplit) ↔
      ∀ (i j : ℕ) arg p q, i < j →
        (slotsAt (passedParams function) slots)[i]? = some (some arg) →
        (slotsAt (passedParams function) slots)[j]? = some (some arg) →
        (passedParams function)[i]? = some p → (passedParams function)[j]? = some q →
        mayShare function disableSplit (p, i) (q, j) = true := by
  have hget : ∀ (i : ℕ) slot p, (slotsAt (passedParams function) slots)[i]? = some slot →
      (passedParams function)[i]? = some p →
      ((slotsAt (passedParams function) slots).zip (passedParams function).zipIdx)[i]? =
        some (slot, (p, i)) := by
    intro i slot p hslot hp
    rw [List.getElem?_zip_eq_some, List.getElem?_zipIdx, hp, Option.map_some, Nat.zero_add]
    exact ⟨hslot, rfl⟩
  rw [← drawnAt_slotsAt, drawnAt, List.pairwise_filterMap]
  constructor
  · intro hall i j arg p q hij hi hj hp hq
    obtain ⟨hlti, hgeti⟩ := List.getElem?_eq_some_iff.mp (hget i _ p hi hp)
    obtain ⟨hltj, hgetj⟩ := List.getElem?_eq_some_iff.mp (hget j _ q hj hq)
    have hpair := List.pairwise_iff_getElem.mp hall i j hlti hltj hij
    rw [hgeti, hgetj] at hpair
    exact hpair (arg, (p, i)) rfl (arg, (q, j)) rfl rfl
  · intro hall
    rw [List.pairwise_iff_getElem]
    intro i j hi hj hij a ha b hb heq
    have hi' := List.getElem?_eq_getElem hi
    have hj' := List.getElem?_eq_getElem hj
    generalize ((slotsAt (passedParams function) slots).zip
      (passedParams function).zipIdx)[i] = u at ha hi'
    generalize ((slotsAt (passedParams function) slots).zip
      (passedParams function).zipIdx)[j] = v at hb hj'
    obtain ⟨arg, hu, rfl⟩ := Option.map_eq_some_iff.mp ha
    obtain ⟨arg', hv, rfl⟩ := Option.map_eq_some_iff.mp hb
    obtain rfl : arg = arg' := heq
    obtain ⟨slot, p, k⟩ := u
    obtain ⟨slot', q, k'⟩ := v
    obtain rfl : slot = some arg := hu
    obtain rfl : slot' = some arg := hv
    rw [List.getElem?_zip_eq_some, List.getElem?_zipIdx] at hi' hj'
    obtain ⟨hslot, hplace⟩ := hi'
    obtain ⟨hslot', hplace'⟩ := hj'
    obtain ⟨_, hp, hpk⟩ := Option.map_eq_some_iff.mp hplace
    obtain ⟨_, hq, hqk⟩ := Option.map_eq_some_iff.mp hplace'
    obtain ⟨rfl, rfl⟩ := Prod.mk.inj hpk
    obtain ⟨rfl, rfl⟩ := Prod.mk.inj hqk
    rw [Nat.zero_add, Nat.zero_add]
    exact hall i j arg _ _ hij hslot hslot' hp hq

theorem Drawn.newObjects {st : FuzzState} {inputLen : ℕ} {params : List MoveAbiSignatureToken}
    {abilities : List MoveAbility} {fixedTyArgs : TyArgs} {data : ObjectData}
    (d : Drawn st inputLen params abilities fixedTyArgs data) :
    NewObjects data.usedObjectIds d.sampling.inputs := by
  apply d.samples.newObjects data.usedObjectIds (fun id h => h)
  · intro v hv
    cases hv
  · exact ⟨fun v hv => (by cases hv), fun i j v w id hi => (by simp at hi)⟩

theorem Drawn.origin {st : FuzzState} {inputLen : ℕ} {params : List MoveAbiSignatureToken}
    {abilities : List MoveAbility} {fixedTyArgs : TyArgs} {data : ObjectData}
    (d : Drawn st inputLen params abilities fixedTyArgs data) (arg : SequenceArgument)
    (harg : some arg ∈ d.sampling.returnArgs) :
    (∃ ty, Lists data.existingObjects ty arg) ∨
      ∃ j, j < d.sampling.inputs.length ∧ arg = .input (asU16 (inputLen + j)) := by
  obtain ⟨k, hk⟩ := List.mem_iff_getElem?.mp harg
  have hlt := (List.getElem?_eq_some_iff.mp hk).1
  rw [d.slots_length] at hlt
  obtain ⟨_, ty, _, _, hsampled⟩ := d.sampled k _ arg (List.getElem?_eq_getElem hlt) hk
  rcases hsampled with ⟨args, c, hargs, hc, _, rfl⟩ | ⟨j, _, _, _, rfl, hj, _⟩
  · exact .inl ⟨ty, args, hargs, List.mem_map_of_mem hc⟩
  · exact .inr ⟨j, (List.getElem?_eq_some_iff.mp hj).1, rfl⟩

theorem AppendRun.bounds {st : FuzzState} {fuel : ℕ} {ptb ptb' : MoveSequence}
    {ident : FunctionIdent} {fixedArgs : FixedArgs} {fixedTyArgs : TyArgs}
    {used : List SequenceArgument} {disableSplit : Bool} {appended : Appended}
    (run : AppendRun st (appendProducer st fuel) ptb ident fixedArgs fixedTyArgs used disableSplit
      appended ptb') (hinputs : ptb'.inputs.length + run.function.parameters.length ≤ 2 ^ 16) :
    ptb.inputs.length ≤ run.draft.ptb.inputs.length ∧
      ptb.commands.length ≤ run.draft.ptb.commands.length ∧
      run.draft.ptb.commands.length < ptb'.commands.length ∧
      run.draft.ptb.inputs.length + run.draft.inputs.length ≤ 2 ^ 16 := by
  obtain ⟨removed, more, hfinished⟩ := run.args_finished
  obtain ⟨hin, added, hadded, _⟩ := run.fills.grows (appendProducer_grows st fuel)
  rw [run.constructed.start_ptb.1] at hin hadded
  have hgrown := congrArg List.length hadded
  have hcommands := hfinished.commands_eq
  have hlength := congrArg List.length hfinished.inputs_eq
  have hcount := run.inputs_length
  simp only [List.length_append] at hgrown hlength
  exact ⟨hin.length_le, by omega, by omega, by omega⟩

section

variable {st : FuzzState} {fuel : ℕ} {ptb ptb' : MoveSequence} {ident : FunctionIdent}
  {fixedTyArgs : TyArgs} {used : List SequenceArgument} {disableSplit : Bool} {appended : Appended}
  (run : AppendRun st (appendProducer st fuel) ptb ident SortedMap.empty fixedTyArgs used
    disableSplit appended ptb')

include run

/- The arguments of a call before they are renumbered. -/
structure DraftArgs : Prop where
  pushes : Pushes ptb.inputs.length run.start run.draft
    (slotsAt (passedParams run.function) run.slots) run.draft.arguments
  old : ∀ idx, .input idx ∈ run.draft.arguments → idx.val < ptb.inputs.length → ∀ v id,
    run.draft.ptb.inputs[idx.val]? = some v → inputId v = some id →
    id ∈ run.objectData.usedObjectIds
  objects : NewObjects run.objectData.usedObjectIds run.draft.inputs

theorem AppendRun.draftArgs (hst : ReturnsFit st)
    (hinputs : ptb'.inputs.length + run.function.parameters.length ≤ 2 ^ 16)
    (hcommands : ptb'.commands.length ≤ 2 ^ 16) : DraftArgs run := by
  obtain ⟨hgrown, hcmd, hlast, hnew⟩ := run.bounds hinputs
  have hobjects := fromPtbAndRemoveUsed_objectsOf st hst ptb run.objectData used (by omega)
    (by omega) run.data
  obtain ⟨hptb, harguments⟩ := run.constructed.start_ptb
  obtain ⟨d, hstart, hslots⟩ : ∃ d : Drawn st ptb.inputs.length
      (sampledParams SortedMap.empty run.function.parameters) run.function.typeParameters
      fixedTyArgs run.objectData, run.start.inputs = d.sampling.inputs ∧
        run.slots = d.sampling.returnArgs := run.constructed.start_drawn
  have hcount : run.start.inputs.length ≤ run.draft.inputs.length := run.fills.inputs_grow.length_le
  have hslotsPlaced : ∀ arg, some arg ∈ run.slots → PlacedBefore ptb.inputs.length run.start arg := by
    intro arg harg
    rw [hslots] at harg
    unfold PlacedBefore
    rw [hptb, hstart]
    rcases d.origin arg harg with ⟨ty, hlisted⟩ | ⟨j, hj, rfl⟩
    · exact (hobjects.lists.before ty arg hlisted).mono (Nat.le_add_right ..)
        (.inr ⟨rfl, Nat.le_refl _⟩)
    · show (asU16 _).val < _
      rw [asU16_val _ (by rw [← hstart] at hj; omega)]
      omega
  obtain ⟨new, hpushed, hpushes⟩ := run.fills.pushes (appendProducer_grows st fuel)
    (appendProducer_returnsNew st fuel) (fun i => rfl) (by omega) (by omega) hslotsPlaced
  rw [harguments, List.nil_append] at hpushed
  rw [builtParams_empty, ← hpushed] at hpushes
  refine ⟨hpushes, ?_, run.fills.newObjects _ (hstart ▸ d.newObjects)⟩
  -- an input from before was drawn from the list
  intro idx hidx hlt v id hv hid
  obtain ⟨k, hk⟩ := List.mem_iff_getElem?.mp hidx
  have hplaced : PlacedBefore ptb.inputs.length run.start (.input idx) := by
    show idx.val < _
    omega
  rcases hpushes.origin k _ hk with hslot | hnot
  · have hmem := mem_slotsAt _ _ _ (List.mem_of_getElem? hslot)
    rw [hslots] at hmem
    rcases d.origin _ hmem with ⟨ty, args, hargs, _⟩ | ⟨j, hj, harg⟩
    · rcases hobjects.used with hnone | hids
      · rw [hnone] at hargs
        cases hargs
      · obtain ⟨tail, htail⟩ := (run.fills.grows (appendProducer_grows st fuel)).1
        rw [hptb] at htail
        rw [← htail, List.getElem?_append_left hlt] at hv
        cases v with
        | object ty obj => exact hids idx.val ty obj id hv hid
        | _ => cases hid
    · have hval := congrArg Fin.val (SequenceArgument.input.inj harg)
      rw [asU16_val _ (by rw [← hstart] at hj; omega)] at hval
      omega
  · exact absurd hplaced hnot

theorem AppendRun.same_argument
    (hinputs : ptb'.inputs.length + run.function.parameters.length ≤ 2 ^ 16)
    (hcommands : ptb'.commands.length ≤ 2 ^ 16) (hdraft : DraftArgs run)
    (i j : ℕ) (arg : SequenceArgument) (hij : i < j)
    (hi : appended.1[i]? = some arg) (hj : appended.1[j]? = some arg) :
    isSplitAt run.function disableSplit i = false ∧ isSplitAt run.function disableSplit j = false ∧
      ∃ a, run.draft.arguments[i]? = some a ∧ run.draft.arguments[j]? = some a := by
  obtain ⟨removed, more, hfinished⟩ := run.args_finished
  obtain ⟨hgrown, _, hlast, hnew⟩ := run.bounds hinputs
  have hbefore : ∀ (k : ℕ) a, appended.1[k]? = some a → ∃ b, run.draft.arguments[k]? = some b := by
    intro k a hk
    have hlt := (List.getElem?_eq_some_iff.mp hk).1
    rw [hfinished.length_eq] at hlt
    exact ⟨_, List.getElem?_eq_getElem hlt⟩
  obtain ⟨a, ha⟩ := hbefore i arg hi
  obtain ⟨b, hb⟩ := hbefore j arg hj
  have hi' := hfinished.argument_eq i a ha
  have hj' := hfinished.argument_eq j b hb
  rw [hi, Option.some.injEq] at hi'
  rw [hj, Option.some.injEq] at hj'
  have hlti := (List.getElem?_eq_some_iff.mp ha).1
  have hltj := (List.getElem?_eq_some_iff.mp hb).1
  -- the result of a split is later than anything else
  have hlater : ∀ (k : ℕ) c, c ∈ run.draft.arguments → k < run.draft.arguments.length →
      isSplitAt run.function disableSplit k = true →
      renumber run.draft.ptb.inputs run.draft.inputs ptb.inputs.length removed c ≠
        .result (asU16 (run.draft.ptb.commands.length + splitCount run.function.parameters k)) := by
    intro k c hc hk hsplit heq
    have hplaced := hdraft.pushes.placed c hc
    rw [renumber_result _ _ _ _ _ _ heq] at hplaced
    have hlt := (hfinished.split_lt k hk hsplit).1
    have hval := asU16_val (run.draft.ptb.commands.length + splitCount run.function.parameters k)
      (by omega)
    rcases hplaced with h | h
    · omega
    · exact absurd h.2 (Nat.lt_irrefl 0)
  cases hsi : isSplitAt run.function disableSplit i with
  | true =>
    cases hsj : isSplitAt run.function disableSplit j with
    | true =>
      rw [hsi, if_pos rfl] at hi'
      rw [hsj, if_pos rfl, hi'] at hj'
      have hval := congrArg Fin.val (SequenceArgument.result.inj hj')
      obtain ⟨hbi, hlt⟩ := hfinished.split_lt i hlti hsi
      obtain ⟨hbj, _⟩ := hfinished.split_lt j hltj hsj
      rw [asU16_val _ (by omega), asU16_val _ (by omega)] at hval
      have := hlt j hij
      omega
    | false =>
      rw [hsi, if_pos rfl] at hi'
      rw [hsj, if_neg Bool.false_ne_true, hi'] at hj'
      exact absurd hj'.symm (hlater i b (List.mem_of_getElem? hb) hlti hsi)
  | false =>
    rw [hsi, if_neg Bool.false_ne_true] at hi'
    cases hsj : isSplitAt run.function disableSplit j with
    | true =>
      rw [hsj, if_pos rfl, hi'] at hj'
      exact absurd hj' (hlater j a (List.mem_of_getElem? ha) hltj hsj)
    | false =>
      rw [hsj, if_neg Bool.false_ne_true, hi'] at hj'
      refine ⟨rfl, rfl, a, ha, ?_⟩
      rw [hb]
      exact congrArg some (renumber_inj hdraft.objects run.draft.arguments hfinished.removed_eq
        hgrown hnew (fun idx hidx => hdraft.pushes.placed (.input idx) hidx) hdraft.old
        (List.mem_of_getElem? ha) (List.mem_of_getElem? hb) hj').symm

theorem AppendRun.passedOnce_iff (hst : ReturnsFit st)
    (hinputs : ptb'.inputs.length + run.function.parameters.length ≤ 2 ^ 16)
    (hcommands : ptb'.commands.length ≤ 2 ^ 16) :
    PassedOnce run.function appended.1 ↔
      (drawnAt run.slots (sampledAt (passedParams run.function).zipIdx)).Pairwise
        (Apart run.function disableSplit) := by
  have hdraft := run.draftArgs hst hinputs hcommands
  have hcount : run.draft.arguments.length = (passedParams run.function).length := by
    rw [← run.built.2.length_eq, ← builtParams_empty, builtParams, List.length_map]
  rw [drawnAt_apart_iff]
  constructor
  · intro honce i j arg p q hij hi hj hp hq
    obtain ⟨removed, more, hfinished⟩ := run.args_finished
    by_contra hnot
    simp only [mayShare, Bool.or_eq_true, Bool.and_eq_true, not_or, not_and,
      Bool.not_eq_true] at hnot
    obtain ⟨⟨hshared, hsi⟩, hsj⟩ := hnot
    have hi' := hfinished.argument_eq i arg (hdraft.pushes.slot i arg hi)
    have hj' := hfinished.argument_eq j arg (hdraft.pushes.slot j arg hj)
    rw [hsi, if_neg Bool.false_ne_true] at hi'
    rw [hsj, if_neg Bool.false_ne_true] at hj'
    cases hp' : isShared p with
    | false => exact Nat.ne_of_lt hij (honce i j p _ hp hp' hi' hj')
    | true => exact Nat.ne_of_gt hij (honce j i q _ hq (hshared hp') hj' hi')
  · intro hall
    have hboth : ∀ (i j : ℕ) arg p q, i < j → appended.1[i]? = some arg →
        appended.1[j]? = some arg → (passedParams run.function)[i]? = some p →
        (passedParams run.function)[j]? = some q → isShared p = true ∧ isShared q = true := by
      intro i j arg p q hij hi hj hp hq
      obtain ⟨hsi, hsj, a, ha, ha'⟩ := run.same_argument hinputs hcommands hdraft i j arg hij hi hj
      obtain ⟨hsloti, hslotj⟩ := hdraft.pushes.twice i j a hij ha ha'
      have hshare := hall i j a p q hij hsloti hslotj hp hq
      simpa only [mayShare, hsi, hsj, Bool.or_false, Bool.and_eq_true] using hshare
    intro i j param arg hparam hshared hi hj
    have hj' := (List.getElem?_eq_some_iff.mp hj).1
    obtain ⟨removed, more, hfinished⟩ := run.args_finished
    rw [hfinished.length_eq, hcount] at hj'
    rcases Nat.lt_trichotomy i j with hij | hij | hij
    · have := (hboth i j arg param _ hij hi hj hparam (List.getElem?_eq_getElem hj')).1
      rw [hshared] at this
      cases this
    · exact hij
    · have := (hboth j i arg _ param hij hj hi (List.getElem?_eq_getElem hj') hparam).2
      rw [hshared] at this
      cases this

end

/- Two items in the pool, and a function that takes two items. -/
def lookAbi : MoveFunctionAbi := ⟨"look", [.reference (.struct itemHandle)], [], [], .public_⟩

def swapAbi : MoveFunctionAbi :=
  ⟨"swap", [.mutableReference (.struct itemHandle), .mutableReference (.struct itemHandle)], [], [],
    .public_⟩

def swapState : FuzzState :=
  { FuzzState.ofModule ⟨vaultModule, [lookAbi, swapAbi], [itemHandle]⟩ with
    typesPool := IndexMap.empty.insert itemTag [ObjectID.ofByte 5, ObjectID.ofByte 6]
    getMoveObjectInfo := fun id => if id = ObjectID.ofByte 5 ∨ id = ObjectID.ofByte 6 then
      some ⟨id, itemTag, .addressOwner (ObjectID.ofByte 9), 1, []⟩ else none }

def otherItemInput : InputArgument :=
  .object itemTag (.immOrOwnedObject (ObjectID.ofByte 6, 1, []))

end Movy.Fuzz
