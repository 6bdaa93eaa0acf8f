import Movy.Fuzz.Alias
import Movy.Types.Instantiate

/-!
# The types of the values of a sequence

An input has the type of its value, a result the return type of the called
function under the type arguments of the call. What the object data of a sequence
lists under a type has that type.
-/

namespace Movy.Fuzz

open Movy.Types Movy.Store MoveAbiSignatureToken

def suiCoinTag : MoveTypeTag :=
  .struct MoveAddress.two "coin" "Coin" [.struct MoveAddress.two "sui" "SUI" []]

/- The types of what a command returns; other commands are not looked at. -/
def returnTypes (st : FuzzState) : MoveSequenceCall → Option (List (Option MoveTypeTag))
  | .call call => (st.getCalled call).map fun function =>
      function.returnParamters.map fun ret => ret.subst (tyArgsMap call.typeArguments)
  | _ => none

def argType (st : FuzzState) (ptb : MoveSequence) : SequenceArgument → Option MoveTypeTag
  | .gasCoin => some suiCoinTag
  | .input i => (ptb.inputs[i.val]?).map InputArgument.typeTag
  | .result i => ((ptb.commands[i.val]?).bind (returnTypes st)).bind fun tys =>
      if tys.length = 1 then tys[0]?.join else none
  | .nestedResult i j => ((ptb.commands[i.val]?).bind (returnTypes st)).bind fun tys =>
      tys[j.val]?.join

theorem argType_before (st : FuzzState) (ptb : MoveSequence) (arg : SequenceArgument)
    (ty : MoveTypeTag) (h : argType st ptb arg = some ty) (hgas : arg ≠ .gasCoin) :
    Before ptb.inputs.length ptb.commands.length 0 arg := by
  cases arg with
  | gasCoin => exact absurd rfl hgas
  | input i =>
    obtain ⟨v, hv, _⟩ := Option.map_eq_some_iff.mp h
    exact (List.getElem?_eq_some_iff.mp hv).1
  | result i =>
    obtain ⟨tys, htys, _⟩ := Option.bind_eq_some_iff.mp h
    obtain ⟨cmd, hcmd, _⟩ := Option.bind_eq_some_iff.mp htys
    exact .inl (List.getElem?_eq_some_iff.mp hcmd).1
  | nestedResult i j =>
    obtain ⟨tys, htys, _⟩ := Option.bind_eq_some_iff.mp h
    obtain ⟨cmd, hcmd, _⟩ := Option.bind_eq_some_iff.mp htys
    exact .inl (List.getElem?_eq_some_iff.mp hcmd).1

/- Values keep their type when the sequence grows. -/
theorem argType_grows (st : FuzzState) (ptb ptb' : MoveSequence) (arg : SequenceArgument)
    (ty : MoveTypeTag) (hgrows : GrowsFreely ptb ptb') (h : argType st ptb arg = some ty) :
    argType st ptb' arg = some ty := by
  obtain ⟨⟨inputs, hinputs⟩, commands, hcommands, _⟩ := hgrows
  have hcommand : ∀ (i : ℕ) tys, (ptb.commands[i]?).bind (returnTypes st) = some tys →
      (ptb'.commands[i]?).bind (returnTypes st) = some tys := by
    intro i tys htys
    obtain ⟨cmd, hcmd, htys⟩ := Option.bind_eq_some_iff.mp htys
    rw [hcommands, List.getElem?_append_left (List.getElem?_eq_some_iff.mp hcmd).1, hcmd]
    exact htys
  cases arg with
  | gasCoin => exact h
  | input i =>
    obtain ⟨v, hv, rfl⟩ := Option.map_eq_some_iff.mp h
    rw [argType, ← hinputs, List.getElem?_append_left (List.getElem?_eq_some_iff.mp hv).1, hv]
    rfl
  | result i =>
    obtain ⟨tys, htys, h⟩ := Option.bind_eq_some_iff.mp h
    rw [argType, hcommand i.val tys htys]
    exact h
  | nestedResult i j =>
    obtain ⟨tys, htys, h⟩ := Option.bind_eq_some_iff.mp h
    rw [argType, hcommand i.val tys htys]
    exact h

/- The `j`-th result of a call. -/
theorem argType_resultArg (st : FuzzState) (ptb : MoveSequence) (i j : ℕ) (call : MoveCall)
    (function : MoveFunctionAbi) (ret : MoveAbiSignatureToken) (hi : i < 2 ^ 16) (hj : j < 2 ^ 16)
    (hcmd : ptb.commands[i]? = some (.call call)) (hcalled : st.getCalled call = some function)
    (hret : function.returnParamters[j]? = some ret) :
    argType st ptb (ObjectData.resultArg function.returnParamters.length i j) =
      ret.subst (tyArgsMap call.typeArguments) := by
  have hjlt := (List.getElem?_eq_some_iff.mp hret).1
  unfold ObjectData.resultArg
  split_ifs with hone
  · obtain rfl : j = 0 := by omega
    simp only [argType, asU16_val i hi, hcmd, Option.bind_some, returnTypes, hcalled,
      Option.map_some, List.length_map, hone, if_true, List.getElem?_map, hret, Option.join_some]
  · simp only [argType, asU16_val i hi, asU16_val j hj, hcmd, Option.bind_some, returnTypes, hcalled,
      Option.map_some, List.getElem?_map, hret, Option.join_some]

/-! ### The lists -/

/- What is listed under a type has that type. -/
def ListsTyped (st : FuzzState) (ptb : MoveSequence) (objects : ExistingObjects) : Prop :=
  ∀ ty arg, Lists objects ty arg → argType st ptb arg = some ty

/- The objects among the inputs have the types that are recorded. -/
def InputsTyped (st : FuzzState) (ptb : MoveSequence) : Prop :=
  ∀ (i : ℕ) ty obj id object, ptb.inputs[i]? = some (.object ty obj) →
    ObjectData.objectId obj = some id → st.getMoveObjectInfo id = some object → object.ty = ty

theorem ListsTyped.narrows {st : FuzzState} {ptb : MoveSequence}
    {objects objects' : ExistingObjects} (h : ListsTyped st ptb objects)
    (hn : Narrows objects' objects) : ListsTyped st ptb objects' :=
  fun ty arg hl => h ty arg (hn.lists hl)

theorem ListsTyped.push {st : FuzzState} {ptb : MoveSequence} {objects : ExistingObjects}
    (h : ListsTyped st ptb objects) (ty : MoveTypeTag) (arg : SequenceArgument) (gate : Gate)
    (harg : argType st ptb arg = some ty) :
    ListsTyped st ptb (ObjectData.pushObject objects ty arg gate) := by
  intro ty' arg' hl
  rcases (lists_pushObject objects ty ty' arg arg' gate).mp hl with ⟨rfl, rfl⟩ | hl
  · exact harg
  · exact h ty' arg' hl

section

variable (st : FuzzState) (ptb : MoveSequence)

theorem addInputs_typed (hinputs : InputsTyped st ptb) (hlen : ptb.inputs.length ≤ 2 ^ 16)
    (self data : ObjectData) (i : ℕ) (inputs : List InputArgument)
    (hdrop : ptb.inputs.drop i = inputs) (h : ListsTyped st ptb self.existingObjects)
    (hrun : ObjectData.addInputs st self i inputs = some data) :
    ListsTyped st ptb data.existingObjects := by
  induction inputs generalizing self i with
  | nil =>
    rw [← Option.some.inj hrun]
    exact h
  | cons input rest ih =>
    obtain ⟨hget, hdrop'⟩ := drop_eq_cons hdrop
    have hi := (List.getElem?_eq_some_iff.mp hget).1
    cases input with
    | object ty obj =>
      obtain ⟨objId, hobjId, hrun⟩ := Option.bind_eq_some_iff.mp hrun
      obtain ⟨object, hobject, hrun⟩ := Option.bind_eq_some_iff.mp hrun
      obtain ⟨gate, _, hrun⟩ := Option.bind_eq_some_iff.mp hrun
      refine ih _ (i + 1) hdrop' (h.push object.ty _ gate ?_) hrun
      simp only [argType, asU16_val i (by omega), hget, Option.map_some, Option.some.injEq,
        InputArgument.typeTag]
      exact (hinputs i ty obj objId object hget hobjId hobject).symm
    | _ => exact ih self (i + 1) hdrop' h hrun

theorem addReturns_typed (hst : ReturnsFit st) (i : ℕ) (hi : i < 2 ^ 16) (call : MoveCall)
    (function : MoveFunctionAbi) (hcmd : ptb.commands[i]? = some (.call call))
    (hcalled : st.getCalled call = some function) (self next : ObjectData) (j : ℕ)
    (retTys : List MoveAbiSignatureToken) (hdrop : function.returnParamters.drop j = retTys)
    (h : ListsTyped st ptb self.existingObjects)
    (hrun : ObjectData.addReturns st function.returnParamters.length i
      (tyArgsMap call.typeArguments) self j retTys = some next) :
    ListsTyped st ptb next.existingObjects := by
  induction retTys generalizing self j with
  | nil =>
    rw [← Option.some.inj hrun]
    exact h
  | cons retTy rest ih =>
    obtain ⟨hget, hdrop'⟩ := drop_eq_cons hdrop
    have hj := (List.getElem?_eq_some_iff.mp hget).1
    have hfit := hst _ _ _ _ hcalled
    have htype := argType_resultArg st ptb i j call function retTy hi (by omega) hcmd hcalled hget
    obtain ⟨mid, hmid, hrun⟩ := Option.bind_eq_some_iff.mp hrun
    refine ih mid (j + 1) hdrop' ?_ hrun
    obtain ⟨instantiated, hinst, hmid⟩ := Option.bind_eq_some_iff.mp hmid
    have hpush := h.push instantiated _ .owned (htype.trans hinst)
    cases retTy with
    | vector inner =>
      obtain ⟨hot, _, hmid⟩ := Option.bind_eq_some_iff.mp hmid
      rw [← Option.some.inj hmid]
      split_ifs <;> exact h
    | _ =>
      cases instantiated with
      | struct a m s tys =>
        rw [← Option.some.inj hmid]
        exact hpush
      | _ =>
        rw [← Option.some.inj hmid]
        exact h

theorem addCommands_typed (hst : ReturnsFit st) (hlen : ptb.commands.length ≤ 2 ^ 16)
    (self data : ObjectData) (i : ℕ) (commands : List MoveSequenceCall)
    (hdrop : ptb.commands.drop i = commands) (h : ListsTyped st ptb self.existingObjects)
    (hrun : ObjectData.addCommands st self i commands = some data) :
    ListsTyped st ptb data.existingObjects := by
  induction commands generalizing self i with
  | nil =>
    rw [← Option.some.inj hrun]
    exact h
  | cons command rest ih =>
    obtain ⟨hget, hdrop'⟩ := drop_eq_cons hdrop
    have hi := (List.getElem?_eq_some_iff.mp hget).1
    cases command with
    | call call =>
      obtain ⟨function, hfunction, hrun⟩ := Option.bind_eq_some_iff.mp hrun
      obtain ⟨taken, htaken, hrun⟩ := Option.bind_eq_some_iff.mp hrun
      obtain ⟨next, hnext, hrun⟩ := Option.bind_eq_some_iff.mp hrun
      obtain ⟨hnarrows, _⟩ := takeArgs_narrows self taken _ _ htaken
      have hreturned := addReturns_typed st ptb hst i (by omega) call function hget hfunction taken
        next 0 function.returnParamters rfl (h.narrows hnarrows) hnext
      exact ih next (i + 1) hdrop' hreturned hrun
    | _ => exact ih self (i + 1) hdrop' h hrun

theorem fromPtbAndRemoveUsed_typed (hst : ReturnsFit st) (hinputs : InputsTyped st ptb)
    (hlen : ptb.inputs.length ≤ 2 ^ 16) (hcommands : ptb.commands.length ≤ 2 ^ 16)
    (data : ObjectData) (used : List SequenceArgument)
    (h : ObjectData.fromPtbAndRemoveUsed st ptb used = some data) :
    ListsTyped st ptb data.existingObjects := by
  obtain ⟨all, hall, rfl⟩ := Option.map_eq_some_iff.mp h
  refine ListsTyped.narrows ?_ (foldl_removeUsed all used).1
  have hnew : ListsTyped st ptb ObjectData.new.existingObjects := by
    rintro ty arg ⟨args, hargs, _⟩
    cases hargs
  unfold ObjectData.fromPtb at hall
  split_ifs at hall
  · rw [← Option.some.inj hall]
    exact hnew
  · obtain ⟨mid, hmid, hall⟩ := Option.bind_eq_some_iff.mp hall
    have hmidTyped := addInputs_typed st ptb hinputs hlen { ObjectData.new with
      usedObjectIds := [st.gasId] } mid 0 ptb.inputs rfl hnew hmid
    exact addCommands_typed st ptb hst hcommands mid all 0 ptb.commands rfl hmidTyped hall

end

end Movy.Fuzz
