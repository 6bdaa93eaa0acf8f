import Movy.Fuzz.Construct
import Movy.Lib.Removal

/-!
# Appending a call (`movy-fuzz/src/mutators/sequence/append.rs`)

`append_function` builds a call of a given function at the end of a sequence.
Arguments that cannot be sampled are produced by other calls, which are
appended first, to a depth of ten. Coins and balances are not passed as they
are: a `split` is put in front and its result is passed.
-/

namespace Movy.Fuzz

open Movy.Types Movy.Store MoveAbiSignatureToken

abbrev FixedArgs := SortedMap U16 (SequenceArgument × MoveTypeTag)

abbrev Appended := List SequenceArgument × List SequenceArgument

/-! ### Pure parameters -/

def freshInput (st : FuzzState) (param : MoveAbiSignatureToken) : Choice InputArgument := do
  let init ← Choice.expect param.genInputArg
  mutateValue st init

/-! ### All sampled arguments found -/

/- The loop of the complete case: fixed arguments, nothing for `TxContext`,
sampled arguments in order, fresh values for the rest. -/
def completeArgs (st : FuzzState) (inputLen : ℕ) (fixedArgs : FixedArgs) :
    List (MoveAbiSignatureToken × ℕ) → List SequenceArgument → List SequenceArgument →
      List InputArgument → Choice (List SequenceArgument × List InputArgument)
  | [], _, arguments, inputs => pure (arguments, inputs)
  | (param, i) :: rest, args, arguments, inputs =>
    match fixedArgs.get? (asU16 i) with
    | some (arg, _) => completeArgs st inputLen fixedArgs rest args (arguments ++ [arg]) inputs
    | none =>
      if param.isTxContext then completeArgs st inputLen fixedArgs rest args arguments inputs
      else if param.needsSample then
        match args with
        | [] => Choice.panic
        | arg :: args => completeArgs st inputLen fixedArgs rest args (arguments ++ [arg]) inputs
      else do
        let v ← freshInput st param
        completeArgs st inputLen fixedArgs rest args
          (arguments ++ [.input (asU16 (inputLen + inputs.length))]) (inputs ++ [v])

/-! ### Producers -/

/- The first result of the producer that the wanted type matches. -/
def firstMatch (argType : MoveAbiSignatureToken) :
    ℕ → List MoveAbiSignatureToken → Option (PartialTyArgs × ℕ)
  | _, [] => none
  | i, retTy :: rest => match argType.partialExtractTyArgs retTy with
    | some r => some (r, i)
    | none => firstMatch argType (i + 1) rest

def linkTyArgs (typeArguments : TyArgs) : TyArgs → List (U16 × U16) → Option TyArgs
  | producing, [] => some producing
  | producing, (self, other) :: rest =>
    match typeArguments.get? self with
    | none => linkTyArgs typeArguments producing rest
    | some ty => match producing.get? other with
      | some ty' => if ty ≠ ty' then none else linkTyArgs typeArguments producing rest
      | none => linkTyArgs typeArguments (producing.insert other ty) rest

def settledTyArgs (call : MoveCall) : TyArgs → List (U16 × U16) → Option TyArgs
  | tyArgs, [] => some tyArgs
  | tyArgs, m :: rest =>
    (call.typeArguments[m.2.val]?).bind fun ty => settledTyArgs call (tyArgs.insert m.1 ty) rest

def lastCall (ptb : MoveSequence) : Option MoveCall :=
  match ptb.commands.getLast? with
  | some (.call call) => some call
  | _ => none

structure Draft where
  ptb : MoveSequence
  arguments : List SequenceArgument
  inputs : List InputArgument
  typeArguments : TyArgs
  usedArguments : List SequenceArgument

section

variable (st : FuzzState) (ident : FunctionIdent) (inputLen : ℕ) (fixedArgs : FixedArgs)
  (tyArgs : TyArgs)
  (append : MoveSequence → FunctionIdent → TyArgs → List SequenceArgument →
    Choice (Option Appended × MoveSequence))

/- A call that produces the argument is appended. Without result the sequence
may already have grown. -/
def produceArg (d : Draft) (param : MoveAbiSignatureToken) : Choice (Option Draft × MoveSequence) :=
  let argType := param.partialSubst tyArgs
  let funcs := st.typeGraph.findProducers argType ident
  if funcs.isEmpty then pure (none, d.ptb)
  else do
    let preFunc ← Choice.pick funcs
    match firstMatch argType 0 preFunc.2.returnParamters with
    | none => pure (none, d.ptb)
    | some ((argTyArg, producingTyArg, mapping), retIdx) =>
      match linkTyArgs d.typeArguments producingTyArg mapping with
      | none => pure (none, d.ptb)
      | some producing => do
        let (r, ptb) ← append d.ptb ⟨preFunc.1, preFunc.2.name⟩ producing d.usedArguments
        match r with
        | none => pure (none, ptb)
        | some (_, newRets) => do
          let newCall ← Choice.expect (lastCall ptb)
          let settled ← Choice.expect (settledTyArgs newCall (tyArgs.extend argTyArg) mapping)
          let ret ← Choice.expect newRets[retIdx]?
          pure (some { d with
            ptb := ptb
            arguments := d.arguments ++ [ret]
            typeArguments := d.typeArguments.extend settled
            usedArguments :=
              if isReference param then d.usedArguments else d.usedArguments ++ [ret] }, ptb)

def partialArgs : List (MoveAbiSignatureToken × ℕ) → List (Option SequenceArgument) → Draft →
    Choice (Option Draft × MoveSequence)
  | [], _, d => pure (some d, d.ptb)
  | (param, i) :: rest, args, d =>
    match fixedArgs.get? (asU16 i) with
    | some (arg, _) => partialArgs rest args { d with arguments := d.arguments ++ [arg] }
    | none =>
      if param.isTxContext then partialArgs rest args d
      else if param.needsSample then
        match args with
        | [] => Choice.panic
        | some arg :: args => partialArgs rest args { d with arguments := d.arguments ++ [arg] }
        | none :: args => do
          let (r, ptb) ← produceArg st ident tyArgs append d param
          match r with
          | none => pure (none, ptb)
          | some next => partialArgs rest args next
      else do
        let v ← freshInput st param
        partialArgs rest args { d with
          arguments := d.arguments ++ [.input (asU16 (inputLen + d.inputs.length))]
          inputs := d.inputs ++ [v] }

def fillTyArgs (typeArguments : TyArgs) : List (MoveAbility × ℕ) → Choice (List MoveTypeTag)
  | [] => pure []
  | (ability, j) :: rest => do
    let default ← st.genTypeTagByAbilities ability
    let tys ← fillTyArgs typeArguments rest
    pure ((typeArguments.get? (asU16 j)).getD default :: tys)

end

/-! ### Input indices -/

def sameObject : InputArgument → InputArgument → Bool
  | .object ty obj, .object ty' obj' => ty = ty' && obj = obj'
  | _, _ => false

structure Reindexed where
  arguments : List SequenceArgument
  fixedIdxs : List ℕ
  removeIdxs : List ℕ

/- The first loop: a new object that a producer has brought in already is
referred to where it is, if it is passed by reference. The outer `none` is a
panic, the inner one gives up. -/
def reuseInputs (ptbInputs inputs : List InputArgument) (inputLen : ℕ) :
    Reindexed → ℕ → List (SequenceArgument × MoveAbiSignatureToken) → Option (Option Reindexed)
  | r, _, [] => some (some r)
  | r, i, (arg, param) :: rest =>
    let keep := reuseInputs ptbInputs inputs inputLen { r with arguments := r.arguments ++ [arg] }
      (i + 1) rest
    match arg with
    | .input idx =>
      if idx.val < inputLen then keep
      else do
        let input ← inputs[idx.val - inputLen]?
        match ptbInputs.findIdx? fun x => sameObject x input with
        | none => keep
        | some pos =>
          if isReference param then
            reuseInputs ptbInputs inputs inputLen
              ⟨r.arguments ++ [.input (asU16 pos)], r.fixedIdxs ++ [i],
                r.removeIdxs ++ [idx.val - inputLen]⟩ (i + 1) rest
          else some none
    | _ => keep

def shiftInput (grown inputLen : ℕ) (fixedIdxs removeIdxs : List ℕ) (e : SequenceArgument × ℕ) :
    SequenceArgument :=
  match e.1 with
  | .input idx =>
    if e.2 ∈ fixedIdxs then .input idx
    else if idx.val < inputLen then .input idx
    else
      let adjust := removedBefore removeIdxs (idx.val - inputLen)
      .input (asU16 (idx.val - adjust + grown))
  | arg => arg

def reindex (ptbInputs inputs : List InputArgument) (inputLen : ℕ)
    (arguments : List SequenceArgument) (parameters : List MoveAbiSignatureToken) :
    Option (Option (List SequenceArgument × List InputArgument)) := do
  let r ← reuseInputs ptbInputs inputs inputLen ⟨[], [], []⟩ 0 (arguments.zip parameters)
  match r with
  | none => some none
  | some r =>
    -- arguments beyond the parameters are not looked at by the first loop
    let all := r.arguments ++ arguments.drop r.arguments.length
    some (some (all.zipIdx.map (shiftInput (ptbInputs.length - inputLen) inputLen r.fixedIdxs
      r.removeIdxs), withoutIdxs inputs r.removeIdxs))

/-! ### Splits -/

def splitCall (module : String) (tys : List MoveTypeTag) (arg amount : SequenceArgument) :
    MoveSequenceCall :=
  .call ⟨MoveAddress.two, module, "split", tys, [arg, amount]⟩

def splitArgs (typeArguments : List MoveTypeTag) :
    MoveSequence → List InputArgument → List SequenceArgument → List MoveAbiSignatureToken →
      Option (MoveSequence × List InputArgument × List SequenceArgument)
  | ptb, inputs, arg :: args, param :: params =>
    if param.isBalance || param.isCoin then do
      let ty ← param.subst (tyArgsMap typeArguments)
      match ty with
      | .struct _ _ _ tys => do
        let inputs := inputs ++ [.u64 0]
        let amount := .input (asU16 (ptb.inputs.length + inputs.length - 1))
        let cmd := splitCall (if param.isBalance then "balance" else "coin") tys arg amount
        let r ← splitArgs typeArguments { ptb with commands := ptb.commands ++ [cmd] } inputs args
          params
        some (r.1, r.2.1, .result (asU16 ptb.commands.length) :: r.2.2)
      | _ => none
    else do
      let r ← splitArgs typeArguments ptb inputs args params
      some (r.1, r.2.1, arg :: r.2.2)
  | ptb, inputs, args, _ => some (ptb, inputs, args)

/-! ### The whole function -/

def finishAppend (function : MoveFunctionAbi) (ident : FunctionIdent) (disableSplit : Bool)
    (inputLen : ℕ) (ptb : MoveSequence) (arguments : List SequenceArgument)
    (typeArguments : List MoveTypeTag) (inputs : List InputArgument) :
    Choice (Option Appended × MoveSequence) := do
  let r ← Choice.expect (reindex ptb.inputs inputs inputLen arguments function.parameters)
  match r with
  | none => pure (none, ptb)
  | some (arguments, inputs) => do
    let (ptb, inputs, arguments) ← Choice.expect
      (if disableSplit then some (ptb, inputs, arguments)
        else splitArgs typeArguments ptb inputs arguments function.parameters)
    if typeArguments.length ≠ function.typeParameters.length then Choice.panic
    else
      let n := function.returnParamters.length
      let returns := (List.range n).map fun j => ObjectData.resultArg n ptb.commands.length j
      let call := MoveSequenceCall.call ⟨ident.moduleId.moduleAddress, ident.moduleId.moduleName,
        ident.function, typeArguments, arguments⟩
      pure (some (arguments, returns), ⟨ptb.inputs ++ inputs, ptb.commands ++ [call]⟩)

def sampledParams (fixedArgs : FixedArgs) (parameters : List MoveAbiSignatureToken) :
    List MoveAbiSignatureToken :=
  (parameters.zipIdx.filter fun e =>
    (fixedArgs.get? (asU16 e.2)).isNone && e.1.needsSample).map Prod.fst

/- A fixed argument's type is taken as a hint for the type argument of the same
index. -/
def hintTyArgs (fixedArgs : FixedArgs) (fixedTyArgs : TyArgs) : TyArgs :=
  fixedArgs.entries.foldl (fun m e => match m.get? e.1 with
    | some _ => m
    | none => m.insert e.1 e.2.2) fixedTyArgs

/- By-value arguments that were found are not offered to producers. -/
def takenArgs (args : List (Option SequenceArgument)) (params : List MoveAbiSignatureToken) :
    List SequenceArgument :=
  (args.zip params).filterMap fun e => if isReference e.2 then none else e.1

/- One level of the recursion; `append` is the call for a producer. -/
def appendStep (st : FuzzState)
    (append : MoveSequence → FunctionIdent → TyArgs → List SequenceArgument →
      Choice (Option Appended × MoveSequence))
    (ptb : MoveSequence) (ident : FunctionIdent) (fixedArgs : FixedArgs) (fixedTyArgs : TyArgs)
    (usedArguments : List SequenceArgument) (disableSplit : Bool) :
    Choice (Option Appended × MoveSequence) := do
  let objectData ← Choice.expect (ObjectData.fromPtbAndRemoveUsed st ptb usedArguments)
  let function ← Choice.expect
    (st.getFunction ident.moduleId.moduleAddress ident.moduleId.moduleName ident.function)
  let structParams := sampledParams fixedArgs function.parameters
  let inputLen := ptb.inputs.length
  let result ← tryConstructArgs st inputLen structParams function.typeParameters
    (hintTyArgs fixedArgs fixedTyArgs) objectData
  match result with
  | .unsolvable => pure (none, ptb)
  | .ok args tyArgs inputs => do
    let (arguments, inputs) ← completeArgs st inputLen fixedArgs function.parameters.zipIdx args
      [] inputs
    finishAppend function ident disableSplit inputLen ptb arguments tyArgs inputs
  | .partialFound args tyArgs inputs => do
    let (r, ptb) ← partialArgs st ident inputLen fixedArgs tyArgs append
      function.parameters.zipIdx args
      ⟨ptb, [], inputs, SortedMap.empty, takenArgs args structParams ++ usedArguments⟩
    match r with
    | none => pure (none, ptb)
    | some d => do
      let tyArgs ← fillTyArgs st d.typeArguments function.typeParameters.zipIdx
      finishAppend function ident disableSplit inputLen d.ptb d.arguments tyArgs d.inputs

/- `fuel` is what is left of the recursion depth: the outermost call has 11. -/
def appendFunction (st : FuzzState) : ℕ → MoveSequence → FunctionIdent → FixedArgs → TyArgs →
    List SequenceArgument → Bool → Choice (Option Appended × MoveSequence)
  | 0, ptb, _, _, _, _, _ => pure (none, ptb)
  | fuel + 1, ptb, ident, fixedArgs, fixedTyArgs, usedArguments, disableSplit =>
    appendStep st
      (fun ptb ident tyArgs used => appendFunction st fuel ptb ident SortedMap.empty tyArgs used
        false)
      ptb ident fixedArgs fixedTyArgs usedArguments disableSplit

/- The recursion depth at which `append_function` is called from outside. -/
def appendTop (st : FuzzState) (ptb : MoveSequence) (ident : FunctionIdent) (fixedArgs : FixedArgs)
    (fixedTyArgs : TyArgs) (usedArguments : List SequenceArgument) (disableSplit : Bool) :
    Choice (Option Appended × MoveSequence) :=
  appendFunction st 11 ptb ident fixedArgs fixedTyArgs usedArguments disableSplit

end Movy.Fuzz
