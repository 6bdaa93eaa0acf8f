import Movy.Fuzz.MutableValue
import Movy.Fuzz.ObjectData

/-!
# Changing the arguments of a sequence (`mutators/utils.rs`, `mutators/arg.rs`)

`mutate_arg` draws a call and one of its pure arguments and changes the value;
`solve_arg` takes the value from a model of the constraints that the last run
left behind. Both read the parameters and the arguments of a call side by side.
-/

namespace Movy.Fuzz

open Movy.Types Movy.Store

/-! ### Values -/

def InputArgument.isObject : InputArgument → Bool
  | .object _ _ => true
  | _ => false

/- The value after `MutableValue::mutate`, without the draws of the byte mutators.
The pool of magic numbers is only looked at for a `split` whose amount is not a
`u64`; writing eight bytes to it panics. -/
def mutateValueIn (st : FuzzState) (pool : List (List Byte)) (split : Bool) (v : InputArgument) :
    Choice InputArgument :=
  match v with
  | .u16 _ | .u256 _ => if split && pool.isEmpty then Choice.panic else pure v
  | v => mutateValue st v

def sampleValue (pool : List (List Byte)) (v : InputArgument) : Choice InputArgument := do
  let r ← sampleMagicNumber pool v
  pure r.2

/-! ### Candidates -/

inductive FlashProvider where
  | cetus
  | nemo
  deriving DecidableEq

/- The first command and the first input that belong to the user. -/
def flashCommandLimits : Option FlashProvider → ℕ × ℕ
  | some .cetus => (1, 8)
  | some .nemo => (2, 4)
  | none => (0, 0)

def MoveCall.isSplit (call : MoveCall) : Bool :=
  call.moduleId = MoveAddress.two && (call.moduleName = "coin" || call.moduleName = "balance") &&
    call.function = "split"

def commandHasMutableUserArg (function : MoveFunctionAbi) (call : MoveCall) (inputLimit : ℕ) :
    Bool :=
  (function.parameters.zip call.arguments).any fun e =>
    e.1.isMutable && match e.2 with
      | .input i => decide (inputLimit ≤ i.val)
      | _ => true

def splitsBefore (commands : List MoveSequenceCall) : ℕ → List ℕ
  | 0 => []
  | idx + 1 => match commands[idx]? with
    | some (.call prev) =>
      if MoveCall.isSplit prev then idx :: splitsBefore commands idx else []
    | _ => []

/- `none` is a panic on an unknown function. -/
def stageCandidateIndices (st : FuzzState) (ptb : MoveSequence) (stageIdx inputLimit : ℕ) :
    Option (List ℕ) :=
  match ptb.commands[stageIdx]? with
  | some (.call call) => do
    let function ← st.getCalled call
    some ((if commandHasMutableUserArg function call inputLimit then [stageIdx] else []) ++
      splitsBefore ptb.commands stageIdx)
  | _ => some []

def generalCandidates (st : FuzzState) (inputLimit : ℕ) :
    List (MoveSequenceCall × ℕ) → Option (List ℕ)
  | [] => some []
  | (.call call, idx) :: rest => do
    let function ← st.getCalled call
    let others ← generalCandidates st inputLimit rest
    some (if commandHasMutableUserArg function call inputLimit then idx :: others else others)
  | _ :: rest => generalCandidates st inputLimit rest

def candidateMoveCallIndices (st : FuzzState) (flash : Option FlashProvider) (ptb : MoveSequence)
    (stageIdx : Option ℕ) : Option (List ℕ) :=
  let (startIdx, inputLimit) := flashCommandLimits flash
  match stageIdx with
  | some stageIdx => stageCandidateIndices st ptb stageIdx inputLimit
  | none => generalCandidates st inputLimit (ptb.commands.zipIdx.drop startIdx)

def argIdxCandidates (function : MoveFunctionAbi) (call : MoveCall) (inputLimit : ℕ) : List ℕ :=
  (function.parameters.zip call.arguments).zipIdx.filterMap fun e =>
    if e.1.1.isMutable && (match e.1.2 with
      | .input i => decide (inputLimit ≤ i.val)
      | _ => false) then some e.2
    else none

/-! ### Type arguments -/

def freeTyArgs (function : MoveFunctionAbi) (call : MoveCall) (staged : Bool) :
    Option (List (ℕ × MoveAbility)) :=
  let free := (List.range call.typeArguments.length).filter fun i =>
    let inParams := function.parameters.any fun p => p.containsTypeParam (asU16 i)
    let inReturns := function.returnParamters.any fun p => p.containsTypeParam (asU16 i)
    if staged then !inParams && !inReturns else !(inParams || inReturns) && !inReturns
  free.mapM fun i => (function.typeParameters[i]?).map fun ability => (i, ability)

def tyArgCandidates (st : FuzzState) (staged : Bool) :
    List (MoveSequenceCall × ℕ) → Option (List (ℕ × ℕ × MoveAbility))
  | [] => some []
  | (.call call, idx) :: rest => do
    let function ← st.getCalled call
    let here ← freeTyArgs function call staged
    let others ← tyArgCandidates st staged rest
    some (here.map (fun e => (idx, e.1, e.2)) ++ others)
  | _ :: rest => tyArgCandidates st staged rest

def setTyArg (ptb : MoveSequence) (cmdIdx i : ℕ) (ty : MoveTypeTag) : MoveSequence :=
  match ptb.commands[cmdIdx]? with
  | some (.call call) => { ptb with
      commands := ptb.commands.set cmdIdx
        (.call { call with typeArguments := call.typeArguments.set i ty }) }
  | _ => ptb

/- `none` is `Skipped`. -/
def mutateTyArg (st : FuzzState) (flash : Option FlashProvider) (ptb : MoveSequence)
    (stageIdx : Option ℕ) : Choice (Option MoveSequence) := do
  let commands := match stageIdx with
    | some stageIdx => (ptb.commands.zipIdx.drop stageIdx).take 1
    | none => ptb.commands.zipIdx.drop (flashCommandLimits flash).1
  let tyArgs ← Choice.expect (tyArgCandidates st stageIdx.isSome commands)
  if tyArgs.isEmpty then pure none
  else do
    let (cmdIdx, i, abilities) ← Choice.pick tyArgs
    match st.abilityToTypeTag abilities with
    | none => pure none
    | some [] => pure none
    | some tags => do
      let ty ← Choice.pick tags
      pure (some (setTyArg ptb cmdIdx i ty))

/-! ### `mutate_arg` -/

/- The function whose magic numbers are tried: for a split, the next call that is
none. -/
def magicFunctionIdent (commands : List MoveSequenceCall) (cmdIdx : ℕ) (call : MoveCall) :
    FunctionIdent :=
  let next := if MoveCall.isSplit call then
      (commands.drop cmdIdx).findSome? fun cmd => match cmd with
        | .call c => if MoveCall.isSplit c then none else some c
        | _ => none
    else none
  let c := next.getD call
  .new c.moduleId c.moduleName c.function

/- One argument of a call is drawn, and the input it stands for is written. The
write of both mutators. -/
def overwriteArg (function : MoveFunctionAbi) (call : MoveCall) (inputLimit : ℕ)
    (ptb : MoveSequence) (newValue : ℕ → InputArgument → Choice (Option InputArgument)) :
    Choice (Option MoveSequence) :=
  let candidates := argIdxCandidates function call inputLimit
  if candidates.isEmpty then pure none
  else do
    let idx ← Choice.pick candidates
    let arg ← Choice.expect call.arguments[idx]?
    match arg with
    | .input inputIdx => do
      let callInput ← Choice.expect ptb.inputs[inputIdx.val]?
      let v ← newValue idx callInput
      match v with
      | none => pure none
      | some v => pure (some { ptb with inputs := ptb.inputs.set inputIdx.val v })
    | _ => pure none

def mutateCallArg (st : FuzzState) (magic : Bool) (pool : FunctionIdent → List (List Byte))
    (inputLimit : ℕ) (ptb : MoveSequence) (cmdIdx : ℕ) (function : MoveFunctionAbi)
    (call : MoveCall) : Choice (Option MoveSequence) :=
  let numbers := pool (magicFunctionIdent ptb.commands cmdIdx call)
  overwriteArg function call inputLimit ptb fun _ callInput => do
    let v ← if magic then sampleValue numbers callInput
      else mutateValueIn st numbers (MoveCall.isSplit call) callInput
    pure (some v)

def mutateArg (st : FuzzState) (flash : Option FlashProvider) (magic : Bool)
    (pool : FunctionIdent → List (List Byte)) (stageIdx : Option ℕ) (ptb : MoveSequence) :
    Choice (Option MoveSequence) :=
  if ptb.commands.isEmpty then pure none
  else do
    let c ← Choice.belowOrZero 10
    let r ← if c = 0 then mutateTyArg st flash ptb stageIdx else pure none
    match r with
    | some ptb => pure (some ptb)
    | none => do
      let cmdCandidates ← Choice.expect (candidateMoveCallIndices st flash ptb stageIdx)
      if cmdCandidates.isEmpty then pure none
      else do
        let cmdIdx ← Choice.pick cmdCandidates
        match ptb.commands[cmdIdx]? with
        | some (.call call) => do
          let function ← Choice.expect (st.getCalled call)
          mutateCallArg st magic pool (flashCommandLimits flash).2 ptb cmdIdx function call
        | _ => pure none

/-! ### `solve_arg` -/

def valueFromAssignment : MoveAbiSignatureToken → ℕ → Option InputArgument
  | .bool, n => if n = 0 then some (.bool false) else if n = 1 then some (.bool true) else none
  | .u8, n => if n < 2 ^ 8 then some (.u8 (Fin.ofNat (2 ^ 8) n)) else none
  | .u16, n => if n < 2 ^ 16 then some (.u16 (Fin.ofNat (2 ^ 16) n)) else none
  | .u32, n => if n < 2 ^ 32 then some (.u32 (Fin.ofNat (2 ^ 32) n)) else none
  | .u64, n => if n < 2 ^ 64 then some (.u64 (Fin.ofNat (2 ^ 64) n)) else none
  | .u128, n => if n < 2 ^ 128 then some (.u128 (Fin.ofNat (2 ^ 128) n)) else none
  | .u256, n => if n < 2 ^ 256 then some (.u256 (Fin.ofNat (2 ^ 256) n)) else none
  | _, _ => none

/- `answer` is the solver's model for the constraints of a command, by parameter;
`none` if there are no constraints, or no model in time. -/
def solveCallArg (answer : Option (ℕ → Option ℕ)) (inputLimit : ℕ) (ptb : MoveSequence)
    (function : MoveFunctionAbi) (call : MoveCall) : Choice (Option MoveSequence) :=
  overwriteArg function call inputLimit ptb fun idx _ =>
    pure (answer.bind fun solution => (solution idx).bind fun n =>
      (function.parameters[idx]?).bind fun param => valueFromAssignment param n)

def solveArg (st : FuzzState) (flash : Option FlashProvider)
    (answer : ℕ → Option (ℕ → Option ℕ)) (stageIdx : Option ℕ) (ptb : MoveSequence) :
    Choice (Option MoveSequence) :=
  if ptb.commands.isEmpty then pure none
  else do
    let cmdCandidates ← Choice.expect (candidateMoveCallIndices st flash ptb stageIdx)
    if cmdCandidates.isEmpty then pure none
    else do
      let cmdIdx ← Choice.pick cmdCandidates
      match ptb.commands[cmdIdx]? with
      | some (.call call) => do
        let function ← Choice.expect (st.getCalled call)
        solveCallArg (answer cmdIdx) (flashCommandLimits flash).2 ptb function call
      | _ => pure none

end Movy.Fuzz
