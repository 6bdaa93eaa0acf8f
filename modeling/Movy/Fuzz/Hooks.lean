import Movy.Fuzz.Append
import Movy.Fuzz.Post
import Movy.Fuzz.Remap

/-!
# Hooks (`movy-fuzz/src/mutators/sequence/hooks.rs`)

`apply_hooks` decorates a sequence: a context is created first, the hooks of
the sequence stand before and after all commands, and around every call of a
hooked function stand a context of its own and the function's hooks, which get
the arguments of the call. `strip_generated` is meant to take all this off
again.
-/

namespace Movy.Fuzz

open Movy.Types Movy.Store MoveAbiSignatureToken

def contextIdent (st : FuzzState) (name : String) : Option FunctionIdent :=
  (st.functionNameToIdents name).bind fun idents =>
    match idents.find? fun ident => ident.moduleId.moduleName = "context" with
    | some ident => some ident
    | none => idents.head?

def contextIdents (st : FuzzState) : Option (FunctionIdent × FunctionIdent) := do
  let create ← contextIdent st "create_context"
  let destroy ← contextIdent st "destroy_context"
  some (create, destroy)

/- A set in the source; only membership is asked for. -/
def hookIdents (st : FuzzState) : List FunctionIdent :=
  st.sequenceHooks.preHooks ++ st.sequenceHooks.postHooks ++
    (st.functionHooks.values.flatMap fun hook => hook.preHooks ++ hook.postHooks) ++
    match contextIdents st with
    | some (create, destroy) => [create, destroy]
    | none => []

def callIdent (call : MoveCall) : FunctionIdent :=
  .new call.moduleId call.moduleName call.function

/-! ### Stripping -/

def isHook (st : FuzzState) : MoveSequenceCall → Bool
  | .call call => callIdent call ∈ hookIdents st
  | _ => false

/- The new index of every command; `kept` is the number of commands that stay
before the first of the list. -/
def stripMapping (st : FuzzState) : ℕ → List MoveSequenceCall → List (Option U16)
  | _, [] => []
  | kept, cmd :: rest =>
    if isHook st cmd then none :: stripMapping st kept rest
    else some (asU16 kept) :: stripMapping st (kept + 1) rest

/- A command that refers to a hook's result is dropped as well. -/
def stripHooksOnly (st : FuzzState) (ptb : MoveSequence) : MoveSequence :=
  let kept := ptb.commands.filter fun cmd => !isHook st cmd
  ⟨ptb.inputs, kept.filterMap fun cmd =>
    remapCommandWithMap cmd (stripMapping st 0 ptb.commands)⟩

def stripGenerated (st : FuzzState) (ptb : MoveSequence) : MoveSequence :=
  removeProcessBalance (removeProcessKeyStore (stripHooksOnly st ptb))

/-! ### The arguments of a hook -/

/- A hook mirrors the parameters of its target, behind an optional context;
any mismatch skips the hook. -/
def mirrorArgs (targetCall : MoveCall) (tyArgs : TyArgs) (offset : ℕ) :
    FixedArgs → ℕ → List (MoveAbiSignatureToken × MoveAbiSignatureToken) → Option FixedArgs
  | fixedArgs, _, [] => some fixedArgs
  | fixedArgs, i, (hookParam, targetParam) :: rest => do
    let hookTy ← hookParam.subst tyArgs
    let targetTy ← targetParam.subst tyArgs
    if hookTy ≠ targetTy then none
    else if targetParam.isTxContext then mirrorArgs targetCall tyArgs offset fixedArgs (i + 1) rest
    else do
      let arg ← targetCall.arguments[i]?
      mirrorArgs targetCall tyArgs offset (fixedArgs.insert (asU16 (offset + i)) (arg, hookTy))
        (i + 1) rest

def contextArgs (hookAbi : MoveFunctionAbi) (ctxArg : Option SequenceArgument) : FixedArgs :=
  match ctxArg, hookAbi.parameters.head?.bind fun p => p.subst SortedMap.empty with
  | some ctx, some paramTy => SortedMap.empty.insert 0 (ctx, paramTy)
  | _, _ => SortedMap.empty

def hookArgs (hookAbi : MoveFunctionAbi) (target : Option (MoveCall × MoveFunctionAbi))
    (ctxArg : Option SequenceArgument) : Option (FixedArgs × TyArgs) :=
  let offset := if ctxArg.isSome then 1 else 0
  match target with
  | none => some (contextArgs hookAbi ctxArg, SortedMap.empty)
  | some (targetCall, targetAbi) =>
    if hookAbi.typeParameters.length ≠ targetCall.typeArguments.length then none
    else if hookAbi.parameters.length ≠ offset + targetAbi.parameters.length then none
    else
      let tyArgs := tyArgsMap targetCall.typeArguments
      (mirrorArgs targetCall tyArgs offset (contextArgs hookAbi ctxArg) 0
        ((hookAbi.parameters.drop offset).zip targetAbi.parameters)).map fun fixedArgs =>
          (fixedArgs, tyArgs)

/-! ### Decorating -/

structure Decorated where
  ptb : MoveSequence
  indexMap : List U16

section

/- `append` is `append_function` as the decoration calls it: from the outermost
level and without splits. -/
variable (st : FuzzState)
  (append : MoveSequence → FunctionIdent → FixedArgs → TyArgs → List SequenceArgument →
    Choice (Option Appended × MoveSequence))

def appendHookCall (ptb : MoveSequence) (hook : FunctionIdent)
    (target : Option (MoveCall × MoveFunctionAbi)) (ctxArg : Option SequenceArgument) :
    Choice MoveSequence :=
  match st.getFunction hook.moduleId.moduleAddress hook.moduleId.moduleName hook.function with
  | none => pure ptb
  | some hookAbi => match hookArgs hookAbi target ctxArg with
    | none => pure ptb
    | some (fixedArgs, fixedTyArgs) => do
      let r ← append ptb hook fixedArgs fixedTyArgs (fixedArgs.entries.map fun e => e.2.1)
      pure r.2

def appendHookCalls (target : Option (MoveCall × MoveFunctionAbi))
    (ctxArg : Option SequenceArgument) : MoveSequence → List FunctionIdent → Choice MoveSequence
  | ptb, [] => pure ptb
  | ptb, hook :: rest => do
    let ptb ← appendHookCall st append ptb hook target ctxArg
    appendHookCalls target ctxArg ptb rest

def destroyParamTy : Option MoveTypeTag := do
  let (_, destroy) ← contextIdents st
  let abi ← st.getFunction destroy.moduleId.moduleAddress destroy.moduleId.moduleName
    destroy.function
  let param ← abi.parameters.head?
  param.subst SortedMap.empty

def appendContextCreation (ptb : MoveSequence) : Choice (Option SequenceArgument × MoveSequence) :=
  match contextIdents st with
  | none => pure (none, ptb)
  | some (create, _) => do
    let r ← append ptb create SortedMap.empty SortedMap.empty []
    pure (r.1.bind fun appended => appended.2.head?, r.2)

def appendContextDestruction (ptb : MoveSequence) (ctxArg : Option SequenceArgument) :
    Choice MoveSequence :=
  match ctxArg, contextIdents st, destroyParamTy st with
  | some ctx, some (_, destroy), some paramTy => do
    let r ← append ptb destroy (SortedMap.empty.insert 0 (ctx, paramTy)) SortedMap.empty []
    pure r.2
  | _, _, _ => pure ptb

/- The hooks of the called function, if its ABI is known and it has any. -/
def callHooks (call : MoveCall) : Option (MoveFunctionAbi × FunctionHook) := do
  let targetAbi ← st.getCalled call
  let hooks ← st.functionHooks.get? (callIdent call)
  some (targetAbi, hooks)

def handleFunctionCallHooks (d : Decorated) (remappedCall : MoveCall)
    (targetAbi : MoveFunctionAbi) (hooks : FunctionHook) : Choice Decorated := do
  let (hookCtx, ptb) ← appendContextCreation st append d.ptb
  let target := some (remappedCall, targetAbi)
  let ptb ← appendHookCalls st append target hookCtx ptb hooks.preHooks
  let mainIdx := asU16 ptb.commands.length
  let ptb := { ptb with commands := ptb.commands ++ [.call remappedCall] }
  let ptb ← appendHookCalls st append target hookCtx ptb hooks.postHooks
  let ptb ← appendContextDestruction st append ptb hookCtx
  pure ⟨ptb, d.indexMap ++ [mainIdx]⟩

def appendCommand (d : Decorated) (cmd : MoveSequenceCall) : Decorated :=
  ⟨{ d.ptb with commands := d.ptb.commands ++ [cmd] },
    d.indexMap ++ [asU16 d.ptb.commands.length]⟩

/- One command of the base sequence. The called function is the same before and
after renaming. -/
def decorateCommand (d : Decorated) (cmd : MoveSequenceCall) : Choice Decorated := do
  let remapped ← Choice.expect (remapCommand cmd d.indexMap)
  match remapped with
  | .call remappedCall => match callHooks st remappedCall with
    | some (targetAbi, hooks) => handleFunctionCallHooks st append d remappedCall targetAbi hooks
    | none => pure (appendCommand d (.call remappedCall))
  | other => pure (appendCommand d other)

def decorateCommands : Decorated → List MoveSequenceCall → Choice Decorated
  | d, [] => pure d
  | d, cmd :: rest => do
    let next ← decorateCommand st append d cmd
    decorateCommands next rest

/- The hooks and contexts, before the values that are left over are dealt with. -/
def insertHooks (base : MoveSequence) : Choice MoveSequence := do
  let (globalCtx, ptb) ← appendContextCreation st append ⟨base.inputs, []⟩
  let ptb ← appendHookCalls st append none globalCtx ptb st.sequenceHooks.preHooks
  let d ← decorateCommands st append ⟨ptb, []⟩ base.commands
  let ptb ← appendHookCalls st append none globalCtx d.ptb st.sequenceHooks.postHooks
  appendContextDestruction st append ptb globalCtx

def decorate (base : MoveSequence) : Choice MoveSequence := do
  let ptb ← insertHooks st append base
  let ptb ← Choice.expect (processBalance st ptb)
  Choice.expect (processKeyStore st ptb)

end

def applyHooks (st : FuzzState) (base : MoveSequence) : Choice MoveSequence :=
  decorate st (fun ptb ident fixedArgs fixedTyArgs used =>
    appendTop st ptb ident fixedArgs fixedTyArgs used true) base

end Movy.Fuzz
