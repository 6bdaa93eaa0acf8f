import Mathlib.Data.List.DropRight
import Movy.Fuzz.ObjectData

/-!
# After a sequence (`movy-fuzz/src/mutators/sequence/post.rs`)

Balances that are left over are turned into coins, and objects with `key` and
`store` are sent to the attacker. Both are taken off again before a sequence is
mutated.
-/

namespace Movy.Fuzz

open Movy.Types Movy.Store

def processKeyStore (st : FuzzState) (ptb : MoveSequence) : Option MoveSequence :=
  (ObjectData.fromPtb st ptb).map fun objectData =>
    if objectData.keyStoreObjects.isEmpty then ptb
    else
      ⟨ptb.inputs ++ [.address st.attacker],
        ptb.commands ++ [.transferObjects objectData.keyStoreObjects
          (.input (asU16 ptb.inputs.length))]⟩

/- The last command is a transfer to an input. -/
def endsInTransfer (commands : List MoveSequenceCall) : Bool :=
  match commands.getLast? with
  | some (.transferObjects _ (.input _)) => true
  | _ => false

def removeProcessKeyStore (ptb : MoveSequence) : MoveSequence :=
  if endsInTransfer ptb.commands then ⟨ptb.inputs.dropLast, ptb.commands.dropLast⟩ else ptb

/- The command and the result that a balance stands for. -/
def balanceIndex : SequenceArgument → Option (U16 × U16)
  | .result i => some (i, 0)
  | .nestedResult i j => some (i, j)
  | _ => none

/- The coin type of a balance, from the call that returned it. -/
def balanceTyArg (st : FuzzState) (ptb : MoveSequence) (balance : SequenceArgument) :
    Option MoveTypeTag := do
  let (idx, retIdx) ← balanceIndex balance
  match ptb.commands[idx.val]? with
  | some (.call movecall) => do
    let function ← st.getCalled movecall
    match function.returnParamters[retIdx.val]? with
    | some (.structInstantiation _ (.typeParameter j _ :: _)) => movecall.typeArguments[j.val]?
    | some (.structInstantiation _ (ty :: _)) => ty.subst SortedMap.empty
    | _ => none
  | _ => none

def fromBalanceCall (tyArg : MoveTypeTag) (balance : SequenceArgument) : MoveSequenceCall :=
  .call ⟨MoveAddress.two, "coin", "from_balance", [tyArg], [balance]⟩

/- The loop over the balances. -/
def convertBalances (st : FuzzState) :
    MoveSequence → List SequenceArgument → Option MoveSequence
  | ptb, [] => some ptb
  | ptb, balance :: rest => do
    let tyArg ← balanceTyArg st ptb balance
    convertBalances st { ptb with commands := ptb.commands ++ [fromBalanceCall tyArg balance] } rest

def processBalance (st : FuzzState) (ptb : MoveSequence) : Option MoveSequence := do
  let objectData ← ObjectData.fromPtb st ptb
  convertBalances st ptb objectData.balances

def isFromBalance : MoveSequenceCall → Bool
  | .call movecall => movecall.moduleId = MoveAddress.two && movecall.moduleName = "coin" &&
      movecall.function = "from_balance"
  | _ => false

def removeProcessBalance (ptb : MoveSequence) : MoveSequence :=
  { ptb with commands := ptb.commands.rdropWhile isFromBalance }

end Movy.Fuzz
