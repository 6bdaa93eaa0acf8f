import Movy.Analysis.ExportCallGraph
import Movy.Fuzz.FromMetadata
import Movy.Lib.IndexedGraph
import Movy.Lib.IndexMap
import Movy.Types.FromModule

/-!
# The calls of a module (`movy-types/src/bytecode.rs`, `movy-analysis/src/call_graph.rs`)

The analysis of a module lists the calls in the code of each of its functions. The
call graph has a node for every function that calls or is called, and the edges of a
function are its calls without repetitions. A module is added once.
-/

namespace Movy.Bytecode

open Movy.Types Movy.Types.Published
open Movy.Fuzz (MoveFunctionAbi FunctionIdent)
open Movy.Analysis.CallGraph (MoveFunctionCall)

deriving instance DecidableEq for Fuzz.MoveFunctionAbi
deriving instance DecidableEq for Analysis.CallGraph.MoveFunctionCall

/-! ### `from_sui_module` -/

section

variable (module : CompiledModule)

/- The inner `none` is a name that no definition has. -/
def findFunctionDefByName (name : String) :
    List FunctionDefinition → Option (Option FunctionDefinition)
  | [] => some none
  | fdef :: rest => do
    let handle ← functionHandleAt module fdef.function
    let found ← module.identifiers[handle.1.name]?
    if found = name then some (some fdef) else findFunctionDefByName name rest

def calledModule (fcall : Sui.MemberHandle × FunctionInfo) : Option (MoveAddress × String) :=
  (module.moduleHandles[fcall.1.module]?).bind module.resolve

def handleFcall (fcall : Sui.MemberHandle × FunctionInfo) : Option MoveFunctionAbi := do
  let fcallFunction ← module.identifiers[fcall.1.name]?
  let fcallModule ← calledModule module fcall
  let own ← module.selfHandle.bind module.resolve
  let fdef ← if fcallModule = own then
      findFunctionDefByName module fcallFunction module.functionDefs
    else some none
  match fdef with
  | some fdef => MoveFunctionAbi.fromModuleDef module fdef
  | none => fromModuleFunctionHandleVisibility module fcall .public_

def callTo (fcall : Sui.MemberHandle × FunctionInfo) (tys : List MoveAbiSignatureToken) :
    Option MoveFunctionCall := do
  let abi ← handleFcall module fcall
  let target ← calledModule module fcall
  some ⟨⟨target.1, target.2⟩, abi, tys⟩

/- The inner `none` is an instruction that is no call. -/
def callOf (callerFunc : MoveFunctionAbi) : Tracer.Bytecode → Option (Option MoveFunctionCall)
  | .call call => do
    let fcall ← functionHandleAt module call
    let call ← callTo module fcall []
    some (some call)
  | .callGeneric inst => do
    let inst ← module.functionInstantiations[inst]?
    let fcall ← functionHandleAt module inst.handle
    let tys ← module.signatures[inst.typeParameters]?
    let tys ← fromSuiTokensModule module callerFunc.typeParameters tys
    let call ← callTo module fcall tys
    some (some call)
  | _ => some none

def callsOf (func : FunctionDefinition) : Option (MoveFunctionAbi × List MoveFunctionCall) := do
  let callerFunc ← MoveFunctionAbi.fromModuleDef module func
  let calls ← (func.code.getD []).mapM (callOf module callerFunc)
  some (callerFunc, calls.reduceOption)

end

structure MoveModuleBytecodeAnalysis where
  abi : MoveModuleAbi
  calls : List (MoveFunctionAbi × List MoveFunctionCall)

def MoveModuleBytecodeAnalysis.fromSuiModule (module : CompiledModule) :
    Option MoveModuleBytecodeAnalysis := do
  let abi ← MoveModuleAbi.fromSuiModule module
  let calls ← module.functionDefs.mapM (callsOf module)
  some ⟨abi, calls⟩

/-! ### `MoveCallGraph` -/

abbrev MoveCallGraphNode := FunctionIdent

abbrev MoveCallGraphEdge := List MoveAbiSignatureToken

structure MoveCallGraph where
  graph : IndexedGraph MoveCallGraphNode MoveCallGraphEdge
  modules : List MoveModuleId

def MoveFunctionCall.node (call : MoveFunctionCall) : MoveCallGraphNode :=
  ⟨call.module, call.abi.name⟩

/- A caller with its calls, of which each counts once. -/
def callRow (id : MoveModuleId) (e : MoveFunctionAbi × List MoveFunctionCall) :
    MoveCallGraphNode × List (MoveCallGraphNode × MoveCallGraphEdge) :=
  (⟨id, e.1.name⟩, (firstOccurrences e.2).map fun call => (MoveFunctionCall.node call, call.tys))

namespace MoveCallGraph

def new : MoveCallGraph := ⟨.empty, []⟩

def addBytecodeAnalysis (self : MoveCallGraph) (result : MoveModuleBytecodeAnalysis) :
    MoveCallGraph :=
  if result.abi.moduleId ∈ self.modules then self
  else ⟨(result.calls.map (callRow result.abi.moduleId)).foldl IndexedGraph.addRow self.graph,
    result.abi.moduleId :: self.modules⟩

def ofAnalyses (results : List MoveModuleBytecodeAnalysis) : MoveCallGraph :=
  results.foldl addBytecodeAnalysis new

end MoveCallGraph

/-! ### What the graph has -/

def rowsOf (result : MoveModuleBytecodeAnalysis) :
    List (MoveCallGraphNode × List (MoveCallGraphNode × MoveCallGraphEdge)) :=
  result.calls.map (callRow result.abi.moduleId)

/- The analyses that count: the first of each module. -/
def firstOfEach : List MoveModuleId → List MoveModuleBytecodeAnalysis →
    List MoveModuleBytecodeAnalysis
  | _, [] => []
  | seen, result :: rest =>
    if result.abi.moduleId ∈ seen then firstOfEach seen rest
    else result :: firstOfEach (result.abi.moduleId :: seen) rest

/- The nodes are the functions that call and those that are called; by names, the
edges are the calls of the first analysis of each module, in the order of the code. -/
theorem call_graph_exact (results : List MoveModuleBytecodeAnalysis) :
    (MoveCallGraph.ofAnalyses results).graph.Indexed ∧
      (∀ n, n ∈ (MoveCallGraph.ofAnalyses results).graph.nodes ↔
        ∃ result ∈ firstOfEach [] results, ∃ row ∈ rowsOf result,
          n = row.1 ∨ n ∈ row.2.map Prod.fst) ∧
      (MoveCallGraph.ofAnalyses results).graph.named =
        (firstOfEach [] results).flatMap fun result => (rowsOf result).flatMap fun row =>
          row.2.map fun e => (row.1, e.1, e.2) := by
  have hrun : ∀ self : MoveCallGraph, self.graph.Indexed →
      IndexedGraph.Extends self.graph (results.foldl MoveCallGraph.addBytecodeAnalysis self).graph
        ((firstOfEach self.modules results).flatMap fun result =>
          (rowsOf result).flatMap fun row => row.1 :: row.2.map Prod.fst)
        ((firstOfEach self.modules results).flatMap fun result =>
          (rowsOf result).flatMap fun row => row.2.map fun e => (row.1, e.1, e.2)) := by
    induction results with
    | nil => exact fun self h => .refl h
    | cons result rest ih =>
      intro self h
      rw [List.foldl_cons, MoveCallGraph.addBytecodeAnalysis, firstOfEach]
      split_ifs with hseen
      · exact ih self h
      · have hrows := IndexedGraph.extends_addRows h (rowsOf result)
        rw [List.flatMap_cons, List.flatMap_cons]
        exact hrows.trans (ih ⟨(rowsOf result).foldl IndexedGraph.addRow self.graph,
          result.abi.moduleId :: self.modules⟩ hrows.indexed)
  obtain ⟨hindexed, -, hmembers, hedges⟩ := hrun MoveCallGraph.new IndexedGraph.indexed_empty
  refine ⟨hindexed, fun n => ?_, hedges⟩
  rw [MoveCallGraph.ofAnalyses, hmembers]
  simp [MoveCallGraph.new, IndexedGraph.empty]

end Movy.Bytecode
