import Movy.Fuzz.Meta
import Movy.Lib.SortedMap
import Movy.Types.AddressText
import Movy.Types.Published
import Mathlib.Data.Prod.Lex
import Mathlib.Data.String.Basic

/-!
# The call graph of a package (`movy-analysis/src/export_call_graph.rs`)

`load_call_graph` walks over the modules of a package and its dependencies and
numbers contracts and functions as it meets them. The calls are collected by
caller; afterwards each callee that was not met gets a function of its own, in
the contract of its module, and the calls are entered with the numbers of both
ends. What the walk over the file system finds for a module is part of the
module here.
-/

namespace Movy.Analysis.CallGraph

open Movy.Types
open Movy.Fuzz (MoveFunctionAbi MoveFunctionVisibility)

/-! ### Modules -/

structure MoveFunctionCall where
  module : MoveModuleId
  abi : MoveFunctionAbi
  tys : List MoveAbiSignatureToken

/- A function with the calls of its code. -/
structure FunctionDef where
  abi : MoveFunctionAbi
  isEntry : Bool
  calls : List MoveFunctionCall

/- The functions of a module have different names. `sourcePath` is what
`infer_relative_source_path` finds. -/
structure CompiledModule where
  address : MoveAddress
  name : String
  sourcePath : String
  structs : List Published.MoveStructAbi
  functions : List FunctionDef
  nodup : (functions.map fun f => f.abi.name).Nodup

/-! ### Rendering -/

def MoveAbility.render (self : MoveAbility) : String :=
  " + ".intercalate ((if self.drop then ["drop"] else []) ++ (if self.store then ["store"] else []) ++
    (if self.key then ["key"] else []) ++ if self.copy then ["copy"] else [])

def MoveAbility.toStringWithName (self : MoveAbility) (name : String) : String :=
  if self = MoveAbility.empty then name else name ++ ": " ++ MoveAbility.render self

def MoveStructTypeParameters.toStringWithName (self : MoveStructTypeParameters) (name : String) :
    String :=
  (if self.phantom then "phantom " else "") ++ MoveAbility.toStringWithName self.constraints name

def renderStruct (alternate : Bool) (s : MoveStructHandle) : String :=
  (if alternate then short s.moduleId.moduleAddress
    else canonicalString s.moduleId.moduleAddress true) ++ "::" ++ s.moduleId.moduleName ++ "::" ++
    s.structName

mutual

/- With short addresses in the alternate form (`{:#}`). -/
def renderToken (alternate : Bool) : MoveAbiSignatureToken → String
  | .bool => "bool"
  | .u8 => "u8"
  | .u16 => "u16"
  | .u32 => "u32"
  | .u64 => "u64"
  | .u128 => "u128"
  | .u256 => "u256"
  | .address => "address"
  | .signer => "signer"
  | .vector v => "vector<" ++ renderToken alternate v ++ ">"
  | .struct s =>
    renderStruct alternate s ++
      if s.typeParameters.isEmpty then ""
      else "<" ++ ", ".intercalate (s.typeParameters.zipIdx.map fun e =>
        MoveStructTypeParameters.toStringWithName e.1 ("ST" ++ toString e.2)) ++ ">"
  | .structInstantiation s insts =>
    renderStruct alternate s ++
      if s.typeParameters.isEmpty then ""
      else "<" ++ ", ".intercalate (renderTokens alternate insts) ++ ">"
  | .mutableReference v => "&mut " ++ renderToken alternate v
  | .reference v => "&" ++ renderToken alternate v
  | .typeParameter idx _ => "T" ++ toString idx.val

def renderTokens (alternate : Bool) : List MoveAbiSignatureToken → List String
  | [] => []
  | t :: ts => renderToken alternate t :: renderTokens alternate ts

end

def renderArgs (function : MoveFunctionAbi) : String :=
  ", ".intercalate (renderTokens true function.parameters)

def renderReturns (function : MoveFunctionAbi) : String :=
  ", ".intercalate (renderTokens true function.returnParamters)

def renderCallDescription (typeArguments : List MoveAbiSignatureToken) : Option String :=
  if typeArguments.isEmpty then none
  else some ("type_args=<" ++ ", ".intercalate (renderTokens true typeArguments) ++ ">")

def renderVisibility : MoveFunctionVisibility → String
  | .private_ => "private"
  | .public_ => "public"
  | .friend => "friend"

/-! ### Names -/

/- The Unicode white space. -/
def isWhiteSpace (c : Char) : Bool :=
  (9 ≤ c.toNat && c.toNat ≤ 13) || c.toNat = 0x20 || c.toNat = 0x85 || c.toNat = 0xa0 ||
    c.toNat = 0x1680 || (0x2000 ≤ c.toNat && c.toNat ≤ 0x200a) || c.toNat = 0x2028 ||
    c.toNat = 0x2029 || c.toNat = 0x202f || c.toNat = 0x205f || c.toNat = 0x3000

def trim (value : List Char) : List Char :=
  ((value.dropWhile isWhiteSpace).reverse.dropWhile isWhiteSpace).reverse

def stripPrefix0x : List Char → List Char
  | '0' :: 'x' :: rest => rest
  | value => value

def canonicalizeAddress (value : String) : String :=
  let trimmed := (stripPrefix0x (trim value.toList)).dropWhile fun c => c = '0'
  let normalized := if trimmed.isEmpty then ['0'] else trimmed
  String.ofList (['0', 'x'] ++ normalized.map Char.toLower)

def canonicalModuleId (address moduleName : String) : String :=
  canonicalizeAddress address ++ "::" ++ moduleName

def isSuiStdModule (address : String) : Bool :=
  ["0x1", "0x2", "0x3", "0xd"].contains (canonicalizeAddress address)

def sanitizePathComponent (value : String) : String :=
  String.ofList (value.toList.map fun c =>
    if [':', '/', '\\', '*', '?', '"', '<', '>', '|'].contains c then '_' else c)

/- The text before and after the first `::`. -/
def splitOnce : List Char → Option (List Char × List Char)
  | ':' :: ':' :: rest => some ([], rest)
  | c :: rest => (splitOnce rest).map fun e => (c :: e.1, e.2)
  | [] => none

def syntheticRelativePath (moduleId : String) : String :=
  let parts := match splitOnce moduleId.toList with
    | some e => (String.ofList e.1, String.ofList e.2)
    | none => ("external", moduleId)
  "external/" ++ sanitizePathComponent parts.1 ++ "_" ++ sanitizePathComponent parts.2 ++ ".move"

/-! ### The graph -/

structure FunctionCall where
  id : ℕ
  fromId : ℕ
  toId : ℕ
  description : Option String

/- The numbers are `i32` in the source. They count from 1. -/
structure Function where
  id : ℕ
  name : String
  args : String
  relativeFilePath : String
  calls : List FunctionCall
  description : Option String

structure Contract where
  id : ℕ
  name : String
  relativeFilePath : String
  functions : List Function
  description : Option String

structure MoveFunctionKey where
  moduleId : String
  name : String

def MoveFunctionKey.order (self : MoveFunctionKey) : String ×ₗ String :=
  toLex (self.moduleId, self.name)

theorem MoveFunctionKey.order_injective : Function.Injective MoveFunctionKey.order := by
  intro a b h
  obtain ⟨hm, hn⟩ := Prod.mk.inj (toLex.injective h)
  cases a
  cases b
  simp only at hm hn
  rw [hm, hn]

instance : LinearOrder MoveFunctionKey := LinearOrder.lift' _ MoveFunctionKey.order_injective

structure PendingCall where
  callee : MoveFunctionKey
  args : String
  description : Option String

/- No description comes before any other. -/
def PendingCall.order (self : PendingCall) : MoveFunctionKey ×ₗ String ×ₗ Bool ×ₗ String :=
  toLex (self.callee, toLex (self.args, toLex (self.description.isSome, self.description.getD "")))

theorem PendingCall.order_injective : Function.Injective PendingCall.order := by
  intro a b h
  obtain ⟨hcallee, h⟩ := Prod.mk.inj (toLex.injective h)
  obtain ⟨hargs, h⟩ := Prod.mk.inj (toLex.injective h)
  obtain ⟨hsome, hget⟩ := Prod.mk.inj (toLex.injective h)
  obtain ⟨callee, args, description⟩ := a
  obtain ⟨callee', args', description'⟩ := b
  simp only at hcallee hargs hsome hget
  subst hcallee
  subst hargs
  cases description <;> cases description' <;> simp_all

instance : LinearOrder PendingCall := LinearOrder.lift' _ PendingCall.order_injective

/-! ### The walk -/

structure Exporter where
  nextContractId : ℕ
  nextFunctionId : ℕ
  contracts : SortedMap ℕ Contract
  seenModules : SortedMap String Unit
  moduleIds : SortedMap String ℕ
  functionIds : SortedMap MoveFunctionKey ℕ
  functionLocations : SortedMap ℕ (ℕ × ℕ)
  pendingCalls : SortedMap MoveFunctionKey (SortedMap PendingCall Unit)

def Exporter.new : Exporter where
  nextContractId := 1
  nextFunctionId := 1
  contracts := SortedMap.empty
  seenModules := SortedMap.empty
  moduleIds := SortedMap.empty
  functionIds := SortedMap.empty
  functionLocations := SortedMap.empty
  pendingCalls := SortedMap.empty

def pendingCall (call : MoveFunctionCall) : PendingCall where
  callee :=
    ⟨canonicalModuleId (canonicalString call.module.moduleAddress true) call.module.moduleName,
      call.abi.name⟩
  args := renderArgs call.abi
  description := renderCallDescription call.tys

def addPending (targets : SortedMap PendingCall Unit) (calls : List MoveFunctionCall) :
    SortedMap PendingCall Unit :=
  calls.foldl (fun targets call => targets.insert (pendingCall call) ()) targets

def functionOf (functionId : ℕ) (path : String) (f : MoveFunctionAbi) : Function where
  id := functionId
  name := f.name
  args := renderArgs f
  relativeFilePath := path
  calls := []
  description := some (renderVisibility f.visibility ++ " " ++ f.name ++ "(" ++ renderArgs f ++ ")" ++
    if (renderReturns f).isEmpty then "" else ": " ++ renderReturns f)

/- The body of the loop over the functions of a module. -/
def exportFunction (moduleId : String) (contractId : ℕ) (path : String)
    (s : Exporter × List Function) (f : FunctionDef) : Exporter × List Function :=
  let functionId := s.1.nextFunctionId
  let functionKey : MoveFunctionKey := ⟨moduleId, f.abi.name⟩
  ({ s.1 with
      nextFunctionId := functionId + 1
      functionIds := s.1.functionIds.insert functionKey functionId
      functionLocations := s.1.functionLocations.insert functionId (contractId, s.2.length)
      pendingCalls := s.1.pendingCalls.insert functionKey
        (addPending ((s.1.pendingCalls.get? functionKey).getD SortedMap.empty) f.calls) },
    s.2 ++ [functionOf functionId path f.abi])

/- The address is written without a prefix here, and with one in `pendingCall`. -/
def CompiledModule.addressText (m : CompiledModule) : String := canonicalString m.address false

def CompiledModule.id (m : CompiledModule) : String := canonicalModuleId m.addressText m.name

def exportModule (s : Exporter) (m : CompiledModule) : Exporter :=
  if isSuiStdModule m.addressText then s
  else if (s.seenModules.get? m.id).isSome then s
  else
    let contractId := s.nextContractId
    let r := m.functions.foldl (exportFunction m.id contractId m.sourcePath)
      ({ s with
          nextContractId := contractId + 1
          seenModules := s.seenModules.insert m.id ()
          moduleIds := s.moduleIds.insert m.id contractId }, [])
    { r.1 with contracts :=
        r.1.contracts.insert contractId ⟨contractId, m.id, m.sourcePath, r.2, none⟩ }

/- The contract of a module, which is made up if it was not met. -/
def contractFor (s : Exporter) (moduleId : String) : Exporter × ℕ :=
  match s.moduleIds.get? moduleId with
  | some contractId => (s, contractId)
  | none =>
    let contractId := s.nextContractId
    ({ s with
        nextContractId := contractId + 1
        moduleIds := s.moduleIds.insert moduleId contractId
        contracts := s.contracts.insert contractId ⟨contractId, moduleId,
          syntheticRelativePath moduleId, [],
          some "external module referenced from Move call graph"⟩ }, contractId)

/- `none` is a failed `expect`. -/
def addCallee (s : Exporter) (call : PendingCall) : Option Exporter :=
  if (s.functionIds.get? call.callee).isSome then some s
  else
    let r := contractFor s call.callee.moduleId
    let functionId := r.1.nextFunctionId
    (r.1.contracts.get? r.2).map fun contract =>
      { r.1 with
        nextFunctionId := functionId + 1
        contracts := r.1.contracts.insert r.2 { contract with
          functions := contract.functions ++ [⟨functionId, call.callee.name, call.args,
            contract.relativeFilePath, [],
            some "external function referenced from Move bytecode"⟩] }
        functionIds := r.1.functionIds.insert call.callee functionId
        functionLocations :=
          r.1.functionLocations.insert functionId (r.2, contract.functions.length) }

def targetsOf (targets : SortedMap PendingCall Unit) : List PendingCall :=
  targets.entries.map Prod.fst

def addCallees (s : Exporter) : Option Exporter :=
  (s.pendingCalls.entries.flatMap fun e => targetsOf e.2).foldlM addCallee s

/- The next number for a call, and the calls so far. -/
def addCall (functionIds : SortedMap MoveFunctionKey ℕ) (callerId : ℕ)
    (s : ℕ × List FunctionCall) (call : PendingCall) : Option (ℕ × List FunctionCall) :=
  (functionIds.get? call.callee).map fun calleeId =>
    (s.1 + 1, s.2 ++ [⟨s.1, callerId, calleeId, call.description⟩])

def addCalls (s : Exporter) (r : ℕ × SortedMap ℕ Contract)
    (e : MoveFunctionKey × SortedMap PendingCall Unit) : Option (ℕ × SortedMap ℕ Contract) := do
  let callerId ← s.functionIds.get? e.1
  let (contractId, functionIndex) ← s.functionLocations.get? callerId
  let contract ← r.2.get? contractId
  let function ← contract.functions[functionIndex]?
  let (nextCallId, calls) ←
    (targetsOf e.2).foldlM (addCall s.functionIds callerId) (r.1, function.calls)
  some (nextCallId, r.2.insert contractId { contract with
    functions := contract.functions.set functionIndex { function with calls := calls } })

/- The contracts by their numbers. There are no interfaces. -/
def loadCallGraph (modules : List CompiledModule) : Option (SortedMap ℕ Contract) := do
  let s ← addCallees (modules.foldl exportModule Exporter.new)
  let r ← s.pendingCalls.entries.foldlM (addCalls s) (1, s.contracts)
  some r.2

end Movy.Analysis.CallGraph
