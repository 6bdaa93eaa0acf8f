import Movy.Fuzz.Overflow
import Movy.Fuzz.Proceeds
import Movy.Fuzz.SymbolOracles
import Movy.Replay.Exec

/-!
# Executing a sequence under the oracles (`movy-fuzz/src/executor.rs`, `tracer/oracle.rs`)

The fuzzer's oracles form one tuple, in which each may be disabled. `run_target`
traces the execution of a sequence under them, commits what the transaction has
written to a cache over the database, asks the oracles again, and calls the run
a crash if there are findings. The oracles and the cache of packages are handed
on from run to run.

`none` stands for a panic of an oracle, or for an error of `run_target`: either
ends the campaign.
-/

namespace Movy.Fuzz

open Movy.Tracer Movy.Types Movy.Store
open Movy.Replay (SuiEvent)
open Proceeds (ObjectView Effects ProceedsFinding Reader)

/-! ### Oracles -/

/- None of the oracles returns an error. -/
structure SuiGeneralOracle (σ φ δ : Type) where
  preExecution : σ → MoveSequence → σ
  beforeInstruction :
    σ → ℕ → Bytecode → TraceState → ConcolicState → Tracer.FunctionIdent → Option (σ × List φ)
  doneExecution : σ → δ → Option (σ × List φ)

namespace SuiGeneralOracle

variable {σ τ φ δ : Type}

def unit : SuiGeneralOracle Unit φ δ where
  preExecution s _ := s
  beforeInstruction s _ _ _ _ _ := some (s, [])
  doneExecution s _ := some (s, [])

def pair (o₁ : SuiGeneralOracle σ φ δ) (o₂ : SuiGeneralOracle τ φ δ) :
    SuiGeneralOracle (σ × τ) φ δ where
  preExecution s sequence := (o₁.preExecution s.1 sequence, o₂.preExecution s.2 sequence)
  beforeInstruction s pc ins traceState symbolStack func := do
    let (s₁, found₁) ← o₁.beforeInstruction s.1 pc ins traceState symbolStack func
    let (s₂, found₂) ← o₂.beforeInstruction s.2 pc ins traceState symbolStack func
    some ((s₁, s₂), found₁ ++ found₂)
  doneExecution s done := do
    let (s₁, found₁) ← o₁.doneExecution s.1 done
    let (s₂, found₂) ← o₂.doneExecution s.2 done
    some ((s₁, s₂), found₁ ++ found₂)

def couldDisabled (oracle : SuiGeneralOracle σ φ δ) (disabled : Bool) :
    SuiGeneralOracle σ φ δ where
  preExecution s sequence := if disabled then s else oracle.preExecution s sequence
  beforeInstruction s pc ins traceState symbolStack func :=
    if disabled then some (s, [])
    else oracle.beforeInstruction s pc ins traceState symbolStack func
  doneExecution s done := if disabled then some (s, []) else oracle.doneExecution s done

end SuiGeneralOracle

/-! ### The seven oracles -/

inductive TypedBug where
  | abortCode (code : ℕ)
  | event (event : SuiEvent)

inductive Finding (Owner TypeTag : Type) where
  | defect (f : OracleFinding)
  | proceeds (f : ProceedsFinding Owner TypeTag)
  | typedBug (extra : TypedBug)

/- What the oracles are shown after an execution: the outcome so far, the effects
and a reader of the committed store. `abortCode` is that of a `MoveAbort`. -/
structure Done (Owner : Type) where
  get : Reader
  gasId : ObjectID
  allowedSuccess : Bool
  events : List SuiEvent
  effects : Effects Owner
  abortCode : Option ℕ

section

variable {Owner TypeTag : Type} [LinearOrder Owner] [LinearOrder TypeTag]

/- An oracle that looks at instructions only. -/
def atInstructions {σ δ : Type}
    (before : σ → ℕ → Bytecode → TraceState → ConcolicState → Tracer.FunctionIdent →
      Option (σ × List OracleFinding)) : SuiGeneralOracle σ (Finding Owner TypeTag) δ where
  preExecution s _ := s
  beforeInstruction s pc ins traceState symbolStack func :=
    (before s pc ins traceState symbolStack func).map fun r => (r.1, r.2.map Finding.defect)
  doneExecution s _ := some (s, [])

namespace TypeConversionOracle

def finding (func : Tracer.FunctionIdent) (pc : ℕ) : OracleFinding :=
  ⟨"TypeConversionOracle", .minor, func, pc⟩

/- A cast to the width that the operand has; `none` is the panic on an operand
that is no primitive value. -/
def beforeInstruction (pc : ℕ) (instruction : Bytecode) (traceState : TraceState)
    (currentFunction : Tracer.FunctionIdent) : Option (List OracleFinding) :=
  match traceState.operandStack with
  | [] => some []
  | val :: _ => match instruction with
    | .castU w => (valueBitwidth val).map fun n =>
      if n = w.bits then [finding currentFunction pc] else []
    | _ => some []

end TypeConversionOracle

def typedBugAbortCode : ℕ := 19260817

def typedBugFindings (useAbort : Bool) (done : Done Owner) : List (Finding Owner TypeTag) :=
  if useAbort then
    match done.abortCode with
    | some code => if code = typedBugAbortCode then [.typedBug (.abortCode code)] else []
    | none => []
  else if done.allowedSuccess then
    match done.events.find? fun event => event.module = "oracle" && event.name = "Crash" with
    | some event => [.typedBug (.event event)]
    | none => []
  else []

abbrev FuzzOracle (Owner TypeTag σ : Type) := SuiGeneralOracle σ (Finding Owner TypeTag) (Done Owner)

def boolJudgementOracle : FuzzOracle Owner TypeTag Unit :=
  atInstructions fun s pc ins _ symbolStack func =>
    some (s, BoolJudgementOracle.beforeInstruction pc ins symbolStack func)

def infiniteLoopOracle (hash : LoopHash) : FuzzOracle Owner TypeTag InfiniteLoopOracle :=
  atInstructions fun s pc ins _ symbolStack func =>
    some (s.beforeInstruction hash pc ins symbolStack func)

def precisionLossOracle : FuzzOracle Owner TypeTag Unit :=
  atInstructions fun s pc ins _ symbolStack func =>
    some (s, PrecisionLossOracle.beforeInstruction pc ins symbolStack func)

def typeConversionOracle : FuzzOracle Owner TypeTag Unit :=
  atInstructions fun s pc ins traceState _ func =>
    (TypeConversionOracle.beforeInstruction pc ins traceState func).map fun found => (s, found)

def overflowOracle : FuzzOracle Owner TypeTag Unit :=
  atInstructions fun s pc ins traceState _ func =>
    (OverflowOracle.beforeInstruction pc ins traceState func).map fun found => (s, found)

/- The oracle remembers the objects among the inputs. -/
def proceedsOracle (V : ObjectView Owner TypeTag) :
    FuzzOracle Owner TypeTag (List Proceeds.InputObjectKind) where
  preExecution _ sequence := Proceeds.preExecution sequence
  beforeInstruction s _ _ _ _ _ := some (s, [])
  doneExecution s done :=
    (Proceeds.doneExecution V done.get (some done.allowedSuccess) s done.gasId
      done.effects).map fun found => (s, found.map Finding.proceeds)

def typedBugOracle (useAbort : Bool) : FuzzOracle Owner TypeTag Unit where
  preExecution s _ := s
  beforeInstruction s _ _ _ _ _ := some (s, [])
  doneExecution s done := some (s, typedBugFindings useAbort done)

abbrev OracleStates :=
  Unit × InfiniteLoopOracle × Unit × Unit × Unit × List Proceeds.InputObjectKind × Unit × Unit

open SuiGeneralOracle in
def oracles (hash : LoopHash) (V : ObjectView Owner TypeTag)
    (typedBugAbort disableProfitOracle disableDefectsOracle : Bool) :
    FuzzOracle Owner TypeTag OracleStates :=
  pair (couldDisabled boolJudgementOracle disableDefectsOracle) <|
  pair (couldDisabled (infiniteLoopOracle hash) disableDefectsOracle) <|
  pair (couldDisabled precisionLossOracle disableDefectsOracle) <|
  pair (couldDisabled typeConversionOracle disableDefectsOracle) <|
  pair (couldDisabled overflowOracle disableDefectsOracle) <|
  pair (couldDisabled (proceedsOracle V) disableProfitOracle) <|
  pair (couldDisabled (typedBugOracle typedBugAbort) false) unit

/-! ### Tracing -/

variable {σ φ δ : Type}

/- The oracle as the tracer calls it; a panic is excluded beforehand. -/
def oracleHooks (O : SuiGeneralOracle σ φ δ) (db : PackageStore) : Hooks σ φ where
  db := db
  oracle s pc ins traceState symbolStack func :=
    match O.beforeInstruction s pc ins traceState symbolStack func with
    | some r => (r.1, some r.2)
    | none => (s, none)

/- The oracle panics at an event. -/
def panics (O : SuiGeneralOracle σ φ δ) (w : MovySuiTracerWrapper σ φ) (ev : TraceEvent) : Bool :=
  match ev with
  | .instruction pc ins =>
    let tracer := w.tracer.onRawEvent w.state ev
    match tracer.currentFunctions.head? with
    | some (_, func) =>
      (O.beforeInstruction tracer.oracles pc ins w.state tracer.concolic func).isNone
    | none => false
  | _ => false

def traceEvent (O : SuiGeneralOracle σ φ δ) (db : PackageStore) (w : MovySuiTracerWrapper σ φ)
    (ev : TraceEvent) : Option (MovySuiTracerWrapper σ φ) :=
  if panics O w ev then none else w.notify (oracleHooks O db) ev

/-! ### `run_target` -/

/- What the engine makes of a sequence. -/
structure Execution (Owner : Type) where
  trace : List TraceEvent
  store : InnerTemporaryStore
  effects : Effects Owner
  events : List SuiEvent
  abortCode : Option ℕ

inductive ExitKind where
  | ok
  | crash
  deriving DecidableEq

/- `ExecutionOutcome` and `ExecutionExtraOutcome`. -/
structure GlobalOutcome (φ : Type) where
  eventsVerdict : ExitKind
  events : List SuiEvent
  allowedSuccess : Bool
  findings : List φ
  logs : Tracer.FunctionIdent → List Log
  solver : ConcolicState
  stageIdx : Option ℕ

structure SuiFuzzExecutor (σ : Type) where
  oracles : σ
  packagesCache : PackageResolvedCache

structure FuzzEnv (Owner : Type) where
  db : BackingStore
  packages : PackageStore
  execute : MoveSequence → Option (Execution Owner)
  gasId : ObjectID

def verdict (crash : Bool) (findings : List φ) : ExitKind :=
  if !findings.isEmpty then .crash else if crash then .crash else .ok

def runTarget (env : FuzzEnv Owner) (O : SuiGeneralOracle σ φ (Done Owner))
    (self : SuiFuzzExecutor σ) (sequence : MoveSequence) :
    Option (GlobalOutcome φ × SuiFuzzExecutor σ) := do
  let oracles := O.preExecution self.oracles sequence
  let run ← env.execute sequence
  let tracer := { (SuiFuzzTracer.new oracles : SuiFuzzTracer σ φ) with
    resolver := self.packagesCache }
  let w ← run.trace.foldlM (traceEvent O env.packages) ⟨tracer, TraceState.new⟩
  let db ← (CachedStore.new env.db).commitStore run.store run.effects.toTransactionEffects
  let (stageIdx, success) := recordedStage sequence run.effects.status
  let (oracles, oracleVulns) ← O.doneExecution w.tracer.oracles
    ⟨fun id v => (db.getObjectByKey id v).1, env.gasId, success, run.events, run.effects,
      run.abortCode⟩
  let findings := w.tracer.findings ++ oracleVulns
  some (⟨verdict w.tracer.crash findings, run.events, success, findings, w.tracer.logs,
    w.tracer.concolic, stageIdx⟩, ⟨oracles, w.tracer.resolver⟩)

def campaign (env : FuzzEnv Owner) (O : SuiGeneralOracle σ φ (Done Owner)) :
    SuiFuzzExecutor σ → List MoveSequence → Option (List (GlobalOutcome φ))
  | _, [] => some []
  | self, sequence :: rest => do
    let (outcome, next) ← runTarget env O self sequence
    let outcomes ← campaign env O next rest
    some (outcome :: outcomes)

end

end Movy.Fuzz
