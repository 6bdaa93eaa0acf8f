import Movy.Lib.Run
import Movy.Tracer.Concolic

/-!
# The fuzz tracer (`movy-replay/src/tracer/fuzz.rs`, `tracer/mod.rs`)

`SuiFuzzTracer` hands each event to the concolic engine, asks the oracles, and
logs comparisons, shifts and casts under the function that the transaction
called. `MovySuiTracerWrapper` feeds it the events of the trace and keeps the
`TraceState` beside it: a handler sees the state before the event.
-/

namespace Movy.Tracer

open Movy.Store (ObjectID)

structure FunctionIdent where
  moduleId : MoveModuleId
  name : String
  deriving DecidableEq

inductive CmpOp where
  | lt
  | le
  | gt
  | ge
  | neq
  | eq
  deriving DecidableEq

def CmpOp.tryFrom : Bytecode → Option CmpOp
  | .le => some .le
  | .lt => some .lt
  | .ge => some .ge
  | .gt => some .gt
  | .neq => some .neq
  | .eq => some .eq
  | _ => none

inductive Log where
  | cmpLog (lhs rhs : Magic) (op : CmpOp) (constraint : Option ZBool)
  | shlLog (lhs rhs : Magic) (constraint : Option ZBool)
  | castLog (lhs : Magic) (constraint : Option ZBool)

/- What the tracer calls: the package store, and the oracles with a state of
their own. An oracle's error is `none`. -/
structure Hooks (σ φ : Type) where
  db : PackageStore
  oracle : σ → ℕ → Bytecode → TraceState → ConcolicState → FunctionIdent → σ × Option (List φ)

/- The innermost function is first. `logs` maps a function without an entry to
the empty list. -/
structure SuiFuzzTracer (σ φ : Type) where
  currentFunctions : List (ObjectID × FunctionIdent)
  oracles : σ
  logs : FunctionIdent → List Log
  crash : Bool
  findings : List φ
  concolic : ConcolicState
  skipConcolic : Bool
  resolver : PackageResolvedCache

namespace SuiFuzzTracer

variable {σ φ : Type} (hooks : Hooks σ φ)

def new (oracles : σ) : SuiFuzzTracer σ φ where
  currentFunctions := []
  oracles := oracles
  logs := fun _ => []
  crash := false
  findings := []
  concolic := ConcolicState.new
  skipConcolic := false
  resolver := ⟨fun _ => none⟩

/- `None` is the error for a short stack or a value without magic. -/
def binOps (stack : List TraceValue) : Option (Magic × Magic) := do
  let (lhs, rhs) ← stackTop2 stack
  some (← Magic.tryFrom lhs, ← Magic.tryFrom rhs)

def record (self : SuiFuzzTracer σ φ) (log : Log) : SuiFuzzTracer σ φ :=
  match self.currentFunctions.getLast? with
  | none => self
  | some (_, f) => { self with logs := Function.update self.logs f (self.logs f ++ [log]) }

def logInstruction (self : SuiFuzzTracer σ φ) (state : TraceState) (instruction : Bytecode)
    (constraint : Option ZBool) : SuiFuzzTracer σ φ :=
  match instruction with
  | .lt | .le | .ge | .gt | .neq | .eq =>
    match binOps state.operandStack, CmpOp.tryFrom instruction with
    | some (lhs, rhs), some op => self.record (.cmpLog lhs rhs op constraint)
    | _, _ => self
  | .shl =>
    match binOps state.operandStack with
    | some (lhs, rhs) => self.record (.shlLog lhs rhs constraint)
    | none => self
  | .castU .w8 | .castU .w16 | .castU .w32 | .castU .w64 | .castU .w128 =>
    match state.operandStack.head?.bind Magic.tryFrom with
    | some lhs => self.record (.castLog lhs constraint)
    | none => self
  | _ => self

/- The part of `before_instruction` after the oracles. -/
def traceInstruction (self : SuiFuzzTracer σ φ) (state : TraceState) (instruction : Bytecode) :
    Option (SuiFuzzTracer σ φ) := do
  let extra ← match self.currentFunctions.head? with
    | none => some none
    | some (pkg, f) =>
      InstructionExtraInformation.fromResolver instruction self.resolver pkg f.moduleId
  let (concolic, constraint) ←
    if self.skipConcolic = true then some (self.concolic, none)
    else self.concolic.onBeforeInstructionInner instruction state extra
  some ({ self with concolic := concolic }.logInstruction state instruction constraint)

/- An error of the oracles ends the handler, and is logged. -/
def beforeInstruction (self : SuiFuzzTracer σ φ) (state : TraceState) (pc : ℕ)
    (instruction : Bytecode) : Option (SuiFuzzTracer σ φ) :=
  match self.currentFunctions.head? with
  | none => self.traceInstruction state instruction
  | some (_, f) =>
    match hooks.oracle self.oracles pc instruction state self.concolic f with
    | (oracles, none) => some { self with oracles := oracles }
    | (oracles, some findings) =>
      { self with
        oracles := oracles
        crash := self.crash || !findings.isEmpty
        findings := self.findings ++ findings }.traceInstruction state instruction

def onRawEvent (self : SuiFuzzTracer σ φ) (state : TraceState) (ev : TraceEvent) :
    SuiFuzzTracer σ φ :=
  let (concolic, keep) := self.concolic.onRawEventInner ev state
  { self with concolic := concolic, skipConcolic := !keep }

def onMoveCall (self : SuiFuzzTracer σ φ) : SuiFuzzTracer σ φ :=
  if self.skipConcolic = true then self
  else { self with concolic := self.concolic.onMoveCallInner }

def openFrame (self : SuiFuzzTracer σ φ) (frame : Frame) : SuiFuzzTracer σ φ :=
  { self with
    resolver := (mayLoadPackage hooks.db self.resolver frame.versionId).1
    concolic := if self.skipConcolic = true then self.concolic
      else self.concolic.onOpenFrameInner frame
    currentFunctions :=
      (frame.versionId, ⟨frame.moduleId, frame.functionName⟩) :: self.currentFunctions }

def closeFrame (self : SuiFuzzTracer σ φ) : SuiFuzzTracer σ φ :=
  { self with
    concolic := if self.skipConcolic = true then self.concolic
      else self.concolic.onCloseFrameInner
    currentFunctions := self.currentFunctions.tail }

end SuiFuzzTracer

structure MovySuiTracerWrapper (σ φ : Type) where
  tracer : SuiFuzzTracer σ φ
  state : TraceState

namespace MovySuiTracerWrapper

variable {σ φ : Type} (hooks : Hooks σ φ)

def new (oracles : σ) : MovySuiTracerWrapper σ φ := ⟨SuiFuzzTracer.new oracles, TraceState.new⟩

def handle (tracer : SuiFuzzTracer σ φ) (state : TraceState) :
    TraceEvent → Option (SuiFuzzTracer σ φ)
  | .external .moveCallStart => some tracer.onMoveCall
  | .external .other => some tracer
  | .openFrame frame => some (tracer.openFrame hooks frame)
  | .closeFrame _ => some tracer.closeFrame
  | .effect _ => some tracer
  | .instruction pc ins => tracer.beforeInstruction hooks state pc ins

def notify (self : MovySuiTracerWrapper σ φ) (event : TraceEvent) :
    Option (MovySuiTracerWrapper σ φ) := do
  let tracer ← handle hooks (self.tracer.onRawEvent self.state event) self.state event
  let state ← self.state.applyEvent event
  some ⟨tracer, state⟩

end MovySuiTracerWrapper

end Movy.Tracer
