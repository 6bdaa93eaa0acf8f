import Movy.Tracer.Value

/-!
# The trace of a Move VM and its state (`movy-replay/src/tracer/state.rs`)

The events a tracing Move VM emits, and `TraceState`, which rebuilds the
operand stack, the locals and the loaded values from the effects among them.
The operand stack is a list with its top in front.
-/

namespace Movy.Tracer

open Movy.Store (ObjectID)
open Movy.Types (MoveTypeTag)

/- The instructions of the Move VM. `LdU8` .. `LdU256` are `ldU` and `CastU8` ..
`CastU256` are `castU` at their width; indices into the tables of a module
are numbers. -/
inductive Bytecode where
  | pop
  | ret
  | brTrue (offset : ℕ)
  | brFalse (offset : ℕ)
  | branch (offset : ℕ)
  | ldU (w : IntWidth) (n : Fin (2 ^ w.bits))
  | castU (w : IntWidth)
  | ldConst (idx : ℕ)
  | ldTrue
  | ldFalse
  | copyLoc (idx : ℕ)
  | moveLoc (idx : ℕ)
  | stLoc (idx : ℕ)
  | call (idx : ℕ)
  | callGeneric (idx : ℕ)
  | pack (idx : ℕ)
  | packGeneric (idx : ℕ)
  | packVariant (idx : ℕ)
  | packVariantGeneric (idx : ℕ)
  | unpack (idx : ℕ)
  | unpackGeneric (idx : ℕ)
  | unpackVariant (idx : ℕ)
  | unpackVariantImmRef (idx : ℕ)
  | unpackVariantMutRef (idx : ℕ)
  | unpackVariantGeneric (idx : ℕ)
  | unpackVariantGenericImmRef (idx : ℕ)
  | unpackVariantGenericMutRef (idx : ℕ)
  | variantSwitch (idx : ℕ)
  | readRef
  | writeRef
  | freezeRef
  | mutBorrowLoc (idx : ℕ)
  | immBorrowLoc (idx : ℕ)
  | mutBorrowField (idx : ℕ)
  | mutBorrowFieldGeneric (idx : ℕ)
  | immBorrowField (idx : ℕ)
  | immBorrowFieldGeneric (idx : ℕ)
  | add
  | sub
  | mul
  | mod
  | div
  | bitOr
  | bitAnd
  | xor
  | or
  | and
  | not
  | eq
  | neq
  | lt
  | gt
  | le
  | ge
  | abort
  | nop
  | shl
  | shr
  | vecPack (sig len : ℕ)
  | vecLen (sig : ℕ)
  | vecImmBorrow (sig : ℕ)
  | vecMutBorrow (sig : ℕ)
  | vecPushBack (sig : ℕ)
  | vecPopBack (sig : ℕ)
  | vecUnpack (sig len : ℕ)
  | vecSwap (sig : ℕ)
  | mutBorrowGlobalDeprecated (idx : ℕ)
  | mutBorrowGlobalGenericDeprecated (idx : ℕ)
  | immBorrowGlobalDeprecated (idx : ℕ)
  | immBorrowGlobalGenericDeprecated (idx : ℕ)
  | existsDeprecated (idx : ℕ)
  | existsGenericDeprecated (idx : ℕ)
  | moveFromDeprecated (idx : ℕ)
  | moveFromGenericDeprecated (idx : ℕ)
  | moveToDeprecated (idx : ℕ)
  | moveToGenericDeprecated (idx : ℕ)

inductive Effect where
  | executionError (message : String)
  | push (value : TraceValue)
  | pop (value : TraceValue)
  | read (location : Location) (moved : Bool)
  | write (location : Location) (rootValueAfterWrite : TraceValue)
  | dataLoad (location : Location) (snapshot : MoveValue)

inductive RefType where
  | imm
  | mut

structure TypeTagWithRefs where
  type : MoveTypeTag
  refType : Option RefType

structure MoveModuleId where
  moduleAddress : ObjectID
  moduleName : String
  deriving DecidableEq

/- `versionId` is the id of the package the function was loaded from. -/
structure Frame where
  frameId : ℕ
  functionName : String
  moduleId : MoveModuleId
  versionId : ObjectID
  parameters : List TraceValue
  returnTypes : List TypeTagWithRefs
  localsTypes : List TypeTagWithRefs
  isNative : Bool

/- An external event carries a JSON value; the tracer only asks whether it is
the string `MoveCallStart`. -/
inductive ExternalEvent where
  | moveCallStart
  | other
  deriving DecidableEq

inductive TraceEvent where
  | openFrame (frame : Frame)
  | closeFrame (frameId : ℕ)
  | instruction (pc : ℕ) (instruction : Bytecode)
  | effect (effect : Effect)
  | external (event : ExternalEvent)

abbrev FrameLocals := (ℕ → Option TraceValue) × Bool

structure TraceState where
  loadedState : ℕ → Option MoveValue
  operandStack : List TraceValue
  callStack : SortedMap ℕ FrameLocals

namespace TraceState

def new : TraceState := ⟨fun _ => none, [], SortedMap.empty⟩

def setLocation (self : TraceState) (value : MoveValue) : Location → Option TraceState
  | .ofLocal frame idx => do
    let f ← self.callStack.get? frame
    let old ← f.1 idx
    if old.isRuntime = true then
      let locals := Function.update f.1 idx (some (.runtimeValue value))
      some { self with callStack := self.callStack.insert frame (locals, f.2) }
    else none
  | .indexed l _ => setLocation self value l
  | .global id => do
    let _ ← self.loadedState id
    some { self with loadedState := Function.update self.loadedState id (some value) }

def popLast (m : SortedMap ℕ FrameLocals) : Option (SortedMap ℕ FrameLocals) :=
  (maxByKey m.entries).map fun e => m.erase e.1

def applyEffect (self : TraceState) : Effect → Option TraceState
  | .executionError _ => some self
  | .push value => some { self with operandStack := value :: self.operandStack }
  | .pop _ =>
    match self.operandStack with
    | [] => none
    | _ :: rest => some { self with operandStack := rest }
  | .read location moved =>
    if moved = true then
      match location with
      | .ofLocal frame idx => do
        let f ← self.callStack.get? frame
        let locals := Function.update f.1 idx none
        some { self with callStack := self.callStack.insert frame (locals, f.2) }
      | .indexed .. => none
      | .global _ => none
    else some self
  | .write location value =>
    match location with
    | .ofLocal frame idx => do
      let f ← self.callStack.get? frame
      let locals := Function.update f.1 idx (some value)
      some { self with callStack := self.callStack.insert frame (locals, f.2) }
    | .indexed l _ => self.setLocation value.snapshot l
    | .global id => self.setLocation value.snapshot (.global id)
  | .dataLoad location snapshot =>
    match location with
    | .global id =>
      some { self with loadedState := Function.update self.loadedState id (some snapshot) }
    | _ => none

/- `None` where the code panics. -/
def applyEvent (self : TraceState) : TraceEvent → Option TraceState
  | .openFrame frame =>
    -- each parameter is popped; for the first frame of a call the stack is empty
    let locals : ℕ → Option TraceValue := fun i => frame.parameters[i]?
    some { self with
      operandStack := self.operandStack.drop frame.parameters.length
      callStack := self.callStack.insert frame.frameId (locals, frame.isNative) }
  | .closeFrame _ => do
    let rest ← popLast self.callStack
    some { self with callStack := rest }
  | .effect e => self.applyEffect e
  | .external .moveCallStart => some new
  | .external .other => some self
  | .instruction .. => some self

theorem popLast_eq (m : SortedMap ℕ FrameLocals) (id : ℕ) (f : FrameLocals)
    (hid : m.get? id = some f) (hmax : ∀ k v, m.get? k = some v → k ≤ id) :
    popLast m = some (m.erase id) := by
  cases hm : maxByKey m.entries with
  | none =>
    have hmem := (m.mem_entries id f).mpr hid
    rw [(maxByKey_eq_none m.entries).mp hm] at hmem
    cases hmem
  | some e =>
    obtain ⟨k, v⟩ := e
    have hk : k ≤ id := hmax k v ((m.mem_entries k v).mp (maxByKey_mem m.entries (k, v) hm))
    have hge := maxByKey_ge m.entries (k, v) hm (id, f) ((m.mem_entries id f).mpr hid)
    obtain rfl : k = id := le_antisymm hk hge
    rw [popLast, hm, Option.map_some]

end TraceState

end Movy.Tracer
