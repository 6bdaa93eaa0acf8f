import Movy.Tracer.Fuzz
import Mathlib.Data.List.Forall2

/-!
# The Move VM as the tracer sees it

The tracer runs beside a Move VM that executes verified bytecode. The machine
below says what such a VM does and which events it emits while doing it: each
instruction is announced, then its pops, its accesses to memory and its pushes
follow; a call passes its parameters with the event that opens the frame, and
a native's results are pushed after its frame is closed.

The premises of the rules are what the bytecode verifier promises: operands
have the types of the instruction, and a local is not overwritten, moved or
reused while a reference to it is live. What an instruction writes through a
reference is not followed in detail: any change of memory that keeps the types
behind the live references is allowed.
-/

namespace Movy.Tracer

open Movy.Store (ObjectID)
open Movy.Types (MoveTypeTag)

inductive RtValue where
  | val (v : MoveValue)
  | ref (mutable : Bool) (l : Location)

def PrimitiveValue.toRt : PrimitiveValue → RtValue
  | .bool b => .val (.bool b)
  | .int w n => .val (.int w n)

structure VmFrame where
  id : ℕ
  versionId : ObjectID
  functionName : String
  code : CompiledModule

/- The innermost frame and the top of the stack come first. `calls` lists the
arguments of the calls of the transaction so far. -/
structure Vm where
  stack : List RtValue
  frames : List VmFrame
  locals : ℕ → ℕ → Option RtValue
  globals : ℕ → Option MoveValue
  calls : List (List RtValue)

def MoveValue.child : MoveValue → ℕ → Option MoveValue
  | .struct _ fields, i => fields[i]?
  | .vector elems, i => elems[i]?
  | .variant _ _ fields, i => fields[i]?
  | _, _ => none

def Location.root : Location → Location
  | .indexed l _ => l.root
  | l => l

namespace Vm

def start : Vm := ⟨[], [], fun _ _ => none, fun _ => none, []⟩

def readLoc (vm : Vm) : Location → Option MoveValue
  | .ofLocal f i =>
    match vm.locals f i with
    | some (.val v) => some v
    | _ => none
  | .indexed l i => (vm.readLoc l).bind fun v => v.child i
  | .global id => vm.globals id

def denotes (vm : Vm) : RtValue → Option MoveValue
  | .val v => some v
  | .ref _ l => vm.readLoc l

def primOf (vm : Vm) (r : RtValue) : Option PrimitiveValue :=
  (vm.denotes r).bind MoveValue.primitive

def kindOf (vm : Vm) (r : RtValue) : Option ℕ := (vm.primOf r).map PrimitiveValue.bitwidth

/- The trace shows a reference with the value it points to at that time. -/
def traceValue (vm : Vm) : RtValue → Option TraceValue
  | .val v => some (.runtimeValue v)
  | .ref true l => (vm.readLoc l).map (.mutRef l)
  | .ref false l => (vm.readLoc l).map (.immRef l)

def Live (vm : Vm) (l : Location) : Prop :=
  ∃ m, .ref m l ∈ vm.stack ∨ ∃ fr ∈ vm.frames, ∃ i, vm.locals fr.id i = some (.ref m l)

/- A place that a reference can write to: in a local of an open frame that
holds a value, or in a loaded value. -/
def Writable (vm : Vm) : Location → Prop
  | .ofLocal f i => (∃ fr ∈ vm.frames, fr.id = f) ∧ ∃ v, vm.locals f i = some (.val v)
  | .indexed l _ => vm.Writable l
  | .global id => (vm.globals id).isSome = true

end Vm

/-! ### Instructions -/

inductive ArithOp where
  | add
  | sub
  | mul
  | div
  | mod

def ArithOp.code : ArithOp → Bytecode
  | .add => .add
  | .sub => .sub
  | .mul => .mul
  | .div => .div
  | .mod => .mod

def ArithOp.apply : ArithOp → ℕ → ℕ → Option ℕ
  | .add, a, b => some (a + b)
  | .sub, a, b => if b ≤ a then some (a - b) else none
  | .mul, a, b => some (a * b)
  | .div, a, b => if b = 0 then none else some (a / b)
  | .mod, a, b => if b = 0 then none else some (a % b)

/- A result that does not fit its width aborts. -/
def checked (w : IntWidth) (n : ℕ) : Option (List RtValue) :=
  if h : n < 2 ^ w.bits then some [.val (.int w ⟨n, h⟩)] else none

inductive BitOp where
  | and
  | bitAnd
  | or
  | bitOr
  | xor

def BitOp.code : BitOp → Bytecode
  | .and => .and
  | .bitAnd => .bitAnd
  | .or => .or
  | .bitOr => .bitOr
  | .xor => .xor

def BitOp.apply : BitOp → ℕ → ℕ → ℕ
  | .and, a, b => a &&& b
  | .bitAnd, a, b => a &&& b
  | .or, a, b => a ||| b
  | .bitOr, a, b => a ||| b
  | .xor, a, b => a ^^^ b

def BitOp.logical : BitOp → Prop
  | .and => True
  | .or => True
  | _ => False

def CmpOp.code : CmpOp → Bytecode
  | .lt => .lt
  | .le => .le
  | .gt => .gt
  | .ge => .ge
  | .neq => .neq
  | .eq => .eq

def CmpOp.holds : CmpOp → ℕ → ℕ → Bool
  | .lt, a, b => decide (a < b)
  | .le, a, b => decide (a ≤ b)
  | .gt, a, b => decide (a > b)
  | .ge, a, b => decide (a ≥ b)
  | .neq, a, b => decide (a ≠ b)
  | .eq, a, b => decide (a = b)

def borrowFieldCode (mutable generic : Bool) (idx : ℕ) : Bytecode :=
  match mutable, generic with
  | true, false => .mutBorrowField idx
  | true, true => .mutBorrowFieldGeneric idx
  | false, false => .immBorrowField idx
  | false, true => .immBorrowFieldGeneric idx

def borrowLocCode (mutable : Bool) (idx : ℕ) : Bytecode :=
  match mutable with
  | true => .mutBorrowLoc idx
  | false => .immBorrowLoc idx

def vecBorrowCode (mutable : Bool) (sig : ℕ) : Bytecode :=
  match mutable with
  | true => .vecMutBorrow sig
  | false => .vecImmBorrow sig

def packCode (generic : Bool) (idx : ℕ) : Bytecode :=
  match generic with
  | false => .pack idx
  | true => .packGeneric idx

def unpackCode (generic : Bool) (idx : ℕ) : Bytecode :=
  match generic with
  | false => .unpack idx
  | true => .unpackGeneric idx

def packVariantCode (generic : Bool) (idx : ℕ) : Bytecode :=
  match generic with
  | false => .packVariant idx
  | true => .packVariantGeneric idx

def unpackVariantCode (generic : Bool) (idx : ℕ) : Bytecode :=
  match generic with
  | false => .unpackVariant idx
  | true => .unpackVariantGeneric idx

def unpackVariantRefCode (mutable generic : Bool) (idx : ℕ) : Bytecode :=
  match mutable, generic with
  | true, false => .unpackVariantMutRef idx
  | true, true => .unpackVariantGenericMutRef idx
  | false, false => .unpackVariantImmRef idx
  | false, true => .unpackVariantGenericImmRef idx

def CompiledModule.fieldsOf (m : CompiledModule) (generic : Bool) (idx : ℕ) : Option ℕ :=
  match generic with
  | false => m.structFields idx
  | true => m.structInstFields idx

def CompiledModule.variantFieldsOf (m : CompiledModule) (generic : Bool) (idx : ℕ) : Option ℕ :=
  match generic with
  | false => m.variantFields idx
  | true => m.variantInstFields idx

def pushed (vs : List MoveValue) : List RtValue := vs.reverse.map .val

/- The operands an instruction takes from the stack and the results it leaves
there, the topmost first; no results if it aborts. -/
inductive Runs (vm : Vm) (fr : VmFrame) :
    Bytecode → List RtValue → Option (List RtValue) → Prop
  | ldU (w : IntWidth) (n : Fin (2 ^ w.bits)) : Runs vm fr (.ldU w n) [] (some [.val (.int w n)])
  | ldConst (idx : ℕ) (v : MoveValue) : Runs vm fr (.ldConst idx) [] (some [.val v])
  | ldTrue : Runs vm fr .ldTrue [] (some [.val (.bool true)])
  | ldFalse : Runs vm fr .ldFalse [] (some [.val (.bool false)])
  | nop : Runs vm fr .nop [] (some [])
  | branch (offset : ℕ) : Runs vm fr (.branch offset) [] (some [])
  | pop (r : RtValue) : Runs vm fr .pop [r] (some [])
  | brTrue (offset : ℕ) (b : Bool) : Runs vm fr (.brTrue offset) [.val (.bool b)] (some [])
  | brFalse (offset : ℕ) (b : Bool) : Runs vm fr (.brFalse offset) [.val (.bool b)] (some [])
  | variantSwitch (idx : ℕ) (m : Bool) (l : Location) :
      Runs vm fr (.variantSwitch idx) [.ref m l] (some [])
  | abort (n : Fin (2 ^ 64)) : Runs vm fr .abort [.val (.int .w64 n)] none
  | castU (w v : IntWidth) (n : Fin (2 ^ v.bits)) :
      Runs vm fr (.castU w) [.val (.int v n)] (checked w n)
  | arith (op : ArithOp) (w : IntWidth) (a b : Fin (2 ^ w.bits)) :
      Runs vm fr op.code [.val (.int w b), .val (.int w a)] ((op.apply a b).bind (checked w))
  | bit (op : BitOp) (p q r : PrimitiveValue) (hlog : op.logical ↔ p.bitwidth = 1)
      (hpq : p.bitwidth = q.bitwidth) (hpr : p.bitwidth = r.bitwidth)
      (hr : r.asU256 = op.apply p.asU256 q.asU256) :
      Runs vm fr op.code [q.toRt, p.toRt] (some [r.toRt])
  | shl (w : IntWidth) (a : Fin (2 ^ w.bits)) (s : Fin (2 ^ 8)) :
      Runs vm fr .shl [.val (.int .w8 s), .val (.int w a)]
        (if s.val < w.bits then checked w (a.val * 2 ^ s.val % 2 ^ w.bits) else none)
  | shr (w : IntWidth) (a : Fin (2 ^ w.bits)) (s : Fin (2 ^ 8)) :
      Runs vm fr .shr [.val (.int .w8 s), .val (.int w a)]
        (if s.val < w.bits then checked w (a.val / 2 ^ s.val) else none)
  | not (b : Bool) : Runs vm fr .not [.val (.bool b)] (some [.val (.bool !b)])
  | order (op : CmpOp) (hne : op ≠ .eq) (hnn : op ≠ .neq) (w : IntWidth) (a b : Fin (2 ^ w.bits)) :
      Runs vm fr op.code [.val (.int w b), .val (.int w a)] (some [.val (.bool (op.holds a b))])
  | eq (l r : RtValue) (b : Bool) (hk : vm.kindOf l = vm.kindOf r)
      (hb : b = true ↔ vm.denotes l = vm.denotes r) : Runs vm fr .eq [r, l] (some [.val (.bool b)])
  | neq (l r : RtValue) (b : Bool) (hk : vm.kindOf l = vm.kindOf r)
      (hb : b = true ↔ vm.denotes l ≠ vm.denotes r) : Runs vm fr .neq [r, l] (some [.val (.bool b)])
  | copyLoc (idx : ℕ) (r : RtValue) (h : vm.locals fr.id idx = some r) :
      Runs vm fr (.copyLoc idx) [] (some [r])
  | borrowLoc (m : Bool) (idx : ℕ) (v : MoveValue) (h : vm.locals fr.id idx = some (.val v)) :
      Runs vm fr (borrowLocCode m idx) [] (some [.ref m (.ofLocal fr.id idx)])
  | readRef (m : Bool) (l : Location) (v : MoveValue) (h : vm.readLoc l = some v) :
      Runs vm fr .readRef [.ref m l] (some [.val v])
  | freezeRef (l : Location) : Runs vm fr .freezeRef [.ref true l] (some [.ref false l])
  | borrowField (m g m' : Bool) (idx i : ℕ) (l : Location) (t : StructTag) (fields : List MoveValue)
      (h : vm.readLoc l = some (.struct t fields)) :
      Runs vm fr (borrowFieldCode m g idx) [.ref m' l] (some [.ref m (.indexed l i)])
  | writeRef (l : Location) (v : MoveValue) : Runs vm fr .writeRef [.ref true l, .val v] (some [])
  | vecPack (sig : ℕ) (vs : List MoveValue) :
      Runs vm fr (.vecPack sig vs.length) (pushed vs) (some [.val (.vector vs)])
  | vecUnpack (sig n : ℕ) (vs : List MoveValue) :
      Runs vm fr (.vecUnpack sig n) [.val (.vector vs)]
        (if vs.length = n then some (pushed vs) else none)
  | vecLen (sig : ℕ) (m : Bool) (l : Location) (vs : List MoveValue)
      (h : vm.readLoc l = some (.vector vs)) :
      Runs vm fr (.vecLen sig) [.ref m l] (checked .w64 vs.length)
  | vecBorrow (m m' : Bool) (sig : ℕ) (l : Location) (i : Fin (2 ^ 64)) (vs : List MoveValue)
      (h : vm.readLoc l = some (.vector vs)) :
      Runs vm fr (vecBorrowCode m sig) [.val (.int .w64 i), .ref m' l]
        (if i.val < vs.length then some [.ref m (.indexed l i)] else none)
  | vecPushBack (sig : ℕ) (l : Location) (v : MoveValue) :
      Runs vm fr (.vecPushBack sig) [.val v, .ref true l] (some [])
  | vecPopBack (sig : ℕ) (l : Location) (vs : List MoveValue)
      (h : vm.readLoc l = some (.vector vs)) :
      Runs vm fr (.vecPopBack sig) [.ref true l] (vs.getLast?.map fun v => [.val v])
  | vecSwap (sig : ℕ) (l : Location) (i j : Fin (2 ^ 64)) :
      Runs vm fr (.vecSwap sig) [.val (.int .w64 j), .val (.int .w64 i), .ref true l] (some [])
  | pack (g : Bool) (idx : ℕ) (t : StructTag) (vs : List MoveValue)
      (h : fr.code.fieldsOf g idx = some vs.length) :
      Runs vm fr (packCode g idx) (pushed vs) (some [.val (.struct t vs)])
  | unpack (g : Bool) (idx : ℕ) (t : StructTag) (vs : List MoveValue)
      (h : fr.code.fieldsOf g idx = some vs.length) :
      Runs vm fr (unpackCode g idx) [.val (.struct t vs)] (some (pushed vs))
  | packVariant (g : Bool) (idx : ℕ) (t : StructTag) (tag : ℕ) (vs : List MoveValue)
      (h : fr.code.variantFieldsOf g idx = some vs.length) :
      Runs vm fr (packVariantCode g idx) (pushed vs) (some [.val (.variant t tag vs)])
  | unpackVariant (g : Bool) (idx : ℕ) (t : StructTag) (tag n : ℕ) (vs : List MoveValue)
      (h : fr.code.variantFieldsOf g idx = some n) :
      Runs vm fr (unpackVariantCode g idx) [.val (.variant t tag vs)]
        (if vs.length = n then some (pushed vs) else none)
  | unpackVariantRef (m g m' : Bool) (idx n : ℕ) (l : Location) (hit : Bool)
      (h : fr.code.variantFieldsOf g idx = some n) :
      Runs vm fr (unpackVariantRefCode m g idx) [.ref m' l]
        (if hit = true then some ((List.range n).reverse.map fun i => .ref m (.indexed l i))
          else none)

def Bytecode.Writes : Bytecode → Prop
  | .writeRef => True
  | .vecPushBack _ => True
  | .vecPopBack _ => True
  | .vecSwap _ => True
  | _ => False

/- The instructions that have a rule of their own below. -/
inductive Bytecode.Control : Bytecode → Prop
  | moveLoc (idx : ℕ) : Control (.moveLoc idx)
  | stLoc (idx : ℕ) : Control (.stLoc idx)
  | call (idx : ℕ) : Control (.call idx)
  | callGeneric (idx : ℕ) : Control (.callGeneric idx)
  | ret : Control .ret

/-! ### Memory -/

/- The accesses to memory the trace reports. -/
inductive Accesses (vm : Vm) : Effect → Prop
  | read (l : Location) : Accesses vm (.read l false)
  | write (l : Location) (v : MoveValue) (h : vm.Writable l) :
      Accesses vm (.write l (.runtimeValue v))
  | dataLoad (id : ℕ) (v : MoveValue) : Accesses vm (.dataLoad (.global id) v)

/- A local keeps its reference, or holds a value of the same primitive type. -/
inductive SameShape : Option RtValue → Option RtValue → Prop
  | none : SameShape none none
  | val (v w : MoveValue)
      (h : v.primitive.map PrimitiveValue.bitwidth = w.primitive.map PrimitiveValue.bitwidth) :
      SameShape (some (.val v)) (some (.val w))
  | ref (m : Bool) (l : Location) : SameShape (some (.ref m l)) (some (.ref m l))

/- A change of memory, with the accesses the trace shows of it. -/
structure Rewrites (vm vm' : Vm) (accesses : List Effect) : Prop where
  stack : vm'.stack = vm.stack
  frames : vm'.frames = vm.frames
  calls : vm'.calls = vm.calls
  reported : ∀ e ∈ accesses, Accesses vm e
  locals : ∀ f i, SameShape (vm.locals f i) (vm'.locals f i)
  globals : ∀ id, (vm'.globals id).isSome = true →
    (vm.globals id).isSome = true ∨ ∃ v, Effect.dataLoad (.global id) v ∈ accesses
  refs : ∀ m l, vm.Live l → vm'.kindOf (.ref m l) = vm.kindOf (.ref m l)

/-! ### Frames -/

/- The store has the package of the frame, and the module that runs is the one
of its id there. -/
def Resolves (db : PackageStore) (fr : VmFrame) : Prop :=
  ∃ modules : List CompiledModule, db fr.versionId = .ok (some (modules.map some)) ∧
    fr.code ∈ modules ∧ ∀ m ∈ modules, m.selfId = fr.code.selfId → m = fr.code

/- The frame and the event that opens it. Frame ids grow along the trace. If the
store has a module of that id, then it is the one that runs. -/
structure Opens (db : PackageStore) (vm : Vm) (frame : Frame) (fr : VmFrame)
    (params : List RtValue) : Prop where
  id : frame.frameId = fr.id
  version : frame.versionId = fr.versionId
  function : frame.functionName = fr.functionName
  moduleId : frame.moduleId = fr.code.selfId
  params : List.Forall₂ (fun t r => vm.traceValue r = some t) frame.parameters params
  fresh : ∀ f ∈ vm.frames, f.id < fr.id
  unborrowed : ∀ l i, vm.Live l → l.root ≠ .ofLocal fr.id i
  stored : ∀ modules m, db fr.versionId = .ok (some modules) → some m ∈ modules →
    m.selfId = fr.code.selfId → m = fr.code

def primBits : MoveTypeTag → Option ℕ
  | .bool => some 1
  | .u8 => some 8
  | .u16 => some 16
  | .u32 => some 32
  | .u64 => some 64
  | .u128 => some 128
  | .u256 => some 256
  | _ => none

def HasType (vm : Vm) (ty : TypeTagWithRefs) (r : RtValue) : Prop :=
  ty.refType = none → ∀ bits, primBits ty.type = some bits →
    (∃ v, r = .val v) ∧ vm.kindOf r = some bits

def effects (l : List Effect) : List TraceEvent := l.map .effect

def pops (l : List TraceValue) : List Effect := l.map .pop

def pushes (l : List TraceValue) : List Effect := l.reverse.map .push

def loads (l : List (ℕ × MoveValue)) : List Effect := l.map fun e => .dataLoad (.global e.1) e.2

def Vm.openFrame (vm : Vm) (fr : VmFrame) (params : List RtValue) : Vm :=
  { vm with
    frames := fr :: vm.frames
    locals := Function.update vm.locals fr.id fun i => params[i]? }

/- The state in which the transaction calls a function: the arguments that are
references point to values loaded before. -/
def Vm.moveCall (vm : Vm) (loaded : List (ℕ × MoveValue)) (params : List RtValue) : Vm where
  stack := []
  frames := []
  locals := vm.locals
  globals := loaded.foldl (fun g e => Function.update g e.1 (some e.2)) fun _ => none
  calls := vm.calls ++ [params]

def Vm.setLocal (vm : Vm) (f i : ℕ) (r : Option RtValue) : Vm :=
  { vm with locals := Function.update vm.locals f (Function.update (vm.locals f) i r) }

/- One step of the VM with the events it emits. -/
inductive Step (db : PackageStore) : Vm → List TraceEvent → Vm → Prop
  | exec (vm vm' : Vm) (fr : VmFrame) (outer : List VmFrame) (pc : ℕ) (ins : Bytecode)
      (ops res rest : List RtValue) (popped results : List TraceValue) (accesses : List Effect)
      (hf : vm.frames = fr :: outer) (hs : vm.stack = ops ++ rest)
      (hr : Runs vm fr ins ops (some res)) (hp : popped.length = ops.length)
      (hm : Rewrites { vm with stack := rest } vm' accesses)
      (hpure : ¬ins.Writes → vm' = { vm with stack := rest })
      (ht : List.Forall₂ (fun t r => vm'.traceValue r = some t) results res) :
      Step db vm (.instruction pc ins :: effects (pops popped ++ accesses ++ pushes results))
        { vm' with stack := res ++ rest }
  | moveLoc (vm : Vm) (fr : VmFrame) (outer : List VmFrame) (pc idx : ℕ) (r : RtValue)
      (t : TraceValue) (hf : vm.frames = fr :: outer) (hl : vm.locals fr.id idx = some r)
      (ht : vm.traceValue r = some t) (hb : ∀ l, vm.Live l → l.root ≠ .ofLocal fr.id idx) :
      Step db vm
        (.instruction pc (.moveLoc idx) ::
          effects [.read (.ofLocal fr.id idx) true, .push t])
        { vm.setLocal fr.id idx none with stack := r :: vm.stack }
  | stLoc (vm : Vm) (fr : VmFrame) (outer : List VmFrame) (pc idx : ℕ) (r : RtValue)
      (rest : List RtValue) (t popped : TraceValue) (hf : vm.frames = fr :: outer)
      (hs : vm.stack = r :: rest) (ht : vm.traceValue r = some t)
      (hb : ∀ l, vm.Live l → l.root ≠ .ofLocal fr.id idx) :
      Step db vm
        (.instruction pc (.stLoc idx) ::
          effects [.pop popped, .write (.ofLocal fr.id idx) t])
        { vm.setLocal fr.id idx (some r) with stack := rest }
  | call (vm : Vm) (fr : VmFrame) (outer : List VmFrame) (pc : ℕ) (ins : Bytecode) (frame : Frame)
      (callee : VmFrame) (params rest : List RtValue) (hf : vm.frames = fr :: outer)
      (hi : ∃ idx, ins = .call idx ∨ ins = .callGeneric idx)
      (hs : vm.stack = params.reverse ++ rest) (ho : Opens db vm frame callee params)
      (hn : frame.isNative = false) :
      Step db vm [.instruction pc ins, .openFrame frame]
        { vm.openFrame callee params with stack := rest }
  | callNative (vm vm' : Vm) (fr : VmFrame) (outer : List VmFrame) (pc : ℕ) (ins : Bytecode)
      (frame : Frame) (callee : VmFrame) (params res rest : List RtValue)
      (results : List TraceValue) (inside outside : List Effect) (hf : vm.frames = fr :: outer)
      (hi : ∃ idx, ins = .call idx ∨ ins = .callGeneric idx)
      (hs : vm.stack = params.reverse ++ rest) (ho : Opens db vm frame callee params)
      (hn : frame.isNative = true) (hm : Rewrites { vm with stack := rest } vm' (inside ++ outside))
      (hret : frame.returnTypes.length = res.length)
      (ht : List.Forall₂ (fun t r => vm'.traceValue r = some t) results res) :
      Step db vm
        (.instruction pc ins :: .openFrame frame ::
          (effects inside ++ .closeFrame callee.id :: effects (outside ++ pushes results)))
        { vm' with stack := res ++ rest }
  | ret (vm : Vm) (fr : VmFrame) (outer : List VmFrame) (pc : ℕ) (hf : vm.frames = fr :: outer) :
      Step db vm [.instruction pc .ret, .closeFrame fr.id] { vm with frames := outer }
  | moveCall (vm : Vm) (loaded : List (ℕ × MoveValue)) (frame : Frame) (callee : VmFrame)
      (params : List RtValue) (hf : vm.frames = [])
      (ho : Opens db (vm.moveCall loaded params) frame callee params)
      (hty : ∀ (i : ℕ) ty r, frame.localsTypes[i]? = some ty → params[i]? = some r →
        HasType (vm.moveCall loaded params) ty r)
      (hn : frame.isNative = false) :
      Step db vm
        (.external .moveCallStart :: (effects (loads loaded) ++ [.openFrame frame]))
        ((vm.moveCall loaded params).openFrame callee params)
  | moveCallNative (vm vm' : Vm) (loaded : List (ℕ × MoveValue)) (frame : Frame)
      (callee : VmFrame) (params res : List RtValue) (results : List TraceValue)
      (inside outside : List Effect) (hf : vm.frames = [])
      (ho : Opens db (vm.moveCall loaded params) frame callee params)
      (hn : frame.isNative = true)
      (hm : Rewrites (vm.moveCall loaded params) vm' (inside ++ outside))
      (ht : List.Forall₂ (fun t r => vm'.traceValue r = some t) results res) :
      Step db vm
        (.external .moveCallStart :: (effects (loads loaded) ++ .openFrame frame ::
          (effects inside ++ .closeFrame callee.id :: effects (outside ++ pushes results))))
        { vm' with stack := res }
  | other (vm : Vm) : Step db vm [.external .other] vm

/- The events of a step that ends in an error. -/
inductive Fails (db : PackageStore) (vm : Vm) : List TraceEvent → Prop
  | exec (fr : VmFrame) (outer : List VmFrame) (pc : ℕ) (ins : Bytecode) (ops rest : List RtValue)
      (out : Option (List RtValue)) (popped : List TraceValue) (message : String)
      (hf : vm.frames = fr :: outer) (hs : vm.stack = ops ++ rest) (hr : Runs vm fr ins ops out)
      (hp : popped.length ≤ ops.length) :
      Fails db vm (.instruction pc ins :: effects (pops popped ++ [.executionError message]))
  | control (fr : VmFrame) (outer : List VmFrame) (pc : ℕ) (ins : Bytecode) (message : String)
      (hf : vm.frames = fr :: outer) (hc : ins.Control) :
      Fails db vm (.instruction pc ins :: effects [.executionError message])
  | native (fr : VmFrame) (outer : List VmFrame) (pc : ℕ) (ins : Bytecode) (frame : Frame)
      (callee : VmFrame) (params rest : List RtValue) (message : String)
      (hf : vm.frames = fr :: outer) (hi : ∃ idx, ins = .call idx ∨ ins = .callGeneric idx)
      (hs : vm.stack = params.reverse ++ rest) (ho : Opens db vm frame callee params)
      (hn : frame.isNative = true) :
      Fails db vm [.instruction pc ins, .openFrame frame, .effect (.executionError message)]

end Movy.Tracer
