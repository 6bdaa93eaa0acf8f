import Movy.Types.Input

/-!
# Signature tokens (`movy-types/src/abi.rs`)

The ABI of a Move function as the fuzzer reads it off the bytecode: abilities,
struct handles and the tokens that its parameters and results are made of,
with the predicates on tokens and the substitution of type arguments.
-/

namespace Movy.Types

open Movy.Store (ObjectID)

/-- The bit flags `COPY`, `DROP`, `STORE` and `KEY`. -/
structure MoveAbility where
  copy : Bool
  drop : Bool
  store : Bool
  key : Bool
  deriving DecidableEq

namespace MoveAbility

def empty : MoveAbility := ⟨false, false, false, false⟩

def PRIMITIVES : MoveAbility := ⟨true, true, true, false⟩

def isHotPotato (self : MoveAbility) : Bool := !self.drop && !self.store

/-- `(self.bits() & other.bits()) == self.bits()`. -/
def isSubsetOf (self other : MoveAbility) : Bool :=
  (!self.copy || other.copy) && (!self.drop || other.drop) &&
    (!self.store || other.store) && (!self.key || other.key)

end MoveAbility

structure MoveModuleId where
  moduleAddress : MoveAddress
  moduleName : String
  deriving DecidableEq

structure MoveStructTypeParameters where
  constraints : MoveAbility
  phantom : Bool
  deriving DecidableEq

structure MoveStructHandle where
  moduleId : MoveModuleId
  structName : String
  abilities : MoveAbility
  typeParameters : List MoveStructTypeParameters
  deriving DecidableEq

/-- `MoveAddress::zero` and `MoveAddress::two`. -/
def MoveAddress.zero : MoveAddress := ObjectID.ofByte 0

def MoveAddress.two : MoveAddress := ObjectID.ofByte 2

/-- The struct `0x2::module::name`. -/
def MoveStructHandle.isFramework (self : MoveStructHandle) (module name : String) : Bool :=
  self.moduleId.moduleAddress = MoveAddress.two && self.moduleId.moduleName = module &&
    self.structName = name

inductive MoveAbiSignatureToken where
  | bool
  | u8
  | u16
  | u32
  | u64
  | u128
  | u256
  | address
  | signer
  | vector (inner : MoveAbiSignatureToken)
  | struct (handle : MoveStructHandle)
  | structInstantiation (handle : MoveStructHandle) (args : List MoveAbiSignatureToken)
  | typeParameter (index : U16) (ability : MoveAbility)
  | reference (inner : MoveAbiSignatureToken)
  | mutableReference (inner : MoveAbiSignatureToken)

/-! ### Induction over nested types

Tags and tokens hold lists of themselves; these are their induction principles
with a hypothesis for every member of the list. -/

theorem MoveTypeTag.induct {P : MoveTypeTag → Prop} (hbool : P .bool) (hu8 : P .u8)
    (hu16 : P .u16) (hu32 : P .u32) (hu64 : P .u64) (hu128 : P .u128) (hu256 : P .u256)
    (hvector : ∀ t, P t → P (.vector t)) (haddress : P .address) (hsigner : P .signer)
    (hstruct : ∀ a m n tys, (∀ t ∈ tys, P t) → P (.struct a m n tys)) (t : MoveTypeTag) : P t :=
  @MoveTypeTag.rec P (fun tys => ∀ t ∈ tys, P t) hbool hu8 hu16 hu32 hu64 hu128 hu256 hvector
    haddress hsigner hstruct (fun _ h => absurd h List.not_mem_nil)
    (fun _ _ ht hts => List.forall_mem_cons.mpr ⟨ht, hts⟩) t

theorem MoveAbiSignatureToken.induct {P : MoveAbiSignatureToken → Prop} (hbool : P .bool)
    (hu8 : P .u8) (hu16 : P .u16) (hu32 : P .u32) (hu64 : P .u64) (hu128 : P .u128)
    (hu256 : P .u256) (haddress : P .address) (hsigner : P .signer)
    (hvector : ∀ t, P t → P (.vector t)) (hstruct : ∀ h, P (.struct h))
    (hinst : ∀ h ts, (∀ t ∈ ts, P t) → P (.structInstantiation h ts))
    (hparam : ∀ i a, P (.typeParameter i a)) (href : ∀ t, P t → P (.reference t))
    (hmut : ∀ t, P t → P (.mutableReference t)) (t : MoveAbiSignatureToken) : P t :=
  @MoveAbiSignatureToken.rec P (fun ts => ∀ t ∈ ts, P t) hbool hu8 hu16 hu32 hu64 hu128 hu256
    haddress hsigner hvector hstruct hinst hparam href hmut
    (fun _ h => absurd h List.not_mem_nil)
    (fun _ _ ht hts => List.forall_mem_cons.mpr ⟨ht, hts⟩) t

/-! ### Equality -/

mutual

def MoveTypeTag.beq : MoveTypeTag → MoveTypeTag → Bool
  | .bool, .bool => true
  | .u8, .u8 => true
  | .u16, .u16 => true
  | .u32, .u32 => true
  | .u64, .u64 => true
  | .u128, .u128 => true
  | .u256, .u256 => true
  | .address, .address => true
  | .signer, .signer => true
  | .vector a, .vector b => a.beq b
  | .struct a m n tys, .struct a' m' n' tys' =>
    a = a' && m = m' && n = n' && MoveTypeTag.beqList tys tys'
  | _, _ => false

def MoveTypeTag.beqList : List MoveTypeTag → List MoveTypeTag → Bool
  | [], [] => true
  | a :: as, b :: bs => a.beq b && MoveTypeTag.beqList as bs
  | _, _ => false

end

theorem MoveTypeTag.beqList_iff (as : List MoveTypeTag)
    (h : ∀ a ∈ as, ∀ b, a.beq b = true ↔ a = b) (bs : List MoveTypeTag) :
    MoveTypeTag.beqList as bs = true ↔ as = bs := by
  induction as generalizing bs with
  | nil => cases bs <;> simp [MoveTypeTag.beqList]
  | cons a as ih =>
    cases bs with
    | nil => simp [MoveTypeTag.beqList]
    | cons b bs =>
      have ha := h a (List.mem_cons_self ..) b
      have has := ih (fun x hx => h x (List.mem_cons_of_mem _ hx)) bs
      simp [MoveTypeTag.beqList, ha, has]

theorem MoveTypeTag.beq_iff (a b : MoveTypeTag) : a.beq b = true ↔ a = b := by
  induction a using MoveTypeTag.induct generalizing b with
  | hvector t ih => cases b <;> simp [MoveTypeTag.beq, ih]
  | hstruct a m n tys ih =>
    cases b with
    | struct a' m' n' tys' =>
      simp [MoveTypeTag.beq, MoveTypeTag.beqList_iff tys ih, and_assoc]
    | _ => simp [MoveTypeTag.beq]
  | _ => cases b <;> simp [MoveTypeTag.beq]

instance : DecidableEq MoveTypeTag := fun a b => decidable_of_iff _ (MoveTypeTag.beq_iff a b)

mutual

def MoveAbiSignatureToken.beq : MoveAbiSignatureToken → MoveAbiSignatureToken → Bool
  | .bool, .bool => true
  | .u8, .u8 => true
  | .u16, .u16 => true
  | .u32, .u32 => true
  | .u64, .u64 => true
  | .u128, .u128 => true
  | .u256, .u256 => true
  | .address, .address => true
  | .signer, .signer => true
  | .vector a, .vector b => a.beq b
  | .reference a, .reference b => a.beq b
  | .mutableReference a, .mutableReference b => a.beq b
  | .struct h, .struct h' => h = h'
  | .typeParameter i a, .typeParameter i' a' => i = i' && a = a'
  | .structInstantiation h ts, .structInstantiation h' ts' =>
    h = h' && MoveAbiSignatureToken.beqList ts ts'
  | _, _ => false

def MoveAbiSignatureToken.beqList :
    List MoveAbiSignatureToken → List MoveAbiSignatureToken → Bool
  | [], [] => true
  | a :: as, b :: bs => a.beq b && MoveAbiSignatureToken.beqList as bs
  | _, _ => false

end

theorem MoveAbiSignatureToken.beqList_iff (as : List MoveAbiSignatureToken)
    (h : ∀ a ∈ as, ∀ b, a.beq b = true ↔ a = b) (bs : List MoveAbiSignatureToken) :
    MoveAbiSignatureToken.beqList as bs = true ↔ as = bs := by
  induction as generalizing bs with
  | nil => cases bs <;> simp [MoveAbiSignatureToken.beqList]
  | cons a as ih =>
    cases bs with
    | nil => simp [MoveAbiSignatureToken.beqList]
    | cons b bs =>
      have ha := h a (List.mem_cons_self ..) b
      have has := ih (fun x hx => h x (List.mem_cons_of_mem _ hx)) bs
      simp [MoveAbiSignatureToken.beqList, ha, has]

theorem MoveAbiSignatureToken.beq_iff (a b : MoveAbiSignatureToken) : a.beq b = true ↔ a = b := by
  induction a using MoveAbiSignatureToken.induct generalizing b with
  | hvector t ih => cases b <;> simp [MoveAbiSignatureToken.beq, ih]
  | href t ih => cases b <;> simp [MoveAbiSignatureToken.beq, ih]
  | hmut t ih => cases b <;> simp [MoveAbiSignatureToken.beq, ih]
  | hinst h ts ih =>
    cases b with
    | structInstantiation h' ts' =>
      simp [MoveAbiSignatureToken.beq, MoveAbiSignatureToken.beqList_iff ts ih]
    | _ => simp [MoveAbiSignatureToken.beq]
  | _ => cases b <;> simp [MoveAbiSignatureToken.beq]

instance : DecidableEq MoveAbiSignatureToken :=
  fun a b => decidable_of_iff _ (MoveAbiSignatureToken.beq_iff a b)

/-! ### Predicates on tokens -/

namespace MoveAbiSignatureToken

def dereference : MoveAbiSignatureToken → Option MoveAbiSignatureToken
  | .reference v => some v
  | .mutableReference v => some v
  | _ => none

def isMutable : MoveAbiSignatureToken → Bool
  | .bool | .address | .u8 | .u16 | .u32 | .u64 | .u128 | .u256 => true
  | .vector inner => inner.isMutable
  | _ => false

def isTxContext : MoveAbiSignatureToken → Bool
  | .struct inner => inner.isFramework "tx_context" "TxContext"
  | .reference inner => inner.isTxContext
  | .mutableReference inner => inner.isTxContext
  | _ => false

def isBalance : MoveAbiSignatureToken → Bool
  | .structInstantiation inner _ => inner.isFramework "balance" "Balance"
  | _ => false

def isCoin : MoveAbiSignatureToken → Bool
  | .structInstantiation inner _ => inner.isFramework "coin" "Coin"
  | _ => false

def isHotPotato : MoveAbiSignatureToken → Bool
  | .struct inner => !isTxContext (.struct inner) && inner.abilities.isHotPotato
  | .structInstantiation inner args =>
    !isBalance (.structInstantiation inner args) && inner.abilities.isHotPotato
  | .vector inner => inner.isHotPotato
  | _ => false

/-- `A`, `&A`, `&mut A`, `vector<A>`, `T`, `&T` and `&mut T` need a sample. -/
def needsSample : MoveAbiSignatureToken → Bool
  | .struct inner => !isTxContext (.struct inner)
  | .structInstantiation _ _ => true
  | .reference b => !b.isTxContext && b.needsSample
  | .mutableReference b => !b.isTxContext && b.needsSample
  | .vector b => match b with
    | .struct _ => true
    | b => b.needsSample
  | .typeParameter _ _ => true
  | _ => false

def isKeyStore : MoveAbiSignatureToken → Bool
  | .struct inner | .structInstantiation inner _ => inner.abilities.key && inner.abilities.store
  | _ => false

def ability : MoveAbiSignatureToken → Option MoveAbility
  | .bool | .address | .u8 | .u16 | .u32 | .u64 | .u128 | .u256 => some MoveAbility.PRIMITIVES
  | .signer => some ⟨false, true, false, false⟩
  | .vector _ => some MoveAbility.PRIMITIVES
  | .struct inner | .structInstantiation inner _ => some inner.abilities
  | _ => none

/-! ### Type arguments -/

abbrev TyArgs := SortedMap U16 MoveTypeTag

mutual

def subst (tyArgs : TyArgs) : MoveAbiSignatureToken → Option MoveTypeTag
  | .vector inner => (subst tyArgs inner).map .vector
  | .structInstantiation inner typeParams =>
    (substList tyArgs typeParams).map fun tys =>
      .struct inner.moduleId.moduleAddress inner.moduleId.moduleName inner.structName tys
  | .struct inner =>
    if inner.typeParameters.isEmpty then
      some (.struct inner.moduleId.moduleAddress inner.moduleId.moduleName inner.structName [])
    else none
  | .reference inner => subst tyArgs inner
  | .mutableReference inner => subst tyArgs inner
  | .typeParameter index _ => tyArgs.get? index
  | .bool => some .bool
  | .address => some .address
  | .u8 => some .u8
  | .u16 => some .u16
  | .u32 => some .u32
  | .u64 => some .u64
  | .u128 => some .u128
  | .u256 => some .u256
  | .signer => some .signer

/-- The `map` over the type arguments, collected into an `Option`. -/
def substList (tyArgs : TyArgs) : List MoveAbiSignatureToken → Option (List MoveTypeTag)
  | [] => some []
  | ty :: rest => (subst tyArgs ty).bind fun tag =>
      (substList tyArgs rest).map fun tags => tag :: tags

end

mutual

def fromTypeTagLossy : MoveTypeTag → MoveAbiSignatureToken
  | .bool => .bool
  | .address => .address
  | .u8 => .u8
  | .u16 => .u16
  | .u32 => .u32
  | .u64 => .u64
  | .u128 => .u128
  | .u256 => .u256
  | .signer => .signer
  | .vector inner => .vector (fromTypeTagLossy inner)
  | .struct addr module name tys =>
    -- neither abilities nor type parameters are known from a tag
    if tys.isEmpty then .struct ⟨⟨addr, module⟩, name, MoveAbility.empty, []⟩
    else .structInstantiation ⟨⟨addr, module⟩, name, MoveAbility.empty, []⟩
      (fromTypeTagLossyList tys)

def fromTypeTagLossyList : List MoveTypeTag → List MoveAbiSignatureToken
  | [] => []
  | ty :: rest => fromTypeTagLossy ty :: fromTypeTagLossyList rest

end

mutual

def partialSubst (tyArgs : TyArgs) : MoveAbiSignatureToken → MoveAbiSignatureToken
  | .vector inner => .vector (partialSubst tyArgs inner)
  | .structInstantiation inner typeParams =>
    .structInstantiation inner (partialSubstList tyArgs typeParams)
  | .reference inner => .reference (partialSubst tyArgs inner)
  | .mutableReference inner => .mutableReference (partialSubst tyArgs inner)
  | .typeParameter index ability => match tyArgs.get? index with
    | some tag => fromTypeTagLossy tag
    | none => .typeParameter index ability
  | self => self

def partialSubstList (tyArgs : TyArgs) : List MoveAbiSignatureToken → List MoveAbiSignatureToken
  | [] => []
  | ty :: rest => partialSubst tyArgs ty :: partialSubstList tyArgs rest

end

mutual

def containsTypeParam (index : U16) : MoveAbiSignatureToken → Bool
  | .typeParameter i _ => i = index
  | .vector inner => containsTypeParam index inner
  | .reference inner => containsTypeParam index inner
  | .mutableReference inner => containsTypeParam index inner
  | .structInstantiation _ typeParams => anyContainsTypeParam index typeParams
  | _ => false

def anyContainsTypeParam (index : U16) : List MoveAbiSignatureToken → Bool
  | [] => false
  | ty :: rest => containsTypeParam index ty || anyContainsTypeParam index rest

end

mutual

def toTypeTag : MoveAbiSignatureToken → Option MoveTypeTag
  | .bool => some .bool
  | .u8 => some .u8
  | .u16 => some .u16
  | .u32 => some .u32
  | .u64 => some .u64
  | .u128 => some .u128
  | .u256 => some .u256
  | .address => some .address
  | .signer => some .signer
  | .vector v => (toTypeTag v).map .vector
  | .structInstantiation st tys =>
    if st.typeParameters.length = tys.length then
      (toTypeTagList tys).map fun insts =>
        .struct st.moduleId.moduleAddress st.moduleId.moduleName st.structName insts
    else none
  | _ => none

def toTypeTagList : List MoveAbiSignatureToken → Option (List MoveTypeTag)
  | [] => some []
  | ty :: rest => (toTypeTag ty).bind fun tag => (toTypeTagList rest).map fun tags => tag :: tags

end

/-- The initial value of a parameter that is not sampled. A vector whose element
type has no tag is a panic; the mutators of sequences unwrap the result. -/
def genInputArg : MoveAbiSignatureToken → Option InputArgument
  | .bool => some (.bool false)
  | .address => some (.address MoveAddress.zero)
  | .u8 => some (.u8 0)
  | .u16 => some (.u16 0)
  | .u32 => some (.u32 0)
  | .u64 => some (.u64 0)
  | .u128 => some (.u128 0)
  | .u256 => some (.u256 0)
  | .signer => some (.signer MoveAddress.zero)
  | .vector inner => (genInputArg inner).bind fun v =>
      inner.toTypeTag.map fun ty => .vector ty (List.replicate 1024 v)
  | .reference inner => if !inner.needsSample then genInputArg inner else none
  | .mutableReference inner => if !inner.needsSample then genInputArg inner else none
  | _ => none

end MoveAbiSignatureToken

end Movy.Types
