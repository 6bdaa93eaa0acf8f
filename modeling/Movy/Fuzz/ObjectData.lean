import Movy.Fuzz.Meta

/-!
# The objects of a sequence (`movy-fuzz/src/mutators/object_data.rs`)

`ObjectData::from_ptb` goes over a sequence and works out which values are
there to be used at its end: object inputs and results that no call has taken
by value, the hot potatoes among them, and those that are turned into coins or
sent to the attacker afterwards.
-/

namespace Movy.Fuzz

open Movy.Types Movy.Store

inductive Gate where
  | owned
  | immutable
  | shared
  deriving DecidableEq

abbrev ExistingObjects := IndexMap MoveTypeTag (List (SequenceArgument × Gate))

structure ObjectData where
  existingObjects : ExistingObjects
  keyStoreObjects : List SequenceArgument
  hotPotatoes : List MoveTypeTag
  usedObjectIds : List MoveAddress
  balances : List SequenceArgument

def tyArgsMap (tys : List MoveTypeTag) : MoveAbiSignatureToken.TyArgs :=
  (tys.zipIdx.map fun (ty, i) => (asU16 i, ty)).foldl (fun m e => m.insert e.1 e.2) SortedMap.empty

def isReference : MoveAbiSignatureToken → Bool
  | .reference _ => true
  | .mutableReference _ => true
  | _ => false

namespace ObjectData

def new : ObjectData := ⟨IndexMap.empty, [], [], [], []⟩

def pushObject (objects : ExistingObjects) (ty : MoveTypeTag) (arg : SequenceArgument)
    (gate : Gate) : ExistingObjects :=
  objects.insert ty ((objects.get? ty).getD [] ++ [(arg, gate)])

def objectId : SuiObjectInputArgument → Option MoveAddress
  | .immOrOwnedObject ref => some ref.1
  | .sharedObject id _ _ => some id
  | .receiving _ => none

def gateOf : MoveOwner → Option Gate
  | .addressOwner _ => some .owned
  | .immutable => some .immutable
  | .shared _ => some .shared
  | _ => none

def addInputs (st : FuzzState) : ObjectData → ℕ → List InputArgument → Option ObjectData
  | self, _, [] => some self
  | self, i, .object _ obj :: rest => do
    let objId ← objectId obj
    let object ← st.getMoveObjectInfo objId
    let gate ← gateOf object.owner
    addInputs st
      { self with
        usedObjectIds := self.usedObjectIds ++ [objId]
        existingObjects := pushObject self.existingObjects object.ty (.input (asU16 i)) gate }
      (i + 1) rest
  | self, i, _ :: rest => addInputs st self (i + 1) rest

/- What one argument of a call takes away. Values that are passed by reference,
and parameters that are not sampled, take nothing. -/
def takeArg (self : ObjectData) (tyArgs : MoveAbiSignatureToken.TyArgs) (arg : SequenceArgument)
    (param : MoveAbiSignatureToken) : Option ObjectData :=
  if !param.needsSample then some self
  else if isReference param then some self
  else do
    let instantiated ← param.subst tyArgs
    let partialInst := param.partialSubst tyArgs
    let candidates ← self.existingObjects.get? instantiated
    let kept := candidates.filter fun e => decide (e.1 ≠ arg)
    let objects :=
      if kept.isEmpty then self.existingObjects.erase instantiated
      else self.existingObjects.insert instantiated kept
    let self := { self with existingObjects := objects }
    match arg with
    | .input _ => some self
    | _ =>
      let self := if partialInst.isBalance then
        { self with balances := self.balances.filter fun a => decide (a ≠ arg) } else self
      let self := if partialInst.isKeyStore then
        { self with keyStoreObjects := self.keyStoreObjects.filter fun a => decide (a ≠ arg) }
        else self
      if partialInst.isHotPotato then
        if instantiated ∈ self.hotPotatoes then
          some { self with hotPotatoes := self.hotPotatoes.erase instantiated }
        else none
      else some self

def takeArgs (self : ObjectData) (tyArgs : MoveAbiSignatureToken.TyArgs) :
    List (SequenceArgument × MoveAbiSignatureToken) → Option ObjectData
  | [] => some self
  | (arg, param) :: rest => do
    let next ← takeArg self tyArgs arg param
    takeArgs next tyArgs rest

/- The argument that refers to the `j`-th of `n` results of command `i`. -/
def resultArg (n i j : ℕ) : SequenceArgument :=
  if n = 1 then .result (asU16 i) else .nestedResult (asU16 i) (asU16 j)

/- Whether a returned vector holds values that cannot be dropped. -/
def vectorHoldsHotPotato (st : FuzzState) (tyArgs : MoveAbiSignatureToken.TyArgs) :
    MoveAbiSignatureToken → Option Bool
  | .struct inner => some !inner.abilities.drop
  | .structInstantiation inner _ => some !inner.abilities.drop
  | .typeParameter idx _ => do
    let tag ← tyArgs.get? idx
    match tag with
    | .struct addr module name _ => do
      let abilities ← st.getAbilities addr module name
      some !abilities.drop
    | _ => some false
  | _ => some false

/- What one result of a call brings. -/
def addReturn (st : FuzzState) (self : ObjectData) (tyArgs : MoveAbiSignatureToken.TyArgs)
    (retTy : MoveAbiSignatureToken) (arg : SequenceArgument) : Option ObjectData := do
  let instantiated ← retTy.subst tyArgs
  match retTy with
  | .vector inner => do
    let hot ← vectorHoldsHotPotato st tyArgs inner
    some (if hot then { self with hotPotatoes := self.hotPotatoes ++ [instantiated] } else self)
  | _ =>
    let partialInst := retTy.partialSubst tyArgs
    match instantiated with
    | .struct _ _ _ _ =>
      some { self with
        existingObjects := pushObject self.existingObjects instantiated arg .owned
        balances := if partialInst.isBalance then self.balances ++ [arg] else self.balances
        keyStoreObjects :=
          if partialInst.isKeyStore then self.keyStoreObjects ++ [arg] else self.keyStoreObjects
        hotPotatoes :=
          if partialInst.isHotPotato then self.hotPotatoes ++ [instantiated]
          else self.hotPotatoes }
    | _ => some self

def addReturns (st : FuzzState) (n i : ℕ) (tyArgs : MoveAbiSignatureToken.TyArgs) :
    ObjectData → ℕ → List MoveAbiSignatureToken → Option ObjectData
  | self, _, [] => some self
  | self, j, retTy :: rest => do
    let next ← addReturn st self tyArgs retTy (resultArg n i j)
    addReturns st n i tyArgs next (j + 1) rest

def addCommands (st : FuzzState) : ObjectData → ℕ → List MoveSequenceCall → Option ObjectData
  | self, _, [] => some self
  | self, i, .call call :: rest => do
    let function ← st.getCalled call
    let tyArgs := tyArgsMap call.typeArguments
    let taken ← takeArgs self tyArgs (call.arguments.zip function.parameters)
    let next ← addReturns st function.returnParamters.length i tyArgs taken 0
      function.returnParamters
    addCommands st next (i + 1) rest
  | self, i, _ :: rest => addCommands st self (i + 1) rest

def fromPtb (st : FuzzState) (ptb : MoveSequence) : Option ObjectData :=
  if ptb.commands.isEmpty then some { new with usedObjectIds := [st.gasId] }
  else do
    let inputs ← addInputs st { new with usedObjectIds := [st.gasId] } 0 ptb.inputs
    addCommands st inputs 0 ptb.commands

/- One argument of `used_arguments`: every type that lists it loses it, and one
hot potato of that type. -/
def removeUsed (self : ObjectData) (arg : SequenceArgument) : ObjectData :=
  let listed := self.existingObjects.entries.filter fun e => e.2.any fun c => c.1 = arg
  let objects := (self.existingObjects.mapValues fun _ candidates =>
    candidates.filter fun c => decide (c.1 ≠ arg)).filter fun e => !e.2.isEmpty
  { self with
    existingObjects := objects
    hotPotatoes := listed.foldl (fun hot e => hot.erase e.1) self.hotPotatoes
    balances := self.balances.filter fun a => decide (a ≠ arg)
    keyStoreObjects := self.keyStoreObjects.filter fun a => decide (a ≠ arg) }

def fromPtbAndRemoveUsed (st : FuzzState) (ptb : MoveSequence)
    (usedArguments : List SequenceArgument) : Option ObjectData :=
  (fromPtb st ptb).map fun data => usedArguments.foldl removeUsed data

end ObjectData

end Movy.Fuzz
