import Movy.Fuzz.ObjectData

/-!
# Sampling the arguments of a call (`try_construct_args`)

For every parameter that is sampled, the candidate types are read off the
objects at hand and the pool; one consistent choice of type arguments is drawn,
and then an object for each parameter. What cannot be found is left to the
caller, which looks for a function that produces it.
-/

namespace Movy.Fuzz

open Movy.Types Movy.Store MoveAbiSignatureToken

inductive ConstructResult where
  | ok (args : List SequenceArgument) (tyArgs : List MoveTypeTag) (inputs : List InputArgument)
  | partialFound (args : List (Option SequenceArgument)) (tyArgs : TyArgs)
      (inputs : List InputArgument)
  | unsolvable

def ownerMatchesGate (owner : MoveOwner) (gate : Gate) (currentSender : MoveAddress) : Bool :=
  match owner with
  | .addressOwner addr => addr = currentSender
  | .shared _ => true
  | .immutable => gate = .immutable
  | _ => false

def availableObjects (st : FuzzState) (ty : MoveTypeTag) (gate : Gate) : List MoveAddress :=
  ((st.typesPool.get? ty).getD []).filter fun id =>
    match st.getMoveObjectInfo id with
    | some info => ownerMatchesGate info.owner gate st.attacker
    | none => false

/-! ### Candidate type arguments -/

/- Some extracted type argument lacks an ability that the function asks for.
`none` is a panic: an unknown struct, or an index out of range. -/
def abilitiesFail (st : FuzzState) (functionAbilities : List MoveAbility) :
    List (U16 × MoveTypeTag) → Option Bool
  | [] => some false
  | (idx, tag) :: rest => do
    let abilitySet ← st.getTypeTagAbility tag
    let wanted ← functionAbilities[idx.val]?
    if !wanted.isSubsetOf abilitySet then some true else abilitiesFail st functionAbilities rest

/- What both samplers do with one type tag: extract, check the abilities, and
keep the type arguments if there is a fitting object. -/
def sampleTag (st : FuzzState) (ty : MoveAbiSignatureToken) (functionAbilities : List MoveAbility)
    (hasGateMatch : Bool) (tag : MoveTypeTag) : Option (List TyArgs) :=
  match ty.extractTyArgs tag with
  | none => some []
  | some tyArgs => do
    let bad ← abilitiesFail st functionAbilities tyArgs.entries
    if bad then some []
    else match tag with
      | .struct _ _ _ _ => some (if hasGateMatch then [tyArgs] else [])
      | _ => none

def sampleTags {α : Type} (f : α → Option (List TyArgs)) : List α → Option (List TyArgs)
  | [] => some []
  | a :: rest => (f a).bind fun l => (sampleTags f rest).map fun ls => l ++ ls

def trySampleObjectFromDb (st : FuzzState) (ty : MoveAbiSignatureToken)
    (dbTypeTags : List MoveTypeTag) (functionAbilities : List MoveAbility) (gate : Gate) :
    Option (List TyArgs) :=
  sampleTags (fun tag => sampleTag st ty functionAbilities
    (((st.typesPool.get? tag).getD []).any fun addr =>
      match st.getMoveObjectInfo addr with
      | some info => ownerMatchesGate info.owner gate st.attacker
      | none => false) tag) dbTypeTags

def trySampleObjectFromCache (st : FuzzState) (existingObjects : ExistingObjects)
    (ty : MoveAbiSignatureToken) (functionAbilities : List MoveAbility) (gate : Gate) :
    Option (List TyArgs) :=
  sampleTags (fun e => sampleTag st ty functionAbilities
    (match gate with
      | .owned => e.2.any fun c => c.2 = .owned
      | .immutable => true
      | .shared => e.2.any fun c => c.2 ≠ .immutable) e.1) existingObjects.entries

def intersectGenerics : TyArgs → List TyArgs → Option TyArgs
  | result, [] => some result
  | result, tyArgs :: rest => (result.mergeAgree tyArgs.entries).bind fun r => intersectGenerics r rest

def cartesianProduct : List (List TyArgs) → List (List TyArgs)
  | [] => [[]]
  | row :: rows => row.flatMap fun a => (cartesianProduct rows).map fun combo => a :: combo

def getTyArgsCandidates (rows : List (List TyArgs)) : List TyArgs :=
  (cartesianProduct rows).filterMap (intersectGenerics SortedMap.empty)

/-! ### Parameters and their gates -/

def isStruct : MoveAbiSignatureToken → Bool
  | .struct _ => true
  | .structInstantiation _ _ => true
  | _ => false

/- A struct by value or behind a reference; nothing else can be sampled. -/
def samplable : MoveAbiSignatureToken → Bool
  | .reference b => isStruct b
  | .mutableReference b => isStruct b
  | param => isStruct param

/- `none` is a panic. -/
def withGate (fixedTyArgs : TyArgs) (param : MoveAbiSignatureToken) :
    Option (MoveAbiSignatureToken × Gate) :=
  if param.isTxContext then none
  else match param.partialSubst fixedTyArgs with
    | .struct h => some (.struct h, .owned)
    | .structInstantiation h ts => some (.structInstantiation h ts, .owned)
    | .reference b => if isStruct b then some (b, .immutable) else none
    | .mutableReference b => if isStruct b then some (b, .shared) else none
    | _ => none

def paramCandidates (st : FuzzState) (existingObjects : ExistingObjects)
    (functionAbilities : List MoveAbility) (p : MoveAbiSignatureToken × Gate) :
    Option (List TyArgs) := do
  let fromCache ← trySampleObjectFromCache st existingObjects p.1 functionAbilities p.2
  let ability ← p.1.ability
  let fromDb ← if ability.key then
      trySampleObjectFromDb st p.1 st.typesPool.keys functionAbilities p.2
    else some []
  some (fromCache ++ fromDb)

def allCandidates (st : FuzzState) (existingObjects : ExistingObjects)
    (functionAbilities : List MoveAbility) :
    List (MoveAbiSignatureToken × Gate) → Option (List (List TyArgs))
  | [] => some []
  | p :: rest => (paramCandidates st existingObjects functionAbilities p).bind fun row =>
      (allCandidates st existingObjects functionAbilities rest).map fun rows => row :: rows

/-! ### Sampling -/

structure Sampling where
  existingObjects : ExistingObjects
  usedObjectIds : List MoveAddress
  returnArgs : List (Option SequenceArgument)
  inputs : List InputArgument

/- Which of the existing objects may be passed under a gate. -/
def gateAccepts (gate found : Gate) : Bool :=
  match gate with
  | .owned => found ≠ .immutable
  | .immutable => true
  | .shared => found ≠ .immutable

def eraseAt {α : Type} (l : List α) (i : ℕ) : List α := l.take i ++ l.drop (i + 1)

/- An existing object of the type: taken out of the candidates if it is passed
by value, left there otherwise. -/
def sampleExisting (s : Sampling) (ty : MoveTypeTag) (gate : Gate)
    (args : List (SequenceArgument × Gate)) : Choice Sampling :=
  let filtered := (List.range args.length).filter fun i =>
    (args[i]?).any fun c => gateAccepts gate c.2
  if filtered.isEmpty then pure { s with returnArgs := s.returnArgs ++ [none] }
  else do
    let i ← Choice.pick filtered
    let c ← Choice.expect args[i]?
    let objects :=
      if gate = .owned then s.existingObjects.insert ty (eraseAt args i) else s.existingObjects
    pure { s with existingObjects := objects, returnArgs := s.returnArgs ++ [some c.1] }

def objectInput (id : MoveAddress) (object : MoveObjectInfo) : Option InputArgument :=
  match object.owner with
  | .addressOwner _ => some (.object object.ty (.immOrOwnedObject (id, object.version, object.digest)))
  | .immutable => some (.object object.ty (.immOrOwnedObject (id, object.version, object.digest)))
  | .shared v => some (.object object.ty (.sharedObject id v true))
  | _ => none

/- An object of the pool that was not used yet. The inner `none` is the early
return of an unsolvable construction. -/
def sampleFromPool (st : FuzzState) (inputLen : ℕ) (s : Sampling) (ty : MoveTypeTag) (gate : Gate) :
    Choice (Option Sampling) :=
  let ids := (availableObjects st ty gate).filter fun id => decide (id ∉ s.usedObjectIds)
  if ids.isEmpty then pure (some { s with returnArgs := s.returnArgs ++ [none] })
  else do
    let id ← Choice.pick ids
    match (st.getMoveObjectInfo id).bind (objectInput id) with
    | none => pure none
    | some input =>
      pure (some { s with
        usedObjectIds := s.usedObjectIds ++ [id]
        inputs := s.inputs ++ [input]
        returnArgs := s.returnArgs ++ [some (.input (asU16 (inputLen + s.inputs.length)))] })

def sampleParam (st : FuzzState) (inputLen : ℕ) (tyArgsMap : TyArgs) (s : Sampling)
    (p : MoveAbiSignatureToken × Gate) (known : Bool) : Choice (Option Sampling) :=
  if !known then pure (some { s with returnArgs := s.returnArgs ++ [none] })
  else do
    let ty ← Choice.expect (p.1.subst tyArgsMap)
    match ty with
    | .struct _ _ _ _ => match s.existingObjects.get? ty with
      | some args => do
        let next ← sampleExisting s ty p.2 args
        pure (some next)
      | none => sampleFromPool st inputLen s ty p.2
    | _ => Choice.panic

def sampleParams (st : FuzzState) (inputLen : ℕ) (tyArgsMap : TyArgs) :
    Sampling → List ((MoveAbiSignatureToken × Gate) × Bool) → Choice (Option Sampling)
  | s, [] => pure (some s)
  | s, (p, known) :: rest => do
    let r ← sampleParam st inputLen tyArgsMap s p known
    match r with
    | none => pure none
    | some next => sampleParams st inputLen tyArgsMap next rest

def finishTyArgs (st : FuzzState) (tyArgsMap fixedTyArgs : TyArgs) :
    List (MoveAbility × ℕ) → Choice (List MoveTypeTag)
  | [] => pure []
  | (ability, i) :: rest => do
    let ty ← match tyArgsMap.get? (asU16 i) with
      | some ty => pure ty
      | none => do
        let default ← st.genTypeTagByAbilities ability
        pure ((fixedTyArgs.get? (asU16 i)).getD default)
    let tys ← finishTyArgs st tyArgsMap fixedTyArgs rest
    pure (ty :: tys)

def tryConstructArgs (st : FuzzState) (inputLen : ℕ) (params : List MoveAbiSignatureToken)
    (functionAbilities : List MoveAbility) (fixedTyArgs : TyArgs) (objectData : ObjectData) :
    Choice ConstructResult :=
  if params.any fun param => !samplable param then pure .unsolvable
  else do
    let withGates ← Choice.expect (params.mapM (withGate fixedTyArgs))
    let rows ← Choice.expect
      (allCandidates st objectData.existingObjects functionAbilities withGates)
    let candidates := getTyArgsCandidates (rows.filter fun row => !row.isEmpty)
    if candidates.isEmpty then pure .unsolvable
    else do
      let tyArgsMap ← Choice.pick candidates
      let sampled ← sampleParams st inputLen tyArgsMap
        ⟨objectData.existingObjects, objectData.usedObjectIds, [], []⟩
        (withGates.zip (rows.map fun row => !row.isEmpty))
      match sampled with
      | none => pure .unsolvable
      | some s =>
        if s.returnArgs.all Option.isSome then do
          let tyArgs ← finishTyArgs st tyArgsMap fixedTyArgs functionAbilities.zipIdx
          pure (.ok (s.returnArgs.filterMap id) tyArgs s.inputs)
        else pure (.partialFound s.returnArgs (tyArgsMap.extend fixedTyArgs) s.inputs)

end Movy.Fuzz
