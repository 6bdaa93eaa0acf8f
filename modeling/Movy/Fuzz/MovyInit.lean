import Movy.Fuzz.Meta
import Movy.Lib.Pointwise
import Movy.Types.Convert

/-!
# Arguments of `movy_init` (`movy-replay/src/env.rs`)

A deployed package may have a `movy_init` function, which is called with the deployer,
the attacker and objects of the database. `build_movy_init_args` looks up an object for
every parameter from the third on and hands it to the transaction builder.
-/

namespace Movy.Fuzz

open Movy.Types Movy.Store MoveAbiSignatureToken

/-! ### Stored objects -/

/- What the database has under an id. The type of a Move object is a struct. -/
inductive StoredObject where
  | move (id addr : MoveAddress) (module name : String) (tys : List MoveTypeTag)
      (owner : MoveOwner) (version : SequenceNumber) (digest : ObjectDigest)
  | package

def StoredObject.info : StoredObject → Option MoveObjectInfo
  | .move id addr module name tys owner version digest =>
    some ⟨id, .struct addr module name tys, owner, version, digest⟩
  | .package => none

def MoveObjectInfo.suiReference (self : MoveObjectInfo) : ObjectRef :=
  (self.id, self.version, self.digest)

def storedObjects (getObject : MoveAddress → Option StoredObject) (ids : List MoveAddress) :
    List MoveObjectInfo :=
  ids.filterMap fun id => (getObject id).bind StoredObject.info

/-! ### An object for a parameter -/

inductive MovyInitObjectMode where
  | ownedValue
  | immutableRef
  | mutableRef
  deriving DecidableEq

def movyInitParamTyAndMode : MoveAbiSignatureToken → Option (MoveTypeTag × MovyInitObjectMode)
  | .struct handle => (subst SortedMap.empty (.struct handle)).map fun ty => (ty, .ownedValue)
  | .structInstantiation handle args =>
    (subst SortedMap.empty (.structInstantiation handle args)).map fun ty => (ty, .ownedValue)
  | .reference inner => (subst SortedMap.empty inner).map fun ty => (ty, .immutableRef)
  | .mutableReference inner => (subst SortedMap.empty inner).map fun ty => (ty, .mutableRef)
  | _ => none

/- "unsupported movy_init parameter type: {}", "unable to find a DB object for movy_init
parameter {}", "unsupported owner {:?} for movy_init parameter {}", an error of the
database, and one of the builder. -/
inductive MovyInitError (ε : Type) where
  | unsupportedParameter (param : MoveAbiSignatureToken)
  | noObject (param : MoveAbiSignatureToken)
  | unsupportedOwner (owner : MoveOwner) (param : MoveAbiSignatureToken)
  | store (error : ε)
  | builder

def ownerFits (owner : MoveOwner) (mode : MovyInitObjectMode) (deployer : MoveAddress) : Bool :=
  match owner, mode with
  | .addressOwner addr, _ => addr = deployer
  | .immutable, .immutableRef => true
  | .shared _, .immutableRef => true
  | .shared _, .mutableRef => true
  | _, _ => false

def objectArgFor (object : MoveObjectInfo) (mode : MovyInitObjectMode) : Option ObjectArg :=
  match object.owner, mode with
  | .addressOwner _, _ => some (.immOrOwnedObject object.suiReference)
  | .immutable, .immutableRef => some (.immOrOwnedObject object.suiReference)
  | .shared v, .immutableRef => some (.sharedObject object.id v .immutable)
  | .shared v, .mutableRef => some (.sharedObject object.id v .mutable)
  | _, _ => none

section

variable {ε : Type} (deployer attacker : MoveAddress) (objects : List MoveObjectInfo)

def isCandidate (usedIds : List MoveAddress) (expectedTy : MoveTypeTag) (mode : MovyInitObjectMode)
    (object : MoveObjectInfo) : Bool :=
  if usedIds.contains object.id || object.ty ≠ expectedTy then false
  else ownerFits object.owner mode deployer

def movyInitObjectArgForParam (param : MoveAbiSignatureToken) (usedIds : List MoveAddress) :
    Except (MovyInitError ε) (MoveObjectInfo × ObjectArg) :=
  match movyInitParamTyAndMode param with
  | none => .error (.unsupportedParameter param)
  | some (expectedTy, mode) =>
    match objects.find? (isCandidate deployer usedIds expectedTy mode) with
    | none => .error (.noObject param)
    | some object => match objectArgFor object mode with
      | none => .error (.unsupportedOwner object.owner param)
      | some arg => .ok (object, arg)

structure InitArgs where
  builder : ProgrammableTransactionBuilder
  usedIds : List MoveAddress
  args : List Argument

def InitArgs.pushPure (bcs : PureValue → List Byte) (s : InitArgs) (addr : MoveAddress) :
    InitArgs :=
  let (arg, builder) := s.builder.pureBytes (bcs (.address addr))
  { s with builder := builder, args := s.args ++ [arg] }

def initArg (bcs : PureValue → List Byte) (s : InitArgs) (e : MoveAbiSignatureToken × ℕ) :
    Except (MovyInitError ε) InitArgs :=
  match e.2 with
  | 0 => .ok (s.pushPure bcs deployer)
  | 1 => .ok (s.pushPure bcs attacker)
  | _ => do
    let (object, objectArg) ← movyInitObjectArgForParam deployer objects e.1 s.usedIds
    match s.builder.obj objectArg with
    | none => .error .builder
    | some (arg, builder) => .ok ⟨builder, s.usedIds ++ [object.id], s.args ++ [arg]⟩

end

def buildMovyInitArgs {ε : Type} (listObjects : Except ε (List MoveAddress))
    (getObject : MoveAddress → Option StoredObject) (bcs : PureValue → List Byte)
    (builder : ProgrammableTransactionBuilder) (init : MoveFunctionAbi)
    (deployer attacker : MoveAddress) :
    Except (MovyInitError ε) (List Argument × ProgrammableTransactionBuilder) := do
  let ids ← listObjects.mapError MovyInitError.store
  let s ← init.parameters.zipIdx.foldlM
    (initArg deployer attacker (storedObjects getObject ids) bcs) ⟨builder, [], []⟩
  .ok (s.args, s.builder)

/-! ### Filter and match agree -/

def takenBy : MoveAbiSignatureToken → MovyInitObjectMode
  | .reference _ => .immutableRef
  | .mutableReference _ => .mutableRef
  | _ => .ownedValue

/- The object may be taken this way, and is passed as this argument. -/
inductive Passed (deployer : MoveAddress) (object : MoveObjectInfo) :
    MovyInitObjectMode → ObjectArg → Prop
  | owned (mode : MovyInitObjectMode) (howner : object.owner = .addressOwner deployer) :
      Passed deployer object mode (.immOrOwnedObject object.suiReference)
  | immutable (howner : object.owner = .immutable) :
      Passed deployer object .immutableRef (.immOrOwnedObject object.suiReference)
  | shared (v : SequenceNumber) (howner : object.owner = .shared v) :
      Passed deployer object .immutableRef (.sharedObject object.id v .immutable)
  | sharedMut (v : SequenceNumber) (howner : object.owner = .shared v) :
      Passed deployer object .mutableRef (.sharedObject object.id v .mutable)

/- An owner that passes the test of the search has a branch in the match. -/
theorem objectArgFor_of_fits (deployer : MoveAddress) (object : MoveObjectInfo)
    (mode : MovyInitObjectMode) (h : ownerFits object.owner mode deployer = true) :
    ∃ arg, objectArgFor object mode = some arg ∧ Passed deployer object mode arg := by
  unfold ownerFits at h
  unfold objectArgFor
  cases howner : object.owner with
  | addressOwner addr =>
    rw [howner] at h
    obtain rfl : addr = deployer := by simpa using h
    exact ⟨_, rfl, .owned mode howner⟩
  | immutable =>
    rw [howner] at h
    cases mode with
    | immutableRef => exact ⟨_, rfl, .immutable howner⟩
    | _ => cases h
  | shared v =>
    rw [howner] at h
    cases mode with
    | immutableRef => exact ⟨_, rfl, .shared v howner⟩
    | mutableRef => exact ⟨_, rfl, .sharedMut v howner⟩
    | ownedValue => cases h
  | _ =>
    rw [howner] at h
    cases h

theorem Passed.fits {deployer : MoveAddress} {object : MoveObjectInfo} {mode : MovyInitObjectMode}
    {arg : ObjectArg} (h : Passed deployer object mode arg) :
    ownerFits object.owner mode deployer = true := by
  cases h with
  | owned mode howner => simp [ownerFits, howner]
  | immutable howner => simp [ownerFits, howner]
  | shared v howner => simp [ownerFits, howner]
  | sharedMut v howner => simp [ownerFits, howner]

theorem paramTyAndMode_some (param : MoveAbiSignatureToken) (ty : MoveTypeTag)
    (mode : MovyInitObjectMode) (h : movyInitParamTyAndMode param = some (ty, mode)) :
    param.subst SortedMap.empty = some ty ∧ mode = takenBy param := by
  cases param with
  | struct | structInstantiation | reference | mutableReference =>
    obtain ⟨ty', hty, heq⟩ := Option.map_eq_some_iff.mp h
    obtain ⟨rfl, rfl⟩ := Prod.mk.inj heq
    exact ⟨hty, rfl⟩
  | _ => cases h

theorem paramTyAndMode_none (param : MoveAbiSignatureToken) (addr : MoveAddress)
    (module name : String) (tys : List MoveTypeTag) (h : movyInitParamTyAndMode param = none) :
    param.subst SortedMap.empty ≠ some (.struct addr module name tys) := by
  intro hty
  cases param with
  | struct | structInstantiation | reference | mutableReference =>
    have hnone := Option.map_eq_none_iff.mp h
    have hty := hnone.symm.trans hty
    cases hty
  | vector inner =>
    obtain ⟨_, _, heq⟩ := Option.map_eq_some_iff.mp hty
    cases heq
  | typeParameter index ability => cases hty
  | _ => cases hty

/-! ### One parameter -/

section

variable {ε : Type} (deployer : MoveAddress) (objects : List MoveObjectInfo)

/- What the parameter is given fits it. -/
structure ValidArgument (param : MoveAbiSignatureToken) (given : MoveObjectInfo × ObjectArg) :
    Prop where
  stored : given.1 ∈ objects
  type_eq : param.subst SortedMap.empty = some given.1.ty
  passed : Passed deployer given.1 (takenBy param) given.2

def Suits (param : MoveAbiSignatureToken) (object : MoveObjectInfo) : Prop :=
  object ∈ objects ∧ param.subst SortedMap.empty = some object.ty ∧
    ∃ arg, Passed deployer object (takenBy param) arg

/- Everything that the lookup can do: the branch for other owners is not reached. -/
theorem objectArgForParam_cases (param : MoveAbiSignatureToken) (usedIds : List MoveAddress) :
    (movyInitParamTyAndMode param = none ∧
      movyInitObjectArgForParam (ε := ε) deployer objects param usedIds =
        .error (.unsupportedParameter param)) ∨
    ((∀ object, Suits deployer objects param object → object.id ∈ usedIds) ∧
      movyInitObjectArgForParam (ε := ε) deployer objects param usedIds =
        .error (.noObject param)) ∨
    ∃ given, ValidArgument deployer objects param given ∧ given.1.id ∉ usedIds ∧
      movyInitObjectArgForParam (ε := ε) deployer objects param usedIds = .ok given := by
  unfold movyInitObjectArgForParam
  cases hparam : movyInitParamTyAndMode param with
  | none => exact .inl ⟨rfl, rfl⟩
  | some found =>
    obtain ⟨ty, mode⟩ := found
    obtain ⟨hty, rfl⟩ := paramTyAndMode_some param ty mode hparam
    right
    cases hfind : objects.find? (isCandidate deployer usedIds ty (takenBy param)) with
    | none =>
      refine .inl ⟨fun object hsuits => ?_, by simp only [hfind]⟩
      obtain ⟨hstored, htype, arg, hpassed⟩ := hsuits
      obtain rfl := Option.some.inj (hty.symm.trans htype)
      have hno := List.find?_eq_none.mp hfind object hstored
      simpa [isCandidate, hpassed.fits] using hno
    | some object =>
      have htest := List.find?_some hfind
      have hstored := List.mem_of_find?_eq_some hfind
      obtain ⟨hfree, hfits⟩ : ¬ (object.id ∈ usedIds ∨ object.ty ≠ ty) ∧
          ownerFits object.owner (takenBy param) deployer = true := by
        simpa [isCandidate] using htest
      obtain ⟨hunused, htype⟩ := not_or.mp hfree
      obtain ⟨arg, harg, hpassed⟩ := objectArgFor_of_fits deployer object _ hfits
      refine .inr ⟨(object, arg), ⟨hstored, ?_, hpassed⟩, hunused, ?_⟩
      · rw [hty, not_not.mp htype]
      · simp only [hfind, harg]

variable {deployer objects}

/-! ### All parameters -/

def givenIds (given : List (MoveObjectInfo × ObjectArg)) : List MoveAddress :=
  given.map fun g => g.1.id

variable (ε deployer objects)

/- The lookups of the loop: each sees the ids of the objects given before. -/
inductive Chosen : List MoveAbiSignatureToken → List (MoveObjectInfo × ObjectArg) → Prop
  | nil : Chosen [] []
  | snoc (params : List MoveAbiSignatureToken) (given : List (MoveObjectInfo × ObjectArg))
      (param : MoveAbiSignatureToken) (choice : MoveObjectInfo × ObjectArg)
      (hbefore : Chosen params given)
      (hchoice : movyInitObjectArgForParam (ε := ε) deployer objects param (givenIds given) =
        .ok choice) : Chosen (params ++ [param]) (given ++ [choice])

/- The parameters have been given objects that fit, and no object twice. -/
structure InitAssignment (params : List MoveAbiSignatureToken)
    (given : List (MoveObjectInfo × ObjectArg)) : Prop where
  chosen : Chosen ε deployer objects params given
  valid : List.Forall₂ (ValidArgument deployer objects) params given
  distinct : (givenIds given).Nodup

variable {ε deployer objects}

theorem objectArgForParam_ok {param : MoveAbiSignatureToken} {usedIds : List MoveAddress}
    {given : MoveObjectInfo × ObjectArg}
    (h : movyInitObjectArgForParam (ε := ε) deployer objects param usedIds = .ok given) :
    ValidArgument deployer objects param given ∧ given.1.id ∉ usedIds := by
  rcases objectArgForParam_cases (ε := ε) deployer objects param usedIds with
    ⟨_, herr⟩ | ⟨_, herr⟩ | ⟨given', hvalid, hunused, hok⟩
  · rw [herr] at h
    cases h
  · rw [herr] at h
    cases h
  · obtain rfl := Except.ok.inj (hok.symm.trans h)
    exact ⟨hvalid, hunused⟩

theorem Chosen.assignment {params : List MoveAbiSignatureToken}
    {given : List (MoveObjectInfo × ObjectArg)} (h : Chosen ε deployer objects params given) :
    InitAssignment ε deployer objects params given := by
  induction h with
  | nil => exact ⟨.nil, .nil, List.nodup_nil⟩
  | snoc params given param choice hbefore hchoice ih =>
    obtain ⟨hvalid, hunused⟩ := objectArgForParam_ok hchoice
    refine ⟨.snoc params given param choice hbefore hchoice,
      List.rel_append ih.valid (.cons hvalid .nil), ?_⟩
    rw [givenIds, List.map_append, List.nodup_append]
    refine ⟨ih.distinct, List.nodup_singleton _, ?_⟩
    intro id hid id' hid' heq
    rw [heq, List.mem_singleton.mp hid'] at hid
    exact hunused hid

/- The arguments that the builder makes of the objects. -/
def passObjects : ProgrammableTransactionBuilder → List ObjectArg →
    Option (List Argument × ProgrammableTransactionBuilder)
  | builder, [] => some ([], builder)
  | builder, objectArg :: rest => (builder.obj objectArg).bind fun r =>
    (passObjects r.2 rest).map fun rs => (r.1 :: rs.1, rs.2)

/- The builder takes the objects one by one until it returns an error at the last of them. -/
def Refused (builder : ProgrammableTransactionBuilder)
    (given : List (MoveObjectInfo × ObjectArg)) : Prop :=
  ∃ before last args builder', given = before ++ [last] ∧
    passObjects builder (before.map Prod.snd) = some (args, builder') ∧
    builder'.obj last.2 = none

theorem Refused.cons {builder made : ProgrammableTransactionBuilder} {arg : Argument}
    {choice : MoveObjectInfo × ObjectArg} {given : List (MoveObjectInfo × ObjectArg)}
    (hobj : builder.obj choice.2 = some (arg, made)) (h : Refused made given) :
    Refused builder (choice :: given) := by
  obtain ⟨before, last, args, builder', rfl, hpass, hlast⟩ := h
  refine ⟨choice :: before, last, arg :: args, builder', rfl, ?_, hlast⟩
  rw [List.map_cons, passObjects, hobj, Option.bind_some, hpass]
  rfl

/- What the rounds from the third on come to, by induction on the parameters that are left:
each is given an object, or the builder refuses one, or a lookup fails. -/
theorem foldlM_initArg (attacker : MoveAddress) (bcs : PureValue → List Byte)
    (rest : List MoveAbiSignatureToken) (n : ℕ) (s : InitArgs)
    (prior : List MoveAbiSignatureToken) (given : List (MoveObjectInfo × ObjectArg))
    (hchosen : Chosen ε deployer objects prior given) (hused : s.usedIds = givenIds given) :
    (∃ more args builder, Chosen ε deployer objects (prior ++ rest) (given ++ more) ∧
      passObjects s.builder (more.map Prod.snd) = some (args, builder) ∧
      (rest.zipIdx (n + 2)).foldlM (initArg (ε := ε) deployer attacker objects bcs) s =
        .ok ⟨builder, givenIds (given ++ more), s.args ++ args⟩) ∨
    (∃ k more, k < rest.length ∧ Chosen ε deployer objects (prior ++ rest.take (k + 1))
        (given ++ more) ∧ Refused s.builder more ∧
      (rest.zipIdx (n + 2)).foldlM (initArg (ε := ε) deployer attacker objects bcs) s =
        .error .builder) ∨
    ∃ (k : ℕ) (param : MoveAbiSignatureToken) (before : List (MoveObjectInfo × ObjectArg))
      (e : MovyInitError ε), rest[k]? = some param ∧
      Chosen ε deployer objects (prior ++ rest.take k) before ∧
      movyInitObjectArgForParam deployer objects param (givenIds before) = .error e ∧
      (rest.zipIdx (n + 2)).foldlM (initArg deployer attacker objects bcs) s = .error e := by
  induction rest generalizing n s prior given with
  | nil =>
    refine .inl ⟨[], [], s.builder, by simpa using hchosen, rfl, ?_⟩
    rw [List.append_nil, List.append_nil, ← hused]
    rfl
  | cons param rest ih =>
    rw [List.zipIdx_cons, List.foldlM_cons]
    cases hlookup : movyInitObjectArgForParam (ε := ε) deployer objects param s.usedIds with
    | error e =>
      refine .inr (.inr ⟨0, param, given, e, rfl, by simpa using hchosen, hused ▸ hlookup, ?_⟩)
      simp only [initArg, hlookup]
      rfl
    | ok choice =>
      obtain ⟨object, objectArg⟩ := choice
      cases hobj : s.builder.obj objectArg with
      | none =>
        have hnext := hchosen.snoc prior given param (object, objectArg) (hused ▸ hlookup)
        refine .inr (.inl ⟨0, [(object, objectArg)], Nat.succ_pos _, by simpa using hnext,
          ⟨[], _, [], s.builder, rfl, rfl, hobj⟩, ?_⟩)
        simp only [initArg, hlookup, bind, Except.bind, hobj]
      | some made =>
        obtain ⟨arg, builder⟩ := made
        have hround : initArg (ε := ε) deployer attacker objects bcs s (param, n + 2) =
            .ok ⟨builder, s.usedIds ++ [object.id], s.args ++ [arg]⟩ := by
          simp only [initArg, hlookup, bind, Except.bind, hobj]
        have hnext := hchosen.snoc prior given param (object, objectArg) (hused ▸ hlookup)
        have hids : s.usedIds ++ [object.id] = givenIds (given ++ [(object, objectArg)]) := by
          rw [hused, givenIds, givenIds, List.map_append]
          rfl
        rw [hround]
        rcases ih (n + 1) ⟨builder, s.usedIds ++ [object.id], s.args ++ [arg]⟩ (prior ++ [param])
          (given ++ [(object, objectArg)]) hnext hids with ⟨more, args, last, hall, hpass, hrun⟩ |
          ⟨k, more, hk, hall, hrefused, hrun⟩ | ⟨k, param', before, e, hparam, hall, herr, hrun⟩
        · refine .inl ⟨(object, objectArg) :: more, arg :: args, last, by simpa using hall, ?_, ?_⟩
          · rw [List.map_cons, passObjects, hobj, Option.bind_some, hpass]
            rfl
          · refine hrun.trans ?_
            simp
        · exact .inr (.inl ⟨k + 1, (object, objectArg) :: more, Nat.succ_lt_succ hk,
            by simpa using hall, hrefused.cons hobj, hrun⟩)
        · exact .inr (.inr ⟨k + 1, param', before, e, hparam, by simpa using hall, herr, hrun⟩)

end

theorem storedObjects_struct (getObject : MoveAddress → Option StoredObject)
    (ids : List MoveAddress) (object : MoveObjectInfo) (h : object ∈ storedObjects getObject ids) :
    ∃ addr module name tys, object.ty = .struct addr module name tys := by
  obtain ⟨id, _, h⟩ := List.mem_filterMap.mp h
  obtain ⟨stored, _, h⟩ := Option.bind_eq_some_iff.mp h
  cases stored with
  | move id addr module name tys owner version digest =>
    rw [← Option.some.inj h]
    exact ⟨addr, module, name, tys, rfl⟩
  | package => cases h

def NothingLeft (deployer : MoveAddress) (objects : List MoveObjectInfo)
    (param : MoveAbiSignatureToken) (given : List (MoveObjectInfo × ObjectArg)) : Prop :=
  param.instantiable 0 = false ∨
    ∃ ty, param.subst SortedMap.empty = some ty ∧ ∀ object ∈ objects, object.ty = ty →
      (∃ arg, Passed deployer object (takenBy param) arg) → object ∈ given.map Prod.fst

theorem lookup_error {ε : Type} {deployer : MoveAddress} {objects : List MoveObjectInfo}
    {param : MoveAbiSignatureToken} {params : List MoveAbiSignatureToken}
    {given : List (MoveObjectInfo × ObjectArg)} {e : MovyInitError ε}
    (hstruct : ∀ object ∈ objects, ∃ addr module name tys, object.ty = .struct addr module name tys)
    (hdistinct : (objects.map MoveObjectInfo.id).Nodup)
    (hgiven : List.Forall₂ (ValidArgument deployer objects) params given)
    (h : movyInitObjectArgForParam deployer objects param (givenIds given) = .error e) :
    (e = .unsupportedParameter param ∨ e = .noObject param) ∧
      NothingLeft deployer objects param given := by
  have hleft : (∀ object, Suits deployer objects param object → object.id ∈ givenIds given) →
      NothingLeft deployer objects param given := by
    intro hall
    rw [NothingLeft, ← subst_empty_isSome]
    cases hty : param.subst SortedMap.empty with
    | none => exact .inl rfl
    | some ty =>
      refine .inr ⟨ty, rfl, fun object hin htype hpassed => ?_⟩
      obtain ⟨g, hg, hid⟩ := List.mem_map.mp (hall object ⟨hin, by rw [hty, htype], hpassed⟩)
      obtain ⟨_, _, hvalid⟩ := exists_of_forall₂ hgiven.flip g hg
      exact List.mem_map.mpr
        ⟨g, hg, List.inj_on_of_nodup_map hdistinct hvalid.stored hin hid⟩
  rcases objectArgForParam_cases (ε := ε) deployer objects param (givenIds given) with
    ⟨hmode, herr⟩ | ⟨hall, herr⟩ | ⟨_, _, _, hok⟩
  · refine ⟨.inl (Except.error.inj (h.symm.trans herr)), hleft fun object hsuits => ?_⟩
    obtain ⟨hin, htype, _⟩ := hsuits
    obtain ⟨addr, module, name, tys, hty⟩ := hstruct object hin
    rw [hty] at htype
    exact absurd htype (paramTyAndMode_none param addr module name tys hmode)
  · exact ⟨.inr (Except.error.inj (h.symm.trans herr)), hleft hall⟩
  · rw [hok] at h
    cases h

/- The state after the two parameters that are no objects, as far as they are there. -/
def pushedAddresses (bcs : PureValue → List Byte) (builder : ProgrammableTransactionBuilder)
    (init : MoveFunctionAbi) (deployer attacker : MoveAddress) : InitArgs :=
  ([deployer, attacker].take init.parameters.length).foldl (InitArgs.pushPure bcs) ⟨builder, [], []⟩

section

variable (bcs : PureValue → List Byte) (builder : ProgrammableTransactionBuilder)
  (init : MoveFunctionAbi) (deployer attacker : MoveAddress)

theorem buildMovyInitArgs_ok {ε : Type} {listObjects : Except ε (List MoveAddress)}
    (getObject : MoveAddress → Option StoredObject) (ids : List MoveAddress)
    (hids : listObjects = .ok ids) :
    buildMovyInitArgs listObjects getObject bcs builder init deployer attacker =
      ((init.parameters.drop 2).zipIdx 2).foldlM
        (initArg deployer attacker (storedObjects getObject ids) bcs)
        (pushedAddresses bcs builder init deployer attacker) >>= fun s =>
          .ok (s.args, s.builder) := by
  subst hids
  obtain ⟨name, parameters, returns, typeParameters, visibility⟩ := init
  match parameters with
  | [] => rfl
  | [_] => rfl
  | p :: q :: rest =>
    have htake : [deployer, attacker].take (p :: q :: rest).length = [deployer, attacker] :=
      List.take_of_length_le (by simp)
    rw [pushedAddresses, htake]
    rfl

theorem pushedAddresses_usedIds :
    (pushedAddresses bcs builder init deployer attacker).usedIds = [] := by
  have hkeep : ∀ (addresses : List MoveAddress) (s : InitArgs),
      (addresses.foldl (InitArgs.pushPure bcs) s).usedIds = s.usedIds := by
    intro addresses
    induction addresses with
    | nil => exact fun s => rfl
    | cons addr addresses ih => exact fun s => ih (s.pushPure bcs addr)
  exact hkeep _ _

end

/- For any parameters and objects with different ids: the objects that are given fit their
parameters, and none is given twice. There is an error only where the database returns one, where
the builder refuses an object that fits, or where a parameter has no type or nothing of its type
is left. -/
theorem buildMovyInitArgs_assigns {ε : Type} (listObjects : Except ε (List MoveAddress))
    (getObject : MoveAddress → Option StoredObject) (bcs : PureValue → List Byte)
    (builder : ProgrammableTransactionBuilder) (init : MoveFunctionAbi)
    (deployer attacker : MoveAddress)
    (hdistinct : ∀ ids, listObjects = .ok ids →
      ((storedObjects getObject ids).map MoveObjectInfo.id).Nodup) :
    (∀ args builder', buildMovyInitArgs listObjects getObject bcs builder init deployer attacker =
        .ok (args, builder') →
      ∃ ids given objectArgs, listObjects = .ok ids ∧
        InitAssignment ε deployer (storedObjects getObject ids) (init.parameters.drop 2) given ∧
        passObjects (pushedAddresses bcs builder init deployer attacker).builder
          (given.map Prod.snd) = some (objectArgs, builder') ∧
        args = (pushedAddresses bcs builder init deployer attacker).args ++ objectArgs) ∧
    ∀ e, buildMovyInitArgs listObjects getObject bcs builder init deployer attacker = .error e →
      (∃ error, listObjects = .error error ∧ e = .store error) ∨
      (e = .builder ∧ ∃ (ids : List MoveAddress) (k : ℕ)
        (given : List (MoveObjectInfo × ObjectArg)), listObjects = .ok ids ∧
        2 ≤ k ∧ k < init.parameters.length ∧
        InitAssignment ε deployer (storedObjects getObject ids)
          ((init.parameters.take (k + 1)).drop 2) given ∧
        Refused (pushedAddresses bcs builder init deployer attacker).builder given) ∨
      ∃ (ids : List MoveAddress) (k : ℕ) (param : MoveAbiSignatureToken)
        (given : List (MoveObjectInfo × ObjectArg)), listObjects = .ok ids ∧
        2 ≤ k ∧ init.parameters[k]? = some param ∧
        InitAssignment ε deployer (storedObjects getObject ids) ((init.parameters.take k).drop 2)
          given ∧
        (e = .unsupportedParameter param ∨ e = .noObject param) ∧
        NothingLeft deployer (storedObjects getObject ids) param given := by
  cases hids : listObjects with
  | error error =>
    constructor
    · intro args builder' h
      cases h
    · intro e h
      exact .inl ⟨error, rfl, (Except.error.inj h).symm⟩
  | ok ids =>
    have hfirst : Chosen ε deployer (storedObjects getObject ids) [] [] := .nil
    rw [← hids, buildMovyInitArgs_ok bcs builder init deployer attacker getObject ids hids]
    rcases foldlM_initArg attacker bcs (init.parameters.drop 2) 0 _ [] [] hfirst
      (pushedAddresses_usedIds bcs builder init deployer attacker) with
      ⟨given, objectArgs, last, hchosen, hpass, hrun⟩ | ⟨k, given, hk, hchosen, hrefused, hrun⟩ |
      ⟨k, param, given, e', hparam, hchosen, herr, hrun⟩
    · rw [hrun]
      constructor
      · intro args builder' h
        obtain ⟨rfl, rfl⟩ := Prod.mk.inj (Except.ok.inj h)
        exact ⟨ids, given, objectArgs, hids, hchosen.assignment, hpass, rfl⟩
      · intro e h
        cases h
    · rw [hrun]
      constructor
      · intro args builder' h
        cases h
      · intro e h
        have hassigned := hchosen.assignment
        have hslice : (init.parameters.take (2 + k + 1)).drop 2 =
            (init.parameters.drop 2).take (k + 1) := by
          rw [List.drop_take, Nat.add_assoc, Nat.add_sub_cancel_left]
        rw [List.length_drop] at hk
        rw [List.nil_append, ← hslice] at hassigned
        exact .inr (.inl ⟨(Except.error.inj h).symm, ids, 2 + k, given, hids,
          Nat.le_add_right 2 k, by omega, hassigned, hrefused⟩)
    · rw [hrun]
      constructor
      · intro args builder' h
        cases h
      · intro e h
        obtain rfl := Except.error.inj h
        have hassigned := hchosen.assignment
        obtain ⟨hkind, hleft⟩ := lookup_error (storedObjects_struct getObject ids)
          (hdistinct ids hids) hassigned.valid herr
        have hslice : (init.parameters.take (2 + k)).drop 2 = (init.parameters.drop 2).take k := by
          rw [List.drop_take, Nat.add_sub_cancel_left]
        rw [List.getElem?_drop] at hparam
        rw [List.nil_append, ← hslice] at hassigned
        exact .inr (.inr ⟨ids, 2 + k, param, given, hids, Nat.le_add_right 2 k, hparam, hassigned,
          hkind, hleft⟩)

/- A shared configuration and a capability that the deployer owns; the configuration of
somebody else comes first. -/
def configHandle : MoveStructHandle :=
  ⟨⟨ObjectID.ofByte 7, "config"⟩, "Config", ⟨false, false, false, true⟩, []⟩

def capHandle : MoveStructHandle :=
  ⟨⟨ObjectID.ofByte 7, "config"⟩, "Cap", ⟨false, false, true, true⟩, []⟩

def configObjects : MoveAddress → Option StoredObject := fun id =>
  if id = ObjectID.ofByte 1 then
    some (.move id (ObjectID.ofByte 7) "config" "Config" []
      (.addressOwner (ObjectID.ofByte 9)) 2 [])
  else if id = ObjectID.ofByte 2 then
    some (.move id (ObjectID.ofByte 7) "config" "Config" [] (.shared 3) 4 [])
  else if id = ObjectID.ofByte 3 then
    some (.move id (ObjectID.ofByte 7) "config" "Cap" [] (.addressOwner (ObjectID.ofByte 8)) 5 [])
  else some .package

def configIds : Except Unit (List MoveAddress) :=
  .ok [ObjectID.ofByte 1, ObjectID.ofByte 2, ObjectID.ofByte 3, ObjectID.ofByte 7]

def configInit : MoveFunctionAbi :=
  ⟨"movy_init", [.address, .address, .mutableReference (.struct configHandle), .struct capHandle],
    [], [], .public_⟩

def addressBytes : PureValue → List Byte
  | .address addr => addr.bytes
  | _ => []

def configBuilder : ProgrammableTransactionBuilder :=
  ⟨(((IndexMap.empty.insert (.pure (ObjectID.ofByte 8).bytes)
      (.pure (ObjectID.ofByte 8).bytes)).insert
    (.pure (ObjectID.ofByte 9).bytes) (.pure (ObjectID.ofByte 9).bytes)).insert
    (.object (ObjectID.ofByte 2)) (.object (.sharedObject (ObjectID.ofByte 2) 3 .mutable))).insert
    (.object (ObjectID.ofByte 3)) (.object (.immOrOwnedObject (ObjectID.ofByte 3, 5, []))), []⟩

theorem buildMovyInitArgs_assigns_config : ∃ ids given objectArgs, configIds = .ok ids ∧
    InitAssignment Unit (ObjectID.ofByte 8) (storedObjects configObjects ids)
      (configInit.parameters.drop 2) given ∧
    passObjects (pushedAddresses addressBytes .new configInit (ObjectID.ofByte 8)
      (ObjectID.ofByte 9)).builder (given.map Prod.snd) = some (objectArgs, configBuilder) ∧
    [.input 0, .input 1, .input 2, .input 3] = (pushedAddresses addressBytes .new configInit
      (ObjectID.ofByte 8) (ObjectID.ofByte 9)).args ++ objectArgs :=
  (buildMovyInitArgs_assigns configIds configObjects addressBytes .new configInit
    (ObjectID.ofByte 8) (ObjectID.ofByte 9) (fun ids hids => by
      obtain rfl := Except.ok.inj hids
      decide)).1 [.input 0, .input 1, .input 2, .input 3] configBuilder rfl

end Movy.Fuzz
