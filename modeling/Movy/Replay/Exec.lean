import Movy.Fuzz.Meta
import Movy.Lib.Failing
import Movy.Replay.TargetDeployment
import Movy.Store.History
import Movy.Sui.Relink

/-!
# Transactions, deployments and upgrades (`movy-replay/src/exec.rs`)

The executor loads the inputs of a transaction from the database and hands them
to the execution engine. It commits nothing by itself; `deploy_contract` and
`upgrade_contract` commit what the engine returned once they have found the new
package in it.
-/

namespace Movy.Replay

open Store Movy.Types Sui
open Fuzz (MoveOwner MoveObjectInfo)

/-! ### Transactions -/

inductive TransactionKind where
  | programmable (ptb : ProgrammableTransaction)
  | system

structure TransactionRest where
  kind : TransactionKind
  sender : MoveAddress
  gas : List ObjectRef
  gasPrice : ℕ

abbrev Transaction := TransactionData TransactionRest

def Transaction.isSystemTx (tx : Transaction) : Bool :=
  match tx.rest.kind with
  | .programmable _ => false
  | .system => true

inductive InputObjectKind where
  | movePackage (id : ObjectID)
  | immOrOwnedMoveObject (ref : ObjectRef)
  | sharedMoveObject (id : ObjectID) (initialSharedVersion : SequenceNumber)
      (mutability : SharedObjectMutability)

structure ObjectReadResult where
  inputObjectKind : InputObjectKind
  object : Object

inductive WriteKind where
  | mutate
  | create
  | unwrap
  deriving DecidableEq

structure SuiEvent where
  module : String
  name : String
  contents : List Byte

structure ExecutionResults where
  effects : TransactionEffects
  /-- `effects.status().is_ok()` -/
  status : Bool
  /-- The `Debug` form of the status. -/
  statusDebug : String
  /-- `effects.all_changed_objects()` -/
  allChangedObjects : List (ObjectRef × MoveOwner × WriteKind)
  store : InnerTemporaryStore
  /-- `store.events.data` -/
  events : List SuiEvent
  /-- What the tree tracer prints of a failure, unless it is blank. -/
  failureViews : Option String

theorem empty_keyed (id : ObjectID) (o : Object)
    (h : (SortedMap.empty : SortedMap ObjectID Object).get? id = some o) : o.id = id := by
  rw [SortedMap.get?_empty] at h
  cases h

/-- The execution mode and, with a `GlobalDeployment` alive, what it answers. -/
inductive ExecutionMode where
  | normal
  | suiFuzzMode (targetedDeployment : Option ObjectID)

/-- What the executor takes from the Sui libraries. The engine reads the database
through its store interface only. -/
structure Engine where
  inputObjects : Transaction → Except String (List InputObjectKind)
  gasStatus : Transaction → Except String Unit
  executeTransactionToEffects :
    ExecutionMode → List ObjectReadResult → Transaction → CachedStore → ExecutionResults × List Read
  owner : Object → MoveOwner
  moveObjectInfo : Object → Option MoveObjectInfo
  isUpgradeCap : Object → Bool
  digest : Object → ObjectDigest
  serialize : CompiledModule → Except String (List Byte)
  digestForModulesAndDeps : List (List Byte) → List ObjectID → List Byte
  bcs : PureValue → List Byte
  bcsBytes : List Byte → List Byte

inductive ExecError where
  | invalidPtb (message : String)
  | packageNotFound (id : ObjectID)
  | objectNotFound (id : ObjectID) (version : SequenceNumber)
  | mismatchedInput (object : Object) (initialSharedVersion : SequenceNumber)
  | sharedObjectNotFound (id : ObjectID) (initialSharedVersion : SequenceNumber)
  | gasMissing (id : ObjectID) (version : SequenceNumber)
  | gasStatus (message : String)
  | storage (error : SuiError)
  | notFound (id : MoveAddress)
  | notAMoveObject
  | packageMissing (originalId : ObjectID)
  | upgradeCapMissing (cap : ObjectID)
  | nonZeroModule (address : ObjectID)
  | serialization (message : String)
  | builder
  | wrongTarget (deployed target : ObjectID)
  | noUpgradeCap (package : ObjectID)
  | failToDeploy
  | failToUpgrade
  | panic

abbrev Exec (α : Type) := Failing ExecError CachedStore α

namespace Exec

/-- A read of the database, and what becomes of an error of the store. -/
def getObject (id : ObjectID) : Exec (Option Object) := Failing.reading fun db => db.getObject id

def getObjectByKey (id : ObjectID) (version : SequenceNumber) : Exec (Option Object) :=
  Failing.reading fun db => db.getObjectByKey id version

def getPackageObject (id : ObjectID) : Exec (Option PackageObject) := do
  let answer ← Failing.reading fun db => db.getPackageObject id
  Failing.lift (answer.mapError ExecError.storage)

/-- `commit_store`; `none` is its panic, after some of its passes. -/
def commitStore (store : InnerTemporaryStore) (effects : TransactionEffects) : Exec Unit := fun db =>
  match db.commitStore store effects with
  | some db => (.ok (), db)
  | none => (.error .panic, db.commitStorePanicked store effects)

end Exec

def startVersion : MoveOwner → Option SequenceNumber
  | .shared initialSharedVersion => some initialSharedVersion
  | .consensusAddressOwner startVersion _ => some startVersion
  | _ => none

section

variable (engine : Engine)

def readInput (kind : InputObjectKind) : Exec ObjectReadResult :=
  match kind with
  | .movePackage id => do
    let package ← Exec.getPackageObject id
    let package ← Failing.orElse package (.packageNotFound id)
    pure ⟨kind, package.object⟩
  | .immOrOwnedMoveObject ref => do
    let object ← Exec.getObjectByKey ref.1 ref.2.1
    let object ← Failing.orElse object (.objectNotFound ref.1 ref.2.1)
    pure ⟨kind, object⟩
  | .sharedMoveObject id initialSharedVersion _ => do
    let object ← Exec.getObject id
    let object ← Failing.orElse object (.sharedObjectNotFound id initialSharedVersion)
    let start ← Failing.orElse (startVersion (engine.owner object)) .panic
    if initialSharedVersion = start then pure ⟨kind, object⟩
    else Failing.throw (.mismatchedInput object initialSharedVersion)

def readGas (gas : ObjectRef) : Exec ObjectReadResult := do
  let object ← Exec.getObjectByKey gas.1 gas.2.1
  let object ← Failing.orElse object (.gasMissing gas.1 gas.2.1)
  pure ⟨.immOrOwnedMoveObject gas, object⟩

/-- With a target, the engine runs under a `GlobalDeployment`. -/
def executionMode (tx : Transaction) (targetDeploymentId : Option ObjectID)
    (allowTestingCalls : Bool) : ExecutionMode :=
  match targetDeploymentId with
  | some target => .suiFuzzMode (some target)
  | none => if allowTestingCalls || tx.isSystemTx then .suiFuzzMode none else .normal

/-- The engine's run; its reads go through the database. -/
def execute (mode : ExecutionMode) (objects : List ObjectReadResult) (tx : Transaction) :
    Exec ExecutionResults :=
  Failing.reading fun db =>
    let r := engine.executeTransactionToEffects mode objects tx db
    (r.1, r.2.foldl (fun db read => (db.read read).2) db)

def runTxTraceInner (tx : Transaction) (targetDeploymentId : Option ObjectID)
    (allowTestingCalls : Bool) : Exec ExecutionResults := do
  let inputObjects ← Failing.lift ((engine.inputObjects tx).mapError ExecError.invalidPtb)
  let objects ← inputObjects.mapM (readInput engine)
  let gasObjects ← (if tx.isSystemTx then [] else tx.rest.gas).mapM readGas
  let _ ← Failing.lift (if tx.isSystemTx then .ok () else
    (engine.gasStatus tx).mapError ExecError.gasStatus)
  execute engine (executionMode tx targetDeploymentId allowTestingCalls) (objects ++ gasObjects) tx

def veryBigGas : ℕ := 10000000000000000000

def getMoveObjectInfo (id : MoveAddress) : Exec MoveObjectInfo := do
  let object ← Exec.getObject id
  let object ← Failing.orElse object (.notFound id)
  Failing.orElse (engine.moveObjectInfo object) .notAMoveObject

def runPtbWithGasInner (ptb : ProgrammableTransaction) (sender : MoveAddress) (gas : ObjectID)
    (targetDeployment : Option ObjectID) : Exec ExecutionResults := do
  let info ← getMoveObjectInfo engine gas
  runTxTraceInner engine
    ⟨veryBigGas / 1000, ⟨.programmable ptb, sender, [(info.id, info.version, info.digest)], 1⟩⟩
    targetDeployment false

def runPtbWithMovyTestingTracerGas (ptb : ProgrammableTransaction) (sender : MoveAddress)
    (gas : ObjectID) : Exec ExecutionResults := do
  let info ← getMoveObjectInfo engine gas
  runTxTraceInner engine
    ⟨veryBigGas / 1000, ⟨.programmable ptb, sender, [(info.id, info.version, info.digest)], 1⟩⟩
    none true

/-! ### Deploying and upgrading -/

structure SuiCompiledPackage where
  packageId : ObjectID
  packageNames : List String
  modules : List CompiledModule
  dependencies : List ObjectID

def moduleAddress (module : CompiledModule) : Option ObjectID :=
  module.selfHandle.bind fun h => module.addressIdentifiers[h.address]?

/-- The checks on the modules, and their bytes. -/
def moduleBytes (modules : List CompiledModule) : Exec (List (List Byte)) := do
  let addresses ← modules.mapM fun module => Failing.orElse (moduleAddress module) ExecError.panic
  match addresses.find? (· ≠ ZERO) with
  | some address => Failing.throw (.nonZeroModule address)
  | none => modules.mapM fun module =>
    Failing.lift ((engine.serialize module).mapError ExecError.serialization)

def deploymentTarget (packageId : ObjectID) : Option ObjectID :=
  if packageId ≠ ZERO then some packageId else none

/-- A created immutable object that is a package. -/
def newPackage (store : InnerTemporaryStore) (found : Option ObjectRef)
    (t : ObjectRef × MoveOwner × WriteKind) : Exec (Option ObjectRef) :=
  if t.2.2 = .create ∧ t.2.1 = .immutable then do
    let object ← Failing.orElse (store.written.get? t.1.1) ExecError.panic
    match object.data with
    | .package _ => pure (some t.1)
    | .move _ => pure found
  else pure found

def newUpgradeCap (store : InnerTemporaryStore) (found : Option ObjectRef)
    (t : ObjectRef × MoveOwner × WriteKind) : Exec (Option ObjectRef) :=
  match t.2.2, t.2.1 with
  | .create, .addressOwner _ => do
    let object ← Failing.orElse (store.written.get? t.1.1) ExecError.panic
    if engine.isUpgradeCap object then pure (some t.1) else pure found
  | _, _ => pure found

/-- The package that was found is at the target, if there is one. -/
def checkTarget (package : ObjectRef) (target : Option ObjectID) : Exec Unit :=
  match target with
  | some target =>
    if package.1 ≠ target then Failing.throw (.wrongTarget package.1 target) else pure ()
  | none => pure ()

def deployContract (admin : MoveAddress) (gas : ObjectID) (project : SuiCompiledPackage) :
    Exec (ObjectID × ObjectID) := do
  let modulesBytes ← moduleBytes engine project.modules
  let target := deploymentTarget project.packageId
  let ptb : ProgrammableTransaction :=
    ⟨[.pure (engine.bcs (.address admin))],
      [.publish modulesBytes project.dependencies, .transferObjects [.result 0] (.input 0)]⟩
  let out ← runPtbWithGasInner engine ptb admin gas target
  let found ← out.allChangedObjects.foldlM (fun found t => do
    let newObject ← newPackage out.store found.1 t
    let upgradeCap ← newUpgradeCap engine out.store found.2 t
    pure (newObject, upgradeCap)) (none, none)
  let newObject ← Failing.orElse found.1 .failToDeploy
  checkTarget newObject target
  let cap ← Failing.orElse found.2 (.noUpgradeCap newObject.1)
  Exec.commitStore out.store out.effects
  pure (newObject.1, cap.1)

/-- The transaction of an upgrade: authorize, upgrade, commit. -/
def upgradePtb (cap : ObjectRef) (digest : List Byte) (originalId : ObjectID)
    (dependencies : List ObjectID) (modulesBytes : List (List Byte)) :
    Option ProgrammableTransaction := do
  let (policy, builder) := ProgrammableTransactionBuilder.new.pureBytes (engine.bcs (.u8 0))
  let (digest, builder) := builder.pureBytes (engine.bcsBytes digest)
  let (cap, builder) ← builder.obj (.immOrOwnedObject cap)
  let (ticket, builder) := builder.command
    (.moveCall ⟨MoveAddress.two, "package", "authorize_upgrade", [], [cap, policy, digest]⟩)
  let (receipt, builder) := builder.command (.upgrade modulesBytes dependencies originalId ticket)
  let (_, builder) := builder.command
    (.moveCall ⟨MoveAddress.two, "package", "commit_upgrade", [], [cap, receipt]⟩)
  some builder.finish

def upgradeContract (deployer : MoveAddress) (gas originalId upgradeCap : ObjectID)
    (project : SuiCompiledPackage) : Exec ObjectID := do
  let original ← Exec.getObject originalId
  let _ ← Failing.orElse original (.packageMissing originalId)
  let cap ← Exec.getObject upgradeCap
  let cap ← Failing.orElse cap (.upgradeCapMissing upgradeCap)
  let modulesBytes ← moduleBytes engine project.modules
  let digest := engine.digestForModulesAndDeps modulesBytes project.dependencies
  let target := deploymentTarget project.packageId
  let ptb ← Failing.orElse (upgradePtb engine (cap.id, cap.version, engine.digest cap) digest
    originalId project.dependencies modulesBytes) .builder
  let out ← runPtbWithGasInner engine ptb deployer gas target
  let found ← out.allChangedObjects.foldlM (newPackage out.store) none
  let newObject ← Failing.orElse found .failToUpgrade
  checkTarget newObject target
  Exec.commitStore out.store out.effects
  pure newObject.1

end

/-! ### What the executor does to the database -/

/-- The database has only been read in between. -/
def OnlyReads (db db' : CachedStore) : Prop :=
  ∃ reads : List Read, db' = reads.foldl (fun db read => (db.read read).2) db

instance : Std.Refl OnlyReads := ⟨fun _ => ⟨[], rfl⟩⟩

instance : IsTrans CachedStore OnlyReads := ⟨fun a b c hab hbc => by
  obtain ⟨l, rfl⟩ := hab
  obtain ⟨m, rfl⟩ := hbc
  exact ⟨l ++ m, by rw [List.foldl_append]⟩⟩

theorem onlyReads_read (db : CachedStore) (r : Read) : OnlyReads db (db.read r).2 := ⟨[r], rfl⟩

open Failing

theorem within_getObject (id : ObjectID) : Within OnlyReads (Exec.getObject id) :=
  fun db => onlyReads_read db (.getObject id)

theorem within_getObjectByKey (id : ObjectID) (v : SequenceNumber) :
    Within OnlyReads (Exec.getObjectByKey id v) := fun db => onlyReads_read db (.getObjectByKey id v)

theorem within_getPackageObject (id : ObjectID) : Within OnlyReads (Exec.getPackageObject id) :=
  within_bind _ _ (fun db => onlyReads_read db (.getPackageObject id)) fun _ => within_lift _

variable (engine : Engine)

theorem within_readInput (kind : InputObjectKind) : Within OnlyReads (readInput engine kind) := by
  cases kind with
  | movePackage id =>
    exact within_bind _ _ (within_getPackageObject id) fun _ =>
      within_bind _ _ (within_orElse _ _) fun _ => within_pure _
  | immOrOwnedMoveObject ref =>
    exact within_bind _ _ (within_getObjectByKey _ _) fun _ =>
      within_bind _ _ (within_orElse _ _) fun _ => within_pure _
  | sharedMoveObject id v m =>
    refine within_bind _ _ (within_getObject id) fun _ => within_bind _ _ (within_orElse _ _)
      fun object => within_bind _ _ (within_orElse _ _) fun start => ?_
    split
    · exact within_pure _
    · exact within_throw _

theorem within_readGas (gas : ObjectRef) : Within OnlyReads (readGas gas) :=
  within_bind _ _ (within_getObjectByKey _ _) fun _ =>
    within_bind _ _ (within_orElse _ _) fun _ => within_pure _

theorem within_getMoveObjectInfo (id : MoveAddress) :
    Within OnlyReads (getMoveObjectInfo engine id) :=
  within_bind _ _ (within_getObject id) fun _ =>
    within_bind _ _ (within_orElse _ _) fun _ => within_orElse _ _

theorem within_runTxTraceInner (tx : Transaction) (target : Option ObjectID)
    (allowTestingCalls : Bool) :
    Within OnlyReads (runTxTraceInner engine tx target allowTestingCalls) := by
  refine within_bind _ _ (within_lift _) fun kinds => ?_
  refine within_bind _ _ (within_mapM _ _ (within_readInput engine)) fun objects => ?_
  refine within_bind _ _ (within_mapM _ _ within_readGas) fun gasObjects => ?_
  exact within_bind _ _ (within_lift _) fun _ => fun db => ⟨_, rfl⟩

theorem within_runPtbWithGasInner (ptb : ProgrammableTransaction) (sender : MoveAddress)
    (gas : ObjectID) (target : Option ObjectID) :
    Within OnlyReads (runPtbWithGasInner engine ptb sender gas target) :=
  within_bind _ _ (within_getMoveObjectInfo engine gas) fun _ =>
    within_runTxTraceInner engine _ _ _

theorem within_runPtbWithMovyTestingTracerGas (ptb : ProgrammableTransaction)
    (sender : MoveAddress) (gas : ObjectID) :
    Within OnlyReads (runPtbWithMovyTestingTracerGas engine ptb sender gas) :=
  within_bind _ _ (within_getMoveObjectInfo engine gas) fun _ =>
    within_runTxTraceInner engine _ _ _

theorem within_moduleBytes (modules : List CompiledModule) :
    Within OnlyReads (moduleBytes engine modules) := by
  refine within_bind _ _ (within_mapM _ _ fun _ => within_orElse _ _) fun addresses => ?_
  split
  · exact within_throw _
  · exact within_mapM _ _ fun _ => within_lift _

theorem within_newPackage (store : InnerTemporaryStore) (found : Option ObjectRef)
    (t : ObjectRef × MoveOwner × WriteKind) : Within OnlyReads (newPackage store found t) := by
  unfold newPackage
  split
  · refine within_bind _ _ (within_orElse _ _) fun object => ?_
    split <;> exact within_pure _
  · exact within_pure _

theorem within_newUpgradeCap (store : InnerTemporaryStore) (found : Option ObjectRef)
    (t : ObjectRef × MoveOwner × WriteKind) :
    Within OnlyReads (newUpgradeCap engine store found t) := by
  unfold newUpgradeCap
  split
  · refine within_bind _ _ (within_orElse _ _) fun object => ?_
    split <;> exact within_pure _
  · exact within_pure _

theorem within_checkTarget (package : ObjectRef) (target : Option ObjectID) :
    Within OnlyReads (checkTarget package target) := by
  unfold checkTarget
  split
  · split
    · exact within_throw _
    · exact within_pure _
  · exact within_pure _

/-! ### What a deployment has committed -/

/-- `package` is a package that the transaction wrote. -/
def WrotePackage (store : InnerTemporaryStore) (package : ObjectID) : Prop :=
  ∃ object modules, store.written.get? package = some object ∧ object.data = .package modules

/-- A command of the transaction publishes the modules or upgrades to them. -/
def Carries (ptb : ProgrammableTransaction) (modulesBytes : List (List Byte))
    (dependencies : List ObjectID) : Prop :=
  .publish modulesBytes dependencies ∈ ptb.commands ∨
    ∃ package ticket, .upgrade modulesBytes dependencies package ticket ∈ ptb.commands

/-- The engine returned `out` for a transaction with the modules of the project, under the
target that the project asks for; apart from that the database has only been read. -/
def Transacted (project : SuiCompiledPackage) (db mid : CachedStore) (out : ExecutionResults) :
    Prop :=
  ∃ s start after modulesBytes ptb sender gas, OnlyReads db s ∧
    moduleBytes engine project.modules s = (.ok modulesBytes, start) ∧
    Carries ptb modulesBytes project.dependencies ∧
    runPtbWithGasInner engine ptb sender gas (deploymentTarget project.packageId) start =
      (.ok out, after) ∧ OnlyReads after mid

/-- The database is that of the transaction, committed. -/
structure Committed (project : SuiCompiledPackage) (db db' : CachedStore) (package : ObjectID) :
    Prop where
  committed : ∃ mid out, Transacted engine project db mid out ∧
    mid.commitStore out.store out.effects = some db' ∧ WrotePackage out.store package
  atTarget : project.packageId ≠ ZERO → package = project.packageId

/-- The commit of what the engine returned has panicked. -/
def Interrupted (project : SuiCompiledPackage) (db db' : CachedStore) : Prop :=
  ∃ mid out, Transacted engine project db mid out ∧
    mid.commitStore out.store out.effects = none ∧
    db' = mid.commitStorePanicked out.store out.effects

/-- Everything that a deployment can do: it ends before the commit, or comes to the commit with
a package that the engine has written. -/
inductive Deployment {α : Type} (project : SuiCompiledPackage) (package : α → ObjectID)
    (db : CachedStore) : Except ExecError α × CachedStore → Prop
  | failed (e : ExecError) (db' : CachedStore) (hreads : OnlyReads db db') :
      Deployment project package db (.error e, db')
  | reached (mid : CachedStore) (out : ExecutionResults) (a : α)
      (hrun : Transacted engine project db mid out) (hwrote : WrotePackage out.store (package a))
      (htarget : project.packageId ≠ ZERO → package a = project.packageId) :
      Deployment project package db
        ((Exec.commitStore out.store out.effects >>= fun _ => Pure.pure a) mid)

theorem newPackage_eq_ok (store : InnerTemporaryStore) (found found' : Option ObjectRef)
    (t : ObjectRef × MoveOwner × WriteKind) (db db' : CachedStore)
    (h : newPackage store found t db = (.ok found', db'))
    (hfound : ∀ ref, found = some ref → WrotePackage store ref.1) :
    ∀ ref, found' = some ref → WrotePackage store ref.1 := by
  unfold newPackage at h
  split at h
  · obtain ⟨object, u, hread, h⟩ := (bind_eq_ok _ _ _ _ _).mp h
    obtain ⟨ho, rfl⟩ := (orElse_eq_ok _ _ _ _ _).mp hread
    cases hdata : object.data with
    | package modules =>
      rw [hdata] at h
      obtain ⟨rfl, -⟩ := (pure_eq_ok _ _ _ _).mp h
      intro ref href
      obtain rfl := Option.some.inj href
      exact ⟨object, modules, ho, hdata⟩
    | move contents =>
      rw [hdata] at h
      obtain ⟨rfl, -⟩ := (pure_eq_ok _ _ _ _).mp h
      exact hfound
  · obtain ⟨rfl, -⟩ := (pure_eq_ok _ _ _ _).mp h
    exact hfound

theorem checkTarget_eq_ok (package : ObjectRef) (packageId : ObjectID) (u : Unit)
    (db db' : CachedStore) (h : checkTarget package (deploymentTarget packageId) db = (.ok u, db')) :
    db' = db ∧ (packageId ≠ ZERO → package.1 = packageId) := by
  unfold checkTarget deploymentTarget at h
  by_cases hz : packageId = ZERO
  · simp only [hz, ne_eq, not_true_eq_false, if_false] at h
    obtain ⟨-, rfl⟩ := (pure_eq_ok _ _ _ _).mp h
    exact ⟨rfl, fun hne => absurd hz hne⟩
  · simp only [ne_eq, hz, not_false_eq_true, if_true] at h
    split at h
    · exact absurd h (throw_ne_ok _ _ _ _)
    · rename_i heq
      obtain ⟨-, rfl⟩ := (pure_eq_ok _ _ _ _).mp h
      exact ⟨rfl, fun _ => not_not.mp heq⟩

theorem commitStore_eq_ok (store : InnerTemporaryStore) (effects : TransactionEffects) (u : Unit)
    (db db' : CachedStore) (h : Exec.commitStore store effects db = (.ok u, db')) :
    db.commitStore store effects = some db' := by
  unfold Exec.commitStore at h
  split at h
  · rename_i next hnext
    cases h
    exact hnext
  · cases h

theorem newPackages_eq_ok (store : InnerTemporaryStore) {β : Type} (package : β → Option ObjectRef)
    (f : β → ObjectRef × MoveOwner × WriteKind → Exec β)
    (hf : ∀ b t db b' db', f b t db = (.ok b', db') →
      ∃ mid, newPackage store (package b) t db = (.ok (package b'), mid))
    (l : List (ObjectRef × MoveOwner × WriteKind)) (b b' : β) (db db' : CachedStore)
    (hnone : package b = none) (h : l.foldlM f b db = (.ok b', db')) (ref : ObjectRef)
    (href : package b' = some ref) : WrotePackage store ref.1 := by
  refine foldlM_eq_ok (fun b => ∀ ref, package b = some ref → WrotePackage store ref.1) f l b b'
    db db' ?_ ?_ h ref href
  · intro ref href
    rw [hnone] at href
    cases href
  · intro c t c' s u hc _ hround
    obtain ⟨mid, hnew⟩ := hf c t s c' u hround
    exact newPackage_eq_ok store (package c) (package c') t s mid hnew hc

theorem carries_upgradePtb (cap : ObjectRef) (digest : List Byte) (originalId : ObjectID)
    (dependencies : List ObjectID) (modulesBytes : List (List Byte)) (ptb : ProgrammableTransaction)
    (h : upgradePtb engine cap digest originalId dependencies modulesBytes = some ptb) :
    Carries ptb modulesBytes dependencies := by
  obtain ⟨built, _, h⟩ := Option.bind_eq_some_iff.mp h
  rw [← Option.some.inj h]
  exact .inr ⟨originalId, _,
    List.mem_append_left _ (List.mem_append_right _ (List.mem_singleton_self _))⟩

theorem Deployment.bind {α β : Type} {project : SuiCompiledPackage} {package : β → ObjectID}
    {db s : CachedStore} {x : Exec α} {f : α → Exec β} (hx : Within OnlyReads x)
    (hdb : OnlyReads db s)
    (hf : ∀ a t, x s = (.ok a, t) → OnlyReads s t → OnlyReads db t →
      Deployment engine project package db (f a t)) :
    Deployment engine project package db ((x >>= f) s) := by
  rcases bind_cases hx f s with ⟨e, t, h, hr⟩ | ⟨a, t, h, hr, hnext⟩
  · rw [h]
    exact .failed e t (IsTrans.trans _ _ _ hdb hr)
  · rw [hnext]
    exact hf a t h hr (IsTrans.trans _ _ _ hdb hr)

theorem deployContract_deployment (admin : MoveAddress) (gas : ObjectID)
    (project : SuiCompiledPackage) (db : CachedStore) :
    Deployment engine project Prod.fst db (deployContract engine admin gas project db) := by
  have hround : ∀ store (found : Option ObjectRef × Option ObjectRef) t, Within OnlyReads (do
      let newObject ← newPackage store found.1 t
      let upgradeCap ← newUpgradeCap engine store found.2 t
      (Pure.pure (newObject, upgradeCap) : Exec _)) := fun store found t =>
    within_bind _ _ (within_newPackage _ _ _) fun _ =>
      within_bind _ _ (within_newUpgradeCap engine _ _ _) fun _ => within_pure _
  unfold deployContract
  refine .bind engine (within_moduleBytes engine _) (Std.Refl.refl db)
    fun modulesBytes s₁ h₁ _ hr₁ => ?_
  refine .bind engine (within_runPtbWithGasInner engine _ _ _ _) hr₁ fun out s₂ h₂ _ hr₂ => ?_
  refine .bind engine (within_foldlM _ _ _ (hround out.store)) hr₂ fun found s₃ h₃ hs₃ hr₃ => ?_
  refine .bind engine (within_orElse _ _) hr₃ fun newObject s₄ h₄ hs₄ hr₄ => ?_
  refine .bind engine (within_checkTarget _ _) hr₄ fun u s₅ h₅ hs₅ hr₅ => ?_
  refine .bind engine (within_orElse _ _) hr₅ fun cap s₆ h₆ hs₆ _ => ?_
  have hafter := IsTrans.trans _ _ _ hs₃ (IsTrans.trans _ _ _ hs₄ (IsTrans.trans _ _ _ hs₅ hs₆))
  refine .reached s₆ out (newObject.1, cap.1)
    ⟨db, s₁, s₂, modulesBytes, _, admin, gas, Std.Refl.refl db, h₁, ?_, h₂, hafter⟩ ?_ ?_
  · exact .inl List.mem_cons_self
  · obtain ⟨hnew, -⟩ := (orElse_eq_ok _ _ _ _ _).mp h₄
    refine newPackages_eq_ok out.store Prod.fst _ ?_ _ _ found s₂ s₃ rfl h₃ newObject hnew
    intro b t b' w w' hstep
    obtain ⟨newObject, w₁, hn, hstep⟩ := (bind_eq_ok _ _ _ _ _).mp hstep
    obtain ⟨upgradeCap, w₂, -, hstep⟩ := (bind_eq_ok _ _ _ _ _).mp hstep
    obtain ⟨rfl, -⟩ := (pure_eq_ok _ _ _ _).mp hstep
    exact ⟨w₁, hn⟩
  · exact (checkTarget_eq_ok newObject project.packageId u s₄ s₅ h₅).2

theorem upgradeContract_deployment (deployer : MoveAddress) (gas originalId upgradeCap : ObjectID)
    (project : SuiCompiledPackage) (db : CachedStore) :
    Deployment engine project id db
      (upgradeContract engine deployer gas originalId upgradeCap project db) := by
  unfold upgradeContract
  refine .bind engine (within_getObject _) (Std.Refl.refl db) fun original s₁ _ _ hr₁ => ?_
  refine .bind engine (within_orElse _ _) hr₁ fun _ s₂ _ _ hr₂ => ?_
  refine .bind engine (within_getObject _) hr₂ fun found s₃ _ _ hr₃ => ?_
  refine .bind engine (within_orElse _ _) hr₃ fun cap s₄ _ _ hr₄ => ?_
  refine .bind engine (within_moduleBytes engine _) hr₄ fun modulesBytes s₅ h₅ _ hr₅ => ?_
  refine .bind engine (within_orElse _ _) hr₅ fun ptb s₆ h₆ _ hr₆ => ?_
  obtain ⟨hptb, rfl⟩ := (orElse_eq_ok _ _ _ _ _).mp h₆
  refine .bind engine (within_runPtbWithGasInner engine _ _ _ _) hr₆ fun out s₇ h₇ _ hr₇ => ?_
  refine .bind engine (within_foldlM _ _ _ (within_newPackage out.store)) hr₇
    fun found s₈ h₈ hs₈ hr₈ => ?_
  refine .bind engine (within_orElse _ _) hr₈ fun newObject s₉ h₉ hs₉ hr₉ => ?_
  refine .bind engine (within_checkTarget _ _) hr₉ fun u s₁₀ h₁₀ hs₁₀ _ => ?_
  have hafter := IsTrans.trans _ _ _ hs₈ (IsTrans.trans _ _ _ hs₉ hs₁₀)
  refine .reached s₁₀ out newObject.1
    ⟨s₄, s₅, s₇, modulesBytes, ptb, deployer, gas, hr₄, h₅, ?_, h₇, hafter⟩ ?_ ?_
  · exact carries_upgradePtb engine _ _ _ _ _ ptb hptb
  · obtain ⟨hnew, -⟩ := (orElse_eq_ok _ _ _ _ _).mp h₉
    refine newPackages_eq_ok out.store (fun found => found) _ ?_ _ _ found s₇ s₈ rfl h₈ newObject
      hnew
    exact fun b t b' w w' hstep => ⟨w', hstep⟩
  · exact (checkTarget_eq_ok newObject project.packageId u s₉ s₁₀ h₁₀).2

/-- What became of the database by the end. A panic may come out of the commit itself. -/
def Atomic {α : Type} (x : Exec α) (package : α → ObjectID) (project : SuiCompiledPackage)
    (db : CachedStore) : Prop :=
  match x db with
  | (.ok a, db') => Committed engine project db db' (package a)
  | (.error .panic, db') => OnlyReads db db' ∨ Interrupted engine project db db'
  | (.error _, db') => OnlyReads db db'

theorem Deployment.ok {α : Type} {project : SuiCompiledPackage} {package : α → ObjectID}
    {db db' : CachedStore} {a : α} (h : Deployment engine project package db (.ok a, db')) :
    Committed engine project db db' (package a) := by
  generalize hx : ((.ok a, db') : Except ExecError α × CachedStore) = x at h
  cases h with
  | failed e t hreads => cases hx
  | reached mid out a' hrun hwrote htarget =>
    obtain ⟨u, t, hcommit, hpure⟩ := (bind_eq_ok _ _ _ _ _).mp hx.symm
    obtain ⟨rfl, rfl⟩ := (pure_eq_ok _ _ _ _).mp hpure
    exact ⟨⟨mid, out, hrun, commitStore_eq_ok out.store out.effects u mid t hcommit, hwrote⟩,
      htarget⟩

theorem Deployment.error {α : Type} {project : SuiCompiledPackage} {package : α → ObjectID}
    {db db' : CachedStore} {e : ExecError} (h : Deployment engine project package db (.error e, db')) :
    OnlyReads db db' ∨ (e = .panic ∧ Interrupted engine project db db') := by
  generalize hx : ((.error e, db') : Except ExecError α × CachedStore) = x at h
  cases h with
  | failed e' t hreads =>
    obtain ⟨-, rfl⟩ := Prod.mk.inj hx
    exact .inl hreads
  | reached mid out a' hrun hwrote htarget =>
    rcases (bind_eq_error _ _ _ _ _).mp hx.symm with hcommit | ⟨u, t, -, hpure⟩
    · unfold Exec.commitStore at hcommit
      cases hdone : mid.commitStore out.store out.effects with
      | some next =>
        rw [hdone] at hcommit
        cases hcommit
      | none =>
        rw [hdone] at hcommit
        obtain ⟨herr, rfl⟩ := Prod.mk.inj hcommit
        exact .inr ⟨(Except.error.inj herr).symm, mid, out, hrun, hdone, rfl⟩
    · cases hpure

theorem Deployment.atomic {α : Type} {project : SuiCompiledPackage} {package : α → ObjectID}
    {x : Exec α} {db : CachedStore} (h : Deployment engine project package db (x db)) :
    Atomic engine x package project db := by
  unfold Atomic
  rcases hx : x db with ⟨r, db'⟩
  rw [hx] at h
  cases r with
  | ok a => exact h.ok
  | error e =>
    rcases h.error with hreads | ⟨rfl, hpanic⟩
    · cases e with
      | panic => exact .inl hreads
      | _ => exact hreads
    · exact .inr hpanic

theorem deployContract_eq_ok (admin : MoveAddress) (gas : ObjectID) (project : SuiCompiledPackage)
    (db db' : CachedStore) (r : ObjectID × ObjectID)
    (h : deployContract engine admin gas project db = (.ok r, db')) :
    Committed engine project db db' r.1 :=
  Deployment.ok engine (h ▸ deployContract_deployment engine admin gas project db)

theorem upgradeContract_eq_ok (deployer : MoveAddress) (gas originalId upgradeCap : ObjectID)
    (project : SuiCompiledPackage) (db db' : CachedStore) (r : ObjectID)
    (h : upgradeContract engine deployer gas originalId upgradeCap project db = (.ok r, db')) :
    Committed engine project db db' r :=
  Deployment.ok engine (h ▸ upgradeContract_deployment engine deployer gas _ _ project db)

/-- A deployment and an upgrade either return an error, having only read the database, or commit
what the engine returned for the one transaction with the modules of the project; the package
they return was written in it, at the id the project asks for if it asks for one. Only a panic
inside the commit leaves part of the transaction behind. -/
theorem deployments_atomic (admin gas originalId upgradeCap : ObjectID)
    (project : SuiCompiledPackage) (db : CachedStore) :
    Atomic engine (deployContract engine admin gas project) Prod.fst project db ∧
      Atomic engine (upgradeContract engine admin gas originalId upgradeCap project) id project db :=
  ⟨(deployContract_deployment engine admin gas project db).atomic,
    (upgradeContract_deployment engine admin gas _ _ project db).atomic⟩

end Movy.Replay
