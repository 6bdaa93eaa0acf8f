import Movy.Fuzz.MovyInit
import Movy.Replay.Exec
import Movy.Replay.OnchainFallback
import Mathlib.Data.String.Basic

/-!
# Deploying local packages (`movy-replay/src/env.rs`, `movy/src/sui/env.rs`)

`load_local` compiles a package and deploys it, first under its original id and
then as an upgrade if the two differ, or at the address that `--deploy-at` gives
for one of its names. `build_env` does so for all local packages.
-/

namespace Movy.Replay

open Store Movy.Types Sui Failing
open Fuzz (MovePackageAbi MoveModuleAbi MoveFunctionAbi StoredObject MovyInitError)

variable {Path : Type}

/-- The compiler, the chain and the ABIs, as `load_local` and `build_env` see them. -/
structure Workspace (Path : Type) where
  engine : Engine
  rpc : GraphQlDatabase
  linkageTable : List Byte → SortedMap ObjectID UpgradeInfo
  /-- `build_checked` without and with test mode -/
  buildChecked : Path → Bool → Except String SuiCompiledPackage
  abi : SuiCompiledPackage → Except String MovePackageAbi
  immediateDependencies : CompiledModule → List ObjectID
  /-- `MovePackageAbi::from_sui_object` -/
  fromSuiObject : Object → Except String MovePackageAbi
  storedObject : Object → StoredObject
  bundledLocalPackageMapping : Path → Except String (Option (String × MoveAddress))
  /-- `filter_objects` for shared objects of a type at the checkpoint -/
  filterObjects : MoveModuleId → Except String (List Object)

inductive LoadError where
  | build (message : String)
  | conflictingNames (packageNames : List String)
  | conflictingEntry (name : String)
  | unmatched (names : List String)
  | addressesDiffer
  | exec (error : ExecError)
  | fetch (error : FetchError)
  | outOfFuel
  | movyInit (error : MovyInitError Unit)
  | movyInitReverts
  | rpc (message : String)
  | canNotLoad (address : MoveAddress)

abbrev Load (α : Type) := Failing LoadError CachedStore α

def Load.exec {α : Type} (x : Exec α) : Load α := mapError .exec x

/-! ### `load_local` -/

def SuiCompiledPackage.movyMock (self : SuiCompiledPackage) : SuiCompiledPackage :=
  let deps := self.dependencies.foldl (fun deps dep => deps.insert dep ()) SortedMap.empty
  { self with dependencies := deps.entries.map Prod.fst }

/-- `all_equal_value` on the addresses of the modules. -/
def allEqualValue : List ObjectID → Option ObjectID
  | [] => none
  | a :: rest => if rest.all (· = a) then some a else none

/-- The address that the names of a package are pinned to. -/
def pinnedAddress (pinnedAddresses : SortedMap String MoveAddress) (packageNames : List String) :
    Option MoveAddress → List String → Except LoadError (Option MoveAddress)
  | matched, [] => .ok matched
  | matched, name :: rest => match pinnedAddresses.get? name with
    | none => pinnedAddress pinnedAddresses packageNames matched rest
    | some addr =>
      if matched.any (· ≠ addr) then .error (.conflictingNames packageNames)
      else pinnedAddress pinnedAddresses packageNames (some addr) rest

section

variable (w : Workspace Path) (deployer attacker gas : MoveAddress)

/-- The ids that the on-chain fallback starts with. -/
def packagesToFetch (abiResult : SuiCompiledPackage) : Finset ObjectID :=
  (abiResult.dependencies ++ abiResult.modules.flatMap w.immediateDependencies).toFinset

def loadOnchain (fuel : Option ℕ) (own : ObjectID) (ids : Finset ObjectID) : Load Unit := fun db =>
  match fuel with
  | none => (.ok (), db)
  | some fuel => match onchainFallback w.linkageTable w.rpc own fuel db ids with
    | some db => (.ok (), db)
    | none => (.error .outOfFuel, db)

/-- The deployment, for modules at `0x0` whose address was `moduleAddress`. -/
def deployOrUpgrade (compiled : SuiCompiledPackage) (moduleAddress : ObjectID) : Load ObjectID :=
  if moduleAddress = ZERO ∨ moduleAddress = compiled.packageId then do
    let r ← Load.exec (deployContract w.engine deployer gas compiled)
    pure r.1
  else do
    let r ← Load.exec (deployContract w.engine deployer gas
      { compiled with packageId := moduleAddress })
    Load.exec (upgradeContract w.engine deployer gas r.1 r.2 compiled)

/-- `get_package_info`. -/
def getPackageInfo (id : MoveAddress) : Load (Option MovePackageAbi) := do
  let object ← Load.exec (Exec.getObject id)
  match object with
  | none => pure none
  | some object => do
    let abi ← Failing.lift ((w.fromSuiObject object).mapError LoadError.rpc)
    pure (some abi)

def isTestOnlyModule (md : MoveModuleAbi) : Bool :=
  md.functions.any fun f => f.name = "unit_test_poison"

def locateMovyInit (md : MoveModuleAbi) : Option MoveFunctionAbi :=
  md.functions.find? fun f => f.name = "movy_init"

def listObjects (db : CachedStore) : List ObjectID := db.inner.objects.entries.map Prod.fst

def readObjects (db : CachedStore) : CachedStore :=
  (listObjects db).foldl (fun db id => (db.getObject id).2) db

def movyInitArgs (init : MoveFunctionAbi) :
    Load (List Argument × ProgrammableTransactionBuilder) := fun db =>
  ((Fuzz.buildMovyInitArgs (.ok (listObjects db)) (fun id => (db.byId id).map w.storedObject)
    w.engine.bcs .new init deployer attacker).mapError LoadError.movyInit, readObjects db)

def runMovyInit (address : ObjectID) (md : MoveModuleAbi) : Load Unit :=
  match isTestOnlyModule md, locateMovyInit md with
  | true, some init => do
    let r ← movyInitArgs w deployer attacker init
    let ptb := (r.2.command
      (.moveCall ⟨address, md.moduleId.moduleName, init.name, [], r.1⟩)).2.finish
    let results ← Load.exec (runPtbWithGasInner w.engine ptb deployer gas none)
    if results.status then Load.exec (Exec.commitStore results.store results.effects)
    else Failing.throw .movyInitReverts
  | _, _ => pure ()

/-- The compiled package with its modules at `0x0`, and the id that it is first
deployed under. -/
def placePackage (compiled : SuiCompiledPackage) (pinned : Option MoveAddress) :
    Load (SuiCompiledPackage × ObjectID) := do
  let addresses ← compiled.modules.mapM fun md =>
    Failing.orElse (moduleAddress md) (LoadError.exec .panic)
  let moduleAddress ← Failing.orElse (allEqualValue addresses) LoadError.addressesDiffer
  let modules ← compiled.modules.mapM fun md =>
    Failing.orElse (CompiledModule.mockModuleAddress ZERO md) (LoadError.exec .panic)
  pure (match pinned with
    | some pinned => ({ compiled with modules := modules, packageId := pinned }, ZERO)
    | none => ({ compiled with modules := modules }, moduleAddress))

def loadLocal (path : Path) (onchainFallbackFuel : Option ℕ)
    (pinnedAddresses : SortedMap String MoveAddress) : Load (MoveAddress × List String) := do
  let abiResult ← Failing.lift ((w.buildChecked path false).mapError LoadError.build)
  let _ ← Failing.lift ((w.abi abiResult).mapError LoadError.build)
  let compiled ← Failing.lift ((w.buildChecked path true).mapError LoadError.build)
  let packageNames := compiled.packageNames
  let compiled := compiled.movyMock
  let pinned ← Failing.lift (pinnedAddress pinnedAddresses packageNames none packageNames)
  loadOnchain w onchainFallbackFuel compiled.packageId (packagesToFetch w abiResult)
  let placed ← placePackage compiled pinned
  let address ← deployOrUpgrade w deployer gas placed.1 placed.2
  let abi ← getPackageInfo w address
  let abi ← Failing.orElse abi (LoadError.exec .panic)
  let _ ← abi.modules.mapM (runMovyInit w deployer attacker gas address)
  pure (address, packageNames)

end

/-! ### Where a package ends up -/

theorem pinnedAddress_spec (pins : SortedMap String MoveAddress) (packageNames names : List String)
    (matched r : Option MoveAddress) (h : pinnedAddress pins packageNames matched names = .ok r) :
    (∀ a, matched = some a → r = some a) ∧
      ∀ name ∈ names, ∀ a, pins.get? name = some a → r = some a := by
  induction names generalizing matched with
  | nil =>
    obtain rfl := Except.ok.inj h
    exact ⟨fun _ h => h, fun _ hn => absurd hn List.not_mem_nil⟩
  | cons name rest ih =>
    rw [pinnedAddress] at h
    cases hp : pins.get? name with
    | none =>
      rw [hp] at h
      obtain ⟨hm, hrest⟩ := ih matched h
      refine ⟨hm, fun n hn a ha => ?_⟩
      rcases List.mem_cons.mp hn with rfl | hn
      · rw [hp] at ha
        cases ha
      · exact hrest n hn a ha
    | some addr =>
      simp only [hp] at h
      split_ifs at h with hconflict
      obtain ⟨hm, hrest⟩ := ih (some addr) h
      have hr := hm addr rfl
      refine ⟨fun a ha => ?_, fun n hn a ha => ?_⟩
      · simp only [ha, Option.any_some, decide_eq_true_eq, not_not] at hconflict
        exact hconflict ▸ hr
      · rcases List.mem_cons.mp hn with rfl | hn
        · rw [hp] at ha
          exact Option.some.inj ha ▸ hr
        · exact hrest n hn a ha

variable (w : Workspace Path) (deployer attacker gas : MoveAddress)

/-! ### What loading does to the database -/

/-- A history of reads and commits leads from one database to the other. -/
def Reaches (db db' : CachedStore) : Prop :=
  ∃ history : List Op, run CachedStore.step db history = some db'

instance : Std.Refl Reaches := ⟨fun _ => ⟨[], rfl⟩⟩

instance : IsTrans CachedStore Reaches := ⟨fun a b c hab hbc => by
  obtain ⟨l, hl⟩ := hab
  obtain ⟨m, hm⟩ := hbc
  exact ⟨l ++ m, by rw [run_append, hl, Option.bind_some, hm]⟩⟩

theorem reaches_step (db db' : CachedStore) (op : Op) (h : db.step op = some db') :
    Reaches db db' := ⟨[op], by rw [run, h, Option.bind_some, run]⟩

theorem reaches_getObject (db : CachedStore) (id : ObjectID) : Reaches db (db.getObject id).2 :=
  reaches_step db _ (.read (.getObject id)) rfl

theorem reaches_commitSingleObject (db : CachedStore) (object : Object) :
    Reaches db (db.commitSingleObject object) :=
  reaches_step db _ (.commitSingleObject object) rfl

theorem reaches_foldl {α : Type} (f : CachedStore → α → CachedStore)
    (hf : ∀ db a, Reaches db (f db a)) (l : List α) (db : CachedStore) :
    Reaches db (l.foldl f db) := by
  induction l generalizing db with
  | nil => exact Std.Refl.refl db
  | cons a rest ih => exact IsTrans.trans _ _ _ (hf db a) (ih (f db a))

theorem OnlyReads.reaches {db db' : CachedStore} (h : OnlyReads db db') : Reaches db db' := by
  obtain ⟨reads, rfl⟩ := h
  exact reaches_foldl _ (fun db read => reaches_step db _ (.read read) rfl) reads db

theorem Committed.reaches {engine : Engine} {project : SuiCompiledPackage} {db db' : CachedStore}
    {package : ObjectID} (h : Committed engine project db db' package) : Reaches db db' := by
  obtain ⟨mid, out, hrun, hcommit, -⟩ := h.committed
  obtain ⟨s, start, after, modulesBytes, ptb, sender, gas, h₁, hbytes, -, hout, h₄⟩ := hrun
  have h₂ := ((within_moduleBytes engine _).of_ok s start _ hbytes).reaches
  have h₃ := ((within_runPtbWithGasInner engine _ _ _ _).of_ok start after _ hout).reaches
  have hcommitted := reaches_step mid db' (.commitStore out.store out.effects) hcommit
  exact IsTrans.trans _ _ _ h₁.reaches (IsTrans.trans _ _ _ h₂ (IsTrans.trans _ _ _ h₃
    (IsTrans.trans _ _ _ h₄.reaches hcommitted)))

section

variable (linkageTable : List Byte → SortedMap ObjectID UpgradeInfo) (rpc : GraphQlDatabase)

theorem reaches_fetchLinked (l : List (ObjectID × UpgradeInfo)) (db : CachedStore)
    (out : Finset ObjectID) : Reaches db (fetchLinked rpc db l out).2 := by
  induction l generalizing db out with
  | nil => exact Std.Refl.refl db
  | cons e rest ih =>
    have hread := reaches_getObject db e.2.upgradedId
    rcases hget : db.getObject e.2.upgradedId with ⟨answer, db₁⟩
    rw [hget] at hread
    cases answer with
    | some o =>
      simp only [fetchLinked, hget]
      exact IsTrans.trans _ _ _ hread (ih db₁ _)
    | none =>
      rcases hrpc : rpc.getObject e.2.upgradedId with msg | found
      · simpa only [fetchLinked, hget, deployObjectId, hrpc] using hread
      · cases found with
        | none => simpa only [fetchLinked, hget, deployObjectId, hrpc] using hread
        | some o =>
          simp only [fetchLinked, hget, deployObjectId, hrpc]
          exact IsTrans.trans _ _ _ hread
            (IsTrans.trans _ _ _ (reaches_commitSingleObject db₁ o) (ih _ _))

theorem reaches_fetchPackageAtAddress (db : CachedStore) (packageId : ObjectID) :
    Reaches db (fetchPackageAtAddress linkageTable rpc db packageId).2 := by
  have hrefl : Reaches db db := Std.Refl.refl db
  rcases hrpc : rpc.getObject packageId with msg | found
  · simpa only [fetchPackageAtAddress, hrpc] using hrefl
  · cases found with
    | none => simpa only [fetchPackageAtAddress, hrpc] using hrefl
    | some o =>
      cases hlinkage : tryAsPackage linkageTable o with
      | none => simpa only [fetchPackageAtAddress, hrpc, hlinkage] using hrefl
      | some linkage =>
        have hlinked := reaches_fetchLinked rpc linkage.entries db ∅
        rcases hf : fetchLinked rpc db linkage.entries ∅ with ⟨r, db₁⟩
        rw [hf] at hlinked
        cases r with
        | error err => simpa only [fetchPackageAtAddress, hrpc, hlinkage, hf] using hlinked
        | ok out =>
          simp only [fetchPackageAtAddress, hrpc, hlinkage, hf]
          exact IsTrans.trans _ _ _ hlinked (reaches_commitSingleObject db₁ o)

theorem reaches_onchainFallback (own : ObjectID) (fuel : ℕ) (db db' : CachedStore)
    (ids : Finset ObjectID) (h : onchainFallback linkageTable rpc own fuel db ids = some db') :
    Reaches db db' := by
  induction fuel generalizing db ids with
  | zero => cases h
  | succ fuel ih =>
    rw [onchainFallback] at h
    split at h
    · rename_i hne
      simp only at h
      split at h
      · have hread := reaches_getObject db (ids.max' hne)
        rcases hget : db.getObject (ids.max' hne) with ⟨answer, db₁⟩
        rw [hget] at h hread
        cases answer with
        | some o => exact IsTrans.trans _ _ _ hread (ih db₁ _ h)
        | none =>
          have hfetch := reaches_fetchPackageAtAddress linkageTable rpc db₁ (ids.max' hne)
          simp only at h
          rcases hf : fetchPackageAtAddress linkageTable rpc db₁ (ids.max' hne) with ⟨r, db₂⟩
          rw [hf] at h hfetch
          have hboth := IsTrans.trans _ _ _ hread hfetch
          cases r with
          | ok nexts => exact IsTrans.trans _ _ _ hboth (ih db₂ _ h)
          | error err => exact IsTrans.trans _ _ _ hboth (ih db₂ _ h)
      · exact ih db _ h
    · obtain rfl := Option.some.inj h
      exact Std.Refl.refl db

end

theorem within_exec {α : Type} (x : Exec α) (h : Within OnlyReads x) :
    Within Reaches (Load.exec x) := fun db => (h db).reaches

theorem within_loadOnchain (fuel : Option ℕ) (own : ObjectID) (ids : Finset ObjectID) :
    Within Reaches (loadOnchain w fuel own ids) := by
  intro db
  have hrefl : Reaches db db := Std.Refl.refl db
  cases fuel with
  | none => exact hrefl
  | some fuel =>
    cases hrun : onchainFallback w.linkageTable w.rpc own fuel db ids with
    | none => simpa only [loadOnchain, hrun] using hrefl
    | some db' =>
      simp only [loadOnchain, hrun]
      exact reaches_onchainFallback w.linkageTable w.rpc own fuel db db' ids hrun

theorem within_placePackage (compiled : SuiCompiledPackage) (pinned : Option MoveAddress) :
    Within Reaches (placePackage compiled pinned) := by
  refine within_bind _ _ (within_mapM _ _ fun _ => within_orElse _ _) fun _ => ?_
  refine within_bind _ _ (within_orElse _ _) fun _ => ?_
  exact within_bind _ _ (within_mapM _ _ fun _ => within_orElse _ _) fun _ => within_pure _

theorem within_getPackageInfo (id : MoveAddress) : Within Reaches (getPackageInfo w id) := by
  refine within_bind _ _ (within_exec _ (within_getObject id)) fun object => ?_
  cases object with
  | none => exact within_pure _
  | some object => exact within_bind _ _ (within_lift _) fun _ => within_pure _

theorem within_movyInitArgs (init : MoveFunctionAbi) :
    Within Reaches (movyInitArgs w deployer attacker init) :=
  fun db => reaches_foldl _ reaches_getObject (listObjects db) db

theorem succeeds_runMovyInit (address : ObjectID) (md : MoveModuleAbi) :
    SucceedsWithin Reaches (runMovyInit w deployer attacker gas address md) := by
  unfold runMovyInit
  split
  · refine succeeds_bind _ _ (within_movyInitArgs w deployer attacker _).succeeds fun r => ?_
    refine succeeds_bind _ _
      (within_exec _ (within_runPtbWithGasInner w.engine _ _ _ _)).succeeds fun results => ?_
    split
    · refine succeeds_mapError _ _ fun db u db' h => ?_
      exact reaches_step db db' (.commitStore results.store results.effects)
        (commitStore_eq_ok results.store results.effects u db db' h)
    · exact (within_throw _).succeeds
  · exact (within_pure _).succeeds

/-! ### A package that was deployed -/

/-- The compiled package as it is published: at `0x0`, with a set of dependencies, for the id. -/
def Published (compiled : SuiCompiledPackage) (address : ObjectID) (project : SuiCompiledPackage) :
    Prop :=
  ∃ modules, compiled.modules.mapM (CompiledModule.mockModuleAddress ZERO) = some modules ∧
    project = { compiled.movyMock with modules := modules, packageId := address }

theorem deployOrUpgrade_eq_ok (compiled : SuiCompiledPackage) (moduleAddress : ObjectID)
    (db db' : CachedStore) (address : ObjectID)
    (h : deployOrUpgrade w deployer gas compiled moduleAddress db = (.ok address, db')) :
    ∃ mid, Reaches db mid ∧ Committed w.engine compiled mid db' address := by
  unfold deployOrUpgrade at h
  split at h
  · obtain ⟨r, s₁, h₁, h⟩ := (bind_eq_ok _ _ _ _ _).mp h
    obtain ⟨rfl, rfl⟩ := (pure_eq_ok _ _ _ _).mp h
    exact ⟨db, Std.Refl.refl db,
      deployContract_eq_ok w.engine _ _ _ db s₁ r ((mapError_eq_ok _ _ _ _ _).mp h₁)⟩
  · obtain ⟨r, s₁, h₁, h⟩ := (bind_eq_ok _ _ _ _ _).mp h
    have hfirst :=
      deployContract_eq_ok w.engine _ _ _ db s₁ r ((mapError_eq_ok _ _ _ _ _).mp h₁)
    exact ⟨s₁, hfirst.reaches, upgradeContract_eq_ok w.engine _ _ _ _ _ s₁ db' address
      ((mapError_eq_ok _ _ _ _ _).mp h)⟩

theorem placePackage_eq_ok (compiled : SuiCompiledPackage) (pinned : Option MoveAddress)
    (db db' : CachedStore) (placed : SuiCompiledPackage × ObjectID)
    (h : placePackage compiled pinned db = (.ok placed, db')) :
    ∃ modules, compiled.modules.mapM (CompiledModule.mockModuleAddress ZERO) = some modules ∧
      placed.1 = { compiled with
        modules := modules, packageId := pinned.getD compiled.packageId } := by
  obtain ⟨addresses, s₁, -, h⟩ := (bind_eq_ok _ _ _ _ _).mp h
  obtain ⟨moduleAddress, s₂, -, h⟩ := (bind_eq_ok _ _ _ _ _).mp h
  obtain ⟨modules, s₃, hmodules, h⟩ := (bind_eq_ok _ _ _ _ _).mp h
  obtain ⟨rfl, -⟩ := (pure_eq_ok _ _ _ _).mp h
  refine ⟨modules, (mapM_orElse_eq_ok _ _ _ _ _ _ hmodules).1, ?_⟩
  cases pinned <;> rfl

/-- Between the two databases the package was built, and the transaction with its modules was
committed as the package at the address. -/
def DeployedBetween (path : Path) (names : List String) (address : MoveAddress)
    (db db' : CachedStore) : Prop :=
  ∃ compiled project s t, w.buildChecked path true = .ok compiled ∧
    names = compiled.packageNames ∧ Published compiled address project ∧ Reaches db s ∧
    Committed w.engine project s t address ∧ Reaches t db'

theorem DeployedBetween.later {path : Path} {names : List String} {address : MoveAddress}
    {db s t u : CachedStore} (h : DeployedBetween w path names address s t) (hs : Reaches db s)
    (ht : Reaches t u) : DeployedBetween w path names address db u := by
  obtain ⟨compiled, project, s', t', hbuild, hnames, hpublished, hbefore, hcommitted, hafter⟩ := h
  exact ⟨compiled, project, s', t', hbuild, hnames, hpublished, IsTrans.trans _ _ _ hs hbefore,
    hcommitted, IsTrans.trans _ _ _ hafter ht⟩

/-- A local package that is loaded was deployed at the address that its names are
pinned to. -/
theorem loadLocal_eq_ok (path : Path) (fuel : Option ℕ) (pins : SortedMap String MoveAddress)
    (db db' : CachedStore) (address : MoveAddress) (packageNames : List String)
    (h : loadLocal w deployer attacker gas path fuel pins db = (.ok (address, packageNames), db')) :
    Reaches db db' ∧ ∀ name ∈ packageNames, ∀ a, pins.get? name = some a → a ≠ ZERO →
      address = a ∧ DeployedBetween w path packageNames a db db' := by
  obtain ⟨abiResult, s₁, h₁, h⟩ := (bind_eq_ok _ _ _ _ _).mp h
  obtain ⟨_, s₂, h₂, h⟩ := (bind_eq_ok _ _ _ _ _).mp h
  obtain ⟨compiled, s₃, h₃, h⟩ := (bind_eq_ok _ _ _ _ _).mp h
  obtain ⟨pinned, s₄, h₄, h⟩ := (bind_eq_ok _ _ _ _ _).mp h
  obtain ⟨_, s₅, hfetched, h⟩ := (bind_eq_ok _ _ _ _ _).mp h
  obtain ⟨placed, s₆, hplaced, h⟩ := (bind_eq_ok _ _ _ _ _).mp h
  obtain ⟨deployed, s₇, hdeployed, h⟩ := (bind_eq_ok _ _ _ _ _).mp h
  obtain ⟨_, s₈, hinfo, h⟩ := (bind_eq_ok _ _ _ _ _).mp h
  obtain ⟨abi, s₉, habi, h⟩ := (bind_eq_ok _ _ _ _ _).mp h
  obtain ⟨_, s₁₀, hinit, h⟩ := (bind_eq_ok _ _ _ _ _).mp h
  obtain ⟨heq, rfl⟩ := (pure_eq_ok _ _ _ _).mp h
  obtain ⟨rfl, rfl⟩ := Prod.mk.inj heq
  obtain ⟨-, rfl⟩ := (lift_eq_ok _ _ _ _).mp h₁
  obtain ⟨-, rfl⟩ := (lift_eq_ok _ _ _ _).mp h₂
  obtain ⟨hbuild, rfl⟩ := (lift_eq_ok _ _ _ _).mp h₃
  obtain ⟨hpinned, rfl⟩ := (lift_eq_ok _ _ _ _).mp h₄
  obtain ⟨-, rfl⟩ := (orElse_eq_ok _ _ _ _ _).mp habi
  obtain ⟨mid, hmid, hcommitted⟩ := deployOrUpgrade_eq_ok w deployer gas _ _ _ _ _ hdeployed
  obtain ⟨modules, hmodules, hproject⟩ := placePackage_eq_ok _ _ _ _ _ hplaced
  have hstart : Reaches _ mid := IsTrans.trans _ _ _
    ((within_loadOnchain w _ _ _).of_ok _ s₅ _ hfetched)
    (IsTrans.trans _ _ _ ((within_placePackage _ _).of_ok s₅ s₆ _ hplaced) hmid)
  have hend : Reaches s₇ s₁₀ := IsTrans.trans _ _ _
    ((within_getPackageInfo w _).of_ok s₇ _ _ hinfo)
    (succeeds_mapM _ _ (fun md _ => succeeds_runMovyInit w deployer attacker gas _ md) _ _ _ hinit)
  refine ⟨IsTrans.trans _ _ _ hstart (IsTrans.trans _ _ _ hcommitted.reaches hend), ?_⟩
  intro name hname a ha hne
  have hp := (pinnedAddress_spec pins compiled.packageNames compiled.packageNames none pinned
    hpinned).2 name hname a ha
  rw [hp, Option.getD_some] at hproject
  have hat : deployed = a := by
    have htarget := hcommitted.atTarget
    rw [hproject] at htarget
    exact htarget hne
  subst hat
  refine ⟨rfl, compiled, placed.1, mid, s₇, ?_, rfl, ⟨modules, hmodules, hproject⟩, hstart,
    hcommitted, hend⟩
  cases hb : w.buildChecked path true with
  | ok c =>
    rw [hb] at hbuild
    exact congrArg Except.ok (Except.ok.inj hbuild)
  | error e =>
    rw [hb] at hbuild
    cases hbuild

end Movy.Replay
