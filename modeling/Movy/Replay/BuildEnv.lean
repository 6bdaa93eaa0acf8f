import Movy.Replay.LoadLocal

/-!
# Building the environment (`build_env` in `movy/src/sui/env.rs`)

On-chain packages, history objects and the local packages are loaded one after
another. The map from package names to addresses is what the selectors on the
command line are resolved with later.
-/

namespace Movy.Replay

open Store Movy.Types Sui Failing
open Fuzz (MovePackageAbi)

variable {Path : Type} [DecidableEq Path]

structure DeployAt where
  name : String
  address : MoveAddress

/-- The arguments, with the canonical paths of the packages that were asked for
and of these with their local dependencies. -/
structure SuiTargetArgs (Path : Type) where
  onchains : List MoveAddress
  histories : List MoveAddress
  explicitLocals : List Path
  resolvedLocals : List Path
  deployAt : List DeployAt
  onchainFallback : Option ℕ

structure DeployResult where
  targetPackagesDeployed : List MoveAddress
  nameMapping : SortedMap String MoveAddress

structure Deploying where
  targetPackages : List MoveAddress
  localNameMap : SortedMap String MoveAddress
  pinnedSeen : List String

/-- An address that differs from the one before under the same name is an error. -/
def pinMap : SortedMap String MoveAddress → List DeployAt →
    Except LoadError (SortedMap String MoveAddress)
  | m, [] => .ok m
  | m, entry :: rest =>
    if (m.get? entry.name).any fun prev => prev ≠ entry.address then
      .error (.conflictingEntry entry.name)
    else pinMap (m.insert entry.name entry.address) rest

section

variable (w : Workspace Path) (deployer attacker gas : MoveAddress)

def fetchOnchain (packageId : MoveAddress) : Load Unit := do
  let _ ← mapError LoadError.fetch fun db =>
    fetchPackageAtAddress w.linkageTable w.rpc db packageId
  pure ()

def loadHistory (packageId : MoveAddress) : Load Unit := do
  let package ← getPackageInfo w packageId
  match package with
  | none => pure ()
  | some package => do
    let _ ← (package.modules.flatMap fun module => module.structs).mapM fun s => do
      let objects ← Failing.lift ((w.filterObjects s.moduleId).mapError LoadError.rpc)
      Failing.modify fun db => objects.foldl CachedStore.commitSingleObject db
    pure ()

mutual

def flatAddresses : MoveTypeTag → List MoveAddress
  | .struct address _ _ tys => flatAddressesList tys ++ [address]
  | .vector inner => flatAddresses inner
  | _ => []

def flatAddressesList : List MoveTypeTag → List MoveAddress
  | [] => []
  | ty :: rest => flatAddresses ty ++ flatAddressesList rest

end

def loadObject (address : MoveAddress) : Load Unit := do
  let object ← Load.exec (Exec.getObject address)
  let _ ← Failing.orElse object (LoadError.canNotLoad address)
  pure ()

def loadInnerTypes : Load Unit := do
  let ids ← Failing.reading fun db => (listObjects db, db)
  let _ ← ids.mapM fun id => do
    let object ← Load.exec (Exec.getObject id)
    match object.bind w.engine.moveObjectInfo with
    | some info => do
      let _ ← (flatAddresses info.ty).mapM loadObject
      pure ()
    | none => pure ()
  pure ()

def deployLocal (args : SuiTargetArgs Path) (pins : SortedMap String MoveAddress) (st : Deploying)
    (local_ : Path) : Load Deploying := do
  let bundled ← Failing.lift ((w.bundledLocalPackageMapping local_).mapError LoadError.rpc)
  match bundled with
  | some (name, addr) =>
    pure { st with localNameMap :=
      if (st.localNameMap.get? name).isSome then st.localNameMap
      else st.localNameMap.insert name addr }
  | none => do
    let r ← loadLocal w deployer attacker gas local_ args.onchainFallback pins
    pure {
      targetPackages :=
        if local_ ∈ args.explicitLocals then st.targetPackages ++ [r.1] else st.targetPackages
      localNameMap := r.2.foldl (fun m name => m.insert name r.1) st.localNameMap
      pinnedSeen := st.pinnedSeen ++ r.2.filter fun name => (pins.get? name).isSome }

def buildEnv (args : SuiTargetArgs Path) : Load DeployResult := do
  let _ ← args.onchains.mapM (fetchOnchain w)
  let _ ← args.histories.mapM (loadHistory w)
  loadInnerTypes w
  let pins ← Failing.lift (pinMap SortedMap.empty args.deployAt)
  let st ← args.resolvedLocals.foldlM (deployLocal w deployer attacker gas args pins)
    ⟨args.onchains, SortedMap.empty, []⟩
  let unmatched := (pins.entries.map Prod.fst).filter fun name => name ∉ st.pinnedSeen
  if unmatched = [] then do
    loadInnerTypes w
    pure ⟨st.targetPackages, st.localNameMap⟩
  else Failing.throw (.unmatched unmatched)

end

/-! ### Pinned packages -/

/-- The entries agree, and the map has them all. -/
theorem pinMap_mergeAgree (m r : SortedMap String MoveAddress) (entries : List DeployAt)
    (h : pinMap m entries = .ok r) :
    SortedMap.mergeAgree m (entries.map fun e => (e.name, e.address)) = some r := by
  induction entries generalizing m with
  | nil => exact congrArg some (Except.ok.inj h)
  | cons entry rest ih =>
    rw [pinMap] at h
    split_ifs at h with hconflict
    rw [List.map_cons, SortedMap.mergeAgree, if_neg hconflict]
    exact ih _ h

theorem get?_insertNames (names : List String) (address : MoveAddress)
    (m : SortedMap String MoveAddress) (name : String) :
    (names.foldl (fun m name => m.insert name address) m).get? name =
      if name ∈ names then some address else m.get? name := by
  induction names generalizing m with
  | nil => simp
  | cons n rest ih =>
    rw [List.foldl_cons, ih, SortedMap.get?_insert]
    by_cases hr : name ∈ rest
    · simp [hr]
    · by_cases hn : name = n <;> simp [hr, hn]

variable (w : Workspace Path) (deployer attacker gas : MoveAddress)

/-- A pinned name that was seen is mapped to its pin, where a package of that name was deployed
between the two databases. -/
structure Honoured (args : SuiTargetArgs Path) (db db' : CachedStore) (name : String)
    (address : MoveAddress) (localNameMap : SortedMap String MoveAddress) : Prop where
  mapped : localNameMap.get? name = some address
  deployed : ∃ local_ ∈ args.resolvedLocals, ∃ names, name ∈ names ∧
    DeployedBetween w local_ names address db db'

omit [DecidableEq Path] in
theorem Honoured.later {args : SuiTargetArgs Path} {db s t : CachedStore} {name : String}
    {address : MoveAddress} {localNameMap localNameMap' : SortedMap String MoveAddress}
    (h : Honoured w args db s name address localNameMap) (hs : Reaches s t)
    (hmapped : localNameMap'.get? name = some address) :
    Honoured w args db t name address localNameMap' := by
  obtain ⟨local_, hlocal, names, hname, hdeployed⟩ := h.deployed
  exact ⟨hmapped, local_, hlocal, names, hname, hdeployed.later w (Std.Refl.refl db) hs⟩

/-- What the loop over the local packages keeps. -/
structure SeenHonoured (args : SuiTargetArgs Path) (pins : SortedMap String MoveAddress)
    (db : CachedStore) (st : Deploying) (s : CachedStore) : Prop where
  reached : Reaches db s
  honoured : ∀ name ∈ st.pinnedSeen, ∀ address, pins.get? name = some address → address ≠ ZERO →
    Honoured w args db s name address st.localNameMap

theorem deployLocal_honoured (args : SuiTargetArgs Path) (pins : SortedMap String MoveAddress)
    (st st' : Deploying) (local_ : Path) (db s t : CachedStore)
    (hst : SeenHonoured w args pins db st s) (hlocal : local_ ∈ args.resolvedLocals)
    (h : deployLocal w deployer attacker gas args pins st local_ s = (.ok st', t)) :
    SeenHonoured w args pins db st' t := by
  obtain ⟨bundled, s₁, hlift, h⟩ := (bind_eq_ok _ _ _ _ _).mp h
  obtain ⟨-, rfl⟩ := (lift_eq_ok _ _ _ _).mp hlift
  cases bundled with
  | some b =>
    obtain ⟨rfl, rfl⟩ := (pure_eq_ok _ _ _ _).mp h
    refine ⟨hst.reached, fun name hname address ha hne => ?_⟩
    have hold := hst.honoured name hname address ha hne
    refine ⟨?_, hold.deployed⟩
    show (if (st.localNameMap.get? b.1).isSome then st.localNameMap
      else st.localNameMap.insert b.1 b.2).get? name = some address
    split_ifs with hsome
    · exact hold.mapped
    · -- the bundled name is not there yet, so it is another one
      have hother : name ≠ b.1 := by
        intro heq
        rw [← heq, hold.mapped] at hsome
        exact hsome rfl
      rw [SortedMap.get?_insert, if_neg hother]
      exact hold.mapped
  | none =>
    obtain ⟨r, s₂, hload, h⟩ := (bind_eq_ok _ _ _ _ _).mp h
    obtain ⟨rfl, rfl⟩ := (pure_eq_ok _ _ _ _).mp h
    obtain ⟨hreach, hpins⟩ :=
      loadLocal_eq_ok w deployer attacker gas local_ _ pins s s₂ r.1 r.2 hload
    have hown : ∀ name ∈ r.2, ∀ address, pins.get? name = some address → address ≠ ZERO →
        Honoured w args db s₂ name address
          (r.2.foldl (fun m n => m.insert n r.1) st.localNameMap) := by
      intro name hname address ha hne
      obtain ⟨hat, hdeployed⟩ := hpins name hname address ha hne
      refine ⟨?_, local_, hlocal, r.2, hname,
        hdeployed.later w hst.reached (Std.Refl.refl s₂)⟩
      rw [get?_insertNames, if_pos hname, hat]
    refine ⟨IsTrans.trans _ _ _ hst.reached hreach, fun name hname address ha hne => ?_⟩
    by_cases hin : name ∈ r.2
    · exact hown name hin address ha hne
    · rcases List.mem_append.mp hname with hname | hname
      · have hold := hst.honoured name hname address ha hne
        refine hold.later w hreach ?_
        show (r.2.foldl (fun m n => m.insert n r.1) st.localNameMap).get? name = some address
        rw [get?_insertNames, if_neg hin]
        exact hold.mapped
      · exact absurd (List.mem_filter.mp hname).1 hin

/-! ### The other steps -/

omit [DecidableEq Path] in
theorem within_fetchOnchain (packageId : MoveAddress) :
    Within Reaches (fetchOnchain w packageId) :=
  within_bind _ _ (fun db => reaches_fetchPackageAtAddress w.linkageTable w.rpc db packageId)
    fun _ => within_pure _

omit [DecidableEq Path] in
theorem within_loadHistory (packageId : MoveAddress) : Within Reaches (loadHistory w packageId) := by
  refine within_bind _ _ (within_getPackageInfo w packageId) fun package => ?_
  cases package with
  | none => exact within_pure _
  | some package =>
    refine within_bind _ _ (within_mapM _ _ fun s => ?_) fun _ => within_pure _
    refine within_bind _ _ (within_lift _) fun objects db => ?_
    exact reaches_foldl _ reaches_commitSingleObject objects db

theorem within_loadObject (address : MoveAddress) : Within Reaches (loadObject address) :=
  within_bind _ _ (within_exec _ (within_getObject address)) fun _ =>
    within_bind _ _ (within_orElse _ _) fun _ => within_pure _

omit [DecidableEq Path] in
theorem within_loadTypes : Within Reaches (loadInnerTypes w) := by
  refine within_bind _ _ (fun db => Std.Refl.refl db) fun ids => ?_
  refine within_bind _ _ (within_mapM _ _ fun id => ?_) fun _ => within_pure _
  refine within_bind _ _ (within_exec _ (within_getObject id)) fun object => ?_
  split
  · exact within_bind _ _ (within_mapM _ _ within_loadObject) fun _ => within_pure _
  · exact within_pure _

/-- If the environment is built, every `--deploy-at` entry has been honoured: in
the course of the run some local package of that name was built, deployed and
committed at the given address, and the name stands for that address, whichever
packages were loaded after it. -/
theorem build_env_honours_pins (args : SuiTargetArgs Path) (db db' : CachedStore)
    (result : DeployResult)
    (h : buildEnv w deployer attacker gas args db = (.ok result, db'))
    (entry : DeployAt) (hentry : entry ∈ args.deployAt) (hne : entry.address ≠ ZERO) :
    Honoured w args db db' entry.name entry.address result.nameMapping := by
  obtain ⟨_, s₁, h₁, h⟩ := (bind_eq_ok _ _ _ _ _).mp h
  obtain ⟨_, s₂, h₂, h⟩ := (bind_eq_ok _ _ _ _ _).mp h
  obtain ⟨_, s₃, h₃, h⟩ := (bind_eq_ok _ _ _ _ _).mp h
  obtain ⟨pins, s₄, h₄, h⟩ := (bind_eq_ok _ _ _ _ _).mp h
  obtain ⟨st, s₅, hloop, h⟩ := (bind_eq_ok _ _ _ _ _).mp h
  obtain ⟨hpins, hs₄⟩ := (lift_eq_ok _ _ _ _).mp h₄
  have hstart : Reaches db s₃ := IsTrans.trans _ _ _
    ((within_mapM _ _ (within_fetchOnchain w)).of_ok db s₁ _ h₁) (IsTrans.trans _ _ _
      ((within_mapM _ _ (within_loadHistory w)).of_ok s₁ s₂ _ h₂)
      ((within_loadTypes w).of_ok s₂ s₃ _ h₃))
  have hpin : pins.get? entry.name = some entry.address :=
    (SortedMap.mergeAgree_spec _ _ _ (pinMap_mergeAgree _ _ _ hpins)).2.1
      (entry.name, entry.address) (List.mem_map.mpr ⟨entry, hentry, rfl⟩)
  have hseen : SeenHonoured w args pins db st s₅ := by
    refine foldlM_keeps (SeenHonoured w args pins db) _ _ _ st s₄ s₅ ?_ ?_ hloop
    · exact ⟨hs₄ ▸ hstart, fun name hname => absurd hname List.not_mem_nil⟩
    · exact fun b local_ b' s t hb hlocal hround =>
        deployLocal_honoured w deployer attacker gas args pins b b' local_ db s t hb hlocal hround
  by_cases hun : (pins.entries.map Prod.fst).filter (fun name => name ∉ st.pinnedSeen) = []
  · simp only [hun, if_true] at h
    obtain ⟨_, s₆, hinner, h⟩ := (bind_eq_ok _ _ _ _ _).mp h
    obtain ⟨rfl, rfl⟩ := (pure_eq_ok _ _ _ _).mp h
    have hmem : entry.name ∈ pins.entries.map Prod.fst :=
      List.mem_map.mpr ⟨(entry.name, entry.address), (SortedMap.mem_entries _ _ _).mpr hpin, rfl⟩
    have hin := List.filter_eq_nil_iff.mp hun entry.name hmem
    simp only [decide_eq_true_eq, not_not] at hin
    have hfinal := hseen.honoured entry.name hin entry.address hpin hne
    exact hfinal.later w ((within_loadTypes w).of_ok s₅ s₆ _ hinner) hfinal.mapped
  · simp only [hun, if_false] at h
    exact absurd h (throw_ne_ok _ _ _ _)

/-! ### One package -/

/-- What a deployment at address 7 writes: the package and its upgrade cap. -/
def sampleObjects : SortedMap ObjectID Object :=
  (SortedMap.empty.insert (ObjectID.ofByte 7) (samplePackage 7 [])).insert (ObjectID.ofByte 8)
    ⟨ObjectID.ofByte 8, 1, .move []⟩

theorem sampleObjects_keyed (id : ObjectID) (o : Object) (h : sampleObjects.get? id = some o) :
    o.id = id := by
  simp only [sampleObjects, SortedMap.get?_insert, SortedMap.get?_empty] at h
  split_ifs at h with h8 h7
  · cases h
    exact h8.symm
  · cases h
    exact h7.symm

def sampleWritten : InnerTemporaryStore where
  inputObjects := SortedMap.empty
  written := sampleObjects
  lamportVersion := 1
  streamEndedConsensusObjects := SortedMap.empty
  input_keyed := empty_keyed
  written_keyed := sampleObjects_keyed

def sampleEngine : Engine where
  inputObjects _ := .ok []
  gasStatus _ := .ok ()
  executeTransactionToEffects _ _ _ _ :=
    (⟨⟨[], [], [], [], List.nodup_nil⟩, true, "Success",
      [((ObjectID.ofByte 7, 1, []), .immutable, .create),
        ((ObjectID.ofByte 8, 1, []), .addressOwner (ObjectID.ofByte 1), .create)],
      sampleWritten, [], none⟩, [])
  owner _ := .immutable
  moveObjectInfo o := some ⟨o.id, .bool, .addressOwner (ObjectID.ofByte 1), o.version, []⟩
  isUpgradeCap o := o.id = ObjectID.ofByte 8
  digest _ := []
  serialize _ := .ok []
  digestForModulesAndDeps _ _ := []
  bcs _ := []
  bcsBytes := id

/-- One local package `vault`, whose only module is at `0x0`. -/
def sampleWorkspace : Workspace Unit where
  engine := sampleEngine
  rpc := sampleChain
  linkageTable := sampleLinkage
  buildChecked _ _ := .ok ⟨ZERO, ["vault"], [⟨0, [⟨0, 0⟩], [], [], [], ["vault"], [ZERO]⟩], []⟩
  abi _ := .ok ⟨[]⟩
  immediateDependencies _ := []
  fromSuiObject _ := .ok ⟨[]⟩
  storedObject _ := .package
  bundledLocalPackageMapping _ := .ok none
  filterObjects _ := .ok []

def sampleDb : CachedStore :=
  (CachedStore.new EmptyStore).commitSingleObject ⟨ObjectID.ofByte 2, 1, .move []⟩

def sampleArgs : SuiTargetArgs Unit :=
  ⟨[], [], [()], [()], [⟨"vault", ObjectID.ofByte 7⟩], none⟩

theorem build_env_honours_pins_vault : ∃ result db',
    buildEnv sampleWorkspace (ObjectID.ofByte 1) (ObjectID.ofByte 3) (ObjectID.ofByte 2) sampleArgs
      sampleDb = (.ok result, db') ∧
      Honoured sampleWorkspace sampleArgs sampleDb db' "vault" (ObjectID.ofByte 7)
        result.nameMapping := by
  have hok : ((buildEnv sampleWorkspace (ObjectID.ofByte 1) (ObjectID.ofByte 3)
      (ObjectID.ofByte 2) sampleArgs sampleDb).1.isOk) = true := by decide
  rcases hrun : buildEnv sampleWorkspace (ObjectID.ofByte 1) (ObjectID.ofByte 3)
    (ObjectID.ofByte 2) sampleArgs sampleDb with ⟨r, db'⟩
  cases r with
  | error e =>
    rw [hrun] at hok
    cases hok
  | ok result =>
    exact ⟨result, db', rfl, build_env_honours_pins sampleWorkspace _ _ _ sampleArgs sampleDb db'
      result hrun ⟨"vault", ObjectID.ofByte 7⟩ List.mem_cons_self (by decide)⟩

end Movy.Replay
