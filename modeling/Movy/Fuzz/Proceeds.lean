import Movy.Lib.Balances
import Movy.Fuzz.FailureStage
import Movy.Static.UnusedStruct
import Movy.Store.Commit
import Mathlib.Data.Prod.Lex

/-!
# The proceeds oracle (`movy-fuzz/src/oracles/sui/proceeds.rs`)

After a run the oracle adds up, for each owner and coin type, what the coins
brought out of the transaction are worth more than those that went in, and
reports a run that cost nobody anything and brought somebody something. The
coins are read from the store to which the run has just been committed.
-/

namespace Movy.Fuzz.Proceeds

open Movy.Store Movy.Types

/- What the oracle reads of an object and the stores do not: the type parameter of
a coin's type, the owner, the digest and the balance. A coin's contents always
decode. -/
structure ObjectView (Owner TypeTag : Type) where
  coinType : Object → Option TypeTag
  owner : Object → Owner
  digest : Object → ObjectDigest
  extractBalance : Object → Option (Fin (2 ^ 64))
  gas : TypeTag
  extract_coin : ∀ o t, coinType o = some t → (extractBalance o).isSome

abbrev ObjectKey := ObjectID × SequenceNumber × Option ObjectDigest

abbrev Reader := ObjectID → SequenceNumber → Option Object

structure BalanceChange (Owner TypeTag : Type) where
  owner : Owner
  coinType : TypeTag
  amount : ℤ

inductive InputObjectKind where
  | movePackage (id : ObjectID)
  | immOrOwnedMoveObject (ref : ObjectRef)
  | sharedMoveObject (id : ObjectID) (initialSharedVersion : SequenceNumber)
      (mutability : SharedObjectMutability)

structure Effects (Owner : Type) extends TransactionEffects where
  status : ExecutionStatus
  gasOwner : Owner
  netGasUsage : ℤ
  allChangedObjects : List ObjectRef
  modifiedAtVersions : List (ObjectID × SequenceNumber)
  unwrappedThenDeleted : List ObjectRef

structure ProceedsFinding (Owner TypeTag : Type) where
  oracle : String
  severity : Movy.Static.Severity
  message : String
  balanceChanges : List (BalanceChange Owner TypeTag)

def preExecution (sequence : MoveSequence) : List InputObjectKind :=
  sequence.inputs.filterMap fun input => match input with
    | .object _ (.immOrOwnedObject ref) => some (.immOrOwnedMoveObject ref)
    | .object _ (.sharedObject id initialSharedVersion mutable) =>
      some (.sharedMoveObject id initialSharedVersion
        (if mutable then .mutable else .immutable))
    | _ => none

/- The last of several digests for an id stays. -/
def inputDigests (inputObjs : List InputObjectKind) : SortedMap ObjectID ObjectDigest :=
  inputObjs.foldl (fun m k => match k with
    | .immOrOwnedMoveObject ref => m.insert ref.1 ref.2.2
    | _ => m) SortedMap.empty

section

variable {Owner TypeTag : Type}

/- The outer `none` is a failed assertion, the inner one a missing object. -/
def fetchCoins (V : ObjectView Owner TypeTag) (get : Reader) :
    List ObjectKey → Option (Option (List (Owner × TypeTag × Fin (2 ^ 64))))
  | [] => some (some [])
  | key :: objects => match get key.1 key.2.1 with
    | none => some none
    | some o => match V.coinType o with
      | none => fetchCoins V get objects
      | some t =>
        if key.2.2.any fun digest => digest ≠ V.digest o then none
        else do
          let balance ← V.extractBalance o
          let coins ← fetchCoins V get objects
          some (coins.map fun cs => (V.owner o, t, balance) :: cs)

/- The objects that were there before, without the gas coin and what was unwrapped. -/
def inputKeys (effects : Effects Owner) (inputObjs : List InputObjectKind)
    (mockedCoin : ObjectID) : List ObjectKey :=
  effects.modifiedAtVersions.filterMap fun e =>
    if e.1 = mockedCoin then none
    else if (effects.unwrappedThenDeleted.map Prod.fst).contains e.1 then none
    else some (e.1, e.2, (inputDigests inputObjs).get? e.1)

def outputKeys (effects : Effects Owner) (mockedCoin : ObjectID) : List ObjectKey :=
  effects.allChangedObjects.filterMap fun ref =>
    if ref.1 = mockedCoin then none else some (ref.1, ref.2.1, some ref.2.2)

def posting (coin : Owner × TypeTag × Fin (2 ^ 64)) : (Owner ×ₗ TypeTag) × ℤ :=
  (toLex (coin.1, coin.2.1), coin.2.2.val)

section

variable [LinearOrder Owner] [LinearOrder TypeTag]

def nonzeroChanges (balances : SortedMap (Owner ×ₗ TypeTag) ℤ) :
    List (BalanceChange Owner TypeTag) :=
  balances.entries.filterMap fun e =>
    if e.2 = 0 then none else some ⟨(ofLex e.1).1, (ofLex e.1).2, e.2⟩

/- An overflow of an `i128` counts as a panic. -/
def getBalanceChanges (V : ObjectView Owner TypeTag) (get : Reader)
    (modifiedAtVersion allMutated : List ObjectKey) :
    Option (Option (List (BalanceChange Owner TypeTag))) := do
  let inputs ← fetchCoins V get modifiedAtVersion
  match inputs with
  | none => some none
  | some inputs => do
    let balances ← SortedMap.postAll (2 ^ 127) SortedMap.empty (negated (inputs.map posting))
    let outputs ← fetchCoins V get allMutated
    match outputs with
    | none => some none
    | some outputs => do
      let balances ← SortedMap.postAll (2 ^ 127) balances (outputs.map posting)
      some (some (nonzeroChanges balances))

def getBalanceChangesFromEffect (V : ObjectView Owner TypeTag) (get : Reader)
    (effects : Effects Owner) (inputObjs : List InputObjectKind) (mockedCoin : ObjectID) :
    Option (Option (List (BalanceChange Owner TypeTag))) :=
  match effects.status with
  | .failure _ => some (some [⟨effects.gasOwner, V.gas, -effects.netGasUsage⟩])
  | .success =>
    getBalanceChanges V get (inputKeys effects inputObjs mockedCoin) (outputKeys effects mockedCoin)

/- `allowedSuccess` is that of the outcome of the run, if there is one. -/
def doneExecution (V : ObjectView Owner TypeTag) (get : Reader) (allowedSuccess : Option Bool)
    (inputObjs : List InputObjectKind) (gasId : ObjectID) (effects : Effects Owner) :
    Option (List (ProceedsFinding Owner TypeTag)) :=
  if allowedSuccess = some true then do
    let balanceChange ← getBalanceChangesFromEffect V get effects inputObjs gasId
    match balanceChange with
    | none => some []
    | some bc =>
      if (bc.all fun c => decide (0 ≤ c.amount)) && bc.any fun c => decide (0 < c.amount) then
        some [⟨"ProceedsOracle", .critical, "Positive proceeds detected", bc⟩]
      else some []
  else some []

/- The end of `run_target`: the run is committed, its outcome recorded, and the oracle
reads from what was committed. -/
def runTargetFindings (V : ObjectView Owner TypeTag) (db : BackingStore)
    (results : InnerTemporaryStore) (effects : Effects Owner) (sequence : MoveSequence)
    (gasId : ObjectID) : Option (List (ProceedsFinding Owner TypeTag)) := do
  let db ← (CachedStore.new db).commitStore results effects.toTransactionEffects
  doneExecution V (fun id v => (db.getObjectByKey id v).1)
    (some (recordedStage sequence effects.status).2) (preExecution sequence) gasId effects

end

/-! ### The sums of the listed coins -/

/- Every listed object is there, and a coin has the digest listed with it. -/
def Answers (V : ObjectView Owner TypeTag) (get : Reader) (keys : List ObjectKey) : Prop :=
  ∀ key ∈ keys, ∃ o, get key.1 key.2.1 = some o ∧
    ∀ t digest, V.coinType o = some t → key.2.2 = some digest → digest = V.digest o

def coinAt (V : ObjectView Owner TypeTag) (get : Reader) (key : ObjectKey) :
    Option (Owner × TypeTag × Fin (2 ^ 64)) := do
  let o ← get key.1 key.2.1
  let t ← V.coinType o
  let balance ← V.extractBalance o
  some (V.owner o, t, balance)

variable (V : ObjectView Owner TypeTag) (get : Reader)

theorem fetchCoins_eq (keys : List ObjectKey) (h : Answers V get keys) :
    fetchCoins V get keys = some (some (keys.filterMap (coinAt V get))) := by
  induction keys with
  | nil => rfl
  | cons key keys ih =>
    obtain ⟨o, ho, hdigest⟩ := h key List.mem_cons_self
    have hrest := ih fun k hk => h k (List.mem_cons_of_mem _ hk)
    cases ht : V.coinType o with
    | none =>
      have hcoin : coinAt V get key = none := by simp [coinAt, ho, ht]
      simp only [fetchCoins, ho, ht, List.filterMap_cons, hcoin, hrest]
    | some t =>
      obtain ⟨balance, hbalance⟩ := Option.isSome_iff_exists.mp (V.extract_coin o t ht)
      have hcoin : coinAt V get key = some (V.owner o, t, balance) := by
        simp [coinAt, ho, ht, hbalance]
      have hsame : (key.2.2.any fun digest => digest ≠ V.digest o) = false := by
        cases hd : key.2.2 with
        | none => rfl
        | some digest => simp [hdigest t digest ht hd]
      simp only [fetchCoins, ho, ht, List.filterMap_cons, hcoin, hsame, hbalance, hrest,
        Bool.false_eq_true, if_false, Option.bind_eq_bind, Option.bind_some, Option.map_some]

theorem posting_le (coin : Owner × TypeTag × Fin (2 ^ 64)) : |(posting coin).2| ≤ 2 ^ 64 := by
  have hlt := coin.2.2.isLt
  simp only [posting, Nat.abs_cast]
  omega

theorem length_postings (keys : List ObjectKey) (h : keys.length < 2 ^ 62) :
    (((keys.filterMap (coinAt V get)).map posting).length : ℤ) < 2 ^ 62 := by
  have hle := List.length_filterMap_le (coinAt V get) keys
  rw [List.length_map]
  omega

theorem Answers.perm {keys keys' : List ObjectKey} (hp : keys.Perm keys')
    (h : Answers V get keys) : Answers V get keys' := fun key hkey => h key (hp.mem_iff.mpr hkey)

theorem inputKeys_length_le (effects : Effects Owner) (inputObjs : List InputObjectKind)
    (gasId : ObjectID) :
    (inputKeys effects inputObjs gasId).length ≤ effects.modifiedAtVersions.length :=
  List.length_filterMap_le _ _

theorem outputKeys_length_le (effects : Effects Owner) (gasId : ObjectID) :
    (outputKeys effects gasId).length ≤ effects.allChangedObjects.length :=
  List.length_filterMap_le _ _

section

variable [LinearOrder Owner] [LinearOrder TypeTag]

def total (keys : List ObjectKey) (account : Owner × TypeTag) : ℤ :=
  totalOf ((keys.filterMap (coinAt V get)).map posting) (toLex account)

theorem getBalanceChanges_eq (modified mutated : List ObjectKey)
    (hmodified : Answers V get modified) (hmutated : Answers V get mutated)
    (hin : modified.length < 2 ^ 62) (hout : mutated.length < 2 ^ 62) :
    ∃ r, getBalanceChanges V get modified mutated = some (some (nonzeroChanges r)) ∧
      ∀ k, r.get? k =
        if k ∈ ((modified.filterMap (coinAt V get)).map posting).map Prod.fst ∨
            k ∈ ((mutated.filterMap (coinAt V get)).map posting).map Prod.fst then
          some (total V get mutated (ofLex k) - total V get modified (ofLex k))
        else none := by
  have hlin := length_postings V get modified hin
  have hlout := length_postings V get mutated hout
  have hkeys : (negated ((modified.filterMap (coinAt V get)).map posting)).map Prod.fst =
      ((modified.filterMap (coinAt V get)).map posting).map Prod.fst := by
    simp only [negated, List.map_map]
    rfl
  have hneg : ∀ e ∈ negated ((modified.filterMap (coinAt V get)).map posting), |e.2| ≤ 2 ^ 64 := by
    intro e he
    obtain ⟨p, hp, rfl⟩ := List.mem_map.mp he
    obtain ⟨coin, _, rfl⟩ := List.mem_map.mp hp
    rw [abs_neg]
    exact posting_le coin
  have hpos : ∀ e ∈ (mutated.filterMap (coinAt V get)).map posting, |e.2| ≤ 2 ^ 64 := by
    intro e he
    obtain ⟨coin, _, rfl⟩ := List.mem_map.mp he
    exact posting_le coin
  have hnlen : (negated ((modified.filterMap (coinAt V get)).map posting)).length =
      ((modified.filterMap (coinAt V get)).map posting).length := List.length_map ..
  obtain ⟨debits, hdebits, hwithin, hget⟩ := SortedMap.postAll_eq (2 ^ 127) (2 ^ 64) _ 0
    SortedMap.empty SortedMap.within_empty hneg (by rw [hnlen]; omega)
  obtain ⟨r, hr, _, hgetr⟩ := SortedMap.postAll_eq (2 ^ 127) (2 ^ 64) _ _ debits hwithin hpos
    (by rw [hnlen]; omega)
  refine ⟨r, ?_, fun k => ?_⟩
  · simp only [getBalanceChanges, fetchCoins_eq V get modified hmodified,
      fetchCoins_eq V get mutated hmutated, Option.bind_eq_bind, Option.bind_some, hdebits, hr]
  · rw [hgetr, hget, hkeys, totalOf_negated]
    simp only [total, toLex_ofLex, SortedMap.get?_empty, Option.getD_none, zero_add]
    by_cases hki : k ∈ ((modified.filterMap (coinAt V get)).map posting).map Prod.fst
    · by_cases hko : k ∈ ((mutated.filterMap (coinAt V get)).map posting).map Prod.fst
      · simp only [hki, hko, or_self, if_true, Option.getD_some]
        congr 1
        omega
      · simp only [hki, hko, or_false, if_true, if_false, totalOf_eq_zero _ k hko, zero_sub]
    · simp only [hki, false_or, if_false, Option.getD_none, totalOf_eq_zero _ k hki, sub_zero,
        zero_add]

theorem mem_nonzeroChanges (r : SortedMap (Owner ×ₗ TypeTag) ℤ) (c : BalanceChange Owner TypeTag) :
    c ∈ nonzeroChanges r ↔ c.amount ≠ 0 ∧ r.get? (toLex (c.owner, c.coinType)) = some c.amount := by
  simp only [nonzeroChanges, List.mem_filterMap]
  constructor
  · rintro ⟨e, he, hc⟩
    split_ifs at hc with hzero
    obtain rfl := Option.some.inj hc
    exact ⟨hzero, (SortedMap.mem_entries r _ _).mp he⟩
  · rintro ⟨hne, hget⟩
    exact ⟨_, (SortedMap.mem_entries r _ _).mpr hget, if_neg hne⟩

theorem nonzeroChanges_nodup (r : SortedMap (Owner ×ₗ TypeTag) ℤ) :
    ((nonzeroChanges r).map fun c => (c.owner, c.coinType)).Nodup := by
  have hsub : (((nonzeroChanges r).map fun c => (c.owner, c.coinType)).map toLex).Sublist
      (r.entries.map Prod.fst) := by
    rw [nonzeroChanges, List.map_map]
    induction r.entries with
    | nil => exact List.Sublist.slnil
    | cons e es ih =>
      rw [List.filterMap_cons]
      split_ifs with hzero
      · exact ih.cons _
      · exact ih.cons_cons _
  have hsorted : (r.entries.map Prod.fst).Nodup :=
    List.pairwise_map.mpr (r.sorted.imp fun hlt => ne_of_lt hlt)
  exact (hsub.nodup hsorted).of_map

theorem getBalanceChanges_exact (modified mutated : List ObjectKey)
    (hmodified : Answers V get modified) (hmutated : Answers V get mutated)
    (hin : modified.length < 2 ^ 62) (hout : mutated.length < 2 ^ 62) :
    ∃ changes, getBalanceChanges V get modified mutated = some (some changes) ∧
      (changes.map fun c => (c.owner, c.coinType)).Nodup ∧
      ∀ c, c ∈ changes ↔ c.amount ≠ 0 ∧
        c.amount = total V get mutated (c.owner, c.coinType) -
          total V get modified (c.owner, c.coinType) := by
  obtain ⟨r, hr, hget⟩ := getBalanceChanges_eq V get modified mutated hmodified hmutated hin hout
  refine ⟨_, hr, nonzeroChanges_nodup r, fun c => ?_⟩
  rw [mem_nonzeroChanges, hget]
  refine and_congr_right fun hne => ?_
  split_ifs with hk
  · rw [Option.some.injEq, ofLex_toLex]
    exact eq_comm
  · -- an account without coins has no change
    obtain ⟨hki, hko⟩ := not_or.mp hk
    rw [total, total, totalOf_eq_zero _ _ hki, totalOf_eq_zero _ _ hko, sub_zero]
    exact iff_of_false (by simp) hne

theorem total_perm {keys keys' : List ObjectKey} (hp : keys.Perm keys')
    (account : Owner × TypeTag) : total V get keys account = total V get keys' account :=
  totalOf_perm ((hp.filterMap _).map _) _

theorem getBalanceChanges_perm (modified modified' mutated mutated' : List ObjectKey)
    (hmodified : Answers V get modified) (hmutated : Answers V get mutated)
    (hin : modified.length < 2 ^ 62) (hout : mutated.length < 2 ^ 62)
    (hp : modified.Perm modified') (hq : mutated.Perm mutated') :
    getBalanceChanges V get modified' mutated' = getBalanceChanges V get modified mutated := by
  obtain ⟨r, hr, hget⟩ := getBalanceChanges_eq V get modified mutated hmodified hmutated hin hout
  obtain ⟨r', hr', hget'⟩ := getBalanceChanges_eq V get modified' mutated'
    (hmodified.perm V get hp) (hmutated.perm V get hq) (hp.length_eq ▸ hin) (hq.length_eq ▸ hout)
  have hsame : r' = r := by
    refine SortedMap.ext_get? r' r fun k => ?_
    rw [hget, hget', total_perm V get hp, total_perm V get hq]
    have hpk := (((hp.filterMap (coinAt V get)).map posting).map Prod.fst).mem_iff (a := k)
    have hqk := (((hq.filterMap (coinAt V get)).map posting).map Prod.fst).mem_iff (a := k)
    simp only [hpk, hqk]
  rw [hr, hr', hsame]

/-! ### The findings -/

/- What an account has more after the run than before, the gas coin and the unwrapped
objects aside. -/
def net (effects : Effects Owner) (inputObjs : List InputObjectKind) (gasId : ObjectID)
    (account : Owner × TypeTag) : ℤ :=
  total V get (outputKeys effects gasId) account -
    total V get (inputKeys effects inputObjs gasId) account

theorem doneExecution_iff (sequence : MoveSequence) (inputObjs : List InputObjectKind)
    (gasId : ObjectID) (effects : Effects Owner)
    (hmodified : Answers V get (inputKeys effects inputObjs gasId))
    (hmutated : Answers V get (outputKeys effects gasId))
    (hin : effects.modifiedAtVersions.length < 2 ^ 62)
    (hout : effects.allChangedObjects.length < 2 ^ 62) :
    ∃ findings, doneExecution V get (some (recordedStage sequence effects.status).2) inputObjs
        gasId effects = some findings ∧
      (findings ≠ [] ↔ effects.status = .success ∧
        (∀ account, 0 ≤ net V get effects inputObjs gasId account) ∧
        ∃ account, 0 < net V get effects inputObjs gasId account) := by
  cases hstatus : effects.status with
  | failure command =>
    have hfailed : ¬some (recordedStage sequence (.failure command)).2 = some true := by
      simp [recordedStage]
    exact ⟨[], by rw [doneExecution, if_neg hfailed], by simp⟩
  | success =>
    obtain ⟨changes, hchanges, _, hmem⟩ := getBalanceChanges_exact V get _ _ hmodified hmutated
      ((inputKeys_length_le effects inputObjs gasId).trans_lt hin)
      ((outputKeys_length_le effects gasId).trans_lt hout)
    have hall : (changes.all fun c => decide (0 ≤ c.amount)) = true ↔
        ∀ account, 0 ≤ net V get effects inputObjs gasId account := by
      simp only [List.all_eq_true, decide_eq_true_eq]
      constructor
      · intro h account
        by_cases hzero : net V get effects inputObjs gasId account = 0
        · exact hzero.ge
        · exact h ⟨account.1, account.2, _⟩ ((hmem _).mpr ⟨hzero, rfl⟩)
      · intro h c hc
        rw [((hmem c).mp hc).2]
        exact h (c.owner, c.coinType)
    have hany : (changes.any fun c => decide (0 < c.amount)) = true ↔
        ∃ account, 0 < net V get effects inputObjs gasId account := by
      simp only [List.any_eq_true, decide_eq_true_eq]
      constructor
      · rintro ⟨c, hc, hpos⟩
        rw [((hmem c).mp hc).2] at hpos
        exact ⟨_, hpos⟩
      · rintro ⟨account, hpos⟩
        exact ⟨⟨account.1, account.2, _⟩, (hmem _).mpr ⟨ne_of_gt hpos, rfl⟩, hpos⟩
    simp only [doneExecution, recordedStage, if_true, getBalanceChangesFromEffect, hstatus,
      hchanges, Option.bind_eq_bind, Option.bind_some, true_and]
    rw [← hall, ← hany, ← Bool.and_eq_true]
    split_ifs with h
    · exact ⟨_, rfl, iff_of_true (List.cons_ne_nil _ _) h⟩
    · exact ⟨_, rfl, iff_of_false (fun hne => hne rfl) h⟩

end

end

section

variable {Owner TypeTag : Type} [LinearOrder Owner] [LinearOrder TypeTag]

/- Balance changes are exact for a store that answers what is listed, and so are the
findings of a run, with the store to which it was committed. -/
theorem proceeds_exact (V : ObjectView Owner TypeTag) :
    (∀ (get : Reader) (modified mutated : List ObjectKey), Answers V get modified →
      Answers V get mutated → modified.length < 2 ^ 62 → mutated.length < 2 ^ 62 →
      ∃ changes, (∀ modified' mutated', modified.Perm modified' → mutated.Perm mutated' →
          getBalanceChanges V get modified' mutated' = some (some changes)) ∧
        (changes.map fun c => (c.owner, c.coinType)).Nodup ∧
        ∀ c, c ∈ changes ↔ c.amount ≠ 0 ∧
          c.amount = total V get mutated (c.owner, c.coinType) -
            total V get modified (c.owner, c.coinType)) ∧
    ∀ (B : BackingStore) (results : InnerTemporaryStore) (effects : Effects Owner)
      (sequence : MoveSequence) (gasId : ObjectID) (db : CachedStore) (get : Reader),
      (CachedStore.new B).commitStore results effects.toTransactionEffects = some db →
      (get = fun id v => (db.getObjectByKey id v).1) →
      Answers V get (inputKeys effects (preExecution sequence) gasId) →
      Answers V get (outputKeys effects gasId) →
      effects.modifiedAtVersions.length < 2 ^ 62 → effects.allChangedObjects.length < 2 ^ 62 →
      ∃ findings, runTargetFindings V B results effects sequence gasId = some findings ∧
        (findings ≠ [] ↔ effects.status = .success ∧
          (∀ account, 0 ≤ net V get effects (preExecution sequence) gasId account) ∧
          ∃ account, 0 < net V get effects (preExecution sequence) gasId account) := by
  constructor
  · intro get modified mutated hmodified hmutated hin hout
    obtain ⟨changes, hchanges, hnodup, hmem⟩ :=
      getBalanceChanges_exact V get modified mutated hmodified hmutated hin hout
    refine ⟨changes, fun modified' mutated' hp hq => ?_, hnodup, hmem⟩
    rw [← hchanges]
    exact getBalanceChanges_perm V get _ _ _ _ hmodified hmutated hin hout hp hq
  · intro B results effects sequence gasId db get hdb hget hmodified hmutated hin hout
    obtain ⟨findings, hfindings, hiff⟩ := doneExecution_iff V get sequence
      (preExecution sequence) gasId effects hmodified hmutated hin hout
    refine ⟨findings, ?_, hiff⟩
    rw [runTargetFindings, hdb, ← hfindings, hget]
    rfl

end

def byteCoin : ObjectView ℕ ℕ where
  coinType _ := some 0
  owner _ := 0
  digest o := match o.data with
    | .move contents => contents
    | .package modules => modules
  extractBalance o := match o.data with
    | .move [b] => some ⟨b.val, by omega⟩
    | _ => some 0
  gas := 1
  extract_coin := by
    intro o t _
    split <;> rfl

def coinRun : InnerTemporaryStore where
  inputObjects := SortedMap.empty
  written := SortedMap.empty.insert (ObjectID.ofByte 7) (sampleObject 4 [9])
  lamportVersion := 4
  streamEndedConsensusObjects := SortedMap.empty
  input_keyed := by simp
  written_keyed := by
    intro id o h
    rw [SortedMap.get?_insert] at h
    split_ifs at h with hid
    · rw [hid, ← Option.some.inj h]
      rfl
    · simp at h

def coinEffects : Effects ℕ where
  deleted := []
  transferredFromConsensus := []
  consensusOwnerChanged := []
  streamEndedMutablyAccessedConsensusObjects := []
  deleted_nodup := List.nodup_nil
  status := .success
  gasOwner := 0
  netGasUsage := 0
  allChangedObjects := [(ObjectID.ofByte 7, 4, [9])]
  modifiedAtVersions := [(ObjectID.ofByte 7, 1)]
  unwrappedThenDeleted := []

/- The coin gains 8 in a run. -/
theorem proceeds_exact_gain :
    ∃ findings, runTargetFindings byteCoin twoVersions coinRun coinEffects ⟨[], []⟩
        (ObjectID.ofByte 2) = some findings ∧ findings ≠ [] := by
  have hcommit : ∃ db, (CachedStore.new twoVersions).commitStore coinRun
      coinEffects.toTransactionEffects = some db ∧
      (db.getObjectByKey (ObjectID.ofByte 7) 1).1 = some (sampleObject 1 [1]) ∧
      (db.getObjectByKey (ObjectID.ofByte 7) 4).1 = some (sampleObject 4 [9]) :=
    ⟨_, rfl, by decide, by decide⟩
  obtain ⟨db, hdb, hbefore, hafter⟩ := hcommit
  have hin : inputKeys coinEffects [] (ObjectID.ofByte 2) = [(ObjectID.ofByte 7, 1, none)] := by
    decide
  have hout : outputKeys coinEffects (ObjectID.ofByte 2) = [(ObjectID.ofByte 7, 4, some [9])] := by
    decide
  obtain ⟨findings, hfindings, hiff⟩ := (proceeds_exact byteCoin).2 twoVersions coinRun coinEffects
    ⟨[], []⟩ (ObjectID.ofByte 2) db _ hdb rfl
    (by
      rw [show preExecution ⟨[], []⟩ = [] from rfl, hin]
      intro key hkey
      obtain rfl := List.mem_singleton.mp hkey
      exact ⟨_, hbefore, fun t digest _ hdigest => by simp at hdigest⟩)
    (by
      rw [hout]
      intro key hkey
      obtain rfl := List.mem_singleton.mp hkey
      exact ⟨_, hafter, fun t digest _ hdigest => (Option.some.inj hdigest).symm⟩)
    (by decide) (by decide)
  have hnet : ∀ account, net byteCoin (fun id v => (db.getObjectByKey id v).1) coinEffects
      (preExecution ⟨[], []⟩) (ObjectID.ofByte 2) account = if (0, 0) = account then 8 else 0 := by
    intro account
    rw [net, show preExecution ⟨[], []⟩ = [] from rfl, hin, hout]
    simp only [total, List.filterMap_cons, List.filterMap_nil, coinAt, hbefore, hafter]
    simp only [byteCoin, sampleObject, posting, Option.bind_eq_bind, Option.bind_some,
      List.map_cons, List.map_nil, totalOf_cons, totalOf_nil, toLex_inj]
    split_ifs <;> rfl
  refine ⟨findings, hfindings, hiff.mpr ⟨rfl, fun account => ?_, (0, 0), ?_⟩⟩
  · rw [hnet]
    split_ifs <;> decide
  · rw [hnet, if_pos rfl]
    decide

/- A store that has the listed version with another digest makes the oracle panic. -/
theorem other_digest_panics :
    ∃ modified : List ObjectKey, modified.length < 2 ^ 62 ∧
      (∀ key ∈ modified, (twoVersions.getObjectByKey key.1 key.2.1).isSome) ∧
      getBalanceChanges byteCoin twoVersions.getObjectByKey modified [] = none := by
  refine ⟨[(ObjectID.ofByte 7, 1, some [0])], by decide, ?_, by decide⟩
  intro key hkey
  obtain rfl := List.mem_singleton.mp hkey
  decide

end Movy.Fuzz.Proceeds
