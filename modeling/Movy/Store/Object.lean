import Movy.Lib.SortedMap
import Mathlib.Algebra.Order.Ring.Nat
import Mathlib.Order.Fin.Basic

/-!
# Objects and backing stores

The vocabulary shared by the object stores of `movy-sui/src/database`:
object ids, versions and objects as the stores see them, and the read
interface of the store underneath (`ObjectStore`, `BackingPackageStore` and
`ChildObjectResolver` of sui-types).
-/

namespace Movy.Store

abbrev Byte := Fin 256

instance byte_neZero : NeZero 256 := ⟨by decide⟩

structure ObjectID where
  bytes : List Byte
  length_bytes : bytes.length = 32

theorem ObjectID.bytes_injective : Function.Injective ObjectID.bytes := by
  intro a b h
  obtain ⟨x, hx⟩ := a
  obtain ⟨y, hy⟩ := b
  simp only at h
  subst h
  rfl

instance : LinearOrder ObjectID := LinearOrder.lift' ObjectID.bytes ObjectID.bytes_injective

/-- The id whose last byte is `n` and whose other bytes are zero. -/
def ObjectID.ofByte (n : Byte) : ObjectID := ⟨List.replicate 31 0 ++ [n], by simp⟩

abbrev SequenceNumber := Fin (2 ^ 64)

instance u64_neZero : NeZero (2 ^ 64) := ⟨by decide⟩

def u64Max : SequenceNumber := ⟨2 ^ 64 - 1, by decide⟩

theorem le_u64Max (v : SequenceNumber) : v ≤ u64Max := by
  have h := v.isLt
  exact Fin.le_def.mpr (by simp only [u64Max]; omega)

abbrev EpochId := Fin (2 ^ 64)

abbrev ObjectDigest := List Byte

abbrev ObjectRef := ObjectID × SequenceNumber × ObjectDigest

/-- The payload of an object: a Move value or a package. -/
inductive Data where
  | move (contents : List Byte)
  | package (modules : List Byte)
  deriving DecidableEq

structure Object where
  id : ObjectID
  version : SequenceNumber
  data : Data
  deriving DecidableEq

/-- The sui-types wrapper around an object that is read as a package. -/
structure PackageObject where
  object : Object
  deriving DecidableEq

inductive SuiError where
  | storage (message : String)
  deriving DecidableEq

abbrev SuiResult := Except SuiError

/-- The store under a cache. Its answers are fixed for a whole run. -/
structure BackingStore where
  getObject : ObjectID → Option Object
  getObjectByKey : ObjectID → SequenceNumber → Option Object
  getPackageObject : ObjectID → SuiResult (Option PackageObject)
  getObjectReceivedAtVersion :
    ObjectID → ObjectID → SequenceNumber → EpochId → SuiResult (Option Object)
  readChildObject : ObjectID → ObjectID → SequenceNumber → SuiResult (Option Object)

def EmptyStore : BackingStore where
  getObject _ := none
  getObjectByKey _ _ := none
  getPackageObject _ := .ok none
  getObjectReceivedAtVersion _ _ _ _ := .ok none
  readChildObject _ _ _ := .ok none

/-! ### What a transaction hands to `commit_store` -/

/-- The part of `InnerTemporaryStore` that `commit_store` reads. Both object
maps are keyed by the id of the object they hold. -/
structure InnerTemporaryStore where
  inputObjects : SortedMap ObjectID Object
  written : SortedMap ObjectID Object
  lamportVersion : SequenceNumber
  streamEndedConsensusObjects : SortedMap ObjectID SequenceNumber
  input_keyed : ∀ id o, inputObjects.get? id = some o → o.id = id
  written_keyed : ∀ id o, written.get? id = some o → o.id = id

/-- The lists of `TransactionEffects` that `commit_store` reads. Each deleted
object is listed once. -/
structure TransactionEffects where
  deleted : List ObjectRef
  transferredFromConsensus : List ObjectRef
  consensusOwnerChanged : List ObjectRef
  streamEndedMutablyAccessedConsensusObjects : List ObjectID
  deleted_nodup : (deleted.map Prod.fst).Nodup

end Movy.Store
