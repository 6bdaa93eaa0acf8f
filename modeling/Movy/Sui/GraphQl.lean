import Movy.Lib.Pages
import Movy.Store.Backing

/-!
# The GraphQL client and the store over it (`rpc/graphql.rs`, `database/graphql.rs`)

A query is posted up to ten times until the reply can be parsed. Objects are
asked for by one of four kinds of keys, or listed page by page. The database
answers the reads of a backing store with such queries: by id as of the
checkpoint that it forks from, by version and by bound without one.
-/

namespace Movy.Sui

open Movy.Store Movy.Pages

/-! ### Queries -/

inductive OwnerKind where
  | address
  | object
  | shared
  | immutable
  deriving DecidableEq

/- `objects_query::ObjectKey`; an address is sent as its canonical text. -/
structure ObjectKey where
  address : ObjectID
  version : Option SequenceNumber
  rootVersion : Option SequenceNumber
  atCheckpoint : Option ℕ
  deriving DecidableEq

namespace ObjectKey

def ofCheckpoint (obj : ObjectID) (ckpt : ℕ) : ObjectKey := ⟨obj, none, none, some ckpt⟩

def latest (obj : ObjectID) : ObjectKey := ⟨obj, none, none, none⟩

def ofVersion (obj : ObjectID) (version : SequenceNumber) : ObjectKey :=
  ⟨obj, some version, none, none⟩

def ofRootVersion (obj : ObjectID) (rootVersion : SequenceNumber) : ObjectKey :=
  ⟨obj, none, some rootVersion, none⟩

end ObjectKey

/- `owned_objects::OwnedObjectFullQueryVariables`. -/
structure OwnedObjectFullQueryVariables (Cursor : Type) where
  after : Option Cursor
  checkpoint : ℕ
  first : ℕ
  kind : Option OwnerKind
  owner : Option ObjectID
  type : Option String

/-! ### Replies -/

structure ObjectBcs where
  objectBcs : Option String

/- `owned_objects::Object2`. -/
structure Object2 where
  version : Option ℕ
  objectBcs : Option String
  deriving DecidableEq

structure ObjectNode where
  address : ObjectID
  objectAt : Option Object2

structure PageInfo (Cursor : Type) where
  hasNextPage : Bool
  endCursor : Option Cursor

structure ObjectConnection (Cursor : Type) where
  nodes : List ObjectNode
  pageInfo : PageInfo Cursor

structure GraphQlResponse (α : Type) where
  data : Option α
  errors : Option String

inductive MovyError where
  | send (e : String)
  | reqwest (e : String)
  | graphql (errors : String)
  | noResponse
  | query (what : String) (e : MovyError)
  | notFound (keys : List ObjectKey)
  | noObjectBcs (keys : List ObjectKey)
  | noFields
  | noObjectBcsAt (found : Object2)
  | noCursor
  | decode (e : String)
  deriving DecidableEq

/- The `{:?}` texts of the values in errors. -/
structure Debug where
  keys : List ObjectKey → String
  object : Object2 → String

def MovyError.text (debug : Debug) : MovyError → String
  | .send e => "Failed to send GQL query: " ++ e
  | .reqwest e => "reqwest error: " ++ e
  | .graphql errors => "graphql error: " ++ errors
  | .noResponse => "can not get graphql response..."
  | .query what e => "Failed to run " ++ what ++ " query: " ++ e.text debug
  | .notFound keys => "objects not found for digest: " ++ debug.keys keys
  | .noObjectBcs keys => "no object bcs: " ++ debug.keys keys
  | .noFields => "no fields from request"
  | .noObjectBcsAt found => "no object bcs from " ++ debug.object found
  | .noCursor => "has next but not cursor?!"
  | .decode e => e

inductive Reply (α : Type) where
  | unsent (e : String)
  | unread (e : String)
  | garbled
  | response (r : GraphQlResponse α)

/- The endpoint at one moment: its reply to the `n`-th attempt at a query, and
`base64_to_object` for objects. -/
structure GraphQlClient (Cursor : Type) where
  multiGetObjects : List ObjectKey → ℕ → Reply (List (Option ObjectBcs))
  objects : OwnedObjectFullQueryVariables Cursor → ℕ → Reply (Option (ObjectConnection Cursor))
  base64ToObject : String → Except String Object
  debug : Debug

/-! ### `run_query` -/

section

variable {α : Type}

/- The attempts from the `idx`-th on, `n` of them. -/
def attempts (post : ℕ → Reply α) : ℕ → ℕ → Except MovyError (Option (GraphQlResponse α))
  | 0, _ => .ok none
  | n + 1, idx => match post idx with
    | .unsent e => .error (.send e)
    | .unread e => .error (.reqwest e)
    | .response r => .ok (some r)
    | .garbled => attempts post n (idx + 1)

def runQuery (post : ℕ → Reply α) : Except MovyError (GraphQlResponse α) :=
  match attempts post 10 0 with
  | .error e => .error e
  | .ok none => .error .noResponse
  | .ok (some r) => match r.errors with
    | some errors => .error (.graphql errors)
    | none => .ok r

theorem attempts_response (post : ℕ → Reply α) (n idx : ℕ) (r : GraphQlResponse α)
    (h : attempts post n idx = .ok (some r)) : ∃ m, post m = .response r := by
  induction n generalizing idx with
  | zero => cases h
  | succ n ih =>
    rw [attempts] at h
    split at h
    · cases h
    · cases h
    · rename_i r' hr
      cases h
      exact ⟨idx, hr⟩
    · exact ih (idx + 1) h

theorem runQuery_ok (post : ℕ → Reply α) (r : GraphQlResponse α) (h : runQuery post = .ok r) :
    r.errors = none ∧ ∃ m, post m = .response r := by
  unfold runQuery at h
  split at h
  · cases h
  · cases h
  · rename_i r' hr
    split at h
    · cases h
    · rename_i herrors
      cases h
      exact ⟨herrors, attempts_response post 10 0 _ hr⟩

end

/-! ### Objects by key -/

namespace GraphQlClient

variable {Cursor : Type} (self : GraphQlClient Cursor)

def decodeBcs (missing : MovyError) (bcs : Option String) : Except MovyError Object :=
  match bcs with
  | none => .error missing
  | some b64 => match self.base64ToObject b64 with
    | .error e => .error (.decode e)
    | .ok o => .ok o

theorem decodeBcs_ok (missing : MovyError) (b64 : String) (o : Object)
    (h : self.base64ToObject b64 = .ok o) : self.decodeBcs missing (some b64) = .ok o := by
  simp only [decodeBcs, h]

def decodeObjects (keys : List ObjectKey) : List (Option ObjectBcs) → Except MovyError (List Object)
  | [] => .ok []
  | none :: rest => decodeObjects keys rest
  | some obj :: rest => do
    let object ← self.decodeBcs (.noObjectBcs keys) obj.objectBcs
    let out ← decodeObjects keys rest
    .ok (object :: out)

def queryObjects (keys : List ObjectKey) : Except MovyError (List Object) :=
  match runQuery (self.multiGetObjects keys) with
  | .error e => .error (.query "objects" e)
  | .ok response => match response.data with
    | none => .error (.notFound keys)
    | some objects => self.decodeObjects keys objects

/-! ### Objects by owner, page by page -/

def maxPerPage : ℕ := 50

def decodeNodes : List ObjectNode → Except MovyError (List Object)
  | [] => .ok []
  | object :: rest => match object.objectAt with
    | none => decodeNodes rest
    | some found => do
      let obj ← self.decodeBcs (.noObjectBcsAt found) found.objectBcs
      let out ← decodeNodes rest
      .ok (obj :: out)

def objectsPage (checkpoint : ℕ) (kind : Option OwnerKind) (owner : Option ObjectID)
    (ty : Option String) (after : Option Cursor) :
    Except MovyError (List Object × Option Cursor) :=
  match runQuery (self.objects ⟨after, checkpoint, maxPerPage, kind, owner, ty⟩) with
  | .error e => .error (.query "transaction" e)
  | .ok response => match response.data.bind id with
    | none => .error .noFields
    | some objects => do
      let out ← self.decodeNodes objects.nodes
      if objects.pageInfo.hasNextPage then
        match objects.pageInfo.endCursor with
        | none => .error .noCursor
        | some c => .ok (out, some c)
      else .ok (out, none)

end GraphQlClient

section

variable {Cursor : Type} (clients : ℕ → GraphQlClient Cursor)

/- `clients t` is the endpoint as the `t`-th page finds it. -/
def filterObjects (checkpoint : ℕ) (kind : Option OwnerKind) (owner : Option ObjectID)
    (ty : Option String) (fuel : ℕ) : Option (Except MovyError (List Object)) :=
  gather (fun t => (clients t).objectsPage checkpoint kind owner ty) fuel 0 none

def ownedObjectsAtCheckpoint (checkpoint : ℕ) (owner : ObjectID) (ty : Option String) (fuel : ℕ) :
    Option (Except MovyError (List Object)) :=
  filterObjects clients checkpoint (some .address) (some owner) ty fuel

def dynamicFieldsAtCheckpoint (checkpoint : ℕ) (owner : ObjectID) (ty : Option String)
    (fuel : ℕ) : Option (Except MovyError (List Object)) :=
  filterObjects clients checkpoint (some .object) (some owner) ty fuel

end

/-! ### The database -/

/- The fork checkpoint is inclusive. -/
structure GraphQlDatabase (Cursor : Type) where
  graphql : GraphQlClient Cursor
  fork : ℕ

namespace GraphQlDatabase

variable {Cursor : Type} (self : GraphQlDatabase Cursor)

def singleObject (k : ObjectKey) : Except MovyError (Option Object) :=
  match self.graphql.queryObjects [k] with
  | .error e => .error e
  | .ok v => .ok v.head?

def getObjectAtCheckpoint (object : ObjectID) (checkpoint : ℕ) : Except MovyError (Option Object) :=
  self.singleObject (.ofCheckpoint object checkpoint)

def storage (r : Except MovyError (Option Object)) : SuiResult (Option Object) :=
  match r with
  | .error e => .error (.storage (e.text self.graphql.debug))
  | .ok o => .ok o

/- An error of the endpoint counts as an object that is not there. -/
def orNone (r : Except MovyError (Option Object)) : Option Object :=
  match r with
  | .error _ => none
  | .ok o => o

/- Neither the parent nor the owner is looked at. -/
def toBackingStore : BackingStore where
  getObject id := orNone (self.getObjectAtCheckpoint id self.fork)
  getObjectByKey id version := orNone (self.singleObject (.ofVersion id version))
  getPackageObject id :=
    (self.storage (self.getObjectAtCheckpoint id self.fork)).map fun package =>
      package.map PackageObject.mk
  getObjectReceivedAtVersion _ id version _ :=
    self.storage (self.singleObject (.ofVersion id version))
  readChildObject _ child bound := self.storage (self.singleObject (.ofRootVersion child bound))

end GraphQlDatabase

end Movy.Sui
