import Movy.Lib.Ledger
import Movy.Store.ReadThrough
import Movy.Sui.GraphQl

/-!
# Forking a chain that goes on

The endpoint answers from the chain as it is, and the chain goes on after the
checkpoint that the database forks from. What is read by id is not affected by
that; what is read by version or by bound is, exactly if the chain has passed
the read. A cached store over the live endpoint works as over the chain at the
fork as long as no read that misses the cache has been passed.
-/

namespace Movy.Sui

open Movy.Store Movy.Ledger

abbrev ObjectWrite := Write ObjectID SequenceNumber Object

def stamp (o : Object) : ObjectID × SequenceNumber := (o.id, o.version)

/- The checkpoints of a chain, each with the versions of objects that it writes. -/
structure Chain where
  checkpoints : List (List ObjectWrite)
  ordered : Ordered checkpoints.flatten
  stamped : Stamped stamp checkpoints.flatten

namespace Chain

variable (chain : Chain) (fork : ℕ)

def writes : List ObjectWrite := chain.checkpoints.flatten

/- The chain knows nothing as of a checkpoint that is still to come. -/
def upTo : List ObjectWrite :=
  if fork < chain.checkpoints.length then (chain.checkpoints.take (fork + 1)).flatten else []

def since : List ObjectWrite := (chain.checkpoints.drop (fork + 1)).flatten

theorem writes_split : (chain.checkpoints.take (fork + 1)).flatten ++ chain.since fork =
    chain.writes := by
  rw [since, writes, ← List.flatten_append, List.take_append_drop]

theorem ordered_split :
    Ordered ((chain.checkpoints.take (fork + 1)).flatten ++ chain.since fork) := by
  rw [writes_split]
  exact chain.ordered

theorem stamped_split :
    Stamped stamp ((chain.checkpoints.take (fork + 1)).flatten ++ chain.since fork) := by
  rw [writes_split]
  exact chain.stamped

theorem mem_of_upTo (w : ObjectWrite) (h : w ∈ chain.upTo fork) : w ∈ chain.writes := by
  unfold upTo at h
  split at h
  · rw [← chain.writes_split fork]
    exact List.mem_append_left _ h
  · cases h

def cut : Chain where
  checkpoints := chain.checkpoints.take (fork + 1)
  ordered := (chain.ordered_split fork).append_left
  stamped w hw := chain.stamped_split fork w (List.mem_append_left _ hw)

theorem upTo_cut (h : fork < chain.checkpoints.length) :
    (chain.cut fork).upTo fork = chain.upTo fork := by
  have hlength : fork < (chain.checkpoints.take (fork + 1)).length := by
    rw [List.length_take]
    omega
  rw [upTo, upTo, if_pos h]
  exact (if_pos hlength).trans (congrArg List.flatten (List.take_take.trans (by rw [Nat.min_self])))

/-! ### What the endpoint answers from -/

def resolve (k : ObjectKey) : Option Object :=
  match k.version, k.rootVersion, k.atCheckpoint with
  | some v, _, _ => valueOf (exactly k.address v) chain.writes
  | none, some b, _ => valueOf (below k.address b) chain.writes
  | none, none, some ckpt => valueOf (anyOf k.address) (chain.upTo ckpt)
  | none, none, none => valueOf (anyOf k.address) chain.writes

theorem mem_of_resolve (k : ObjectKey) (o : Object) (h : chain.resolve k = some o) :
    ∃ w ∈ chain.writes, w.value = some o := by
  have hwrites : ∀ p, valueOf p chain.writes = some o → ∃ w ∈ chain.writes, w.value = some o := by
    intro p hp
    obtain ⟨w, hw, -, ho⟩ := mem_of_valueOf p _ o hp
    exact ⟨w, hw, ho⟩
  unfold resolve at h
  split at h
  · exact hwrites _ h
  · exact hwrites _ h
  · rename_i ckpt _ _
    obtain ⟨w, hw, -, ho⟩ := mem_of_valueOf _ _ o h
    exact ⟨w, chain.mem_of_upTo _ w hw, ho⟩
  · exact hwrites _ h

/- The chain as a backing store: by id as of the fork, by version and bound as it is. -/
def forkStore : BackingStore where
  getObject id := valueOf (anyOf id) (chain.upTo fork)
  getObjectByKey id v := valueOf (exactly id v) chain.writes
  getPackageObject id := .ok ((valueOf (anyOf id) (chain.upTo fork)).map PackageObject.mk)
  getObjectReceivedAtVersion _ id v _ := .ok (valueOf (exactly id v) chain.writes)
  readChildObject _ child b := .ok (valueOf (below child b) chain.writes)

end Chain

/- Every reply of the endpoint that is no failure is the answer of the chain. -/
structure Follows {Cursor : Type} (client : GraphQlClient Cursor) (encode : Object → String)
    (chain : Chain) : Prop where
  decode : ∀ w ∈ chain.writes, ∀ o, w.value = some o → client.base64ToObject (encode o) = .ok o
  objects : ∀ keys n r, client.multiGetObjects keys n = .response r → r.errors = none →
    r.data = some (keys.map fun k => (chain.resolve k).map fun o => ⟨some (encode o)⟩)

/- One of the attempts at every query is replied to. -/
def Up {Cursor : Type} (client : GraphQlClient Cursor) : Prop :=
  ∀ keys, ∃ r, runQuery (client.multiGetObjects keys) = .ok r

section

variable {Cursor : Type} (db : GraphQlDatabase Cursor) (encode : Object → String) (chain : Chain)
  (hfollows : Follows db.graphql encode chain)

include hfollows

theorem singleObject_of_reply (k : ObjectKey) (r : GraphQlResponse (List (Option ObjectBcs)))
    (hreply : runQuery (db.graphql.multiGetObjects [k]) = .ok r) :
    db.singleObject k = .ok (chain.resolve k) := by
  obtain ⟨herrors, n, hn⟩ := runQuery_ok _ r hreply
  have hdata := hfollows.objects [k] n r hn herrors
  rw [GraphQlDatabase.singleObject, GraphQlClient.queryObjects, hreply]
  simp only [hdata, List.map_cons, List.map_nil]
  cases hk : chain.resolve k with
  | none => rfl
  | some o =>
    obtain ⟨w, hw, ho⟩ := chain.mem_of_resolve k o hk
    simp only [Option.map_some, GraphQlClient.decodeObjects, bind, Except.bind,
      db.graphql.decodeBcs_ok _ (encode o) o (hfollows.decode w hw o ho)]
    rfl

theorem singleObject_cases (k : ObjectKey) :
    db.singleObject k = .ok (chain.resolve k) ∨ ∃ e, db.singleObject k = .error e := by
  cases hreply : runQuery (db.graphql.multiGetObjects [k]) with
  | ok r => exact .inl (singleObject_of_reply db encode chain hfollows k r hreply)
  | error e =>
    refine .inr ⟨.query "objects" e, ?_⟩
    rw [GraphQlDatabase.singleObject, GraphQlClient.queryObjects, hreply]

/- Over an endpoint that may fail, a read fails or has the answer of the chain. -/
theorem answer_cases (r : Read) :
    db.toBackingStore.answer r = (chain.forkStore db.fork).answer r ∨
      (db.toBackingStore.answer r).carried = none := by
  cases r with
  | getObject id =>
    rcases singleObject_cases db encode chain hfollows (.ofCheckpoint id db.fork) with h | ⟨e, h⟩
    · exact .inl (congrArg Answer.object (congrArg GraphQlDatabase.orNone h))
    · exact .inr (congrArg GraphQlDatabase.orNone h)
  | getObjectByKey id v =>
    rcases singleObject_cases db encode chain hfollows (.ofVersion id v) with h | ⟨e, h⟩
    · exact .inl (congrArg Answer.object (congrArg GraphQlDatabase.orNone h))
    · exact .inr (congrArg GraphQlDatabase.orNone h)
  | getPackageObject id =>
    have hpackage : db.toBackingStore.getPackageObject id =
        (db.storage (db.singleObject (.ofCheckpoint id db.fork))).map fun package =>
          package.map PackageObject.mk := rfl
    rcases singleObject_cases db encode chain hfollows (.ofCheckpoint id db.fork) with h | ⟨e, h⟩
    · rw [h] at hpackage
      exact .inl (congrArg Answer.package hpackage)
    · rw [h] at hpackage
      exact .inr (congrArg (fun p => (Answer.package p).carried) hpackage)
  | getObjectReceivedAtVersion owner id v epoch =>
    rcases singleObject_cases db encode chain hfollows (.ofVersion id v) with h | ⟨e, h⟩
    · exact .inl (congrArg (fun p => Answer.result (db.storage p)) h)
    · exact .inr (congrArg (fun p => (Answer.result (db.storage p)).carried) h)
  | readChildObject parent child b =>
    rcases singleObject_cases db encode chain hfollows (.ofRootVersion child b) with h | ⟨e, h⟩
    · exact .inl (congrArg (fun p => Answer.result (db.storage p)) h)
    · exact .inr (congrArg (fun p => (Answer.result (db.storage p)).carried) h)

theorem toBackingStore_eq (hup : Up db.graphql) :
    db.toBackingStore = chain.forkStore db.fork := by
  have hsingle : db.singleObject = fun k => .ok (chain.resolve k) := by
    funext k
    obtain ⟨r, hreply⟩ := hup [k]
    exact singleObject_of_reply db encode chain hfollows k r hreply
  unfold GraphQlDatabase.toBackingStore GraphQlDatabase.getObjectAtCheckpoint
  rw [hsingle]
  rfl

end

/-! ### What the chain has passed -/

/- The versions that a read admits; by id it asks for none. -/
def selects : Read → ObjectWrite → Bool
  | .getObject _ => fun _ => false
  | .getPackageObject _ => fun _ => false
  | .getObjectByKey id v => exactly id v
  | .getObjectReceivedAtVersion _ id v _ => exactly id v
  | .readChildObject _ child b => below child b

theorem about_selects (r : Read) : About r.target (selects r) := by
  cases r with
  | getObject id => exact fun w h => (by cases h)
  | getPackageObject id => exact fun w h => (by cases h)
  | getObjectByKey id v => exact about_exactly id v
  | getObjectReceivedAtVersion owner id v epoch => exact about_exactly id v
  | readChildObject parent child b => exact about_below child b

/- Since the fork a version has been written that the read admits, and the last
such write shows: it is live, or something was live before. -/
def Overtaken (chain : Chain) (fork : ℕ) (r : Read) : Prop :=
  ∃ w, lastOf (selects r) (chain.since fork) = some w ∧
    (w.value ≠ none ∨ valueOf (selects r) (chain.cut fork).writes ≠ none)

theorem not_overtaken_iff (chain : Chain) (fork : ℕ) (r : Read) :
    ¬Overtaken chain fork r ↔
      valueOf (selects r) chain.writes = valueOf (selects r) (chain.cut fork).writes := by
  have hiff := valueOf_append_eq_iff stamp _ _ (chain.ordered_split fork)
    (chain.stamped_split fork) r.target (selects r) (about_selects r)
  rw [chain.writes_split fork] at hiff
  refine Iff.trans ?_ hiff.symm
  simp only [Overtaken, not_exists, not_and, not_or, not_not]
  rfl

theorem answer_forkStore (chain : Chain) (fork : ℕ) (r : Read) :
    (chain.forkStore fork).answer r = match r with
      | .getObject id => r.wrap (valueOf (anyOf id) (chain.upTo fork))
      | .getPackageObject id => r.wrap (valueOf (anyOf id) (chain.upTo fork))
      | _ => r.wrap (valueOf (selects r) chain.writes) := by
  cases r <;> rfl

theorem wrap_eq_iff (r : Read) (x y : Option Object) : r.wrap x = r.wrap y ↔ x = y := by
  refine ⟨fun h => ?_, congrArg r.wrap⟩
  have hcarried := congrArg Answer.carried h
  rwa [CachedStore.carried_wrap, CachedStore.carried_wrap] at hcarried

/- The chain at its present height answers as at the fork, exactly if it has not
passed the read. -/
theorem answer_cut_iff (chain : Chain) (fork : ℕ) (hfork : fork < chain.checkpoints.length)
    (r : Read) :
    (chain.forkStore fork).answer r = ((chain.cut fork).forkStore fork).answer r ↔
      ¬Overtaken chain fork r := by
  rw [not_overtaken_iff, answer_forkStore, answer_forkStore, chain.upTo_cut fork hfork]
  cases r with
  | getObject id => simp [selects, valueOf, lastOf]
  | getPackageObject id => simp [selects, valueOf, lastOf]
  | getObjectByKey id v => exact wrap_eq_iff _ _ _
  | getObjectReceivedAtVersion owner id v epoch => exact wrap_eq_iff _ _ _
  | readChildObject parent child b => exact wrap_eq_iff _ _ _

/- A read over the live endpoint, which may fail: if the chain has not passed it
since the fork, it has the answer of the fork or fails. Over an endpoint that
replies it has that answer exactly then. -/
theorem fork_isolates_reads {Cursor : Type} (db : GraphQlDatabase Cursor)
    (encode : Object → String) (chain : Chain) (hfork : db.fork < chain.checkpoints.length)
    (hfollows : Follows db.graphql encode chain) (r : Read) :
    (¬Overtaken chain db.fork r →
      db.toBackingStore.answer r = ((chain.cut db.fork).forkStore db.fork).answer r ∨
        (db.toBackingStore.answer r).carried = none) ∧
    (Up db.graphql →
      (db.toBackingStore.answer r = ((chain.cut db.fork).forkStore db.fork).answer r ↔
        ¬Overtaken chain db.fork r)) := by
  refine ⟨fun hnot => ?_, fun hup => ?_⟩
  · rw [← (answer_cut_iff chain db.fork hfork r).mpr hnot]
    exact answer_cases db encode chain hfollows r
  · rw [toBackingStore_eq db encode chain hfollows hup]
    exact answer_cut_iff chain db.fork hfork r

def sampleCheckpoints : List (List ObjectWrite) :=
  [[⟨ObjectID.ofByte 7, 1, some (sampleObject 1 [1])⟩],
   [⟨ObjectID.ofByte 7, 3, some (sampleObject 3 [3])⟩]]

theorem sampleCheckpoints_ordered : Ordered sampleCheckpoints.flatten := by
  simp [sampleCheckpoints, Ordered]

theorem sampleCheckpoints_stamped : Stamped stamp sampleCheckpoints.flatten := by
  simp [sampleCheckpoints, Stamped, stamp, sampleObject]

def sampleChain : Chain := ⟨sampleCheckpoints, sampleCheckpoints_ordered, sampleCheckpoints_stamped⟩

def sampleEncode (o : Object) : String := if o.version = 1 then "AQ==" else "Aw=="

def sampleClient : GraphQlClient ℕ where
  multiGetObjects keys n :=
    if n = 0 then .garbled
    else .response ⟨some (keys.map fun k => (sampleChain.resolve k).map fun o =>
      ⟨some (sampleEncode o)⟩), none⟩
  objects _ _ := .response ⟨some none, none⟩
  base64ToObject b64 := .ok (if b64 = "AQ==" then sampleObject 1 [1] else sampleObject 3 [3])
  debug := ⟨fun _ => "keys", fun _ => "object"⟩

theorem sampleClient_follows : Follows sampleClient sampleEncode sampleChain where
  decode w hw o ho := by
    simp only [Chain.writes, sampleChain, sampleCheckpoints, List.flatten_cons, List.flatten_nil,
      List.append_nil, List.cons_append, List.nil_append, List.mem_cons, List.not_mem_nil,
      or_false] at hw
    rcases hw with rfl | rfl
    · cases ho
      decide
    · cases ho
      decide
  objects keys n r h _ := by
    unfold sampleClient at h
    simp only at h
    split at h
    · cases h
    · cases h
      rfl

theorem sampleClient_up : Up sampleClient := fun _ => ⟨_, rfl⟩

theorem fork_isolates_reads_sample :
    (GraphQlDatabase.mk sampleClient 0).toBackingStore.answer (.getObject (ObjectID.ofByte 7)) =
        .object (some (sampleObject 1 [1])) ∧
      (GraphQlDatabase.mk sampleClient 0).toBackingStore.answer
        (.getObjectByKey (ObjectID.ofByte 7) 3) ≠
        ((sampleChain.cut 0).forkStore 0).answer (.getObjectByKey (ObjectID.ofByte 7) 3) := by
  have hreads := fork_isolates_reads ⟨sampleClient, 0⟩ sampleEncode sampleChain (by decide)
    sampleClient_follows
  refine ⟨((hreads _).2 sampleClient_up).mpr ?_, fun heq => ?_⟩
  · intro hover
    obtain ⟨w, hw, -⟩ := hover
    cases hw
  · exact ((hreads _).2 sampleClient_up).mp heq ⟨_, rfl, .inl (by decide)⟩

/-! ### A cache over the live endpoint -/

def observe (self : CachedStore) : Op → Option (Option Answer × CachedStore)
  | .read r => some (some (self.read r).1, (self.read r).2)
  | .commitSingleObject object => some (none, self.commitSingleObject object)
  | .commitStore store effects => (self.commitStore store effects).map fun next => (none, next)

def observeAll : CachedSnapshot → List (BackingStore × Op) →
    Option (List (Option Answer) × CachedSnapshot)
  | inner, [] => some ([], inner)
  | inner, (store, op) :: rest => do
    let (answer, self) ← observe ⟨inner, store⟩ op
    let (answers, last) ← observeAll self.inner rest
    some (answer :: answers, last)

theorem fill_congr (inner : CachedSnapshot) (B B' : BackingStore) (r : Read)
    (h : B'.answer r = B.answer r) :
    (CachedStore.fill ⟨inner, B'⟩ r).inner = (CachedStore.fill ⟨inner, B⟩ r).inner := by
  have hfetched : B'.fetched r = B.fetched r := congrArg Answer.carried h
  unfold CachedStore.fill
  rw [hfetched]
  cases B.fetched r with
  | some o => rfl
  | none =>
    cases r with
    | readChildObject parent child b =>
      have hchild : B'.readChildObject parent child b = B.readChildObject parent child b :=
        Answer.result.inj h
      simp only [hchild]
      cases B.readChildObject parent child b <;> rfl
    | _ => rfl

theorem observe_congr (inner : CachedSnapshot) (B B' : BackingStore) (op : Op)
    (h : ∀ r, op = .read r → CachedStore.lookup ⟨inner, B⟩ r = .miss → B'.answer r = B.answer r) :
    (observe ⟨inner, B'⟩ op).map (fun x => (x.1, x.2.inner)) =
      (observe ⟨inner, B⟩ op).map fun x => (x.1, x.2.inner) := by
  cases op with
  | commitSingleObject object => rfl
  | commitStore store effects =>
    simp only [observe, CachedStore.commitStore, Option.map_map]
    cases endedIds store effects <;> rfl
  | read r =>
    have hlookup : CachedStore.lookup ⟨inner, B'⟩ r = CachedStore.lookup ⟨inner, B⟩ r := by
      cases r <;> rfl
    simp only [observe, Option.map_some, CachedStore.read_eq, hlookup]
    cases hl : CachedStore.lookup ⟨inner, B⟩ r with
    | hit o => rfl
    | absent => rfl
    | miss =>
      have hanswer := h r rfl hl
      simp only [hanswer, fill_congr inner B B' r hanswer]

/-! #### Histories -/

/- One operation, with the endpoint as it is then and the chain that it knows. -/
structure Moment (Cursor : Type) where
  client : GraphQlClient Cursor
  chain : Chain
  op : Op

/- The endpoint replies, and its chain has gone on from the one at the fork. -/
structure Moment.Live {Cursor : Type} (encode : Object → String) (old : Chain) (fork : ℕ)
    (m : Moment Cursor) : Prop where
  follows : Follows m.client encode m.chain
  up : Up m.client
  forked : fork < m.chain.checkpoints.length
  cut : m.chain.cut fork = old

/- No read that misses the cache comes too late. -/
def Quiet {Cursor : Type} (B : BackingStore) (fork : ℕ) : CachedSnapshot → List (Moment Cursor) → Prop
  | _, [] => True
  | inner, m :: rest =>
    (∀ r, m.op = .read r → CachedStore.lookup ⟨inner, B⟩ r = .miss →
      ¬Overtaken m.chain fork r) ∧
    ∀ answer self, observe ⟨inner, B⟩ m.op = some (answer, self) → Quiet B fork self.inner rest

/- A history of reads and commits on a cached store, over an endpoint whose chain
goes on meanwhile: every answer and the cache at the end are those of the same
history over the chain at the fork. -/
theorem fork_isolates_histories {Cursor : Type} (encode : Object → String) (old : Chain) (fork : ℕ)
    (inner : CachedSnapshot) (moments : List (Moment Cursor))
    (hlive : ∀ m ∈ moments, m.Live encode old fork)
    (hquiet : Quiet (old.forkStore fork) fork inner moments) :
    observeAll inner (moments.map fun m =>
        ((GraphQlDatabase.mk m.client fork).toBackingStore, m.op)) =
      observeAll inner (moments.map fun m => (old.forkStore fork, m.op)) := by
  induction moments generalizing inner with
  | nil => rfl
  | cons m rest ih =>
    obtain ⟨hlate, hnext⟩ := hquiet
    have hm := hlive m List.mem_cons_self
    have hanswer : ∀ r, m.op = .read r →
        CachedStore.lookup ⟨inner, old.forkStore fork⟩ r = .miss →
        (GraphQlDatabase.mk m.client fork).toBackingStore.answer r =
          (old.forkStore fork).answer r := by
      intro r hop hmiss
      have heq := toBackingStore_eq ⟨m.client, fork⟩ encode m.chain hm.follows hm.up
      have hcut := (answer_cut_iff m.chain fork hm.forked r).mpr (hlate r hop hmiss)
      rw [hm.cut] at hcut
      rw [heq]
      exact hcut
    have hstep := observe_congr inner _ _ m.op hanswer
    simp only [List.map_cons, observeAll]
    cases hfrozen : observe ⟨inner, old.forkStore fork⟩ m.op with
    | none =>
      rw [hfrozen, Option.map_none, Option.map_eq_none_iff] at hstep
      rw [hstep]
      rfl
    | some x =>
      rw [hfrozen, Option.map_some] at hstep
      obtain ⟨y, hy, hxy⟩ := Option.map_eq_some_iff.mp hstep
      obtain ⟨hanswers, hinner⟩ := Prod.mk.inj hxy
      have hrest := ih x.2.inner (fun m' hm' => hlive m' (List.mem_cons_of_mem m hm'))
        (hnext x.1 x.2 hfrozen)
      simp only [hy, bind, Option.bind, hanswers, hinner, hrest]

def sampleMoments : List (Moment ℕ) :=
  [⟨sampleClient, sampleChain, .read (.getObject (ObjectID.ofByte 7))⟩,
   ⟨sampleClient, sampleChain, .read (.getObjectByKey (ObjectID.ofByte 7) 1)⟩]

theorem fork_isolates_histories_sample :
    (observeAll .default (sampleMoments.map fun m =>
      ((GraphQlDatabase.mk m.client 0).toBackingStore, m.op))).map Prod.fst =
        some [some (.object (some (sampleObject 1 [1]))),
          some (.object (some (sampleObject 1 [1])))] := by
  have hlive : ∀ m ∈ sampleMoments, m.Live sampleEncode (sampleChain.cut 0) 0 := by
    intro m hm
    simp only [sampleMoments, List.mem_cons, List.not_mem_nil, or_false] at hm
    rcases hm with rfl | rfl
    · exact ⟨sampleClient_follows, sampleClient_up, by decide, rfl⟩
    · exact ⟨sampleClient_follows, sampleClient_up, by decide, rfl⟩
  have hquiet : Quiet ((sampleChain.cut 0).forkStore 0) 0 .default sampleMoments := by
    refine ⟨fun r hr _ hover => ?_, fun answer self _ =>
      ⟨fun r hr _ hover => ?_, fun _ _ _ => trivial⟩⟩
    · cases hr
      obtain ⟨w, hw, -⟩ := hover
      cases hw
    · cases hr
      obtain ⟨w, hw, -⟩ := hover
      cases hw
  rw [fork_isolates_histories sampleEncode (sampleChain.cut 0) 0 .default sampleMoments hlive hquiet]
  rfl

/-! ### Whether the store is consistent -/

section

variable (chain : Chain) (fork : ℕ)

theorem mem_since (w : ObjectWrite) (hw : w ∈ chain.writes) (hfork : chain.upTo fork ≠ [])
    (hnot : w ∉ chain.upTo fork) : w ∈ chain.since fork := by
  unfold Chain.upTo at hfork hnot
  split at hfork
  · rename_i hlt
    rw [if_pos hlt] at hnot
    rw [← chain.writes_split fork] at hw
    exact (List.mem_append.mp hw).resolve_left hnot
  · exact absurd rfl hfork

theorem ordered_upTo : Ordered (chain.upTo fork) := by
  unfold Chain.upTo
  split
  · exact (chain.cut fork).ordered
  · exact List.Pairwise.nil

theorem stamped_upTo : Stamped stamp (chain.upTo fork) :=
  fun w hw => chain.stamped w (chain.mem_of_upTo fork w hw)

theorem getObjectByKey_live (w : ObjectWrite) (hw : w ∈ chain.writes) :
    (chain.forkStore fork).getObjectByKey w.key w.version = w.value :=
  chain.ordered.valueOf_exactly w hw

theorem live_of_getObjectByKey (id : ObjectID) (v : SequenceNumber) (o : Object)
    (h : (chain.forkStore fork).getObjectByKey id v = some o) :
    ∃ w ∈ chain.writes, w.key = id ∧ w.version = v ∧ w.value = some o := by
  obtain ⟨w, hw, hp, ho⟩ := mem_of_valueOf _ _ o h
  obtain ⟨hkey, hversion⟩ := (exactly_iff id v w).mp hp
  exact ⟨w, hw, hkey, hversion, ho⟩

theorem getObjectByKey_found (p : ObjectWrite → Bool) (id : ObjectID) (hp : About id p)
    (writes : List ObjectWrite) (hsub : ∀ w ∈ writes, w ∈ chain.writes) (o : Object)
    (h : valueOf p writes = some o) :
    (chain.forkStore fork).getObjectByKey id o.version = some o := by
  obtain ⟨w, hw, hpw, ho⟩ := mem_of_valueOf p writes o h
  obtain ⟨-, hversion⟩ := Prod.mk.inj (chain.stamped w (hsub w hw) o ho)
  rw [← hp w hpw, hversion, getObjectByKey_live chain fork w (hsub w hw), ho]

theorem upTo_of_consistent (h : (chain.forkStore fork).Consistent) (w : ObjectWrite)
    (hw : w ∈ chain.writes) (hlive : w.value ≠ none) : w ∈ chain.upTo fork := by
  by_contra hnot
  obtain ⟨o, ho⟩ := Option.ne_none_iff_exists'.mp hlive
  have hkey := (getObjectByKey_live chain fork w hw).trans ho
  cases hget : (chain.forkStore fork).getObject w.key with
  | none =>
    rw [h.latest_none w.key hget w.version] at hkey
    cases hkey
  | some newest =>
    obtain ⟨w', hw', hp, hnewest⟩ := mem_of_valueOf _ _ newest hget
    have hle := (h.latest w.key newest hget).2 w.version o hkey
    obtain ⟨-, hversion⟩ := Prod.mk.inj (stamped_upTo chain fork w' hw' newest hnewest)
    have hsince := mem_since chain fork w hw (List.ne_nil_of_mem hw') hnot
    have hbefore : w' ∈ (chain.checkpoints.take (fork + 1)).flatten := by
      unfold Chain.upTo at hw'
      split at hw'
      · exact hw'
      · cases hw'
    have hlt := (chain.ordered_split fork).lt w' w hbefore hsince ((anyOf_iff _ w').mp hp)
    rw [hversion] at hle
    exact absurd hle (not_le_of_gt hlt)

theorem noneGone_of_consistent (h : (chain.forkStore fork).Consistent) : NoneGone chain.writes := by
  intro a ha b hb hkey hlive hgone
  by_contra hnot
  have hbelow : below b.key b.version b = true := (below_iff _ _ b).mpr ⟨rfl, le_rfl⟩
  have hnone : valueOf (below b.key b.version) chain.writes = none := by
    cases hlast : lastOf (below b.key b.version) chain.writes with
    | none => rw [valueOf, hlast, Option.bind_none]
    | some w =>
      obtain ⟨hw, hp⟩ := mem_of_lastOf _ _ w hlast
      obtain ⟨hwkey, hle⟩ := (below_iff _ _ w).mp hp
      rcases chain.ordered.le_lastOf _ w b hlast hb hbelow hwkey.symm with rfl | hlt
      · rw [valueOf, hlast, Option.bind_some, hgone]
      · exact absurd hle (not_le_of_gt hlt)
  have hread : (chain.forkStore fork).readChildObject b.key b.key b.version = .ok none :=
    congrArg Except.ok hnone
  have habsent := h.child_none b.key b.key b.version hread a.version (not_lt.mp hnot)
  rw [← hkey, getObjectByKey_live chain fork a ha] at habsent
  exact hlive habsent

theorem consistent_of_settled (hupTo : ∀ w ∈ chain.writes, w.value ≠ none → w ∈ chain.upTo fork)
    (hnone : NoneGone chain.writes) : (chain.forkStore fork).Consistent := by
  have hmem := chain.mem_of_upTo fork
  have hstamp : ∀ w ∈ chain.writes, ∀ o, w.value = some o → o.id = w.key ∧ o.version = w.version :=
    fun w hw o ho => Prod.mk.inj (chain.stamped w hw o ho)
  refine ⟨?_, ?_, ?_, ?_, ?_, ?_, ?_⟩
  · intro id v o h
    obtain ⟨w, hw, hkey, hversion, ho⟩ := live_of_getObjectByKey chain fork id v o h
    obtain ⟨hid, hver⟩ := hstamp w hw o ho
    exact ⟨hid.trans hkey, hver.trans hversion⟩
  · intro id o h
    refine ⟨getObjectByKey_found chain fork _ id (about_anyOf id) _ hmem o h, fun v o' h' => ?_⟩
    obtain ⟨w, hw, hkey, rfl, ho⟩ := live_of_getObjectByKey chain fork id v o' h'
    exact le_of_valueOf stamp _ (ordered_upTo chain fork) (stamped_upTo chain fork) id _
      (about_anyOf id) o h w (hupTo w hw (by rw [ho]; exact Option.some_ne_none o'))
      ((anyOf_iff id w).mpr hkey)
  · intro id h v
    by_contra hsome
    obtain ⟨o, ho⟩ := Option.ne_none_iff_exists'.mp hsome
    obtain ⟨w, hw, hkey, rfl, hlive⟩ := live_of_getObjectByKey chain fork id v o ho
    have hin := hupTo w hw (by rw [hlive]; exact Option.some_ne_none o)
    have hgone := none_of_valueOf _ (ordered_upTo chain fork)
      (fun a ha b hb => hnone a (hmem a ha) b (hmem b hb)) id _ (about_anyOf id) h w hin
      ((anyOf_iff id w).mpr hkey)
    rw [hlive] at hgone
    cases hgone
  · intro id p h
    exact (Except.ok.inj h).symm
  · intro owner id v epoch o h
    exact Except.ok.inj h
  · intro parent id b o h
    have hvalue : valueOf (below id b) chain.writes = some o := Except.ok.inj h
    refine ⟨getObjectByKey_found chain fork _ id (about_below id b) _ (fun w hw => hw) o hvalue,
      ?_, ?_⟩
    · obtain ⟨w, hw, hp, ho⟩ := mem_of_valueOf _ _ o hvalue
      rw [(hstamp w hw o ho).2]
      exact ((below_iff id b w).mp hp).2
    · intro v o' hle h'
      obtain ⟨w, hw, hkey, rfl, -⟩ := live_of_getObjectByKey chain fork id v o' h'
      exact le_of_valueOf stamp _ chain.ordered chain.stamped id _ (about_below id b) o hvalue w hw
        ((below_iff id b w).mpr ⟨hkey, hle⟩)
  · intro parent id b h v hle
    have hvalue : valueOf (below id b) chain.writes = none := Except.ok.inj h
    by_contra hsome
    obtain ⟨o, ho⟩ := Option.ne_none_iff_exists'.mp hsome
    obtain ⟨w, hw, hkey, rfl, hlive⟩ := live_of_getObjectByKey chain fork id v o ho
    have hgone := none_of_valueOf _ chain.ordered hnone id _ (about_below id b) hvalue w hw
      ((below_iff id b w).mpr ⟨hkey, hle⟩)
    rw [hlive] at hgone
    cases hgone

end

/- The database is a consistent backing store exactly if the chain has written no
object since the fork, and has never deleted one. -/
theorem graphql_consistent_iff {Cursor : Type} (db : GraphQlDatabase Cursor)
    (encode : Object → String) (chain : Chain) (hfollows : Follows db.graphql encode chain)
    (hup : Up db.graphql) :
    db.toBackingStore.Consistent ↔
      (∀ w ∈ chain.writes, w.value ≠ none → w ∈ chain.upTo db.fork) ∧ NoneGone chain.writes := by
  rw [toBackingStore_eq db encode chain hfollows hup]
  constructor
  · intro h
    exact ⟨upTo_of_consistent chain db.fork h, noneGone_of_consistent chain db.fork h⟩
  · intro h
    exact consistent_of_settled chain db.fork h.1 h.2

theorem graphql_consistent_iff_sample :
    ¬(GraphQlDatabase.mk sampleClient 0).toBackingStore.Consistent ∧
      (GraphQlDatabase.mk sampleClient 1).toBackingStore.Consistent := by
  constructor
  · rw [graphql_consistent_iff ⟨sampleClient, 0⟩ sampleEncode sampleChain sampleClient_follows
      sampleClient_up]
    intro h
    have hin := h.1 ⟨ObjectID.ofByte 7, 3, some (sampleObject 3 [3])⟩ (by decide) (by decide)
    exact absurd hin (by decide)
  · rw [graphql_consistent_iff ⟨sampleClient, 1⟩ sampleEncode sampleChain sampleClient_follows
      sampleClient_up]
    refine ⟨fun w hw _ => hw, ?_⟩
    intro a ha b hb _ _ hgone
    have hlive : ∀ w ∈ sampleChain.writes, w.value ≠ none := by decide
    exact absurd hgone (hlive b hb)

end Movy.Sui
