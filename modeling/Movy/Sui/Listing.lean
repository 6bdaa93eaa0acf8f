import Movy.Sui.Fork

/-!
# Listing the objects of an owner

The filter of a listing is matched against the chain as it is, page by page,
while the objects themselves are those at the fork. So an object is listed for
sure if it matched throughout and was there at the fork, and none is listed that
never matched.
-/

namespace Movy.Sui

open Movy.Store Movy.Ledger Movy.Pages

section

variable {Cursor : Type}

def node (encode : Object → String) (found : ObjectID → Option Object) (idOf : Cursor → ObjectID)
    (k : Cursor) : ObjectNode where
  address := idOf k
  objectAt := (found (idOf k)).map fun o => ⟨some o.version, some (encode o)⟩

theorem decodeNodes_map (client : GraphQlClient Cursor) (encode : Object → String)
    (found : ObjectID → Option Object) (idOf : Cursor → ObjectID)
    (hdecode : ∀ k o, found (idOf k) = some o → client.base64ToObject (encode o) = .ok o)
    (keys : List Cursor) :
    client.decodeNodes (keys.map (node encode found idOf)) =
      .ok (keys.filterMap fun k => found (idOf k)) := by
  induction keys with
  | nil => rfl
  | cons k rest ih =>
    rw [List.map_cons, GraphQlClient.decodeNodes, List.filterMap_cons]
    cases hk : found (idOf k) with
    | none => simp only [node, hk, Option.map_none, ih]
    | some o =>
      simp only [node, hk, Option.map_some, bind, Except.bind, ih,
        client.decodeBcs_ok _ (encode o) o (hdecode k o hk)]

variable [LinearOrder Cursor]

/- The endpoint replies to each request with a page of what matches at that time. -/
structure Lists (client : GraphQlClient Cursor) (encode : Object → String)
    (found : ObjectID → Option Object) (idOf : Cursor → ObjectID) (present cursors : Finset Cursor)
    (query : Option Cursor → OwnedObjectFullQueryVariables Cursor) : Prop where
  decode : ∀ k o, found (idOf k) = some o → client.base64ToObject (encode o) = .ok o
  page : ∀ after n r, client.objects (query after) n = .response r → r.errors = none →
    ∃ keys next endCursor, Honest present after keys next ∧ (∀ c ∈ next, c ∈ cursors) ∧
      (∀ c ∈ next, endCursor = some c) ∧
      r.data = some (some ⟨keys.map (node encode found idOf), ⟨next.isSome, endCursor⟩⟩)
  up : ∀ after, ∃ r, runQuery (client.objects (query after)) = .ok r

theorem objectsPage_serves (client : GraphQlClient Cursor) (encode : Object → String)
    (found : ObjectID → Option Object) (idOf : Cursor → ObjectID) (present cursors : Finset Cursor)
    (checkpoint : ℕ) (kind : Option OwnerKind) (owner : Option ObjectID) (ty : Option String)
    (h : Lists client encode found idOf present cursors fun after =>
      ⟨after, checkpoint, GraphQlClient.maxPerPage, kind, owner, ty⟩) (after : Option Cursor) :
    Serves present (fun k => found (idOf k)) after
      (client.objectsPage checkpoint kind owner ty after) cursors := by
  obtain ⟨r, hreply⟩ := h.up after
  obtain ⟨herrors, n, hn⟩ := runQuery_ok _ r hreply
  obtain ⟨keys, next, endCursor, hhonest, hcursors, hend, hdata⟩ := h.page after n r hn herrors
  refine ⟨keys, next, ?_, hhonest, hcursors⟩
  rw [GraphQlClient.objectsPage, hreply]
  simp only [hdata, Option.bind_some, id, bind, Except.bind,
    decodeNodes_map client encode found idOf h.decode keys]
  cases next with
  | none => rfl
  | some c =>
    rw [hend c rfl]
    rfl

def foundAt (old : Chain) (fork : ℕ) (id : ObjectID) : Option Object :=
  valueOf (anyOf id) (old.upTo fork)

theorem foundAt_id (old : Chain) (fork : ℕ) (id : ObjectID) (o : Object)
    (h : foundAt old fork id = some o) : o.id = id := by
  obtain ⟨w, hw, hp, ho⟩ := mem_of_valueOf _ _ o h
  rw [(Prod.mk.inj (stamped_upTo old fork w hw o ho)).1]
  exact (anyOf_iff id w).mp hp

/- While what matches the filter changes from page to page, the listing ends. It
has no object twice, none that never matched, and every object of the fork that
matched throughout. -/
theorem listing_complete (clients : ℕ → GraphQlClient Cursor) (encode : Object → String)
    (old : Chain) (fork : ℕ) (kind : Option OwnerKind) (owner : Option ObjectID)
    (ty : Option String) (idOf : Cursor → ObjectID) (hinj : Function.Injective idOf)
    (present : ℕ → Finset Cursor) (cursors : Finset Cursor)
    (hlists : ∀ t, Lists (clients t) encode (foundAt old fork) idOf (present t) cursors
      fun after => ⟨after, fork, GraphQlClient.maxPerPage, kind, owner, ty⟩)
    (fuel : ℕ) (hfuel : cursors.card < fuel) :
    ∃ out, filterObjects clients fork kind owner ty fuel = some (.ok out) ∧
      (out.map Object.id).Nodup ∧
      (∀ o ∈ out, ∃ t k, k ∈ present t ∧ foundAt old fork (idOf k) = some o) ∧
      ∀ k o, (∀ t, k ∈ present t) → foundAt old fork (idOf k) = some o → o ∈ out := by
  have hahead : (ahead cursors none).card < fuel :=
    lt_of_le_of_lt (Finset.card_le_card (Finset.filter_subset _ _)) hfuel
  obtain ⟨listed, hrun, hlisting⟩ := gather_lists
    (fun t => (clients t).objectsPage fork kind owner ty) present
    (fun _ k => foundAt old fork (idOf k)) cursors
    (fun t => objectsPage_serves (clients t) encode _ idOf (present t) cursors fork kind owner ty
      (hlists t)) fuel 0 none hahead
  refine ⟨_, hrun, ?_, ?_, ?_⟩
  · have hsorted := List.pairwise_map.mp hlisting.sorted
    refine List.pairwise_map.mpr (hsorted.filterMap _ ?_)
    intro p p' hlt o ho o' ho' hid
    rw [foundAt_id old fork _ o ho, foundAt_id old fork _ o' ho'] at hid
    exact ne_of_lt hlt (hinj hid)
  · intro o ho
    obtain ⟨p, hp, hfound⟩ := List.mem_filterMap.mp ho
    exact ⟨p.1, p.2, (hlisting.sound p hp).2.1, hfound⟩
  · intro k o hpresent hfound
    have hk := hlisting.complete k (fun a ha => (by cases ha)) fun s _ => hpresent s
    obtain ⟨p, hp, rfl⟩ := List.mem_map.mp hk
    exact List.mem_filterMap.mpr ⟨p, hp, hfound⟩

end

/- The object with id 7 is all that ever matches. -/
def listingClient : GraphQlClient Byte where
  multiGetObjects _ _ := .response ⟨none, none⟩
  objects query _ := .response ⟨some (some
    ⟨(if Behind query.after 7 then [7] else []).map
      (node sampleEncode (foundAt sampleChain 0) ObjectID.ofByte), ⟨false, some 7⟩⟩), none⟩
  base64ToObject b64 := .ok (if b64 = "AQ==" then sampleObject 1 [1] else sampleObject 3 [3])
  debug := ⟨fun _ => "keys", fun _ => "object"⟩

theorem ofByte_injective : Function.Injective ObjectID.ofByte := by
  intro a b h
  have hbytes := congrArg ObjectID.bytes h
  exact List.singleton_injective (List.append_cancel_left hbytes)

theorem listingClient_lists : Lists listingClient sampleEncode (foundAt sampleChain 0)
    ObjectID.ofByte {7} ∅ fun after => ⟨after, 0, GraphQlClient.maxPerPage, none, none, none⟩ where
  decode k o h := by
    obtain ⟨w, hw, -, ho⟩ := mem_of_valueOf _ _ o h
    exact sampleClient_follows.decode w (sampleChain.mem_of_upTo 0 w hw) o ho
  page after n r h _ := by
    cases h
    refine ⟨if Behind after 7 then [7] else [], none, some 7, ⟨?_, ?_, ?_⟩, ?_, ?_, rfl⟩
    · split <;> simp
    · intro k
      split
      · rename_i hbehind
        simp only [List.mem_singleton, Finset.mem_singleton]
        exact ⟨fun hk => ⟨hk, hk ▸ hbehind, fun c hc => (by cases hc)⟩, fun hk => hk.1⟩
      · rename_i hnot
        simp only [List.not_mem_nil, Finset.mem_singleton, false_iff, not_and]
        exact fun hk hbehind => absurd (hk ▸ hbehind) hnot
    · exact fun c hc => (by cases hc)
    · exact fun c hc => (by cases hc)
    · exact fun c hc => (by cases hc)
  up _ := ⟨_, rfl⟩

theorem listing_complete_single : ∃ out,
    filterObjects (fun _ => listingClient) 0 none none none 1 = some (.ok out) ∧
      sampleObject 1 [1] ∈ out := by
  obtain ⟨out, hrun, -, -, hcomplete⟩ := listing_complete (fun _ => listingClient) sampleEncode
    sampleChain 0 none none none ObjectID.ofByte ofByte_injective (fun _ => {7}) ∅
    (fun _ => listingClient_lists) 1 (by decide)
  exact ⟨out, hrun, hcomplete 7 _ (fun _ => Finset.mem_singleton_self 7) (by decide)⟩

end Movy.Sui
