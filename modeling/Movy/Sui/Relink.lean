import Movy.Types.Input
import Mathlib.Data.List.Nodup

/-!
# Relinking unpublished modules (`movy-sui/src/compile.rs`)

A compiled module names other modules through handles, and a handle names its
address through an index into `address_identifiers`. Modules that are built
together at `0x0` are moved to the root address by changing that table or the
handles; several handles may share an entry of the table. `none` is a panic.
-/

namespace Movy.Sui

open Movy.Store Movy.Types

structure ModuleHandle where
  address : ℕ
  name : ℕ
  deriving DecidableEq

structure MemberHandle where
  module : ℕ
  name : ℕ

structure CompiledModule where
  selfModuleHandleIdx : ℕ
  moduleHandles : List ModuleHandle
  datatypeHandles : List MemberHandle
  functionHandles : List MemberHandle
  friendDecls : List ModuleHandle
  identifiers : List String
  addressIdentifiers : List ObjectID

def ZERO : ObjectID := ObjectID.ofByte 0

namespace CompiledModule

/- What the bounds checker guarantees; table indices are `u16`. -/
structure InBounds (md : CompiledModule) : Prop where
  self : md.selfModuleHandleIdx < md.moduleHandles.length
  handles : ∀ h ∈ md.moduleHandles,
    h.address < md.addressIdentifiers.length ∧ h.name < md.identifiers.length
  friends : ∀ h ∈ md.friendDecls,
    h.address < md.addressIdentifiers.length ∧ h.name < md.identifiers.length
  addresses : md.addressIdentifiers.length ≤ 2 ^ 16

def resolve (md : CompiledModule) (h : ModuleHandle) : Option (ObjectID × String) := do
  let address ← md.addressIdentifiers[h.address]?
  let name ← md.identifiers[h.name]?
  some (address, name)

def selfHandle (md : CompiledModule) : Option ModuleHandle :=
  md.moduleHandles[md.selfModuleHandleIdx]?

def resolveMember (md : CompiledModule) (m : MemberHandle) :
    Option ((ObjectID × String) × String) := do
  let h ← md.moduleHandles[m.module]?
  let module ← md.resolve h
  let name ← md.identifiers[m.name]?
  some (module, name)

/- A self address beyond the table is only warned about. -/
def mockModuleAddress (address : ObjectID) (md : CompiledModule) : Option CompiledModule := do
  let sh ← md.selfHandle
  let _ ← md.identifiers[sh.name]?
  some { md with addressIdentifiers := md.addressIdentifiers.set sh.address address }

/- The body of the loop over the module handles, for the handle `hd` as it was
before the loop. -/
def relinkHandle (rootAddress : ObjectID) (md : CompiledModule) (hd : ModuleHandle × ℕ) :
    Option CompiledModule := do
  let _ ← md.identifiers[hd.1.name]?
  let addr ← md.addressIdentifiers[hd.1.address]?
  if addr = ZERO ∧ rootAddress ≠ ZERO then
    match md.addressIdentifiers.idxOf? rootAddress with
    | some t => some { md with
        moduleHandles := md.moduleHandles.modify hd.2 fun h => { h with address := t % 2 ^ 16 } }
    | none => some { md with
        addressIdentifiers := md.addressIdentifiers.set hd.1.address rootAddress }
  else some md

def relinkHandles (rootAddress : ObjectID) (md : CompiledModule) : Option CompiledModule :=
  md.moduleHandles.zipIdx.foldlM (relinkHandle rootAddress) md

def withUnpublished (rootAddress : ObjectID) (md : CompiledModule) : Option CompiledModule :=
  (md.relinkHandles rootAddress).bind (mockModuleAddress rootAddress)

/-! ### The loop -/

def AtZero (table : List ObjectID) (h : ModuleHandle) : Prop := table[h.address]? = some ZERO

instance (table : List ObjectID) (h : ModuleHandle) : Decidable (AtZero table h) :=
  inferInstanceAs (Decidable (table[h.address]? = some ZERO))

def moveTo (table : List ObjectID) (t : ℕ) (h : ModuleHandle) : ModuleHandle :=
  if AtZero table h then { h with address := t } else h

section Loop

variable {root : ObjectID} {md : CompiledModule}

def Readable (md : CompiledModule) (handles : List ModuleHandle) : Prop :=
  ∀ h ∈ handles, h.address < md.addressIdentifiers.length ∧ h.name < md.identifiers.length

theorem relinkHandle_kept (h : ModuleHandle) (i : ℕ) (hr : Readable md [h])
    (hz : ¬(AtZero md.addressIdentifiers h ∧ root ≠ ZERO)) :
    relinkHandle root md (h, i) = some md := by
  obtain ⟨ha, hn⟩ := hr h (List.mem_singleton.mpr rfl)
  simp only [relinkHandle, List.getElem?_eq_getElem ha, List.getElem?_eq_getElem hn,
    Option.bind_eq_bind, Option.bind_some]
  rw [if_neg]
  intro hall
  obtain ⟨hzero, hroot⟩ := hall
  exact hz ⟨by rw [AtZero, List.getElem?_eq_getElem ha, hzero], hroot⟩

theorem relinkHandle_moved (h : ModuleHandle) (i t : ℕ) (hr : Readable md [h])
    (hz : AtZero md.addressIdentifiers h) (hroot : root ≠ ZERO)
    (ht : md.addressIdentifiers.idxOf? root = some t) :
    relinkHandle root md (h, i) = some { md with
      moduleHandles := md.moduleHandles.modify i fun h => { h with address := t % 2 ^ 16 } } := by
  obtain ⟨-, hn⟩ := hr h (List.mem_singleton.mpr rfl)
  simp only [relinkHandle, List.getElem?_eq_getElem hn, Option.bind_eq_bind, Option.bind_some]
  rw [show md.addressIdentifiers[h.address]? = some ZERO from hz, Option.bind_some,
    if_pos ⟨rfl, hroot⟩, ht]

theorem relinkHandle_written (h : ModuleHandle) (i : ℕ) (hr : Readable md [h])
    (hz : AtZero md.addressIdentifiers h) (hroot : root ≠ ZERO)
    (ht : md.addressIdentifiers.idxOf? root = none) :
    relinkHandle root md (h, i) = some { md with
      addressIdentifiers := md.addressIdentifiers.set h.address root } := by
  obtain ⟨-, hn⟩ := hr h (List.mem_singleton.mpr rfl)
  simp only [relinkHandle, List.getElem?_eq_getElem hn, Option.bind_eq_bind, Option.bind_some]
  rw [show md.addressIdentifiers[h.address]? = some ZERO from hz, Option.bind_some,
    if_pos ⟨rfl, hroot⟩, ht]

theorem modify_middle (before rest : List ModuleHandle) (h : ModuleHandle)
    (f : ModuleHandle → ModuleHandle) :
    (before ++ h :: rest).modify before.length f = before ++ f h :: rest := by
  induction before with
  | nil => rfl
  | cons b before ih =>
    rw [List.cons_append, List.length_cons, List.modify_succ_cons, ih, List.cons_append]

/- The root address is in the table: the handles at `0x0` are pointed there. -/
theorem foldlM_moved (t : ℕ) (hroot : root ≠ ZERO) (hu16 : t < 2 ^ 16)
    (before rest : List ModuleHandle) (md : CompiledModule)
    (ht : md.addressIdentifiers.idxOf? root = some t) (hmd : md.moduleHandles = before ++ rest)
    (hr : Readable md rest) :
    (rest.zipIdx before.length).foldlM (relinkHandle root) md = some { md with
      moduleHandles := before ++ rest.map (moveTo md.addressIdentifiers t) } := by
  induction rest generalizing before md with
  | nil =>
    rw [List.map_nil, ← hmd]
    rfl
  | cons h rest ih =>
    have hrh : Readable md [h] := by
      intro h' hh'
      exact hr h' (List.mem_singleton.mp hh' ▸ List.mem_cons_self ..)
    have hrest : Readable md rest := fun h' hh' => hr h' (List.mem_cons_of_mem _ hh')
    have hlen : before.length + 1 = (before ++ [moveTo md.addressIdentifiers t h]).length := by simp
    rw [List.zipIdx_cons, List.foldlM_cons, hlen]
    by_cases hz : AtZero md.addressIdentifiers h
    · rw [relinkHandle_moved h _ t hrh hz hroot ht, hmd, modify_middle, Nat.mod_eq_of_lt hu16]
      have hmove : moveTo md.addressIdentifiers t h = { h with address := t } := if_pos hz
      refine (ih (before ++ [moveTo md.addressIdentifiers t h])
        { md with moduleHandles := before ++ { h with address := t } :: rest } ht
        (by simp [hmove]) hrest).trans ?_
      simp
    · rw [relinkHandle_kept h _ hrh fun hand => hz hand.1]
      have hmove : moveTo md.addressIdentifiers t h = h := if_neg hz
      refine (ih (before ++ [moveTo md.addressIdentifiers t h]) md ht (by simp [hmove, hmd])
        hrest).trans ?_
      simp

/- No handle is at `0x0`, or the root is `0x0`: nothing changes. -/
theorem foldlM_kept (rest : List ModuleHandle) (hr : Readable md rest)
    (hz : ∀ h ∈ rest, ¬(AtZero md.addressIdentifiers h ∧ root ≠ ZERO)) (i : ℕ) :
    (rest.zipIdx i).foldlM (relinkHandle root) md = some md := by
  induction rest generalizing i with
  | nil => rfl
  | cons h rest ih =>
    have hrh : Readable md [h] := by
      intro h' hh'
      exact hr h' (List.mem_singleton.mp hh' ▸ List.mem_cons_self ..)
    rw [List.zipIdx_cons, List.foldlM_cons,
      relinkHandle_kept h _ hrh (hz h (List.mem_cons_self ..))]
    exact ih (fun h' hh' => hr h' (List.mem_cons_of_mem _ hh'))
      (fun h' hh' => hz h' (List.mem_cons_of_mem _ hh')) _

/- The root address is not in the table: it takes the entry of the first handle
at `0x0`. -/
theorem foldlM_written (hroot : root ≠ ZERO) (before rest : List ModuleHandle) (h : ModuleHandle)
    (hmd : md.moduleHandles = before ++ h :: rest) (hr : Readable md md.moduleHandles)
    (hu16 : md.addressIdentifiers.length ≤ 2 ^ 16) (habsent : root ∉ md.addressIdentifiers)
    (hbefore : ∀ b ∈ before, ¬AtZero md.addressIdentifiers b) (hz : AtZero md.addressIdentifiers h) :
    relinkHandles root md = some { md with
      addressIdentifiers := md.addressIdentifiers.set h.address root
      moduleHandles := before ++ h ::
        rest.map (moveTo (md.addressIdentifiers.set h.address root) h.address) } := by
  have hlt : h.address < md.addressIdentifiers.length := (hr h (hmd ▸ by simp)).1
  have hread : ∀ l : List ModuleHandle, (∀ x ∈ l, x ∈ md.moduleHandles) → Readable md l :=
    fun l hl x hx => hr x (hl x hx)
  have hrest : Readable { md with
      addressIdentifiers := md.addressIdentifiers.set h.address root } rest := by
    intro x hx
    rw [List.length_set]
    exact hr x (hmd ▸ by simp [hx])
  have hidx : (md.addressIdentifiers.set h.address root).idxOf? root = some h.address := by
    rw [List.idxOf?_eq_some_iff]
    refine ⟨by simpa using hlt, by simp, fun j hj => ?_⟩
    rw [List.getElem_set_ne (Nat.ne_of_gt hj)]
    exact fun heq => habsent (heq ▸ List.getElem_mem _)
  have hnone : md.addressIdentifiers.idxOf? root = none := by
    simpa [List.idxOf?_eq_none_iff] using habsent
  rw [relinkHandles, hmd, List.zipIdx_append, List.foldlM_append,
    foldlM_kept before (hread _ (fun x hx => hmd ▸ by simp [hx]))
      (fun b hb hand => hbefore b hb hand.1)]
  simp only [Option.bind_eq_bind, Option.bind_some, List.zipIdx_cons, List.foldlM_cons, Nat.zero_add]
  rw [relinkHandle_written h _ (hread _ (fun x hx => hmd ▸ by simp [List.mem_singleton.mp hx])) hz
    hroot hnone, Option.bind_some]
  have hlen : before.length + 1 = (before ++ [h]).length := by simp
  rw [hlen, foldlM_moved h.address hroot (hlt.trans_le hu16) (before ++ [h]) rest _ hidx
    (by simp [hmd]) hrest]
  simp

end Loop

def firstAtZero (md : CompiledModule) : Option ℕ :=
  (md.moduleHandles.find? fun h => AtZero md.addressIdentifiers h).map fun h => h.address

def slot (root : ObjectID) (md : CompiledModule) : Option ℕ :=
  (md.addressIdentifiers.idxOf? root).or md.firstAtZero

section Spec

variable {root : ObjectID} {md : CompiledModule}

theorem slot_cases (t : ℕ) (h : md.slot root = some t) :
    (root ∈ md.addressIdentifiers ∧ md.addressIdentifiers[t]? = some root) ∨
      root ∉ md.addressIdentifiers ∧ md.firstAtZero = some t ∧
        md.addressIdentifiers[t]? = some ZERO := by
  unfold slot at h
  cases hidx : md.addressIdentifiers.idxOf? root with
  | some i =>
    rw [hidx, Option.some_or] at h
    obtain rfl := Option.some.inj h
    obtain ⟨hlt, hget, -⟩ := List.idxOf?_eq_some_iff.mp hidx
    exact .inl ⟨hget ▸ List.getElem_mem hlt, by rw [List.getElem?_eq_getElem hlt, hget]⟩
  | none =>
    rw [hidx, Option.none_or] at h
    refine .inr ⟨List.idxOf?_eq_none_iff.mp hidx, h, ?_⟩
    obtain ⟨x, hx, rfl⟩ := Option.map_eq_some_iff.mp h
    have hzero := List.find?_some hx
    exact of_decide_eq_true (p := AtZero md.addressIdentifiers x) hzero

theorem atZero_set (table : List ObjectID) (t : ℕ) (hroot : root ≠ ZERO) (h : ModuleHandle) :
    AtZero (table.set t root) h ↔ AtZero table h ∧ h.address ≠ t := by
  simp only [AtZero, List.getElem?_set]
  by_cases ht : t = h.address
  · subst ht
    by_cases hlt : h.address < table.length <;> simp [hlt, hroot]
  · simp [ht, Ne.symm ht]

theorem moveTo_set (table : List ObjectID) (t : ℕ) (hroot : root ≠ ZERO) (h : ModuleHandle) :
    moveTo (table.set t root) t h = moveTo table t h := by
  by_cases hz : AtZero table h
  · by_cases ht : h.address = t
    · have hnot : ¬AtZero (table.set t root) h := fun hz' => ((atZero_set table t hroot h).mp hz').2 ht
      rw [moveTo, if_neg hnot, moveTo, if_pos hz, ← ht]
    · have hstill : AtZero (table.set t root) h := (atZero_set table t hroot h).mpr ⟨hz, ht⟩
      rw [moveTo, if_pos hstill, moveTo, if_pos hz]
  · have hnot : ¬AtZero (table.set t root) h := fun hz' => hz ((atZero_set table t hroot h).mp hz').1
    rw [moveTo, if_neg hnot, moveTo, if_neg hz]

theorem relinkHandles_eq (hb : md.InBounds) (hroot : root ≠ ZERO) (t : ℕ)
    (ht : md.slot root = some t) :
    relinkHandles root md = some { md with
      addressIdentifiers := md.addressIdentifiers.set t root
      moduleHandles := md.moduleHandles.map (moveTo md.addressIdentifiers t) } := by
  have ht' := ht
  unfold slot at ht'
  cases hidx : md.addressIdentifiers.idxOf? root with
  | some i =>
    rw [hidx, Option.some_or] at ht'
    obtain rfl := Option.some.inj ht'
    obtain ⟨hlt, hget, -⟩ := List.idxOf?_eq_some_iff.mp hidx
    have hset : md.addressIdentifiers.set i root = md.addressIdentifiers := by
      rw [← hget, List.set_getElem_self]
    have hmoved := foldlM_moved i hroot (hlt.trans_le hb.addresses) [] md.moduleHandles md hidx rfl
      hb.handles
    rw [hset]
    exact hmoved
  | none =>
    rw [hidx, Option.none_or] at ht'
    obtain ⟨x, hx, rfl⟩ := Option.map_eq_some_iff.mp ht'
    obtain ⟨hz, before, rest, hsplit, hbefore⟩ := List.find?_eq_some_iff_append.mp hx
    have hz : AtZero md.addressIdentifiers x := of_decide_eq_true hz
    have hbefore : ∀ b ∈ before, ¬AtZero md.addressIdentifiers b := by
      intro b hb'
      simpa using hbefore b hb'
    rw [foldlM_written hroot before rest x hsplit hb.handles hb.addresses
      (List.idxOf?_eq_none_iff.mp hidx) hbefore hz]
    have hkept : before.map (moveTo md.addressIdentifiers x.address) = before := by
      refine (List.map_congr_left fun b hb' => ?_).trans (List.map_id before)
      exact if_neg (hbefore b hb')
    have hself : moveTo md.addressIdentifiers x.address x = x := if_pos hz
    rw [hsplit, List.map_append, List.map_cons, hkept, hself]
    simp only [List.map_congr_left fun y _ => moveTo_set md.addressIdentifiers x.address hroot y]

theorem slot_lt (t : ℕ) (h : md.slot root = some t) : t < md.addressIdentifiers.length := by
  rcases slot_cases t h with ⟨-, hget⟩ | ⟨-, -, hget⟩ <;> exact (List.getElem?_eq_some_iff.mp hget).1

theorem getElem?_slot (t i : ℕ) (h : md.slot root = some t)
    (hi : md.addressIdentifiers[i]? ≠ some ZERO) :
    (md.addressIdentifiers.set t root)[i]? = md.addressIdentifiers[i]? := by
  by_cases hti : t = i
  · subst hti
    rcases slot_cases t h with ⟨-, hget⟩ | ⟨-, -, hget⟩
    · rw [List.getElem?_set_self (slot_lt t h), hget]
    · exact absurd hget hi
  · exact List.getElem?_set_ne hti

theorem address_moved (t : ℕ) (ht : md.slot root = some t) (h : ModuleHandle) :
    (md.addressIdentifiers.set t root)[(moveTo md.addressIdentifiers t h).address]? =
      if AtZero md.addressIdentifiers h then some root else md.addressIdentifiers[h.address]? := by
  by_cases hz : AtZero md.addressIdentifiers h
  · rw [moveTo, if_pos hz, if_pos hz, List.getElem?_set_self (slot_lt t ht)]
  · rw [moveTo, if_neg hz, if_neg hz, getElem?_slot t h.address ht hz]

theorem moveTo_name (table : List ObjectID) (t : ℕ) (h : ModuleHandle) :
    (moveTo table t h).name = h.name := by
  unfold moveTo
  split_ifs <;> rfl

theorem set_of_getElem? (table : List ObjectID) (i : ℕ) (a : ObjectID) (h : table[i]? = some a) :
    table.set i a = table := by
  obtain ⟨hlt, rfl⟩ := List.getElem?_eq_some_iff.mp h
  exact List.set_getElem_self hlt

/- A module at `0x0` or at the root: mocking its address after the loop changes
nothing more. -/
theorem moved_self (t : ℕ) (self : ModuleHandle) (hself : md.selfHandle = some self) :
    (md.moduleHandles.map (moveTo md.addressIdentifiers t))[md.selfModuleHandleIdx]? =
      some (moveTo md.addressIdentifiers t self) := by
  have hget : md.moduleHandles[md.selfModuleHandleIdx]? = some self := hself
  rw [List.getElem?_map, hget, Option.map_some]

theorem withUnpublished_eq (hb : md.InBounds) (hroot : root ≠ ZERO) (t : ℕ)
    (ht : md.slot root = some t) (self : ModuleHandle) (hself : md.selfHandle = some self)
    (haddr : md.addressIdentifiers[self.address]? = some ZERO ∨
      md.addressIdentifiers[self.address]? = some root) :
    withUnpublished root md = some { md with
      addressIdentifiers := md.addressIdentifiers.set t root
      moduleHandles := md.moduleHandles.map (moveTo md.addressIdentifiers t) } := by
  have hname : self.name < md.identifiers.length :=
    (hb.handles self (List.mem_of_getElem? hself)).2
  have hentry : (md.addressIdentifiers.set t root)[(moveTo md.addressIdentifiers t self).address]? =
      some root := by
    rw [address_moved t ht]
    split_ifs with hz
    · rfl
    · exact haddr.resolve_left hz
  have hself' := moved_self t self hself
  rw [withUnpublished, relinkHandles_eq hb hroot t ht, Option.bind_some]
  simp only [mockModuleAddress, selfHandle, hself', moveTo_name, Option.bind_eq_bind,
    Option.bind_some, List.getElem?_eq_getElem hname, set_of_getElem? _ _ _ hentry]

end Spec

/-! ### Every occurrence of the address -/

def relinked (root : ObjectID) (r : ObjectID × String) : ObjectID × String :=
  if r.1 = ZERO then (root, r.2) else r

/- What was at `0x0` is at the root under the same name; the rest stands for what
it did. -/
structure Relinked (root : ObjectID) (md md' : CompiledModule) : Prop where
  handles : md'.moduleHandles.map md'.resolve =
    md.moduleHandles.map fun h => (md.resolve h).map (relinked root)
  friends : md'.friendDecls.map md'.resolve =
    md.friendDecls.map fun h => (md.resolve h).map (relinked root)
  functions : md'.functionHandles.map md'.resolveMember =
    md.functionHandles.map fun m => (md.resolveMember m).map fun r => (relinked root r.1, r.2)
  datatypes : md'.datatypeHandles.map md'.resolveMember =
    md.datatypeHandles.map fun m => (md.resolveMember m).map fun r => (relinked root r.1, r.2)

section Addresses

variable {root : ObjectID} {md : CompiledModule}

theorem resolve_moved (t : ℕ) (ht : md.slot root = some t) (h : ModuleHandle)
    (handles : List ModuleHandle) :
    ({ md with addressIdentifiers := md.addressIdentifiers.set t root
               moduleHandles := handles } : CompiledModule).resolve
        (moveTo md.addressIdentifiers t h) = (md.resolve h).map (relinked root) := by
  simp only [resolve, moveTo_name, address_moved t ht]
  by_cases hz : AtZero md.addressIdentifiers h
  · rw [if_pos hz, show md.addressIdentifiers[h.address]? = some ZERO from hz]
    cases md.identifiers[h.name]? <;> simp [relinked]
  · rw [if_neg hz]
    cases ha : md.addressIdentifiers[h.address]? with
    | none => rfl
    | some a =>
      have hne : a ≠ ZERO := fun heq => hz (by rw [AtZero, ha, heq])
      cases md.identifiers[h.name]? <;> simp [relinked, hne]

theorem resolve_friend (t : ℕ) (hroot : root ≠ ZERO) (ht : md.slot root = some t)
    (f : ModuleHandle) (hf : f.address < md.addressIdentifiers.length ∧
      f.name < md.identifiers.length) (handles : List ModuleHandle) :
    ({ md with addressIdentifiers := md.addressIdentifiers.set t root
               moduleHandles := handles } : CompiledModule).resolve f =
        (md.resolve f).map (relinked root) ↔
      (AtZero md.addressIdentifiers f → f.address = t) := by
  obtain ⟨-, hname⟩ := hf
  simp only [resolve, List.getElem?_eq_getElem hname]
  by_cases hz : AtZero md.addressIdentifiers f
  · rw [show md.addressIdentifiers[f.address]? = some ZERO from hz]
    by_cases hft : f.address = t
    · rw [hft, List.getElem?_set_self (slot_lt t ht)]
      simp [relinked]
    · rw [List.getElem?_set_ne (Ne.symm hft), show md.addressIdentifiers[f.address]? = some ZERO from hz]
      simp [relinked, hz, hft, Ne.symm hroot]
  · rw [getElem?_slot t f.address ht hz]
    cases ha : md.addressIdentifiers[f.address]? with
    | none => simp [hz]
    | some a =>
      have hne : a ≠ ZERO := fun heq => hz (by rw [AtZero, ha, heq])
      simp [relinked, hne, hz]

theorem resolveMember_moved (t : ℕ) (ht : md.slot root = some t) (m : MemberHandle) :
    ({ md with addressIdentifiers := md.addressIdentifiers.set t root
               moduleHandles := md.moduleHandles.map (moveTo md.addressIdentifiers t) } :
      CompiledModule).resolveMember m =
        (md.resolveMember m).map fun r => (relinked root r.1, r.2) := by
  simp only [resolveMember, List.getElem?_map]
  cases md.moduleHandles[m.module]? with
  | none => rfl
  | some h =>
    simp only [Option.map_some, Option.bind_eq_bind, Option.bind_some, resolve_moved t ht h]
    cases md.resolve h with
    | none => rfl
    | some r => cases md.identifiers[m.name]? <;> rfl

theorem slot_of_atZero (self : ModuleHandle) (hself : md.selfHandle = some self)
    (hz : AtZero md.addressIdentifiers self) : ∃ t, md.slot root = some t := by
  have hfind : (md.moduleHandles.find? fun h => AtZero md.addressIdentifiers h).isSome = true := by
    rw [List.find?_isSome]
    exact ⟨self, List.mem_of_getElem? hself, decide_eq_true hz⟩
  obtain ⟨x, hx⟩ := Option.isSome_iff_exists.mp hfind
  unfold slot
  cases md.addressIdentifiers.idxOf? root with
  | some i => exact ⟨i, rfl⟩
  | none => exact ⟨x.address, by rw [Option.none_or, firstAtZero, hx, Option.map_some]⟩

/- Relinking a module at `0x0` rewrites every occurrence of its address if and
only if every friend at `0x0` shares the entry of the table that is written: the
root address is not in the table, and the entry is that of the first handle. -/
theorem relinked_iff (hb : md.InBounds) (self : ModuleHandle) (hself : md.selfHandle = some self)
    (hz : AtZero md.addressIdentifiers self) (hroot : root ≠ ZERO) :
    ∃ md', withUnpublished root md = some md' ∧
      (Relinked root md md' ↔ ∀ f ∈ md.friendDecls, AtZero md.addressIdentifiers f →
        root ∉ md.addressIdentifiers ∧ md.firstAtZero = some f.address) := by
  obtain ⟨t, ht⟩ : ∃ t, md.slot root = some t := slot_of_atZero self hself hz
  refine ⟨_, withUnpublished_eq hb hroot t ht self hself (.inl hz), ?_⟩
  have hshare : ∀ f : ModuleHandle, AtZero md.addressIdentifiers f →
      (f.address = t ↔ root ∉ md.addressIdentifiers ∧ md.firstAtZero = some f.address) := by
    intro f hf
    rcases slot_cases t ht with ⟨hin, hget⟩ | ⟨hout, hfirst, -⟩
    · refine ⟨fun heq => ?_, fun hand => absurd hin hand.1⟩
      rw [AtZero, heq, hget] at hf
      exact absurd (Option.some.inj hf) hroot
    · rw [hfirst, Option.some.injEq]
      exact ⟨fun heq => ⟨hout, heq.symm⟩, fun hand => hand.2.symm⟩
  constructor
  · intro hall f hf hfz
    have heq := List.map_inj_left.mp hall.friends f hf
    exact (hshare f hfz).mp ((resolve_friend t hroot ht f (hb.friends f hf) _).mp heq hfz)
  · intro hfriends
    refine ⟨?_, ?_, ?_, ?_⟩
    · rw [List.map_map]
      exact List.map_congr_left fun h _ => resolve_moved t ht h _
    · refine List.map_congr_left fun f hf => ?_
      exact (resolve_friend t hroot ht f (hb.friends f hf) _).mpr fun hfz =>
        (hshare f hfz).mpr (hfriends f hf hfz)
    · exact List.map_congr_left fun m _ => resolveMember_moved t ht m
    · exact List.map_congr_left fun m _ => resolveMember_moved t ht m

end Addresses

/-! ### The table of addresses

Before deployment the module is put back at `0x0` (`load_local` in
`movy-replay/src/env.rs`). -/

/- `build_checked`, then `load_local`. -/
def deployable (root : ObjectID) (md : CompiledModule) : Option CompiledModule :=
  (withUnpublished root md).bind (mockModuleAddress ZERO)

/- The table has no duplicates, the module is at `0x0`, and every handle of
another address still has it. -/
structure Deployable (own : ModuleHandle) (md md' : CompiledModule) : Prop where
  nodup : md'.addressIdentifiers.Nodup
  ownAddress : ∃ h, md'.selfHandle = some h ∧ AtZero md'.addressIdentifiers h
  others : ∀ (i : ℕ) (h : ModuleHandle), md.moduleHandles[i]? = some h →
    md.addressIdentifiers[h.address]? ≠ md.addressIdentifiers[own.address]? →
    ∃ h' : ModuleHandle, md'.moduleHandles[i]? = some h' ∧
      md'.addressIdentifiers[h'.address]? = md.addressIdentifiers[h.address]?

section Table

variable {root : ObjectID} {md : CompiledModule} {self : ModuleHandle}

theorem mockModuleAddress_eq (address : ObjectID) (hb : md.InBounds)
    (hself : md.selfHandle = some self) :
    mockModuleAddress address md = some { md with
      addressIdentifiers := md.addressIdentifiers.set self.address address } := by
  have hname : self.name < md.identifiers.length :=
    (hb.handles self (List.mem_of_getElem? hself)).2
  simp only [mockModuleAddress, hself, Option.bind_eq_bind, Option.bind_some,
    List.getElem?_eq_getElem hname]

theorem deployable_same (hnodup : md.addressIdentifiers.Nodup) (hself : md.selfHandle = some self)
    (hz : AtZero md.addressIdentifiers self) : Deployable self md md where
  nodup := hnodup
  ownAddress := ⟨self, hself, hz⟩
  others _ h hh _ := ⟨h, hh, rfl⟩

theorem deployable_zero (hb : md.InBounds) (hself : md.selfHandle = some self)
    (hz : AtZero md.addressIdentifiers self) : deployable ZERO md = some md := by
  have hset : md.addressIdentifiers.set self.address ZERO = md.addressIdentifiers :=
    set_of_getElem? _ _ _ hz
  have hmock : mockModuleAddress ZERO md = some md := by
    rw [mockModuleAddress_eq ZERO hb hself, hset]
  rw [deployable, withUnpublished, relinkHandles,
    foldlM_kept md.moduleHandles hb.handles fun h _ hand => hand.2 rfl, Option.bind_some, hmock,
    Option.bind_some, hmock]

/- With another root, the entry that the loop wrote is the one that is put back. -/
theorem deployable_eq (hb : md.InBounds) (hroot : root ≠ ZERO) (t : ℕ)
    (ht : md.slot root = some t) (hself : md.selfHandle = some self)
    (haddr : md.addressIdentifiers[self.address]? = some ZERO ∨
      md.addressIdentifiers[self.address]? = some root)
    (hmoved : (moveTo md.addressIdentifiers t self).address = t) :
    deployable root md = some { md with
      addressIdentifiers := md.addressIdentifiers.set t ZERO
      moduleHandles := md.moduleHandles.map (moveTo md.addressIdentifiers t) } := by
  have hname : self.name < md.identifiers.length :=
    (hb.handles self (List.mem_of_getElem? hself)).2
  have hself' := moved_self t self hself
  rw [deployable, withUnpublished_eq hb hroot t ht self hself haddr, Option.bind_some]
  simp only [mockModuleAddress, selfHandle, hself', moveTo_name, hmoved, Option.bind_eq_bind,
    Option.bind_some, List.getElem?_eq_getElem hname, List.set_set]

theorem moveTo_self (hnodup : md.addressIdentifiers.Nodup) (t : ℕ)
    (ht : md.slot root = some t)
    (haddr : md.addressIdentifiers[self.address]? = some ZERO ∨
      md.addressIdentifiers[self.address]? = some root) :
    (moveTo md.addressIdentifiers t self).address = t := by
  by_cases hz : AtZero md.addressIdentifiers self
  · rw [moveTo, if_pos hz]
  · have hat := haddr.resolve_left hz
    rw [moveTo, if_neg hz]
    rcases slot_cases t ht with ⟨-, hget⟩ | ⟨hout, -, -⟩
    · exact ((List.getElem?_inj (slot_lt t ht) hnodup).mp (hget.trans hat.symm)).symm
    · exact absurd (List.mem_of_getElem? hat) hout

theorem nodup_set_iff (table : List ObjectID) (t : ℕ) (hnodup : table.Nodup) (hroot : root ≠ ZERO)
    (hget : table[t]? = some root) : (table.set t ZERO).Nodup ↔ ZERO ∉ table := by
  obtain ⟨hlt, -⟩ := List.getElem?_eq_some_iff.mp hget
  constructor
  · intro hset hmem
    obtain ⟨z, hz⟩ := List.mem_iff_getElem?.mp hmem
    have hne : t ≠ z := by
      rintro rfl
      exact hroot (Option.some.inj (hget.symm.trans hz))
    have heq : (table.set t ZERO)[t]? = (table.set t ZERO)[z]? := by
      rw [List.getElem?_set_self hlt, List.getElem?_set_ne hne, hz]
    exact hne ((List.getElem?_inj (by rwa [List.length_set]) hset).mp heq)
  · exact hnodup.set

/- A module at `0x0` or at the root address comes out of the pipeline as it has to
if and only if its table does not hold both addresses. -/
theorem deployable_iff (hb : md.InBounds) (hnodup : md.addressIdentifiers.Nodup)
    (hself : md.selfHandle = some self)
    (haddr : md.addressIdentifiers[self.address]? = some ZERO ∨
      md.addressIdentifiers[self.address]? = some root) :
    ∃ md', deployable root md = some md' ∧
      (Deployable self md md' ↔
        root = ZERO ∨ ZERO ∉ md.addressIdentifiers ∨ root ∉ md.addressIdentifiers) := by
  by_cases hroot : root = ZERO
  · subst hroot
    have hz : AtZero md.addressIdentifiers self := haddr.elim id id
    exact ⟨md, deployable_zero hb hself hz, iff_of_true (deployable_same hnodup hself hz) (.inl rfl)⟩
  obtain ⟨t, ht⟩ : ∃ t, md.slot root = some t := by
    rcases haddr with hz | hat
    · exact slot_of_atZero self hself hz
    · have hmem := List.mem_of_getElem? hat
      cases hidx : md.addressIdentifiers.idxOf? root with
      | some i => exact ⟨i, by rw [slot, hidx, Option.some_or]⟩
      | none => exact absurd hmem (List.idxOf?_eq_none_iff.mp hidx)
  have hmoved := moveTo_self hnodup t ht haddr
  refine ⟨_, deployable_eq hb hroot t ht hself haddr hmoved, ?_⟩
  have hself' := moved_self t self hself
  have hown : AtZero (md.addressIdentifiers.set t ZERO) (moveTo md.addressIdentifiers t self) := by
    rw [AtZero, hmoved, List.getElem?_set_self (slot_lt t ht)]
  -- a handle that is not at `0x0` is not moved, and keeps its entry if that is another
  have hothers : (∀ h : ModuleHandle,
      md.addressIdentifiers[h.address]? ≠ md.addressIdentifiers[self.address]? →
      ¬AtZero md.addressIdentifiers h ∧
        (md.addressIdentifiers.set t ZERO)[h.address]? = md.addressIdentifiers[h.address]?) →
      ∀ (i : ℕ) (h : ModuleHandle), md.moduleHandles[i]? = some h →
      md.addressIdentifiers[h.address]? ≠ md.addressIdentifiers[self.address]? →
      ∃ h' : ModuleHandle, (md.moduleHandles.map (moveTo md.addressIdentifiers t))[i]? = some h' ∧
        (md.addressIdentifiers.set t ZERO)[h'.address]? = md.addressIdentifiers[h.address]? := by
    intro hkeep i h hi hne
    obtain ⟨hz, hentry⟩ := hkeep h hne
    refine ⟨h, ?_, hentry⟩
    rw [List.getElem?_map, hi, Option.map_some, moveTo, if_neg hz]
  rcases slot_cases t ht with ⟨hin, hget⟩ | ⟨hout, -, hget⟩
  · have hset := nodup_set_iff md.addressIdentifiers t hnodup hroot hget
    simp only [hroot, hin, not_true_eq_false, or_false, false_or]
    refine ⟨fun hdep => hset.mp hdep.nodup, fun hzero => ⟨hset.mpr hzero, ⟨_, hself', hown⟩, ?_⟩⟩
    have hat := haddr.resolve_left fun hz => hzero (List.mem_of_getElem? hz)
    refine hothers fun h hne => ⟨fun hz => hzero (List.mem_of_getElem? hz), ?_⟩
    refine List.getElem?_set_ne fun heq => hne ?_
    rw [← heq, hget, hat]
  · have hsame : md.addressIdentifiers.set t ZERO = md.addressIdentifiers := set_of_getElem? _ _ _ hget
    have hz := haddr.resolve_right fun hat => hout (List.mem_of_getElem? hat)
    refine iff_of_true ⟨by simpa only [hsame] using hnodup, ⟨_, hself', hown⟩, ?_⟩ (.inr (.inr hout))
    refine hothers fun h hne => ⟨fun hhz => hne ?_, by rw [hsame]⟩
    rw [hz]
    exact hhz

end Table

section Sample

def sampleRoot : ObjectID := ObjectID.ofByte 7

/- The module `0x0::a` with a handle of `b` and the friend `0x0::c`. -/
def sampleModule (table : List ObjectID) (b : ℕ) : CompiledModule where
  selfModuleHandleIdx := 0
  moduleHandles := [⟨0, 0⟩, ⟨b, 1⟩]
  datatypeHandles := []
  functionHandles := [⟨1, 3⟩]
  friendDecls := [⟨0, 2⟩]
  identifiers := ["a", "b", "c", "f"]
  addressIdentifiers := table

theorem sample_inBounds (table : List ObjectID) (b : ℕ) (hb : b < table.length)
    (hlen : table.length ≤ 2 ^ 16) : (sampleModule table b).InBounds := by
  have hpos : 0 < table.length := by omega
  refine ⟨by simp [sampleModule], fun h hh => ?_, fun h hh => ?_, hlen⟩
  · simp only [sampleModule, List.mem_cons, List.not_mem_nil, or_false] at hh
    rcases hh with rfl | rfl
    · exact ⟨hpos, by simp [sampleModule]⟩
    · exact ⟨hb, by simp [sampleModule]⟩
  · simp only [sampleModule, List.mem_cons, List.not_mem_nil, or_false] at hh
    subst hh
    exact ⟨hpos, by simp [sampleModule]⟩

/- Without the root in the table the friend moves with the module. -/
theorem relinked_iff_sample :
    ∃ md', withUnpublished sampleRoot (sampleModule [ZERO] 0) = some md' ∧
      Relinked sampleRoot (sampleModule [ZERO] 0) md' := by
  obtain ⟨md', hrun, hiff⟩ := @relinked_iff sampleRoot (sampleModule [ZERO] 0)
    (sample_inBounds [ZERO] 0 (by decide) (by decide)) ⟨0, 0⟩ rfl (by decide) (by decide)
  refine ⟨md', hrun, hiff.mpr fun f hf _ => ?_⟩
  simp only [sampleModule, List.mem_singleton] at hf
  subst hf
  exact ⟨by decide, by decide⟩

/- With the root in the table the handles are pointed at it, and the friend stays
at `0x0`. -/
theorem relinked_fails :
    ¬∀ (root : ObjectID) (md md' : CompiledModule) (self : ModuleHandle), md.InBounds →
      md.selfHandle = some self → AtZero md.addressIdentifiers self → root ≠ ZERO →
      withUnpublished root md = some md' → Relinked root md md' := by
  intro hall
  have hrel := hall sampleRoot (sampleModule [ZERO, sampleRoot] 1) _ ⟨0, 0⟩
    (sample_inBounds [ZERO, sampleRoot] 1 (by decide) (by decide)) rfl (by decide) (by decide) rfl
  exact absurd hrel.friends (by decide)

theorem deployable_iff_sample :
    ∃ md', deployable sampleRoot (sampleModule [ZERO, ObjectID.ofByte 2] 1) = some md' ∧
      Deployable ⟨0, 0⟩ (sampleModule [ZERO, ObjectID.ofByte 2] 1) md' := by
  obtain ⟨md', hrun, hiff⟩ := @deployable_iff sampleRoot
    (sampleModule [ZERO, ObjectID.ofByte 2] 1) ⟨0, 0⟩
    (sample_inBounds _ 1 (by decide) (by decide)) (by decide) rfl (.inl (by decide))
  exact ⟨md', hrun, hiff.mpr (.inr (.inr (by decide)))⟩

/- A module at the root address with a handle at `0x0`: the table ends with `0x0`
twice. -/
theorem deployable_fails :
    ¬∀ (root : ObjectID) (md md' : CompiledModule) (self : ModuleHandle), md.InBounds →
      md.addressIdentifiers.Nodup → md.selfHandle = some self →
      (md.addressIdentifiers[self.address]? = some ZERO ∨
        md.addressIdentifiers[self.address]? = some root) →
      deployable root md = some md' → Deployable self md md' := by
  intro hall
  have hdep := hall sampleRoot (sampleModule [sampleRoot, ZERO] 1) _ ⟨0, 0⟩
    (sample_inBounds [sampleRoot, ZERO] 1 (by decide) (by decide)) (by decide) rfl
    (.inr (by decide)) rfl
  exact absurd hdep.nodup (by decide)

end Sample

end CompiledModule

end Movy.Sui
