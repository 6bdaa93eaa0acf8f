import Movy.Types.Relocate

/-!
# Rewriting a struct tag (`change_type_address` in `movy-fuzz/src/utils.rs`)

The type arguments are rewritten by the closure of an `any`, which ends at the first
argument that has changed, and looks into a vector only where its elements are structs.
-/

namespace Movy.Types

namespace MoveTypeTag

/-- `if s.address == old_addr`, with whether it is. -/
def readdress (oldAddr newAddr address : MoveAddress) : MoveAddress × Bool :=
  if address = oldAddr then (newAddr, true) else (address, false)

mutual

/-- The closure on one type argument. -/
def changeTyArg (oldAddr newAddr : MoveAddress) : MoveTypeTag → MoveTypeTag × Bool
  | .struct addr module name tys =>
    let own := readdress oldAddr newAddr addr
    let args := anyChanged oldAddr newAddr tys
    (.struct own.1 module name args.1, own.2 || args.2)
  | .vector (.struct addr module name tys) =>
    let own := readdress oldAddr newAddr addr
    let args := anyChanged oldAddr newAddr tys
    (.vector (.struct own.1 module name args.1), own.2 || args.2)
  | ty => (ty, false)

/-- `s.tys.iter_mut().any(..)` -/
def anyChanged (oldAddr newAddr : MoveAddress) : List MoveTypeTag → List MoveTypeTag × Bool
  | [] => ([], false)
  | ty :: rest =>
    let head := changeTyArg oldAddr newAddr ty
    if head.2 then (head.1 :: rest, true)
    else
      let tail := anyChanged oldAddr newAddr rest
      (head.1 :: tail.1, tail.2)

end

/-- `change_type_address` on the struct tag with these parts, and what it returns. -/
def changeTypeAddress (oldAddr newAddr : MoveAddress) (address : MoveAddress)
    (module name : String) (tys : List MoveTypeTag) : MoveTypeTag × Bool :=
  let own := readdress oldAddr newAddr address
  let args := anyChanged oldAddr newAddr tys
  (.struct own.1 module name args.1, own.2 || args.2)

/-! ### What is returned -/

section

variable (oldAddr newAddr : MoveAddress)

theorem readdress_fst (address : MoveAddress) :
    (readdress oldAddr newAddr address).1 = moved oldAddr newAddr address := by
  unfold readdress moved
  split_ifs <;> rfl

theorem readdress_snd (hne : oldAddr ≠ newAddr) (address : MoveAddress) :
    (readdress oldAddr newAddr address).2 = true ↔
      (readdress oldAddr newAddr address).1 ≠ address := by
  unfold readdress
  split_ifs with h
  · simp only [true_iff, h]
    exact hne.symm
  · simp

theorem changeTyArg_vector (address : MoveAddress) (module name : String)
    (tys : List MoveTypeTag) :
    changeTyArg oldAddr newAddr (.vector (.struct address module name tys)) =
      (.vector (changeTyArg oldAddr newAddr (.struct address module name tys)).1,
        (changeTyArg oldAddr newAddr (.struct address module name tys)).2) := by
  simp only [changeTyArg]

theorem changeTyArg_vector_other (ty : MoveTypeTag)
    (hty : ∀ address module name tys, ty ≠ .struct address module name tys) :
    changeTyArg oldAddr newAddr (.vector ty) = (.vector ty, false) := by
  cases ty with
  | struct address module name tys => exact absurd rfl (hty address module name tys)
  | _ => rfl

theorem anyChanged_snd (tys : List MoveTypeTag)
    (ih : ∀ ty ∈ tys, (changeTyArg oldAddr newAddr ty).2 = true ↔
      (changeTyArg oldAddr newAddr ty).1 ≠ ty) :
    (anyChanged oldAddr newAddr tys).2 = true ↔ (anyChanged oldAddr newAddr tys).1 ≠ tys := by
  induction tys with
  | nil => simp [anyChanged]
  | cons ty tys ihl =>
    have hhead := ih ty (List.mem_cons_self ..)
    have htail := ihl fun t ht => ih t (List.mem_cons_of_mem _ ht)
    rw [anyChanged]
    split_ifs with h
    · simp only [true_iff]
      exact fun heq => hhead.mp h (List.cons.inj heq).1
    · have hsame : (changeTyArg oldAddr newAddr ty).1 = ty :=
        not_not.mp fun hne => h (hhead.mpr hne)
      rw [hsame, htail]
      simp

theorem changeTyArg_snd (hne : oldAddr ≠ newAddr) (ty : MoveTypeTag) :
    (changeTyArg oldAddr newAddr ty).2 = true ↔ (changeTyArg oldAddr newAddr ty).1 ≠ ty := by
  induction ty using MoveTypeTag.induct with
  | hvector ty ih =>
    cases ty with
    | struct address module name tys =>
      rw [changeTyArg_vector]
      simp only [ne_eq, MoveTypeTag.vector.injEq]
      exact ih
    | _ => simp [changeTyArg]
  | hstruct address module name tys ih =>
    have hown := readdress_snd oldAddr newAddr hne address
    have hargs := anyChanged_snd oldAddr newAddr tys ih
    simp only [changeTyArg, Bool.or_eq_true, hown, hargs, ne_eq, MoveTypeTag.struct.injEq,
      true_and]
    exact not_and_or.symm
  | _ => simp [changeTyArg]

end

/-! ### What is reached -/

section

variable (oldAddr : MoveAddress)

mutual

/-- The search comes to every mention of the old address: no two type arguments of a
struct mention it, and a vector that does is one of structs. -/
def Reached : MoveTypeTag → Prop
  | .struct _ _ _ tys => AllReached tys
  | .vector (.struct _ _ _ tys) => AllReached tys
  | .vector elem => oldAddr ∉ elem.addresses
  | _ => True

def AllReached : List MoveTypeTag → Prop
  | [] => True
  | ty :: rest =>
    Reached ty ∧ (oldAddr ∈ ty.addresses → oldAddr ∉ listAddresses rest) ∧ AllReached rest

end

theorem allReached_of_absent (tys : List MoveTypeTag)
    (ih : ∀ ty ∈ tys, oldAddr ∉ ty.addresses → Reached oldAddr ty)
    (h : oldAddr ∉ listAddresses tys) : AllReached oldAddr tys := by
  induction tys with
  | nil => exact trivial
  | cons ty tys ihl =>
    rw [listAddresses, List.mem_append, not_or] at h
    exact ⟨ih ty (List.mem_cons_self ..) h.1, fun hty => absurd hty h.1,
      ihl (fun t ht => ih t (List.mem_cons_of_mem _ ht)) h.2⟩

theorem reached_of_absent (ty : MoveTypeTag) (h : oldAddr ∉ ty.addresses) :
    Reached oldAddr ty := by
  induction ty using MoveTypeTag.induct with
  | hvector ty ih =>
    cases ty with
    | struct address module name tys => exact ih h
    | _ => exact h
  | hstruct address module name tys ih =>
    rw [addresses, List.mem_cons, not_or] at h
    exact allReached_of_absent oldAddr tys ih h.2
  | _ => exact trivial

variable (newAddr : MoveAddress) (hne : oldAddr ≠ newAddr)

include hne

theorem unmoved_iff (ty : MoveTypeTag) :
    ty = ty.mapAddress (moved oldAddr newAddr) ↔ oldAddr ∉ ty.addresses := by
  rw [eq_comm, mapAddress_eq_self_iff]
  simp only [moved_eq_self_iff, hne, imp_false]
  exact ⟨fun h hmem => h oldAddr hmem rfl, fun h a ha heq => h (heq ▸ ha)⟩

theorem list_unmoved_iff (tys : List MoveTypeTag) :
    tys = mapAddressList (moved oldAddr newAddr) tys ↔ oldAddr ∉ listAddresses tys := by
  rw [eq_comm, mapAddressList_eq_self_iff _ _ fun ty _ => mapAddress_eq_self_iff _ ty]
  simp only [moved_eq_self_iff, hne, imp_false]
  exact ⟨fun h hmem => h oldAddr hmem rfl, fun h a ha heq => h (heq ▸ ha)⟩

theorem anyChanged_complete (tys : List MoveTypeTag)
    (ih : ∀ ty ∈ tys, (changeTyArg oldAddr newAddr ty).1 = ty.mapAddress (moved oldAddr newAddr) ↔
      Reached oldAddr ty) :
    (anyChanged oldAddr newAddr tys).1 = mapAddressList (moved oldAddr newAddr) tys ↔
      AllReached oldAddr tys := by
  induction tys with
  | nil => exact ⟨fun _ => trivial, fun _ => rfl⟩
  | cons ty tys ihl =>
    have hhead := ih ty (List.mem_cons_self ..)
    have htail := ihl fun t ht => ih t (List.mem_cons_of_mem _ ht)
    have hflag := changeTyArg_snd oldAddr newAddr hne ty
    rw [anyChanged, mapAddressList, AllReached]
    split_ifs with h
    · -- the search is over, so that the rest has to be without the address
      rw [List.cons.injEq, hhead, list_unmoved_iff oldAddr newAddr hne]
      constructor
      · intro hall
        obtain ⟨hreached, habsent⟩ := hall
        exact ⟨hreached, fun _ => habsent,
          allReached_of_absent oldAddr tys (fun t _ => reached_of_absent oldAddr t) habsent⟩
      · intro hall
        obtain ⟨hreached, honly, _⟩ := hall
        refine ⟨hreached, honly ?_⟩
        by_contra habsent
        have hsame := (unmoved_iff oldAddr newAddr hne ty).mpr habsent
        exact hflag.mp h ((hhead.mpr hreached).trans hsame.symm)
    · have hsame : (changeTyArg oldAddr newAddr ty).1 = ty :=
        not_not.mp fun hchanged => h (hflag.mpr hchanged)
      rw [List.cons.injEq, hhead, htail]
      constructor
      · intro hall
        obtain ⟨hreached, hrest⟩ := hall
        refine ⟨hreached, fun hmem => ?_, hrest⟩
        have hmoved := hhead.mpr hreached
        rw [hsame] at hmoved
        exact absurd hmem ((unmoved_iff oldAddr newAddr hne ty).mp hmoved)
      · intro hall
        obtain ⟨hreached, _, hrest⟩ := hall
        exact ⟨hreached, hrest⟩

theorem changeTyArg_complete (ty : MoveTypeTag) :
    (changeTyArg oldAddr newAddr ty).1 = ty.mapAddress (moved oldAddr newAddr) ↔
      Reached oldAddr ty := by
  induction ty using MoveTypeTag.induct with
  | hvector ty ih =>
    cases ty with
    | struct address module name tys =>
      rw [changeTyArg_vector, mapAddress, MoveTypeTag.vector.injEq]
      exact ih
    | _ =>
      rw [changeTyArg_vector_other oldAddr newAddr _ (by simp)]
      exact (unmoved_iff oldAddr newAddr hne _).trans Iff.rfl
  | hstruct address module name tys ih =>
    have hargs := anyChanged_complete oldAddr newAddr hne tys ih
    simp only [changeTyArg, mapAddress, MoveTypeTag.struct.injEq, readdress_fst, true_and]
    exact hargs
  | _ => exact ⟨fun _ => trivial, fun _ => rfl⟩

end

/-! ### The struct tag -/

/-- The old address is gone, every mention of it is the new one and nothing else has
changed, and the result says whether anything has. -/
structure Rewritten (oldAddr newAddr address : MoveAddress) (module name : String)
    (tys : List MoveTypeTag) : Prop where
  gone : oldAddr ∉ (changeTypeAddress oldAddr newAddr address module name tys).1.addresses
  mentions : (changeTypeAddress oldAddr newAddr address module name tys).1 =
    (MoveTypeTag.struct address module name tys).mapAddress (moved oldAddr newAddr)
  changed : (changeTypeAddress oldAddr newAddr address module name tys).2 = true ↔
    (changeTypeAddress oldAddr newAddr address module name tys).1 ≠ .struct address module name tys

theorem rewritten_iff (oldAddr newAddr address : MoveAddress) (module name : String)
    (tys : List MoveTypeTag) (hne : oldAddr ≠ newAddr) :
    Rewritten oldAddr newAddr address module name tys ↔ AllReached oldAddr tys := by
  have hcomplete := changeTyArg_complete oldAddr newAddr hne (.struct address module name tys)
  constructor
  · exact fun h => hcomplete.mp h.mentions
  · intro h
    have hmentions := hcomplete.mpr h
    refine ⟨?_, hmentions, changeTyArg_snd oldAddr newAddr hne (.struct address module name tys)⟩
    intro hmem
    have hmoved : oldAddr ∈ ((MoveTypeTag.struct address module name tys).mapAddress
        (moved oldAddr newAddr)).addresses := hmentions ▸ hmem
    rw [addresses_map] at hmoved
    exact not_mem_map_moved oldAddr newAddr hne _ hmoved

theorem rewritten_coin :
    Rewritten (Store.ObjectID.ofByte 0) (Store.ObjectID.ofByte 7) MoveAddress.two "coin" "Coin"
      [.struct (Store.ObjectID.ofByte 0) "pool" "Token" []] :=
  (rewritten_iff _ _ _ _ _ _ (by decide)).mpr ⟨trivial, fun _ => List.not_mem_nil, trivial⟩

/-- The second of two tokens of the package is not rewritten. -/
theorem not_rewritten_pair :
    Store.ObjectID.ofByte 0 ≠ Store.ObjectID.ofByte 7 ∧
      ¬ Rewritten (Store.ObjectID.ofByte 0) (Store.ObjectID.ofByte 7) MoveAddress.two "pair" "Pair"
        [.struct (Store.ObjectID.ofByte 0) "pool" "Token" [],
          .struct (Store.ObjectID.ofByte 0) "pool" "Share" []] :=
  ⟨by decide, fun h => h.gone (by decide)⟩

end MoveTypeTag

end Movy.Types
