import Movy.Store.Object
import Mathlib.Data.List.TakeWhile

/-!
# Addresses as texts (`movy-types/src/input.rs`)

`to_canonical_string` writes the 32 bytes of an address as 64 hex digits.
-/

namespace Movy.Types

open Movy.Store (Byte ObjectID)

def hexByte (b : Byte) : List Char := [Nat.digitChar (b.val / 16), Nat.digitChar (b.val % 16)]

def hexChars (a : ObjectID) : List Char := a.bytes.flatMap hexByte

def canonicalString (a : ObjectID) (withPrefix : Bool) : String :=
  String.ofList ((if withPrefix then ['0', 'x'] else []) ++ hexChars a)

/-- The digits without leading zeros, or a single one. -/
def canonicalShort (a : ObjectID) : String :=
  let stripped := (hexChars a).dropWhile fun c => c = '0'
  if stripped.isEmpty then "0x0" else String.ofList (['0', 'x'] ++ stripped)

/-- The first and the last two bytes. -/
def short (a : ObjectID) : String :=
  String.ofList (['0', 'x'] ++ (a.bytes.take 2).flatMap hexByte ++ ['.', '.'] ++
    ((a.bytes.drop 30).take 2).flatMap hexByte)

def isLowerHex (c : Char) : Bool := c ∈ ['0', '1', '2', '3', '4', '5', '6', '7', '8', '9', 'a', 'b',
  'c', 'd', 'e', 'f']

theorem hexByte_lowerHex (b : Byte) : (hexByte b).all isLowerHex = true := by
  have hdigit : ∀ n : Fin 16, isLowerHex (Nat.digitChar n.val) = true := by decide
  have hb := b.isLt
  simp only [hexByte, List.all_cons, List.all_nil, Bool.and_true, Bool.and_eq_true]
  exact ⟨hdigit ⟨b.val / 16, by omega⟩, hdigit ⟨b.val % 16, by omega⟩⟩

theorem hexByte_injective : Function.Injective hexByte := by
  have hdigit : ∀ m n : Fin 16, Nat.digitChar m.val = Nat.digitChar n.val → m = n := by decide
  intro a b h
  simp only [hexByte, List.cons.injEq, and_true] at h
  have ha := a.isLt
  have hb := b.isLt
  have hq : a.val / 16 = b.val / 16 :=
    Fin.mk.inj (hdigit ⟨a.val / 16, by omega⟩ ⟨b.val / 16, by omega⟩ h.1)
  have hr : a.val % 16 = b.val % 16 :=
    Fin.mk.inj (hdigit ⟨a.val % 16, by omega⟩ ⟨b.val % 16, by omega⟩ h.2)
  exact Fin.ext (by omega)

theorem flatMap_hexByte_length (bytes : List Byte) :
    (bytes.flatMap hexByte).length = 2 * bytes.length := by
  induction bytes with
  | nil => rfl
  | cons b bytes ih =>
    simp only [List.flatMap_cons, List.length_append, ih, hexByte, List.length_cons, List.length_nil]
    omega

theorem hexChars_length (a : ObjectID) : (hexChars a).length = 64 := by
  rw [hexChars, flatMap_hexByte_length, a.length_bytes]

theorem flatMap_hexByte_injective (l l' : List Byte)
    (h : l.flatMap hexByte = l'.flatMap hexByte) : l = l' := by
  induction l generalizing l' with
  | nil =>
    cases l' with
    | nil => rfl
    | cons b l' => simp [hexByte] at h
  | cons b l ih =>
    cases l' with
    | nil => simp [hexByte] at h
    | cons b' l' =>
      rw [List.flatMap_cons, List.flatMap_cons] at h
      obtain ⟨hb, hl⟩ := List.append_inj h rfl
      rw [hexByte_injective hb, ih l' hl]

theorem hexChars_injective : Function.Injective hexChars := by
  intro a b h
  exact ObjectID.bytes_injective (flatMap_hexByte_injective _ _ h)

theorem hexChars_lowerHex (a : ObjectID) (c : Char) (h : c ∈ hexChars a) : isLowerHex c = true := by
  obtain ⟨b, _, hc⟩ := List.mem_flatMap.mp h
  exact List.all_eq_true.mp (hexByte_lowerHex b) c hc

/-! ### Reading -/

def hexDigit (c : Char) : Option ℕ :=
  ['0', '1', '2', '3', '4', '5', '6', '7', '8', '9', 'a', 'b', 'c', 'd', 'e', 'f'].idxOf? c

def parseBytes : List Char → Option (List Byte)
  | [] => some []
  | [_] => none
  | hi :: lo :: rest => do
    let hi ← hexDigit hi
    let lo ← hexDigit lo
    let bytes ← parseBytes rest
    some (Fin.ofNat 256 (16 * hi + lo) :: bytes)

/-- `ObjectID::from_str` on texts with a prefix and all digits. -/
def parseAddress (s : String) : Option ObjectID :=
  match s.toList with
  | '0' :: 'x' :: digits => (parseBytes digits).bind fun bytes =>
    if h : bytes.length = 32 then some ⟨bytes, h⟩ else none
  | _ => none

theorem parseBytes_flatMap (bytes : List Byte) : parseBytes (bytes.flatMap hexByte) = some bytes := by
  have hdigit : ∀ n : Fin 16, hexDigit (Nat.digitChar n.val) = some n.val := by decide
  induction bytes with
  | nil => rfl
  | cons b rest ih =>
    have hb := b.isLt
    have hq := hdigit ⟨b.val / 16, by omega⟩
    have hr := hdigit ⟨b.val % 16, by omega⟩
    have hval : Fin.ofNat 256 (16 * (b.val / 16) + b.val % 16) = b := Fin.ext (by
      rw [Fin.val_ofNat, Nat.mod_eq_of_lt] <;> omega)
    rw [List.flatMap_cons, hexByte, List.cons_append, List.cons_append, List.nil_append, parseBytes,
      hq, hr, ih]
    simp only [Option.bind_eq_bind, Option.bind_some, hval]

theorem parseAddress_canonicalString (a : ObjectID) :
    parseAddress (canonicalString a true) = some a := by
  have hchars : (canonicalString a true).toList = '0' :: 'x' :: a.bytes.flatMap hexByte :=
    String.toList_ofList
  rw [parseAddress, hchars]
  simp only [parseBytes_flatMap, Option.bind_some]
  rw [dif_pos a.length_bytes]

/-! ### Without leading zeros -/

theorem takeWhile_zero (l : List Char) : l.takeWhile (fun c => c = '0') =
    List.replicate (l.length - (l.dropWhile fun c => c = '0').length) '0' := by
  have hsplit := congrArg List.length
    (List.takeWhile_append_dropWhile (p := fun c => c = '0') (l := l))
  rw [List.length_append] at hsplit
  refine List.eq_replicate_iff.mpr ⟨by omega, fun c hc => ?_⟩
  simpa using List.mem_takeWhile_imp hc

/-- Texts of one length are told apart by what follows their leading zeros. -/
theorem dropWhile_zero_injective (l l' : List Char) (hlen : l.length = l'.length)
    (h : (l.dropWhile fun c => c = '0') = l'.dropWhile fun c => c = '0') : l = l' := by
  rw [← List.takeWhile_append_dropWhile (p := fun c => c = '0') (l := l),
    ← List.takeWhile_append_dropWhile (p := fun c => c = '0') (l := l'),
    takeWhile_zero, takeWhile_zero, h, hlen]

theorem dropWhile_zero_ne (l : List Char) : (l.dropWhile fun c => c = '0') ≠ ['0'] := by
  intro h
  have hhead := List.head_dropWhile_not (fun c : Char => decide (c = '0')) (l := l) (by rw [h]; simp)
  simp [h] at hhead

theorem canonicalShort_eq (a : ObjectID) : canonicalShort a =
    String.ofList (['0', 'x'] ++ if ((hexChars a).dropWhile fun c => c = '0').isEmpty then ['0']
      else (hexChars a).dropWhile fun c => c = '0') := by
  rw [canonicalShort]
  split_ifs <;> rfl

theorem canonicalShort_injective : Function.Injective canonicalShort := by
  intro a b h
  rw [canonicalShort_eq, canonicalShort_eq] at h
  have hchars := List.append_cancel_left (String.ofList_injective h)
  refine hexChars_injective (dropWhile_zero_injective _ _ (by rw [hexChars_length, hexChars_length]) ?_)
  split_ifs at hchars with ha hb hb
  · rw [List.isEmpty_iff.mp ha, List.isEmpty_iff.mp hb]
  · exact absurd hchars.symm (dropWhile_zero_ne _)
  · exact absurd hchars (dropWhile_zero_ne _)
  · exact hchars

end Movy.Types
