import Movy.Lib.BigEndian
import Movy.Types.AddressText
import Movy.Types.Input

/-!
# Package names in types (`movy/src/sui/prepare.rs`)

The type arguments of an account may name local packages where an address is
expected. A scan over the text puts the address of the package for a name, if the
last character written opens a place for an address and `::` follows.
-/

namespace Movy.Sui.NamedTypes

open Movy.Types Movy.Store

/-! ### The scan -/

def opensAddress (c : Char) : Bool := c == '<' || c == ',' || c == '(' || c == ' '

def atHead : Option Char → Bool
  | none => true
  | some c => opensAddress c

def isIdentStart (c : Char) : Bool := c.isAlpha || c == '_'

def isIdentChar (c : Char) : Bool := c.isAlphanum || c == '_'

/- The address for the identifier at the front of the text, if `::` follows. -/
def namedAddress (names : String → Option MoveAddress) (c : Char) (rest : List Char) :
    Option MoveAddress :=
  match rest.dropWhile isIdentChar with
  | ':' :: ':' :: _ => names (String.ofList (c :: rest.takeWhile isIdentChar))
  | _ => none

/- `last` is the last character of the output so far. -/
def rewriteFrom (names : String → Option MoveAddress) (last : Option Char) :
    List Char → List Char
  | [] => []
  | c :: rest =>
    match (if atHead last && isIdentStart c then namedAddress names c rest else none) with
    | some addr => (canonicalString addr true).toList ++
        rewriteFrom names (canonicalString addr true).toList.getLast? (rest.dropWhile isIdentChar)
    | none => c :: rewriteFrom names (some c) rest
  termination_by text => text.length
  decreasing_by
    · simp only [List.length_cons]
      exact Nat.lt_succ_of_le (List.dropWhile_suffix isIdentChar).length_le
    · simp

def rewriteNamedTypeAddresses (raw : String) (names : String → Option MoveAddress) : String :=
  String.ofList (rewriteFrom names none raw.toList)

/- `parse` is `from_str` of a type tag. -/
def resolveTypeTag (parse : String → Option MoveTypeTag) (raw : String)
    (names : String → Option MoveAddress) : Option MoveTypeTag :=
  match parse raw with
  | some resolved => some resolved
  | none => parse (rewriteNamedTypeAddresses raw names)

/-! ### Type expressions -/

structure Ident where
  head : Char
  tail : List Char
  head_ok : isIdentStart head = true
  tail_ok : tail.all isIdentChar = true
  named : head = '_' → tail ≠ []

def Ident.text (i : Ident) : List Char := i.head :: i.tail

def isHexDigit (c : Char) : Bool :=
  c.isDigit || ('a' ≤ c && c ≤ 'f') || ('A' ≤ c && c ≤ 'F')

/- An address in digits, of at most 256 bits. -/
structure Numeral where
  hex : Bool
  digits : List Char
  digits_ok : digits.all (if hex then isHexDigit else Char.isDigit) = true
  nonempty : digits ≠ []
  length_le : digits.length ≤ if hex then 64 else 77

def Numeral.text (n : Numeral) : List Char := (if n.hex then ['0', 'x'] else []) ++ n.digits

def digitValue (c : Char) : ℕ :=
  if c.isDigit then c.toNat - '0'.toNat
  else if 'a' ≤ c then c.toNat - 'a'.toNat + 10 else c.toNat - 'A'.toNat + 10

def Numeral.value (n : Numeral) : MoveAddress :=
  ⟨beBytes 32 (n.digits.foldl (fun v c => v * (if n.hex then 16 else 10) + digitValue c) 0),
    length_beBytes _ _⟩

inductive Address where
  | numeric (n : Numeral)
  | named (i : Ident)

inductive Primitive where
  | bool
  | u8
  | u16
  | u32
  | u64
  | u128
  | u256
  | address
  | signer

mutual

/- A type with the numbers of spaces after `<` and `,`. -/
inductive TypeExpr where
  | primitive (p : Primitive)
  | vector (spaces : ℕ) (elem : TypeExpr)
  | struct (address : Address) (module name : Ident) (args : TypeArgs)

inductive TypeArgs where
  | nil
  | cons (spaces : ℕ) (head : TypeExpr) (tail : TypeArgs)

end

def Primitive.text : Primitive → List Char
  | .bool => ['b', 'o', 'o', 'l']
  | .u8 => ['u', '8']
  | .u16 => ['u', '1', '6']
  | .u32 => ['u', '3', '2']
  | .u64 => ['u', '6', '4']
  | .u128 => ['u', '1', '2', '8']
  | .u256 => ['u', '2', '5', '6']
  | .address => ['a', 'd', 'd', 'r', 'e', 's', 's']
  | .signer => ['s', 'i', 'g', 'n', 'e', 'r']

def Primitive.tag : Primitive → MoveTypeTag
  | .bool => .bool
  | .u8 => .u8
  | .u16 => .u16
  | .u32 => .u32
  | .u64 => .u64
  | .u128 => .u128
  | .u256 => .u256
  | .address => .address
  | .signer => .signer

def Address.text : Address → List Char
  | .numeric n => n.text
  | .named i => i.text

mutual

def TypeExpr.text : TypeExpr → List Char
  | .primitive p => p.text
  | .vector spaces elem =>
    ['v', 'e', 'c', 't', 'o', 'r', '<'] ++ List.replicate spaces ' ' ++ elem.text ++ ['>']
  | .struct address module name args =>
    address.text ++ [':', ':'] ++ module.text ++ [':', ':'] ++ name.text ++ args.text

def TypeArgs.text : TypeArgs → List Char
  | .nil => []
  | .cons spaces head tail => '<' :: (List.replicate spaces ' ' ++ head.text ++ tail.moreText)

def TypeArgs.moreText : TypeArgs → List Char
  | .nil => ['>']
  | .cons spaces head tail => ',' :: (List.replicate spaces ' ' ++ head.text ++ tail.moreText)

end

def TypeExpr.render (e : TypeExpr) : String := String.ofList e.text

/- The canonical form of an address is a numeral. -/
def canonicalNumeral (a : MoveAddress) : Numeral where
  hex := true
  digits := hexChars a
  digits_ok := by
    have hhex : ∀ c, isLowerHex c = true → isHexDigit c = true := by
      intro c hc
      simp only [isLowerHex, List.mem_cons, List.not_mem_nil, or_false, decide_eq_true_eq] at hc
      rcases hc with rfl | rfl | rfl | rfl | rfl | rfl | rfl | rfl | rfl | rfl | rfl | rfl | rfl |
        rfl | rfl | rfl <;> decide
    exact List.all_eq_true.mpr fun c hc => hhex c (hexChars_lowerHex a c hc)
  nonempty := List.ne_nil_of_length_pos (by rw [hexChars_length]; decide)
  length_le := (hexChars_length a).le

/- The names that stand for an address, replaced. -/
def Address.subst (names : String → Option MoveAddress) : Address → Address
  | .numeric n => .numeric n
  | .named i => match names (String.ofList i.text) with
    | some a => .numeric (canonicalNumeral a)
    | none => .named i

mutual

def TypeExpr.subst (names : String → Option MoveAddress) : TypeExpr → TypeExpr
  | .primitive p => .primitive p
  | .vector spaces elem => .vector spaces (elem.subst names)
  | .struct address module name args =>
    .struct (address.subst names) module name (args.subst names)

def TypeArgs.subst (names : String → Option MoveAddress) : TypeArgs → TypeArgs
  | .nil => .nil
  | .cons spaces head tail => .cons spaces (head.subst names) (tail.subst names)

end

def Address.value? : Address → Option MoveAddress
  | .numeric n => some n.value
  | .named _ => none

mutual

/- The tag that a type stands for; there is none if it has names. -/
def TypeExpr.tag? : TypeExpr → Option MoveTypeTag
  | .primitive p => some p.tag
  | .vector _ elem => elem.tag?.map .vector
  | .struct address module name args =>
    address.value?.bind fun a => args.tags?.map fun tys =>
      .struct a (String.ofList module.text) (String.ofList name.text) tys

def TypeArgs.tags? : TypeArgs → Option (List MoveTypeTag)
  | .nil => some []
  | .cons _ head tail => head.tag?.bind fun ty => tail.tags?.map (ty :: ·)

end

def Address.Mapped (names : String → Option MoveAddress) : Address → Prop
  | .numeric _ => True
  | .named i => (names (String.ofList i.text)).isSome

mutual

/- All names of the type are in the map. -/
def TypeExpr.Mapped (names : String → Option MoveAddress) : TypeExpr → Prop
  | .primitive _ => True
  | .vector _ elem => elem.Mapped names
  | .struct address _ _ args => address.Mapped names ∧ args.Mapped names

def TypeArgs.Mapped (names : String → Option MoveAddress) : TypeArgs → Prop
  | .nil => True
  | .cons _ head tail => head.Mapped names ∧ tail.Mapped names

end

/-! ### The address of a canonical text -/

theorem digitValue_digitChar : ∀ n : Fin 16, digitValue (Nat.digitChar n.val) = n.val := by decide

theorem foldl_hexByte (bytes : List Byte) (v : ℕ) :
    (bytes.flatMap hexByte).foldl (fun v c => v * 16 + digitValue c) v =
      v * 256 ^ bytes.length + beValue bytes := by
  induction bytes generalizing v with
  | nil => simp [beValue]
  | cons b bytes ih =>
    have hb := b.isLt
    have hq : digitValue (Nat.digitChar (b.val / 16)) = b.val / 16 :=
      digitValue_digitChar ⟨b.val / 16, by omega⟩
    have hr : digitValue (Nat.digitChar (b.val % 16)) = b.val % 16 :=
      digitValue_digitChar ⟨b.val % 16, by omega⟩
    simp only [List.flatMap_cons, hexByte, List.cons_append, List.nil_append, List.foldl_cons, hq, hr]
    rw [ih, beValue, List.length_cons, pow_succ]
    have hdigits : (v * 16 + b.val / 16) * 16 + b.val % 16 = v * 256 + b.val := by omega
    rw [hdigits, Nat.add_mul, Nat.mul_assoc, Nat.mul_comm 256, Nat.add_assoc]

theorem canonicalNumeral_value (a : MoveAddress) : (canonicalNumeral a).value = a := by
  refine ObjectID.bytes_injective ?_
  simp only [Numeral.value, canonicalNumeral, if_true, hexChars, foldl_hexByte, Nat.zero_mul,
    Nat.zero_add]
  have hround := beBytes_beValue a.bytes
  rwa [a.length_bytes] at hround

/-! ### Steps of the scan -/

section

variable (names : String → Option MoveAddress)

theorem rewriteFrom_skip (last : Option Char) (c : Char) (rest : List Char)
    (h : (atHead last && isIdentStart c) = false) :
    rewriteFrom names last (c :: rest) = c :: rewriteFrom names (some c) rest := by
  rw [rewriteFrom]
  simp [h]

theorem rewriteFrom_keep (last : Option Char) (c : Char) (rest : List Char)
    (h : namedAddress names c rest = none) :
    rewriteFrom names last (c :: rest) = c :: rewriteFrom names (some c) rest := by
  rw [rewriteFrom]
  simp [h]

theorem rewriteFrom_replace (last : Option Char) (c : Char) (rest : List Char) (a : MoveAddress)
    (hlast : atHead last = true) (hc : isIdentStart c = true)
    (h : namedAddress names c rest = some a) :
    rewriteFrom names last (c :: rest) = (canonicalString a true).toList ++
      rewriteFrom names (canonicalString a true).toList.getLast? (rest.dropWhile isIdentChar) := by
  rw [rewriteFrom]
  simp [h, hlast, hc]

/- Where no place for an address is open, the text is copied up to the next one. -/
theorem copy_plain (l rest : List Char) (last : Option Char) (hlast : atHead last = false)
    (hl : ∀ c ∈ l, opensAddress c = false) :
    ∃ last', atHead last' = false ∧
      rewriteFrom names last (l ++ rest) = l ++ rewriteFrom names last' rest := by
  induction l generalizing last with
  | nil => exact ⟨last, hlast, rfl⟩
  | cons c l ih =>
    obtain ⟨last', hlast', heq⟩ := ih (some c) (hl c List.mem_cons_self)
      fun d hd => hl d (List.mem_cons_of_mem c hd)
    refine ⟨last', hlast', ?_⟩
    rw [List.cons_append, rewriteFrom_skip names last c _ (by simp [hlast]), heq, List.cons_append]

/- After `<` or `,` and spaces, a place for an address is open. -/
theorem copy_open (c : Char) (spaces : ℕ) (rest : List Char) (last : Option Char)
    (hc : opensAddress c = true) (hident : isIdentStart c = false) :
    ∃ last', atHead last' = true ∧
      rewriteFrom names last (c :: (List.replicate spaces ' ' ++ rest)) =
        c :: (List.replicate spaces ' ' ++ rewriteFrom names last' rest) := by
  induction spaces generalizing last c with
  | zero =>
    exact ⟨some c, hc, by simp [rewriteFrom_skip names last c rest (by simp [hident])]⟩
  | succ n ih =>
    obtain ⟨last', hlast', heq⟩ := ih ' ' (some c) (by decide) (by decide)
    refine ⟨last', hlast', ?_⟩
    rw [rewriteFrom_skip names last c _ (by simp [hident]), List.replicate_succ, List.cons_append,
      heq, List.cons_append]

def Ends (rest : List Char) : Prop := ∀ c r, rest = c :: r → isIdentChar c = false ∧ c ≠ ':'

theorem dropWhile_ident (tail rest : List Char) (htail : tail.all isIdentChar = true)
    (hrest : ∀ c r, rest = c :: r → isIdentChar c = false) :
    (tail ++ rest).dropWhile isIdentChar = rest ∧ (tail ++ rest).takeWhile isIdentChar = tail := by
  have hall : ∀ c ∈ tail, isIdentChar c = true := List.all_eq_true.mp htail
  rw [List.dropWhile_append_of_pos hall, List.takeWhile_append_of_pos hall]
  cases rest with
  | nil => simp
  | cons c r => simp [hrest c r rfl]

theorem opensAddress_ident (c : Char) (h : isIdentChar c = true) : opensAddress c = false := by
  by_contra hopen
  simp only [opensAddress, Bool.not_eq_false, Bool.or_eq_true, beq_iff_eq] at hopen
  rcases hopen with ((rfl | rfl) | rfl) | rfl <;> exact absurd h (by decide)

theorem isIdentChar_start (c : Char) (h : isIdentStart c = true) : isIdentChar c = true := by
  simp only [isIdentStart, isIdentChar, Char.isAlphanum, Bool.or_eq_true] at h ⊢
  rcases h with halpha | hunderscore
  · exact .inl (.inl halpha)
  · exact .inr hunderscore

/- A word that is no name: `::` does not follow. -/
theorem copy_word (c : Char) (tail rest : List Char) (last : Option Char)
    (hc : isIdentStart c = true) (htail : tail.all isIdentChar = true) (hrest : Ends rest) :
    ∃ last', atHead last' = false ∧
      rewriteFrom names last (c :: tail ++ rest) = c :: tail ++ rewriteFrom names last' rest := by
  have hnone : namedAddress names c (tail ++ rest) = none := by
    rw [namedAddress, (dropWhile_ident tail rest htail fun d r hd => (hrest d r hd).1).1]
    split
    · exact absurd rfl (hrest _ _ rfl).2
    · rfl
  obtain ⟨last', hlast', heq⟩ := copy_plain names tail rest (some c)
    (opensAddress_ident c (isIdentChar_start c hc))
    fun d hd => opensAddress_ident d (List.all_eq_true.mp htail d hd)
  exact ⟨last', hlast', by rw [List.cons_append, rewriteFrom_keep names last c _ hnone, heq]; rfl⟩

/-! ### Addresses -/

theorem isUpper_iff (c : Char) : c.isUpper = true ↔ c.val ≥ 65 ∧ c.val ≤ 90 :=
  decide_eq_true_iff

theorem isLower_iff (c : Char) : c.isLower = true ↔ c.val ≥ 97 ∧ c.val ≤ 122 := by
  have hboth : c.isLower = (decide (c.val ≥ 97) && decide (c.val ≤ 122)) := rfl
  rw [hboth, Bool.and_eq_true, decide_eq_true_iff, decide_eq_true_iff]

theorem isAlpha_iff (c : Char) : c.isAlpha = true ↔ c.isUpper = true ∨ c.isLower = true :=
  Bool.or_eq_true_iff

theorem isIdentChar_digit (hex : Bool) (c : Char)
    (h : (if hex then isHexDigit c else c.isDigit) = true) : isIdentChar c = true := by
  have hcmp : ∀ a b : Char, (decide (a ≤ b)) = true ↔ a.val ≤ b.val := fun a b => by
    simp [Char.le_def]
  cases hex with
  | false =>
    simp only [Bool.false_eq_true, if_false] at h
    simp [isIdentChar, Char.isAlphanum, h]
  | true =>
    simp only [if_true, isHexDigit, Bool.or_eq_true, Bool.and_eq_true, hcmp] at h
    simp only [isIdentChar, Char.isAlphanum, Bool.or_eq_true, isAlpha_iff, isUpper_iff,
      isLower_iff]
    rcases h with (h | h) | h
    · simp [h]
    · have h1 : c.val ≥ 97 := h.1
      have h2 : c.val ≤ 122 := UInt32.le_trans h.2 (by decide : ('f' : Char).val ≤ 122)
      exact Or.inl (Or.inl (Or.inr ⟨h1, h2⟩))
    · have h1 : c.val ≥ 65 := h.1
      have h2 : c.val ≤ 90 := UInt32.le_trans h.2 (by decide : ('F' : Char).val ≤ 90)
      exact Or.inl (Or.inl (Or.inl ⟨h1, h2⟩))

theorem isIdentStart_digit (c : Char) (h : c.isDigit = true) : isIdentStart c = false := by
  simp only [Char.isDigit, Bool.and_eq_true, decide_eq_true_eq] at h
  obtain ⟨hlo, hhi⟩ := h
  have hv : c.val ≤ 57 := hhi
  have halpha : c.isAlpha = false := by
    rw [Bool.eq_false_iff, ne_eq, isAlpha_iff, isUpper_iff, isLower_iff]
    rintro (h | h)
    · exact absurd (UInt32.le_trans h.1 hv) (by decide)
    · exact absurd (UInt32.le_trans h.1 hv) (by decide)
  have hunder : c ≠ '_' := by
    rintro rfl
    exact absurd hv (by decide)
  simp [isIdentStart, halpha, hunder]

theorem Numeral.text_cons (n : Numeral) : ∃ c tail, n.text = c :: tail ∧ isIdentStart c = false ∧
    opensAddress c = false ∧ tail.all isIdentChar = true := by
  obtain ⟨hex, digits, hok, hne, hlen⟩ := n
  have hall : ∀ c ∈ digits, isIdentChar c = true := by
    intro c hc
    have hdigit := List.all_eq_true.mp hok c hc
    refine isIdentChar_digit hex c ?_
    cases hex <;> exact hdigit
  cases hex with
  | true =>
    refine ⟨'0', 'x' :: digits, rfl, by decide, by decide, ?_⟩
    exact List.all_eq_true.mpr fun c hc =>
      (List.mem_cons.mp hc).elim (fun h => h ▸ by decide) (hall c)
  | false =>
    cases digits with
    | nil => exact absurd rfl hne
    | cons d ds =>
      refine ⟨d, ds, rfl, isIdentStart_digit d (List.all_eq_true.mp hok d List.mem_cons_self),
        opensAddress_ident d (hall d List.mem_cons_self), ?_⟩
      exact List.all_eq_true.mpr fun c hc => hall c (List.mem_cons_of_mem d hc)

theorem canonicalNumeral_text (a : MoveAddress) :
    (canonicalNumeral a).text = (canonicalString a true).toList := by
  simp [canonicalNumeral, Numeral.text, canonicalString]

/- The canonical form ends with a digit. -/
theorem canonicalString_last (a : MoveAddress) :
    atHead (canonicalString a true).toList.getLast? = false := by
  obtain ⟨c, tail, htext, _, hopen, htail⟩ := (canonicalNumeral a).text_cons
  rw [← canonicalNumeral_text, htext, List.getLast?_cons]
  simp only [atHead]
  cases htl : tail.getLast? with
  | none => exact hopen
  | some d =>
    exact opensAddress_ident d (List.all_eq_true.mp htail d (List.mem_of_getLast? htl))

theorem Ident.opens (i : Ident) : ∀ c ∈ i.text, opensAddress c = false := by
  intro c hc
  refine opensAddress_ident c ?_
  rcases List.mem_cons.mp hc with rfl | hc
  · exact isIdentChar_start _ i.head_ok
  · exact List.all_eq_true.mp i.tail_ok c hc

/- In front of `::`, a mapped name is replaced and any other address is copied. -/
theorem rewrite_address (address : Address) (last : Option Char) (rest : List Char)
    (hlast : atHead last = true) :
    ∃ last', atHead last' = false ∧
      rewriteFrom names last (address.text ++ ':' :: ':' :: rest) =
        (address.subst names).text ++ rewriteFrom names last' (':' :: ':' :: rest) := by
  cases address with
  | numeric n =>
    obtain ⟨c, tail, htext, hstart, hopen, htail⟩ := n.text_cons
    obtain ⟨last', hlast', heq⟩ := copy_plain names tail (':' :: ':' :: rest) (some c) hopen
      fun d hd => opensAddress_ident d (List.all_eq_true.mp htail d hd)
    refine ⟨last', hlast', ?_⟩
    simp only [Address.text, Address.subst, htext, List.cons_append]
    rw [rewriteFrom_skip names last c _ (by simp [hstart]), heq]
  | named i =>
    have hcolon : ∀ c r, ':' :: ':' :: rest = c :: r → isIdentChar c = false := by
      intro c r h
      rw [← (List.cons_eq_cons.mp h).1]
      decide
    obtain ⟨hdrop, htake⟩ := dropWhile_ident i.tail (':' :: ':' :: rest) i.tail_ok hcolon
    have hname : namedAddress names i.head (i.tail ++ ':' :: ':' :: rest) =
        names (String.ofList i.text) := by
      rw [namedAddress, hdrop, htake]
      rfl
    simp only [Address.text, Address.subst, Ident.text, List.cons_append]
    cases hget : names (String.ofList (i.head :: i.tail)) with
    | some a =>
      refine ⟨_, canonicalString_last a, ?_⟩
      rw [rewriteFrom_replace names last i.head _ a hlast i.head_ok (hname.trans hget), hdrop,
        ← canonicalNumeral_text]
    | none =>
      obtain ⟨last', hlast', heq⟩ := copy_plain names i.tail (':' :: ':' :: rest) (some i.head)
        (i.opens i.head List.mem_cons_self) fun d hd => i.opens d (List.mem_cons_of_mem _ hd)
      refine ⟨last', hlast', ?_⟩
      rw [rewriteFrom_keep names last i.head _ (hname.trans hget), heq]
      rfl

/-! ### The scan over a type -/

theorem ends_greater (rest : List Char) : Ends ('>' :: rest) := by
  intro c r h
  rw [← (List.cons_eq_cons.mp h).1]
  decide

theorem ends_moreText (args : TypeArgs) (rest : List Char) : Ends (args.moreText ++ rest) := by
  cases args with
  | nil => exact ends_greater rest
  | cons spaces head tail =>
    intro c r h
    rw [TypeArgs.moreText, List.cons_append] at h
    rw [← (List.cons_eq_cons.mp h).1]
    decide

theorem Primitive.text_cons (p : Primitive) : ∃ c tail, p.text = c :: tail ∧
    isIdentStart c = true ∧ tail.all isIdentChar = true := by
  cases p <;> exact ⟨_, _, rfl, by decide, by decide⟩

mutual

/- A type in a place for an address is written with the names replaced, and no such
place is open behind it. -/
theorem rewrite_text (e : TypeExpr) (last : Option Char) (rest : List Char)
    (hlast : atHead last = true) (hrest : Ends rest) :
    ∃ last', atHead last' = false ∧ rewriteFrom names last (e.text ++ rest) =
      (e.subst names).text ++ rewriteFrom names last' rest := by
  cases e with
  | primitive p =>
    obtain ⟨c, tail, htext, hc, htail⟩ := p.text_cons
    simp only [TypeExpr.text, TypeExpr.subst, htext]
    exact copy_word names c tail rest last hc htail hrest
  | vector spaces elem =>
    have hopen : Ends ('<' :: (List.replicate spaces ' ' ++ (elem.text ++ '>' :: rest))) := by
      intro c r h
      rw [← (List.cons_eq_cons.mp h).1]
      decide
    obtain ⟨l₁, _, hword⟩ := copy_word names 'v' ['e', 'c', 't', 'o', 'r'] _ last (by decide)
      (by decide) hopen
    obtain ⟨l₂, hl₂, hspaces⟩ := copy_open names '<' spaces (elem.text ++ '>' :: rest) l₁
      (by decide) (by decide)
    obtain ⟨l₃, hl₃, helem⟩ := rewrite_text elem l₂ ('>' :: rest) hl₂ (ends_greater rest)
    refine ⟨some '>', by decide, ?_⟩
    have hclose := rewriteFrom_skip names l₃ '>' rest (by simp [hl₃])
    have hall := hword.trans (congrArg _ (hspaces.trans
      (congrArg _ (congrArg _ (helem.trans (congrArg _ hclose))))))
    simpa only [TypeExpr.text, TypeExpr.subst, List.cons_append, List.nil_append,
      List.append_assoc] using hall
  | struct address module name args =>
    have hplain : ∀ c ∈ [':', ':'] ++ module.text ++ [':', ':'] ++ name.text,
        opensAddress c = false := by
      intro c hc
      simp only [List.mem_append, List.mem_cons, List.not_mem_nil, or_false] at hc
      rcases hc with (((rfl | rfl) | hc) | (rfl | rfl)) | hc
      · decide
      · decide
      · exact module.opens c hc
      · decide
      · decide
      · exact name.opens c hc
    obtain ⟨l₁, hl₁, haddress⟩ := rewrite_address names address last
      (module.text ++ [':', ':'] ++ name.text ++ (args.text ++ rest)) hlast
    obtain ⟨l₂, hl₂, hnames⟩ := copy_plain names _ (args.text ++ rest) l₁ hl₁ hplain
    obtain ⟨l₃, hl₃, hargs⟩ := rewrite_args args l₂ rest hl₂
    refine ⟨l₃, hl₃, ?_⟩
    have hnames' := hnames.trans (congrArg _ hargs)
    simp only [List.cons_append, List.nil_append, List.append_assoc] at haddress hnames' ⊢
    simpa only [TypeExpr.text, TypeExpr.subst, List.cons_append, List.nil_append,
      List.append_assoc] using haddress.trans (congrArg _ hnames')

/- The type arguments of a struct. -/
theorem rewrite_args (args : TypeArgs) (last : Option Char) (rest : List Char)
    (hlast : atHead last = false) :
    ∃ last', atHead last' = false ∧ rewriteFrom names last (args.text ++ rest) =
      (args.subst names).text ++ rewriteFrom names last' rest := by
  cases args with
  | nil => exact ⟨last, hlast, rfl⟩
  | cons spaces head tail =>
    obtain ⟨l₁, hl₁, hspaces⟩ := copy_open names '<' spaces (head.text ++ (tail.moreText ++ rest))
      last (by decide) (by decide)
    obtain ⟨l₂, hl₂, hhead⟩ := rewrite_text head l₁ _ hl₁ (ends_moreText tail rest)
    obtain ⟨l₃, hl₃, htail⟩ := rewrite_more tail l₂ rest hl₂
    refine ⟨l₃, hl₃, ?_⟩
    have hall := hspaces.trans (congrArg _ (congrArg _ (hhead.trans (congrArg _ htail))))
    simpa only [TypeArgs.text, TypeArgs.subst, List.cons_append, List.append_assoc] using hall

theorem rewrite_more (args : TypeArgs) (last : Option Char) (rest : List Char)
    (hlast : atHead last = false) :
    ∃ last', atHead last' = false ∧ rewriteFrom names last (args.moreText ++ rest) =
      (args.subst names).moreText ++ rewriteFrom names last' rest := by
  cases args with
  | nil => exact ⟨some '>', by decide, rewriteFrom_skip names last '>' rest (by simp [hlast])⟩
  | cons spaces head tail =>
    obtain ⟨l₁, hl₁, hspaces⟩ := copy_open names ',' spaces (head.text ++ (tail.moreText ++ rest))
      last (by decide) (by decide)
    obtain ⟨l₂, hl₂, hhead⟩ := rewrite_text head l₁ _ hl₁ (ends_moreText tail rest)
    obtain ⟨l₃, hl₃, htail⟩ := rewrite_more tail l₂ rest hl₂
    refine ⟨l₃, hl₃, ?_⟩
    have hall := hspaces.trans (congrArg _ (congrArg _ (hhead.trans (congrArg _ htail))))
    simpa only [TypeArgs.moreText, TypeArgs.subst, List.cons_append, List.append_assoc] using hall

end

theorem rewrite_render (e : TypeExpr) :
    rewriteNamedTypeAddresses e.render names = (e.subst names).render := by
  obtain ⟨last, _, heq⟩ := rewrite_text names e none [] rfl fun c r h => absurd h (by simp)
  have hnil : rewriteFrom names last [] = [] := by rw [rewriteFrom]
  simp only [List.append_nil, hnil] at heq
  simp only [rewriteNamedTypeAddresses, TypeExpr.render, String.toList_ofList, heq]

/-! ### What the substitution leaves -/

theorem Address.subst_subst (address : Address) :
    (address.subst names).subst names = address.subst names := by
  cases address with
  | numeric n => rfl
  | named i =>
    cases hget : names (String.ofList i.text) with
    | some a => simp only [subst, hget]
    | none => simp only [subst, hget]

mutual

theorem TypeExpr.subst_subst : ∀ e : TypeExpr, (e.subst names).subst names = e.subst names
  | .primitive _ => rfl
  | .vector _ elem => by simp only [TypeExpr.subst, elem.subst_subst]
  | .struct address _ _ args => by
    simp only [TypeExpr.subst, address.subst_subst, args.subst_subst]

theorem TypeArgs.subst_subst : ∀ args : TypeArgs, (args.subst names).subst names = args.subst names
  | .nil => rfl
  | .cons _ head tail => by simp only [TypeArgs.subst, head.subst_subst, tail.subst_subst]

end

mutual

/- With all names replaced, the type has a tag. -/
theorem TypeExpr.Mapped.tag? : ∀ e : TypeExpr, e.Mapped names → ∃ ty, (e.subst names).tag? = some ty
  | .primitive p, _ => ⟨p.tag, rfl⟩
  | .vector _ elem, h => by
    obtain ⟨ty, hty⟩ := TypeExpr.Mapped.tag? elem h
    exact ⟨.vector ty, by simp only [TypeExpr.subst, TypeExpr.tag?, hty, Option.map_some]⟩
  | .struct address _ _ args, h => by
    obtain ⟨haddress, hargs⟩ := h
    obtain ⟨tys, htys⟩ := TypeArgs.Mapped.tags? args hargs
    obtain ⟨a, ha⟩ : ∃ a, (address.subst names).value? = some a := by
      cases address with
      | numeric n => exact ⟨n.value, rfl⟩
      | named i =>
        obtain ⟨a, ha⟩ := Option.isSome_iff_exists.mp haddress
        exact ⟨a, by simp only [Address.subst, ha, Address.value?, canonicalNumeral_value]⟩
    exact ⟨_, by simp only [TypeExpr.subst, TypeExpr.tag?, ha, htys, Option.bind_some,
      Option.map_some]; rfl⟩

theorem TypeArgs.Mapped.tags? : ∀ args : TypeArgs, args.Mapped names →
    ∃ tys, (args.subst names).tags? = some tys
  | .nil, _ => ⟨[], rfl⟩
  | .cons _ head tail, h => by
    obtain ⟨ty, hty⟩ := TypeExpr.Mapped.tag? head h.1
    obtain ⟨tys, htys⟩ := TypeArgs.Mapped.tags? tail h.2
    exact ⟨ty :: tys, by simp only [TypeArgs.subst, TypeArgs.tags?, hty, htys, Option.bind_some,
      Option.map_some]⟩

end

mutual

/- A type that has a tag has no names. -/
theorem TypeExpr.subst_of_tag? : ∀ (e : TypeExpr) (ty : MoveTypeTag), e.tag? = some ty →
    e.subst names = e
  | .primitive _, _, _ => rfl
  | .vector _ elem, ty, h => by
    obtain ⟨t, ht, _⟩ := Option.map_eq_some_iff.mp h
    simp only [TypeExpr.subst, TypeExpr.subst_of_tag? elem t ht]
  | .struct address _ _ args, ty, h => by
    simp only [TypeExpr.tag?, Option.bind_eq_some_iff, Option.map_eq_some_iff] at h
    obtain ⟨a, ha, tys, htys, _⟩ := h
    simp only [TypeExpr.subst, TypeArgs.subst_of_tags? args tys htys]
    cases address with
    | numeric n => rfl
    | named i => exact absurd ha (by simp [Address.value?])

theorem TypeArgs.subst_of_tags? : ∀ (args : TypeArgs) (tys : List MoveTypeTag),
    args.tags? = some tys → args.subst names = args
  | .nil, _, _ => rfl
  | .cons _ head tail, tys, h => by
    simp only [TypeArgs.tags?, Option.bind_eq_some_iff, Option.map_eq_some_iff] at h
    obtain ⟨t, ht, ts, hts, _⟩ := h
    simp only [TypeArgs.subst, TypeExpr.subst_of_tag? head t ht, TypeArgs.subst_of_tags? tail ts hts]

end

end

/- The scan substitutes the mapped names, a second scan changes nothing, and a type whose
names are all mapped resolves to the tag of the substituted type. -/
theorem resolve_named_types (names : String → Option MoveAddress)
    (parse : String → Option MoveTypeTag) (e : TypeExpr) (hraw : parse e.render = e.tag?)
    (hsubst : parse (e.subst names).render = (e.subst names).tag?) :
    rewriteNamedTypeAddresses e.render names = (e.subst names).render ∧
      rewriteNamedTypeAddresses (rewriteNamedTypeAddresses e.render names) names =
        rewriteNamedTypeAddresses e.render names ∧
      (e.Mapped names → ∃ ty, (e.subst names).tag? = some ty ∧
        resolveTypeTag parse e.render names = some ty) := by
  refine ⟨rewrite_render names e, ?_, fun hmapped => ?_⟩
  · rw [rewrite_render, rewrite_render, e.subst_subst]
  · obtain ⟨ty, hty⟩ := TypeExpr.Mapped.tag? names e hmapped
    refine ⟨ty, hty, ?_⟩
    simp only [resolveTypeTag, hraw]
    cases htag : e.tag? with
    | none => simp only [rewrite_render, hsubst, hty]
    | some ty' =>
      rw [TypeExpr.subst_of_tag? names e ty' htag, htag] at hty
      exact hty

/-! ### A coin of a local package -/

def counterIdent : Ident where
  head := 'c'
  tail := ['o', 'u', 'n', 't', 'e', 'r']
  head_ok := by decide
  tail_ok := by decide
  named := by decide

def coinIdent : Ident where
  head := 'c'
  tail := ['o', 'i', 'n']
  head_ok := by decide
  tail_ok := by decide
  named := by decide

def two : Numeral where
  hex := true
  digits := ['2']
  digits_ok := by decide
  nonempty := by decide
  length_le := by decide

/- `0x2::coin::coin<  counter::counter::counter>`. -/
def coinOfCounter : TypeExpr :=
  .struct (.numeric two) coinIdent coinIdent
    (.cons 2 (.struct (.named counterIdent) counterIdent counterIdent .nil) .nil)

def counterMap (name : String) : Option MoveAddress :=
  if name = "counter" then some (ObjectID.ofByte 202) else none

/- The parser on the two texts. -/
def parseCoin (s : String) : Option MoveTypeTag :=
  if s = coinOfCounter.render then none else (coinOfCounter.subst counterMap).tag?

theorem resolve_counter :
    rewriteNamedTypeAddresses coinOfCounter.render counterMap =
        (coinOfCounter.subst counterMap).render ∧
      rewriteNamedTypeAddresses (rewriteNamedTypeAddresses coinOfCounter.render counterMap)
        counterMap = rewriteNamedTypeAddresses coinOfCounter.render counterMap ∧
      (coinOfCounter.Mapped counterMap → ∃ ty, (coinOfCounter.subst counterMap).tag? = some ty ∧
        resolveTypeTag parseCoin coinOfCounter.render counterMap = some ty) := by
  have hne : (coinOfCounter.subst counterMap).text ≠ coinOfCounter.text := by decide
  refine resolve_named_types counterMap parseCoin coinOfCounter ?_ ?_
  · rw [parseCoin, if_pos rfl]
    rfl
  · rw [parseCoin, if_neg]
    exact fun h => hne (by simpa [TypeExpr.render] using congrArg String.toList h)

end Movy.Sui.NamedTypes
