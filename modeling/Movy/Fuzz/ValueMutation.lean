import Movy.Fuzz.ArgMutator
import Movy.Fuzz.ByteViews

/-!
# What the mutation of a value can reach

The magic numbers are written to the buffer of a `MutableValue`, the value is
read back from other bytes. So a magic number is reached only where the override
of its width happens to draw it.
-/

namespace Movy.Fuzz

open Movy.Types Movy.Store MutableValue

/-- What the library documents of its byte mutators: they return after a bounded
number of draws, if the mutation they schedule does. -/
structure ByteMutators.Lawful (lib : ByteMutators) : Prop where
  havoc : ∀ maxStackPow mutation n, (∀ bytes, Choice.Draws n (mutation bytes)) →
    ∃ k, ∀ bytes, Choice.Draws k (lib.havoc maxStackPow mutation bytes)
  dwordInteresting : ∃ n, ∀ bytes, Choice.Draws n (lib.dwordInteresting bytes)

/-- The numbers that are drawn for an integer of so many bytes. -/
def OverrideDraws : ℕ → ℕ → Prop
  | 4, m => m < 443636
  | 8, m => ∃ k < 64, m = 2 ^ k
  | 16, m => ∃ k < 128, m = 2 ^ k
  | _, _ => False

theorem OverrideDraws.width {n m : ℕ} (h : OverrideDraws n m) : n = 4 ∨ n = 8 ∨ n = 16 := by
  unfold OverrideDraws at h
  split at h
  · exact Or.inl rfl
  · exact Or.inr (Or.inl rfl)
  · exact Or.inr (Or.inr rfl)
  · cases h

def Multibyte (v : InputArgument) : Prop := ∃ n k, number v = some (n, k) ∧ 1 < n

/-- A pool entry that has the width of the value, but is not its encoding. -/
def FitsOther (v : InputArgument) (entry : List Byte) : Prop :=
  ∃ bytes, sync v = some bytes ∧ entry.length = bytes.length ∧ entry ≠ bytes

/-- The value with the number that the bytes denote. -/
def Denotes (v : InputArgument) (bytes : List Byte) (w : InputArgument) : Prop :=
  SameShape v w ∧ number w = some (bytes.length, fromLeBytes bytes)

/-- Eight zero bytes are committed to an integer of another width. -/
def Overrun (pool : List (List Byte)) (split : Bool) (v : InputArgument) : Prop :=
  split = true ∧ pool = [] ∧ ∀ n k, number v = some (n, k) → n ≠ 4 ∧ n ≠ 8 ∧ n ≠ 16

/-- The mutation of `v` can reach a magic number, changes nothing when it is
skipped, keeps the variant and does not panic. -/
structure Effective (lib : ByteMutators) (st : FuzzState) (pool : List (List Byte))
    (split : Bool) (v : InputArgument) : Prop where
  reaches : (∃ entry ∈ pool, FitsOther v entry) →
    ∃ entry ∈ pool, FitsOther v entry ∧ ∃ r, Denotes v entry r.2.value ∧
      Choice.Yields (MutableValue.mutate lib st pool split (.new v)) r
  skipped : Choice.Ensures (MutableValue.mutate lib st pool split (.new v)) fun r =>
    r.1 = .skipped → r.2.value = v
  keeps : Choice.Ensures (MutableValue.mutate lib st pool split (.new v)) fun r =>
    SameShape v r.2.value
  safe : Choice.Safe (MutableValue.mutate lib st pool split (.new v))

/-! ### Draws -/

theorem draws_magicNumberMutate (pool : List (List Byte)) (bytes : List Byte) :
    Choice.Draws 1 (magicNumberMutate pool bytes) := by
  unfold magicNumberMutate
  dsimp only
  split_ifs with hempty hfit
  · exact (Choice.draws_pure _).mono (Nat.zero_le 1)
  · exact (Choice.draws_pure _).mono (Nat.zero_le 1)
  · refine Choice.draws_bind 1 0 _ _ (Choice.draws_pick _ fun h => hfit (by rw [h]; rfl)) ?_
    intro magicNumber _
    split_ifs
    · exact Choice.draws_pure _
    · exact Choice.draws_pure _

section

variable (threshold bound : ℕ) (encode : ℕ → List Byte) (res : MutationResult) (bytes : List Byte)

theorem draws_drawNumber : Choice.Draws 2 (drawNumber threshold bound encode res bytes) := by
  refine Choice.draws_bind 1 1 _ _ (Choice.draws_belowOrZero 10) ?_
  intro c _
  split_ifs
  · exact Choice.draws_bind 1 0 _ _ (Choice.draws_belowOrZero bound) fun _ _ =>
      Choice.draws_pure _
  · exact (Choice.draws_pure _).mono (Nat.zero_le 1)

theorem drawNumber_ensures (hbound : bound ≠ 0) :
    Choice.Ensures (drawNumber threshold bound encode res bytes) fun r =>
      r.2 = bytes ∨ r.1 = .mutated ∧ ∃ n < bound, r.2 = encode n := by
  apply Choice.ensures_then
  intro c
  split_ifs
  · refine Choice.ensures_bind _ _ (fun n => n < bound) _ ?_ ?_
    · intro rs n rest hn
      exact Choice.yields_belowOrZero bound n hbound ⟨rs, rest, hn⟩
    · intro n hn
      exact Choice.ensures_pure _ _ (Or.inr ⟨rfl, n, hn, rfl⟩)
  · exact Choice.ensures_pure _ _ (Or.inl rfl)

theorem drawNumber_yields (hthreshold : threshold < 9) (n : ℕ) (hn : n < bound) :
    Choice.Yields (drawNumber threshold bound encode res bytes) (.mutated, encode n) := by
  refine Choice.belowOrZero_yields 10 9 (by omega) _ _ ?_
  rw [if_pos hthreshold]
  exact Choice.belowOrZero_yields bound n hn _ _ ((Choice.yields_pure _ _).mpr rfl)

end

/-! ### The bytes that are committed -/

section

variable (lib : ByteMutators) (pool : List (List Byte)) (split : Bool)

theorem draws_drawBytes (hlib : lib.Lawful) :
    ∃ k, ∀ res bytes buffer, Choice.Draws k (drawBytes lib pool split res bytes buffer) := by
  obtain ⟨n, hdword⟩ := hlib.dwordInteresting
  obtain ⟨k, hhavoc⟩ := hlib.havoc maxStackPow lib.dwordInteresting n hdword
  refine ⟨2 + k, fun res bytes buffer => ?_⟩
  have hnumber : ∀ threshold bound encode, Choice.Draws (2 + k) (do
      let r ← drawNumber threshold bound encode res bytes
      pure (r, buffer)) := fun threshold bound encode =>
    (Choice.draws_bind 2 0 _ _ (draws_drawNumber threshold bound encode res bytes)
      fun _ _ => Choice.draws_pure _).mono (by omega)
  unfold drawBytes
  split_ifs
  · exact hnumber _ _ _
  · exact hnumber _ _ _
  · exact hnumber _ _ _
  · exact (Choice.draws_pure _).mono (Nat.zero_le _)
  · exact (Choice.draws_bind k 0 _ _ (hhavoc buffer) fun _ _ => Choice.draws_pure _).mono (by omega)

theorem drawBytes_ensures (res : MutationResult) (bytes buffer : List Byte)
    (h : ¬ (split = true ∧ pool = [] ∧ bytes.length ≠ 4 ∧ bytes.length ≠ 8 ∧ bytes.length ≠ 16)) :
    Choice.Ensures (drawBytes lib pool split res bytes buffer) fun r =>
      r.1.2 = bytes ∨
        r.1.1 = .mutated ∧ ∃ m, OverrideDraws bytes.length m ∧ r.1.2 = leBytes bytes.length m := by
  have hnumber : ∀ threshold bound encode, bound ≠ 0 →
      (∀ n < bound, ∃ m, OverrideDraws bytes.length m ∧ encode n = leBytes bytes.length m) →
      Choice.Ensures (do
        let r ← drawNumber threshold bound encode res bytes
        pure (r, buffer)) fun r => r.1.2 = bytes ∨
          r.1.1 = .mutated ∧ ∃ m, OverrideDraws bytes.length m ∧ r.1.2 = leBytes bytes.length m := by
    intro threshold bound encode hbound hencode
    refine Choice.ensures_bind _ _ _ _
      (drawNumber_ensures threshold bound encode res bytes hbound) ?_
    intro r hr
    apply Choice.ensures_pure
    rcases hr with hr | ⟨hres, n, hn, hr⟩
    · exact Or.inl hr
    · obtain ⟨m, hm, henc⟩ := hencode n hn
      exact Or.inr ⟨hres, m, hm, hr.trans henc⟩
  unfold drawBytes
  split_ifs with h4 h8 h16 hsplit
  · refine hnumber 0 443636 _ (by omega) fun n hn => ⟨n, ?_, by rw [h4]⟩
    rw [h4]
    exact hn
  · refine hnumber 5 64 _ (by omega) fun n hn => ⟨2 ^ n, ?_, by rw [h8]⟩
    rw [h8]
    exact ⟨n, hn, rfl⟩
  · refine hnumber 0 128 _ (by omega) fun n hn => ⟨2 ^ n, ?_, by rw [h16]⟩
    rw [h16]
    exact ⟨n, hn, rfl⟩
  · rw [Bool.and_eq_true, List.isEmpty_iff] at hsplit
    exact absurd ⟨hsplit.1, hsplit.2, h4, h8, h16⟩ h
  · apply Choice.ensures_then
    intro r
    exact Choice.ensures_pure _ _ (Or.inl rfl)

theorem drawBytes_yields (res : MutationResult) (bytes buffer : List Byte) (m : ℕ)
    (h : OverrideDraws bytes.length m) :
    Choice.Yields (drawBytes lib pool split res bytes buffer)
      ((.mutated, leBytes bytes.length m), buffer) := by
  have hnumber : ∀ threshold bound encode n, threshold < 9 → n < bound →
      Choice.Yields (do
        let r ← drawNumber threshold bound encode res bytes
        pure (r, buffer)) ((.mutated, encode n), buffer) := by
    intro threshold bound encode n hthreshold hn
    obtain ⟨rs, rest, hrun⟩ := drawNumber_yields threshold bound encode res bytes hthreshold n hn
    exact ⟨rs, rest, Choice.bind_eq _ _ rs rest _ hrun⟩
  unfold drawBytes
  split_ifs with h4 h8 h16
  · rw [h4] at h ⊢
    exact hnumber 0 443636 _ m (by omega) h
  · rw [h8] at h ⊢
    obtain ⟨k, hk, rfl⟩ := h
    exact hnumber 5 64 (fun n => leBytes 8 (2 ^ n)) k (by omega) hk
  · rw [h16] at h ⊢
    obtain ⟨k, hk, rfl⟩ := h
    exact hnumber 0 128 (fun n => leBytes 16 (2 ^ n)) k (by omega) hk
  · rcases h.width with h | h | h <;> contradiction
  · rcases h.width with h | h | h <;> contradiction

end

/-! ### The value that is committed -/

section

variable (lib : ByteMutators) (st : FuzzState) (pool : List (List Byte)) (split : Bool)
variable (v : InputArgument) (n k : ℕ)

theorem mutate_multibyte (self : MutableValue) (h : number self.value = some (n, k)) (hn : 1 < n) :
    MutableValue.mutate lib st pool split self = mutateBy lib pool split self := by
  obtain ⟨v, buffer⟩ := self
  cases v with
  | u16 | u32 | u64 | u128 | u256 => rfl
  | u8 x =>
    obtain ⟨rfl, -⟩ := Prod.mk.inj (Option.some.inj h)
    omega
  | bool | address | signer | vector | object => cases h

theorem not_overrun_length (h : number v = some (n, k)) (hover : ¬ Overrun pool split v)
    (bytes : List Byte) (hlen : bytes.length = n) :
    ¬ (split = true ∧ pool = [] ∧ bytes.length ≠ 4 ∧ bytes.length ≠ 8 ∧ bytes.length ≠ 16) := by
  intro hall
  obtain ⟨hsplit, hpool, hwidth⟩ := hall
  refine hover ⟨hsplit, hpool, ?_⟩
  intro n' k' hnk
  rw [h] at hnk
  obtain ⟨rfl, -⟩ := Prod.mk.inj (Option.some.inj hnk)
  rw [hlen] at hwidth
  exact hwidth

theorem commit_bytes (h : number v = some (n, k)) (bytes : List Byte) (hlen : bytes.length = n) :
    ∃ w, commit bytes v = some w ∧ Denotes v bytes w := by
  obtain ⟨w, hcommit, hw, htag⟩ := commit_number bytes v n k h hlen
  refine ⟨w, hcommit, sameShape_number v w ?_ ?_ htag, ?_⟩
  · rw [h]
    rfl
  · rw [hw]
    rfl
  · rw [hw, hlen]

theorem commit_sync_self (h : number v = some (n, k)) : commit (leBytes n k) v = some v := by
  obtain ⟨hsync, hk⟩ := sync_number v n k h
  obtain ⟨w, hcommit, -, hw⟩ := commit_bytes v n k h (leBytes n k) (length_leBytes n k)
  rw [length_leBytes, fromLeBytes_leBytes n k hk] at hw
  rw [hcommit, eq_of_number v w n k h hw]

theorem mutate_commits (h : number v = some (n, k)) (hn : 1 < n)
    (P : MutationResult → List Byte → Prop)
    (hdraw : ∀ res buffer, Choice.Ensures (drawBytes lib pool split res (leBytes n k) buffer)
      fun r => P r.1.1 r.1.2) :
    Choice.Ensures (MutableValue.mutate lib st pool split (.new v)) fun r =>
      ∃ bytes, P r.1 bytes ∧ commit bytes v = some r.2.value := by
  obtain ⟨hsync, -⟩ := sync_number v n k h
  rw [mutate_multibyte lib st pool split n k (.new v) h hn, mutateBy]
  refine Choice.ensures_bind _ _ (fun bytes => bytes = leBytes n k) _
    (Choice.ensures_expect _ _ fun bytes hb => Option.some.inj (hb.symm.trans hsync)) ?_
  rintro bytes rfl
  refine Choice.ensures_then _ _ _ ?_
  intro hall
  obtain ⟨res, buffer⟩ := hall
  refine Choice.ensures_bind _ _ _ _ (hdraw res buffer) ?_
  intro drawn hP
  obtain ⟨⟨res', bytes⟩, buffer'⟩ := drawn
  refine Choice.ensures_bind _ _ (fun w => commit bytes v = some w) _
    (Choice.ensures_expect _ _ fun _ hw => hw) ?_
  intro w hw
  exact Choice.ensures_pure _ _ ⟨bytes, hP, hw⟩

theorem mutate_reaches (hlib : lib.Lawful) (h : number v = some (n, k)) (hn : 1 < n)
    (bytes : List Byte) (w : InputArgument) (hcommit : commit bytes v = some w)
    (hdraw : ∀ res buffer, ∃ r,
      Choice.Yields (drawBytes lib pool split res (leBytes n k) buffer) r ∧ r.1.2 = bytes) :
    ∃ r, Choice.Yields (MutableValue.mutate lib st pool split (.new v)) r ∧ r.2.value = w := by
  obtain ⟨hsync, -⟩ := sync_number v n k h
  obtain ⟨j, hhavoc⟩ := hlib.havoc maxStackPow _ 1 (draws_magicNumberMutate pool)
  rw [mutate_multibyte lib st pool split n k (.new v) h hn, mutateBy]
  refine (Choice.draws_expect (sync v) (by rw [hsync]; rfl)).yields_bind _ _ ?_
  intro written hwritten
  obtain rfl := Option.some.inj ((Choice.yields_expect _ _ hwritten).symm.trans hsync)
  refine (hhavoc _).yields_bind _ _ ?_
  intro buffered _
  obtain ⟨res, buffer⟩ := buffered
  obtain ⟨⟨⟨res', bytes⟩, buffer'⟩, ⟨rs, rest, hrun⟩, rfl⟩ := hdraw res buffer
  refine ⟨(res', ⟨w, buffer'⟩), ⟨rs, rest, ?_⟩, rfl⟩
  refine (Choice.bind_eq _ _ rs rest _ hrun).trans ?_
  refine Choice.bind_eq _ _ rest rest w ?_
  show Choice.expect (commit bytes v) rest = some (w, rest)
  rw [hcommit]
  rfl

theorem mutate_ensures (h : number v = some (n, k)) (hn : 1 < n) (hover : ¬ Overrun pool split v) :
    Choice.Ensures (MutableValue.mutate lib st pool split (.new v)) fun r =>
      r.2.value = v ∨ r.1 = .mutated ∧ ∃ m, OverrideDraws n m ∧ Denotes v (leBytes n m) r.2.value := by
  have hlen : (leBytes n k).length = n := length_leBytes n k
  have hdraw := fun res buffer => drawBytes_ensures lib pool split res (leBytes n k) buffer
    (not_overrun_length pool split v n k h hover _ hlen)
  refine (mutate_commits lib st pool split v n k h hn (fun res bytes => bytes = leBytes n k ∨
    res = .mutated ∧ ∃ m, OverrideDraws (leBytes n k).length m ∧
      bytes = leBytes (leBytes n k).length m) hdraw).mono ?_
  intro r hr
  obtain ⟨bytes, hbytes, hw⟩ := hr
  rcases hbytes with rfl | ⟨hres, m, hm, rfl⟩
  · rw [commit_sync_self v n k h] at hw
    exact Or.inl (Option.some.inj hw).symm
  · rw [hlen] at hm hw
    obtain ⟨w', hcommit, hden⟩ := commit_bytes v n k h (leBytes n m) (length_leBytes n m)
    rw [hcommit] at hw
    rw [← Option.some.inj hw]
    exact Or.inr ⟨hres, m, hm, hden⟩

theorem mutate_yields (hlib : lib.Lawful) (h : number v = some (n, k)) (hn : 1 < n) (m : ℕ)
    (hm : OverrideDraws n m) :
    ∃ r, Choice.Yields (MutableValue.mutate lib st pool split (.new v)) r ∧
      Denotes v (leBytes n m) r.2.value := by
  have hlen : (leBytes n k).length = n := length_leBytes n k
  obtain ⟨w, hcommit, hden⟩ := commit_bytes v n k h (leBytes n m) (length_leBytes n m)
  obtain ⟨r, hyields, hvalue⟩ := mutate_reaches lib st pool split v n k hlib h hn _ w hcommit
    fun res buffer => ⟨_, drawBytes_yields lib pool split res (leBytes n k) buffer m
      (by rw [hlen]; exact hm), by rw [hlen]⟩
  exact ⟨r, hyields, hvalue ▸ hden⟩

theorem mutate_safe (hlib : lib.Lawful) (h : number v = some (n, k)) (hn : 1 < n)
    (hover : ¬ Overrun pool split v) :
    Choice.Safe (MutableValue.mutate lib st pool split (.new v)) := by
  obtain ⟨hsync, -⟩ := sync_number v n k h
  have hlen : (leBytes n k).length = n := length_leBytes n k
  obtain ⟨i, hhavoc⟩ := hlib.havoc maxStackPow _ 1 (draws_magicNumberMutate pool)
  obtain ⟨j, hdraw⟩ := draws_drawBytes lib pool split hlib
  rw [mutate_multibyte lib st pool split n k (.new v) h hn, mutateBy]
  refine (Choice.draws_bind 0 (i + (j + (0 + 0))) _ _
    (Choice.draws_expect (sync v) (by rw [hsync]; rfl)) ?_).safe
  intro bytes hbytes
  obtain rfl := Option.some.inj ((Choice.yields_expect _ _ hbytes).symm.trans hsync)
  refine Choice.draws_bind i _ _ _ (hhavoc _) ?_
  rintro ⟨res, buffer⟩ -
  refine Choice.draws_bind j _ _ _ (hdraw res _ buffer) ?_
  rintro ⟨⟨res', bytes⟩, buffer'⟩ hyields
  have hbytes : bytes.length = n := by
    rcases (drawBytes_ensures lib pool split res (leBytes n k) buffer
      (not_overrun_length pool split v n k h hover _ hlen)).of_yields hyields with
      rfl | ⟨-, m, -, rfl⟩
    · exact hlen
    · rw [length_leBytes, hlen]
  obtain ⟨w, hcommit, -⟩ := commit_bytes v n k h bytes hbytes
  refine Choice.draws_bind 0 0 _ _ (Choice.draws_expect _ ?_) fun _ _ => Choice.draws_pure _
  rw [show commit bytes (MutableValue.new v).value = some w from hcommit]
  rfl

theorem drawBytes_overrun (res : MutationResult) (bytes buffer : List Byte) (hsplit : split = true)
    (hpool : pool = []) (h4 : bytes.length ≠ 4) (h8 : bytes.length ≠ 8) (h16 : bytes.length ≠ 16) :
    drawBytes lib pool split res bytes buffer = pure ((.mutated, leBytes 8 0), buffer) := by
  rw [drawBytes, if_neg h4, if_neg h8, if_neg h16, hsplit, hpool]
  rfl

theorem commit_length (h : number v = some (n, k)) (bytes : List Byte) (w : InputArgument)
    (hw : commit bytes v = some w) : bytes.length = n := by
  cases v with
  | u8 x | u16 x | u32 x | u64 x | u128 x | u256 x =>
    cases h
    simp only [commit, readLe, Option.map_eq_some_iff] at hw
    obtain ⟨m, hm, -⟩ := hw
    split_ifs at hm with hlen
    exact hlen
  | vector | bool | signer | address | object => cases h

/-- Eight bytes do not fit. -/
theorem mutate_overrun (h : number v = some (n, k)) (hn : 1 < n) (hover : Overrun pool split v) :
    ∀ r, ¬ Choice.Yields (MutableValue.mutate lib st pool split (.new v)) r := by
  obtain ⟨hsplit, hpool, hwidth⟩ := hover
  obtain ⟨h4, h8, h16⟩ := hwidth n k h
  have hlen : (leBytes n k).length = n := length_leBytes n k
  have hcommits := mutate_commits lib st pool split v n k h hn (fun _ bytes => bytes = leBytes 8 0)
    fun res buffer => by
      rw [drawBytes_overrun lib pool split res (leBytes n k) buffer hsplit hpool
        (by rw [hlen]; exact h4) (by rw [hlen]; exact h8) (by rw [hlen]; exact h16)]
      exact Choice.ensures_pure _ _ rfl
  have hnone : Choice.Ensures (MutableValue.mutate lib st pool split (.new v)) fun _ => False := by
    refine hcommits.mono ?_
    intro r hr
    obtain ⟨bytes, rfl, hw⟩ := hr
    have hfit := commit_length v n k h _ _ hw
    rw [length_leBytes] at hfit
    exact h8 hfit.symm
  exact fun r hyields => hnone.of_yields hyields

theorem SameShape.refl (v : InputArgument) : SameShape v v := by
  cases v <;> exact ⟨rfl, rfl⟩

theorem drawn_lt (n m : ℕ) (h : OverrideDraws n m) : m < 256 ^ n := by
  rw [pow_256]
  unfold OverrideDraws at h
  split at h
  · exact Nat.lt_trans h (by decide)
  · obtain ⟨i, hi, rfl⟩ := h
    exact Nat.pow_lt_pow_right (Nat.lt_succ_self 1) hi
  · obtain ⟨i, hi, rfl⟩ := h
    exact Nat.pow_lt_pow_right (Nat.lt_succ_self 1) hi
  · cases h

end

/-- Mutation is effective exactly if one of the fitting magic numbers is a number
that is drawn for the width anyway (if there are any), and eight zero bytes are not
forced on another integer than a `u64`. -/
theorem mutate_effective_iff (lib : ByteMutators) (hlib : lib.Lawful) (st : FuzzState)
    (pool : List (List Byte)) (split : Bool) (v : InputArgument) (hv : Multibyte v) :
    Effective lib st pool split v ↔
      ((∃ entry ∈ pool, FitsOther v entry) →
        ∃ entry ∈ pool, FitsOther v entry ∧ OverrideDraws entry.length (fromLeBytes entry)) ∧
      ¬ Overrun pool split v := by
  obtain ⟨n, k, h, hn⟩ := hv
  obtain ⟨hsync, hk⟩ := sync_number v n k h
  constructor
  · intro heff
    have hover : ¬ Overrun pool split v := by
      intro hover
      obtain ⟨r, hyields⟩ := heff.safe.yields
      exact mutate_overrun lib st pool split v n k h hn hover r hyields
    refine ⟨fun hother => ?_, hover⟩
    obtain ⟨entry, hmem, hfits, r, ⟨-, hden⟩, hyields⟩ := heff.reaches hother
    refine ⟨entry, hmem, hfits, ?_⟩
    rcases (mutate_ensures lib st pool split v n k h hn hover).of_yields hyields with
      hsame | ⟨-, m, hm, -, hnum⟩
    · -- the number of the entry would be the value itself
      obtain ⟨bytes, hbytes, -, hne⟩ := hfits
      rw [hsame, h, Option.some.injEq, Prod.mk.injEq] at hden
      rw [hsync, Option.some.injEq] at hbytes
      rw [← hbytes, hden.1, hden.2, leBytes_fromLeBytes] at hne
      exact absurd rfl hne
    · rw [hden, length_leBytes, fromLeBytes_leBytes n m (drawn_lt n m hm), Option.some.injEq,
        Prod.mk.injEq] at hnum
      rw [hnum.1, hnum.2]
      exact hm
  · intro hall
    obtain ⟨hreach, hover⟩ := hall
    have hensures := mutate_ensures lib st pool split v n k h hn hover
    refine ⟨fun hother => ?_, ?_, ?_, mutate_safe lib st pool split v n k hlib h hn hover⟩
    · obtain ⟨entry, hmem, hfits, hdrawn⟩ := hreach hother
      have hlen : entry.length = n := by
        obtain ⟨bytes, hbytes, hlen, -⟩ := hfits
        rw [hsync, Option.some.injEq] at hbytes
        rw [hlen, ← hbytes, length_leBytes]
      rw [hlen] at hdrawn
      obtain ⟨r, hyields, hden⟩ := mutate_yields lib st pool split v n k hlib h hn _ hdrawn
      rw [← hlen, leBytes_fromLeBytes] at hden
      exact ⟨entry, hmem, hfits, r, hden, hyields⟩
    · refine hensures.mono ?_
      rintro r (hr | ⟨hr, -⟩) hskipped
      · exact hr
      · rw [hskipped] at hr
        cases hr
    · refine hensures.mono ?_
      rintro r (hr | ⟨-, m, -, hr, -⟩)
      · rw [hr]
        exact SameShape.refl v
      · exact hr

/-! ### The library's loop -/

def havocLoop (mutation : List Byte → Choice (MutationResult × List Byte)) :
    ℕ → MutationResult → List Byte → Choice (MutationResult × List Byte)
  | 0, res, bytes => pure (res, bytes)
  | n + 1, res, bytes => do
    let _ ← Choice.belowOrZero 1
    let (outcome, bytes) ← mutation bytes
    havocLoop mutation n (if outcome = .mutated then .mutated else res) bytes

/-- At most `2 ^ maxStackPow` rounds, and a buffer without room for four bytes. -/
def stackedMutators : ByteMutators where
  havoc := fun maxStackPow mutation bytes => do
    let p ← Choice.belowOrZero maxStackPow
    havocLoop mutation (2 ^ (1 + p)) .skipped bytes
  dwordInteresting := fun bytes => pure (.skipped, bytes)

theorem draws_havocLoop (mutation : List Byte → Choice (MutationResult × List Byte)) (n : ℕ)
    (h : ∀ bytes, Choice.Draws n (mutation bytes)) (rounds : ℕ) (res : MutationResult)
    (bytes : List Byte) : Choice.Draws (rounds * (1 + n)) (havocLoop mutation rounds res bytes) := by
  induction rounds generalizing res bytes with
  | zero => exact (Choice.draws_pure _).mono (Nat.zero_le _)
  | succ rounds ih =>
    have hstep : Choice.Draws (1 + (n + rounds * (1 + n)))
        (havocLoop mutation (rounds + 1) res bytes) := by
      refine Choice.draws_bind _ _ _ _ (Choice.draws_belowOrZero 1) fun _ _ => ?_
      exact Choice.draws_bind _ _ _ _ (h bytes) fun r _ => ih _ r.2
    refine hstep.mono ?_
    rw [Nat.succ_mul]
    omega

theorem stackedMutators_lawful : stackedMutators.Lawful := by
  refine ⟨fun maxStackPow mutation n h => ?_, 0, fun bytes => Choice.draws_pure _⟩
  refine ⟨1 + 2 ^ (1 + maxStackPow) * (1 + n), fun bytes => ?_⟩
  refine Choice.draws_bind _ _ _ _ (Choice.draws_belowOrZero _) fun p hp => ?_
  have hle : p ≤ maxStackPow := by
    by_cases hzero : maxStackPow = 0
    · subst hzero
      obtain ⟨rs, rest, hrun⟩ := hp
      cases rs with
      | nil => cases hrun
      | cons d rs => cases hrun; exact Nat.le_refl 0
    · exact Nat.le_of_lt (Choice.yields_belowOrZero maxStackPow p hzero hp)
  refine (draws_havocLoop mutation n h _ _ bytes).mono (Nat.mul_le_mul_right _ ?_)
  exact Nat.pow_le_pow_right (by omega) (by omega)

def poolState : FuzzState := FuzzState.ofModule ⟨⟨ObjectID.ofByte 7, "pool"⟩, [], []⟩

theorem mutate_effective_iff_eight :
    stackedMutators.Lawful ∧ Multibyte (.u64 5) ∧
    (Effective stackedMutators poolState [[8, 0, 0, 0, 0, 0, 0, 0]] false (.u64 5) ↔
      ((∃ entry ∈ [[8, 0, 0, 0, 0, 0, 0, 0]], FitsOther (.u64 5) entry) →
        ∃ entry ∈ [[8, 0, 0, 0, 0, 0, 0, 0]],
          FitsOther (.u64 5) entry ∧ OverrideDraws entry.length (fromLeBytes entry)) ∧
      ¬ Overrun [[8, 0, 0, 0, 0, 0, 0, 0]] false (.u64 5)) :=
  have hv : Multibyte (.u64 5) := ⟨8, 5, rfl, by decide⟩
  ⟨stackedMutators_lawful, hv, mutate_effective_iff stackedMutators stackedMutators_lawful
    poolState _ false _ hv⟩

/-- Seven is never written to a `u16`. -/
theorem mutate_u16_ineffective :
    Multibyte (.u16 5) ∧ (∃ entry ∈ [[7, 0]], FitsOther (.u16 5) entry) ∧
      ¬ Effective stackedMutators poolState [[7, 0]] false (.u16 5) := by
  have hfits : ∃ entry ∈ [[7, 0]], FitsOther (.u16 5) entry :=
    ⟨[7, 0], List.mem_singleton.mpr rfl, [5, 0], by decide, rfl, by decide⟩
  refine ⟨⟨2, 5, rfl, by decide⟩, hfits, fun heff => ?_⟩
  obtain ⟨entry, hmem, -, r, ⟨-, hden⟩, hyields⟩ := heff.reaches hfits
  rw [List.mem_singleton.mp hmem] at hden
  rcases (mutate_ensures stackedMutators poolState [[7, 0]] false (.u16 5) 2 5 rfl (by decide)
    fun hover => by cases hover.1).of_yields hyields with hsame | ⟨-, m, hm, -⟩
  · rw [hsame] at hden
    exact absurd hden (by decide)
  · exact hm

end Movy.Fuzz
