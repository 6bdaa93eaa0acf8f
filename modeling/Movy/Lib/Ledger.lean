import Mathlib.Data.List.Basic
import Mathlib.Order.Lattice

/-!
# Ledgers

A ledger writes versions of keys, later ones behind earlier ones, and a key may
also be written as gone. What is asked for is always the last write that passes
some test. So a ledger that has grown answers differently exactly if the test
selects one of the new writes, and that write shows.
-/

namespace Movy.Ledger

structure Write (κ ν α : Type) where
  key : κ
  version : ν
  value : Option α
  deriving DecidableEq

variable {κ ν α : Type}

/-- The last write that passes the test. -/
def lastOf (p : Write κ ν α → Bool) (writes : List (Write κ ν α)) : Option (Write κ ν α) :=
  (writes.filter p).getLast?

/-- What the last such write has left. -/
def valueOf (p : Write κ ν α → Bool) (writes : List (Write κ ν α)) : Option α :=
  (lastOf p writes).bind Write.value

theorem lastOf_append (p : Write κ ν α → Bool) (writes later : List (Write κ ν α)) :
    lastOf p (writes ++ later) = (lastOf p later).or (lastOf p writes) := by
  rw [lastOf, List.filter_append, List.getLast?_append]
  rfl

theorem lastOf_eq_none_iff (p : Write κ ν α → Bool) (writes : List (Write κ ν α)) :
    lastOf p writes = none ↔ ∀ w ∈ writes, p w = false := by
  rw [lastOf, List.getLast?_eq_none_iff, List.filter_eq_nil_iff]
  simp only [Bool.not_eq_true]

theorem mem_of_lastOf (p : Write κ ν α → Bool) (writes : List (Write κ ν α)) (w : Write κ ν α)
    (h : lastOf p writes = some w) : w ∈ writes ∧ p w = true :=
  List.mem_filter.mp (List.mem_of_getLast? h)

theorem valueOf_append (p : Write κ ν α → Bool) (writes later : List (Write κ ν α)) :
    valueOf p (writes ++ later) = match lastOf p later with
      | some w => w.value
      | none => valueOf p writes := by
  rw [valueOf, lastOf_append]
  cases lastOf p later with
  | none => rfl
  | some w => rfl

theorem mem_of_valueOf (p : Write κ ν α → Bool) (writes : List (Write κ ν α)) (a : α)
    (h : valueOf p writes = some a) : ∃ w ∈ writes, p w = true ∧ w.value = some a := by
  obtain ⟨w, hw, ha⟩ := Option.bind_eq_some_iff.mp h
  obtain ⟨hmem, hp⟩ := mem_of_lastOf p writes w hw
  exact ⟨w, hmem, hp, ha⟩

def About (k : κ) (p : Write κ ν α → Bool) : Prop := ∀ w, p w = true → w.key = k

def anyOf [DecidableEq κ] (k : κ) (w : Write κ ν α) : Bool := w.key = k

theorem anyOf_iff [DecidableEq κ] (k : κ) (w : Write κ ν α) : anyOf k w = true ↔ w.key = k := by
  rw [anyOf, decide_eq_true_iff]

theorem about_anyOf [DecidableEq κ] (k : κ) : About k (anyOf k : Write κ ν α → Bool) :=
  fun w h => (anyOf_iff k w).mp h

/-! ### Versions in order -/

variable [LinearOrder ν]

/-- The versions of a key increase. -/
def Ordered (writes : List (Write κ ν α)) : Prop :=
  writes.Pairwise fun a b => a.key = b.key → a.version < b.version

theorem Ordered.append_left {writes later : List (Write κ ν α)} (h : Ordered (writes ++ later)) :
    Ordered writes := (List.pairwise_append.mp h).1

theorem Ordered.lt {writes later : List (Write κ ν α)} (h : Ordered (writes ++ later))
    (a b : Write κ ν α) (ha : a ∈ writes) (hb : b ∈ later) (hkey : a.key = b.key) :
    a.version < b.version := (List.pairwise_append.mp h).2.2 a ha b hb hkey

/-- The last selected write has the greatest version. -/
theorem Ordered.le_lastOf {writes : List (Write κ ν α)} (h : Ordered writes)
    (p : Write κ ν α → Bool) (w w' : Write κ ν α) (hlast : lastOf p writes = some w)
    (hmem : w' ∈ writes) (hp : p w' = true) (hkey : w'.key = w.key) :
    w' = w ∨ w'.version < w.version := by
  obtain ⟨front, hfront⟩ := List.getLast?_eq_some_iff.mp hlast
  have hmem' : w' ∈ front ++ [w] := hfront ▸ List.mem_filter.mpr ⟨hmem, hp⟩
  have hordered : Ordered (front ++ [w]) := hfront ▸ h.sublist List.filter_sublist
  rcases List.mem_append.mp hmem' with hin | hin
  · exact .inr (hordered.lt w' w hin List.mem_cons_self hkey)
  · exact .inl (List.mem_singleton.mp hin)

/-- A version of a key is written once. -/
theorem Ordered.eq_of_version {writes : List (Write κ ν α)} (h : Ordered writes)
    (a b : Write κ ν α) (ha : a ∈ writes) (hb : b ∈ writes) (hkey : a.key = b.key)
    (hversion : a.version = b.version) : a = b := by
  induction writes with
  | nil => cases ha
  | cons w rest ih =>
    obtain ⟨hfirst, hrest⟩ := List.pairwise_cons.mp h
    rcases List.mem_cons.mp ha with hfa | hra
    · rcases List.mem_cons.mp hb with hfb | hrb
      · exact hfa.trans hfb.symm
      · subst hfa
        exact absurd hversion (ne_of_lt (hfirst b hrb hkey))
    · rcases List.mem_cons.mp hb with hfb | hrb
      · subst hfb
        exact absurd hversion.symm (ne_of_lt (hfirst a hra hkey.symm))
      · exact ih hrest hra hrb

def Stamped (stamp : α → κ × ν) (writes : List (Write κ ν α)) : Prop :=
  ∀ w ∈ writes, ∀ a, w.value = some a → stamp a = (w.key, w.version)

/-- The answer of a ledger that has grown is the old one, unless a new write is
selected that shows. -/
theorem valueOf_append_eq_iff (stamp : α → κ × ν) (writes later : List (Write κ ν α))
    (hordered : Ordered (writes ++ later)) (hstamped : Stamped stamp (writes ++ later)) (k : κ)
    (p : Write κ ν α → Bool) (hp : About k p) :
    valueOf p (writes ++ later) = valueOf p writes ↔
      ∀ w, lastOf p later = some w → w.value = none ∧ valueOf p writes = none := by
  rw [valueOf_append]
  cases hlast : lastOf p later with
  | none => simp
  | some w =>
    obtain ⟨hmem, hpw⟩ := mem_of_lastOf p later w hlast
    have hne : ∀ a, w.value = some a → valueOf p writes ≠ some a := by
      intro a ha hold
      obtain ⟨w', hmem', hpw', ha'⟩ := mem_of_valueOf p writes a hold
      have hnew := hstamped w (List.mem_append_right _ hmem) a ha
      rw [hstamped w' (List.mem_append_left _ hmem') a ha'] at hnew
      have hlt := hordered.lt w' w hmem' hmem ((hp w' hpw').trans (hp w hpw).symm)
      exact ne_of_lt hlt (Prod.mk.inj hnew).2
    simp only [Option.some.injEq, forall_eq']
    constructor
    · intro h
      cases hv : w.value with
      | none => exact ⟨rfl, h ▸ hv⟩
      | some a => exact absurd (h ▸ hv) (hne a hv)
    · intro h
      rw [h.1, h.2]

theorem le_of_valueOf (stamp : α → κ × ν) (writes : List (Write κ ν α)) (hordered : Ordered writes)
    (hstamped : Stamped stamp writes) (k : κ) (p : Write κ ν α → Bool) (hp : About k p) (a : α)
    (h : valueOf p writes = some a) (w : Write κ ν α) (hw : w ∈ writes) (hpw : p w = true) :
    w.version ≤ (stamp a).2 := by
  obtain ⟨last, hlast, ha⟩ := Option.bind_eq_some_iff.mp h
  obtain ⟨hmem, hplast⟩ := mem_of_lastOf p writes last hlast
  rw [hstamped last hmem a ha]
  rcases hordered.le_lastOf p last w hlast hw hpw ((hp w hpw).trans (hp last hplast).symm) with
    rfl | hlt
  · exact le_rfl
  · exact le_of_lt hlt

/-- No key is gone that was there before. -/
def NoneGone (writes : List (Write κ ν α)) : Prop :=
  ∀ a ∈ writes, ∀ b ∈ writes, a.key = b.key → a.value ≠ none → b.value = none →
    b.version < a.version

theorem none_of_valueOf (writes : List (Write κ ν α)) (hordered : Ordered writes)
    (hnone : NoneGone writes) (k : κ) (p : Write κ ν α → Bool) (hp : About k p)
    (h : valueOf p writes = none) (w : Write κ ν α) (hw : w ∈ writes) (hpw : p w = true) :
    w.value = none := by
  by_contra hlive
  cases hlast : lastOf p writes with
  | none =>
    have hno := (lastOf_eq_none_iff p writes).mp hlast w hw
    rw [hpw] at hno
    cases hno
  | some last =>
    obtain ⟨hmem, hplast⟩ := mem_of_lastOf p writes last hlast
    rw [valueOf, hlast, Option.bind_some] at h
    have hkey := (hp w hpw).trans (hp last hplast).symm
    rcases hordered.le_lastOf p last w hlast hw hpw hkey with rfl | hlt
    · exact hlive h
    · exact absurd (hnone w hw last hmem hkey hlive h) (not_lt_of_gt hlt)

/-! ### What is asked for -/

variable [DecidableEq κ]

def exactly (k : κ) (v : ν) (w : Write κ ν α) : Bool := w.key = k && w.version = v

def below (k : κ) (b : ν) (w : Write κ ν α) : Bool := w.key = k && w.version ≤ b

theorem exactly_iff (k : κ) (v : ν) (w : Write κ ν α) :
    exactly k v w = true ↔ w.key = k ∧ w.version = v := by
  rw [exactly, Bool.and_eq_true, decide_eq_true_iff, decide_eq_true_iff]

theorem below_iff (k : κ) (b : ν) (w : Write κ ν α) :
    below k b w = true ↔ w.key = k ∧ w.version ≤ b := by
  rw [below, Bool.and_eq_true, decide_eq_true_iff, decide_eq_true_iff]

theorem about_exactly (k : κ) (v : ν) : About k (exactly k v : Write κ ν α → Bool) :=
  fun w h => ((exactly_iff k v w).mp h).1

theorem about_below (k : κ) (b : ν) : About k (below k b : Write κ ν α → Bool) :=
  fun w h => ((below_iff k b w).mp h).1

/-- A version can be asked for by its number. -/
theorem Ordered.valueOf_exactly {writes : List (Write κ ν α)} (h : Ordered writes)
    (w : Write κ ν α) (hw : w ∈ writes) : valueOf (exactly w.key w.version) writes = w.value := by
  rw [valueOf]
  cases hlast : lastOf (exactly w.key w.version) writes with
  | none =>
    have hno := (lastOf_eq_none_iff _ writes).mp hlast w hw
    rw [(exactly_iff _ _ w).mpr ⟨rfl, rfl⟩] at hno
    cases hno
  | some w' =>
    obtain ⟨hmem, hp⟩ := mem_of_lastOf _ writes w' hlast
    obtain ⟨hkey, hversion⟩ := (exactly_iff _ _ w').mp hp
    rw [Option.bind_some, h.eq_of_version w' w hmem hw hkey hversion]

end Movy.Ledger
