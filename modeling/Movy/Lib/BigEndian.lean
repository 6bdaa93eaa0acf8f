import Mathlib.Data.List.Lex
import Mathlib.Order.Fin.Basic
import Mathlib.Algebra.Order.Ring.Nat

/-!
# Big-endian byte strings

Fixed-width big-endian encodings, ordered as byte strings: the byte order of
two encodings of one width is the numeric order of the values, and a common
front part of two keys does not matter.
-/

namespace Movy

/-- The `n` base-256 digits of `v`, most significant first. -/
def beBytes : ℕ → ℕ → List (Fin 256)
  | 0, _ => []
  | n + 1, v => ⟨v / 256 ^ n % 256, Nat.mod_lt _ (by decide)⟩ :: beBytes n (v % 256 ^ n)

def beValue : List (Fin 256) → ℕ
  | [] => 0
  | b :: bs => b.val * 256 ^ bs.length + beValue bs

theorem length_beBytes (n v : ℕ) : (beBytes n v).length = n := by
  induction n generalizing v with
  | zero => rfl
  | succ n ih => simp only [beBytes, List.length_cons, ih]

theorem beValue_beBytes (n v : ℕ) (h : v < 256 ^ n) : beValue (beBytes n v) = v := by
  induction n generalizing v with
  | zero =>
    simp only [pow_zero] at h
    simp only [beBytes, beValue]
    omega
  | succ n ih =>
    have hpos : 0 < 256 ^ n := Nat.pow_pos (by decide)
    have hq : v / 256 ^ n < 256 := by
      apply Nat.div_lt_of_lt_mul
      rw [pow_succ] at h
      omega
    simp only [beBytes, beValue, length_beBytes, ih _ (Nat.mod_lt _ hpos), Nat.mod_eq_of_lt hq]
    have hd := Nat.div_add_mod v (256 ^ n)
    rw [Nat.mul_comm] at hd
    exact hd

theorem beValue_lt (l : List (Fin 256)) : beValue l < 256 ^ l.length := by
  induction l with
  | nil => simp [beValue]
  | cons b l ih =>
    have hb : b.val * 256 ^ l.length ≤ 255 * 256 ^ l.length :=
      Nat.mul_le_mul_right _ (Nat.le_of_lt_succ b.isLt)
    simp only [beValue, List.length_cons, pow_succ]
    omega

theorem beBytes_beValue (l : List (Fin 256)) : beBytes l.length (beValue l) = l := by
  induction l with
  | nil => rfl
  | cons b l ih =>
    have hlt := beValue_lt l
    have hpos : 0 < 256 ^ l.length := Nat.pow_pos (by decide)
    have hdiv : (b.val * 256 ^ l.length + beValue l) / 256 ^ l.length = b.val := by
      rw [Nat.mul_comm, Nat.mul_add_div hpos, Nat.div_eq_of_lt hlt, Nat.add_zero]
    have hmod : (b.val * 256 ^ l.length + beValue l) % 256 ^ l.length = beValue l := by
      rw [Nat.mul_comm, Nat.mul_add_mod, Nat.mod_eq_of_lt hlt]
    simp only [List.length_cons, beBytes, beValue, hdiv, hmod, ih, Nat.mod_eq_of_lt b.isLt]

theorem beBytes_lt_iff (n v w : ℕ) (hv : v < 256 ^ n) (hw : w < 256 ^ n) :
    beBytes n v < beBytes n w ↔ v < w := by
  induction n generalizing v w with
  | zero =>
    simp only [pow_zero] at hv hw
    simp only [beBytes, lt_irrefl, false_iff]
    omega
  | succ n ih =>
    have hpos : 0 < 256 ^ n := Nat.pow_pos (by decide)
    have hqv : v / 256 ^ n < 256 := Nat.div_lt_of_lt_mul (by rw [pow_succ] at hv; omega)
    have hqw : w / 256 ^ n < 256 := Nat.div_lt_of_lt_mul (by rw [pow_succ] at hw; omega)
    have hdv := Nat.div_add_mod v (256 ^ n)
    have hdw := Nat.div_add_mod w (256 ^ n)
    have hmv := Nat.mod_lt v hpos
    have hmw := Nat.mod_lt w hpos
    simp only [beBytes, List.cons_lt_cons_iff, Fin.lt_def, Fin.ext_iff, Nat.mod_eq_of_lt hqv,
      Nat.mod_eq_of_lt hqw, ih _ _ hmv hmw]
    generalize v / 256 ^ n = a at hdv hqv ⊢
    generalize w / 256 ^ n = b at hdw hqw ⊢
    generalize v % 256 ^ n = c at hdv hmv ⊢
    generalize w % 256 ^ n = d at hdw hmw ⊢
    generalize 256 ^ n = p at hdv hdw hmv hmw hpos
    rw [← hdv, ← hdw]
    constructor
    · rintro (h | ⟨h, h'⟩)
      · have hab : p * (a + 1) ≤ p * b := Nat.mul_le_mul_left p h
        rw [Nat.mul_add, Nat.mul_one] at hab
        omega
      · rw [h]
        omega
    · intro h
      rcases lt_trichotomy a b with hab | hab | hab
      · exact Or.inl hab
      · rw [hab] at h
        exact Or.inr ⟨hab, by omega⟩
      · have hba : p * (b + 1) ≤ p * a := Nat.mul_le_mul_left p hab
        rw [Nat.mul_add, Nat.mul_one] at hba
        omega

theorem beBytes_injective (n v w : ℕ) (hv : v < 256 ^ n) (hw : w < 256 ^ n)
    (h : beBytes n v = beBytes n w) : v = w := by
  have he := congrArg beValue h
  rwa [beValue_beBytes n v hv, beValue_beBytes n w hw] at he

/-! ### Keys made of an equally long front part and a rest -/

theorem append_lt_append_iff {α : Type} [LinearOrder α] (a b x y : List α)
    (h : a.length = b.length) : a ++ x < b ++ y ↔ a < b ∨ a = b ∧ x < y := by
  induction a generalizing b with
  | nil =>
    have hb : b = [] := List.eq_nil_of_length_eq_zero h.symm
    simp [hb]
  | cons c cs ih =>
    cases b with
    | nil => simp at h
    | cons d ds =>
      have hl : cs.length = ds.length := by simpa using h
      simp only [List.cons_append, List.cons_lt_cons_iff, ih ds hl, List.cons.injEq]
      constructor
      · rintro (h1 | ⟨h1, h2 | ⟨h2, h3⟩⟩)
        · exact Or.inl (Or.inl h1)
        · exact Or.inl (Or.inr ⟨h1, h2⟩)
        · exact Or.inr ⟨⟨h1, h2⟩, h3⟩
      · rintro ((h1 | ⟨h1, h2⟩) | ⟨⟨h1, h2⟩, h3⟩)
        · exact Or.inl h1
        · exact Or.inr ⟨h1, Or.inl h2⟩
        · exact Or.inr ⟨h1, Or.inr ⟨h2, h3⟩⟩

theorem isPrefixOf_append_iff {α : Type} [DecidableEq α] (a b x : List α)
    (h : a.length = b.length) : a.isPrefixOf (b ++ x) = true ↔ a = b := by
  rw [List.isPrefixOf_iff_prefix]
  constructor
  · intro hall
    obtain ⟨t, ht⟩ := hall
    exact (List.append_inj ht h).1
  · rintro rfl
    exact List.prefix_append a x

/-! ### Reading a sorted list up to the first failure of a test -/

/-- A test that, along a sorted list, holds on an initial segment. -/
theorem takeWhile_eq_filter {α : Type} (r : α → α → Prop) (p : α → Bool) (l : List α)
    (hs : l.Pairwise r) (hd : ∀ a ∈ l, ∀ b ∈ l, r a b → p b = true → p a = true) :
    l.takeWhile p = l.filter p := by
  induction l with
  | nil => rfl
  | cons a as ih =>
    obtain ⟨ha, has⟩ := List.pairwise_cons.mp hs
    have hrest := ih has fun x hx y hy =>
      hd x (List.mem_cons_of_mem _ hx) y (List.mem_cons_of_mem _ hy)
    cases hp : p a with
    | true => simp only [List.takeWhile_cons, List.filter_cons, hp, if_true, hrest]
    | false =>
      have hnone : as.filter p = [] := by
        refine List.filter_eq_nil_iff.mpr ?_
        intro b hb hpb
        have h := hd a (List.mem_cons_self ..) b (List.mem_cons_of_mem _ hb) (ha b hb) hpb
        rw [hp] at h
        simp at h
      simp only [List.takeWhile_cons, List.filter_cons, hp, hnone]
      rfl

end Movy
