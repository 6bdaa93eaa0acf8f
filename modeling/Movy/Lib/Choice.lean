import Mathlib.Data.List.Basic

/-!
# Computations that draw random choices

A randomised procedure takes its choices from a list of numbers. It has no
result (`none`) when it panics, or when the choices run out before it is done;
the second lets a loop that draws until it likes the outcome be a plain
recursion. A statement about all random choices is a statement about all lists.

`Ensures x P` is partial correctness: every result of `x` satisfies `P`.
-/

namespace Movy

def Choice (α : Type) : Type := List ℕ → Option (α × List ℕ)

namespace Choice

variable {α β γ : Type}

def pure (a : α) : Choice α := fun rs => some (a, rs)

def bind (x : Choice α) (f : α → Choice β) : Choice β := fun rs =>
  match x rs with
  | some (a, rest) => f a rest
  | none => none

instance : Monad Choice where
  pure := Choice.pure
  bind := Choice.bind

def panic : Choice α := fun _ => none

def expect : Option α → Choice α
  | some a => Choice.pure a
  | none => panic

/-- A number below `n`, or zero if there is none. -/
def belowOrZero (n : ℕ) : Choice ℕ
  | [] => none
  | d :: rest => some (if n = 0 then 0 else d % n, rest)

/-- A member of a non-empty list. -/
def pick (l : List α) : Choice α := bind (belowOrZero l.length) fun i => expect l[i]?

/-- The first draw below `n` that is not `old`. -/
def otherThan (n old : ℕ) : Choice ℕ
  | [] => none
  | d :: rest => if d % n = old then otherThan n old rest else some (d % n, rest)

/-! ### Results -/

theorem bind_eq_some (x : Choice α) (f : α → Choice β) (rs : List ℕ) (r : β × List ℕ) :
    (x >>= f) rs = some r ↔ ∃ a rest, x rs = some (a, rest) ∧ f a rest = some r := by
  show (match x rs with
    | some (a, rest) => f a rest
    | none => none) = some r ↔ _
  cases hx : x rs with
  | none => simp
  | some p =>
    obtain ⟨a, mid⟩ := p
    constructor
    · intro h
      exact ⟨a, mid, rfl, h⟩
    · intro hall
      obtain ⟨b, rest, hb, h⟩ := hall
      obtain ⟨rfl, rfl⟩ := Prod.mk.inj (Option.some.inj hb)
      exact h

theorem pure_eq_some (a : α) (rs : List ℕ) (r : α × List ℕ) :
    (Pure.pure a : Choice α) rs = some r ↔ r = (a, rs) := by
  show some (a, rs) = some r ↔ _
  rw [Option.some.injEq, eq_comm]

theorem expect_eq_some (o : Option α) (rs : List ℕ) (r : α × List ℕ) :
    expect o rs = some r ↔ o = some r.1 ∧ r.2 = rs := by
  obtain ⟨a, rest⟩ := r
  cases o with
  | none => simp [expect, panic]
  | some b =>
    simp only [expect, Choice.pure, Option.some.injEq, Prod.mk.injEq]
    exact ⟨fun h => ⟨h.1, h.2.symm⟩, fun h => ⟨h.1, h.2.symm⟩⟩

/-! ### Partial correctness -/

def Ensures (x : Choice α) (P : α → Prop) : Prop := ∀ rs a rest, x rs = some (a, rest) → P a

theorem Ensures.mono {x : Choice α} {P Q : α → Prop} (h : Ensures x P) (hPQ : ∀ a, P a → Q a) :
    Ensures x Q := fun rs a rest hx => hPQ a (h rs a rest hx)

theorem ensures_trivial (x : Choice α) : Ensures x fun _ => True := fun _ _ _ _ => trivial

theorem ensures_pure (a : α) (P : α → Prop) (h : P a) : Ensures (Pure.pure a) P := by
  intro rs b rest hx
  obtain ⟨rfl, _⟩ := Prod.mk.inj ((pure_eq_some a rs (b, rest)).mp hx)
  exact h

theorem ensures_panic (P : α → Prop) : Ensures panic P := by
  intro rs a rest hx
  simp [panic] at hx

theorem ensures_expect (o : Option α) (P : α → Prop) (h : ∀ a, o = some a → P a) :
    Ensures (expect o) P := by
  intro rs a rest hx
  exact h a ((expect_eq_some o rs (a, rest)).mp hx).1

/-- The rule of composition: an intermediate assertion. -/
theorem ensures_bind (x : Choice α) (f : α → Choice β) (P : α → Prop) (Q : β → Prop)
    (hx : Ensures x P) (hf : ∀ a, P a → Ensures (f a) Q) : Ensures (x >>= f) Q := by
  intro rs b rest h
  obtain ⟨a, mid, ha, hb⟩ := (bind_eq_some x f rs (b, rest)).mp h
  exact hf a (hx rs a mid ha) mid b rest hb

/-- The rule for a step whose result does not matter. -/
theorem ensures_then (x : Choice α) (f : α → Choice β) (Q : β → Prop)
    (hf : ∀ a, Ensures (f a) Q) : Ensures (x >>= f) Q :=
  ensures_bind x f (fun _ => True) Q (ensures_trivial x) fun a _ => hf a

theorem ensures_pick (l : List α) (P : α → Prop) (h : ∀ a ∈ l, P a) : Ensures (pick l) P := by
  intro rs a rest hx
  obtain ⟨i, mid, _, hi⟩ := (bind_eq_some _ _ rs (a, rest)).mp hx
  exact h a (List.mem_of_getElem? ((expect_eq_some _ mid (a, rest)).mp hi).1)

/-! ### Possible results -/

/-- Some choices lead to the result. -/
def Yields (x : Choice α) (a : α) : Prop := ∃ rs rest, x rs = some (a, rest)

theorem Ensures.of_yields {x : Choice α} {P : α → Prop} {a : α} (h : Ensures x P)
    (hx : Yields x a) : P a := by
  obtain ⟨rs, rest, hrun⟩ := hx
  exact h rs a rest hrun

theorem yields_pure (a b : α) : Yields (Pure.pure a) b ↔ b = a := by
  constructor
  · exact fun h => (ensures_pure a (fun b => b = a) rfl).of_yields h
  · rintro rfl
    exact ⟨[], [], rfl⟩

theorem not_yields_panic (a : α) : ¬ Yields panic a := by
  intro hall
  obtain ⟨rs, rest, h⟩ := hall
  simp [panic] at h

theorem yields_expect (o : Option α) (a : α) (h : Yields (expect o) a) : o = some a :=
  (ensures_expect o (fun a => o = some a) fun _ h => h).of_yields h

theorem yields_bind (x : Choice α) (f : α → Choice β) (b : β) (h : Yields (x >>= f) b) :
    ∃ a, Yields x a ∧ Yields (f a) b := by
  obtain ⟨rs, rest, hrun⟩ := h
  obtain ⟨a, mid, ha, hb⟩ := (bind_eq_some x f rs (b, rest)).mp hrun
  exact ⟨a, ⟨rs, mid, ha⟩, mid, rest, hb⟩

/-- A step that is taken or passed over, and what comes after it. -/
theorem yields_ite_bind (p : Prop) [Decidable p] (x : Choice α) (a : α) (f : α → Choice β) (b : β)
    (h : Yields (if p then x >>= f else Pure.pure a >>= f) b) :
    ∃ r, (Yields x r ∨ r = a) ∧ Yields (f r) b := by
  split_ifs at h
  · obtain ⟨r, hr, h⟩ := yields_bind _ _ _ h
    exact ⟨r, .inl hr, h⟩
  · obtain ⟨r, hr, h⟩ := yields_bind _ _ _ h
    exact ⟨r, .inr ((yields_pure _ _).mp hr), h⟩

theorem yields_belowOrZero (n i : ℕ) (hn : n ≠ 0) (h : Yields (belowOrZero n) i) : i < n := by
  obtain ⟨rs, rest, hrun⟩ := h
  cases rs with
  | nil => cases hrun
  | cons d rs =>
    simp only [belowOrZero, if_neg hn, Option.some.injEq, Prod.mk.injEq] at hrun
    rw [← hrun.1]
    exact Nat.mod_lt d (Nat.pos_of_ne_zero hn)

theorem yields_pick (l : List α) (a : α) (h : Yields (pick l) a) : a ∈ l :=
  (ensures_pick l (fun a => a ∈ l) fun _ h => h).of_yields h

/-! ### Panics

A computation is safe if it has a result as long as it is given enough choices. -/

def Safe (x : Choice α) : Prop := ∃ n, ∀ rs : List ℕ, n ≤ rs.length → (x rs).isSome = true

theorem Safe.yields {x : Choice α} (h : Safe x) : ∃ a, Yields x a := by
  obtain ⟨n, hn⟩ := h
  obtain ⟨⟨a, rest⟩, hrun⟩ := Option.isSome_iff_exists.mp
    (hn (List.replicate n 0) (Nat.le_of_eq List.length_replicate.symm))
  exact ⟨a, _, rest, hrun⟩

theorem bind_eq (x : Choice α) (f : α → Choice β) (rs mid : List ℕ) (a : α)
    (h : x rs = some (a, mid)) : (x >>= f) rs = f a mid := by
  show (match x rs with
    | some (a, rest) => f a rest
    | none => none) = f a mid
  rw [h]

theorem pick_cons (l : List α) (hl : l ≠ []) (d : ℕ) (rest : List ℕ) :
    ∃ a ∈ l, pick l (d :: rest) = some (a, rest) := by
  have hlen : l.length ≠ 0 := fun h => hl (List.length_eq_zero_iff.mp h)
  have hlt : d % l.length < l.length := Nat.mod_lt _ (Nat.pos_of_ne_zero hlen)
  refine ⟨l[d % l.length], List.getElem_mem hlt, ?_⟩
  show (match belowOrZero l.length (d :: rest) with
    | some (i, rest) => expect l[i]? rest
    | none => none) = _
  simp only [belowOrZero, if_neg hlen, List.getElem?_eq_getElem hlt, expect, Choice.pure]

/-- Every member can be drawn. -/
theorem pick_of_mem (l : List α) (a : α) (ha : a ∈ l) :
    ∃ d, ∀ rest, pick l (d :: rest) = some (a, rest) := by
  obtain ⟨i, hi⟩ := List.mem_iff_getElem?.mp ha
  obtain ⟨hlt, -⟩ := List.getElem?_eq_some_iff.mp hi
  have hlen : l.length ≠ 0 := by omega
  refine ⟨i, fun rest => ?_⟩
  show (match belowOrZero l.length (i :: rest) with
    | some (i, rest) => expect l[i]? rest
    | none => none) = _
  simp only [belowOrZero, if_neg hlen, Nat.mod_eq_of_lt hlt, hi, expect, Choice.pure]

/-! ### Bounded draws

A computation that looks at no more than `n` choices, whatever they are, and
leaves the others for what comes after it. -/

def Draws (n : ℕ) (x : Choice α) : Prop :=
  ∀ rs : List ℕ, n ≤ rs.length →
    ∃ a k, k ≤ n ∧ ∀ rest, x (rs.take k ++ rest) = some (a, rest)

theorem Draws.mono {n m : ℕ} {x : Choice α} (h : Draws n x) (hnm : n ≤ m) : Draws m x := by
  intro rs hlen
  obtain ⟨a, k, hk, hx⟩ := h rs (Nat.le_trans hnm hlen)
  exact ⟨a, k, Nat.le_trans hk hnm, hx⟩

theorem draws_pure (a : α) : Draws 0 (Pure.pure a : Choice α) :=
  fun _ _ => ⟨a, 0, Nat.le_refl 0, fun _ => rfl⟩

theorem draws_expect (o : Option α) (h : o.isSome = true) : Draws 0 (expect o) := by
  obtain ⟨a, rfl⟩ := Option.isSome_iff_exists.mp h
  exact draws_pure a

theorem draws_belowOrZero (n : ℕ) : Draws 1 (belowOrZero n) := by
  intro rs hlen
  cases rs with
  | nil => cases hlen
  | cons d rs => exact ⟨if n = 0 then 0 else d % n, 1, Nat.le_refl 1, fun _ => rfl⟩

theorem draws_bind (n m : ℕ) (x : Choice α) (f : α → Choice β) (hx : Draws n x)
    (hf : ∀ a, Yields x a → Draws m (f a)) : Draws (n + m) (x >>= f) := by
  intro rs hlen
  obtain ⟨a, k, hk, ha⟩ := hx rs (by omega)
  have hdrop : m ≤ (rs.drop k).length := by
    rw [List.length_drop]
    omega
  obtain ⟨b, l, hl, hb⟩ := hf a ⟨_, [], ha []⟩ (rs.drop k) hdrop
  refine ⟨b, k + l, Nat.add_le_add hk hl, fun rest => ?_⟩
  rw [List.take_add, List.append_assoc, bind_eq x f _ _ a (ha _), hb]

theorem draws_pick (l : List α) (hl : l ≠ []) : Draws 1 (pick l) := by
  intro rs hlen
  cases rs with
  | nil => cases hlen
  | cons d rs =>
    obtain ⟨a, _, ha⟩ := pick_cons l hl d []
    refine ⟨a, 1, Nat.le_refl 1, fun rest => ?_⟩
    obtain ⟨b, _, hb⟩ := pick_cons l hl d rest
    have hab : b = a := by
      obtain ⟨i, mid, hi, hget⟩ := (bind_eq_some _ _ _ _).mp ha
      obtain ⟨j, mid', hj, hget'⟩ := (bind_eq_some _ _ _ _).mp hb
      simp only [belowOrZero, Option.some.injEq, Prod.mk.injEq] at hi hj
      rw [← hi.1] at hget
      rw [← hj.1] at hget'
      exact Option.some.inj (((expect_eq_some _ _ _).mp hget').1.symm.trans
        ((expect_eq_some _ _ _).mp hget).1)
    rw [← hab]
    exact hb

theorem Draws.safe {n : ℕ} {x : Choice α} (h : Draws n x) : Safe x := by
  refine ⟨n, fun rs hlen => ?_⟩
  obtain ⟨a, k, _, hx⟩ := h rs hlen
  have hrun := hx (rs.drop k)
  rw [List.take_append_drop] at hrun
  rw [hrun]
  rfl

/-- What comes after bounded draws can still have any of its results. -/
theorem Draws.yields_bind {n : ℕ} {x : Choice α} (h : Draws n x) (f : α → Choice β)
    (P : β → Prop) (hf : ∀ a, Yields x a → ∃ b, Yields (f a) b ∧ P b) :
    ∃ b, Yields (x >>= f) b ∧ P b := by
  obtain ⟨a, k, _, hx⟩ := h (List.replicate n 0) (Nat.le_of_eq List.length_replicate.symm)
  obtain ⟨b, ⟨rs, rest, hb⟩, hP⟩ := hf a ⟨_, [], hx []⟩
  exact ⟨b, ⟨_, rest, (bind_eq x f _ _ a (hx rs)).trans hb⟩, hP⟩

/-- Every number below the bound can be drawn. -/
theorem belowOrZero_yields (n i : ℕ) (hi : i < n) (f : ℕ → Choice β) (b : β)
    (h : Yields (f i) b) : Yields (belowOrZero n >>= f) b := by
  obtain ⟨rs, rest, hrun⟩ := h
  have hdraw : belowOrZero n (i :: rs) = some (i, rs) := by
    rw [belowOrZero, if_neg (by omega), Nat.mod_eq_of_lt hi]
  exact ⟨i :: rs, rest, (bind_eq _ f _ _ i hdraw).trans hrun⟩

/-! ### Refinement -/

/-- Every result of `x` is a result of `y` with the same choices. -/
def Refines (x y : Choice α) : Prop := ∀ rs r, x rs = some r → y rs = some r

theorem Refines.refl (x : Choice α) : Refines x x := fun _ _ h => h

theorem panic_refines (x : Choice α) : Refines panic x := by
  intro rs r h
  simp [panic] at h

theorem refines_bind (x y : Choice α) (f g : α → Choice β) (hxy : Refines x y)
    (hfg : ∀ a, Refines (f a) (g a)) : Refines (x >>= f) (y >>= g) := by
  intro rs r h
  obtain ⟨a, mid, ha, hr⟩ := (bind_eq_some x f rs r).mp h
  exact (bind_eq_some y g rs r).mpr ⟨a, mid, hxy rs _ ha, hfg a mid r hr⟩

/-- Two computations that start with the same step. -/
theorem refines_then (x : Choice α) (f g : α → Choice β) (hfg : ∀ a, Refines (f a) (g a)) :
    Refines (x >>= f) (x >>= g) := refines_bind x x f g (Refines.refl x) hfg

/-! ### Computations that are cut off -/

/-- `x` follows `y` up to results that satisfy `P`. -/
def Cuts (x y : Choice α) (P : α → Prop) : Prop :=
  ∀ rs a rest, y rs = some (a, rest) → x rs = some (a, rest) ∨ P a

theorem cuts_refl (x : Choice α) (P : α → Prop) : Cuts x x P := fun _ _ _ h => Or.inl h

/-- After the cut, the rest of `y` has to keep what was reached. -/
theorem cuts_bind (x y : Choice α) (f g : α → Choice β) (P : α → Prop) (Q : β → Prop)
    (hxy : Cuts x y P) (hfg : ∀ a, Yields y a → Cuts (f a) (g a) Q)
    (hg : ∀ a, P a → Ensures (g a) Q) :
    Cuts (x >>= f) (y >>= g) Q := by
  intro rs b rest h
  obtain ⟨a, mid, ha, hb⟩ := (bind_eq_some y g rs (b, rest)).mp h
  rcases hxy rs a mid ha with hx | hP
  · rcases hfg a ⟨rs, mid, ha⟩ mid b rest hb with hf | hQ
    · exact Or.inl ((bind_eq x f rs mid a hx).trans hf)
    · exact Or.inr hQ
  · exact Or.inr (hg a hP mid b rest hb)

theorem cuts_then (x : Choice α) (f g : α → Choice β) (Q : β → Prop)
    (hfg : ∀ a, Cuts (f a) (g a) Q) : Cuts (x >>= f) (x >>= g) Q :=
  cuts_bind x x f g (fun _ => False) Q (cuts_refl x _) (fun a _ => hfg a) fun _ h => h.elim

/-- `x` follows `y` up to results that are larger than `y` has to get. -/
structure CutsAbove (x y : Choice α) (k : ℕ) (size : α → ℕ) : Prop where
  least : Ensures y fun a => k ≤ size a
  cuts : Cuts x y fun a => k < size a

theorem cutsAbove_pure (a : α) (k : ℕ) (size : α → ℕ) (h : k ≤ size a) :
    CutsAbove (Pure.pure a) (Pure.pure a) k size :=
  ⟨ensures_pure _ _ h, cuts_refl _ _⟩

theorem cutsAbove_panic (k : ℕ) (size : α → ℕ) : CutsAbove panic panic k size :=
  ⟨ensures_panic _, cuts_refl _ _⟩

theorem cutsAbove_bind (x y : Choice α) (f g : α → Choice β) (k m : ℕ) (size : α → ℕ)
    (size' : β → ℕ) (hxy : CutsAbove x y k size)
    (hfg : ∀ a, Yields y a → CutsAbove (f a) (g a) (size a + m) size') :
    CutsAbove (x >>= f) (y >>= g) (k + m) size' where
  least := by
    intro rs b rest h
    obtain ⟨a, mid, ha, hb⟩ := (bind_eq_some y g rs (b, rest)).mp h
    have hsize := hxy.least rs a mid ha
    have hsize' := (hfg a ⟨rs, mid, ha⟩).least mid b rest hb
    omega
  cuts := by
    intro rs b rest h
    obtain ⟨a, mid, ha, hb⟩ := (bind_eq_some y g rs (b, rest)).mp h
    have hrest := hfg a ⟨rs, mid, ha⟩
    rcases hxy.cuts rs a mid ha with hx | hcut
    · rcases hrest.cuts mid b rest hb with hf | hcut
      · exact Or.inl ((bind_eq x f rs mid a hx).trans hf)
      · have hsize := hxy.least rs a mid ha
        exact Or.inr (by omega)
    · have hsize' := hrest.least mid b rest hb
      exact Or.inr (by omega)

theorem cutsAbove_then (x : Choice α) (f g : α → Choice β) (k : ℕ) (size : β → ℕ)
    (hfg : ∀ a, Yields x a → CutsAbove (f a) (g a) k size) :
    CutsAbove (x >>= f) (x >>= g) k size := by
  have h := cutsAbove_bind x x f g 0 k (fun _ => 0) size
    ⟨fun _ _ _ _ => Nat.le_refl _, cuts_refl _ _⟩ fun a ha => by
      rw [Nat.zero_add]
      exact hfg a ha
  rwa [Nat.zero_add] at h

end Choice

end Movy
