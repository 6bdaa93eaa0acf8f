import Mathlib.Data.List.Basic
import Mathlib.Order.Defs.Unbundled

/-!
# Computations that change a state and may fail

A computation takes a state and leaves a state, and has a result or an error.
A failure ends it; what was changed before stays changed.

`Within R x`: whatever comes out, the states before and after are related.
`SucceedsWithin R x`: they are if a result comes out.
-/

namespace Movy

def Failing (ε σ α : Type) : Type := σ → Except ε α × σ

namespace Failing

variable {ε σ α β γ : Type}

protected def pure (a : α) : Failing ε σ α := fun s => (.ok a, s)

protected def bind (x : Failing ε σ α) (f : α → Failing ε σ β) : Failing ε σ β := fun s =>
  match x s with
  | (.ok a, t) => f a t
  | (.error e, t) => (.error e, t)

instance : Monad (Failing ε σ) where
  pure := Failing.pure
  bind := Failing.bind

instance : LawfulMonad (Failing ε σ) := LawfulMonad.mk' (Failing ε σ)
  (fun x => by
    funext s
    show (match x s with
      | (.ok a, t) => (.ok a, t)
      | (.error e, t) => (.error e, t)) = x s
    rcases x s with ⟨_ | _, t⟩ <;> rfl)
  (fun _ _ => rfl)
  (fun x f g => by
    funext s
    show (match (match x s with
        | (.ok a, t) => f a t
        | (.error e, t) => (.error e, t)) with
      | (.ok b, t) => g b t
      | (.error e, t) => (.error e, t)) = (match x s with
        | (.ok a, t) => (f a >>= g) t
        | (.error e, t) => (.error e, t))
    rcases x s with ⟨_ | _, t⟩ <;> rfl)

protected def throw (e : ε) : Failing ε σ α := fun s => (.error e, s)

def lift : Except ε α → Failing ε σ α
  | .ok a => Failing.pure a
  | .error e => Failing.throw e

def orElse (o : Option α) (e : ε) : Failing ε σ α :=
  match o with
  | some a => Failing.pure a
  | none => Failing.throw e

/-- A read that may change the state. -/
def reading (f : σ → α × σ) : Failing ε σ α := fun s => (.ok (f s).1, (f s).2)

def modify (f : σ → σ) : Failing ε σ Unit := fun s => (.ok (), f s)

def mapError {ε' : Type} (f : ε → ε') (x : Failing ε σ α) : Failing ε' σ α := fun s =>
  ((x s).1.mapError f, (x s).2)

/-! ### What happens to the state -/

def Within (R : σ → σ → Prop) (x : Failing ε σ α) : Prop := ∀ s, R s (x s).2

section

variable {R : σ → σ → Prop}

theorem within_pure [Std.Refl R] (a : α) : Within R (Pure.pure a : Failing ε σ α) :=
  fun s => Std.Refl.refl s

theorem within_throw [Std.Refl R] (e : ε) : Within R (Failing.throw e : Failing ε σ α) :=
  fun s => Std.Refl.refl s

theorem within_lift [Std.Refl R] (r : Except ε α) : Within R (lift r : Failing ε σ α) := by
  cases r with
  | ok a => exact within_pure a
  | error e => exact within_throw e

theorem within_orElse [Std.Refl R] (o : Option α) (e : ε) :
    Within R (orElse o e : Failing ε σ α) := by
  cases o with
  | some a => exact within_pure a
  | none => exact within_throw e

theorem within_bind [IsTrans σ R] (x : Failing ε σ α) (f : α → Failing ε σ β) (hx : Within R x)
    (hf : ∀ a, Within R (f a)) : Within R (x >>= f) := by
  intro s
  have hfirst := hx s
  show R s (match x s with
    | (.ok a, t) => f a t
    | (.error e, t) => (.error e, t)).2
  rcases hs : x s with ⟨r, t⟩
  rw [hs] at hfirst
  cases r with
  | ok a => exact IsTrans.trans s t _ hfirst (hf a t)
  | error e => exact hfirst

theorem within_foldlM [Std.Refl R] [IsTrans σ R] (f : β → α → Failing ε σ β) (l : List α)
    (b : β) (hf : ∀ b a, Within R (f b a)) : Within R (l.foldlM f b) := by
  induction l generalizing b with
  | nil => exact within_pure b
  | cons a rest ih =>
    rw [List.foldlM_cons]
    exact within_bind _ _ (hf b a) ih

theorem within_mapM [Std.Refl R] [IsTrans σ R] (f : α → Failing ε σ β) (l : List α)
    (hf : ∀ a, Within R (f a)) : Within R (l.mapM f) := by
  induction l with
  | nil => exact within_pure []
  | cons a rest ih =>
    rw [List.mapM_cons]
    exact within_bind _ _ (hf a) fun b => within_bind _ _ ih fun bs => within_pure (b :: bs)

end

/-! ### What a result satisfies -/

theorem bind_eq_ok (x : Failing ε σ α) (f : α → Failing ε σ β) (s t : σ) (b : β) :
    (x >>= f) s = (.ok b, t) ↔ ∃ a u, x s = (.ok a, u) ∧ f a u = (.ok b, t) := by
  show (match x s with
    | (.ok a, t) => f a t
    | (.error e, t) => (.error e, t)) = (.ok b, t) ↔ _
  rcases hs : x s with ⟨r, u⟩
  cases r with
  | ok a => simp
  | error e => simp

theorem bind_eq_error (x : Failing ε σ α) (f : α → Failing ε σ β) (s t : σ) (e : ε) :
    (x >>= f) s = (.error e, t) ↔
      x s = (.error e, t) ∨ ∃ a u, x s = (.ok a, u) ∧ f a u = (.error e, t) := by
  show (match x s with
    | (.ok a, t) => f a t
    | (.error e, t) => (.error e, t)) = (.error e, t) ↔ _
  rcases hs : x s with ⟨r, u⟩
  cases r with
  | ok a => simp
  | error e => simp

theorem pure_eq_ok (a b : α) (s t : σ) :
    (Pure.pure a : Failing ε σ α) s = (.ok b, t) ↔ a = b ∧ s = t := by
  show ((.ok a, s) : Except ε α × σ) = (.ok b, t) ↔ _
  simp

theorem throw_ne_ok (e : ε) (a : α) (s t : σ) : (Failing.throw e : Failing ε σ α) s ≠ (.ok a, t) := by
  simp [Failing.throw]

theorem lift_eq_ok (r : Except ε α) (a : α) (s t : σ) :
    (lift r : Failing ε σ α) s = (.ok a, t) ↔ r = .ok a ∧ s = t := by
  cases r with
  | ok b => simp [lift, Failing.pure]
  | error e => simp [lift, Failing.throw]

theorem orElse_eq_ok (o : Option α) (e : ε) (a : α) (s t : σ) :
    (orElse o e : Failing ε σ α) s = (.ok a, t) ↔ o = some a ∧ s = t := by
  cases o with
  | some b => simp [orElse, Failing.pure]
  | none => simp [orElse, Failing.throw]

theorem reading_eq_ok (f : σ → α × σ) (a : α) (s t : σ) :
    (reading f : Failing ε σ α) s = (.ok a, t) ↔ f s = (a, t) := by
  rw [reading, Prod.mk.injEq, Except.ok.injEq, Prod.ext_iff]

theorem mapError_eq_ok {ε' : Type} (f : ε → ε') (x : Failing ε σ α) (a : α) (s t : σ) :
    mapError f x s = (.ok a, t) ↔ x s = (.ok a, t) := by
  rcases hx : x s with ⟨r, u⟩
  cases r <;> simp [mapError, hx, Except.mapError]

/-- A loop keeps what each of its rounds keeps. -/
theorem foldlM_keeps (I : β → σ → Prop) (f : β → α → Failing ε σ β) (l : List α) (b b' : β)
    (s t : σ) (hb : I b s) (hf : ∀ b a b' s t, I b s → a ∈ l → f b a s = (.ok b', t) → I b' t)
    (h : l.foldlM f b s = (.ok b', t)) : I b' t := by
  induction l generalizing b s with
  | nil =>
    obtain ⟨rfl, rfl⟩ := (pure_eq_ok b b' s t).mp h
    exact hb
  | cons a rest ih =>
    rw [List.foldlM_cons, bind_eq_ok] at h
    obtain ⟨c, u, hc, hrest⟩ := h
    exact ih c u (hf b a c s u hb List.mem_cons_self hc)
      (fun b a b' s t hI ha => hf b a b' s t hI (List.mem_cons_of_mem _ ha)) hrest

theorem foldlM_eq_ok (P : β → Prop) (f : β → α → Failing ε σ β) (l : List α) (b b' : β)
    (s t : σ) (hb : P b) (hf : ∀ b a b' s t, P b → a ∈ l → f b a s = (.ok b', t) → P b')
    (h : l.foldlM f b s = (.ok b', t)) : P b' :=
  foldlM_keeps (fun b _ => P b) f l b b' s t hb hf h

/-- A loop over checks that do not depend on the state. -/
theorem mapM_orElse_eq_ok (f : α → Option β) (e : ε) (l : List α) (bs : List β) (s t : σ)
    (h : (l.mapM fun a => (orElse (f a) e : Failing ε σ β)) s = (.ok bs, t)) :
    l.mapM f = some bs ∧ s = t := by
  induction l generalizing bs s with
  | nil =>
    obtain ⟨rfl, rfl⟩ := (pure_eq_ok _ _ _ _).mp h
    exact ⟨rfl, rfl⟩
  | cons a rest ih =>
    rw [List.mapM_cons] at h
    obtain ⟨b, u, hfirst, h⟩ := (bind_eq_ok _ _ _ _ _).mp h
    obtain ⟨cs, v, hcs, h⟩ := (bind_eq_ok _ _ _ _ _).mp h
    obtain ⟨rfl, rfl⟩ := (pure_eq_ok _ _ _ _).mp h
    obtain ⟨hb, rfl⟩ := (orElse_eq_ok _ _ _ _ _).mp hfirst
    obtain ⟨hrest, rfl⟩ := ih cs s hcs
    refine ⟨?_, rfl⟩
    rw [List.mapM_cons]
    simp only [hb, hrest, Option.bind_eq_bind, Option.bind_some, Option.pure_def]

/-- A round establishes `P` of its element and keeps it of all others, so a loop
establishes it of the whole list. -/
theorem mapM_establishes (I : σ → Prop) (P : α → σ → Prop) (f : α → Failing ε σ β) (l : List α)
    (bs : List β) (s t : σ) (hs : I s)
    (hf : ∀ a ∈ l, ∀ s b t, I s → f a s = (.ok b, t) → I t ∧ P a t ∧ ∀ c, P c s → P c t)
    (h : l.mapM f s = (.ok bs, t)) : I t ∧ (∀ a ∈ l, P a t) ∧ ∀ c, P c s → P c t := by
  induction l generalizing s bs with
  | nil =>
    obtain ⟨-, rfl⟩ := (pure_eq_ok _ _ _ _).mp h
    exact ⟨hs, fun a ha => absurd ha List.not_mem_nil, fun _ hc => hc⟩
  | cons a rest ih =>
    rw [List.mapM_cons] at h
    obtain ⟨b, u, hb, h⟩ := (bind_eq_ok _ _ _ _ _).mp h
    obtain ⟨cs, v, hcs, h⟩ := (bind_eq_ok _ _ _ _ _).mp h
    obtain ⟨-, rfl⟩ := (pure_eq_ok _ _ _ _).mp h
    obtain ⟨hu, ha, hkeep⟩ := hf a List.mem_cons_self s b u hs hb
    obtain ⟨hv, hrest, hkeep'⟩ := ih cs u hu
      (fun a ha => hf a (List.mem_cons_of_mem _ ha)) hcs
    refine ⟨hv, fun c hc => ?_, fun c hc => hkeep' c (hkeep c hc)⟩
    rcases List.mem_cons.mp hc with rfl | hc
    · exact hkeep' _ ha
    · exact hrest c hc

/-- A loop whose rounds do not fail, and do what a pure function does. -/
theorem foldlM_eq_foldl (I : β → σ → Prop) (f : β → α → Failing ε σ β) (g : β → α → β)
    (l : List α) (b : β) (s : σ) (hs : I b s)
    (hf : ∀ b, ∀ a ∈ l, ∀ s, I b s → ∃ t, f b a s = (.ok (g b a), t) ∧ I (g b a) t) :
    ∃ t, l.foldlM f b s = (.ok (l.foldl g b), t) ∧ I (l.foldl g b) t := by
  induction l generalizing b s with
  | nil => exact ⟨s, (pure_eq_ok b b s s).mpr ⟨rfl, rfl⟩, hs⟩
  | cons a rest ih =>
    obtain ⟨u, hu, hI⟩ := hf b a List.mem_cons_self s hs
    obtain ⟨t, ht, hIt⟩ := ih (g b a) u hI fun b a ha => hf b a (List.mem_cons_of_mem _ ha)
    refine ⟨t, ?_, hIt⟩
    rw [List.foldlM_cons, List.foldl_cons, bind_eq_ok]
    exact ⟨g b a, u, hu, ht⟩

theorem Within.of_ok {R : σ → σ → Prop} {x : Failing ε σ α} (h : Within R x) (s t : σ) (a : α)
    (hx : x s = (.ok a, t)) : R s t := by
  have hs := h s
  rw [hx] at hs
  exact hs

/-- A computation fails within its first step, or goes on with the result of that. -/
theorem bind_cases {R : σ → σ → Prop} {x : Failing ε σ α} (hx : Within R x)
    (f : α → Failing ε σ β) (s : σ) :
    (∃ e t, (x >>= f) s = (.error e, t) ∧ R s t) ∨
      ∃ a t, x s = (.ok a, t) ∧ R s t ∧ (x >>= f) s = f a t := by
  have hs := hx s
  show (∃ e t, (match x s with
    | (.ok a, t) => f a t
    | (.error e, t) => (.error e, t)) = (.error e, t) ∧ R s t) ∨
      ∃ a t, x s = (.ok a, t) ∧ R s t ∧ (match x s with
        | (.ok a, t) => f a t
        | (.error e, t) => (.error e, t)) = f a t
  rcases hx' : x s with ⟨r, t⟩
  rw [hx'] at hs
  cases r with
  | ok a => exact .inr ⟨a, t, rfl, hs, rfl⟩
  | error e => exact .inl ⟨e, t, rfl, hs⟩

/-- The states before and after are related if a result comes out. -/
def SucceedsWithin (R : σ → σ → Prop) (x : Failing ε σ α) : Prop :=
  ∀ s a t, x s = (.ok a, t) → R s t

section

variable {R : σ → σ → Prop}

theorem Within.succeeds {x : Failing ε σ α} (h : Within R x) : SucceedsWithin R x :=
  fun s a t hx => h.of_ok s t a hx

theorem succeeds_bind [IsTrans σ R] (x : Failing ε σ α) (f : α → Failing ε σ β)
    (hx : SucceedsWithin R x) (hf : ∀ a, SucceedsWithin R (f a)) : SucceedsWithin R (x >>= f) := by
  intro s b t h
  obtain ⟨a, u, ha, hrest⟩ := (bind_eq_ok _ _ _ _ _).mp h
  exact IsTrans.trans s u t (hx s a u ha) (hf a u b t hrest)

theorem succeeds_mapError {ε' : Type} (f : ε → ε') (x : Failing ε σ α) (hx : SucceedsWithin R x) :
    SucceedsWithin R (mapError f x) :=
  fun s a t h => hx s a t ((mapError_eq_ok f x a s t).mp h)

theorem succeeds_mapM [Std.Refl R] [IsTrans σ R] (f : α → Failing ε σ β) (l : List α)
    (hf : ∀ a ∈ l, SucceedsWithin R (f a)) : SucceedsWithin R (l.mapM f) := by
  induction l with
  | nil => exact (within_pure []).succeeds
  | cons a rest ih =>
    rw [List.mapM_cons]
    exact succeeds_bind _ _ (hf a List.mem_cons_self) fun b => succeeds_bind _ _
      (ih fun a ha => hf a (List.mem_cons_of_mem _ ha)) fun bs => (within_pure (b :: bs)).succeeds

end

end Failing

end Movy
