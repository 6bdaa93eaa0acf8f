import Mathlib.Data.List.Basic

/-!
# Runs of a partial step function

A component that takes one input at a time and may panic: `step s i = none`.
A run feeds it a list of inputs. `Along` says that every step of a run meets
a guard in the state it starts from.
-/

namespace Movy

variable {σ ι τ : Type}

def run (step : σ → ι → Option σ) : σ → List ι → Option σ
  | s, [] => some s
  | s, i :: rest => (step s i).bind fun next => run step next rest

def Along (step : σ → ι → Option σ) (G : σ → ι → Prop) : σ → List ι → Prop
  | _, [] => True
  | s, i :: rest => G s i ∧ ∀ next, step s i = some next → Along step G next rest

theorem run_cons (step : σ → ι → Option σ) (s t : σ) (i : ι) (rest : List ι)
    (h : run step s (i :: rest) = some t) :
    ∃ next, step s i = some next ∧ run step next rest = some t := by
  simp only [run] at h
  exact Option.bind_eq_some_iff.mp h

theorem run_append (step : σ → ι → Option σ) (s : σ) (l m : List ι) :
    run step s (l ++ m) = (run step s l).bind fun next => run step next m := by
  induction l generalizing s with
  | nil => rfl
  | cons i rest ih =>
    simp only [List.cons_append, run]
    cases hs : step s i with
    | none => rfl
    | some next => simp only [Option.bind_some, ih]

/-- The invariant rule: what every guarded step preserves holds at the end of
every guarded run. -/
theorem run_invariant (step : σ → ι → Option σ) (G : σ → ι → Prop) (P : σ → Prop)
    (hstep : ∀ s i next, P s → G s i → step s i = some next → P next)
    (s t : σ) (l : List ι) (hP : P s) (hG : Along step G s l) (h : run step s l = some t) :
    P t := by
  induction l generalizing s with
  | nil => exact Option.some.inj h ▸ hP
  | cons i rest ih =>
    obtain ⟨next, hn, hrest⟩ := run_cons step s t i rest h
    exact ih next (hstep s i next hP hG.1 hn) (hG.2 next hn) hrest

theorem along_of_forall (step : σ → ι → Option σ) (G : σ → ι → Prop) (s : σ) (l : List ι)
    (h : ∀ i ∈ l, ∀ s, G s i) : Along step G s l := by
  induction l generalizing s with
  | nil => trivial
  | cons i rest ih =>
    exact ⟨h i (List.mem_cons_self ..) s,
      fun next _ => ih next fun j hj => h j (List.mem_cons_of_mem _ hj)⟩

theorem along_append (step : σ → ι → Option σ) (G : σ → ι → Prop) (s t : σ) (l m : List ι)
    (h : run step s l = some t) :
    Along step G s (l ++ m) ↔ Along step G s l ∧ Along step G t m := by
  induction l generalizing s with
  | nil =>
    obtain rfl := Option.some.inj h
    exact (iff_of_eq (true_and _)).symm
  | cons i rest ih =>
    obtain ⟨next, hn, hrest⟩ := run_cons step s t i rest h
    have ih := ih next hrest
    simp only [List.cons_append, Along, hn, Option.some.injEq, forall_eq', ih, and_assoc]

/-- The simulation rule: if every guarded step of one component is matched by
the other, so is every guarded run. -/
theorem run_simulation (f : σ → ι → Option σ) (g : τ → ι → Option τ) (G : σ → ι → Prop)
    (R : σ → τ → Prop)
    (hstep : ∀ s t i next, R s t → G s i → f s i = some next →
      ∃ next', g t i = some next' ∧ R next next')
    (s s' : σ) (t : τ) (l : List ι) (hR : R s t) (hG : Along f G s l)
    (h : run f s l = some s') : ∃ t', run g t l = some t' ∧ R s' t' := by
  induction l generalizing s t with
  | nil => exact ⟨t, rfl, Option.some.inj h ▸ hR⟩
  | cons i rest ih =>
    obtain ⟨next, hn, hrest⟩ := run_cons f s s' i rest h
    obtain ⟨next', hn', hR'⟩ := hstep s t i next hR hG.1 hn
    obtain ⟨t', ht', hfin⟩ := ih next next' hR' (hG.2 next hn) hrest
    exact ⟨t', by simp only [run, hn', Option.bind_some, ht'], hfin⟩

/-- Two components that are fed the same inputs. -/
def stepBoth (f : σ → ι → Option σ) (g : τ → ι → Option τ) (s : σ × τ) (i : ι) : Option (σ × τ) :=
  (f s.1 i).bind fun a => (g s.2 i).map fun b => (a, b)

theorem stepBoth_eq_some (f : σ → ι → Option σ) (g : τ → ι → Option τ) (s t : σ × τ) (i : ι) :
    stepBoth f g s i = some t ↔ f s.1 i = some t.1 ∧ g s.2 i = some t.2 := by
  simp only [stepBoth, Option.bind_eq_some_iff, Option.map_eq_some_iff]
  constructor
  · intro h
    obtain ⟨a, ha, b, hb, rfl⟩ := h
    exact ⟨ha, hb⟩
  · intro h
    obtain ⟨ha, hb⟩ := h
    exact ⟨t.1, ha, t.2, hb, rfl⟩

theorem along_congr (g : σ → ι → Option σ) (G H : σ → ι → Prop)
    (hGH : ∀ s i next, g s i = some next → (G s i ↔ H s i)) (s t : σ) (l : List ι)
    (h : run g s l = some t) : Along g G s l ↔ Along g H s l := by
  induction l generalizing s with
  | nil => exact Iff.rfl
  | cons i rest ih =>
    obtain ⟨next, hn, hrest⟩ := run_cons g s t i rest h
    refine and_congr (hGH s i next hn) (forall₂_congr fun next' hn' => ?_)
    obtain rfl : next = next' := Option.some.inj (hn.symm.trans hn')
    exact ih next hrest

theorem run_prefix (g : σ → ι → Option σ) (s t : σ) (l m : List ι) (h : run g s l = some t)
    (hm : m <+: l) : ∃ u, run g s m = some u := by
  obtain ⟨rest, rfl⟩ := hm
  rw [run_append] at h
  obtain ⟨u, hu, -⟩ := Option.bind_eq_some_iff.mp h
  exact ⟨u, hu⟩

/-- Two components with the same states agree after every beginning of a run if
and only if they agree on every step of it. -/
theorem run_agree_iff (f g : σ → ι → Option σ) (s t : σ) (l : List ι) (h : run g s l = some t) :
    (∀ m, m <+: l → run f s m = run g s m) ↔ Along g (fun s i => f s i = g s i) s l := by
  induction l generalizing s with
  | nil =>
    refine ⟨fun _ => trivial, fun _ m hm => ?_⟩
    obtain rfl := List.prefix_nil.mp hm
    rfl
  | cons i rest ih =>
    obtain ⟨next, hn, hrest⟩ := run_cons g s t i rest h
    have ih := ih next hrest
    constructor
    · intro hall
      have hstep : f s i = g s i := by
        have hone := hall [i] (List.prefix_append [i] rest)
        simpa only [run, Option.bind_fun_some] using hone
      refine ⟨hstep, fun next' hn' => ?_⟩
      obtain rfl : next = next' := Option.some.inj (hn.symm.trans hn')
      refine ih.mp fun m hm => ?_
      have hcons := hall (i :: m) (List.prefix_cons_inj i |>.mpr hm)
      simpa only [run, hstep, hn, Option.bind_some] using hcons
    · rintro ⟨hstep, halong⟩ m hm
      cases m with
      | nil => rfl
      | cons j m =>
        obtain ⟨rfl, hrestm⟩ := List.cons_prefix_cons.mp hm
        simp only [run, hstep, hn, Option.bind_some]
        exact ih.mpr (halong next hn) m hrestm

end Movy
