import Mathlib.Data.List.Forall2

/-!
# Loops with an early return, on fuel

A recursion that is bounded by fuel returns `none` when it runs out, and
otherwise the answer, which may itself be `none`. `collect` is the loop that
asks for an answer at each element and gives up at the first one without.
-/

namespace Movy

variable {α β : Type}

theorem forall₂_iff_getElem? (R : α → β → Prop) (as : List α) (bs : List β) :
    List.Forall₂ R as bs ↔ as.length = bs.length ∧
      ∀ (i : ℕ) (a : α) (b : β), as[i]? = some a → bs[i]? = some b → R a b := by
  rw [List.forall₂_iff_get]
  refine and_congr_right fun _ => ⟨fun h i a b ha hb => ?_, fun h i hi hj => ?_⟩
  · obtain ⟨hi, rfl⟩ := List.getElem?_eq_some_iff.mp ha
    obtain ⟨hj, rfl⟩ := List.getElem?_eq_some_iff.mp hb
    exact h i hi hj
  · exact h i _ _ (List.getElem?_eq_getElem hi) (List.getElem?_eq_getElem hj)

def collect (f : α → Option (Option β)) : List α → Option (Option (List β))
  | [] => some (some [])
  | a :: as => match f a with
    | none => none
    | some none => some none
    | some (some b) => (collect f as).map fun bs => bs.map (b :: ·)

/-- Whether there is an answer, and whether it is a value. -/
def shape (r : Option (Option β)) : Option Bool := r.map Option.isSome

theorem collect_eq_some (f : α → Option (Option β)) (as : List α) (bs : List β) :
    collect f as = some (some bs) ↔ List.Forall₂ (fun a b => f a = some (some b)) as bs := by
  induction as generalizing bs with
  | nil => simp [collect, List.forall₂_nil_left_iff, eq_comm]
  | cons a as ih =>
    rw [List.forall₂_cons_left_iff, collect]
    rcases hf : f a with _ | _ | b
    · simp
    · simp
    · simp only [Option.map_eq_some_iff]
      constructor
      · rintro ⟨r, hr, hrest⟩
        obtain ⟨cs, rfl, rfl⟩ := hrest
        exact ⟨b, cs, rfl, (ih cs).mp hr, rfl⟩
      · rintro ⟨b', cs, hb, hcs, rfl⟩
        obtain rfl := Option.some.inj (Option.some.inj hb)
        exact ⟨some cs, (ih cs).mpr hcs, cs, rfl, rfl⟩

theorem collect_isSome (f : α → Option (Option β)) (as : List α) (h : ∀ a ∈ as, (f a).isSome) :
    (collect f as).isSome := by
  induction as with
  | nil => rfl
  | cons a as ih =>
    have ha := h a List.mem_cons_self
    rw [collect]
    rcases hf : f a with _ | _ | b
    · rw [hf] at ha
      exact absurd ha (by simp)
    · rfl
    · rw [Option.isSome_map]
      exact ih fun a ha => h a (List.mem_cons_of_mem _ ha)

/-- More fuel for the elements does not change an answer. -/
theorem collect_mono (f g : α → Option (Option β)) (as : List α)
    (h : ∀ a ∈ as, ∀ r, f a = some r → g a = some r) (r : Option (List β))
    (hr : collect f as = some r) : collect g as = some r := by
  induction as generalizing r with
  | nil => exact hr
  | cons a as ih =>
    rw [collect] at hr ⊢
    rcases hf : f a with _ | _ | b
    · rw [hf] at hr
      exact absurd hr (by simp)
    · rw [h a List.mem_cons_self _ hf]
      rw [hf] at hr
      exact hr
    · rw [h a List.mem_cons_self _ hf]
      rw [hf] at hr
      obtain ⟨bs, hbs, rfl⟩ := Option.map_eq_some_iff.mp hr
      simp only [ih (fun a ha => h a (List.mem_cons_of_mem _ ha)) bs hbs, Option.map_some]

theorem collect_shape (f g : α → Option (Option β)) (as : List α)
    (h : ∀ a ∈ as, shape (f a) = shape (g a)) : shape (collect f as) = shape (collect g as) := by
  induction as with
  | nil => rfl
  | cons a as ih =>
    have ha := h a List.mem_cons_self
    have hrest := ih fun a ha => h a (List.mem_cons_of_mem _ ha)
    have hcons : ∀ (r : Option (Option (List β))) (b : β),
        shape (r.map fun bs => bs.map (b :: ·)) = shape r := by
      intro r b
      rcases r with _ | _ | bs <;> rfl
    rw [collect, collect]
    rcases hf : f a with _ | _ | b <;> rcases hg : g a with _ | _ | c <;>
      simp only [hf, hg, shape, Option.map_none, Option.map_some, Option.isSome_none,
        Option.isSome_some, Option.some.injEq, reduceCtorEq, Bool.false_eq_true,
        Bool.true_eq_false] at ha ⊢
    · exact (hcons _ b).trans (hrest.trans (hcons _ c).symm)

/-- Elements that are answered with some fuel each are answered with the same fuel. -/
theorem forall₂_fuel (P : ℕ → α → β → Prop)
    (hmono : ∀ fuel fuel' a b, fuel ≤ fuel' → P fuel a b → P fuel' a b) (as : List α) (bs : List β)
    (h : List.Forall₂ (fun a b => ∃ fuel, P fuel a b) as bs) :
    ∃ fuel, List.Forall₂ (P fuel) as bs := by
  induction h with
  | nil => exact ⟨0, .nil⟩
  | cons ha _ ih =>
    obtain ⟨first, hfirst⟩ := ha
    obtain ⟨rest, hrest⟩ := ih
    refine ⟨first + rest, .cons (hmono first _ _ _ (by omega) hfirst) (hrest.imp fun a b hab => ?_)⟩
    exact hmono rest _ a b (by omega) hab

/-- One amount of fuel is enough for all elements. -/
theorem exists_bound (P : α → ℕ → Prop) (as : List α)
    (h : ∀ a ∈ as, ∃ bound, ∀ fuel, bound ≤ fuel → P a fuel) :
    ∃ bound, ∀ fuel, bound ≤ fuel → ∀ a ∈ as, P a fuel := by
  induction as with
  | nil => exact ⟨0, fun _ _ a ha => absurd ha List.not_mem_nil⟩
  | cons a as ih =>
    obtain ⟨first, hfirst⟩ := h a List.mem_cons_self
    obtain ⟨rest, hrest⟩ := ih fun a ha => h a (List.mem_cons_of_mem _ ha)
    refine ⟨first + rest, fun fuel hfuel => List.forall_mem_cons.mpr ⟨?_, ?_⟩⟩
    · exact hfirst fuel (by omega)
    · exact hrest fuel (by omega)

end Movy
