import Mathlib.Algebra.BigOperators.Group.List.Basic
import Mathlib.Algebra.Order.Ring.Nat

/-!
# Depth-first search with a budget

The nodes of a tree are taken from a stack, at most so many of them, until one
passes a test; its children go on top, the last of them uppermost. `none` means
that the budget was used up before an answer was found.
-/

namespace Movy.BoundedSearch

variable {α : Type} (children : α → List α)

def search (p : α → Bool) : ℕ → List α → Option Bool
  | _, [] => some false
  | 0, _ :: _ => none
  | n + 1, a :: rest => if p a then some true else search p n ((children a).reverse ++ rest)

inductive Below : α → α → Prop where
  | refl (a : α) : Below a a
  | child (a b c : α) : b ∈ children a → Below b c → Below a c

/-- A test on a node and on everything below it. -/
theorem forall_below_iff (P : α → Prop) (a : α) :
    (∀ c, Below children a c → P c) ↔
      P a ∧ ∀ b ∈ children a, ∀ c, Below children b c → P c := by
  constructor
  · intro h
    exact ⟨h a (.refl a), fun b hb c hc => h c (.child a b c hb hc)⟩
  · intro h c hc
    cases hc with
    | refl => exact h.1
    | child _ b _ hb hc => exact h.2 b hb c hc

theorem search_true (p : α → Bool) (n : ℕ) (stack : List α)
    (h : search children p n stack = some true) :
    ∃ a ∈ stack, ∃ c, Below children a c ∧ p c = true := by
  induction n generalizing stack with
  | zero =>
    cases stack with
    | nil => cases h
    | cons a rest => cases h
  | succ n ih =>
    cases stack with
    | nil => cases h
    | cons a rest =>
      rw [search] at h
      split at h
      · rename_i hp
        exact ⟨a, List.mem_cons_self, a, .refl a, hp⟩
      · obtain ⟨b, hb, c, hc, hp⟩ := ih _ h
        rcases List.mem_append.mp hb with hb | hb
        · exact ⟨a, List.mem_cons_self, c, .child a b c (List.mem_reverse.mp hb) hc, hp⟩
        · exact ⟨b, List.mem_cons_of_mem a hb, c, hc, hp⟩

theorem search_false (p : α → Bool) (n : ℕ) (stack : List α)
    (h : search children p n stack = some false) :
    ∀ a ∈ stack, ∀ c, Below children a c → p c = false := by
  induction n generalizing stack with
  | zero =>
    cases stack with
    | nil =>
      intro a ha
      cases ha
    | cons a rest => cases h
  | succ n ih =>
    cases stack with
    | nil =>
      intro a ha
      cases ha
    | cons a rest =>
      rw [search] at h
      split at h
      · cases h
      · rename_i hp
        have hrest := ih _ h
        intro b hb
        rcases List.mem_cons.mp hb with rfl | hb
        · refine (forall_below_iff children (fun c => p c = false) b).mpr ⟨?_, ?_⟩
          · exact Bool.eq_false_iff.mpr hp
          · intro d hd
            exact hrest d (List.mem_append_left rest (List.mem_reverse.mpr hd))
        · exact hrest b (List.mem_append_right _ hb)

/-- A budget for every node is enough. -/
theorem search_ne_none (size : α → ℕ) (hsize : ∀ a, size a = 1 + ((children a).map size).sum)
    (p : α → Bool) (n : ℕ) (stack : List α) (hn : (stack.map size).sum ≤ n) :
    search children p n stack ≠ none := by
  induction n generalizing stack with
  | zero =>
    cases stack with
    | nil => simp [search]
    | cons a rest =>
      have ha := hsize a
      rw [List.map_cons, List.sum_cons] at hn
      omega
  | succ n ih =>
    cases stack with
    | nil => simp [search]
    | cons a rest =>
      have ha := hsize a
      rw [List.map_cons, List.sum_cons] at hn
      rw [search]
      split
      · simp
      · apply ih
        rw [List.map_append, List.sum_append, List.map_reverse, List.sum_reverse]
        omega

theorem search_eq_true_iff (size : α → ℕ)
    (hsize : ∀ a, size a = 1 + ((children a).map size).sum) (p : α → Bool) (n : ℕ)
    (stack : List α) (hn : (stack.map size).sum ≤ n) :
    search children p n stack = some true ↔
      ∃ a ∈ stack, ∃ c, Below children a c ∧ p c = true := by
  constructor
  · exact search_true children p n stack
  · intro h
    obtain ⟨a, ha, c, hc, hp⟩ := h
    cases hs : search children p n stack with
    | none => exact absurd hs (search_ne_none children size hsize p n stack hn)
    | some found =>
      cases found with
      | true => rfl
      | false =>
        rw [search_false children p n stack hs a ha c hc] at hp
        cases hp

end Movy.BoundedSearch
