import Mathlib.Data.Finset.Card
import Mathlib.Data.Fintype.Card
import Mathlib.Data.Set.Basic

/-!
# Searches over a shared list of visited nodes

A recursive search that adds to a list of visited nodes. What was added is
handled: all its successors are in the list, too. A search that starts from one
node leaves the least set that has the node and is closed under successors.
-/

namespace Movy

variable {α : Type} (next : α → α → Prop)

/-- A set that has every successor of its members. -/
def ClosedUnder (S : Set α) : Prop := ∀ x y, x ∈ S → next x y → y ∈ S

/-- A part of a search takes the list from `s` to `t`. -/
structure Explored (s t : List α) : Prop where
  keeps : ∀ x ∈ s, x ∈ t
  handled : ∀ x ∈ t, x ∉ s → ∀ y, next x y → y ∈ t
  within : ∀ S : Set α, ClosedUnder next S → (∀ x ∈ s, x ∈ S) → ∀ x ∈ t, x ∈ S

/-- The search at one new node. -/
structure Visited (a : α) (s t : List α) : Prop where
  visits : a ∈ t
  keeps : ∀ x ∈ s, x ∈ t
  handled : ∀ x ∈ t, x ∉ s → ∀ y, next x y → y ∈ t
  within : ∀ S : Set α, ClosedUnder next S → a ∈ S → (∀ x ∈ s, x ∈ S) → ∀ x ∈ t, x ∈ S

variable {next}

theorem Explored.refl (s : List α) : Explored next s s :=
  ⟨fun _ h => h, fun _ h hn => absurd h hn, fun _ _ h => h⟩

theorem Explored.trans {s t u : List α} (hst : Explored next s t) (htu : Explored next t u) :
    Explored next s u := by
  constructor
  · exact fun x hx => htu.keeps x (hst.keeps x hx)
  · intro x hx hnot y hy
    by_cases ht : x ∈ t
    · exact htu.keeps y (hst.handled x ht hnot y hy)
    · exact htu.handled x hx ht y hy
  · exact fun S hS hs => htu.within S hS (hst.within S hS hs)

theorem Explored.congr {s t u : List α} (h : Explored next s t) (hu : ∀ x, x ∈ u ↔ x ∈ t) :
    Explored next s u := by
  constructor
  · exact fun x hx => (hu x).mpr (h.keeps x hx)
  · exact fun x hx hnot y hy => (hu y).mpr (h.handled x ((hu x).mp hx) hnot y hy)
  · exact fun S hS hs x hx => h.within S hS hs x ((hu x).mp hx)

theorem Explored.visited {a : α} {s t : List α} (h : Explored next (s ++ [a]) t)
    (hall : ∀ y, next a y → y ∈ t) : Visited next a s t := by
  constructor
  · exact h.keeps a (List.mem_append_right _ (List.mem_singleton_self a))
  · exact fun x hx => h.keeps x (List.mem_append_left _ hx)
  · intro x hx hnot y hy
    by_cases hxa : x = a
    · subst hxa
      exact hall y hy
    · refine h.handled x hx (fun hmem => ?_) y hy
      rcases List.mem_append.mp hmem with hmem | hmem
      · exact hnot hmem
      · exact hxa (List.mem_singleton.mp hmem)
  · intro S hS ha hs
    refine h.within S hS fun x hx => ?_
    rcases List.mem_append.mp hx with hx | hx
    · exact hs x hx
    · rw [List.mem_singleton.mp hx]
      exact ha

theorem Visited.explored {a b : α} {s t : List α} (h : Visited next a s t) (hb : b ∈ s)
    (hba : next b a) : Explored next s t :=
  ⟨h.keeps, h.handled, fun S hS hs => h.within S hS (hS b a (hs b hb) hba) hs⟩

/-- A search that starts with nothing leaves a closed set. -/
theorem Visited.closed {a : α} {t : List α} (h : Visited next a [] t) :
    ClosedUnder next {x | x ∈ t} := fun x y hx hy => h.handled x hx List.not_mem_nil y hy

/-- It is the least one. -/
theorem Visited.least {a : α} {t : List α} (h : Visited next a [] t) (S : Set α)
    (hS : ClosedUnder next S) (ha : a ∈ S) : ∀ x ∈ t, x ∈ S :=
  h.within S hS ha fun _ hx => absurd hx List.not_mem_nil

/-! ### What is left to visit -/

section

variable [Fintype α] [DecidableEq α]

def unvisited (s : List α) : ℕ := (Finset.univ \ s.toFinset).card

theorem unvisited_le (s t : List α) (h : ∀ x ∈ s, x ∈ t) : unvisited t ≤ unvisited s := by
  apply Finset.card_le_card
  apply Finset.sdiff_subset_sdiff (Finset.Subset.refl _)
  intro x hx
  exact List.mem_toFinset.mpr (h x (List.mem_toFinset.mp hx))

theorem unvisited_lt (s : List α) (a : α) (ha : a ∉ s) : unvisited (s ++ [a]) < unvisited s := by
  apply Finset.card_lt_card
  refine ⟨?_, fun hsub => ?_⟩
  · apply Finset.sdiff_subset_sdiff (Finset.Subset.refl _)
    intro x hx
    exact List.mem_toFinset.mpr (List.mem_append_left _ (List.mem_toFinset.mp hx))
  · have hmem : a ∈ Finset.univ \ s.toFinset :=
      Finset.mem_sdiff.mpr ⟨Finset.mem_univ a, fun h => ha (List.mem_toFinset.mp h)⟩
    exact (Finset.mem_sdiff.mp (hsub hmem)).2
      (List.mem_toFinset.mpr (List.mem_append_right _ (List.mem_singleton_self a)))

theorem unvisited_le_card (s : List α) : unvisited s ≤ Fintype.card α :=
  Finset.card_le_card (Finset.subset_univ _)

end

end Movy
