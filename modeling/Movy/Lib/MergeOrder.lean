import Mathlib.Logic.Relation
import Movy.Lib.IndexMap

/-!
# Merging dependency orders

Several lists, in each of which a member comes after all that it depends on, are put
one after the other, and every member is kept where it occurs first. The result is
such a list again.
-/

namespace Movy

section

variable {α : Type} {dep : α → α → Prop}

/-- Every member of the list comes after what it depends on; `seen` comes before the list. -/
def DepsFirst (dep : α → α → Prop) : List α → List α → Prop
  | _, [] => True
  | seen, a :: rest => (∀ b, dep a b → b ∈ seen) ∧ DepsFirst dep (seen ++ [a]) rest

theorem depsFirst_append (seen l l' : List α) :
    DepsFirst dep seen (l ++ l') ↔ DepsFirst dep seen l ∧ DepsFirst dep (seen ++ l) l' := by
  induction l generalizing seen with
  | nil => simp [DepsFirst]
  | cons a l ih => simp [DepsFirst, ih, and_assoc]

theorem DepsFirst.split {l before after : List α} {a : α} (h : DepsFirst dep [] l)
    (heq : l = before ++ a :: after) : ∀ b, dep a b → b ∈ before := by
  rw [heq, depsFirst_append] at h
  exact h.2.1

variable [DecidableEq α]

/-- The invariant of the merge: what was in front of the rest of the list is in the merged
list already, and the merged list is ordered. -/
theorem DepsFirst.merge {seen l merged : List α} (hl : DepsFirst dep seen l)
    (hmerged : DepsFirst dep [] merged) (hseen : ∀ b ∈ seen, b ∈ merged) :
    DepsFirst dep [] (l.foldl pushNew merged) := by
  induction l generalizing seen merged with
  | nil => exact hmerged
  | cons a rest ih =>
    obtain ⟨hdeps, hrest⟩ := hl
    rw [List.foldl_cons]
    apply ih hrest
    · unfold pushNew
      split_ifs
      · exact hmerged
      · rw [depsFirst_append]
        exact ⟨hmerged, fun b hb => hseen b (hdeps b hb), trivial⟩
    · intro b hb
      rw [mem_pushNew]
      rcases List.mem_append.mp hb with hb | hb
      · exact .inl (hseen b hb)
      · exact .inr (List.mem_singleton.mp hb)

/-- Any number of ordered lists, whatever they share, merge into an ordered list. -/
theorem depsFirst_firstOccurrences (lists : List (List α))
    (h : ∀ l ∈ lists, DepsFirst dep [] l) : DepsFirst dep [] (firstOccurrences lists.flatten) := by
  have hall : ∀ merged, DepsFirst dep [] merged →
      DepsFirst dep [] (lists.flatten.foldl pushNew merged) := by
    induction lists with
    | nil => exact fun merged hmerged => hmerged
    | cons l lists ih =>
      intro merged hmerged
      rw [List.flatten_cons, List.foldl_append]
      apply ih fun l' hl' => h l' (List.mem_cons_of_mem _ hl')
      exact (h l (List.mem_cons_self ..)).merge hmerged fun b hb => absurd hb List.not_mem_nil
  exact hall [] trivial

end

end Movy
