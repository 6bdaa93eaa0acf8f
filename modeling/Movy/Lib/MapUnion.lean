import Mathlib.Data.List.Pairwise
import Movy.Lib.SortedMap

/-!
# Unions of maps

Maps that agree where they overlap have a union; a map that is the union of some
maps is the only one, and then any two of them agree. A union can be taken one map
at a time.
-/

namespace Movy.SortedMap

variable {κ ν : Type} [LinearOrder κ]

def Agrees (a b : SortedMap κ ν) : Prop :=
  ∀ k v w, a.get? k = some v → b.get? k = some w → v = w

/-- The bindings of the map are those of the maps in the list. -/
def IsUnion (m : SortedMap κ ν) (l : List (SortedMap κ ν)) : Prop :=
  ∀ k v, m.get? k = some v ↔ ∃ a ∈ l, a.get? k = some v

theorem isUnion_nil : IsUnion (empty : SortedMap κ ν) [] := by
  intro k v
  simp

theorem isUnion_singleton (m r : SortedMap κ ν) : IsUnion r [m] ↔ r = m := by
  constructor
  · intro h
    apply ext_get?
    intro k
    apply Option.ext
    intro v
    rw [h k v]
    simp
  · intro h k v
    subst h
    simp

theorem isUnion_empty_cons (r : SortedMap κ ν) (l : List (SortedMap κ ν)) :
    IsUnion r (empty :: l) ↔ IsUnion r l := by
  unfold IsUnion
  simp

theorem IsUnion.agrees {m : SortedMap κ ν} {l : List (SortedMap κ ν)} (h : m.IsUnion l)
    (a b : SortedMap κ ν) (ha : a ∈ l) (hb : b ∈ l) : a.Agrees b := by
  intro k v w hv hw
  have hmv := (h k v).mpr ⟨a, ha, hv⟩
  have hmw := (h k w).mpr ⟨b, hb, hw⟩
  rw [hmv] at hmw
  exact Option.some.inj hmw

theorem IsUnion.unique {m m' : SortedMap κ ν} {l : List (SortedMap κ ν)} (h : m.IsUnion l)
    (h' : m'.IsUnion l) : m = m' := by
  apply ext_get?
  intro k
  apply Option.ext
  intro v
  rw [h k v, h' k v]

theorem IsUnion.perm {m : SortedMap κ ν} {l l' : List (SortedMap κ ν)} (h : m.IsUnion l)
    (hperm : l.Perm l') : m.IsUnion l' := by
  intro k v
  rw [h k v]
  simp only [hperm.mem_iff]

theorem IsUnion.agrees_of_forall {m a : SortedMap κ ν} {l : List (SortedMap κ ν)}
    (h : m.IsUnion l) (hall : ∀ b ∈ l, a.Agrees b) : a.Agrees m := by
  intro k v w hv hw
  obtain ⟨b, hb, hget⟩ := (h k w).mp hw
  exact hall b hb k v w hv hget

theorem Agrees.isUnion_extend {a b : SortedMap κ ν} (h : a.Agrees b) :
    (a.extend b).IsUnion [a, b] := by
  intro k v
  rw [get?_extend]
  simp only [List.mem_cons, List.not_mem_nil, or_false, exists_eq_or_imp, exists_eq_left]
  cases hb : b.get? k with
  | none => simp
  | some w =>
    rw [Option.some_or]
    constructor
    · exact .inr
    · intro hv
      rcases hv with hv | hv
      · rw [h k v w hv hb]
      · exact hv

/-- A union can be taken in two steps. -/
theorem isUnion_cons_iff {mid r : SortedMap κ ν} {l : List (SortedMap κ ν)} (h : mid.IsUnion l)
    (rest : List (SortedMap κ ν)) : r.IsUnion (mid :: rest) ↔ r.IsUnion (l ++ rest) := by
  have hmem : ∀ k v, (∃ a ∈ mid :: rest, a.get? k = some v) ↔
      ∃ a ∈ l ++ rest, a.get? k = some v := by
    intro k v
    constructor
    · intro hleft
      obtain ⟨a, ha, hget⟩ := hleft
      rcases List.mem_cons.mp ha with rfl | ha
      · obtain ⟨b, hb, hget⟩ := (h k v).mp hget
        exact ⟨b, List.mem_append_left _ hb, hget⟩
      · exact ⟨a, List.mem_append_right _ ha, hget⟩
    · intro hright
      obtain ⟨a, ha, hget⟩ := hright
      rcases List.mem_append.mp ha with ha | ha
      · exact ⟨mid, List.mem_cons_self .., (h k v).mpr ⟨a, ha, hget⟩⟩
      · exact ⟨a, List.mem_cons_of_mem _ ha, hget⟩
  unfold IsUnion
  simp only [hmem]

/-- Maps of which any two agree have a union. -/
theorem exists_isUnion (l : List (SortedMap κ ν)) (h : l.Pairwise Agrees) : ∃ m, IsUnion m l := by
  induction l with
  | nil => exact ⟨empty, isUnion_nil⟩
  | cons a rest ih =>
    obtain ⟨ha, hrest⟩ := List.pairwise_cons.mp h
    obtain ⟨m, hm⟩ := ih hrest
    have hboth := (hm.agrees_of_forall ha).isUnion_extend
    refine ⟨a.extend m, ?_⟩
    have hswap := hboth.perm (List.Perm.swap m a [])
    exact ((isUnion_cons_iff hm [a]).mp hswap).perm List.perm_append_comm

section

variable [DecidableEq ν]

/-- A merge that does not fail is the union, and it only fails where there is none. -/
theorem mergeAgree_eq_some (m m' r : SortedMap κ ν) :
    mergeAgree m m'.entries = some r ↔ r.IsUnion [m, m'] := by
  have hspec : ∀ s, mergeAgree m m'.entries = some s → s.IsUnion [m, m'] := by
    intro s hs
    obtain ⟨hext, hall, honly⟩ := mergeAgree_spec m'.entries m s hs
    intro k v
    simp only [List.mem_cons, List.not_mem_nil, or_false, exists_eq_or_imp, exists_eq_left]
    constructor
    · intro hv
      rw [← mem_entries m']
      exact honly k v hv
    · intro hv
      rcases hv with hv | hv
      · exact hext k v hv
      · exact hall (k, v) ((mem_entries m' k v).mpr hv)
  constructor
  · exact hspec r
  · intro hr
    obtain ⟨s, hs, _⟩ := mergeAgree_of_extends m'.entries m r
      (fun k v hv => (hr k v).mpr ⟨m, List.mem_cons_self .., hv⟩)
      (fun e he => (hr e.1 e.2).mpr ⟨m', by simp, (mem_entries m' e.1 e.2).mp he⟩)
    rw [hs, (hspec s hs).unique hr]

end

end Movy.SortedMap
