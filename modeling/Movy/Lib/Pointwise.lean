import Mathlib.Data.List.Forall2

/-!
# Lists related member by member

What a member of the one list says about its partner in the other, what stands where a
list is cut, and the lists that a function with errors is applied to.
-/

namespace Movy

theorem getElem?_forall₂ {α β : Type} {R : α → β → Prop} {l : List α} {r : List β}
    (h : List.Forall₂ R l r) (k : ℕ) (a : α) (hk : l[k]? = some a) :
    ∃ b, r[k]? = some b ∧ R a b := by
  induction h generalizing k with
  | nil => simp at hk
  | cons hR _ ih =>
    cases k with
    | zero =>
      rw [List.getElem?_cons_zero, Option.some.injEq] at hk
      exact ⟨_, rfl, hk ▸ hR⟩
    | succ k => exact ih k hk

/-- Every member of the one list has a partner in the other. -/
theorem exists_of_forall₂ {α β : Type} {R : α → β → Prop} {l : List α} {r : List β}
    (h : List.Forall₂ R l r) (a : α) (ha : a ∈ l) : ∃ b ∈ r, R a b := by
  obtain ⟨k, hk⟩ := List.mem_iff_getElem?.mp ha
  obtain ⟨b, hb, hR⟩ := getElem?_forall₂ h k a hk
  exact ⟨b, List.mem_of_getElem? hb, hR⟩

theorem drop_eq_cons {α : Type} {l rest : List α} {n : ℕ} {a : α} (h : l.drop n = a :: rest) :
    l[n]? = some a ∧ l.drop (n + 1) = rest := by
  constructor
  · rw [← List.head?_drop, h, List.head?_cons]
  · rw [← List.tail_drop, h, List.tail_cons]

theorem mapM_eq_ok {α β ε : Type} (f : α → Except ε β) (l : List α) (r : List β) :
    l.mapM f = .ok r ↔ List.Forall₂ (fun a b => f a = .ok b) l r := by
  induction l generalizing r with
  | nil =>
    rw [List.mapM_nil, List.forall₂_nil_left_iff]
    constructor
    · intro h
      exact (Except.ok.inj h).symm
    · intro h
      rw [h]
      rfl
  | cons a l ih =>
    rw [List.mapM_cons, List.forall₂_cons_left_iff]
    cases ha : f a with
    | error e => simp [bind, Except.bind]
    | ok b =>
      cases hl : l.mapM f with
      | error e =>
        constructor
        · intro h
          cases h
        · intro h
          obtain ⟨_, rest, _, hrest, _⟩ := h
          rw [(ih rest).mpr hrest] at hl
          cases hl
      | ok rest =>
        constructor
        · intro h
          exact ⟨b, rest, rfl, (ih rest).mp hl, (Except.ok.inj h).symm⟩
        · intro h
          obtain ⟨b', rest', hb, hrest, rfl⟩ := h
          rw [(ih rest').mpr hrest] at hl
          rw [Except.ok.inj hb, Except.ok.inj hl]
          rfl

theorem exists_mapM_ok {α β ε : Type} (f : α → Except ε β) (l : List α) :
    (∃ r, l.mapM f = .ok r) ↔ ∀ a ∈ l, ∃ b, f a = .ok b := by
  simp only [mapM_eq_ok]
  induction l with
  | nil => simp
  | cons a l ih =>
    simp only [List.forall₂_cons_left_iff, List.forall_mem_cons, ← ih]
    constructor
    · intro h
      obtain ⟨_, b, rest, hb, hrest, _⟩ := h
      exact ⟨⟨b, hb⟩, rest, hrest⟩
    · intro h
      obtain ⟨⟨b, hb⟩, rest, hrest⟩ := h
      exact ⟨b :: rest, b, rest, hb, hrest, rfl⟩

theorem mapM_isSome_iff {α β : Type} (f : α → Option β) (l : List α) :
    (l.mapM f).isSome = true ↔ ∀ a ∈ l, (f a).isSome = true := by
  induction l with
  | nil => simp
  | cons a l ih =>
    rw [List.mapM_cons, List.forall_mem_cons, ← ih]
    cases f a with
    | none => simp
    | some b => cases l.mapM f <;> simp

/-- Where every member has a result, the results are paired with the members. -/
theorem exists_mapM_forall₂ {α β : Type} (f : α → Option β) (R : α → β → Prop) (l : List α)
    (h : ∀ a ∈ l, ∃ b, f a = some b ∧ R a b) : ∃ r, l.mapM f = some r ∧ List.Forall₂ R l r := by
  induction l with
  | nil => exact ⟨[], rfl, .nil⟩
  | cons a l ih =>
    obtain ⟨b, hb, hR⟩ := h a (List.mem_cons_self ..)
    obtain ⟨r, hr, hall⟩ := ih fun a ha => h a (List.mem_cons_of_mem _ ha)
    refine ⟨b :: r, ?_, .cons hR hall⟩
    rw [List.mapM_cons, hb, hr]
    rfl

theorem mapM_forall₂ {α β : Type} (f : α → Option β) (l : List α) (r : List β)
    (h : l.mapM f = some r) : List.Forall₂ (fun a b => f a = some b) l r := by
  induction l generalizing r with
  | nil =>
    rw [List.mapM_nil, Option.pure_def, Option.some.injEq] at h
    rw [← h]
    exact .nil
  | cons a l ih =>
    rw [List.mapM_cons] at h
    obtain ⟨b, hb, h⟩ := Option.bind_eq_some_iff.mp h
    obtain ⟨bs, hbs, h⟩ := Option.bind_eq_some_iff.mp h
    rw [← Option.some.inj h]
    exact .cons hb (ih bs hbs)

theorem mem_of_mapM {α β : Type} {f : α → Option β} {l : List α} {r : List β}
    (h : l.mapM f = some r) (b : β) (hb : b ∈ r) : ∃ a ∈ l, f a = some b := by
  have hall := mapM_forall₂ f l r h
  clear h
  induction hall with
  | nil => cases hb
  | cons hfirst _ ih =>
    rcases List.mem_cons.mp hb with rfl | hb
    · exact ⟨_, List.mem_cons_self .., hfirst⟩
    · obtain ⟨a, ha, hfa⟩ := ih hb
      exact ⟨a, List.mem_cons_of_mem _ ha, hfa⟩

end Movy
