import Mathlib.Data.List.Infix

/-!
# Splitting at a doubled mark

A text is cut wherever the mark stands twice in a row, from the left on. A list of
parts is the cut of its join exactly if no part has the mark twice in a row and none
but the last ends in the mark.
-/

namespace Movy.Splitting

variable {α : Type} (mark : α)

def consHead (a : α) : List (List α) → List (List α)
  | [] => [[a]]
  | part :: parts => (a :: part) :: parts

def splitMarks [DecidableEq α] : List α → List (List α)
  | [] => [[]]
  | [a] => [[a]]
  | a :: b :: rest =>
    if a = mark ∧ b = mark then [] :: splitMarks rest else consHead a (splitMarks (b :: rest))

def joinMarks : List (List α) → List α
  | [] => []
  | [part] => part
  | part :: next :: parts => part ++ mark :: mark :: joinMarks (next :: parts)

/-- The mark does not stand twice in a row. -/
def Clean : List α → Prop
  | [] => True
  | [_] => True
  | a :: b :: rest => ¬(a = mark ∧ b = mark) ∧ Clean (b :: rest)

/-- What comes before a doubled mark does not end in the mark either. -/
def WellCut : List (List α) → Prop
  | [] => False
  | [part] => Clean mark part
  | part :: next :: parts => Clean mark (part ++ [mark]) ∧ WellCut (next :: parts)

variable {mark}

theorem clean_cons (a : α) (l : List α) :
    Clean mark (a :: l) ↔ ¬(a = mark ∧ l.head? = some mark) ∧ Clean mark l := by
  cases l with
  | nil => simp [Clean]
  | cons b rest => simp [Clean]

theorem clean_of_not_mem (l : List α) (h : mark ∉ l) : Clean mark (l ++ [mark]) := by
  induction l with
  | nil => trivial
  | cons a l ih =>
    rw [List.mem_cons, not_or] at h
    obtain ⟨ha, hl⟩ := h
    rw [List.cons_append, clean_cons]
    exact ⟨fun hmark => ha hmark.1.symm, ih hl⟩

/-- The first character of a join stands in its first part, or is a mark. -/
theorem consHead_wellCut (a b : α) (rest : List α) (parts : List (List α))
    (hpair : ¬(a = mark ∧ b = mark)) (hjoin : joinMarks mark parts = b :: rest)
    (h : WellCut mark parts) :
    joinMarks mark (consHead a parts) = a :: b :: rest ∧ WellCut mark (consHead a parts) := by
  cases parts with
  | nil => exact h.elim
  | cons part parts =>
    cases parts with
    | nil =>
      have hpart : part = b :: rest := hjoin
      refine ⟨by rw [consHead, joinMarks, hpart], ?_⟩
      rw [consHead, WellCut, hpart]
      exact ⟨hpair, hpart ▸ h⟩
    | cons next parts =>
      obtain ⟨hpart, hparts⟩ := h
      rw [joinMarks] at hjoin
      refine ⟨by rw [consHead, joinMarks, List.cons_append, hjoin], ?_, hparts⟩
      rw [List.cons_append, clean_cons]
      refine ⟨fun hmark => hpair ⟨hmark.1, ?_⟩, hpart⟩
      cases part with
      | nil => exact (List.cons.inj hjoin).1.symm
      | cons c part =>
        have hc : c = mark := by simpa using hmark.2
        exact (List.cons.inj hjoin).1.symm.trans hc

/-! ### Cutting a join -/

variable [DecidableEq α]

theorem splitMarks_clean (l : List α) (h : Clean mark l) : splitMarks mark l = [l] := by
  induction l with
  | nil => rfl
  | cons a l ih =>
    cases l with
    | nil => rfl
    | cons b rest =>
      obtain ⟨hpair, hrest⟩ := h
      rw [splitMarks, if_neg hpair, ih hrest]
      rfl

theorem splitMarks_append (part rest : List α) (h : Clean mark (part ++ [mark])) :
    splitMarks mark (part ++ mark :: mark :: rest) = part :: splitMarks mark rest := by
  induction part with
  | nil => rw [List.nil_append, splitMarks, if_pos ⟨rfl, rfl⟩]
  | cons a part ih =>
    rw [List.cons_append, clean_cons] at h
    obtain ⟨hpair, hpart⟩ := h
    cases part with
    | nil =>
      have ha : ¬(a = mark ∧ mark = mark) := fun hmark => hpair ⟨hmark.1, rfl⟩
      rw [List.cons_append, List.nil_append, splitMarks, if_neg ha, ← List.nil_append (mark :: _),
        ih hpart]
      rfl
    | cons b part =>
      have hab : ¬(a = mark ∧ b = mark) := fun hmark => hpair ⟨hmark.1, by simp [hmark.2]⟩
      rw [List.cons_append, List.cons_append, splitMarks, if_neg hab, ← List.cons_append,
        ih hpart]
      rfl

theorem splitMarks_joinMarks (parts : List (List α)) (h : WellCut mark parts) :
    splitMarks mark (joinMarks mark parts) = parts := by
  induction parts with
  | nil => exact h.elim
  | cons part parts ih =>
    cases parts with
    | nil => exact splitMarks_clean part h
    | cons next parts =>
      obtain ⟨hpart, hparts⟩ := h
      rw [joinMarks, splitMarks_append part _ hpart, ih hparts]

/-! ### What a cut is -/

theorem splitMarks_spec (l : List α) :
    joinMarks mark (splitMarks mark l) = l ∧ WellCut mark (splitMarks mark l) := by
  induction l using splitMarks.induct mark with
  | case1 => exact ⟨rfl, trivial⟩
  | case2 a => exact ⟨rfl, trivial⟩
  | case3 a b rest hpair ih =>
    obtain ⟨hjoin, hcut⟩ := ih
    rw [splitMarks, if_pos hpair]
    cases hparts : splitMarks mark rest with
    | nil => exact (hparts ▸ hcut).elim
    | cons next parts =>
      rw [hparts] at hjoin hcut
      rw [joinMarks, hjoin, hpair.1, hpair.2]
      exact ⟨rfl, trivial, hcut⟩
  | case4 a b rest hpair ih =>
    obtain ⟨hjoin, hcut⟩ := ih
    rw [splitMarks, if_neg hpair]
    exact consHead_wellCut a b rest _ hpair hjoin hcut

theorem splitMarks_eq_iff (l : List α) (parts : List (List α)) :
    splitMarks mark l = parts ↔ joinMarks mark parts = l ∧ WellCut mark parts := by
  constructor
  · intro h
    rw [← h]
    exact splitMarks_spec l
  · intro h
    obtain ⟨hjoin, hcut⟩ := h
    rw [← hjoin]
    exact splitMarks_joinMarks parts hcut

end Movy.Splitting
