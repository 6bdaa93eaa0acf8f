import Mathlib.Data.List.Count
import Mathlib.Data.List.Induction
import Mathlib.Data.List.Nodup
import Mathlib.Data.List.Perm.Subperm

/-!
# Credits and debits

A list of entries that bring something or take it away, and two ways to keep
books of them. `settle` counts: a debit takes away one of its kind, and fails if
there is none. `mark` does not count: a debit takes away everything of that name.
-/

namespace Movy

/-- What is brought, or taken away. -/
inductive Entry (α : Type) where
  | credit (a : α)
  | debit (a : α)

namespace Entry

variable {α β : Type}

def val : Entry α → α
  | credit a => a
  | debit a => a

def map (f : α → β) : Entry α → Entry β
  | credit a => credit (f a)
  | debit a => debit (f a)

end Entry

section

variable {α β : Type}

def credited (es : List (Entry α)) : List α :=
  es.filterMap fun e => match e with
    | .credit a => some a
    | .debit _ => none

def debited (es : List (Entry α)) : List α :=
  es.filterMap fun e => match e with
    | .credit _ => none
    | .debit a => some a

@[simp] theorem credited_nil : credited ([] : List (Entry α)) = [] := rfl
@[simp] theorem debited_nil : debited ([] : List (Entry α)) = [] := rfl

@[simp] theorem credited_credit (a : α) (es : List (Entry α)) :
    credited (.credit a :: es) = a :: credited es := rfl

@[simp] theorem credited_debit (a : α) (es : List (Entry α)) :
    credited (.debit a :: es) = credited es := rfl

@[simp] theorem debited_credit (a : α) (es : List (Entry α)) :
    debited (.credit a :: es) = debited es := rfl

@[simp] theorem debited_debit (a : α) (es : List (Entry α)) :
    debited (.debit a :: es) = a :: debited es := rfl

theorem credited_append (es fs : List (Entry α)) :
    credited (es ++ fs) = credited es ++ credited fs := List.filterMap_append

theorem debited_append (es fs : List (Entry α)) :
    debited (es ++ fs) = debited es ++ debited fs := List.filterMap_append

theorem credited_perm {es fs : List (Entry α)} (h : es.Perm fs) :
    (credited es).Perm (credited fs) := h.filterMap _

theorem debited_perm {es fs : List (Entry α)} (h : es.Perm fs) :
    (debited es).Perm (debited fs) := h.filterMap _

theorem credited_sublist {es fs : List (Entry α)} (h : es.Sublist fs) :
    (credited es).Sublist (credited fs) := h.filterMap _

theorem debited_sublist {es fs : List (Entry α)} (h : es.Sublist fs) :
    (debited es).Sublist (debited fs) := h.filterMap _

theorem mem_debited (es : List (Entry α)) (a : α) : a ∈ debited es ↔ .debit a ∈ es := by
  induction es with
  | nil => simp
  | cons e es ih => cases e <;> simp [ih]

theorem mem_credited (es : List (Entry α)) (a : α) : a ∈ credited es ↔ .credit a ∈ es := by
  induction es with
  | nil => simp
  | cons e es ih => cases e <;> simp [ih]

theorem credited_flatMap {ι : Type} (l : List ι) (f : ι → List (Entry α)) :
    credited (l.flatMap f) = l.flatMap fun a => credited (f a) := List.filterMap_flatMap

theorem debited_flatMap {ι : Type} (l : List ι) (f : ι → List (Entry α)) :
    debited (l.flatMap f) = l.flatMap fun a => debited (f a) := List.filterMap_flatMap

theorem credited_map (f : α → β) (es : List (Entry α)) :
    credited (es.map (Entry.map f)) = (credited es).map f := by
  rw [credited, List.filterMap_map, credited, List.map_filterMap]
  exact List.filterMap_congr fun e _ => by cases e <;> rfl

theorem debited_map (f : α → β) (es : List (Entry α)) :
    debited (es.map (Entry.map f)) = (debited es).map f := by
  rw [debited, List.filterMap_map, debited, List.map_filterMap]
  exact List.filterMap_congr fun e _ => by cases e <;> rfl

theorem credited_credits {ι : Type} (l : List ι) (f : ι → Option α) :
    credited (l.filterMap fun a => (f a).map Entry.credit) = l.filterMap f := by
  rw [credited, List.filterMap_filterMap]
  apply List.filterMap_congr
  intro a _
  cases f a <;> rfl

theorem credited_debits {ι : Type} (l : List ι) (f : ι → Option α) :
    credited (l.filterMap fun a => (f a).map Entry.debit) = [] := by
  rw [credited, List.filterMap_filterMap, List.filterMap_eq_nil_iff]
  intro a _
  cases f a <;> rfl

theorem debited_credits {ι : Type} (l : List ι) (f : ι → Option α) :
    debited (l.filterMap fun a => (f a).map Entry.credit) = [] := by
  rw [debited, List.filterMap_filterMap, List.filterMap_eq_nil_iff]
  intro a _
  cases f a <;> rfl

theorem debited_debits {ι : Type} (l : List ι) (f : ι → Option α) :
    debited (l.filterMap fun a => (f a).map Entry.debit) = l.filterMap f := by
  rw [debited, List.filterMap_filterMap]
  apply List.filterMap_congr
  intro a _
  cases f a <;> rfl

/-- The entries of interest under another name. -/
def entriesOf (p : α → Bool) (f : α → β) (es : List (Entry α)) : List (Entry β) :=
  (es.filter fun e => p e.val).map (Entry.map f)

theorem entriesOf_cons (p : α → Bool) (f : α → β) (e : Entry α) (es : List (Entry α)) :
    entriesOf p f (e :: es) =
      if p e.val = true then e.map f :: entriesOf p f es else entriesOf p f es := by
  rw [entriesOf, List.filter_cons]
  split_ifs <;> rfl

theorem entriesOf_append (p : α → Bool) (f : α → β) (es fs : List (Entry α)) :
    entriesOf p f (es ++ fs) = entriesOf p f es ++ entriesOf p f fs := by
  rw [entriesOf, List.filter_append, List.map_append]
  rfl

theorem entriesOf_filterMap {ι : Type} (p : α → Bool) (f : α → β) (l : List ι)
    (g : ι → Option (Entry α)) :
    entriesOf p f (l.filterMap g) =
      l.filterMap fun a => ((g a).filter fun e => p e.val).map (Entry.map f) := by
  induction l with
  | nil => rfl
  | cons a l ih =>
    rw [List.filterMap_cons, List.filterMap_cons]
    cases hg : g a with
    | none => exact ih
    | some e =>
      rw [entriesOf_cons, Option.filter_some, ih]
      split_ifs <;> rfl

theorem entriesOf_flatMap {ι : Type} (p : α → Bool) (f : α → β) (l : List ι)
    (g : ι → List (Entry α)) :
    entriesOf p f (l.flatMap g) = l.flatMap fun a => entriesOf p f (g a) := by
  rw [entriesOf, List.filter_flatMap, List.map_flatMap]
  rfl

theorem credited_entriesOf (p : α → Bool) (f : α → β) (es : List (Entry α)) :
    credited (entriesOf p f es) = ((credited es).filter p).map f := by
  induction es with
  | nil => rfl
  | cons e es ih =>
    rw [entriesOf_cons]
    cases e with
    | credit a =>
      rw [credited_credit, List.filter_cons]
      by_cases ha : p a = true
      · rw [if_pos ha, if_pos (show p (Entry.credit a).val = true from ha), List.map_cons, ← ih]
        rfl
      · rw [if_neg ha, if_neg (show ¬ p (Entry.credit a).val = true from ha), ih]
    | debit a =>
      rw [credited_debit, ← ih]
      split_ifs <;> rfl

theorem debited_entriesOf (p : α → Bool) (f : α → β) (es : List (Entry α)) :
    debited (entriesOf p f es) = ((debited es).filter p).map f := by
  induction es with
  | nil => rfl
  | cons e es ih =>
    rw [entriesOf_cons]
    cases e with
    | credit a =>
      rw [debited_credit, ← ih]
      split_ifs <;> rfl
    | debit a =>
      rw [debited_debit, List.filter_cons]
      by_cases ha : p a = true
      · rw [if_pos ha, if_pos (show p (Entry.debit a).val = true from ha), List.map_cons, ← ih]
        rfl
      · rw [if_neg ha, if_neg (show ¬ p (Entry.debit a).val = true from ha), ih]

/-- A credit brings a name that was not there before. -/
def NewCredit (e e' : Entry α) : Prop :=
  match e' with
  | .credit a => e.val ≠ a
  | .debit _ => True

theorem credited_nodup (es : List (Entry α)) (h : es.Pairwise NewCredit) :
    (credited es).Nodup := by
  apply List.pairwise_filterMap.mpr
  apply h.imp
  intro e e' hnew a ha b hb
  cases e with
  | debit c => cases ha
  | credit c =>
    cases e' with
    | debit d => cases hb
    | credit d =>
      rw [← Option.some.inj ha, ← Option.some.inj hb]
      exact hnew

/-- A property of every entry and what is in front of it. -/
theorem forall_split_concat (l : List α) (a : α) (P : List α → α → Prop) :
    (∀ pre x post, l ++ [a] = pre ++ x :: post → P pre x) ↔
      (∀ pre x post, l = pre ++ x :: post → P pre x) ∧ P l a := by
  constructor
  · intro h
    constructor
    · intro pre x post heq
      apply h pre x (post ++ [a])
      rw [heq, List.append_assoc]
      rfl
    · exact h l a [] rfl
  · intro h pre x post heq
    rcases List.eq_nil_or_concat post with rfl | ⟨init, last, rfl⟩
    · obtain ⟨rfl, hx⟩ := List.append_inj' heq rfl
      rw [← (List.cons.inj hx).1]
      exact h.2
    · have hassoc : pre ++ x :: (init ++ [last]) = (pre ++ x :: init) ++ [last] := by
        rw [List.append_assoc]
        rfl
      rw [List.concat_eq_append, hassoc] at heq
      exact h.1 pre x init (List.append_inj' heq rfl).1

/-- A member of the concatenation, and what is in front of it. -/
theorem flatMap_eq_append_cons {ι : Type} (l : List ι) (f : ι → List α) (pre post : List α)
    (a : α) (h : l.flatMap f = pre ++ a :: post) :
    ∃ before x after p q, l = before ++ x :: after ∧ f x = p ++ a :: q ∧
      pre = before.flatMap f ++ p := by
  induction l generalizing pre with
  | nil => cases pre <;> cases h
  | cons x l ih =>
    rw [List.flatMap_cons] at h
    rcases List.append_eq_append_iff.mp h with ⟨s, rfl, hl⟩ | ⟨s, hx, hpost⟩
    · obtain ⟨before, y, after, p, q, rfl, hy, rfl⟩ := ih s hl
      refine ⟨x :: before, y, after, p, q, rfl, hy, ?_⟩
      rw [List.flatMap_cons, List.append_assoc]
    · cases s with
      | nil =>
        obtain ⟨before, y, after, p, q, rfl, hy, hnil⟩ := ih [] hpost.symm
        refine ⟨x :: before, y, after, p, q, rfl, hy, ?_⟩
        rw [List.flatMap_cons, List.append_assoc, ← hnil, hx, List.append_nil, List.append_nil]
      | cons b s =>
        obtain ⟨rfl, -⟩ := List.cons.inj hpost
        exact ⟨[], x, l, pre, s, rfl, hx, rfl⟩

/-- Names and values of what counts. -/
def labelled {γ : Type} (p : α → Bool) (key : α → γ) (f : α → β) (l : List α) : List (γ × β) :=
  (l.filter p).map fun a => (key a, f a)

theorem mem_labelled {γ : Type} (p : α → Bool) (key : α → γ) (f : α → β) (l : List α)
    (e : γ × β) :
    e ∈ labelled p key f l ↔ ∃ a ∈ l, p a = true ∧ key a = e.1 ∧ f a = e.2 := by
  rw [labelled, List.mem_map]
  constructor
  · intro hall
    obtain ⟨a, ha, rfl⟩ := hall
    obtain ⟨ha, hp⟩ := List.mem_filter.mp ha
    exact ⟨a, ha, hp, rfl, rfl⟩
  · intro hall
    obtain ⟨a, ha, hp, hkey, hf⟩ := hall
    exact ⟨a, List.mem_filter.mpr ⟨ha, hp⟩, Prod.ext hkey hf⟩

theorem labelled_nodup {γ : Type} (p : α → Bool) (key : α → γ) (f : α → β) (l : List α)
    (h : (l.map key).Nodup) : (labelled p key f l).Nodup := by
  have hfst : ((labelled p key f l).map Prod.fst).Nodup := by
    rw [labelled, List.map_map]
    exact h.sublist ((List.filter_sublist).map key)
  exact hfst.of_map Prod.fst

theorem labelled_snd {γ : Type} (p : α → Bool) (key : α → γ) (f : α → β) (l : List α) :
    (labelled p key f l).map Prod.snd = (l.filter p).map f := by
  rw [labelled, List.map_map]
  rfl

theorem perm_filter_map_iff (l : List α) (f : α → β) (h : (l.map f).Nodup) (p q : α → Bool) :
    ((l.filter p).map f).Perm ((l.filter q).map f) ↔ ∀ a ∈ l, (p a = true ↔ q a = true) := by
  constructor
  · intro hperm a ha
    have hmem : ∀ r : α → Bool, f a ∈ (l.filter r).map f ↔ r a = true := by
      intro r
      constructor
      · intro hin
        obtain ⟨b, hb, heq⟩ := List.mem_map.mp hin
        obtain ⟨hb, hr⟩ := List.mem_filter.mp hb
        rw [← List.inj_on_of_nodup_map h hb ha heq]
        exact hr
      · exact fun hr => List.mem_map_of_mem (List.mem_filter.mpr ⟨ha, hr⟩)
    rw [← hmem p, ← hmem q]
    exact hperm.mem_iff
  · intro hsame
    rw [List.filter_congr fun a ha => Bool.eq_iff_iff.mpr (hsame a ha)]

end

section

variable {α : Type} [DecidableEq α]

/-! ### Books that count -/

/-- `none` if a debit finds nothing. -/
def settle : List (Entry α) → List α → Option (List α)
  | [], l => some l
  | .credit a :: es, l => settle es (l ++ [a])
  | .debit a :: es, l => if a ∈ l then settle es (l.erase a) else none

theorem settle_append (es fs : List (Entry α)) (l : List α) :
    settle (es ++ fs) l = (settle es l).bind (settle fs) := by
  induction es generalizing l with
  | nil => rfl
  | cons e es ih =>
    cases e with
    | credit a => exact ih _
    | debit a =>
      rw [List.cons_append, settle, settle]
      split_ifs
      · exact ih _
      · rfl

theorem settle_count (es : List (Entry α)) (l l' : List α) (h : settle es l = some l') (a : α) :
    l'.count a + (debited es).count a = l.count a + (credited es).count a := by
  induction es generalizing l with
  | nil =>
    rw [settle, Option.some.injEq] at h
    rw [h]
    rfl
  | cons e es ih =>
    cases e with
    | credit b =>
      rw [settle] at h
      have hrest := ih _ h
      rw [List.count_append, List.count_singleton] at hrest
      rw [debited_credit, credited_credit, List.count_cons]
      omega
    | debit b =>
      rw [settle] at h
      split_ifs at h with hmem
      have hrest := ih _ h
      have hpos := List.count_pos_iff.mpr hmem
      rw [debited_debit, credited_debit, List.count_cons]
      by_cases hab : b = a
      · subst hab
        rw [List.count_erase_self] at hrest
        simp only [beq_self_eq_true, if_true]
        omega
      · rw [List.count_erase_of_ne fun h => hab h.symm] at hrest
        simp only [beq_iff_eq, hab, if_false]
        omega

/-- What is left, up to its order. -/
theorem settle_perm_iff (es : List (Entry α)) (l counted left : List α)
    (h : settle es l = some counted) :
    counted.Perm left ↔
      ∀ a, l.count a + (credited es).count a = (debited es).count a + left.count a := by
  rw [List.perm_iff_count]
  apply forall_congr'
  intro a
  have hcount := settle_count es l counted h a
  omega

/-- At every point, at most as much has been taken as there was. -/
def Covered (l : List α) (es : List (Entry α)) : Prop :=
  ∀ pre, pre <+: es → ∀ a, (debited pre).count a ≤ l.count a + (credited pre).count a

theorem settle_isSome_iff (es : List (Entry α)) (l : List α) :
    (settle es l).isSome = true ↔ Covered l es := by
  constructor
  · intro h pre hpre a
    obtain ⟨post, rfl⟩ := hpre
    obtain ⟨r, hr⟩ := Option.isSome_iff_exists.mp h
    rw [settle_append] at hr
    obtain ⟨l', hl', -⟩ := Option.bind_eq_some_iff.mp hr
    have hcount := settle_count pre l l' hl' a
    omega
  · intro h
    induction es generalizing l with
    | nil => rfl
    | cons e es ih =>
      cases e with
      | credit b =>
        rw [settle]
        apply ih
        intro pre hpre a
        have hle := h (.credit b :: pre) (List.cons_prefix_cons.mpr ⟨rfl, hpre⟩) a
        rw [debited_credit, credited_credit, List.count_cons] at hle
        rw [List.count_append, List.count_singleton]
        omega
      | debit b =>
        have hone := h [.debit b] (List.cons_prefix_cons.mpr ⟨rfl, List.nil_prefix⟩) b
        simp only [debited_debit, debited_nil, credited_debit, credited_nil, List.count_nil,
          List.count_singleton_self, Nat.add_zero] at hone
        have hmem : b ∈ l := List.count_pos_iff.mp hone
        rw [settle, if_pos hmem]
        apply ih
        intro pre hpre a
        have hle := h (.debit b :: pre) (List.cons_prefix_cons.mpr ⟨rfl, hpre⟩) a
        rw [debited_debit, credited_debit, List.count_cons] at hle
        by_cases hab : b = a
        · subst hab
          rw [List.count_erase_self]
          simp only [beq_self_eq_true, if_true] at hle
          omega
        · rw [List.count_erase_of_ne fun h => hab h.symm]
          simp only [beq_iff_eq, hab, if_false] at hle
          omega

/-- What is contained, without duplicates, in something with the same counts is all of it. -/
theorem matched_iff {γ : Type} (l m : List (γ × α)) (hl : l.Nodup) (hm : m.Nodup)
    (hsub : l ⊆ m) :
    (∀ a, (l.map Prod.snd).count a = (m.map Prod.snd).count a) ↔ m ⊆ l := by
  constructor
  · intro hcount
    have hperm : (l.map Prod.snd).Perm (m.map Prod.snd) := List.perm_iff_count.mpr hcount
    have hlength := hperm.length_eq
    rw [List.length_map, List.length_map] at hlength
    exact ((hl.subperm hsub).perm_of_length_le (Nat.le_of_eq hlength.symm)).symm.subset
  · intro hback a
    have hperm : l.Perm m := (hl.subperm hsub).antisymm (hm.subperm hback)
    exact (hperm.map Prod.snd).count_eq a

theorem count_filter_map {β : Type} (l : List β) (p : β → Bool) (f : β → α) (a : α) :
    ((l.filter p).map f).count a = (l.filter fun b => p b && decide (f b = a)).length := by
  induction l with
  | nil => rfl
  | cons b l ih =>
    rw [List.filter_cons, List.filter_cons]
    by_cases hp : p b = true
    · rw [if_pos hp, List.map_cons, List.count_cons, ih, hp, Bool.true_and]
      by_cases ha : f b = a
      · simp [ha]
      · simp [ha]
    · rw [if_neg hp, ih, if_neg]
      simp [hp]

theorem count_filter_or {β : Type} (l : List β) (p q : β → Bool) (f : β → α) (a : α)
    (h : ∀ b ∈ l, p b = true → q b = false) :
    ((l.filter fun b => p b || q b).map f).count a =
      ((l.filter p).map f).count a + ((l.filter q).map f).count a := by
  induction l with
  | nil => rfl
  | cons b l ih =>
    have htail := ih fun c hc => h c (List.mem_cons_of_mem _ hc)
    rw [List.filter_cons, List.filter_cons, List.filter_cons]
    by_cases hp : p b = true
    · have hq : q b = false := h b (List.mem_cons_self ..) hp
      simp only [hp, hq, Bool.or_false, if_true, Bool.false_eq_true, if_false, List.map_cons,
        List.count_cons, htail]
      omega
    · rw [Bool.not_eq_true] at hp
      by_cases hq : q b = true
      · simp only [hp, hq, Bool.or_true, if_true, Bool.false_eq_true, if_false, List.map_cons,
          List.count_cons, htail]
        omega
      · simp only [hp, hq, Bool.or_false, Bool.false_eq_true, if_false, htail]

theorem chosen_of_count_eq {β : Type} (l : List β) (p q : β → Bool) (f : β → α) (a : α)
    (himp : ∀ b ∈ l, f b = a → p b = true → q b = true)
    (hcount : ((l.filter p).map f).count a = ((l.filter q).map f).count a) (b : β) (hb : b ∈ l)
    (hf : f b = a) (hq : q b = true) : p b = true := by
  have hwithin : (l.filter fun b => p b && decide (f b = a)) =
      (l.filter fun b => q b && decide (f b = a)).filter p := by
    rw [List.filter_filter]
    apply List.filter_congr
    intro c hc
    rw [Bool.eq_iff_iff]
    simp only [Bool.and_eq_true, decide_eq_true_eq]
    exact ⟨fun h => ⟨h.1, himp c hc h.2 h.1, h.2⟩, fun h => ⟨h.1, h.2.2⟩⟩
  rw [count_filter_map, count_filter_map, hwithin] at hcount
  have hall := List.filter_eq_self.mp (List.filter_sublist.eq_of_length hcount)
  exact hall b (List.mem_filter.mpr ⟨hb, by rw [hq, hf, decide_eq_true rfl]; rfl⟩)

/-- If whatever counts and is taken has been brought before under its name, the books
are covered. -/
theorem covered_of_brought {β γ : Type} (p : β → Bool) (key : β → γ) (f : β → α)
    (es : List (Entry β)) (honce : ((debited es).map key).Nodup)
    (h : ∀ pre d post, es = pre ++ .debit d :: post → p d = true →
      ∃ c ∈ credited pre, p c = true ∧ key c = key d ∧ f c = f d) :
    Covered [] (entriesOf p f es) := by
  intro pre hpre a
  obtain ⟨kept, hkept, rfl⟩ := List.prefix_map_iff.mp hpre
  obtain ⟨before, ⟨after, rfl⟩, rfl⟩ := List.prefix_filter_iff.mp hkept
  have hdebits : (debited before).Sublist (debited (before ++ after)) := by
    rw [debited_append]
    exact List.sublist_append_left _ _
  have hsub : labelled p key f (debited before) ⊆ labelled p key f (credited before) := by
    intro e he
    obtain ⟨d, hd, hp, hkey, hf⟩ := (mem_labelled p key f _ e).mp he
    obtain ⟨s, t, hsplit⟩ := List.append_of_mem ((mem_debited before d).mp hd)
    obtain ⟨c, hc, hpc, hkeys, hfs⟩ := h s d (t ++ after) (by rw [hsplit, List.append_assoc]; rfl) hp
    refine (mem_labelled p key f _ e).mpr ⟨c, ?_, hpc, hkeys.trans hkey, hfs.trans hf⟩
    rw [hsplit, credited_append]
    exact List.mem_append_left _ hc
  have hnodup := labelled_nodup p key f _ (honce.sublist (hdebits.map key))
  obtain ⟨chosen, hperm, hsublist⟩ := hnodup.subperm hsub
  have hle : ((labelled p key f (debited before)).map Prod.snd).count a ≤
      ((labelled p key f (credited before)).map Prod.snd).count a :=
    calc _ = (chosen.map Prod.snd).count a := ((hperm.map Prod.snd).count_eq a).symm
      _ ≤ _ := (hsublist.map Prod.snd).count_le a
  rw [labelled_snd, labelled_snd, ← debited_entriesOf, ← credited_entriesOf] at hle
  rw [List.count_nil, Nat.zero_add]
  exact hle

/-! ### Books that mark -/

def markEntry (l : List α) : Entry α → List α
  | .credit a => l ++ [a]
  | .debit a => l.filter fun b => decide (b ≠ a)

def mark (es : List (Entry α)) (l : List α) : List α := es.foldl markEntry l

theorem mark_append (es fs : List (Entry α)) (l : List α) :
    mark (es ++ fs) l = mark fs (mark es l) := List.foldl_append

/-- What is brought once, and not taken away before, is there until it is taken away. -/
theorem mark_eq (es : List (Entry α)) (h : es.Pairwise NewCredit) :
    mark es [] = (credited es).filter fun a => decide (a ∉ debited es) := by
  induction es using List.reverseRecOn with
  | nil => rfl
  | append_singleton es e ih =>
    obtain ⟨hes, -, hlast⟩ := List.pairwise_append.mp h
    have hstep : mark (es ++ [e]) [] = markEntry (mark es []) e := mark_append es [e] []
    rw [hstep, ih hes, credited_append, debited_append]
    cases e with
    | credit a =>
      have ha : a ∉ debited es := by
        intro hmem
        exact hlast _ ((mem_debited es a).mp hmem) _ (List.mem_singleton_self _) rfl
      simp [markEntry, List.filter_append, ha]
    | debit a =>
      rw [markEntry, List.filter_filter]
      simp only [credited_debit, credited_nil, List.append_nil, debited_debit, debited_nil,
        List.mem_append, List.mem_singleton]
      apply List.filter_congr
      intro b _
      rw [← Bool.decide_and]
      exact decide_eq_decide.mpr (and_comm.trans not_or.symm)

theorem mark_entriesOf {β : Type} (p : β → Bool) (f : β → α) (es : List (Entry β))
    (h : es.Pairwise fun e e' => NewCredit (e.map f) (e'.map f)) :
    mark (entriesOf p f es) [] =
      ((credited es).filter fun b =>
        p b && decide (f b ∉ ((debited es).filter p).map f)).map f := by
  have hnew : (entriesOf p f es).Pairwise NewCredit := List.pairwise_map.mpr (h.filter _)
  rw [mark_eq _ hnew, credited_entriesOf, debited_entriesOf, List.filter_map, List.filter_filter]
  congr 1
  apply List.filter_congr
  intro b _
  exact Bool.and_comm _ _

end

end Movy
