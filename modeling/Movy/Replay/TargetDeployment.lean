import Movy.Lib.Run
import Movy.Store.Object
import Mathlib.Data.Finset.Card
import Mathlib.Data.Finset.Image
import Mathlib.Logic.Function.Basic

/-!
# Deployments at a chosen address (`movy-replay/src/exec.rs`)

The execution engine asks the execution mode where to put a new package, and
knows the transaction by its digest only. `TARGET_DEPLOYMENT` is the global
table that answers, and a `GlobalDeployment` is a guard that holds one entry of
it while its transaction runs. Any number of threads may run at once, so a run
here is an interleaving of their steps.
-/

namespace Movy.Replay

open Store

variable {β D : Type} [LinearOrder D]

/-- The gas budget of a `TransactionData`, which the guard may raise, and the rest. -/
structure TransactionData (β : Type) where
  gasBudget : ℕ
  rest : β

def TransactionData.raiseBudget (tx : TransactionData β) : TransactionData β :=
  { tx with gasBudget := (tx.gasBudget + 1) % 2 ^ 64 }

structure GlobalDeployment (D : Type) where
  digest : D

/-- Where a thread is: outside, in the loop of `GlobalDeployment::new`, or
executing its transaction with the guard alive. -/
inductive Thread (β D : Type) where
  | idle
  | entering (tx : TransactionData β) (target : ObjectID)
  | executing (tx : TransactionData β) (guard : GlobalDeployment D) (target : ObjectID)

structure State (β D : Type) [LinearOrder D] where
  targetDeployment : SortedMap D ObjectID
  threads : ℕ → Thread β D

def State.initial : State β D := ⟨SortedMap.empty, fun _ => .idle⟩

def State.targetedDeployment (s : State β D) (digest : D) : Option ObjectID :=
  s.targetDeployment.get? digest

inductive Event (β : Type) where
  | enter (thread : ℕ) (tx : TransactionData β) (target : ObjectID)
  | turn (thread : ℕ)
  | leave (thread : ℕ)

/-- `GlobalDeployment::new` is called, makes one turn of its loop under the lock,
or the guard is dropped. -/
def step (digest : TransactionData β → D) (s : State β D) : Event β → Option (State β D)
  | .enter i tx target => match s.threads i with
    | .idle => some { s with threads := Function.update s.threads i (.entering tx target) }
    | _ => none
  | .turn i => match s.threads i with
    | .entering tx target => match s.targetDeployment.get? (digest tx) with
      | none => some {
          targetDeployment := s.targetDeployment.insert (digest tx) target
          threads := Function.update s.threads i (.executing tx ⟨digest tx⟩ target) }
      | some _ =>
        some { s with threads := Function.update s.threads i (.entering tx.raiseBudget target) }
    | _ => none
  | .leave i => match s.threads i with
    | .executing _ guard _ => some {
        targetDeployment := s.targetDeployment.erase guard.digest
        threads := Function.update s.threads i .idle }
    | _ => none

theorem step_cases (digest : TransactionData β → D) (s s' : State β D) (e : Event β)
    (h : step digest s e = some s') :
    (∃ i tx target, e = .enter i tx target ∧ s.threads i = .idle ∧
      s' = { s with threads := Function.update s.threads i (.entering tx target) }) ∨
    (∃ i tx target, e = .turn i ∧ s.threads i = .entering tx target ∧
      s.targetDeployment.get? (digest tx) = none ∧
      s' = ⟨s.targetDeployment.insert (digest tx) target,
        Function.update s.threads i (.executing tx ⟨digest tx⟩ target)⟩) ∨
    (∃ i tx target t, e = .turn i ∧ s.threads i = .entering tx target ∧
      s.targetDeployment.get? (digest tx) = some t ∧
      s' = { s with threads := Function.update s.threads i (.entering tx.raiseBudget target) }) ∨
    (∃ i tx guard target, e = .leave i ∧ s.threads i = .executing tx guard target ∧
      s' = ⟨s.targetDeployment.erase guard.digest, Function.update s.threads i .idle⟩) := by
  cases e with
  | enter i tx target =>
    cases ht : s.threads i with
    | idle =>
      simp only [step, ht, Option.some.injEq] at h
      exact Or.inl ⟨i, tx, target, rfl, ht, h.symm⟩
    | entering tx' t => simp [step, ht] at h
    | executing tx' g t => simp [step, ht] at h
  | turn i =>
    cases ht : s.threads i with
    | idle => simp [step, ht] at h
    | executing tx' g t => simp [step, ht] at h
    | entering tx target =>
      cases hd : s.targetDeployment.get? (digest tx) with
      | none =>
        simp only [step, ht, hd, Option.some.injEq] at h
        exact Or.inr (Or.inl ⟨i, tx, target, rfl, ht, hd, h.symm⟩)
      | some t =>
        simp only [step, ht, hd, Option.some.injEq] at h
        exact Or.inr (Or.inr (Or.inl ⟨i, tx, target, t, rfl, ht, hd, h.symm⟩))
  | leave i =>
    cases ht : s.threads i with
    | idle => simp [step, ht] at h
    | entering tx' t => simp [step, ht] at h
    | executing tx g target =>
      simp only [step, ht, Option.some.injEq] at h
      exact Or.inr (Or.inr (Or.inr ⟨i, tx, g, target, rfl, ht, h.symm⟩))

/-! ### Running deployments do not see each other -/

/-- The table holds one entry for each running deployment, under its own digest,
and nothing else. -/
structure Separate (digest : TransactionData β → D) (s : State β D) : Prop where
  own : ∀ i tx guard target, s.threads i = .executing tx guard target → guard.digest = digest tx
  held : ∀ i tx guard target, s.threads i = .executing tx guard target →
    s.targetDeployment.get? guard.digest = some target
  only : ∀ d t, s.targetDeployment.get? d = some t →
    ∃ i tx guard target, s.threads i = .executing tx guard target ∧ guard.digest = d
  apart : ∀ i j tx tx' guard guard' target target', s.threads i = .executing tx guard target →
    s.threads j = .executing tx' guard' target' → guard.digest = guard'.digest → i = j

theorem separate_initial (digest : TransactionData β → D) :
    Separate digest (State.initial : State β D) where
  own := fun _ _ _ _ h => by cases h
  held := fun _ _ _ _ h => by cases h
  only := fun _ _ h => by simp [State.initial] at h
  apart := fun _ _ _ _ _ _ _ _ h => by cases h

theorem separate_of_outside (digest : TransactionData β → D) (s : State β D) (i : ℕ)
    (next : Thread β D) (hs : Separate digest s)
    (hold : ∀ tx guard target, s.threads i ≠ .executing tx guard target)
    (hnew : ∀ tx guard target, next ≠ .executing tx guard target) :
    Separate digest { s with threads := Function.update s.threads i next } := by
  have hsame : ∀ j tx guard target,
      Function.update s.threads i next j = .executing tx guard target ↔
        s.threads j = .executing tx guard target := by
    intro j tx guard target
    by_cases hj : j = i
    · subst hj
      rw [Function.update_self]
      exact iff_of_false (hnew tx guard target) (hold tx guard target)
    · rw [Function.update_of_ne hj]
  refine ⟨?_, ?_, ?_, ?_⟩
  · intro j tx guard target hj
    exact hs.own j tx guard target ((hsame ..).mp hj)
  · intro j tx guard target hj
    exact hs.held j tx guard target ((hsame ..).mp hj)
  · intro d t hd
    obtain ⟨j, tx, guard, target, hj, hg⟩ := hs.only d t hd
    exact ⟨j, tx, guard, target, (hsame ..).mpr hj, hg⟩
  · intro j k tx tx' guard guard' target target' hj hk
    exact hs.apart j k tx tx' guard guard' target target' ((hsame ..).mp hj) ((hsame ..).mp hk)

theorem separate_place (digest : TransactionData β → D) (s : State β D) (i : ℕ)
    (tx : TransactionData β) (target : ObjectID) (hs : Separate digest s)
    (hi : s.threads i = .entering tx target)
    (hfree : s.targetDeployment.get? (digest tx) = none) :
    Separate digest ⟨s.targetDeployment.insert (digest tx) target,
      Function.update s.threads i (.executing tx ⟨digest tx⟩ target)⟩ := by
  -- a digest that is held by a running deployment is not free
  have hbusy : ∀ j tx' guard t, s.threads j = .executing tx' guard t →
      guard.digest ≠ digest tx := by
    intro j tx' guard t hj heq
    have h := hs.held j tx' guard t hj
    rw [heq, hfree] at h
    cases h
  have hcases : ∀ j tx' guard t,
      Function.update s.threads i (.executing tx ⟨digest tx⟩ target) j = .executing tx' guard t →
      (j = i ∧ tx' = tx ∧ guard.digest = digest tx ∧ t = target) ∨
        (j ≠ i ∧ s.threads j = .executing tx' guard t) := by
    intro j tx' guard t hj
    by_cases hji : j = i
    · subst hji
      rw [Function.update_self] at hj
      cases hj
      exact Or.inl ⟨rfl, rfl, rfl, rfl⟩
    · rw [Function.update_of_ne hji] at hj
      exact Or.inr ⟨hji, hj⟩
  refine ⟨?_, ?_, ?_, ?_⟩
  · intro j tx' guard t hj
    obtain ⟨-, rfl, hg, -⟩ | ⟨-, hj⟩ := hcases j tx' guard t hj
    · exact hg
    · exact hs.own j tx' guard t hj
  · intro j tx' guard t hj
    rw [SortedMap.get?_insert]
    obtain ⟨-, -, hg, rfl⟩ | ⟨-, hj⟩ := hcases j tx' guard t hj
    · rw [if_pos hg]
    · rw [if_neg (hbusy j tx' guard t hj)]
      exact hs.held j tx' guard t hj
  · intro d t hd
    rw [SortedMap.get?_insert] at hd
    by_cases hdt : d = digest tx
    · exact ⟨i, tx, ⟨digest tx⟩, target, Function.update_self .., hdt.symm⟩
    · rw [if_neg hdt] at hd
      obtain ⟨j, tx', guard, t', hj, hg⟩ := hs.only d t hd
      have hji : j ≠ i := by
        intro heq
        rw [heq, hi] at hj
        cases hj
      exact ⟨j, tx', guard, t', (Function.update_of_ne hji _ _).trans hj, hg⟩
  · intro j k tx₁ tx₂ g₁ g₂ t₁ t₂ hj hk hg
    obtain ⟨rfl, -, hg₁, -⟩ | ⟨-, hj⟩ := hcases j tx₁ g₁ t₁ hj
    · obtain ⟨rfl, -, -, -⟩ | ⟨-, hk⟩ := hcases k tx₂ g₂ t₂ hk
      · rfl
      · exact absurd (hg.symm.trans hg₁) (hbusy k tx₂ g₂ t₂ hk)
    · obtain ⟨-, -, hg₂, -⟩ | ⟨-, hk⟩ := hcases k tx₂ g₂ t₂ hk
      · exact absurd (hg.trans hg₂) (hbusy j tx₁ g₁ t₁ hj)
      · exact hs.apart j k tx₁ tx₂ g₁ g₂ t₁ t₂ hj hk hg

theorem separate_drop (digest : TransactionData β → D) (s : State β D) (i : ℕ)
    (tx : TransactionData β) (guard : GlobalDeployment D) (target : ObjectID)
    (hs : Separate digest s) (hi : s.threads i = .executing tx guard target) :
    Separate digest ⟨s.targetDeployment.erase guard.digest,
      Function.update s.threads i .idle⟩ := by
  have hother : ∀ j tx' guard' t, Function.update s.threads i .idle j = .executing tx' guard' t →
      s.threads j = .executing tx' guard' t ∧ guard'.digest ≠ guard.digest := by
    intro j tx' guard' t hj
    by_cases hji : j = i
    · subst hji
      rw [Function.update_self] at hj
      cases hj
    · rw [Function.update_of_ne hji] at hj
      exact ⟨hj, fun hg => hji (hs.apart j i tx' tx guard' guard t target hj hi hg)⟩
  refine ⟨?_, ?_, ?_, ?_⟩
  · intro j tx' guard' t hj
    exact hs.own j tx' guard' t (hother j tx' guard' t hj).1
  · intro j tx' guard' t hj
    obtain ⟨hj, hne⟩ := hother j tx' guard' t hj
    rw [SortedMap.get?_erase, if_neg hne]
    exact hs.held j tx' guard' t hj
  · intro d t hd
    rw [SortedMap.get?_erase] at hd
    split_ifs at hd with hdg
    obtain ⟨j, tx', guard', t', hj, hg⟩ := hs.only d t hd
    have hji : j ≠ i := by
      intro heq
      rw [heq, hi] at hj
      cases hj
      exact hdg hg.symm
    exact ⟨j, tx', guard', t', (Function.update_of_ne hji _ _).trans hj, hg⟩
  · intro j k tx₁ tx₂ g₁ g₂ t₁ t₂ hj hk
    exact hs.apart j k tx₁ tx₂ g₁ g₂ t₁ t₂ (hother j tx₁ g₁ t₁ hj).1 (hother k tx₂ g₂ t₂ hk).1

theorem separate_step (digest : TransactionData β → D) (s s' : State β D) (e : Event β)
    (hs : Separate digest s) (h : step digest s e = some s') : Separate digest s' := by
  obtain ⟨i, tx, target, -, hi, rfl⟩ | ⟨i, tx, target, -, hi, hd, rfl⟩ |
    ⟨i, tx, target, t, -, hi, -, rfl⟩ | ⟨i, tx, guard, target, -, hi, rfl⟩ :=
    step_cases digest s s' e h
  · refine separate_of_outside digest s i _ hs ?_ ?_
    · intro tx' guard t ht
      rw [hi] at ht
      cases ht
    · intro tx' guard t ht
      cases ht
  · exact separate_place digest s i tx target hs hi hd
  · refine separate_of_outside digest s i _ hs ?_ ?_
    · intro tx' guard t ht
      rw [hi] at ht
      cases ht
    · intro tx' guard t ht
      cases ht
  · exact separate_drop digest s i tx guard target hs hi

theorem separate_run (digest : TransactionData β → D) (s s' : State β D) (events : List (Event β))
    (hs : Separate digest s) (h : run (step digest) s events = some s') : Separate digest s' :=
  run_invariant (step digest) (fun _ _ => True) (Separate digest)
    (fun s e next hP _ hn => separate_step digest s next e hP hn) s s' events hs
    (along_of_forall _ _ s events fun _ _ _ => trivial) h

/-- In every interleaving a running deployment is told its own target, whatever
the others do; a digest that no running deployment has is told nothing; no two
running deployments share a digest; and nothing stays behind. -/
theorem running_deployments_see_own_target (digest : TransactionData β → D) (s : State β D)
    (events : List (Event β)) (h : run (step digest) State.initial events = some s) :
    (∀ i tx guard target, s.threads i = .executing tx guard target →
      s.targetedDeployment (digest tx) = some target) ∧
    (∀ d, (∀ i tx guard target, s.threads i = .executing tx guard target → digest tx ≠ d) →
      s.targetedDeployment d = none) ∧
    (∀ i j tx tx' guard guard' target target', s.threads i = .executing tx guard target →
      s.threads j = .executing tx' guard' target' → digest tx = digest tx' → i = j) ∧
    ((∀ i tx guard target, s.threads i ≠ .executing tx guard target) →
      s.targetDeployment = SortedMap.empty) := by
  have hs := separate_run digest _ s events (separate_initial digest) h
  have hnone : ∀ d, (∀ i tx guard target, s.threads i = .executing tx guard target →
      digest tx ≠ d) → s.targetDeployment.get? d = none := by
    intro d hd
    cases ht : s.targetDeployment.get? d with
    | none => rfl
    | some t =>
      obtain ⟨i, tx, guard, target, hi, hg⟩ := hs.only d t ht
      exact absurd ((hs.own i tx guard target hi).symm.trans hg) (hd i tx guard target hi)
  refine ⟨?_, hnone, ?_, ?_⟩
  · intro i tx guard target hi
    rw [State.targetedDeployment, ← hs.own i tx guard target hi]
    exact hs.held i tx guard target hi
  · intro i j tx tx' guard guard' target target' hi hj heq
    refine hs.apart i j tx tx' guard guard' target target' hi hj ?_
    rw [hs.own i tx guard target hi, hs.own j tx' guard' target' hj, heq]
  · intro hidle
    refine SortedMap.ext_get? _ _ fun d => ?_
    rw [SortedMap.get?_empty]
    exact hnone d fun i tx guard target hi => absurd hi (hidle i tx guard target)

def budgetDigest (tx : TransactionData Unit) : ℕ := tx.gasBudget

/-- Two threads deploy with one and the same transaction; the second to get its
entry raises its budget. -/
def sharedTransaction : List (Event Unit) :=
  [.enter 0 ⟨5, ()⟩ (ObjectID.ofByte 1), .enter 1 ⟨5, ()⟩ (ObjectID.ofByte 2), .turn 1, .turn 0,
    .turn 0]

theorem running_deployments_see_own_target_shared :
    ∃ s, run (step budgetDigest) State.initial sharedTransaction = some s ∧
      s.targetedDeployment 5 = some (ObjectID.ofByte 2) ∧
      s.targetedDeployment 6 = some (ObjectID.ofByte 1) := by
  refine ⟨_, rfl, ?_, ?_⟩
  · exact (running_deployments_see_own_target budgetDigest _ sharedTransaction rfl).1 1 ⟨5, ()⟩
      ⟨5⟩ _ rfl
  · exact (running_deployments_see_own_target budgetDigest _ sharedTransaction rfl).1 0 ⟨6, ()⟩
      ⟨6⟩ _ rfl

/-! ### The loop of `GlobalDeployment::new` ends -/

/-- Another thread than `i` puts an entry into the table. -/
def otherPlaces (digest : TransactionData β → D) (i : ℕ) (s : State β D) : Event β → Bool
  | .turn j => match s.threads j with
    | .entering tx _ => j != i && (s.targetDeployment.get? (digest tx)).isNone
    | _ => false
  | _ => false

def otherPlacements (digest : TransactionData β → D) (i : ℕ) : State β D → List (Event β) → ℕ
  | _, [] => 0
  | s, e :: es => (if otherPlaces digest i s e then 1 else 0) +
      match step digest s e with
      | some next => otherPlacements digest i next es
      | none => 0

def Event.isTurnOf (i : ℕ) : Event β → Bool
  | .turn j => j == i
  | _ => false

def State.held (s : State β D) : Finset D := (s.targetDeployment.entries.map Prod.fst).toFinset

theorem mem_held (s : State β D) (d : D) :
    d ∈ s.held ↔ (s.targetDeployment.get? d).isSome := by
  rw [State.held, List.mem_toFinset, List.mem_map, Option.isSome_iff_exists]
  constructor
  · intro h
    obtain ⟨e, he, rfl⟩ := h
    exact ⟨e.2, (SortedMap.mem_entries _ _ _).mp he⟩
  · intro h
    obtain ⟨t, ht⟩ := h
    exact ⟨(d, t), (SortedMap.mem_entries _ _ _).mpr ht, rfl⟩

/-- Transactions that differ in the budget only differ in the digest. -/
def BudgetsDiffer (digest : TransactionData β → D) : Prop :=
  ∀ rest a b, a < 2 ^ 64 → b < 2 ^ 64 → digest ⟨a, rest⟩ = digest ⟨b, rest⟩ → a = b

theorem held_step (digest : TransactionData β → D) (s s' : State β D) (e : Event β) (i : ℕ)
    (tx' : TransactionData β) (target : ObjectID) (h : step digest s e = some s')
    (hi' : s'.threads i = .entering tx' target) :
    ∃ new : Finset D, s'.held ⊆ s.held ∪ new ∧
      new.card ≤ if otherPlaces digest i s e then 1 else 0 := by
  obtain ⟨j, tx, t, rfl, hj, rfl⟩ | ⟨j, tx, t, rfl, hj, hd, rfl⟩ |
    ⟨j, tx, t, u, rfl, hj, hd, rfl⟩ | ⟨j, tx, guard, t, rfl, hj, rfl⟩ :=
    step_cases digest s s' e h
  · exact ⟨∅, Finset.subset_union_left, by simp⟩
  · have hne : j ≠ i := by
      intro heq
      subst heq
      simp only [Function.update_self] at hi'
      cases hi'
    refine ⟨{digest tx}, ?_, by simp [otherPlaces, hj, hd, hne]⟩
    intro d hmem
    rw [mem_held, SortedMap.get?_insert] at hmem
    rw [Finset.mem_union, Finset.mem_singleton, mem_held]
    split_ifs at hmem with hdt
    · exact Or.inr hdt
    · exact Or.inl hmem
  · exact ⟨∅, Finset.subset_union_left, by simp⟩
  · refine ⟨∅, ?_, by simp⟩
    intro d hmem
    rw [mem_held, SortedMap.get?_erase] at hmem
    rw [Finset.union_empty, mem_held]
    split_ifs at hmem with hdg
    · simp at hmem
    · exact hmem

theorem entering_step (digest : TransactionData β → D) (s s' : State β D) (e : Event β) (i : ℕ)
    (tx tx' : TransactionData β) (target : ObjectID) (h : step digest s e = some s')
    (hi : s.threads i = .entering tx target) (hi' : s'.threads i = .entering tx' target) :
    (e.isTurnOf i = true ∧ digest tx ∈ s.held ∧ tx' = tx.raiseBudget) ∨
      (e.isTurnOf i = false ∧ tx' = tx) := by
  obtain ⟨j, txj, t, rfl, hj, rfl⟩ | ⟨j, txj, t, rfl, hj, hd, rfl⟩ |
    ⟨j, txj, t, u, rfl, hj, hd, rfl⟩ | ⟨j, txj, guard, t, rfl, hj, rfl⟩ :=
    step_cases digest s s' e h
  · have hne : i ≠ j := by
      intro heq
      rw [heq, hj] at hi
      cases hi
    simp only [Function.update_of_ne hne, hi, Thread.entering.injEq, and_true] at hi'
    exact Or.inr ⟨rfl, hi'.symm⟩
  · by_cases hij : i = j
    · subst hij
      simp only [Function.update_self] at hi'
      cases hi'
    · simp only [Function.update_of_ne hij, hi, Thread.entering.injEq, and_true] at hi'
      exact Or.inr ⟨by simp [Event.isTurnOf, Ne.symm hij], hi'.symm⟩
  · by_cases hij : i = j
    · subst hij
      rw [hi] at hj
      cases hj
      simp only [Function.update_self, Thread.entering.injEq, and_true] at hi'
      exact Or.inl ⟨by simp [Event.isTurnOf], by rw [mem_held, hd]; rfl, hi'.symm⟩
    · simp only [Function.update_of_ne hij, hi, Thread.entering.injEq, and_true] at hi'
      exact Or.inr ⟨by simp [Event.isTurnOf, Ne.symm hij], hi'.symm⟩
  · have hne : i ≠ j := by
      intro heq
      rw [heq, hj] at hi
      cases hi
    simp only [Function.update_of_ne hne, hi, Thread.entering.injEq, and_true] at hi'
    exact Or.inr ⟨rfl, hi'.symm⟩

theorem entering_or_placed (digest : TransactionData β → D) (s s' : State β D) (e : Event β)
    (i : ℕ) (tx : TransactionData β) (target : ObjectID) (h : step digest s e = some s')
    (hi : s.threads i = .entering tx target) :
    (∃ tx', s'.threads i = .entering tx' target) ∨
      (e = .turn i ∧ s'.threads i = .executing tx ⟨digest tx⟩ target) := by
  obtain ⟨j, txj, t, rfl, hj, rfl⟩ | ⟨j, txj, t, rfl, hj, hd, rfl⟩ |
    ⟨j, txj, t, u, rfl, hj, hd, rfl⟩ | ⟨j, txj, guard, t, rfl, hj, rfl⟩ :=
    step_cases digest s s' e h
  · have hne : i ≠ j := by
      intro heq
      rw [heq, hj] at hi
      cases hi
    exact Or.inl ⟨tx, (Function.update_of_ne hne _ _).trans hi⟩
  · by_cases hij : i = j
    · subst hij
      rw [hi] at hj
      cases hj
      exact Or.inr ⟨rfl, Function.update_self ..⟩
    · exact Or.inl ⟨tx, (Function.update_of_ne hij _ _).trans hi⟩
  · by_cases hij : i = j
    · subst hij
      rw [hi] at hj
      cases hj
      exact Or.inl ⟨tx.raiseBudget, Function.update_self ..⟩
    · exact Or.inl ⟨tx, (Function.update_of_ne hij _ _).trans hi⟩
  · have hne : i ≠ j := by
      intro heq
      rw [heq, hj] at hi
      cases hi
    exact Or.inl ⟨tx, (Function.update_of_ne hne _ _).trans hi⟩

def tried (digest : TransactionData β → D) (rest : β) (b n : ℕ) : Finset D :=
  (Finset.range n).image fun k => digest ⟨b + k, rest⟩

theorem card_tried (digest : TransactionData β → D) (rest : β) (b n : ℕ)
    (hdiff : BudgetsDiffer digest) (hroom : b + n ≤ 2 ^ 64) : (tried digest rest b n).card = n := by
  rw [tried, Finset.card_image_of_injOn, Finset.card_range]
  intro k hk l hl heq
  rw [Finset.coe_range, Set.mem_Iio] at hk hl
  have h := hdiff rest (b + k) (b + l) (by omega) (by omega) heq
  omega

/-- Along a run: a thread that has failed `n` turns fails more of them only as
digests are used up, and each digest of the table or placed later is used up
once. -/
theorem entering_run (digest : TransactionData β → D) (hdiff : BudgetsDiffer digest) (i : ℕ)
    (rest : β) (b : ℕ) (target : ObjectID) (events : List (Event β)) (s s' : State β D) (n : ℕ)
    (used : Finset D) (hrun : run (step digest) s events = some s')
    (hi : s.threads i = .entering ⟨b + n, rest⟩ target)
    (hroom : b + n + events.length < 2 ^ 64) (hheld : s.held ⊆ used)
    (htried : tried digest rest b n ⊆ used) :
    (n + events.countP (Event.isTurnOf i) ≤ used.card + otherPlacements digest i s events) ∨
      ∃ m u k guard, m <+: events ∧ run (step digest) s m = some u ∧
        u.threads i = .executing ⟨b + k, rest⟩ guard target ∧
        k ≤ used.card + otherPlacements digest i s m := by
  induction events generalizing s n used with
  | nil =>
    refine Or.inl ?_
    have hcard := Finset.card_le_card htried
    rw [card_tried digest rest b n hdiff (by omega)] at hcard
    simp only [List.countP_nil, otherPlacements]
    omega
  | cons e es ih =>
    obtain ⟨next, hstep, hrest⟩ := run_cons _ s s' e es hrun
    rw [List.length_cons] at hroom
    have hplace : ∀ es', otherPlacements digest i s (e :: es') =
        (if otherPlaces digest i s e then 1 else 0) + otherPlacements digest i next es' := by
      intro es'
      simp only [otherPlacements, hstep]
    obtain ⟨tx', hi'⟩ | ⟨rfl, hexec⟩ := entering_or_placed digest s next e i _ target hstep hi
    · -- still in the loop: one more failed turn, or a step of another thread
      obtain ⟨new, hsub, hnew⟩ := held_step digest s next e i tx' target hstep hi'
      have hused : (used ∪ new).card ≤ used.card + if otherPlaces digest i s e then 1 else 0 :=
        (Finset.card_union_le used new).trans (Nat.add_le_add_left hnew _)
      have hheld' : next.held ⊆ used ∪ new :=
        hsub.trans (Finset.union_subset_union_left hheld)
      have hgoal : ∀ n', next.threads i = .entering ⟨b + n', rest⟩ target →
          tried digest rest b n' ⊆ used ∪ new → b + n' + es.length < 2 ^ 64 →
          n + (e :: es).countP (Event.isTurnOf i) = n' + es.countP (Event.isTurnOf i) →
          (n + (e :: es).countP (Event.isTurnOf i) ≤
              used.card + otherPlacements digest i s (e :: es)) ∨
            ∃ m u k guard, m <+: e :: es ∧ run (step digest) s m = some u ∧
              u.threads i = .executing ⟨b + k, rest⟩ guard target ∧
              k ≤ used.card + otherPlacements digest i s m := by
        intro n' hn' ht' hr' hcount
        obtain hle | ⟨m, u, k, guard, hm, hu, hk, hlt⟩ := ih next n' (used ∪ new) hrest hn' hr'
          hheld' ht'
        · refine Or.inl ?_
          rw [hcount, hplace]
          omega
        · refine Or.inr ⟨e :: m, u, k, guard, List.cons_prefix_cons.mpr ⟨rfl, hm⟩, ?_, hk, ?_⟩
          · simp only [run, hstep, Option.bind_some, hu]
          · rw [hplace]
            omega
      obtain ⟨hturn, hmem, rfl⟩ | ⟨hturn, rfl⟩ :=
        entering_step digest s next e i _ tx' target hstep hi hi'
      · have hraise : (⟨b + n, rest⟩ : TransactionData β).raiseBudget = ⟨b + (n + 1), rest⟩ := by
          simp only [TransactionData.raiseBudget, TransactionData.mk.injEq, and_true]
          exact Nat.mod_eq_of_lt (by omega)
        refine hgoal (n + 1) (hraise ▸ hi') ?_ (by omega) ?_
        · intro d hd
          simp only [tried, Finset.range_add_one, Finset.image_insert, Finset.mem_insert] at hd
          rcases hd with rfl | hd
          · exact Finset.mem_union_left _ (hheld hmem)
          · exact Finset.mem_union_left _ (htried hd)
        · rw [List.countP_cons, if_pos hturn]
          omega
      · refine hgoal n hi' (htried.trans Finset.subset_union_left) (by omega) ?_
        rw [List.countP_cons, if_neg (by simp [hturn])]
        omega
    · refine Or.inr ⟨[.turn i], next, n, ⟨_⟩, by simp, ?_, hexec, ?_⟩
      · simp only [run, hstep, Option.bind_some]
      · have hcard := Finset.card_le_card htried
        rw [card_tried digest rest b n hdiff (by omega)] at hcard
        omega

/-- However the threads interleave, a call of `GlobalDeployment::new` gets its
entry by the time its turns outnumber the entries that were there and those the
others have placed since; the budget has grown by no more than their number,
and nothing else of the transaction has changed. -/
theorem deployment_gets_entry (digest : TransactionData β → D) (hdiff : BudgetsDiffer digest)
    (s s' : State β D) (events : List (Event β)) (i : ℕ) (tx : TransactionData β)
    (target : ObjectID) (hrun : run (step digest) s events = some s')
    (hi : s.threads i = .entering tx target)
    (hroom : tx.gasBudget + events.length < 2 ^ 64)
    (hturns : s.held.card + otherPlacements digest i s events < events.countP (Event.isTurnOf i)) :
    ∃ m u k guard, m <+: events ∧ run (step digest) s m = some u ∧
      u.threads i = .executing ⟨tx.gasBudget + k, tx.rest⟩ guard target ∧
      k ≤ s.held.card + otherPlacements digest i s m := by
  obtain hle | h := entering_run digest hdiff i tx.rest tx.gasBudget target events s s' 0 s.held
    hrun hi hroom (Finset.Subset.refl _) (by simp [tried])
  · omega
  · exact h

def contended : State Unit ℕ :=
  ⟨SortedMap.empty.insert 5 (ObjectID.ofByte 1),
    fun i => if i = 0 then .entering ⟨5, ()⟩ (ObjectID.ofByte 2)
      else if i = 1 then .executing ⟨5, ()⟩ ⟨5⟩ (ObjectID.ofByte 1) else .idle⟩

theorem deployment_gets_entry_contended :
    ∃ m u k guard, m <+: [Event.turn 0, .turn 0] ∧ run (step budgetDigest) contended m = some u ∧
      u.threads 0 = .executing ⟨5 + k, ()⟩ guard (ObjectID.ofByte 2) ∧
      k ≤ contended.held.card + otherPlacements budgetDigest 0 contended m := by
  obtain ⟨s', hs'⟩ : ∃ s', run (step budgetDigest) contended [.turn 0, .turn 0] = some s' :=
    Option.isSome_iff_exists.mp (by decide)
  exact deployment_gets_entry budgetDigest (fun _ _ _ _ _ h => h) contended s' _ 0 ⟨5, ()⟩
    (ObjectID.ofByte 2) hs' rfl (by decide) (by decide)

end Movy.Replay
