import Movy.Tracer.Fuzz
import Mathlib.Data.List.Induction

/-!
# Replaying a stage (`movy-fuzz/src/mutators/utils.rs`)

A mutator that succeeded keeps the sequence it made. While it runs again on
the same input and the last execution failed at some stage, `StageReplay`
hands the kept sequence back, with the stage to work on.
-/

namespace Movy.Fuzz

open Movy.Types

abbrev Fingerprint := Fin (2 ^ 64)

def maxStageReplayAttempts : ℕ := 30

inductive MutatorKind where
  | sequence
  | arg
  | magic
  deriving DecidableEq

structure ExecutionExtraOutcome where
  logs : Tracer.FunctionIdent → List Tracer.Log
  solver : Tracer.ConcolicState
  stageIdx : Option ℕ
  success : Bool

inductive StageReplayAction where
  | fresh
  | replay (stageIdx : ℕ) (snapshot : MoveSequence)

structure StageReplay where
  kind : MutatorKind
  cached : Option MoveSequence
  cachedFingerprint : Option Fingerprint
  stageIdx : Option ℕ
  attempts : ℕ

namespace StageReplay

def new (kind : MutatorKind) : StageReplay := ⟨kind, none, none, none, 0⟩

def invalidateCache (self : StageReplay) : StageReplay :=
  { self with cached := none, cachedFingerprint := none }

def resetProgress (self : StageReplay) : StageReplay := { self with stageIdx := none, attempts := 0 }

def restartProgress (self : StageReplay) : StageReplay :=
  { self with stageIdx := some 0, attempts := 0 }

/- One stage further at most, unless the execution came less far. -/
def nextStage (current : Option ℕ) (stageIdx : ℕ) : ℕ :=
  match current with
  | some current => if current < stageIdx then current + 1 else stageIdx
  | none => stageIdx

/- The end of `decide`, for an outcome with a stage. -/
def advance (self : StageReplay) (stageIdx : ℕ) : StageReplay × StageReplayAction :=
  let next := nextStage self.stageIdx stageIdx
  let attempts := if self.stageIdx = some next then self.attempts + 1 else 1
  let self := { self with stageIdx := some next, attempts := attempts }
  let self := if maxStageReplayAttempts ≤ attempts then self.restartProgress else self
  match self.cached, self.stageIdx with
  | some snapshot, some stageIdx => (self, .replay stageIdx snapshot)
  | _, _ => (self, .fresh)

def decide (self : StageReplay) (currentMutator : Option MutatorKind)
    (outcome : Option ExecutionExtraOutcome) (currentFingerprint : Fingerprint) :
    StageReplay × StageReplayAction :=
  if self.cachedFingerprint.any (· != currentFingerprint) then
    ({ self.invalidateCache.resetProgress with cachedFingerprint := some currentFingerprint }, .fresh)
  else
    let self := { self with cachedFingerprint := some currentFingerprint }
    if currentMutator ≠ some self.kind then (self.resetProgress, .fresh)
    else
      match outcome.bind (·.stageIdx) with
      | none => (self.resetProgress, .fresh)
      | some stageIdx => self.advance stageIdx

def recordSuccess (self : StageReplay) (ptb : MoveSequence) : StageReplay :=
  { self with cached := some ptb }

end StageReplay

/-! ### Runs -/

inductive StageReplay.Call where
  | decide (currentMutator : Option MutatorKind) (outcome : Option ExecutionExtraOutcome)
      (currentFingerprint : Fingerprint)
  | recordSuccess (ptb : MoveSequence)

namespace StageReplay

def call (self : StageReplay) : Call → StageReplay
  | .decide m o fp => (self.decide m o fp).1
  | .recordSuccess ptb => self.recordSuccess ptb

def after (kind : MutatorKind) (calls : List Call) : StageReplay := calls.foldl call (new kind)

def Call.isDecide : Call → Bool
  | .decide .. => true
  | .recordSuccess _ => false

/- Every recording has a decision somewhere before it. -/
def Preceded (calls : List Call) : Prop :=
  ∀ before ptb later, calls = before ++ .recordSuccess ptb :: later → ∃ c ∈ before, c.isDecide = true

/- `ptb` was recorded last, and every decision from the one just before that on
was given the fingerprint `fp`. -/
def RecordedUnder (fp : Fingerprint) (ptb : MoveSequence) (calls : List Call) : Prop :=
  ∃ before m o records later,
    calls = before ++ .decide m o fp :: (records ++ .recordSuccess ptb :: later) ∧
    (∀ c ∈ records, c.isDecide = false) ∧ ∀ c ∈ later, ∃ m o, c = .decide m o fp

/-! ### One call -/

theorem nextStage_le (current : Option ℕ) (stageIdx : ℕ) : nextStage current stageIdx ≤ stageIdx := by
  cases current with
  | none => exact le_rfl
  | some current =>
    simp only [nextStage]
    split_ifs <;> omega

/- What a decision can do to the replay, and what a replayed sequence says. -/
structure Decided (prev next : StageReplay) (outcome : Option ExecutionExtraOutcome)
    (fp : Fingerprint) (action : StageReplayAction) : Prop where
  fingerprint : next.cachedFingerprint = some fp
  attempts : next.attempts < maxStageReplayAttempts
  cached : ∀ ptb, next.cached = some ptb →
    prev.cached = some ptb ∧ ∀ fp', prev.cachedFingerprint = some fp' → fp' = fp
  replay : ∀ stageIdx ptb, action = .replay stageIdx ptb → next.cached = some ptb ∧
    ∃ ex s, outcome = some ex ∧ ex.stageIdx = some s ∧ stageIdx ≤ s

theorem advance_cases (self : StageReplay) (stageIdx : ℕ) :
    (self.advance stageIdx).1.cachedFingerprint = self.cachedFingerprint ∧
      (self.advance stageIdx).1.cached = self.cached ∧
      (self.advance stageIdx).1.attempts < maxStageReplayAttempts ∧
      ∀ s ptb, (self.advance stageIdx).2 = .replay s ptb → self.cached = some ptb ∧ s ≤ stageIdx := by
  have hnext := nextStage_le self.stageIdx stageIdx
  have hmax : 0 < maxStageReplayAttempts := by decide
  simp only [advance]
  generalize nextStage self.stageIdx stageIdx = next at hnext
  generalize hn : (if self.stageIdx = some next then self.attempts + 1 else 1) = attempts
  by_cases hr : maxStageReplayAttempts ≤ attempts
  · simp only [if_pos hr, restartProgress]
    cases hc : self.cached with
    | none => exact ⟨rfl, rfl, hmax, fun s ptb h => by cases h⟩
    | some kept =>
      refine ⟨rfl, rfl, hmax, fun s ptb h => ?_⟩
      cases h
      exact ⟨rfl, Nat.zero_le _⟩
  · simp only [if_neg hr]
    cases hc : self.cached with
    | none => exact ⟨rfl, rfl, Nat.lt_of_not_le hr, fun s ptb h => by cases h⟩
    | some kept =>
      refine ⟨rfl, rfl, Nat.lt_of_not_le hr, fun s ptb h => ?_⟩
      cases h
      exact ⟨rfl, hnext⟩

theorem decide_cases (self : StageReplay) (m : Option MutatorKind)
    (o : Option ExecutionExtraOutcome) (fp : Fingerprint) :
    Decided self (self.decide m o fp).1 o fp (self.decide m o fp).2 := by
  have hmax : 0 < maxStageReplayAttempts := by decide
  unfold decide
  by_cases hfp : self.cachedFingerprint.any (· != fp) = true
  · rw [if_pos hfp]
    exact ⟨rfl, hmax, fun ptb h => (by cases h), fun s ptb h => (by cases h)⟩
  have hsame : ∀ fp', self.cachedFingerprint = some fp' → fp' = fp := by
    intro fp' h
    simp only [h, Option.any_some, bne_iff_ne, ne_eq, not_not] at hfp
    exact hfp
  rw [if_neg hfp]
  dsimp only
  by_cases hm : m ≠ some self.kind
  · rw [if_pos hm]
    exact ⟨rfl, hmax, fun ptb h => ⟨h, hsame⟩, fun s ptb h => (by cases h)⟩
  rw [if_neg hm]
  cases ho : o.bind (·.stageIdx) with
  | none => exact ⟨rfl, hmax, fun ptb h => ⟨h, hsame⟩, fun s ptb h => (by cases h)⟩
  | some stageIdx =>
    obtain ⟨ex, hex, hstage⟩ := Option.bind_eq_some_iff.mp ho
    obtain ⟨hf, hc, hlt, hr⟩ :=
      advance_cases { self with cachedFingerprint := some fp } stageIdx
    refine ⟨hf, hlt, fun ptb h => ⟨hc.symm.trans h, hsame⟩, fun s ptb h => ?_⟩
    obtain ⟨hkept, hle⟩ := hr s ptb h
    exact ⟨hc.trans hkept, ex, stageIdx, hex, hstage, hle⟩

/-! ### All calls -/

theorem after_snoc (kind : MutatorKind) (calls : List Call) (c : Call) :
    after kind (calls ++ [c]) = (after kind calls).call c := by
  simp only [after, List.foldl_append, List.foldl_cons, List.foldl_nil]

theorem Preceded.of_append (calls rest : List Call) (h : Preceded (calls ++ rest)) :
    Preceded calls := by
  intro before ptb later heq
  exact h before ptb (later ++ rest) (by simp [heq])

def LastDecided (fp : Fingerprint) (calls : List Call) : Prop :=
  ∃ before m o records, calls = before ++ .decide m o fp :: records ∧
    ∀ c ∈ records, c.isDecide = false

/- What the replay knows about the calls so far. -/
structure Remembers (r : StageReplay) (calls : List Call) : Prop where
  attempts : r.attempts < maxStageReplayAttempts
  decided : ∀ c ∈ calls, c.isDecide = true → ∃ fp, r.cachedFingerprint = some fp
  last : ∀ fp, r.cachedFingerprint = some fp → LastDecided fp calls
  recorded : ∀ ptb, r.cached = some ptb →
    ∃ fp, r.cachedFingerprint = some fp ∧ RecordedUnder fp ptb calls

theorem Remembers.decide (self : StageReplay) (calls : List Call) (h : Remembers self calls)
    (m : Option MutatorKind) (o : Option ExecutionExtraOutcome) (fp : Fingerprint) :
    Remembers (self.decide m o fp).1 (calls ++ [.decide m o fp]) := by
  have hd := decide_cases self m o fp
  refine ⟨hd.attempts, fun _ _ _ => ⟨fp, hd.fingerprint⟩, fun fp' h' => ?_, fun ptb hptb => ?_⟩
  · obtain rfl : fp = fp' := Option.some.inj (hd.fingerprint.symm.trans h')
    exact ⟨calls, m, o, [], rfl, fun c hc => absurd hc List.not_mem_nil⟩
  · obtain ⟨hold, hsame⟩ := hd.cached ptb hptb
    obtain ⟨fp', hfp', before, m', o', records, later, heq, hrec, hlater⟩ := h.recorded ptb hold
    obtain rfl := hsame fp' hfp'
    refine ⟨fp', hd.fingerprint, before, m', o', records, later ++ [.decide m o fp'], ?_, hrec, ?_⟩
    · rw [heq]
      simp
    · intro c hc
      rcases List.mem_append.mp hc with hc | hc
      · exact hlater c hc
      · exact ⟨m, o, List.mem_singleton.mp hc⟩

theorem Remembers.recordSuccess (self : StageReplay) (calls : List Call)
    (h : Remembers self calls) (ptb : MoveSequence) (hp : ∃ c ∈ calls, c.isDecide = true) :
    Remembers (self.recordSuccess ptb) (calls ++ [.recordSuccess ptb]) := by
  obtain ⟨c, hc, hdec⟩ := hp
  obtain ⟨fp, hfp⟩ := h.decided c hc hdec
  refine ⟨h.attempts, fun _ _ _ => ⟨fp, hfp⟩, fun fp' h' => ?_, fun ptb' hptb => ?_⟩
  · obtain ⟨before, m, o, records, heq, hrec⟩ := h.last fp' h'
    refine ⟨before, m, o, records ++ [.recordSuccess ptb], by simp [heq], fun c hc => ?_⟩
    rcases List.mem_append.mp hc with hc | hc
    · exact hrec c hc
    · rw [List.mem_singleton.mp hc]
      rfl
  · obtain rfl : ptb = ptb' := Option.some.inj hptb
    obtain ⟨before, m, o, records, heq, hrec⟩ := h.last fp hfp
    exact ⟨fp, hfp, before, m, o, records, [], by simp [heq], hrec,
      fun c hc => absurd hc List.not_mem_nil⟩

theorem remembers_after (kind : MutatorKind) (calls : List Call) (h : Preceded calls) :
    Remembers (after kind calls) calls := by
  induction calls using List.reverseRecOn with
  | nil =>
    exact ⟨Nat.zero_lt_succ _, fun c hc => absurd hc List.not_mem_nil, fun fp h => (by cases h),
      fun ptb h => (by cases h)⟩
  | append_singleton calls c ih =>
    have hrem := ih (Preceded.of_append calls [c] h)
    rw [after_snoc]
    cases c with
    | decide m o fp => exact hrem.decide _ _ m o fp
    | recordSuccess ptb => exact hrem.recordSuccess _ _ ptb (h calls ptb [] rfl)

/- In every run of calls the attempts stay below the bound. A replayed sequence
was recorded last, under the fingerprint of now, and its stage is not above
that of the outcome. -/
theorem replay_sound (kind : MutatorKind) (calls : List Call) (h : Preceded calls) :
    (∀ l, l <+: calls → (after kind l).attempts < maxStageReplayAttempts) ∧
      ∀ before m o fp later, calls = before ++ .decide m o fp :: later → ∀ stageIdx snapshot,
        ((after kind before).decide m o fp).2 = .replay stageIdx snapshot →
          RecordedUnder fp snapshot (before ++ [.decide m o fp]) ∧
            ∃ ex s, o = some ex ∧ ex.stageIdx = some s ∧ stageIdx ≤ s := by
  refine ⟨fun l hl => ?_, fun before m o fp later heq stageIdx snapshot hr => ?_⟩
  · obtain ⟨rest, rfl⟩ := hl
    exact (remembers_after kind l (h.of_append l rest)).attempts
  · subst heq
    have hrem := remembers_after kind before (h.of_append before _)
    have hd := decide_cases (after kind before) m o fp
    obtain ⟨hcached, hle⟩ := hd.replay stageIdx snapshot hr
    obtain ⟨fp', hfp', hrec⟩ := (hrem.decide _ _ m o fp).recorded snapshot hcached
    obtain rfl : fp = fp' := Option.some.inj (hd.fingerprint.symm.trans hfp')
    exact ⟨hrec, hle⟩

theorem preceded_of_decide (m : Option MutatorKind) (o : Option ExecutionExtraOutcome)
    (fp : Fingerprint) (rest : List Call) : Preceded (.decide m o fp :: rest) := by
  intro before p later heq
  cases before with
  | nil => cases heq
  | cons c before =>
    obtain ⟨rfl, -⟩ := List.cons.inj heq
    exact ⟨_, List.mem_cons_self .., rfl⟩

def mutateCalls (m : Option MutatorKind) (o : Option ExecutionExtraOutcome) (fp : Fingerprint)
    (mutated : Option MoveSequence) : List Call :=
  .decide m o fp :: mutated.toList.map Call.recordSuccess

/- Both mutators decide before they record. -/
theorem mutateCalls_preceded
    (runs : List (Option MutatorKind × Option ExecutionExtraOutcome × Fingerprint ×
      Option MoveSequence)) :
    Preceded (runs.flatMap fun r => mutateCalls r.1 r.2.1 r.2.2.1 r.2.2.2) := by
  cases runs with
  | nil =>
    intro before ptb later heq
    simp at heq
  | cons r runs => exact preceded_of_decide _ _ _ _

def stoppedAt (stageIdx : ℕ) : ExecutionExtraOutcome :=
  ⟨fun _ => [], Tracer.ConcolicState.new, some stageIdx, false⟩

/- The last call replays what the second recorded. -/
def sampleCalls : List Call :=
  [.decide none none 7, .recordSuccess ⟨[.u64 5], []⟩, .decide (some .magic) (some (stoppedAt 3)) 7]

theorem replay_sound_recorded :
    RecordedUnder 7 ⟨[.u64 5], []⟩ sampleCalls ∧
      ∃ ex s, some (stoppedAt 3) = some ex ∧ ex.stageIdx = some s ∧ 3 ≤ s := by
  exact (replay_sound .magic sampleCalls (mutateCalls_preceded
      [(none, none, 7, some ⟨[.u64 5], []⟩), (some .magic, some (stoppedAt 3), 7, none)])).2
    [.decide none none 7, .recordSuccess ⟨[.u64 5], []⟩] (some .magic) (some (stoppedAt 3)) 7 []
    rfl 3 ⟨[.u64 5], []⟩ rfl

end StageReplay

end Movy.Fuzz
