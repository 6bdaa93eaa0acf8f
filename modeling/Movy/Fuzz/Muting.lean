import Movy.Fuzz.RunTarget
import Movy.Tracer.Traced

/-!
# Disabled oracles

Each oracle keeps to its own state, and the tracer does nothing with what the
oracles report but to collect it. So to disable some of them takes their
findings out of every run of a campaign, and changes nothing else.
-/

namespace Movy.Fuzz

open Movy.Tracer Movy.Types Movy.Store

/-! ### Tracers that differ in their oracles -/

section

variable {σ τ φ : Type}

def withOracles (t : SuiFuzzTracer σ φ) (oracles : τ) (crash : Bool) (findings : List φ) :
    SuiFuzzTracer τ φ where
  currentFunctions := t.currentFunctions
  oracles := oracles
  logs := t.logs
  crash := crash
  findings := findings
  concolic := t.concolic
  skipConcolic := t.skipConcolic
  resolver := t.resolver

variable (t : SuiFuzzTracer σ φ) (s : τ) (crash : Bool) (findings : List φ)

theorem withOracles_record (log : Log) :
    (withOracles t s crash findings).record log =
      withOracles (t.record log) s crash findings := by
  simp only [SuiFuzzTracer.record, withOracles]
  split <;> rfl

theorem withOracles_logInstruction (state : TraceState) (ins : Bytecode) (k : Option ZBool) :
    (withOracles t s crash findings).logInstruction state ins k =
      withOracles (t.logInstruction state ins k) s crash findings := by
  unfold SuiFuzzTracer.logInstruction
  split <;> try rfl
  all_goals
    split
    · exact withOracles_record t s crash findings _
    · rfl

theorem withOracles_traceInstruction (state : TraceState) (ins : Bytecode) :
    (withOracles t s crash findings).traceInstruction state ins =
      (t.traceInstruction state ins).map fun t => withOracles t s crash findings := by
  rw [traceInstruction_eq, traceInstruction_eq, Option.map_bind]
  refine congrArg₂ Option.bind rfl (funext fun extra => ?_)
  rw [Function.comp_apply, Option.map_bind]
  refine congrArg₂ Option.bind rfl (funext fun r => ?_)
  exact congrArg some (withOracles_logInstruction { t with concolic := r.1 } s crash findings
    state ins r.2)

theorem traceInstruction_oracles (t' : SuiFuzzTracer σ φ) (state : TraceState) (ins : Bytecode)
    (h : t.traceInstruction state ins = some t') :
    t'.oracles = t.oracles ∧ t'.crash = t.crash ∧ t'.findings = t.findings := by
  have hsame := withOracles_traceInstruction t t.oracles t.crash t.findings state ins
  have ht : withOracles t t.oracles t.crash t.findings = t := rfl
  rw [ht, h, Option.map_some, Option.some.injEq] at hsame
  rw [hsame]
  exact ⟨rfl, rfl, rfl⟩

end

/-! ### Oracles of which one tells less -/

/- The second oracle reports what `keep` leaves of the reports of the first. -/
structure Thins {σ τ φ δ : Type} (R : σ → τ → Prop) (keep : φ → Bool)
    (O : SuiGeneralOracle σ φ δ) (O' : SuiGeneralOracle τ φ δ) : Prop where
  pre : ∀ s s' sequence, R s s' → R (O.preExecution s sequence) (O'.preExecution s' sequence)
  before : ∀ s s' pc ins traceState symbolStack func t found, R s s' →
    O.beforeInstruction s pc ins traceState symbolStack func = some (t, found) →
    ∃ t', O'.beforeInstruction s' pc ins traceState symbolStack func =
      some (t', found.filter keep) ∧ R t t'
  done : ∀ s s' done t found, R s s' → O.doneExecution s done = some (t, found) →
    ∃ t', O'.doneExecution s' done = some (t', found.filter keep) ∧ R t t'

/- Every finding of the oracle satisfies `P`. -/
structure Reports {σ φ δ : Type} (P : φ → Prop) (O : SuiGeneralOracle σ φ δ) : Prop where
  before : ∀ s pc ins traceState symbolStack func t found,
    O.beforeInstruction s pc ins traceState symbolStack func = some (t, found) →
    ∀ f ∈ found, P f
  done : ∀ s done t found, O.doneExecution s done = some (t, found) → ∀ f ∈ found, P f

section

variable {σ σ' τ τ' φ δ : Type} (keep : φ → Bool)

theorem thins_unit :
    Thins Eq keep (SuiGeneralOracle.unit : SuiGeneralOracle Unit φ δ) SuiGeneralOracle.unit where
  pre _ _ _ h := h
  before s s' _ _ _ _ _ t found hs h := by
    subst hs
    cases h
    exact ⟨_, rfl, rfl⟩
  done s s' _ t found hs h := by
    subst hs
    cases h
    exact ⟨_, rfl, rfl⟩

/- An oracle may be disabled if none of its findings is kept; if all of them are,
it may be left alone. -/
theorem thins_couldDisabled (O : SuiGeneralOracle σ φ δ) (P : φ → Prop) (h : Reports P O)
    (disabled : Bool) (hkeep : ∀ f, P f → keep f = !disabled) :
    Thins (fun s s' => disabled = false → s = s') keep (O.couldDisabled false)
      (O.couldDisabled disabled) := by
  cases disabled with
  | false =>
    have hall : ∀ found : List φ, (∀ f ∈ found, P f) → found.filter keep = found :=
      fun found hP => List.filter_eq_self.mpr fun f hf => hkeep f (hP f hf)
    refine ⟨fun s s' sequence hs _ => by rw [hs rfl], ?_, ?_⟩
    · intro s s' pc ins traceState symbolStack func t found hs hrun
      obtain rfl := hs rfl
      exact ⟨t, by rw [hrun, hall found (h.before s pc ins traceState symbolStack func t found hrun)],
        fun _ => rfl⟩
    · intro s s' done t found hs hrun
      obtain rfl := hs rfl
      exact ⟨t, by rw [hrun, hall found (h.done s done t found hrun)], fun _ => rfl⟩
  | true =>
    have hnone : ∀ found : List φ, (∀ f ∈ found, P f) → found.filter keep = [] := fun found hP =>
      List.filter_eq_nil_iff.mpr fun f hf => Bool.eq_false_iff.mp (hkeep f (hP f hf))
    refine ⟨fun _ _ _ _ hdisabled => (by cases hdisabled), ?_, ?_⟩
    · intro s s' pc ins traceState symbolStack func t found _ hrun
      rw [hnone found (h.before s pc ins traceState symbolStack func t found hrun)]
      exact ⟨s', rfl, fun hdisabled => (by cases hdisabled)⟩
    · intro s s' done t found _ hrun
      rw [hnone found (h.done s done t found hrun)]
      exact ⟨s', rfl, fun hdisabled => (by cases hdisabled)⟩

theorem thins_pair (R : σ → σ' → Prop) (Q : τ → τ' → Prop) (O : SuiGeneralOracle σ φ δ)
    (O' : SuiGeneralOracle σ' φ δ) (P : SuiGeneralOracle τ φ δ) (P' : SuiGeneralOracle τ' φ δ)
    (hO : Thins R keep O O') (hP : Thins Q keep P P') :
    Thins (fun s s' => R s.1 s'.1 ∧ Q s.2 s'.2) keep (O.pair P) (O'.pair P') where
  pre s s' sequence h := ⟨hO.pre _ _ sequence h.1, hP.pre _ _ sequence h.2⟩
  before s s' pc ins traceState symbolStack func t found hs hrun := by
    obtain ⟨⟨t₁, found₁⟩, h₁, hrun⟩ := Option.bind_eq_some_iff.mp hrun
    obtain ⟨⟨t₂, found₂⟩, h₂, hrun⟩ := Option.bind_eq_some_iff.mp hrun
    cases hrun
    obtain ⟨t₁', h₁', hR⟩ := hO.before _ _ pc ins traceState symbolStack func t₁ found₁ hs.1 h₁
    obtain ⟨t₂', h₂', hQ⟩ := hP.before _ _ pc ins traceState symbolStack func t₂ found₂ hs.2 h₂
    refine ⟨(t₁', t₂'), ?_, hR, hQ⟩
    simp only [SuiGeneralOracle.pair, h₁', h₂', List.filter_append, Option.bind_eq_bind,
      Option.bind_some]
  done s s' done t found hs hrun := by
    obtain ⟨⟨t₁, found₁⟩, h₁, hrun⟩ := Option.bind_eq_some_iff.mp hrun
    obtain ⟨⟨t₂, found₂⟩, h₂, hrun⟩ := Option.bind_eq_some_iff.mp hrun
    cases hrun
    obtain ⟨t₁', h₁', hR⟩ := hO.done _ _ done t₁ found₁ hs.1 h₁
    obtain ⟨t₂', h₂', hQ⟩ := hP.done _ _ done t₂ found₂ hs.2 h₂
    refine ⟨(t₁', t₂'), ?_, hR, hQ⟩
    simp only [SuiGeneralOracle.pair, h₁', h₂', List.filter_append, Option.bind_eq_bind,
      Option.bind_some]

end

/-! ### Traces in lockstep -/

section

variable {σ τ φ δ : Type} (R : σ → τ → Prop) (keep : φ → Bool)

/- The tracer with another oracle and what is kept of the findings. -/
def mutedTracer (t : SuiFuzzTracer σ φ) (s : τ) : SuiFuzzTracer τ φ :=
  withOracles t s (!(t.findings.filter keep).isEmpty) (t.findings.filter keep)

/- The tracer calls a crash what has findings, and its oracle is related to `s`. -/
structure Agrees (t : SuiFuzzTracer σ φ) (s : τ) : Prop where
  oracles : R t.oracles s
  crash : t.crash = !t.findings.isEmpty

theorem isEmpty_append (l m : List φ) : (!(l ++ m).isEmpty) = (!l.isEmpty || !m.isEmpty) := by
  cases l <;> simp

theorem mutedTracer_onRawEvent (t : SuiFuzzTracer σ φ) (s : τ) (state : TraceState)
    (ev : TraceEvent) :
    (mutedTracer keep t s).onRawEvent state ev = mutedTracer keep (t.onRawEvent state ev) s := rfl

theorem mutedTracer_onMoveCall (t : SuiFuzzTracer σ φ) (s : τ) :
    (mutedTracer keep t s).onMoveCall = mutedTracer keep t.onMoveCall s := by
  have hskip : (mutedTracer keep t s).skipConcolic = t.skipConcolic := rfl
  rw [SuiFuzzTracer.onMoveCall, SuiFuzzTracer.onMoveCall, hskip]
  split <;> rfl

theorem Agrees.onMoveCall {R : σ → τ → Prop} {t : SuiFuzzTracer σ φ} {s : τ} (h : Agrees R t s) :
    Agrees R t.onMoveCall s := by
  rw [SuiFuzzTracer.onMoveCall]
  split
  · exact h
  · exact ⟨h.oracles, h.crash⟩

theorem oracleHooks_oracle (O : SuiGeneralOracle σ φ δ) (db : PackageStore) (s : σ) (pc : ℕ)
    (ins : Bytecode) (state : TraceState) (c : ConcolicState) (func : Tracer.FunctionIdent)
    (r : σ × List φ) (h : O.beforeInstruction s pc ins state c func = some r) :
    (oracleHooks O db).oracle s pc ins state c func = (r.1, some r.2) := by
  simp only [oracleHooks, h]

variable (O : SuiGeneralOracle σ φ δ) (O' : SuiGeneralOracle τ φ δ) (hthins : Thins R keep O O')
  (db : PackageStore)

include hthins

/- The handler of an instruction, after the concolic engine has seen the event. -/
theorem muted_beforeInstruction (t next : SuiFuzzTracer σ φ) (s : τ) (state : TraceState) (pc : ℕ)
    (ins : Bytecode) (hagrees : Agrees R t s)
    (hasked : ∀ pkg func, t.currentFunctions.head? = some (pkg, func) →
      (O.beforeInstruction t.oracles pc ins state t.concolic func).isNone = false)
    (h : t.beforeInstruction (oracleHooks O db) state pc ins = some next) :
    (∀ pkg func, t.currentFunctions.head? = some (pkg, func) →
      (O'.beforeInstruction s pc ins state t.concolic func).isNone = false) ∧
    ∃ s', (mutedTracer keep t s).beforeInstruction (oracleHooks O' db) state pc ins =
      some (mutedTracer keep next s') ∧ Agrees R next s' := by
  unfold SuiFuzzTracer.beforeInstruction at h ⊢
  have hfunctions : (mutedTracer keep t s).currentFunctions = t.currentFunctions := rfl
  rw [hfunctions]
  cases hhead : t.currentFunctions.head? with
  | none =>
    simp only [hhead] at h
    obtain ⟨ho, hc, hf⟩ := traceInstruction_oracles t next state ins h
    refine ⟨fun _ _ hnone => (by cases hnone), s, ?_, by rw [ho]; exact hagrees.oracles, ?_⟩
    · simp only [mutedTracer]
      rw [withOracles_traceInstruction, h, hf]
      rfl
    · rw [hc, hf]
      exact hagrees.crash
  | some entry =>
    obtain ⟨pkg, func⟩ := entry
    obtain ⟨⟨s₁, found⟩, hrun⟩ := Option.isSome_iff_exists.mp
      (Option.isNone_eq_false_iff.mp (hasked pkg func hhead))
    obtain ⟨s', hrun', hR⟩ :=
      hthins.before _ _ pc ins state t.concolic func s₁ found hagrees.oracles hrun
    simp only [hhead, oracleHooks, hrun] at h
    obtain ⟨ho, hc, hf⟩ := traceInstruction_oracles _ next state ins h
    refine ⟨fun pkg' func' heq => ?_, s', ?_, by rw [ho]; exact hR, ?_⟩
    · obtain ⟨rfl, rfl⟩ := Prod.mk.inj (Option.some.inj heq)
      rw [hrun']
      rfl
    · have hstart : ({ mutedTracer keep t s with
          oracles := s'
          crash := (mutedTracer keep t s).crash || !(found.filter keep).isEmpty
          findings := (mutedTracer keep t s).findings ++ found.filter keep } : SuiFuzzTracer τ φ) =
          withOracles ({ t with
            oracles := s₁
            crash := t.crash || !found.isEmpty
            findings := t.findings ++ found } : SuiFuzzTracer σ φ) s'
            (!((t.findings ++ found).filter keep).isEmpty)
            ((t.findings ++ found).filter keep) := by
        rw [List.filter_append, isEmpty_append]
        rfl
      have hask : (oracleHooks O' db).oracle (mutedTracer keep t s).oracles pc ins state
          (mutedTracer keep t s).concolic func = (s', some (found.filter keep)) :=
        oracleHooks_oracle O' db s pc ins state t.concolic func _ hrun'
      simp only [hask]
      refine (congrArg (fun x => x.traceInstruction state ins) hstart).trans ?_
      rw [withOracles_traceInstruction, h, mutedTracer, hf]
      rfl
    · rw [hc, hf, hagrees.crash]
      exact (isEmpty_append t.findings found).symm

theorem muted_traceEvent (w next : MovySuiTracerWrapper σ φ) (s : τ) (ev : TraceEvent)
    (hagrees : Agrees R w.tracer s) (h : traceEvent O db w ev = some next) :
    ∃ s', traceEvent O' db ⟨mutedTracer keep w.tracer s, w.state⟩ ev =
      some ⟨mutedTracer keep next.tracer s', next.state⟩ ∧ Agrees R next.tracer s' := by
  unfold traceEvent at h
  split at h
  · cases h
  · rename_i hpanics
    obtain ⟨t, ht, h⟩ := Option.bind_eq_some_iff.mp h
    obtain ⟨state, hstate, h⟩ := Option.bind_eq_some_iff.mp h
    cases h
    have hraw : Agrees R (w.tracer.onRawEvent w.state ev) s := ⟨hagrees.oracles, hagrees.crash⟩
    -- every event but an instruction leaves the oracles alone
    have hquiet : panics O' ⟨mutedTracer keep w.tracer s, w.state⟩ ev = false →
        ∀ s', MovySuiTracerWrapper.handle (oracleHooks O' db)
          (mutedTracer keep (w.tracer.onRawEvent w.state ev) s) w.state ev =
            some (mutedTracer keep t s') →
        traceEvent O' db ⟨mutedTracer keep w.tracer s, w.state⟩ ev =
          some ⟨mutedTracer keep t s', state⟩ := by
      intro hno s' hhandle
      unfold traceEvent
      rw [hno, if_neg Bool.false_ne_true]
      exact Option.bind_eq_some_iff.mpr ⟨_, hhandle, Option.bind_eq_some_iff.mpr
        ⟨state, hstate, rfl⟩⟩
    cases ev with
    | openFrame frame =>
      cases ht
      exact ⟨s, hquiet rfl s rfl, ⟨hraw.oracles, hraw.crash⟩⟩
    | closeFrame id =>
      cases ht
      exact ⟨s, hquiet rfl s rfl, ⟨hraw.oracles, hraw.crash⟩⟩
    | effect e =>
      cases ht
      exact ⟨s, hquiet rfl s rfl, hraw⟩
    | external e =>
      cases e with
      | moveCallStart =>
        cases ht
        exact ⟨s, hquiet rfl s (congrArg some (mutedTracer_onMoveCall keep _ s)), hraw.onMoveCall⟩
      | other =>
        cases ht
        exact ⟨s, hquiet rfl s rfl, hraw⟩
    | instruction pc ins =>
      have hasked : ∀ pkg func, (w.tracer.onRawEvent w.state
          (.instruction pc ins)).currentFunctions.head? = some (pkg, func) →
          (O.beforeInstruction (w.tracer.onRawEvent w.state (.instruction pc ins)).oracles pc ins
            w.state (w.tracer.onRawEvent w.state (.instruction pc ins)).concolic func).isNone =
              false := by
        intro pkg func hhead
        rw [panics, hhead] at hpanics
        exact Bool.eq_false_iff.mpr hpanics
      obtain ⟨hasked', s', hrun, hnext⟩ := muted_beforeInstruction R keep O O' hthins db
        (w.tracer.onRawEvent w.state (.instruction pc ins)) t s w.state pc ins hraw hasked ht
      refine ⟨s', hquiet ?_ s' hrun, hnext⟩
      simp only [panics]
      rw [mutedTracer_onRawEvent]
      have hfunctions : (mutedTracer keep (w.tracer.onRawEvent w.state (.instruction pc ins))
        s).currentFunctions =
          (w.tracer.onRawEvent w.state (.instruction pc ins)).currentFunctions := rfl
      rw [hfunctions]
      split
      · rename_i pkg func hhead
        exact hasked' pkg func hhead
      · rfl

theorem muted_trace (events : List TraceEvent) (w next : MovySuiTracerWrapper σ φ) (s : τ)
    (hagrees : Agrees R w.tracer s) (h : events.foldlM (traceEvent O db) w = some next) :
    ∃ s', events.foldlM (traceEvent O' db) ⟨mutedTracer keep w.tracer s, w.state⟩ =
      some ⟨mutedTracer keep next.tracer s', next.state⟩ ∧ Agrees R next.tracer s' := by
  induction events generalizing w s with
  | nil =>
    cases h
    exact ⟨s, rfl, hagrees⟩
  | cons ev rest ih =>
    rw [List.foldlM_cons] at h
    obtain ⟨mid, hmid, hrest⟩ := Option.bind_eq_some_iff.mp h
    obtain ⟨s₁, hfirst, hagrees₁⟩ := muted_traceEvent R keep O O' hthins db w mid s ev hagrees hmid
    obtain ⟨s', hrun, hlast⟩ := ih mid s₁ hagrees₁ hrest
    refine ⟨s', ?_, hlast⟩
    rw [List.foldlM_cons]
    exact Option.bind_eq_some_iff.mpr ⟨_, hfirst, hrun⟩

end

/-! ### Runs and campaigns -/

section

variable {σ τ φ Owner : Type} (R : σ → τ → Prop) (keep : φ → Bool) (env : FuzzEnv Owner)
  (O : SuiGeneralOracle σ φ (Done Owner)) (O' : SuiGeneralOracle τ φ (Done Owner))
  (hthins : Thins R keep O O')

/- The outcome without the findings that are not kept. -/
def muteOutcome (o : GlobalOutcome φ) : GlobalOutcome φ :=
  { o with
    eventsVerdict := verdict false (o.findings.filter keep)
    findings := o.findings.filter keep }

theorem verdict_eq_crash_iff (findings : List φ) :
    verdict false findings = .crash ↔ findings ≠ [] := by
  cases findings <;> simp [verdict]

theorem verdict_flagged (traced found : List φ) :
    verdict (!traced.isEmpty) (traced ++ found) = verdict false (traced ++ found) := by
  cases traced <;> simp [verdict]

include hthins

theorem muted_runTarget (self next : SuiFuzzExecutor σ) (s : τ) (sequence : MoveSequence)
    (outcome : GlobalOutcome φ) (hR : R self.oracles s)
    (h : runTarget env O self sequence = some (outcome, next)) :
    outcome.eventsVerdict = verdict false outcome.findings ∧
      ∃ s', runTarget env O' ⟨s, self.packagesCache⟩ sequence =
        some (muteOutcome keep outcome, ⟨s', next.packagesCache⟩) ∧ R next.oracles s' := by
  obtain ⟨run, hrun, h⟩ := Option.bind_eq_some_iff.mp h
  obtain ⟨w, hw, h⟩ := Option.bind_eq_some_iff.mp h
  obtain ⟨db, hdb, h⟩ := Option.bind_eq_some_iff.mp h
  obtain ⟨⟨oracles, vulns⟩, hdone, h⟩ := Option.bind_eq_some_iff.mp h
  obtain ⟨rfl, rfl⟩ := Prod.mk.inj (Option.some.inj h)
  obtain ⟨s₁, htrace, hagrees⟩ := muted_trace R keep O O' hthins env.packages run.trace _ w
    (O'.preExecution s sequence) ⟨hthins.pre _ _ sequence hR, rfl⟩ hw
  obtain ⟨s', hdone', hR'⟩ := hthins.done _ _ _ oracles vulns hagrees.oracles hdone
  have hverdict := verdict_flagged w.tracer.findings vulns
  rw [← hagrees.crash] at hverdict
  refine ⟨hverdict, s', ?_, hR'⟩
  refine Option.bind_eq_some_iff.mpr ⟨run, hrun, Option.bind_eq_some_iff.mpr ⟨_, htrace,
    Option.bind_eq_some_iff.mpr ⟨db, hdb, Option.bind_eq_some_iff.mpr ⟨_, hdone', ?_⟩⟩⟩⟩
  have hkept : (mutedTracer keep w.tracer s₁).findings ++ vulns.filter keep =
      (w.tracer.findings ++ vulns).filter keep := (List.filter_append ..).symm
  have hmuted := verdict_flagged (w.tracer.findings.filter keep) (vulns.filter keep)
  rw [← List.filter_append] at hmuted
  simp only [hkept, muteOutcome, ← hmuted]
  rfl

theorem muted_campaign (self : SuiFuzzExecutor σ) (s : τ) (sequences : List MoveSequence)
    (outcomes : List (GlobalOutcome φ)) (hR : R self.oracles s)
    (h : campaign env O self sequences = some outcomes) :
    campaign env O' ⟨s, self.packagesCache⟩ sequences = some (outcomes.map (muteOutcome keep)) ∧
      ∀ o ∈ outcomes, o.eventsVerdict = verdict false o.findings := by
  induction sequences generalizing self s outcomes with
  | nil =>
    cases h
    exact ⟨rfl, fun o ho => (by cases ho)⟩
  | cons sequence rest ih =>
    obtain ⟨⟨outcome, next⟩, hfirst, h⟩ := Option.bind_eq_some_iff.mp h
    obtain ⟨later, hlater, h⟩ := Option.bind_eq_some_iff.mp h
    cases h
    obtain ⟨hverdict, s', hrun, hR'⟩ :=
      muted_runTarget R keep env O O' hthins self next s sequence outcome hR hfirst
    obtain ⟨hcampaign, hall⟩ := ih next s' later hR' hlater
    refine ⟨?_, ?_⟩
    · exact Option.bind_eq_some_iff.mpr ⟨_, hrun, Option.bind_eq_some_iff.mpr
        ⟨_, hcampaign, rfl⟩⟩
    · intro o ho
      rcases List.mem_cons.mp ho with rfl | ho
      · exact hverdict
      · exact hall o ho

end

/-! ### The tuple of the fuzzer -/

section

variable {Owner TypeTag : Type}

def Finding.isDefect : Finding Owner TypeTag → Bool
  | .defect _ => true
  | _ => false

def Finding.isProceeds : Finding Owner TypeTag → Bool
  | .proceeds _ => true
  | _ => false

def enabled (disableProfitOracle disableDefectsOracle : Bool) (f : Finding Owner TypeTag) : Bool :=
  !(f.isProceeds && disableProfitOracle) && !(f.isDefect && disableDefectsOracle)

theorem reports_atInstructions {σ δ : Type}
    (before : σ → ℕ → Bytecode → TraceState → ConcolicState → Tracer.FunctionIdent →
      Option (σ × List OracleFinding)) :
    Reports (fun f : Finding Owner TypeTag => ∃ d, f = .defect d)
      (atInstructions before : SuiGeneralOracle σ _ δ) where
  before s pc ins traceState symbolStack func t found h := by
    obtain ⟨r, -, h⟩ := Option.map_eq_some_iff.mp h
    cases h
    intro f hf
    obtain ⟨d, -, rfl⟩ := List.mem_map.mp hf
    exact ⟨d, rfl⟩
  done s done t found h := by
    cases h
    intro f hf
    cases hf

theorem reports_typedBugOracle (useAbort : Bool) :
    Reports (fun f : Finding Owner TypeTag => ∃ extra, f = .typedBug extra)
      (typedBugOracle useAbort) where
  before s pc ins traceState symbolStack func t found h := by
    cases h
    intro f hf
    cases hf
  done s done t found h := by
    cases h
    intro f hf
    unfold typedBugFindings at hf
    split at hf
    · split at hf
      · split at hf
        · exact ⟨_, List.mem_singleton.mp hf⟩
        · cases hf
      · cases hf
    · split at hf
      · split at hf
        · exact ⟨_, List.mem_singleton.mp hf⟩
        · cases hf
      · cases hf

variable [LinearOrder Owner] [LinearOrder TypeTag]

theorem reports_proceedsOracle (V : Proceeds.ObjectView Owner TypeTag) :
    Reports (fun f : Finding Owner TypeTag => ∃ p, f = .proceeds p) (proceedsOracle V) where
  before s pc ins traceState symbolStack func t found h := by
    cases h
    intro f hf
    cases hf
  done s done t found h := by
    obtain ⟨r, -, h⟩ := Option.map_eq_some_iff.mp h
    cases h
    intro f hf
    obtain ⟨p, -, rfl⟩ := List.mem_map.mp hf
    exact ⟨p, rfl⟩

theorem thins_oracles (hash : LoopHash) (V : Proceeds.ObjectView Owner TypeTag)
    (typedBugAbort p d : Bool) :
    ∃ R : OracleStates → OracleStates → Prop, (∀ s, R s s) ∧
      Thins R (enabled p d) (oracles hash V typedBugAbort false false)
        (oracles hash V typedBugAbort p d) := by
  have hdefect : ∀ f : Finding Owner TypeTag, (∃ x, f = .defect x) → enabled p d f = !d := by
    intro f hf
    obtain ⟨x, rfl⟩ := hf
    simp [enabled, Finding.isDefect, Finding.isProceeds]
  have hproceeds : ∀ f : Finding Owner TypeTag, (∃ x, f = .proceeds x) → enabled p d f = !p := by
    intro f hf
    obtain ⟨x, rfl⟩ := hf
    simp [enabled, Finding.isDefect, Finding.isProceeds]
  have htyped : ∀ f : Finding Owner TypeTag, (∃ x, f = .typedBug x) →
      enabled p d f = !false := by
    intro f hf
    obtain ⟨x, rfl⟩ := hf
    simp [enabled, Finding.isDefect, Finding.isProceeds]
  -- the tuple from its last member to the first
  have htail := thins_pair _ _ _ _ _ _ _ (thins_couldDisabled _ _ _
    (reports_typedBugOracle typedBugAbort) false htyped) (thins_unit (enabled p d))
  have hproceedsTail := thins_pair _ _ _ _ _ _ _ (thins_couldDisabled _ _ _
    (reports_proceedsOracle V) p hproceeds) htail
  have hoverflow := thins_pair _ _ _ _ _ _ _ (thins_couldDisabled _ overflowOracle _
    (reports_atInstructions _) d hdefect) hproceedsTail
  have hconversion := thins_pair _ _ _ _ _ _ _ (thins_couldDisabled _ typeConversionOracle _
    (reports_atInstructions _) d hdefect) hoverflow
  have hprecision := thins_pair _ _ _ _ _ _ _ (thins_couldDisabled _ precisionLossOracle _
    (reports_atInstructions _) d hdefect) hconversion
  have hloop := thins_pair _ _ _ _ _ _ _ (thins_couldDisabled _ (infiniteLoopOracle hash) _
    (reports_atInstructions _) d hdefect) hprecision
  have hjudgement := thins_pair _ _ _ _ _ _ _ (thins_couldDisabled _ boolJudgementOracle _
    (reports_atInstructions _) d hdefect) hloop
  exact ⟨_, fun s => ⟨fun _ => rfl, fun _ => rfl, fun _ => rfl, fun _ => rfl, fun _ => rfl,
    fun _ => rfl, fun _ => rfl, rfl⟩, hjudgement⟩

/- In a campaign with some oracles disabled every run has the outcome that it has
with all of them, without the findings of the disabled ones: the same logs,
symbols, stage and success, and a crash exactly if a finding is left. -/
theorem disabling_filters (hash : LoopHash) (V : Proceeds.ObjectView Owner TypeTag)
    (typedBugAbort disableProfitOracle disableDefectsOracle : Bool) (env : FuzzEnv Owner)
    (start : SuiFuzzExecutor OracleStates) (sequences : List MoveSequence)
    (outcomes : List (GlobalOutcome (Finding Owner TypeTag)))
    (h : campaign env (oracles hash V typedBugAbort false false) start sequences =
      some outcomes) :
    campaign env (oracles hash V typedBugAbort disableProfitOracle disableDefectsOracle) start
        sequences =
      some (outcomes.map (muteOutcome (enabled disableProfitOracle disableDefectsOracle))) ∧
    ∀ o ∈ outcomes, o.eventsVerdict = .crash ↔ o.findings ≠ [] := by
  obtain ⟨R, hrefl, hthins⟩ := thins_oracles hash V typedBugAbort disableProfitOracle
    disableDefectsOracle
  obtain ⟨hmuted, hall⟩ := muted_campaign R _ env _ _ hthins start start.oracles sequences
    outcomes (hrefl start.oracles) h
  refine ⟨hmuted, fun o ho => ?_⟩
  rw [hall o ho]
  exact verdict_eq_crash_iff o.findings

end

/- Every run makes a coin gain, and emits a crash event. -/
def gainEnv : FuzzEnv ℕ where
  db := twoVersions
  packages _ := .ok none
  execute _ := some ⟨[], Proceeds.coinRun, Proceeds.coinEffects, [⟨"oracle", "Crash", []⟩], none⟩
  gasId := ObjectID.ofByte 2

def gainStart : SuiFuzzExecutor OracleStates :=
  ⟨((), .default, (), (), (), [], (), ()), ⟨fun _ => none⟩⟩

theorem disabling_filters_gain : ∃ outcomes,
    campaign gainEnv (oracles sampleHash Proceeds.byteCoin false true false) gainStart
      [⟨[], []⟩, ⟨[], []⟩] = some outcomes ∧
    outcomes.map (fun o => o.findings.length) = [1, 1] := by
  have hok : (campaign gainEnv (oracles sampleHash Proceeds.byteCoin false false false) gainStart
      [⟨[], []⟩, ⟨[], []⟩]).map (fun outcomes => outcomes.map fun o =>
        (o.findings.filter (enabled true false)).length) = some [1, 1] := by decide
  obtain ⟨outcomes, hrun, hlengths⟩ := Option.map_eq_some_iff.mp hok
  refine ⟨_, (disabling_filters sampleHash Proceeds.byteCoin false true false gainEnv gainStart _
    outcomes hrun).1, ?_⟩
  rw [List.map_map]
  exact hlengths

end Movy.Fuzz
