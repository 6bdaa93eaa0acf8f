import Movy.Tracer.Lockstep

/-!
# The infinite loop oracle (`movy-fuzz/src/oracles/sui/infinite_loop.rs`)

The oracle counts, for each branch instruction of each function, how often it
was reached in a row with the same symbolic condition, and reports the branch
after a thousand times. It would forget the counters of a function whose frame
opens; but `SuiFuzzTracer` never calls `open_frame` of the oracles, so the
counters live on over frames and executions.
-/

namespace Movy.Fuzz

open Movy.Tracer
open Movy.Store (ObjectID)

/-- `hash_to_u64` of the two names of a function and of a printed term. -/
structure LoopHash where
  function : Tracer.FunctionIdent → Fin (2 ^ 64)
  symbol : ZInt → Fin (2 ^ 64)

inductive Severity where
  | discussion
  | informational
  | minor
  | medium
  | major
  | critical
  deriving DecidableEq

/-- `extra` is made of the function and the pc, an object with both or a text. -/
structure OracleFinding where
  oracle : String
  severity : Severity
  function : Tracer.FunctionIdent
  pc : ℕ
  deriving DecidableEq

/-- For a function and a pc, the hash of the last condition and its count; an entry
that is not there is `(0, 0)`. -/
structure InfiniteLoopOracle where
  branchCounts : Fin (2 ^ 64) → ℕ → Fin (2 ^ 64) × ℕ

namespace InfiniteLoopOracle

variable (hash : LoopHash)

def default : InfiniteLoopOracle := ⟨fun _ _ => (0, 0)⟩

def setCount (self : InfiniteLoopOracle) (key : Fin (2 ^ 64)) (pc : ℕ) (count : Fin (2 ^ 64) × ℕ) :
    InfiniteLoopOracle :=
  ⟨Function.update self.branchCounts key (Function.update (self.branchCounts key) pc count)⟩

def finding (func : Tracer.FunctionIdent) (pc : ℕ) : OracleFinding :=
  ⟨"InfiniteLoopOracle", .major, func, pc⟩

/-- A branch of `func` with the condition `v`. -/
def countBranch (self : InfiniteLoopOracle) (func : Tracer.FunctionIdent) (pc : ℕ) (v : ZInt) :
    InfiniteLoopOracle × List OracleFinding :=
  let key := hash.function func
  let v := hash.symbol v
  let count := self.branchCounts key pc
  if count.1 ≠ v then (self.setCount key pc (v, 1), [])
  else if 1000 ≤ count.2 then (self.setCount key pc (count.1, 0), [finding func pc])
  else (self.setCount key pc (count.1, count.2 + 1), [])

def beforeInstruction (self : InfiniteLoopOracle) (pc : ℕ) (instruction : Bytecode)
    (symbolStack : ConcolicState) (currentFunction : Tracer.FunctionIdent) :
    InfiniteLoopOracle × List OracleFinding :=
  match instruction with
  | .brFalse _ | .brTrue _ =>
    match symbolStack.stack.head? with
    | none => (self, [])
    | some .unknown => (self, [])
    | some (.value v) => self.countBranch hash currentFunction pc v
  | _ => (self, [])

def hooks (db : PackageStore) : Hooks InfiniteLoopOracle OracleFinding where
  db := db
  oracle self pc instruction _ symbolStack currentFunction :=
    let r := self.beforeInstruction hash pc instruction symbolStack currentFunction
    (r.1, some r.2)

end InfiniteLoopOracle

/-! ### Sessions

The fuzzer traces one execution after another. Each has a new tracer, which
takes over the oracle. -/

/-- A branch instruction that was reached, in the activation of a frame. -/
structure Visit where
  activation : ℕ
  function : Tracer.FunctionIdent
  pc : ℕ
  symbol : Option ZInt

/-- The latest visit is first; a report stands with the visits up to it. The frames
are numbered in the order in which they opened, and the innermost is first. -/
structure Session where
  wrapper : MovySuiTracerWrapper InfiniteLoopOracle OracleFinding
  activations : List ℕ
  opened : ℕ
  visits : List Visit
  reports : List (OracleFinding × List Visit)

inductive SessionInput where
  | execute (cache : PackageResolvedCache)
  | trace (ev : TraceEvent)

def condition (c : ConcolicState) : Option ZInt :=
  match c.stack.head? with
  | some (.value v) => some v
  | _ => none

namespace Session

variable (hash : LoopHash) (db : PackageStore)

def start : Session where
  wrapper := MovySuiTracerWrapper.new .default
  activations := []
  opened := 0
  visits := []
  reports := []

def visit (self : Session) : TraceEvent → Option Visit
  | .instruction pc (.brFalse _) | .instruction pc (.brTrue _) =>
    self.wrapper.tracer.currentFunctions.head?.map fun f =>
      ⟨self.activations.headD 0, f.2, pc, condition self.wrapper.tracer.concolic⟩
  | _ => none

def frames (self : Session) : TraceEvent → List ℕ × ℕ
  | .openFrame _ => (self.opened :: self.activations, self.opened + 1)
  | .closeFrame _ => (self.activations.tail, self.opened)
  | _ => (self.activations, self.opened)

def step (self : Session) : SessionInput → Option Session
  | .execute cache =>
    some { self with
      wrapper := ⟨{ SuiFuzzTracer.new self.wrapper.tracer.oracles with resolver := cache },
        TraceState.new⟩
      activations := [] }
  | .trace ev =>
    (self.wrapper.notify (InfiniteLoopOracle.hooks hash db) ev).map fun w =>
      let visits := (self.visit ev).toList ++ self.visits
      let found := w.tracer.findings.drop self.wrapper.tracer.findings.length
      { wrapper := w
        activations := (self.frames ev).1
        opened := (self.frames ev).2
        visits := visits
        reports := self.reports ++ found.map fun f => (f, visits) }

end Session

/-- The same instruction in the same activation. -/
def Visit.sameBranch (v u : Visit) : Bool := u.activation = v.activation && u.pc = v.pc

/-- A visit that the counter of a hashed function and a pc sees. -/
def Visit.counted (hash : LoopHash) (key : Fin (2 ^ 64)) (pc : ℕ) (u : Visit) : Bool :=
  u.symbol.isSome && hash.function u.function = key && u.pc = pc

/-- The branch of the last visit was reached more than a thousand times in a row with
one condition. -/
def RealLoop (r : OracleFinding × List Visit) : Prop :=
  ∃ v rest, r.2 = v :: rest ∧ v.function = r.1.function ∧ v.pc = r.1.pc ∧ v.symbol.isSome ∧
    (r.2.filter v.sameBranch).take 1001 = List.replicate 1001 v

/-- A counter that goes on counting does so where it counted last: the last visit it
saw, and the last one of the branch in this activation, are the present visit again. -/
def Session.Continues (hash : LoopHash) (s : Session) : SessionInput → Prop
  | .execute _ => True
  | .trace ev => ∀ v e, s.visit ev = some v → v.symbol = some e →
      (s.wrapper.tracer.oracles.branchCounts (hash.function v.function) v.pc).1 = hash.symbol e →
      0 < (s.wrapper.tracer.oracles.branchCounts (hash.function v.function) v.pc).2 →
      s.visits.find? (Visit.counted hash (hash.function v.function) v.pc) = some v ∧
        s.visits.find? v.sameBranch = some v

/-! ### One event -/

section Step

variable {hash : LoopHash} {db : PackageStore}

theorem logInstruction_found {σ φ : Type} (t : SuiFuzzTracer σ φ) (s : TraceState) (ins : Bytecode)
    (k : Option ZBool) :
    (t.logInstruction s ins k).oracles = t.oracles ∧
      (t.logInstruction s ins k).findings = t.findings := by
  rcases logInstruction_cases t s ins k with h | ⟨log, h, _⟩
  · rw [h]
    exact ⟨rfl, rfl⟩
  · rw [h, SuiFuzzTracer.record]
    split <;> exact ⟨rfl, rfl⟩

theorem traceInstruction_found {σ φ : Type} (t t' : SuiFuzzTracer σ φ) (s : TraceState)
    (ins : Bytecode) (h : t.traceInstruction s ins = some t') :
    t'.oracles = t.oracles ∧ t'.findings = t.findings := by
  simp only [traceInstruction_eq, Option.bind_eq_some_iff] at h
  obtain ⟨_, _, r, _, h⟩ := h
  cases h
  exact logInstruction_found { t with concolic := r.1 } s ins r.2

def Session.outcome (hash : LoopHash) (s : Session) (ev : TraceEvent) :
    InfiniteLoopOracle × List OracleFinding :=
  match s.visit ev with
  | none => (s.wrapper.tracer.oracles, [])
  | some v =>
    match v.symbol with
    | none => (s.wrapper.tracer.oracles, [])
    | some e => s.wrapper.tracer.oracles.countBranch hash v.function v.pc e

theorem onRawEvent_instruction (t : SuiFuzzTracer InfiniteLoopOracle OracleFinding)
    (state : TraceState) (pc : ℕ) (ins : Bytecode) :
    (t.onRawEvent state (.instruction pc ins)).concolic.stack = t.concolic.stack := by
  simp only [SuiFuzzTracer.onRawEvent, ConcolicState.onRawEventInner]
  split_ifs <;> rfl

theorem condition_congr (c d : ConcolicState) (h : c.stack = d.stack) : condition c = condition d := by
  simp only [condition, h]

theorem beforeInstruction_brTrue (o : InfiniteLoopOracle) (pc offset : ℕ) (c : ConcolicState)
    (f : Tracer.FunctionIdent) :
    o.beforeInstruction hash pc (.brTrue offset) c f =
      match condition c with
      | none => (o, [])
      | some e => o.countBranch hash f pc e := by
  unfold InfiniteLoopOracle.beforeInstruction condition
  cases c.stack.head? with
  | none => rfl
  | some v => cases v <;> rfl

theorem beforeInstruction_brFalse (o : InfiniteLoopOracle) (pc offset : ℕ) (c : ConcolicState)
    (f : Tracer.FunctionIdent) :
    o.beforeInstruction hash pc (.brFalse offset) c f =
      o.beforeInstruction hash pc (.brTrue offset) c f := rfl

theorem outcome_instruction (s : Session) (pc : ℕ) (ins : Bytecode) (c : ConcolicState)
    (f : ObjectID × Tracer.FunctionIdent) (hf : s.wrapper.tracer.currentFunctions.head? = some f)
    (hc : c.stack = s.wrapper.tracer.concolic.stack) :
    s.outcome hash (.instruction pc ins) =
      s.wrapper.tracer.oracles.beforeInstruction hash pc ins c f.2 := by
  have hcond := condition_congr c s.wrapper.tracer.concolic hc
  cases ins with
  | brTrue offset =>
    rw [beforeInstruction_brTrue, hcond]
    simp only [Session.outcome, Session.visit, hf, Option.map_some]
  | brFalse offset =>
    rw [beforeInstruction_brFalse, beforeInstruction_brTrue, hcond]
    simp only [Session.outcome, Session.visit, hf, Option.map_some]
  | _ => rfl

theorem outcome_outside (s : Session) (pc : ℕ) (ins : Bytecode)
    (hf : s.wrapper.tracer.currentFunctions.head? = none) :
    s.outcome hash (.instruction pc ins) = (s.wrapper.tracer.oracles, []) := by
  have hvisit : s.visit (.instruction pc ins) = none := by
    cases ins with
    | brTrue offset => simp only [Session.visit, hf, Option.map_none]
    | brFalse offset => simp only [Session.visit, hf, Option.map_none]
    | _ => rfl
  simp only [Session.outcome, hvisit]

theorem notify_outcome (s : Session) (ev : TraceEvent)
    (w : MovySuiTracerWrapper InfiniteLoopOracle OracleFinding)
    (h : s.wrapper.notify (InfiniteLoopOracle.hooks hash db) ev = some w) :
    w.tracer.oracles = (s.outcome hash ev).1 ∧
      w.tracer.findings = s.wrapper.tracer.findings ++ (s.outcome hash ev).2 := by
  simp only [MovySuiTracerWrapper.notify, Option.bind_eq_bind, Option.bind_eq_some_iff] at h
  obtain ⟨t, ht, state, -, h⟩ := h
  cases h
  show t.oracles = _ ∧ t.findings = _
  cases ev with
  | external e =>
    cases e with
    | other =>
      cases ht
      exact ⟨rfl, (List.append_nil _).symm⟩
    | moveCallStart =>
      cases ht
      refine ⟨?_, ?_⟩
      · unfold SuiFuzzTracer.onMoveCall
        split <;> rfl
      · unfold SuiFuzzTracer.onMoveCall
        split <;> exact (List.append_nil _).symm
  | openFrame frame =>
    cases ht
    exact ⟨rfl, (List.append_nil _).symm⟩
  | closeFrame id =>
    cases ht
    exact ⟨rfl, (List.append_nil _).symm⟩
  | effect e =>
    cases ht
    exact ⟨rfl, (List.append_nil _).symm⟩
  | instruction pc ins =>
    have hstack := onRawEvent_instruction s.wrapper.tracer s.wrapper.state pc ins
    simp only [MovySuiTracerWrapper.handle, SuiFuzzTracer.beforeInstruction] at ht
    have hframe : (s.wrapper.tracer.onRawEvent s.wrapper.state (.instruction pc ins)).currentFunctions =
        s.wrapper.tracer.currentFunctions := rfl
    cases hf : s.wrapper.tracer.currentFunctions.head? with
    | none =>
      rw [hframe, hf] at ht
      obtain ⟨ho, hn⟩ := traceInstruction_found _ _ _ _ ht
      rw [outcome_outside s pc ins hf, ho, hn]
      exact ⟨rfl, (List.append_nil _).symm⟩
    | some f =>
      rw [hframe, hf] at ht
      obtain ⟨ho, hn⟩ := traceInstruction_found _ _ _ _ ht
      rw [outcome_instruction s pc ins _ f hf hstack, ho, hn]
      exact ⟨rfl, rfl⟩

theorem step_trace (s next : Session) (ev : TraceEvent)
    (h : s.step hash db (.trace ev) = some next) :
    next.wrapper.tracer.oracles = (s.outcome hash ev).1 ∧
      next.visits = (s.visit ev).toList ++ s.visits ∧
      next.reports = s.reports ++ (s.outcome hash ev).2.map fun f => (f, next.visits) := by
  simp only [Session.step, Option.map_eq_some_iff] at h
  obtain ⟨w, hw, rfl⟩ := h
  obtain ⟨ho, hn⟩ := notify_outcome s ev w hw
  refine ⟨ho, rfl, ?_⟩
  simp only [hn, List.drop_left]

end Step

/-! ### What a count stands for

If the last visit that a counter saw is also the last of its branch in its
activation, the branch was reached as often as the counter says with this
condition. -/

section Streak

variable (hash : LoopHash)

def Streak (visits : List Visit) (key : Fin (2 ^ 64)) (pc count : ℕ) : Prop :=
  ∀ u, visits.find? (Visit.counted hash key pc) = some u → visits.find? u.sameBranch = some u →
    (visits.filter u.sameBranch).take count = List.replicate count u

variable {hash} {visits : List Visit} {key : Fin (2 ^ 64)} {pc count : ℕ} {v : Visit}

theorem sameBranch_self (v : Visit) : v.sameBranch v = true := by simp [Visit.sameBranch]

theorem take_succ_sameBranch (hrun : (visits.filter v.sameBranch).take count =
    List.replicate count v) :
    ((v :: visits).filter v.sameBranch).take (count + 1) = List.replicate (count + 1) v := by
  rw [List.filter_cons_of_pos (sameBranch_self v), List.take_succ_cons, hrun, List.replicate_succ]

theorem streak_zero : Streak hash visits key pc 0 := fun _ _ _ => rfl

theorem streak_other (hv : v.counted hash key pc = false) (h : Streak hash visits key pc count) :
    Streak hash (v :: visits) key pc count := by
  intro u hcounted hsame
  rw [List.find?_cons_of_neg (by simp [hv])] at hcounted
  by_cases hbranch : u.sameBranch v = true
  · rw [List.find?_cons_of_pos hbranch] at hsame
    obtain rfl : v = u := Option.some.inj hsame
    have hu := List.find?_some hcounted
    rw [hv] at hu
    exact absurd hu (by decide)
  · rw [List.find?_cons_of_neg hbranch] at hsame
    rw [List.filter_cons_of_neg hbranch]
    exact h u hcounted hsame

theorem streak_one (hv : v.counted hash key pc = true) : Streak hash (v :: visits) key pc 1 := by
  intro u hcounted _
  rw [List.find?_cons_of_pos hv] at hcounted
  obtain rfl : v = u := Option.some.inj hcounted
  exact take_succ_sameBranch rfl

theorem streak_succ (hv : v.counted hash key pc = true) (hrun : (visits.filter v.sameBranch).take
    count = List.replicate count v) : Streak hash (v :: visits) key pc (count + 1) := by
  intro u hcounted _
  rw [List.find?_cons_of_pos hv] at hcounted
  obtain rfl : v = u := Option.some.inj hcounted
  exact take_succ_sameBranch hrun

end Streak

/-! ### Runs -/

section Runs

variable {hash : LoopHash} {db : PackageStore}

/-- Every counter stands for a streak, and every report so far was of a real loop. -/
structure LoopInv (hash : LoopHash) (s : Session) : Prop where
  counts : ∀ key pc, Streak hash s.visits key pc (s.wrapper.tracer.oracles.branchCounts key pc).2
  reports : ∀ r ∈ s.reports, RealLoop r

theorem loopInv_start : LoopInv hash Session.start where
  counts _ _ := streak_zero
  reports _ hr := absurd hr List.not_mem_nil

theorem setCount_eq (o : InfiniteLoopOracle) (key key' : Fin (2 ^ 64)) (pc pc' : ℕ)
    (count : Fin (2 ^ 64) × ℕ) :
    (o.setCount key pc count).branchCounts key' pc' =
      if key' = key ∧ pc' = pc then count else o.branchCounts key' pc' := by
  simp only [InfiniteLoopOracle.setCount, Function.update_apply]
  by_cases hkey : key' = key
  · subst hkey
    simp only [if_true, Function.update_apply, true_and]
  · simp only [hkey, if_false, false_and]

theorem countBranch_cases (o : InfiniteLoopOracle) (f : Tracer.FunctionIdent) (pc : ℕ) (e : ZInt) :
    let count := o.branchCounts (hash.function f) pc
    (count.1 ≠ hash.symbol e ∧ o.countBranch hash f pc e =
      (o.setCount (hash.function f) pc (hash.symbol e, 1), [])) ∨
    (count.1 = hash.symbol e ∧ 1000 ≤ count.2 ∧ o.countBranch hash f pc e =
      (o.setCount (hash.function f) pc (count.1, 0), [InfiniteLoopOracle.finding f pc])) ∨
    (count.1 = hash.symbol e ∧ count.2 < 1000 ∧ o.countBranch hash f pc e =
      (o.setCount (hash.function f) pc (count.1, count.2 + 1), [])) := by
  simp only [InfiniteLoopOracle.countBranch]
  split_ifs with hne hle
  · exact .inl ⟨hne, rfl⟩
  · exact .inr (.inl ⟨not_not.mp hne, hle, rfl⟩)
  · exact .inr (.inr ⟨not_not.mp hne, Nat.lt_of_not_le hle, rfl⟩)

theorem counted_iff (key : Fin (2 ^ 64)) (pc : ℕ) (v : Visit) :
    v.counted hash key pc = true ↔
      v.symbol.isSome = true ∧ key = hash.function v.function ∧ pc = v.pc := by
  simp only [Visit.counted, Bool.and_eq_true, decide_eq_true_eq, and_assoc]
  rw [@eq_comm _ key, @eq_comm _ pc]

theorem counts_set (s : Session) (hinv : LoopInv hash s) (v : Visit) (h : Fin (2 ^ 64)) (count : ℕ)
    (hcount : Streak hash (v :: s.visits) (hash.function v.function) v.pc count) (key : Fin (2 ^ 64))
    (pc : ℕ) : Streak hash (v :: s.visits) key pc
      ((s.wrapper.tracer.oracles.setCount (hash.function v.function) v.pc (h, count)).branchCounts
        key pc).2 := by
  rw [setCount_eq]
  split_ifs with hat
  · obtain ⟨rfl, rfl⟩ := hat
    exact hcount
  · refine streak_other (Bool.eq_false_iff.mpr fun hv => hat ?_) (hinv.counts key pc)
    exact ((counted_iff key pc v).mp hv).2

/-- A count that goes on is that of the present branch. -/
theorem run_of_continues (s : Session) (ev : TraceEvent) (v : Visit) (e : ZInt)
    (hinv : LoopInv hash s) (hguard : s.Continues hash (.trace ev)) (hv : s.visit ev = some v)
    (hsym : v.symbol = some e) (count : Fin (2 ^ 64) × ℕ)
    (hcount : s.wrapper.tracer.oracles.branchCounts (hash.function v.function) v.pc = count)
    (hhash : count.1 = hash.symbol e) :
    (s.visits.filter v.sameBranch).take count.2 = List.replicate count.2 v := by
  subst hcount
  rcases Nat.eq_zero_or_pos
    (s.wrapper.tracer.oracles.branchCounts (hash.function v.function) v.pc).2 with hz | hpos
  · rw [hz]
    rfl
  · obtain ⟨hlast, hsame⟩ := hguard v e hv hsym hhash hpos
    exact hinv.counts _ _ v hlast hsame

theorem loopInv_unseen (s next : Session) (ev : TraceEvent) (hinv : LoopInv hash s)
    (hout : s.outcome hash ev = (s.wrapper.tracer.oracles, []))
    (hunseen : ∀ v, s.visit ev = some v → v.symbol = none)
    (h : s.step hash db (.trace ev) = some next) : LoopInv hash next := by
  obtain ⟨ho, hvisits, hreports⟩ := step_trace s next ev h
  rw [hout] at ho hreports
  refine ⟨fun key pc => ?_, fun r hr => ?_⟩
  · rw [ho, hvisits]
    cases hv : s.visit ev with
    | none => exact hinv.counts key pc
    | some v => exact streak_other (by simp [Visit.counted, hunseen v hv]) (hinv.counts key pc)
  · rw [hreports, List.map_nil, List.append_nil] at hr
    exact hinv.reports r hr

theorem loopInv_counted (s next : Session) (hinv : LoopInv hash s) (v : Visit)
    (hvisits : next.visits = v :: s.visits) (h : Fin (2 ^ 64)) (count : ℕ)
    (ho : next.wrapper.tracer.oracles =
      s.wrapper.tracer.oracles.setCount (hash.function v.function) v.pc (h, count))
    (hcount : Streak hash (v :: s.visits) (hash.function v.function) v.pc count)
    (hreports : ∀ r ∈ next.reports, r ∈ s.reports ∨ RealLoop r) : LoopInv hash next where
  counts key pc := by
    rw [hvisits, ho]
    exact counts_set s hinv v h count hcount key pc
  reports r hr := (hreports r hr).elim (hinv.reports r) id

theorem loopInv_branch (s next : Session) (ev : TraceEvent) (v : Visit) (e : ZInt)
    (hinv : LoopInv hash s) (hguard : s.Continues hash (.trace ev)) (hv : s.visit ev = some v)
    (hsym : v.symbol = some e) (h : s.step hash db (.trace ev) = some next) :
    LoopInv hash next := by
  obtain ⟨ho, hvisits, hreports⟩ := step_trace s next ev h
  simp only [Session.outcome, hv, hsym] at ho hreports
  rw [hv, Option.toList_some, List.singleton_append] at hvisits
  have hsome : v.symbol.isSome = true := by rw [hsym, Option.isSome_some]
  have hseen : v.counted hash (hash.function v.function) v.pc = true :=
    (counted_iff _ _ v).mpr ⟨hsome, rfl, rfl⟩
  rcases countBranch_cases s.wrapper.tracer.oracles v.function v.pc e with
    ⟨-, hr⟩ | ⟨hhash, hle, hr⟩ | ⟨hhash, -, hr⟩
  · rw [hr] at ho hreports
    rw [List.map_nil, List.append_nil] at hreports
    exact loopInv_counted s next hinv v hvisits _ 1 ho (streak_one hseen)
      fun r hmem => .inl (hreports ▸ hmem)
  · have hrun := run_of_continues s ev v e hinv hguard hv hsym _ rfl hhash
    rw [hr] at ho hreports
    refine loopInv_counted s next hinv v hvisits _ 0 ho streak_zero fun r hmem => ?_
    rw [hreports] at hmem
    rcases List.mem_append.mp hmem with hmem | hmem
    · exact .inl hmem
    · obtain rfl := List.mem_singleton.mp hmem
      have htake := congrArg (List.take 1001) (take_succ_sameBranch hrun)
      rw [List.take_take, List.take_replicate, Nat.min_eq_left (by omega)] at htake
      exact .inr ⟨v, s.visits, hvisits, rfl, rfl, hsome, by rw [hvisits, htake]⟩
  · have hrun := run_of_continues s ev v e hinv hguard hv hsym _ rfl hhash
    rw [hr] at ho hreports
    rw [List.map_nil, List.append_nil] at hreports
    exact loopInv_counted s next hinv v hvisits _ _ ho (streak_succ hseen hrun)
      fun r hmem => .inl (hreports ▸ hmem)

theorem loopInv_step (s next : Session) (i : SessionInput) (hinv : LoopInv hash s)
    (hguard : s.Continues hash i) (h : s.step hash db i = some next) : LoopInv hash next := by
  cases i with
  | execute cache =>
    cases h
    exact ⟨hinv.counts, hinv.reports⟩
  | trace ev =>
    cases hv : s.visit ev with
    | none =>
      refine loopInv_unseen s next ev hinv ?_ (fun v hsome => ?_) h
      · simp only [Session.outcome, hv]
      · rw [hv] at hsome
        cases hsome
    | some v =>
      cases hsym : v.symbol with
      | none =>
        refine loopInv_unseen s next ev hinv ?_ (fun u hsome => ?_) h
        · simp only [Session.outcome, hv, hsym]
        · rw [hv] at hsome
          cases hsome
          exact hsym
      | some e => exact loopInv_branch s next ev v e hinv hguard hv hsym h

/-- In a session whose counters only go on where they counted last, every report is
of a real loop. -/
theorem reports_real (inputs : List SessionInput) (s : Session)
    (hguard : Along (Session.step hash db) (Session.Continues hash) Session.start inputs)
    (h : run (Session.step hash db) Session.start inputs = some s) : ∀ r ∈ s.reports, RealLoop r :=
  (run_invariant (Session.step hash db) (Session.Continues hash) (LoopInv hash)
    (fun s i next hinv hg hstep => loopInv_step s next i hinv hg hstep)
    Session.start s inputs loopInv_start hguard h).reports

end Runs

/-! ### A function with a branch -/

section Sample

def loopFunction : Tracer.FunctionIdent := ⟨sampleModule.selfId, "f"⟩

def loopFrame : Frame where
  frameId := 0
  functionName := "f"
  moduleId := sampleModule.selfId
  versionId := ObjectID.ofByte 2
  parameters := [.runtimeValue (.int .w64 3)]
  returnTypes := []
  localsTypes := [⟨.u64, none⟩]
  isNative := false

def loopEntry (cache : PackageResolvedCache) : List SessionInput :=
  [.execute cache, .trace (.external .moveCallStart), .trace (.openFrame loopFrame)]

def loopTest : List SessionInput :=
  [.trace (.instruction 0 (.copyLoc 0)), .trace (.effect (.push (.runtimeValue (.int .w64 3)))),
    .trace (.instruction 1 (.ldU .w64 10)), .trace (.effect (.push (.runtimeValue (.int .w64 10)))),
    .trace (.instruction 2 .lt), .trace (.effect (.pop (.runtimeValue (.int .w64 10)))),
    .trace (.effect (.pop (.runtimeValue (.int .w64 3)))),
    .trace (.effect (.push (.runtimeValue (.bool true))))]

def loopJump : List SessionInput :=
  [.trace (.instruction 3 (.brTrue 0)), .trace (.effect (.pop (.runtimeValue (.bool true))))]

def loopCondition : ZInt := .ite (.lt (.var (0, 0)) (.const 10)) (.const 1) (.const 0)

/-- The engine in the function, whose only local is its argument. -/
def loopSymbols (symbols : List SymbolValue) : ConcolicState :=
  ⟨symbols, [[.value (.var (0, 0))]], [[(0, .var (0, 0))]], false⟩

/-- The symbolic stack and the operand stack in the frame `a`. -/
structure AtLoop (a : ℕ) (symbols : List SymbolValue) (values : List TraceValue) (s : Session) :
    Prop where
  concolic : s.wrapper.tracer.concolic = loopSymbols symbols
  functions : s.wrapper.tracer.currentFunctions = [(ObjectID.ofByte 2, loopFunction)]
  stack : s.wrapper.state.operandStack = values
  called : (TraceState.popLast s.wrapper.state.callStack).isSome = true
  activations : s.activations = [a]

structure Unseen (s t : Session) : Prop where
  oracles : t.wrapper.tracer.oracles = s.wrapper.tracer.oracles
  visits : t.visits = s.visits
  opened : t.opened = s.opened
  reports : t.reports = s.reports

theorem Unseen.trans {s t u : Session} (h : Unseen s t) (h' : Unseen t u) : Unseen s u :=
  ⟨h'.oracles.trans h.oracles, h'.visits.trans h.visits, h'.opened.trans h.opened,
    h'.reports.trans h.reports⟩

variable (hash : LoopHash) (db : PackageStore) {a : ℕ} {symbols : List SymbolValue}
  {values : List TraceValue} {s : Session}

theorem loop_entry (s : Session) (cache : PackageResolvedCache) :
    ∃ t, run (Session.step hash db) s (loopEntry cache) = some t ∧ AtLoop s.opened [] [] t ∧
      t.wrapper.tracer.oracles = s.wrapper.tracer.oracles ∧ t.visits = s.visits ∧
      t.opened = s.opened + 1 ∧ t.reports = s.reports := by
  refine ⟨_, rfl, ⟨rfl, rfl, rfl, rfl, rfl⟩, rfl, rfl, rfl, ?_⟩
  exact (List.append_nil _).trans (List.append_nil _)

theorem loop_unseen (ev : TraceEvent) (w : MovySuiTracerWrapper InfiniteLoopOracle OracleFinding)
    (h : s.wrapper.notify (InfiniteLoopOracle.hooks hash db) ev = some w) (hvisit : s.visit ev = none)
    (hopened : (s.frames ev).2 = s.opened) :
    ∃ t, s.step hash db (.trace ev) = some t ∧ t.wrapper = w ∧ t.activations = (s.frames ev).1 ∧
      Unseen s t := by
  have hstep : s.step hash db (.trace ev) = some ⟨w, (s.frames ev).1, s.opened, s.visits, s.reports ++
      (w.tracer.findings.drop s.wrapper.tracer.findings.length).map fun f => (f, s.visits)⟩ := by
    simp only [Session.step, h, Option.map_some, hvisit, hopened, Option.toList_none, List.nil_append]
  obtain ⟨ho, -, hr⟩ := step_trace s _ ev hstep
  simp only [Session.outcome, hvisit, List.map_nil, List.append_nil] at ho hr
  exact ⟨_, hstep, rfl, rfl, ⟨ho, rfl, rfl, hr⟩⟩

/-- An effect that only moves values on the operand stack. -/
theorem loop_effect (effect : Effect) (values' : List TraceValue) (hs : AtLoop a symbols values s)
    (hconcolic : (s.wrapper.tracer.concolic.onRawEventInner (.effect effect) s.wrapper.state).1 =
      s.wrapper.tracer.concolic)
    (hnotify : s.wrapper.notify (InfiniteLoopOracle.hooks hash db) (.effect effect) =
      some ⟨s.wrapper.tracer.onRawEvent s.wrapper.state (.effect effect),
        { s.wrapper.state with operandStack := values' }⟩) :
    ∃ t, s.step hash db (.trace (.effect effect)) = some t ∧ AtLoop a symbols values' t ∧
      Unseen s t := by
  obtain ⟨t, ht, hw, ha, hu⟩ := loop_unseen hash db (s := s) (.effect effect) _ hnotify rfl rfl
  refine ⟨t, ht, ⟨?_, ?_, ?_, ?_, ha.trans hs.activations⟩, hu⟩
  · rw [hw]
    exact hconcolic.trans hs.concolic
  · rw [hw]
    exact hs.functions
  · rw [hw]
  · rw [hw]
    exact hs.called

theorem loop_push (v : TraceValue) (hs : AtLoop a symbols values s) :
    ∃ t, s.step hash db (.trace (.effect (.push v))) = some t ∧
      AtLoop a symbols (v :: values) t ∧ Unseen s t := by
  apply loop_effect hash db (.push v) (v :: values) hs
  · rw [hs.concolic]
    rfl
  · rw [← hs.stack]
    rfl

theorem loop_pop (v u : TraceValue) (hs : AtLoop a symbols (v :: values) s) :
    ∃ t, s.step hash db (.trace (.effect (.pop u))) = some t ∧ AtLoop a symbols values t ∧
      Unseen s t := by
  apply loop_effect hash db (.pop u) values hs
  · rw [hs.concolic]
    rfl
  · simp only [MovySuiTracerWrapper.notify, MovySuiTracerWrapper.handle, TraceState.applyEvent,
      TraceState.applyEffect, hs.stack, Option.bind_eq_bind, Option.bind_some]

theorem loop_notify (pc : ℕ) (ins : Bytecode) (hs : AtLoop a symbols values s)
    (hlen : symbols.length = values.length)
    (hx : ∀ cache pkg md, InstructionExtraInformation.fromResolver ins cache pkg md = some none)
    (symbols' : List SymbolValue) (k : Option ZBool)
    (hshadow : (loopSymbols symbols).shadowInstruction ins values none =
      some (loopSymbols symbols', k)) :
    ∃ w, s.wrapper.notify (InfiniteLoopOracle.hooks hash db) (.instruction pc ins) = some w ∧
      Instructed s.wrapper w (loopSymbols symbols') :=
  notify_instruction (InfiniteLoopOracle.hooks hash db) s.wrapper (fun _ _ _ _ _ _ => rfl) pc ins
    sampleCallee [] (by rw [hs.concolic, loopSymbols])
    (by rw [hs.concolic, hs.stack, loopSymbols, hlen]) hs.functions none _ k (hx _ _ _)
    (by rw [hs.concolic, hs.stack, hshadow])

theorem loop_instruction (pc : ℕ) (ins : Bytecode) (hs : AtLoop a symbols values s)
    (hlen : symbols.length = values.length)
    (hx : ∀ cache pkg md, InstructionExtraInformation.fromResolver ins cache pkg md = some none)
    (hvisit : s.visit (.instruction pc ins) = none) (symbols' : List SymbolValue) (k : Option ZBool)
    (hshadow : (loopSymbols symbols).shadowInstruction ins values none =
      some (loopSymbols symbols', k)) :
    ∃ t, s.step hash db (.trace (.instruction pc ins)) = some t ∧ AtLoop a symbols' values t ∧
      Unseen s t := by
  obtain ⟨w, hnotify, hw⟩ := loop_notify hash db pc ins hs hlen hx symbols' k hshadow
  obtain ⟨t, ht, rfl, ha, hu⟩ := loop_unseen hash db (.instruction pc ins) w hnotify hvisit rfl
  exact ⟨t, ht, ⟨hw.concolic, hw.functions.trans hs.functions,
    (congrArg TraceState.operandStack hw.state).trans hs.stack, by rw [hw.state, hs.called],
    ha.trans hs.activations⟩, hu⟩

/-- What a round of the body does to the oracle and the visits. -/
structure Counted (a : ℕ) (s t : Session) : Prop where
  oracles : t.wrapper.tracer.oracles =
    (s.wrapper.tracer.oracles.countBranch hash loopFunction 3 loopCondition).1
  visits : t.visits = ⟨a, loopFunction, 3, some loopCondition⟩ :: s.visits
  opened : t.opened = s.opened
  reports : t.reports = s.reports ++
    (s.wrapper.tracer.oracles.countBranch hash loopFunction 3 loopCondition).2.map
      fun f => (f, t.visits)

theorem loop_branch (hs : AtLoop a [.value loopCondition] values s) (hlen : values.length = 1) :
    ∃ t, s.step hash db (.trace (.instruction 3 (.brTrue 0))) = some t ∧ AtLoop a [] values t ∧
      Counted hash a s t := by
  obtain ⟨w, hnotify, hw⟩ := loop_notify hash db 3 (.brTrue 0) hs hlen.symm (fun _ _ _ => rfl) []
    none rfl
  have hvisit : s.visit (.instruction 3 (.brTrue 0)) =
      some ⟨a, loopFunction, 3, some loopCondition⟩ := by
    simp only [Session.visit, hs.functions, hs.activations, hs.concolic, List.head?_cons,
      Option.map_some, List.headD_cons, condition, loopSymbols]
  obtain ⟨t, ht, rfl, ha, hopened⟩ : ∃ t, s.step hash db (.trace (.instruction 3 (.brTrue 0))) =
      some t ∧ t.wrapper = w ∧ t.activations = s.activations ∧ t.opened = s.opened :=
    ⟨⟨w, s.activations, s.opened, _, _⟩, by
      simp only [Session.step, hnotify, Option.map_some]
      rfl, rfl, rfl, rfl⟩
  obtain ⟨ho, hv, hr⟩ := step_trace s t _ ht
  simp only [Session.outcome, hvisit, Option.toList_some, List.singleton_append] at ho hv hr
  exact ⟨t, ht, ⟨hw.concolic, hw.functions.trans hs.functions,
    (congrArg TraceState.operandStack hw.state).trans hs.stack, by rw [hw.state, hs.called],
    ha.trans hs.activations⟩, ⟨ho, hv, hopened, hr⟩⟩

theorem loop_test (hs : AtLoop a [] [] s) :
    ∃ t, run (Session.step hash db) s loopTest = some t ∧
      AtLoop a [.value loopCondition] [.runtimeValue (.bool true)] t ∧ Unseen s t := by
  obtain ⟨s₁, h₁, hs₁, hu₁⟩ := loop_instruction hash db 0 (.copyLoc 0) hs rfl (fun _ _ _ => rfl) rfl
    [.value (.var (0, 0))] none rfl
  obtain ⟨s₂, h₂, hs₂, hu₂⟩ := loop_push hash db (.runtimeValue (.int .w64 3)) hs₁
  obtain ⟨s₃, h₃, hs₃, hu₃⟩ := loop_instruction hash db 1 (.ldU .w64 10) hs₂ rfl
    (fun _ _ _ => rfl) rfl [.unknown, .value (.var (0, 0))] none rfl
  obtain ⟨s₄, h₄, hs₄, hu₄⟩ := loop_push hash db (.runtimeValue (.int .w64 10)) hs₃
  obtain ⟨s₅, h₅, hs₅, hu₅⟩ := loop_instruction hash db 2 .lt hs₄ rfl
    (fun _ _ _ => rfl) rfl [.value loopCondition] (some (.lt (.var (0, 0)) (.const 10))) rfl
  obtain ⟨s₆, h₆, hs₆, hu₆⟩ := loop_pop hash db _ (.runtimeValue (.int .w64 10)) hs₅
  obtain ⟨s₇, h₇, hs₇, hu₇⟩ := loop_pop hash db _ (.runtimeValue (.int .w64 3)) hs₆
  obtain ⟨t, ht, hst, hut⟩ := loop_push hash db (.runtimeValue (.bool true)) hs₇
  refine ⟨t, ?_, hst,
    hu₁.trans (hu₂.trans (hu₃.trans (hu₄.trans (hu₅.trans (hu₆.trans (hu₇.trans hut))))))⟩
  simp only [loopTest, run, h₁, h₂, h₃, h₄, h₅, h₆, h₇, ht, Option.bind_some]

theorem loop_jump (hs : AtLoop a [.value loopCondition] [.runtimeValue (.bool true)] s) :
    ∃ t, run (Session.step hash db) s loopJump = some t ∧ AtLoop a [] [] t ∧ Counted hash a s t := by
  obtain ⟨u, hu, hsu, hc⟩ := loop_branch hash db hs rfl
  obtain ⟨t, ht, hst, hut⟩ := loop_pop hash db _ (.runtimeValue (.bool true)) hsu
  refine ⟨t, ?_, hst, ⟨hut.oracles.trans hc.oracles, hut.visits.trans hc.visits,
    hut.opened.trans hc.opened, ?_⟩⟩
  · simp only [loopJump, run, hu, ht, Option.bind_some]
  · rw [hut.reports, hc.reports, hut.visits]

theorem counted_of_unseen {s t u : Session} (h : Unseen s t) (hc : Counted hash a t u) :
    Counted hash a s u := by
  refine ⟨by rw [hc.oracles, h.oracles], by rw [hc.visits, h.visits], hc.opened.trans h.opened, ?_⟩
  rw [hc.reports, h.reports, h.oracles]

theorem loop_round (hs : AtLoop a [] [] s) :
    ∃ t, run (Session.step hash db) s (loopTest ++ loopJump) = some t ∧ AtLoop a [] [] t ∧
      Counted hash a s t := by
  obtain ⟨u, hu, hsu, hunseen⟩ := loop_test hash db hs
  obtain ⟨t, ht, hst, hc⟩ := loop_jump hash db hsu
  exact ⟨t, by rw [run_append, hu, Option.bind_some, ht], hst, counted_of_unseen hash hunseen hc⟩

/-- The counter of the branch after `n` rounds without a report. -/
def CountIs (n : ℕ) (o : InfiniteLoopOracle) : Prop :=
  (o.branchCounts (hash.function loopFunction) 3).2 = n ∧
    (n = 0 ∨ (o.branchCounts (hash.function loopFunction) 3).1 = hash.symbol loopCondition)

theorem countIs_succ (n : ℕ) (o : InfiniteLoopOracle) (hn : n < 1000) (h : CountIs hash n o) :
    (o.countBranch hash loopFunction 3 loopCondition).2 = [] ∧
      CountIs hash (n + 1) (o.countBranch hash loopFunction 3 loopCondition).1 := by
  obtain ⟨hcount, hhash⟩ := h
  rcases @countBranch_cases hash o loopFunction 3 loopCondition with
    ⟨hne, hr⟩ | ⟨-, hle, -⟩ | ⟨heq, -, hr⟩
  · obtain rfl := hhash.resolve_right hne
    rw [hr]
    refine ⟨rfl, ?_, .inr ?_⟩ <;> simp only [setCount_eq, and_self, if_true]
  · omega
  · rw [hr]
    refine ⟨rfl, ?_, .inr ?_⟩ <;> simp only [setCount_eq, and_self, if_true, hcount, heq]

theorem countIs_report (o : InfiniteLoopOracle) (h : CountIs hash 1000 o) :
    (o.countBranch hash loopFunction 3 loopCondition).2 = [InfiniteLoopOracle.finding loopFunction 3] := by
  obtain ⟨hcount, hhash⟩ := h
  rcases @countBranch_cases hash o loopFunction 3 loopCondition with
    ⟨hne, -⟩ | ⟨-, -, hr⟩ | ⟨-, hlt, -⟩
  · exact absurd (hhash.resolve_left (by decide)) hne
  · rw [hr]
  · omega

/-- One execution: the function is entered, branches once and returns. -/
def loopExecution (cache : PackageResolvedCache) : List SessionInput :=
  loopEntry cache ++ (loopTest ++ loopJump) ++ [.trace (.closeFrame 0)]

theorem loop_close (hs : AtLoop a symbols values s) :
    ∃ t, run (Session.step hash db) s [.trace (.closeFrame 0)] = some t ∧ Unseen s t := by
  obtain ⟨rest, hrest⟩ := Option.isSome_iff_exists.mp hs.called
  have hnotify : s.wrapper.notify (InfiniteLoopOracle.hooks hash db) (.closeFrame 0) =
      some ⟨(s.wrapper.tracer.onRawEvent s.wrapper.state (.closeFrame 0)).closeFrame,
        { s.wrapper.state with callStack := rest }⟩ := by
    simp only [MovySuiTracerWrapper.notify, MovySuiTracerWrapper.handle, TraceState.applyEvent,
      hrest, Option.bind_eq_bind, Option.bind_some]
  obtain ⟨t, ht, -, -, hu⟩ := loop_unseen hash db (s := s) (.closeFrame 0) _ hnotify rfl rfl
  exact ⟨t, by rw [run, ht, Option.bind_some, run], hu⟩

theorem loop_execution (s : Session) (cache : PackageResolvedCache) :
    ∃ t, run (Session.step hash db) s (loopExecution cache) = some t ∧
      t.wrapper.tracer.oracles =
        (s.wrapper.tracer.oracles.countBranch hash loopFunction 3 loopCondition).1 ∧
      t.visits = ⟨s.opened, loopFunction, 3, some loopCondition⟩ :: s.visits ∧
      t.opened = s.opened + 1 ∧ t.reports = s.reports ++
        (s.wrapper.tracer.oracles.countBranch hash loopFunction 3 loopCondition).2.map
          fun f => (f, t.visits) := by
  obtain ⟨u, hu, hsu, ho, hv, hop, hr⟩ := loop_entry hash db s cache
  obtain ⟨w, hw, hsw, hc⟩ := loop_round hash db hsu
  obtain ⟨t, ht, hut⟩ := loop_close hash db hsw
  refine ⟨t, ?_, ?_, ?_, ?_, ?_⟩
  · rw [loopExecution, run_append, run_append, hu, Option.bind_some, hw, Option.bind_some, ht]
  · rw [hut.oracles, hc.oracles, ho]
  · rw [hut.visits, hc.visits, hv]
  · rw [hut.opened, hc.opened, hop]
  · rw [hut.reports, hc.reports, hr, ho, hut.visits]

theorem loop_executions (cache : PackageResolvedCache) (n : ℕ) (hn : n ≤ 1000) :
    ∃ s, run (Session.step hash db) Session.start (List.replicate n (loopExecution cache)).flatten =
        some s ∧ CountIs hash n s.wrapper.tracer.oracles ∧ s.opened = n ∧ s.reports = [] ∧
      ∀ v ∈ s.visits, v.activation < n := by
  induction n with
  | zero =>
    exact ⟨Session.start, rfl, ⟨rfl, .inl rfl⟩, rfl, rfl, fun _ hv => absurd hv List.not_mem_nil⟩
  | succ n ih =>
    obtain ⟨s, hs, hcount, hopened, hreports, hvisits⟩ := ih (by omega)
    obtain ⟨t, ht, ho, hv, hop, hr⟩ := loop_execution hash db s cache
    obtain ⟨hnone, hnext⟩ := countIs_succ hash n _ (by omega) hcount
    refine ⟨t, ?_, ?_, ?_, ?_, fun v hmem => ?_⟩
    · rw [List.replicate_succ', List.flatten_append, run_append, hs, Option.bind_some,
        List.flatten_singleton, ht]
    · rw [ho]
      exact hnext
    · rw [hop, hopened]
    · rw [hr, hnone, hreports]
      rfl
    · rw [hv, hopened] at hmem
      rcases List.mem_cons.mp hmem with rfl | hmem
      · exact Nat.lt_succ_self n
      · exact Nat.lt_succ_of_lt (hvisits v hmem)

/-- Whatever the hashes are: the same short call, executed 1001 times, is reported. -/
theorem reports_fail :
    ¬∃ (hash : LoopHash) (db : PackageStore), ∀ (inputs : List SessionInput) (s : Session),
      run (Session.step hash db) Session.start inputs = some s → ∀ r ∈ s.reports, RealLoop r := by
  intro h
  obtain ⟨hash, db, hall⟩ := h
  obtain ⟨s, hs, hcount, hopened, hreports, hvisits⟩ :=
    loop_executions hash db ⟨fun _ => none⟩ 1000 le_rfl
  obtain ⟨t, ht, ho, hv, -, hr⟩ := loop_execution hash db s ⟨fun _ => none⟩
  rw [countIs_report hash _ hcount, hreports] at hr
  have hreal := hall ((List.replicate 1000 (loopExecution ⟨fun _ => none⟩)).flatten ++
    loopExecution ⟨fun _ => none⟩) t (by rw [run_append, hs, Option.bind_some, ht])
    (InfiniteLoopOracle.finding loopFunction 3, t.visits) (by rw [hr]; exact List.mem_singleton.mpr rfl)
  obtain ⟨v, rest, hcons, -, -, -, htake⟩ := hreal
  simp only [hv, hopened] at hcons htake
  cases hcons
  have hrest : s.visits.filter (Visit.sameBranch ⟨1000, loopFunction, 3, some loopCondition⟩) = [] := by
    refine List.filter_eq_nil_iff.mpr fun u hu hsame => ?_
    have hlt := hvisits u hu
    simp only [Visit.sameBranch, Bool.and_eq_true, decide_eq_true_eq] at hsame
    omega
  have hlen := congrArg List.length htake
  rw [List.filter_cons_of_pos (sameBranch_self _), hrest, List.length_replicate,
    List.length_take] at hlen
  simp only [List.length_singleton] at hlen
  omega

theorem continues_branch (k : ℕ)
    (hs : AtLoop a [.value loopCondition] values s) (hcount : CountIs hash k s.wrapper.tracer.oracles)
    (hvisits : s.visits = List.replicate k ⟨a, loopFunction, 3, some loopCondition⟩) :
    s.Continues hash (.trace (.instruction 3 (.brTrue 0))) := by
  intro v e hv _ _ hpos
  simp only [Session.visit, hs.functions, hs.activations, hs.concolic, List.head?_cons,
    Option.map_some, List.headD_cons, condition, loopSymbols, Option.some.injEq] at hv
  subst hv
  rw [hcount.1] at hpos
  obtain ⟨n, rfl⟩ := Nat.exists_eq_succ_of_ne_zero hpos.ne'
  rw [hvisits, List.replicate_succ]
  exact ⟨List.find?_cons_of_pos ((counted_iff _ _ _).mpr ⟨rfl, rfl, rfl⟩),
    List.find?_cons_of_pos (sameBranch_self _)⟩

/-- In one frame every round goes on where the last one counted. -/
theorem round_along (k : ℕ) (hs : AtLoop a [] [] s) (hcount : CountIs hash k s.wrapper.tracer.oracles)
    (hvisits : s.visits = List.replicate k ⟨a, loopFunction, 3, some loopCondition⟩) :
    Along (Session.step hash db) (Session.Continues hash) s (loopTest ++ loopJump) := by
  obtain ⟨t, ht, hst, hu⟩ := loop_test hash db hs
  refine (along_append _ _ s t _ _ ht).mpr ⟨along_of_forall _ _ _ _ fun i hi u => ?_, ?_, ?_⟩
  · simp only [loopTest, List.mem_cons, List.not_mem_nil, or_false] at hi
    rcases hi with rfl | rfl | rfl | rfl | rfl | rfl | rfl | rfl <;>
      exact fun v e hv => by cases hv
  · exact continues_branch hash k hst (by rw [hu.oracles]; exact hcount) (hu.visits.trans hvisits)
  · exact fun next _ => ⟨fun v e hv => (by cases hv), fun _ _ => trivial⟩

theorem loop_rounds (cache : PackageResolvedCache) (k : ℕ) (hk : k ≤ 1000) :
    ∃ s, run (Session.step hash db) Session.start
        (loopEntry cache ++ (List.replicate k (loopTest ++ loopJump)).flatten) = some s ∧
      Along (Session.step hash db) (Session.Continues hash) Session.start
        (loopEntry cache ++ (List.replicate k (loopTest ++ loopJump)).flatten) ∧
      AtLoop 0 [] [] s ∧ CountIs hash k s.wrapper.tracer.oracles ∧ s.reports = [] ∧
      s.visits = List.replicate k ⟨0, loopFunction, 3, some loopCondition⟩ := by
  induction k with
  | zero =>
    obtain ⟨s, hs, hat, ho, hv, -, hr⟩ := loop_entry hash db Session.start cache
    refine ⟨s, by rwa [List.replicate_zero, List.flatten_nil, List.append_nil],
      along_of_forall _ _ _ _ fun i hi u => ?_, hat, ?_, hr, hv⟩
    · simp only [loopEntry, List.replicate_zero, List.flatten_nil, List.append_nil, List.mem_cons,
        List.not_mem_nil, or_false] at hi
      rcases hi with rfl | rfl | rfl
      · trivial
      · exact fun v e hv => by cases hv
      · exact fun v e hv => by cases hv
    · rw [ho]
      exact ⟨rfl, .inl rfl⟩
  | succ k ih =>
    obtain ⟨s, hs, halong, hat, hcount, hreports, hvisits⟩ := ih (by omega)
    obtain ⟨t, ht, hatt, hc⟩ := loop_round hash db hat
    obtain ⟨hnone, hnext⟩ := countIs_succ hash k _ (by omega) hcount
    rw [List.replicate_succ', List.flatten_append, List.flatten_singleton, ← List.append_assoc]
    refine ⟨t, by rw [run_append, hs, Option.bind_some, ht],
      (along_append _ _ _ s _ _ hs).mpr ⟨halong, round_along hash db k hat hcount hvisits⟩,
      hatt, ?_, ?_, ?_⟩
    · rw [hc.oracles]
      exact hnext
    · rw [hc.reports, hnone, hreports]
      rfl
    · rw [hc.visits, hvisits, List.replicate_succ]

def sampleHash : LoopHash := ⟨fun _ => 1, fun _ => 2⟩

/-- 1001 rounds in one frame are reported, as a real loop. -/
theorem reports_real_rounds :
    ∃ s, run (Session.step sampleHash fun _ => .ok none) Session.start
        (loopEntry ⟨fun _ => none⟩ ++ (List.replicate 1000 (loopTest ++ loopJump)).flatten ++
          (loopTest ++ loopJump)) = some s ∧
      (InfiniteLoopOracle.finding loopFunction 3, s.visits) ∈ s.reports ∧
      ∀ r ∈ s.reports, RealLoop r := by
  obtain ⟨s, hs, halong, hat, hcount, hreports, hvisits⟩ :=
    loop_rounds sampleHash (fun _ => .ok none) ⟨fun _ => none⟩ 1000 le_rfl
  obtain ⟨t, ht, -, hc⟩ := loop_round sampleHash (fun _ => .ok none) hat
  have hrun : run (Session.step sampleHash fun _ => .ok none) Session.start
      (loopEntry ⟨fun _ => none⟩ ++ (List.replicate 1000 (loopTest ++ loopJump)).flatten ++
        (loopTest ++ loopJump)) = some t := by
    rw [run_append, hs, Option.bind_some, ht]
  refine ⟨t, hrun, ?_, reports_real _ t ((along_append _ _ _ s _ _ hs).mpr ⟨halong,
    round_along sampleHash (fun _ => .ok none) 1000 hat hcount hvisits⟩) hrun⟩
  rw [hc.reports, countIs_report sampleHash _ hcount, hreports]
  exact List.mem_singleton.mpr rfl

end Sample

end Movy.Fuzz
