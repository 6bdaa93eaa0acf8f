import Movy.Fuzz.ArgMutator
import Movy.Fuzz.StageReplay
import Movy.Tracer.Lockstep
import Movy.Tracer.TopCalls

/-!
# Solving for an argument (`movy-fuzz/src/mutators/arg.rs`, `movy-fuzz/src/solver.rs`)

`solve_arg` draws a call of the sequence and one of its arguments, hands the
constraints that the last execution logged for the function to the solver,
and writes the value of the argument in the solver's model. The symbolic
arguments that it bounds and reads are those of the top-level call with the
number of the command.
-/

namespace Movy.Fuzz

open Movy.Types Movy.Store

namespace ArgMutator

def targetFunction (call : MoveCall) : Tracer.FunctionIdent :=
  ⟨⟨call.moduleId, call.moduleName⟩, call.function⟩

def cmpConstraints (logs : List Tracer.Log) : List Tracer.ZBool :=
  logs.filterMap fun log => match log with
    | .cmpLog _ _ _ constraint => constraint
    | _ => none

def otherConstraints (logs : List Tracer.Log) : List Tracer.ZBool :=
  logs.filterMap fun log => match log with
    | .castLog _ constraint => constraint
    | .shlLog _ _ constraint => constraint
    | _ => none

/-- One of the comparisons is negated, or none is. -/
def flipOne (cs : List Tracer.ZBool) : Choice (List Tracer.ZBool) :=
  if cs.isEmpty then pure cs
  else do
    let c ← Choice.belowOrZero 2
    if c = 0 then do
      let i ← Choice.belowOrZero cs.length
      pure (cs.modify i .not)
    else pure cs

/-- The greatest value of a parameter; `none` is the panic on an unsupported type. -/
def maxValue : MoveAbiSignatureToken → Option ℕ
  | .bool => some 1
  | .u8 => some (2 ^ 8 - 1)
  | .u16 => some (2 ^ 16 - 1)
  | .u32 => some (2 ^ 32 - 1)
  | .u64 => some (2 ^ 64 - 1)
  | .u128 => some (2 ^ 128 - 1)
  | .u256 => some (2 ^ 256 - 1)
  | _ => none

def argBounds (function : MoveFunctionAbi) (arg : ℕ × Tracer.ZInt) : Option (List Tracer.ZBool) :=
  (function.parameters[arg.1]?).bind fun param =>
    (maxValue param).map fun max => [.ge arg.2 (.const 0), .le arg.2 (.const max)]

def argValue (function : MoveFunctionAbi) (model : Interp Tracer.ArgVar) (arg : ℕ × Tracer.ZInt) :
    Option InputArgument :=
  let n := arg.2.eval model
  if n < 0 then none
  else (function.parameters[arg.1]?).bind fun param => valueFromAssignment param n.toNat

/-- `check` is the solver: a model of the assertions, or none in time. The outer `none`
is a panic. -/
def solve (check : List Tracer.ZBool → Option (Interp Tracer.ArgVar)) (function : MoveFunctionAbi)
    (args : List (ℕ × Tracer.ZInt)) (constraints : List Tracer.ZBool) :
    Option (Option (List (ℕ × InputArgument))) :=
  if constraints.isEmpty then some none
  else (args.mapM (argBounds function)).map fun bounds =>
    (check (constraints ++ bounds.flatten)).map fun model =>
      args.filterMap fun arg => (argValue function model arg).map fun v => (arg.1, v)

/-- The constraints that the logs of a function hand to the solver. -/
def handed (logs : List Tracer.Log) : Choice (List Tracer.ZBool) := do
  let cmps ← flipOne (cmpConstraints logs)
  pure (cmps ++ otherConstraints logs)

/-- What `solve_arg` did: the command that it chose, the constraints, and the sequence. -/
structure Solved where
  cmdIdx : ℕ
  constraints : List Tracer.ZBool
  ptb : MoveSequence

def solveFor (check : List Tracer.ZBool → Option (Interp Tracer.ArgVar)) (st : FuzzState)
    (cmps : Tracer.FunctionIdent → List Tracer.Log) (solver : Tracer.ConcolicState)
    (ptb : MoveSequence) (cmdIdx : ℕ) (call : MoveCall) (function : MoveFunctionAbi) (idx : ℕ)
    (arg : SequenceArgument) : Choice (Option Solved) :=
  match solver.args[cmdIdx]? with
  | none => pure none
  | some solvingArg => do
    let _ ← Choice.expect (st.getPackageMetadata call.moduleId)
    let constraints ← handed (cmps (targetFunction call))
    let solution ← Choice.expect (solve check function solvingArg constraints)
    match (solution.getD []).find? (·.1 = idx), arg with
    | some v, .input inputIdx => do
      let _ ← Choice.expect ptb.inputs[inputIdx.val]?
      pure (some ⟨cmdIdx, constraints, { ptb with inputs := ptb.inputs.set inputIdx.val v.2 }⟩)
    | _, _ => pure none

def solveCall (check : List Tracer.ZBool → Option (Interp Tracer.ArgVar)) (st : FuzzState)
    (flash : Option FlashProvider) (cmps : Tracer.FunctionIdent → List Tracer.Log)
    (solver : Tracer.ConcolicState) (ptb : MoveSequence) (cmdIdx : ℕ) (call : MoveCall) :
    Choice (Option Solved) := do
  let function ← Choice.expect (st.getCalled call)
  let candidates := argIdxCandidates function call (flashCommandLimits flash).2
  if candidates.isEmpty then pure none
  else do
    let idx ← Choice.pick candidates
    let arg ← Choice.expect call.arguments[idx]?
    solveFor check st cmps solver ptb cmdIdx call function idx arg

/-- `none` is `Skipped`. -/
def solveArg (check : List Tracer.ZBool → Option (Interp Tracer.ArgVar)) (st : FuzzState)
    (flash : Option FlashProvider) (cmps : Tracer.FunctionIdent → List Tracer.Log)
    (solver : Tracer.ConcolicState) (stageIdx : Option ℕ) (ptb : MoveSequence) :
    Choice (Option Solved) :=
  if ptb.commands.isEmpty then pure none
  else do
    let cmdCandidates ← Choice.expect (candidateMoveCallIndices st flash ptb stageIdx)
    if cmdCandidates.isEmpty then pure none
    else do
      let cmdIdx ← Choice.pick cmdCandidates
      match ptb.commands[cmdIdx]? with
      | some (.call call) => solveCall check st flash cmps solver ptb cmdIdx call
      | _ => pure none

/-! ### When it panics -/

structure WellFormed (st : FuzzState) (ptb : MoveSequence) : Prop where
  known : ∀ call, .call call ∈ ptb.commands → ∃ function, st.getCalled call = some function
  inputs : ∀ call, .call call ∈ ptb.commands → ∀ i, .input i ∈ call.arguments →
    i.val < ptb.inputs.length

/-- A command that `solve_arg` can come to solve for. -/
structure Selectable (st : FuzzState) (flash : Option FlashProvider) (stageIdx : Option ℕ)
    (ptb : MoveSequence) (cmdIdx : ℕ) (call : MoveCall) (function : MoveFunctionAbi) : Prop where
  candidate : ∃ cs, candidateMoveCallIndices st flash ptb stageIdx = some cs ∧ cmdIdx ∈ cs
  command : ptb.commands[cmdIdx]? = some (.call call)
  called : st.getCalled call = some function
  arguments : argIdxCandidates function call (flashCommandLimits flash).2 ≠ []

def Constrained (logs : List Tracer.Log) : Prop := cmpConstraints logs ++ otherConstraints logs ≠ []

section Safety

variable {st : FuzzState} {flash : Option FlashProvider} {stageIdx : Option ℕ} {ptb : MoveSequence}

theorem generalCandidates_some (hwf : WellFormed st ptb) (limit : ℕ)
    (cmds : List (MoveSequenceCall × ℕ)) (hsub : ∀ e ∈ cmds, e.1 ∈ ptb.commands) :
    ∃ cs, generalCandidates st limit cmds = some cs := by
  induction cmds with
  | nil => exact ⟨[], rfl⟩
  | cons e rest ih =>
    obtain ⟨cmd, idx⟩ := e
    obtain ⟨others, hothers⟩ := ih fun e he => hsub e (List.mem_cons_of_mem _ he)
    cases cmd with
    | call call =>
      obtain ⟨function, hf⟩ := hwf.known call (hsub _ (List.mem_cons_self ..))
      simp only [generalCandidates, hf, hothers, Option.bind_eq_bind, Option.bind_some]
      exact ⟨_, rfl⟩
    | _ => exact ⟨others, hothers⟩

theorem candidates_some (hwf : WellFormed st ptb) :
    ∃ cs, candidateMoveCallIndices st flash ptb stageIdx = some cs := by
  unfold candidateMoveCallIndices
  cases stageIdx with
  | none =>
    refine generalCandidates_some hwf _ _ fun e he => ?_
    obtain ⟨cmd, i⟩ := e
    exact List.mem_of_getElem? (List.mem_zipIdx_iff_getElem?.mp (List.mem_of_mem_drop he))
  | some stageIdx =>
    simp only [stageCandidateIndices]
    cases hc : ptb.commands[stageIdx]? with
    | none => exact ⟨[], rfl⟩
    | some cmd =>
      cases cmd with
      | call call =>
        obtain ⟨function, hf⟩ := hwf.known call (List.mem_of_getElem? hc)
        simp only [hf, Option.bind_eq_bind, Option.bind_some]
        exact ⟨_, rfl⟩
      | _ => exact ⟨[], rfl⟩

theorem getPackageMetadata_of_called (call : MoveCall) (function : MoveFunctionAbi)
    (h : st.getCalled call = some function) :
    ∃ pkg, st.getPackageMetadata call.moduleId = some pkg := by
  obtain ⟨m, hm, -⟩ := Option.bind_eq_some_iff.mp h
  obtain ⟨pkg, hpkg, -⟩ := Option.bind_eq_some_iff.mp hm
  exact ⟨pkg, hpkg⟩

theorem argIdx_argument (function : MoveFunctionAbi) (call : MoveCall) (limit k : ℕ)
    (h : k ∈ argIdxCandidates function call limit) : ∃ i, call.arguments[k]? = some (.input i) := by
  obtain ⟨⟨⟨param, arg⟩, i⟩, hmem, h⟩ := List.mem_filterMap.mp h
  split_ifs at h with hcond
  obtain rfl := Option.some.inj h
  have hzip := List.mem_zipIdx_iff_getElem?.mp hmem
  rw [List.getElem?_zip_eq_some] at hzip
  cases arg with
  | input j => exact ⟨j, hzip.2⟩
  | _ => simp at hcond

theorem flipOne_some (cs : List Tracer.ZBool) (d e : ℕ) (rest : List ℕ) :
    ∃ cs' mid, flipOne cs (d :: e :: rest) = some (cs', mid) ∧ (cs' = [] ↔ cs = []) := by
  unfold flipOne
  cases cs with
  | nil => exact ⟨[], _, rfl, Iff.rfl⟩
  | cons c cs =>
    simp only [List.isEmpty_cons, Bool.false_eq_true, if_false]
    have hdraw : Choice.belowOrZero 2 (d :: e :: rest) = some (d % 2, e :: rest) := rfl
    rw [Choice.bind_eq _ _ _ _ _ hdraw]
    split_ifs with hzero
    · have hpick : Choice.belowOrZero (c :: cs).length (e :: rest) =
          some (e % (c :: cs).length, rest) := rfl
      rw [Choice.bind_eq _ _ _ _ _ hpick]
      exact ⟨_, rest, rfl, by simp only [List.modify_eq_nil_iff, reduceCtorEq]⟩
    · exact ⟨_, _, rfl, iff_of_false (List.cons_ne_nil c cs) id⟩

theorem handed_some (logs : List Tracer.Log) (d e : ℕ) (rest : List ℕ) :
    ∃ cs mid, handed logs (d :: e :: rest) = some (cs, mid) ∧ (cs ≠ [] ↔ Constrained logs) := by
  obtain ⟨cmps, mid, hflip, hnil⟩ := flipOne_some (cmpConstraints logs) d e rest
  refine ⟨cmps ++ otherConstraints logs, mid, ?_, ?_⟩
  · unfold handed
    rw [Choice.bind_eq _ _ _ _ _ hflip]
    rfl
  · simp only [Constrained, ne_eq, List.append_eq_nil_iff, hnil]

variable {check : List Tracer.ZBool → Option (Interp Tracer.ArgVar)}
  {cmps : Tracer.FunctionIdent → List Tracer.Log} {solver : Tracer.ConcolicState}

theorem solve_isSome (function : MoveFunctionAbi) (args : List (ℕ × Tracer.ZInt))
    (constraints : List Tracer.ZBool) :
    (solve check function args constraints).isSome = true ↔
      constraints ≠ [] → ∀ a ∈ args, (argBounds function a).isSome = true := by
  unfold solve
  cases constraints with
  | nil => simp
  | cons c cs =>
    simp only [List.isEmpty_cons, Bool.false_eq_true, if_false, Option.isSome_map, ne_eq,
      reduceCtorEq, not_false_eq_true, forall_const]
    induction args with
    | nil => simp
    | cons a rest ih =>
      simp only [List.mapM_cons, List.forall_mem_cons, ← ih]
      cases argBounds function a with
      | none => simp
      | some b => cases rest.mapM (argBounds function) <;> simp

theorem solveFor_isSome (hwf : WellFormed st ptb) (cmdIdx : ℕ) (call : MoveCall)
    (function : MoveFunctionAbi) (hcall : .call call ∈ ptb.commands)
    (hknown : st.getCalled call = some function) (idx : ℕ) (i : U16)
    (harg : .input i ∈ call.arguments) (d e : ℕ) (rest : List ℕ) :
    (solveFor check st cmps solver ptb cmdIdx call function idx (.input i) (d :: e :: rest)).isSome =
        true ↔
      ∀ args, solver.args[cmdIdx]? = some args → Constrained (cmps (targetFunction call)) →
        ∀ a ∈ args, (argBounds function a).isSome = true := by
  unfold solveFor
  cases solver.args[cmdIdx]? with
  | none => exact iff_of_true rfl fun _ h => by cases h
  | some args =>
    obtain ⟨pkg, hpkg⟩ := getPackageMetadata_of_called call function hknown
    obtain ⟨cs, mid, hcs, hne⟩ := handed_some (cmps (targetFunction call)) d e rest
    have hin := List.getElem?_eq_getElem (hwf.inputs call hcall i harg)
    have hsolve := @solve_isSome check function args cs
    rw [hne] at hsolve
    simp only [Option.some.injEq, forall_eq', ← hsolve]
    rw [hpkg, Choice.bind_eq _ _ _ _ _ rfl, Choice.bind_eq _ _ _ _ _ hcs]
    cases solve check function args cs with
    | none => exact iff_of_false (by simp [Choice.expect, Choice.panic, Bind.bind, Choice.bind]) (by simp)
    | some solution =>
      refine iff_of_true ?_ rfl
      rw [Choice.bind_eq _ _ _ _ _ rfl]
      cases (solution.getD []).find? (·.1 = idx) with
      | none => rfl
      | some v =>
        simp only [hin]
        rw [Choice.bind_eq _ _ _ _ _ rfl]
        rfl

theorem solveCall_isSome (hwf : WellFormed st ptb) (cmdIdx : ℕ) (call : MoveCall)
    (function : MoveFunctionAbi) (hcall : .call call ∈ ptb.commands)
    (hknown : st.getCalled call = some function) (c d e : ℕ) (rest : List ℕ) :
    (solveCall check st flash cmps solver ptb cmdIdx call (c :: d :: e :: rest)).isSome = true ↔
      (argIdxCandidates function call (flashCommandLimits flash).2 ≠ [] →
        ∀ args, solver.args[cmdIdx]? = some args → Constrained (cmps (targetFunction call)) →
          ∀ a ∈ args, (argBounds function a).isSome = true) := by
  unfold solveCall
  rw [hknown, Choice.bind_eq _ _ _ _ _ rfl]
  by_cases hnil : argIdxCandidates function call (flashCommandLimits flash).2 = []
  · simp only [hnil, List.isEmpty_nil, if_true, ne_eq, not_true_eq_false, false_implies, iff_true]
    rfl
  · have hempty : (argIdxCandidates function call (flashCommandLimits flash).2).isEmpty = false :=
      Bool.eq_false_iff.mpr fun h => hnil (List.isEmpty_iff.mp h)
    obtain ⟨idx, hidx, hpick⟩ := Choice.pick_cons _ hnil c (d :: e :: rest)
    obtain ⟨i, hi⟩ := argIdx_argument function call _ idx hidx
    simp only [hempty, Bool.false_eq_true, if_false]
    rw [Choice.bind_eq _ _ _ _ _ hpick, hi, Choice.bind_eq _ _ _ _ _ rfl,
      solveFor_isSome hwf cmdIdx call function hcall hknown idx i (List.mem_of_getElem? hi) d e rest]
    exact ⟨fun h _ => h, fun h => h hnil⟩

theorem generalCandidates_call (limit : ℕ) (cmds : List (MoveSequenceCall × ℕ)) (cs : List ℕ)
    (h : generalCandidates st limit cmds = some cs) (idx : ℕ) (hmem : idx ∈ cs) :
    ∃ call, (.call call, idx) ∈ cmds := by
  induction cmds generalizing cs with
  | nil =>
    cases h
    exact absurd hmem List.not_mem_nil
  | cons e rest ih =>
    obtain ⟨cmd, i⟩ := e
    cases cmd with
    | call call =>
      simp only [generalCandidates, Option.bind_eq_bind, Option.bind_eq_some_iff] at h
      obtain ⟨function, -, others, hothers, h⟩ := h
      have hcons : idx = i ∨ idx ∈ others := by
        cases h
        split_ifs at hmem
        · exact List.mem_cons.mp hmem
        · exact .inr hmem
      rcases hcons with rfl | hmem
      · exact ⟨call, List.mem_cons_self ..⟩
      · obtain ⟨c, hc⟩ := ih others hothers hmem
        exact ⟨c, List.mem_cons_of_mem _ hc⟩
    | _ =>
      obtain ⟨c, hc⟩ := ih cs h hmem
      exact ⟨c, List.mem_cons_of_mem _ hc⟩

theorem splitsBefore_call (commands : List MoveSequenceCall) (n idx : ℕ)
    (h : idx ∈ splitsBefore commands n) : ∃ call, commands[idx]? = some (.call call) := by
  induction n with
  | zero => exact absurd h List.not_mem_nil
  | succ n ih =>
    unfold splitsBefore at h
    split at h
    next prev hprev =>
      split_ifs at h
      · rcases List.mem_cons.mp h with rfl | h
        · exact ⟨prev, hprev⟩
        · exact ih h
      · exact absurd h List.not_mem_nil
    next => exact absurd h List.not_mem_nil

theorem candidates_call (cs : List ℕ) (h : candidateMoveCallIndices st flash ptb stageIdx = some cs)
    (cmdIdx : ℕ) (hmem : cmdIdx ∈ cs) : ∃ call, ptb.commands[cmdIdx]? = some (.call call) := by
  unfold candidateMoveCallIndices at h
  cases stageIdx with
  | none =>
    obtain ⟨call, hc⟩ := generalCandidates_call _ _ cs h cmdIdx hmem
    exact ⟨call, List.mem_zipIdx_iff_getElem?.mp (List.mem_of_mem_drop hc)⟩
  | some stageIdx =>
    simp only [stageCandidateIndices] at h
    split at h
    next call hcall =>
      simp only [Option.bind_eq_bind, Option.bind_eq_some_iff] at h
      obtain ⟨function, -, h⟩ := h
      cases h
      rcases List.mem_append.mp hmem with hmem | hmem
      · split_ifs at hmem
        · obtain rfl := List.mem_singleton.mp hmem
          exact ⟨call, hcall⟩
        · exact absurd hmem List.not_mem_nil
      · exact splitsBefore_call _ _ _ hmem
    next =>
      cases h
      exact absurd hmem List.not_mem_nil

theorem solveArg_run (cs : List ℕ) (hcs : candidateMoveCallIndices st flash ptb stageIdx = some cs)
    (cmdIdx : ℕ) (hmem : cmdIdx ∈ cs) (call : MoveCall)
    (hcall : ptb.commands[cmdIdx]? = some (.call call)) (d : ℕ) (rest : List ℕ)
    (hpick : Choice.pick cs (d :: rest) = some (cmdIdx, rest)) :
    solveArg check st flash cmps solver stageIdx ptb (d :: rest) =
      solveCall check st flash cmps solver ptb cmdIdx call rest := by
  have hcommands : ptb.commands.isEmpty = false := by
    cases hempty : ptb.commands with
    | nil =>
      rw [hempty] at hcall
      cases hcall
    | cons _ _ => rfl
  have hne : cs.isEmpty = false := by
    cases cs with
    | nil => exact absurd hmem List.not_mem_nil
    | cons _ _ => rfl
  unfold solveArg
  simp only [hcommands, Bool.false_eq_true, if_false, hcs]
  rw [Choice.bind_eq _ _ _ _ _ rfl]
  simp only [hne, Bool.false_eq_true, if_false]
  rw [Choice.bind_eq _ _ _ _ _ hpick, hcall]

theorem solveArg_skips (cs : List ℕ) (hcs : candidateMoveCallIndices st flash ptb stageIdx = some cs)
    (hempty : cs = []) (rs : List ℕ) :
    solveArg check st flash cmps solver stageIdx ptb rs = some (none, rs) := by
  subst hempty
  unfold solveArg
  split_ifs
  · rfl
  · rw [hcs, Choice.bind_eq _ _ _ _ _ rfl]
    rfl

theorem solveArg_safe (hwf : WellFormed st ptb) :
    Choice.Safe (solveArg check st flash cmps solver stageIdx ptb) ↔
      ∀ cmdIdx call function, Selectable st flash stageIdx ptb cmdIdx call function →
        ∀ args, solver.args[cmdIdx]? = some args → Constrained (cmps (targetFunction call)) →
          ∀ a ∈ args, (argBounds function a).isSome = true := by
  obtain ⟨cs, hcs⟩ : ∃ cs, candidateMoveCallIndices st flash ptb stageIdx = some cs :=
    candidates_some hwf
  constructor
  · rintro ⟨n, hsafe⟩ cmdIdx call function ⟨⟨cs', hcs', hmem⟩, hcommand, hcalled, harguments⟩
    obtain rfl : cs = cs' := Option.some.inj (hcs.symm.trans hcs')
    obtain ⟨d, hd⟩ := Choice.pick_of_mem cs cmdIdx hmem
    have hres := hsafe (d :: 0 :: 0 :: 0 :: List.replicate n 0) (by
      simp only [List.length_cons, List.length_replicate]
      omega)
    rw [solveArg_run cs hcs cmdIdx hmem call hcommand d _ (hd _),
      solveCall_isSome hwf cmdIdx call function (List.mem_of_getElem? hcommand) hcalled] at hres
    exact hres harguments
  · intro hfit
    refine ⟨4, fun rs hrs => ?_⟩
    match rs, hrs with
    | b :: c :: d :: e :: rest, _ =>
      by_cases hempty : cs = []
      · rw [solveArg_skips cs hcs hempty]
        rfl
      · obtain ⟨cmdIdx, hmem, hpick⟩ := Choice.pick_cons cs hempty b (c :: d :: e :: rest)
        obtain ⟨call, hcommand⟩ := candidates_call cs hcs cmdIdx hmem
        obtain ⟨function, hcalled⟩ := hwf.known call (List.mem_of_getElem? hcommand)
        rw [solveArg_run cs hcs cmdIdx hmem call hcommand b _ hpick,
          solveCall_isSome hwf cmdIdx call function (List.mem_of_getElem? hcommand) hcalled]
        exact hfit cmdIdx call function ∘ fun harguments =>
          ⟨⟨cs, hcs, hmem⟩, hcommand, hcalled, harguments⟩

end Safety

/-! ### Stale outcomes

The logs and the symbolic arguments are those of an earlier execution, whose
calls need not be the commands of the sequence. -/

/-- Each symbolic parameter of the frame is a Boolean or an integer of the function. -/
def Fits (frame : Tracer.Frame) (function : MoveFunctionAbi) : Prop :=
  ∀ i, frame.Symbolic i → ∃ param, function.parameters[i]? = some param ∧
    (maxValue param).isSome = true

/-- It does not panic, and the command is one of the sequence. -/
def NoCrash (check : List Tracer.ZBool → Option (Interp Tracer.ArgVar)) (st : FuzzState)
    (flash : Option FlashProvider) (outcome : ExecutionExtraOutcome) (stageIdx : Option ℕ)
    (ptb : MoveSequence) : Prop :=
  Choice.Safe (solveArg check st flash outcome.logs outcome.solver stageIdx ptb) ∧
    ∀ cs, candidateMoveCallIndices st flash ptb stageIdx = some cs →
      ∀ cmdIdx ∈ cs, cmdIdx < ptb.commands.length

section Stale

variable {σ φ : Type} {hooks : Tracer.Hooks σ φ}

theorem argBounds_isSome (function : MoveFunctionAbi) (arg : ℕ × Tracer.ZInt) :
    (argBounds function arg).isSome = true ↔
      ∃ param, function.parameters[arg.1]? = some param ∧ (maxValue param).isSome = true := by
  unfold argBounds
  cases function.parameters[arg.1]? with
  | none => simp
  | some param => simp

theorem fits_iff (k : ℕ) (frame : Tracer.Frame) (args : List (ℕ × Tracer.ZInt))
    (function : MoveFunctionAbi) (h : Tracer.ArgsOf k frame args) :
    Fits frame function ↔ ∀ a ∈ args, (argBounds function a).isSome = true := by
  constructor
  · intro hfits a ha
    exact (argBounds_isSome function a).mpr (hfits a.1 ((h a).mp ha).1)
  · intro hall i hi
    exact (argBounds_isSome function (i, .var (k, i))).mp (hall _ ((h (i, .var (k, i))).mpr ⟨hi, rfl⟩))

/-- After an earlier execution `solve_arg` cannot panic if and only if, for each command
that it can solve for and whose function has a logged constraint, the call of that
execution with the number of the command fits the function. -/
theorem noCrash_iff (check : List Tracer.ZBool → Option (Interp Tracer.ArgVar)) (st : FuzzState)
    (flash : Option FlashProvider) (o : σ) (evs : List Tracer.TraceEvent)
    (w : Tracer.MovySuiTracerWrapper σ φ)
    (hrun : run (Tracer.MovySuiTracerWrapper.notify hooks) (.new o) evs = some w)
    (outcomeStage : Option ℕ) (success : Bool) (stageIdx : Option ℕ) (ptb : MoveSequence)
    (hwf : WellFormed st ptb) :
    NoCrash check st flash ⟨w.tracer.logs, w.tracer.concolic, outcomeStage, success⟩ stageIdx ptb ↔
      ∀ cmdIdx call function, Selectable st flash stageIdx ptb cmdIdx call function →
        Constrained (w.tracer.logs (targetFunction call)) →
          ∀ frame, (Tracer.topCalls hooks (.new o) evs)[cmdIdx]? = some frame → Fits frame function := by
  obtain ⟨hlen, hargs⟩ := Tracer.traced_args o evs w hrun
  have hrange : ∀ cs, candidateMoveCallIndices st flash ptb stageIdx = some cs →
      ∀ cmdIdx ∈ cs, cmdIdx < ptb.commands.length := by
    intro cs hcs cmdIdx hmem
    obtain ⟨call, hcall⟩ := candidates_call cs hcs cmdIdx hmem
    exact (List.getElem?_eq_some_iff.mp hcall).1
  rw [NoCrash, and_iff_left hrange, solveArg_safe hwf]
  constructor
  · intro hfit cmdIdx call function hsel hcon frame hframe
    obtain ⟨hlt, -⟩ := List.getElem?_eq_some_iff.mp hframe
    have hget := List.getElem?_eq_getElem (hlen ▸ hlt)
    exact (fits_iff cmdIdx frame _ function (hargs cmdIdx frame _ hframe hget)).mpr
      (hfit cmdIdx call function hsel _ hget hcon)
  · intro hfits cmdIdx call function hsel args hget hcon
    obtain ⟨hlt, -⟩ := List.getElem?_eq_some_iff.mp hget
    have hframe := List.getElem?_eq_getElem (hlen ▸ hlt)
    exact (fits_iff cmdIdx _ args function (hargs cmdIdx _ args hframe hget)).mp
      (hfits cmdIdx call function hsel hcon _ hframe)

end Stale

section Sample

def pairModule : MoveModuleAbi :=
  ⟨⟨ObjectID.ofByte 2, "m"⟩, [⟨"pair", [.u64, .u64], [], [], .public_⟩,
    ⟨"one", [.u64], [], [], .public_⟩], []⟩

def pairCall (function : String) (arguments : List SequenceArgument) : MoveSequenceCall :=
  .call ⟨ObjectID.ofByte 2, "m", function, [], arguments⟩

def numberFrame (function : String) (n : ℕ) : Tracer.Frame where
  frameId := 0
  functionName := function
  moduleId := Tracer.sampleModule.selfId
  versionId := ObjectID.ofByte 2
  parameters := List.replicate n (.runtimeValue (.int .w64 3))
  returnTypes := []
  localsTypes := List.replicate n ⟨.u64, none⟩
  isNative := false

def pairTrace : List Tracer.TraceEvent :=
  [.external .moveCallStart, .openFrame (numberFrame "pair" 2), .closeFrame 0]

def oneTrace : List Tracer.TraceEvent :=
  [.external .moveCallStart, .openFrame (numberFrame "one" 1), .instruction 0 (.copyLoc 0),
    .effect (.push (.runtimeValue (.int .w64 3))), .instruction 1 (.ldU .w64 10),
    .effect (.push (.runtimeValue (.int .w64 10))), .instruction 2 .lt]

def tracerAfter (evs : List Tracer.TraceEvent) : Tracer.MovySuiTracerWrapper Unit Unit :=
  (run (Tracer.MovySuiTracerWrapper.notify Tracer.sampleHooks) (.new ()) evs).getD (.new ())

def oneSequence : MoveSequence := ⟨[.u64 3], [pairCall "one" [.input 0]]⟩

theorem oneSequence_call (call : MoveCall) (h : .call call ∈ oneSequence.commands) :
    call = ⟨ObjectID.ofByte 2, "m", "one", [], [.input 0]⟩ := by
  have hcall := List.mem_singleton.mp h
  cases hcall
  rfl

theorem oneSequence_wellFormed : WellFormed (FuzzState.ofModule pairModule) oneSequence where
  known call h := by
    rw [oneSequence_call call h]
    exact ⟨_, rfl⟩
  inputs call h i hi := by
    rw [oneSequence_call call h] at hi
    obtain rfl := SequenceArgument.input.inj (List.mem_singleton.mp hi)
    decide

/-- After an execution of itself the sequence cannot crash the mutator. -/
theorem noCrash_iff_one :
    NoCrash (fun _ => none) (FuzzState.ofModule pairModule) none
      ⟨(tracerAfter oneTrace).tracer.logs, (tracerAfter oneTrace).tracer.concolic, none, true⟩ none
      oneSequence := by
  have hrun : run (Tracer.MovySuiTracerWrapper.notify Tracer.sampleHooks) (.new ()) oneTrace =
      some (tracerAfter oneTrace) := rfl
  refine (noCrash_iff (fun _ => none) (FuzzState.ofModule pairModule) none () oneTrace
    (tracerAfter oneTrace) hrun none true none oneSequence oneSequence_wellFormed).mpr
    fun cmdIdx call function hsel _ frame hframe => ?_
  have htop : Tracer.topCalls Tracer.sampleHooks (.new ()) oneTrace = [numberFrame "one" 1] := rfl
  rw [htop] at hframe
  obtain rfl := List.mem_singleton.mp (List.mem_of_getElem? hframe)
  have hcalled := hsel.called
  rw [oneSequence_call call (List.mem_of_getElem? hsel.command)] at hcalled
  cases hcalled
  rintro i ⟨hlt, -⟩
  have hzero : i = 0 := Nat.lt_one_iff.mp hlt
  subst hzero
  exact ⟨.u64, rfl, rfl⟩

/-- After an execution of `pair` and `one`, whose first call has two arguments. -/
theorem noCrash_fails :
    ¬∀ (check : List Tracer.ZBool → Option (Interp Tracer.ArgVar)) (st : FuzzState)
      (evs : List Tracer.TraceEvent) (w : Tracer.MovySuiTracerWrapper Unit Unit)
      (outcomeStage : Option ℕ) (success : Bool) (stageIdx : Option ℕ) (ptb : MoveSequence),
      run (Tracer.MovySuiTracerWrapper.notify Tracer.sampleHooks) (.new ()) evs = some w →
      WellFormed st ptb →
      NoCrash check st none ⟨w.tracer.logs, w.tracer.concolic, outcomeStage, success⟩ stageIdx ptb := by
  intro hall
  obtain ⟨hsafe, -⟩ := hall (fun _ => none) (FuzzState.ofModule pairModule) (pairTrace ++ oneTrace)
    (tracerAfter (pairTrace ++ oneTrace)) none true none oneSequence rfl oneSequence_wellFormed
  have hbounds := (solveArg_safe oneSequence_wellFormed).mp hsafe 0
    ⟨ObjectID.ofByte 2, "m", "one", [], [.input 0]⟩ ⟨"one", [.u64], [], [], .public_⟩
    ⟨⟨[0], rfl, List.mem_singleton.mpr rfl⟩, rfl, rfl, List.cons_ne_nil _ _⟩
    [(0, .var (0, 0)), (1, .var (0, 1))] rfl (List.cons_ne_nil _ _) (1, .var (0, 1))
    (List.mem_cons_of_mem _ (List.mem_singleton.mpr rfl))
  cases hbounds

end Sample

end ArgMutator

end Movy.Fuzz
