import Movy.Fuzz.SolveArg

/-!
# What a solution is good for (`movy-fuzz/src/mutators/arg.rs`, `movy-fuzz/src/solver.rs`)

`solve_arg` writes one argument of the solver's model to the sequence. Whether
the inputs are then those of the model depends on the other arguments, which
keep their values, and on the number of the command, by which the symbolic
arguments are found.
-/

namespace Movy.Fuzz

open Movy.Types Movy.Store

namespace ArgMutator

/-! ### Values of inputs -/

def numberOf : InputArgument → Option ℕ
  | .bool b => some b.toNat
  | .u8 n => some n.val
  | .u16 n => some n.val
  | .u32 n => some n.val
  | .u64 n => some n.val
  | .u128 n => some n.val
  | .u256 n => some n.val
  | _ => none

theorem valueFromAssignment_of_le (param : MoveAbiSignatureToken) (max n : ℕ)
    (hmax : maxValue param = some max) (hle : n ≤ max) :
    ∃ v, valueFromAssignment param n = some v ∧ numberOf v = some n := by
  cases param with
  | bool =>
    cases hmax
    rcases Nat.le_one_iff_eq_zero_or_eq_one.mp hle with rfl | rfl
    · exact ⟨.bool false, rfl, rfl⟩
    · exact ⟨.bool true, rfl, rfl⟩
  | u8 | u16 | u32 | u64 | u128 | u256 =>
    cases hmax
    simp only [valueFromAssignment]
    rw [if_pos (by omega)]
    refine ⟨_, rfl, congrArg some ?_⟩
    exact Nat.mod_eq_of_lt (by omega)
  | _ => cases hmax

/-- The commands of a sequence run in order; `blocks` has the frames that each command opened
at the top, up to the command at which the execution stopped. A call opens one frame. -/
structure Executed (frames : List Tracer.Frame) (ptb : MoveSequence)
    (blocks : List (List Tracer.Frame)) : Prop where
  frames_eq : blocks.flatten = frames
  called : ∀ (k : ℕ) call block, ptb.commands[k]? = some (.call call) → blocks[k]? = some block →
    ∃ frame, block = [frame]

def callNumber (blocks : List (List Tracer.Frame)) (k : ℕ) : ℕ := (blocks.take k).flatten.length

/-- The symbolic arguments of the command have the values of the inputs that they read. -/
def Reads (blocks : List (List Tracer.Frame)) (ptb : MoveSequence) (k : ℕ)
    (I : Interp Tracer.ArgVar) : Prop :=
  ∀ frame call (i : ℕ) j, blocks[k]? = some [frame] → frame.Symbolic i →
    ptb.commands[k]? = some (.call call) → call.arguments[i]? = some (.input j) →
    ∃ v n, ptb.inputs[j.val]? = some v ∧ numberOf v = some n ∧ I.var (callNumber blocks k, i) = n

/-- The arguments at the number of the command were made for its own frame. -/
def UsesOwn (blocks : List (List Tracer.Frame)) (solver : Tracer.ConcolicState) (k : ℕ) : Prop :=
  ∃ frame args, blocks[k]? = some [frame] ∧ solver.args[k]? = some args ∧
    Tracer.ArgsOf (callNumber blocks k) frame args

def Sound (check : List Tracer.ZBool → Option (Interp Tracer.ArgVar)) : Prop :=
  ∀ cs I, check cs = some I → ∀ c ∈ cs, c.eval I = true

/-- The solver's answer to the constraints, and to the bounds of the arguments. -/
def Answered (check : List Tracer.ZBool → Option (Interp Tracer.ArgVar)) (st : FuzzState)
    (solver : Tracer.ConcolicState) (solved : Solved) (model : Interp Tracer.ArgVar) : Prop :=
  ∃ call function args bounds, solved.ptb.commands[solved.cmdIdx]? = some (.call call) ∧
    st.getCalled call = some function ∧ solver.args[solved.cmdIdx]? = some args ∧
    args.mapM (argBounds function) = some bounds ∧
    check (solved.constraints ++ bounds.flatten) = some model

/-- Whenever `solve_arg` mutates the sequence, it used the arguments of the command that it
chose, and the inputs of the command are those of the solver's model, which satisfies the
constraints. -/
def Effective (check : List Tracer.ZBool → Option (Interp Tracer.ArgVar)) (st : FuzzState)
    (flash : Option FlashProvider) (outcome : ExecutionExtraOutcome) (stageIdx : Option ℕ)
    (ptb : MoveSequence) (blocks : List (List Tracer.Frame)) : Prop :=
  ∀ solved, Choice.Yields (solveArg check st flash outcome.logs outcome.solver stageIdx ptb)
      (some solved) →
    UsesOwn blocks outcome.solver solved.cmdIdx ∧
      ∃ model, Answered check st outcome.solver solved model ∧
        (∀ c ∈ solved.constraints, c.eval model = true) ∧
        Reads blocks solved.ptb solved.cmdIdx model

/-! ### What the solver can answer -/

/-- The constraints with no comparison flipped, or with one. -/
inductive Handed (logs : List Tracer.Log) : List Tracer.ZBool → Prop where
  | kept : Handed logs (cmpConstraints logs ++ otherConstraints logs)
  | flipped (i : ℕ) (h : i < (cmpConstraints logs).length) :
      Handed logs ((cmpConstraints logs).modify i .not ++ otherConstraints logs)

/-- The symbolic arguments of the frame with number `k` are values of their parameters. -/
def InRange (k : ℕ) (frame : Tracer.Frame) (function : MoveFunctionAbi)
    (I : Interp Tracer.ArgVar) : Prop :=
  ∀ i, frame.Symbolic i → ∃ param max, function.parameters[i]? = some param ∧
    maxValue param = some max ∧ 0 ≤ I.var (k, i) ∧ I.var (k, i) ≤ max

/-- A solution of the constraints that `solve_arg` can hand to the solver, for an argument
that it can choose. -/
structure Answer (st : FuzzState) (flash : Option FlashProvider) (stageIdx : Option ℕ)
    (ptb : MoveSequence) (logs : Tracer.FunctionIdent → List Tracer.Log)
    (frames : List Tracer.Frame) where
  cmdIdx : ℕ
  call : MoveCall
  function : MoveFunctionAbi
  idx : ℕ
  input : U16
  frame : Tracer.Frame
  constraints : List Tracer.ZBool
  model : Interp Tracer.ArgVar
  selectable : Selectable st flash stageIdx ptb cmdIdx call function
  candidate : idx ∈ argIdxCandidates function call (flashCommandLimits flash).2
  argument : call.arguments[idx]? = some (.input input)
  opened : frames[cmdIdx]? = some frame
  symbolic : frame.Symbolic idx
  handed : Handed (logs (targetFunction call)) constraints
  nonempty : constraints ≠ []
  satisfied : ∀ c ∈ constraints, c.eval model = true
  inRange : InRange cmdIdx frame function model

/-- Each command before opened one frame, and the solution leaves the other arguments of the
command at the values of their inputs. -/
structure Answer.Pinned {st : FuzzState} {flash : Option FlashProvider} {stageIdx : Option ℕ}
    {ptb : MoveSequence} {logs : Tracer.FunctionIdent → List Tracer.Log}
    {frames : List Tracer.Frame} (a : Answer st flash stageIdx ptb logs frames)
    (blocks : List (List Tracer.Frame)) : Prop where
  aligned : callNumber blocks a.cmdIdx = a.cmdIdx
  shared : ∀ i, a.frame.Symbolic i → a.call.arguments[i]? = some (.input a.input) →
    a.model.var (a.cmdIdx, i) = a.model.var (a.cmdIdx, a.idx)
  kept : ∀ (i : ℕ) j, a.frame.Symbolic i → a.call.arguments[i]? = some (.input j) → j ≠ a.input →
    ∃ v n, ptb.inputs[j.val]? = some v ∧ numberOf v = some n ∧ a.model.var (a.cmdIdx, i) = n

section Effective

variable {σ φ : Type} {hooks : Tracer.Hooks σ φ} {st : FuzzState} {flash : Option FlashProvider}
  {stageIdx : Option ℕ} {ptb : MoveSequence}
  {check : List Tracer.ZBool → Option (Interp Tracer.ArgVar)}
  {logs : Tracer.FunctionIdent → List Tracer.Log} {solver : Tracer.ConcolicState}

theorem yields_flipOne (cs cs' : List Tracer.ZBool) (h : Choice.Yields (flipOne cs) cs') :
    cs' = cs ∨ ∃ i, i < cs.length ∧ cs' = cs.modify i .not := by
  unfold flipOne at h
  split_ifs at h with hempty
  · exact .inl ((Choice.yields_pure cs cs').mp h)
  · obtain ⟨c, -, h⟩ := Choice.yields_bind _ _ _ h
    split_ifs at h
    · obtain ⟨i, hi, h⟩ := Choice.yields_bind _ _ _ h
      have hlen : cs.length ≠ 0 := by
        intro hzero
        exact hempty (List.isEmpty_iff.mpr (List.length_eq_zero_iff.mp hzero))
      exact .inr ⟨i, Choice.yields_belowOrZero _ i hlen hi, (Choice.yields_pure _ cs').mp h⟩
    · exact .inl ((Choice.yields_pure cs cs').mp h)

theorem yields_handed (ls : List Tracer.Log) (cs : List Tracer.ZBool)
    (h : Choice.Yields (handed ls) cs) : Handed ls cs := by
  obtain ⟨cmps, hcmps, h⟩ := Choice.yields_bind _ _ _ h
  obtain rfl := (Choice.yields_pure _ cs).mp h
  rcases yields_flipOne _ cmps hcmps with rfl | ⟨i, hi, rfl⟩
  · exact .kept
  · exact .flipped i hi

theorem handed_draws (ls : List Tracer.Log) (cs : List Tracer.ZBool) (h : Handed ls cs) :
    Choice.Yields (handed ls) cs := by
  have hflip : ∀ cmps rs, flipOne (cmpConstraints ls) rs = some (cmps, []) →
      Choice.Yields (handed ls) (cmps ++ otherConstraints ls) := by
    intro cmps rs hrs
    refine ⟨rs, [], ?_⟩
    unfold handed
    rw [Choice.bind_eq _ _ _ _ _ hrs]
    rfl
  cases h with
  | kept =>
    cases hcmps : cmpConstraints ls with
    | nil => exact hcmps ▸ hflip _ [] (by rw [hcmps]; rfl)
    | cons c cs => exact hcmps ▸ hflip _ [1] (by rw [hcmps]; rfl)
  | flipped i hi =>
    refine hflip _ [0, i] ?_
    have hne : cmpConstraints ls ≠ [] := by
      intro hnil
      rw [hnil] at hi
      exact absurd hi (Nat.not_lt_zero i)
    have hlen : (cmpConstraints ls).length ≠ 0 := by omega
    have hdraw : Choice.belowOrZero 2 [0, i] = some (0, [i]) := rfl
    have hpick : Choice.belowOrZero (cmpConstraints ls).length [i] = some (i, []) := by
      simp only [Choice.belowOrZero, if_neg hlen, Nat.mod_eq_of_lt hi]
    unfold flipOne
    rw [if_neg (mt List.isEmpty_iff.mp hne), Choice.bind_eq _ _ _ _ _ hdraw]
    exact Choice.bind_eq _ _ _ _ _ hpick

theorem mapM_argBounds (function : MoveFunctionAbi) (I : Interp Tracer.ArgVar)
    (args : List (ℕ × Tracer.ZInt)) :
    (∃ bounds, args.mapM (argBounds function) = some bounds ∧
        ∀ c ∈ bounds.flatten, c.eval I = true) ↔
      ∀ a ∈ args, ∃ bs, argBounds function a = some bs ∧ ∀ c ∈ bs, c.eval I = true := by
  induction args with
  | nil => exact iff_of_true ⟨[], rfl, by simp⟩ (by simp)
  | cons a rest ih =>
    rw [List.forall_mem_cons, ← ih]
    simp only [List.mapM_cons, Option.bind_eq_bind, Option.bind_eq_some_iff]
    constructor
    · intro hcase
      obtain ⟨bounds, ⟨bs, hbs, others, hothers, h⟩, hall⟩ := hcase
      cases h
      rw [List.flatten_cons] at hall
      exact ⟨⟨bs, hbs, fun c hc => hall c (List.mem_append_left _ hc)⟩,
        others, hothers, fun c hc => hall c (List.mem_append_right _ hc)⟩
    · intro hcase
      obtain ⟨⟨bs, hbs, hfirst⟩, others, hothers, hrest⟩ := hcase
      refine ⟨bs :: others, ⟨bs, hbs, others, hothers, rfl⟩, fun c hc => ?_⟩
      rw [List.flatten_cons, List.mem_append] at hc
      exact hc.elim (hfirst c) (hrest c)

theorem argBounds_eval (function : MoveFunctionAbi) (I : Interp Tracer.ArgVar) (i : ℕ)
    (e : Tracer.ZInt) :
    (∃ bs, argBounds function (i, e) = some bs ∧ ∀ c ∈ bs, c.eval I = true) ↔
      ∃ param max, function.parameters[i]? = some param ∧ maxValue param = some max ∧
        0 ≤ e.eval I ∧ e.eval I ≤ max := by
  have heval : ∀ max : ℕ, (∀ c ∈ [BoolTerm.ge e (.const 0), .le e (.const max)],
      c.eval I = true) ↔ 0 ≤ e.eval I ∧ e.eval I ≤ max := by
    intro max
    simp only [List.forall_mem_cons, List.not_mem_nil, false_implies, implies_true, and_true]
    exact and_congr (decide_eq_true_iff) (decide_eq_true_iff)
  simp only [argBounds, Option.bind_eq_some_iff, Option.map_eq_some_iff]
  constructor
  · intro h
    obtain ⟨bs, ⟨param, hparam, max, hmax, rfl⟩, hall⟩ := h
    exact ⟨param, max, hparam, hmax, (heval max).mp hall⟩
  · intro h
    obtain ⟨param, max, hparam, hmax, hrange⟩ := h
    exact ⟨_, ⟨param, hparam, max, hmax, rfl⟩, (heval max).mpr hrange⟩

theorem bounds_iff (k : ℕ) (frame : Tracer.Frame) (args : List (ℕ × Tracer.ZInt))
    (function : MoveFunctionAbi) (hargs : Tracer.ArgsOf k frame args) (I : Interp Tracer.ArgVar) :
    (∃ bounds, args.mapM (argBounds function) = some bounds ∧ ∀ c ∈ bounds.flatten, c.eval I = true) ↔
      InRange k frame function I := by
  rw [mapM_argBounds]
  constructor
  · intro hall i hi
    exact (argBounds_eval function I i (.var (k, i))).mp
      (hall (i, .var (k, i)) ((hargs _).mpr ⟨hi, rfl⟩))
  · rintro hrange ⟨i, e⟩ ha
    obtain ⟨hi, he⟩ := (hargs _).mp ha
    have he : e = .var (k, i) := he
    subst he
    exact (argBounds_eval function I i _).mpr (hrange i hi)

theorem argValue_eq (k : ℕ) (frame : Tracer.Frame) (function : MoveFunctionAbi)
    (I : Interp Tracer.ArgVar) (hrange : InRange k frame function I) (i : ℕ) (hi : frame.Symbolic i) :
    ∃ v n, argValue function I (i, .var (k, i)) = some v ∧ numberOf v = some n ∧
      I.var (k, i) = n := by
  obtain ⟨param, max, hparam, hmax, hnonneg, hle⟩ := hrange i hi
  obtain ⟨n, hn⟩ := Int.eq_ofNat_of_zero_le hnonneg
  rw [hn, Nat.cast_le] at hle
  obtain ⟨v, hv, hnum⟩ := valueFromAssignment_of_le param max n hmax hle
  refine ⟨v, n, ?_, hnum, hn⟩
  have heval : IntTerm.eval I (.var (k, i)) = (n : ℤ) := hn
  have hneg : ¬(n : ℤ) < 0 := by omega
  simp only [argValue, heval, if_neg hneg, hparam, Option.bind_some, Int.toNat_natCast, hv]

theorem find_argValue (k : ℕ) (frame : Tracer.Frame) (args : List (ℕ × Tracer.ZInt))
    (function : MoveFunctionAbi) (hargs : Tracer.ArgsOf k frame args) (I : Interp Tracer.ArgVar)
    (hrange : InRange k frame function I) (idx : ℕ) (hsym : frame.Symbolic idx) :
    ∃ v n, (args.filterMap fun arg => (argValue function I arg).map fun v => (arg.1, v)).find?
        (·.1 = idx) = some (idx, v) ∧ numberOf v = some n ∧ I.var (k, idx) = n := by
  obtain ⟨v, n, hv, hnum, hn⟩ := argValue_eq k frame function I hrange idx hsym
  refine ⟨v, n, ?_, hnum, hn⟩
  have hmem : (idx, v) ∈ args.filterMap fun arg => (argValue function I arg).map fun v => (arg.1, v) :=
    List.mem_filterMap.mpr ⟨(idx, .var (k, idx)), (hargs _).mpr ⟨hsym, rfl⟩, by rw [hv]; rfl⟩
  cases hfind : (args.filterMap fun arg => (argValue function I arg).map fun v => (arg.1, v)).find?
      (·.1 = idx) with
  | none => exact absurd (decide_eq_true rfl) (List.find?_eq_none.mp hfind _ hmem)
  | some e =>
    -- the arguments are determined by their indices
    obtain ⟨i, u⟩ := e
    have hidx := List.find?_some hfind
    obtain rfl : i = idx := of_decide_eq_true hidx
    obtain ⟨⟨j, e⟩, harg, hvalue⟩ := List.mem_filterMap.mp (List.mem_of_find?_eq_some hfind)
    obtain ⟨u', hu', heq⟩ := Option.map_eq_some_iff.mp hvalue
    cases heq
    obtain ⟨-, he⟩ := (hargs _).mp harg
    have he : e = .var (k, j) := he
    rw [he, hv] at hu'
    rw [Option.some.inj hu']

/-! ### Runs of `solve_arg` -/

theorem own_frame (frames : List Tracer.Frame) (blocks : List (List Tracer.Frame))
    (hexec : Executed frames ptb blocks) (k : ℕ) (call : MoveCall)
    (hcall : ptb.commands[k]? = some (.call call)) (halign : callNumber blocks k = k)
    (frame : Tracer.Frame) (hframe : frames[k]? = some frame) : blocks[k]? = some [frame] := by
  have hsplit : frames = (blocks.take k).flatten ++ (blocks.drop k).flatten := by
    rw [← List.flatten_append, List.take_append_drop, hexec.frames_eq]
  have hlen : (blocks.take k).flatten.length = k := halign
  rw [hsplit, List.getElem?_append_right (by omega), hlen, Nat.sub_self] at hframe
  cases hb : blocks[k]? with
  | none =>
    rw [List.drop_eq_nil_of_le (List.getElem?_eq_none_iff.mp hb)] at hframe
    cases hframe
  | some block =>
    obtain ⟨own, rfl⟩ := hexec.called k call block hcall hb
    obtain ⟨hlt, hget⟩ := List.getElem?_eq_some_iff.mp hb
    rw [List.drop_eq_getElem_cons hlt, hget, List.flatten_cons] at hframe
    rw [Option.some.inj hframe]

theorem solveArg_chosen (solved : Solved)
    (h : Choice.Yields (solveArg check st flash logs solver stageIdx ptb) (some solved)) :
    ∃ k call function idx arg, Selectable st flash stageIdx ptb k call function ∧
      idx ∈ argIdxCandidates function call (flashCommandLimits flash).2 ∧
      call.arguments[idx]? = some arg ∧
      Choice.Yields (solveFor check st logs solver ptb k call function idx arg) (some solved) := by
  unfold solveArg at h
  split_ifs at h
  · cases (Choice.yields_pure _ _).mp h
  obtain ⟨cs, hcs, h⟩ := Choice.yields_bind _ _ _ h
  split_ifs at h
  · cases (Choice.yields_pure _ _).mp h
  obtain ⟨k, hk, h⟩ := Choice.yields_bind _ _ _ h
  have hcandidate := Choice.yields_pick cs k hk
  split at h
  next call hcall =>
    unfold solveCall at h
    obtain ⟨function, hf, h⟩ := Choice.yields_bind _ _ _ h
    dsimp only at h
    split_ifs at h with hempty
    · cases (Choice.yields_pure _ _).mp h
    obtain ⟨idx, hidx, h⟩ := Choice.yields_bind _ _ _ h
    obtain ⟨arg, harg, h⟩ := Choice.yields_bind _ _ _ h
    exact ⟨k, call, function, idx, arg,
      ⟨⟨cs, Choice.yields_expect _ _ hcs, hcandidate⟩, hcall, Choice.yields_expect _ _ hf,
        fun hnil => hempty (List.isEmpty_iff.mpr hnil)⟩,
      Choice.yields_pick _ idx hidx, Choice.yields_expect _ _ harg, h⟩
  next => cases (Choice.yields_pure _ _).mp h

theorem solve_answer (function : MoveFunctionAbi) (args : List (ℕ × Tracer.ZInt))
    (constraints : List Tracer.ZBool) (solution : List (ℕ × InputArgument))
    (h : solve check function args constraints = some (some solution)) :
    constraints ≠ [] ∧ ∃ bounds model, args.mapM (argBounds function) = some bounds ∧
      check (constraints ++ bounds.flatten) = some model ∧
      solution = args.filterMap fun arg => (argValue function model arg).map fun v => (arg.1, v) := by
  unfold solve at h
  split_ifs at h with hempty
  · cases h
  obtain ⟨bounds, hbounds, h⟩ := Option.map_eq_some_iff.mp h
  obtain ⟨model, hmodel, h⟩ := Option.map_eq_some_iff.mp h
  exact ⟨fun hnil => hempty (List.isEmpty_iff.mpr hnil), bounds, model, hbounds, hmodel, h.symm⟩

theorem solveFor_yields (k : ℕ) (call : MoveCall) (function : MoveFunctionAbi) (idx : ℕ)
    (arg : SequenceArgument) (solved : Solved)
    (h : Choice.Yields (solveFor check st logs solver ptb k call function idx arg) (some solved)) :
    ∃ args constraints solution j e, solver.args[k]? = some args ∧
      Handed (logs (targetFunction call)) constraints ∧
      solve check function args constraints = some (some solution) ∧
      solution.find? (·.1 = idx) = some e ∧ arg = .input j ∧
      solved = ⟨k, constraints, { ptb with inputs := ptb.inputs.set j.val e.2 }⟩ := by
  unfold solveFor at h
  cases hget : solver.args[k]? with
  | none =>
    rw [hget] at h
    cases (Choice.yields_pure _ _).mp h
  | some args =>
    rw [hget] at h
    obtain ⟨_, -, hconstraints⟩ := Choice.yields_bind _ _ _ h
    obtain ⟨constraints, hcs, hsolution⟩ := Choice.yields_bind _ _ _ hconstraints
    obtain ⟨solution, hsolve, hwrite⟩ := Choice.yields_bind _ _ _ hsolution
    cases hfind : (solution.getD []).find? (·.1 = idx) with
    | none =>
      rw [hfind] at hwrite
      cases (Choice.yields_pure _ _).mp hwrite
    | some e =>
      rw [hfind] at hwrite
      cases arg with
      | input j =>
        obtain ⟨_, -, hdone⟩ := Choice.yields_bind _ _ _ hwrite
        cases solution with
        | none => cases hfind
        | some solution =>
          exact ⟨args, constraints, solution, j, e, rfl, yields_handed _ _ hcs,
            Choice.yields_expect _ _ hsolve, hfind, rfl,
            Option.some.inj ((Choice.yields_pure _ _).mp hdone)⟩
      | _ => cases (Choice.yields_pure _ _).mp hwrite

theorem solveArg_yields (hsound : Sound check) (frames : List Tracer.Frame)
    (hlen : solver.args.length = frames.length)
    (hargs : ∀ (k : ℕ) frame args, frames[k]? = some frame → solver.args[k]? = some args →
      Tracer.ArgsOf k frame args) (solved : Solved)
    (h : Choice.Yields (solveArg check st flash logs solver stageIdx ptb) (some solved)) :
    ∃ (a : Answer st flash stageIdx ptb logs frames) (v : InputArgument) (n : ℕ),
      solved = ⟨a.cmdIdx, a.constraints, { ptb with inputs := ptb.inputs.set a.input.val v }⟩ ∧
        numberOf v = some n ∧ a.model.var (a.cmdIdx, a.idx) = n ∧
        Answered check st solver solved a.model := by
  obtain ⟨k, call, function, idx, arg, hsel, hidx, harg, hfor⟩ := solveArg_chosen solved h
  obtain ⟨args, constraints, solution, j, e, hget, hhanded, hsolve, hfind, rfl, rfl⟩ :=
    solveFor_yields k call function idx arg solved hfor
  obtain ⟨hlt, -⟩ := List.getElem?_eq_some_iff.mp hget
  obtain ⟨frame, hframe⟩ : ∃ frame, frames[k]? = some frame :=
    ⟨_, List.getElem?_eq_getElem (hlen ▸ hlt)⟩
  have hof := hargs k frame args hframe hget
  obtain ⟨hne, bounds, model, hbounds, hmodel, rfl⟩ :=
    solve_answer function args constraints solution hsolve
  have hall := hsound _ model hmodel
  have hrange := (bounds_iff k frame args function hof model).mp
    ⟨bounds, hbounds, fun c hc => hall c (List.mem_append_right _ hc)⟩
  -- the argument is one of the symbolic arguments
  have hsym : frame.Symbolic idx := by
    obtain ⟨⟨i, t⟩, hi, hvalue⟩ := List.mem_filterMap.mp (List.mem_of_find?_eq_some hfind)
    obtain ⟨u, -, rfl⟩ := Option.map_eq_some_iff.mp hvalue
    have hsome := List.find?_some hfind
    obtain rfl : i = idx := of_decide_eq_true hsome
    exact ((hof _).mp hi).1
  obtain ⟨v, n, hv, hnum, hn⟩ := find_argValue k frame args function hof model hrange idx hsym
  obtain rfl := Option.some.inj (hfind.symm.trans hv)
  exact ⟨⟨k, call, function, idx, j, frame, constraints, model, hsel, hidx, harg, hframe, hsym,
    hhanded, hne, fun c hc => hall c (List.mem_append_left _ hc), hrange⟩, v, n, rfl, hnum, hn,
    call, function, args, bounds, hsel.command, hsel.called, hget, hbounds, hmodel⟩

def knows (model : Interp Tracer.ArgVar) (cs : List Tracer.ZBool) : Option (Interp Tracer.ArgVar) :=
  if ∀ c ∈ cs, c.eval model = true then some model else none

theorem knows_eq_some (model I : Interp Tracer.ArgVar) (cs : List Tracer.ZBool)
    (h : knows model cs = some I) : I = model ∧ ∀ c ∈ cs, c.eval model = true := by
  unfold knows at h
  split_ifs at h with hall
  exact ⟨(Option.some.inj h).symm, hall⟩

theorem knows_sound (model : Interp Tracer.ArgVar) : Sound (knows model) := by
  intro cs I h
  obtain ⟨rfl, hall⟩ := knows_eq_some model I cs h
  exact hall

theorem answer_yields (hwf : WellFormed st ptb) (frames : List Tracer.Frame)
    (hlen : solver.args.length = frames.length)
    (hargs : ∀ (k : ℕ) frame args, frames[k]? = some frame → solver.args[k]? = some args →
      Tracer.ArgsOf k frame args) (a : Answer st flash stageIdx ptb logs frames) :
    ∃ v n, numberOf v = some n ∧ a.model.var (a.cmdIdx, a.idx) = n ∧
      Choice.Yields (solveArg (knows a.model) st flash logs solver stageIdx ptb)
        (some ⟨a.cmdIdx, a.constraints, { ptb with inputs := ptb.inputs.set a.input.val v }⟩) := by
  obtain ⟨cs, hcs, hmem⟩ := a.selectable.candidate
  obtain ⟨hlt, -⟩ := List.getElem?_eq_some_iff.mp a.opened
  obtain ⟨args, hget⟩ : ∃ args, solver.args[a.cmdIdx]? = some args :=
    ⟨_, List.getElem?_eq_getElem (hlen ▸ hlt)⟩
  have hof := hargs a.cmdIdx a.frame args a.opened hget
  obtain ⟨bounds, hbounds, hbound⟩ := (bounds_iff a.cmdIdx a.frame args a.function hof a.model).mpr
    a.inRange
  obtain ⟨v, n, hfind, hnum, hn⟩ :=
    find_argValue a.cmdIdx a.frame args a.function hof a.model a.inRange a.idx a.symbolic
  refine ⟨v, n, hnum, hn, ?_⟩
  have hsolve : solve (knows a.model) a.function args a.constraints =
      some (some (args.filterMap fun arg =>
        (argValue a.function a.model arg).map fun v => (arg.1, v))) := by
    have hall : ∀ c ∈ a.constraints ++ bounds.flatten, c.eval a.model = true := by
      intro c hc
      exact (List.mem_append.mp hc).elim (a.satisfied c) (hbound c)
    simp only [solve, List.isEmpty_iff, if_neg a.nonempty, hbounds, Option.map_some, knows,
      if_pos hall]
  have hin : a.input.val < ptb.inputs.length :=
    hwf.inputs a.call (List.mem_of_getElem? a.selectable.command) a.input
      (List.mem_of_getElem? a.argument)
  obtain ⟨pkg, hpkg⟩ := getPackageMetadata_of_called a.call a.function a.selectable.called
  -- the draws: the command, the argument, the comparison
  obtain ⟨d, hd⟩ := Choice.pick_of_mem cs a.cmdIdx hmem
  obtain ⟨e, he⟩ := Choice.pick_of_mem _ a.idx a.candidate
  obtain ⟨rs, rest, hrs⟩ := handed_draws _ _ a.handed
  have hempty : (argIdxCandidates a.function a.call (flashCommandLimits flash).2).isEmpty = false :=
    Bool.eq_false_iff.mpr fun h => a.selectable.arguments (List.isEmpty_iff.mp h)
  refine ⟨d :: e :: rs, rest, ?_⟩
  rw [solveArg_run cs hcs a.cmdIdx hmem a.call a.selectable.command d _ (hd _)]
  unfold solveCall
  rw [a.selectable.called, Choice.bind_eq _ _ _ _ _ rfl]
  simp only [hempty, Bool.false_eq_true, if_false]
  rw [Choice.bind_eq _ _ _ _ _ (he rs), a.argument, Choice.bind_eq _ _ _ _ _ rfl]
  unfold solveFor
  rw [hget]
  simp only
  rw [hpkg, Choice.bind_eq _ _ _ _ _ rfl, Choice.bind_eq _ _ _ _ _ hrs, hsolve,
    Choice.bind_eq _ _ _ _ _ rfl]
  simp only [Option.getD_some, hfind, List.getElem?_eq_getElem hin]
  rw [Choice.bind_eq _ _ _ _ _ rfl]
  rfl

theorem reads_iff (blocks : List (List Tracer.Frame)) (hwf : WellFormed st ptb)
    (frames : List Tracer.Frame) (hexec : Executed frames ptb blocks)
    (a : Answer st flash stageIdx ptb logs frames)
    (halign : callNumber blocks a.cmdIdx = a.cmdIdx) (v : InputArgument) (n : ℕ)
    (hv : numberOf v = some n) (hn : a.model.var (a.cmdIdx, a.idx) = n) :
    Reads blocks { ptb with inputs := ptb.inputs.set a.input.val v } a.cmdIdx a.model ↔
      a.Pinned blocks := by
  have hown := own_frame frames blocks hexec a.cmdIdx a.call a.selectable.command halign a.frame
    a.opened
  have hin : a.input.val < ptb.inputs.length :=
    hwf.inputs a.call (List.mem_of_getElem? a.selectable.command) a.input
      (List.mem_of_getElem? a.argument)
  have hwritten : (ptb.inputs.set a.input.val v)[a.input.val]? = some v := List.getElem?_set_self hin
  have hother : ∀ j : U16, j ≠ a.input →
      (ptb.inputs.set a.input.val v)[j.val]? = ptb.inputs[j.val]? := by
    intro j hj
    exact List.getElem?_set_ne fun hval => hj (Fin.ext hval.symm)
  unfold Reads
  rw [halign]
  constructor
  · intro hreads
    refine ⟨halign, fun i hsym hi => ?_, fun i j hsym hi hj => ?_⟩
    · obtain ⟨u, m, hu, hm, hvar⟩ :=
        hreads a.frame a.call i a.input hown hsym a.selectable.command hi
      obtain rfl := Option.some.inj (hwritten.symm.trans hu)
      rw [hvar, hn, Option.some.inj (hm.symm.trans hv)]
    · obtain ⟨u, m, hu, hm, hvar⟩ := hreads a.frame a.call i j hown hsym a.selectable.command hi
      have hu : (ptb.inputs.set a.input.val v)[j.val]? = some u := hu
      rw [hother j hj] at hu
      exact ⟨u, m, hu, hm, hvar⟩
  · intro hpinned frame call i j hframe hsym hcall hi
    obtain rfl := (List.cons.inj (Option.some.inj (hown.symm.trans hframe))).1
    obtain rfl := MoveSequenceCall.call.inj (Option.some.inj (a.selectable.command.symm.trans hcall))
    by_cases hj : j = a.input
    · subst hj
      exact ⟨v, n, hwritten, hv, (hpinned.shared i hsym hi).trans hn⟩
    · obtain ⟨u, m, hu, hm, hvar⟩ := hpinned.kept i j hsym hi hj
      exact ⟨u, m, (hother j hj).trans hu, hm, hvar⟩

end Effective

section Sample

def zeros : Interp Tracer.ArgVar := ⟨fun _ => 0, fun _ => 0, fun _ => 0, fun _ => 0⟩

def lessTrace : List Tracer.TraceEvent :=
  [.external .moveCallStart, .openFrame (numberFrame "pair" 2), .instruction 0 (.copyLoc 0),
    .effect (.push (.runtimeValue (.int .w64 3))), .instruction 1 (.copyLoc 1),
    .effect (.push (.runtimeValue (.int .w64 3))), .instruction 2 .lt]

def pairSequence : MoveSequence := ⟨[.u64 3, .u64 3], [pairCall "pair" [.input 0, .input 1]]⟩

theorem pairSequence_call (call : MoveCall) (h : .call call ∈ pairSequence.commands) :
    call = ⟨ObjectID.ofByte 2, "m", "pair", [], [.input 0, .input 1]⟩ := by
  have hcall := List.mem_singleton.mp h
  cases hcall
  rfl

theorem pairSequence_wellFormed : WellFormed (FuzzState.ofModule pairModule) pairSequence where
  known call h := by
    rw [pairSequence_call call h]
    exact ⟨_, rfl⟩
  inputs call h i hi := by
    rw [pairSequence_call call h] at hi
    simp only [List.mem_cons, SequenceArgument.input.injEq, List.not_mem_nil, or_false] at hi
    rcases hi with rfl | rfl <;> decide

end Sample

end ArgMutator

end Movy.Fuzz
