import Movy.Tracer.Calls
import Movy.Tracer.Traced

/-!
# The arguments of the top-level calls (`movy-replay/src/tracer/concolic.rs`)

The engine makes symbolic arguments for a frame that opens while no other is
open, and numbers these frames from zero. Nothing else touches the arguments.
-/

namespace Movy.Tracer

open ConcolicState MovySuiTracerWrapper

/-! ### Instructions keep the arguments -/

section Shadow

variable {c c' : ConcolicState} {stack : List TraceValue} {k : Option ZBool}

theorem pop2_args (l r : SymbolValue) (h : c.pop2 = some (l, r, c')) : c'.args = c.args := by
  unfold pop2 at h
  split at h <;> cases h
  rfl

theorem processBinaryOp_args (o : Option (ZInt × ZInt))
    (h : c.processBinaryOp stack = some (c', o)) : c'.args = c.args := by
  simp only [processBinaryOp, Option.bind_eq_bind, Option.bind_eq_some_iff] at h
  obtain ⟨⟨l, r, d⟩, hpop, _, _, _, _, h⟩ := h
  cases h
  exact pop2_args l r hpop

theorem castInstruction_args (bits : ℕ) (h : c.castInstruction bits = some (c', k)) :
    c'.args = c.args := by
  unfold castInstruction at h
  split at h
  · obtain ⟨_, _, h⟩ := Option.map_eq_some_iff.mp h
    cases h
    rfl
  · cases h
    rfl

theorem arithInstruction_args (op : ZInt → ZInt → ZInt)
    (h : c.arithInstruction stack op = some (c', k)) : c'.args = c.args := by
  simp only [arithInstruction, Option.bind_eq_bind, Option.bind_eq_some_iff] at h
  obtain ⟨⟨d, o⟩, hd, h⟩ := h
  have hargs := processBinaryOp_args o hd
  cases o <;> cases h <;> exact hargs

theorem bitInstruction_args (op : ZInt → ℕ → ℕ → ZInt)
    (h : c.bitInstruction stack op = some (c', k)) : c'.args = c.args := by
  simp only [bitInstruction, Option.bind_eq_bind, Option.bind_eq_some_iff] at h
  obtain ⟨⟨l, r, d⟩, hpop, _, _, _, _, _, _, _, _, h⟩ := h
  have hargs := pop2_args l r hpop
  cases l <;> cases r <;> cases h <;> exact hargs

theorem shlInstruction_args (h : c.shlInstruction stack = some (c', k)) : c'.args = c.args := by
  simp only [shlInstruction, Option.bind_eq_bind, Option.bind_eq_some_iff] at h
  obtain ⟨⟨l, r, d⟩, hpop, _, _, _, _, _, _, _, _, h⟩ := h
  have hargs := pop2_args l r hpop
  cases l <;> cases r <;> cases h <;> exact hargs

theorem shrInstruction_args (h : c.shrInstruction stack = some (c', k)) : c'.args = c.args := by
  simp only [shrInstruction, Option.bind_eq_bind, Option.bind_eq_some_iff] at h
  obtain ⟨⟨l, r, d⟩, hpop, _, _, _, _, h⟩ := h
  have hargs := pop2_args l r hpop
  cases l <;> cases r <;> cases h <;> exact hargs

theorem notInstruction_args (h : c.notInstruction stack = some (c', k)) : c'.args = c.args := by
  unfold notInstruction at h
  split at h
  · cases h
    rfl
  · cases h
    rfl
  · simp only [Option.bind_eq_bind, Option.bind_eq_some_iff] at h
    obtain ⟨_, _, _, _, h⟩ := h
    cases h
    rfl

theorem loadLocal_args (idx : ℕ) : (c.loadLocal idx).args = c.args := by
  unfold loadLocal
  split <;> rfl

theorem moveLocal_args (idx : ℕ) : (c.moveLocal idx).args = c.args := by
  unfold moveLocal
  split <;> rfl

theorem storeLocal_args (idx : ℕ) : (c.storeLocal idx).args = c.args := by
  unfold storeLocal
  split <;> rfl

theorem cmpInstruction_args (passes : Ordering → Bool) (test : ZInt → ZInt → ZBool)
    (h : c.cmpInstruction stack passes test = some (c', k)) : c'.args = c.args := by
  simp only [cmpInstruction, Option.bind_eq_bind, Option.bind_eq_some_iff] at h
  obtain ⟨⟨d, o⟩, hd, h⟩ := h
  have hargs := processBinaryOp_args o hd
  cases o with
  | none =>
    cases h
    exact hargs
  | some lr =>
    simp only [Option.bind_eq_some_iff] at h
    obtain ⟨_, _, _, _, h⟩ := h
    cases h
    exact hargs

theorem neqInstruction_args (h : c.neqInstruction stack = some (c', k)) : c'.args = c.args := by
  simp only [neqInstruction, Option.bind_eq_bind, Option.bind_eq_some_iff] at h
  obtain ⟨⟨d, o⟩, hd, h⟩ := h
  have hargs := processBinaryOp_args o hd
  cases o with
  | none =>
    cases h
    exact hargs
  | some lr =>
    simp only [Option.bind_eq_some_iff] at h
    obtain ⟨_, _, _, _, h⟩ := h
    split at h <;> cases h <;> exact hargs

theorem shadowInstruction_args (ins : Bytecode) (extra : Option InstructionExtraInformation)
    (h : c.shadowInstruction ins stack extra = some (c', k)) : c'.args = c.args := by
  unfold shadowInstruction at h
  split at h
  all_goals first
    | exact castInstruction_args _ h
    | exact arithInstruction_args _ h
    | exact bitInstruction_args _ h
    | exact shlInstruction_args h
    | exact shrInstruction_args h
    | exact notInstruction_args h
    | exact cmpInstruction_args _ _ h
    | exact neqInstruction_args h
    | (cases h; exact loadLocal_args _)
    | (cases h; exact moveLocal_args _)
    | (cases h; exact storeLocal_args _)
    | (cases h; rfl)
    | (split at h <;> cases h <;> rfl)

theorem onBeforeInstructionInner_args (ins : Bytecode) (state : TraceState)
    (extra : Option InstructionExtraInformation)
    (h : c.onBeforeInstructionInner ins state extra = some (c', k)) : c'.args = c.args := by
  unfold onBeforeInstructionInner at h
  split_ifs at h
  · cases h
    rfl
  · exact shadowInstruction_args ins extra h

end Shadow

/-! ### Frames -/

/-- The parameter is symbolic: a Boolean or an integer by value. -/
def Frame.Symbolic (frame : Frame) (i : ℕ) : Prop :=
  i < frame.parameters.length ∧ ∃ ty, frame.localsTypes[i]? = some ty ∧ ty.refType = none ∧
    (primBits ty.type).isSome = true

/-- The arguments made for the call with the number `n`. -/
def ArgsOf (n : ℕ) (frame : Frame) (args : List (ℕ × ZInt)) : Prop :=
  ∀ p, p ∈ args ↔ frame.Symbolic p.1 ∧ p.2 = .var (n, p.1)

theorem resolveArg_iff (n i : ℕ) (ty : TypeTagWithRefs) (e : ZInt) :
    resolveArg n i ty = .value e ↔
      ty.refType = none ∧ (primBits ty.type).isSome = true ∧ e = .var (n, i) := by
  constructor
  · intro h
    obtain ⟨href, he, bits, hbits⟩ := resolveArg_value n i ty e h
    exact ⟨href, by rw [hbits, Option.isSome_some], he⟩
  · intro hall
    obtain ⟨href, hbits, rfl⟩ := hall
    unfold resolveArg
    rw [href]
    cases hty : ty.type <;> rw [hty] at hbits <;> first | rfl | cases hbits

theorem mem_symbols (locals : List SymbolValue) (i : ℕ) (e : ZInt) :
    (i, e) ∈ (locals.zipIdx.filterMap fun (v, i) => match v with
      | .value e => some (i, e)
      | .unknown => none) ↔ locals[i]? = some (.value e) := by
  simp only [List.mem_filterMap, Prod.exists, List.mem_zipIdx_iff_getElem?]
  constructor
  · intro hall
    obtain ⟨v, j, hv, h⟩ := hall
    cases v with
    | unknown => cases h
    | value e' =>
      cases h
      exact hv
  · exact fun h => ⟨.value e, i, h, rfl⟩

theorem padded_value (resolved : List SymbolValue) (n m i : ℕ) (e : ZInt) :
    ((resolved ++ List.replicate m SymbolValue.unknown).take n)[i]? = some (.value e) ↔
      i < n ∧ resolved[i]? = some (.value e) := by
  rw [List.getElem?_take]
  split_ifs with hlt
  · simp only [hlt, true_and]
    by_cases hin : i < resolved.length
    · rw [List.getElem?_append_left hin]
    · rw [List.getElem?_append_right (by omega), List.getElem?_replicate,
        List.getElem?_eq_none (by omega)]
      split_ifs <;> simp
  · simp [hlt]

/-- A frame that opens while no other is open. -/
theorem onOpenFrameInner_args (c : ConcolicState) (frame : Frame) (hl : c.locals = []) :
    ∃ args, (c.onOpenFrameInner frame).args = c.args ++ [args] ∧ ArgsOf c.args.length frame args := by
  simp only [onOpenFrameInner, hl, List.isEmpty_nil, if_true]
  refine ⟨_, rfl, fun p => ?_⟩
  obtain ⟨i, e⟩ := p
  refine (mem_symbols _ i e).trans ?_
  rw [padded_value, List.getElem?_mapIdx]
  simp only [Option.map_eq_some_iff, resolveArg_iff, Frame.Symbolic, and_assoc]
  constructor
  · intro h
    obtain ⟨hlt, ty, hty, href, hbits, he⟩ := h
    exact ⟨hlt, ⟨ty, hty, href, hbits⟩, he⟩
  · intro h
    obtain ⟨hlt, ⟨ty, hty, href, hbits⟩, he⟩ := h
    exact ⟨hlt, ty, hty, href, hbits, he⟩

/-- Any other frame. -/
theorem onOpenFrameInner_inner (c : ConcolicState) (frame : Frame) (hl : c.locals ≠ []) :
    (c.onOpenFrameInner frame).args = c.args := by
  have hempty : c.locals.isEmpty = false := by
    cases hc : c.locals with
    | nil => exact absurd hc hl
    | cons _ _ => rfl
  simp only [onOpenFrameInner, hempty, Bool.false_eq_true, if_false]

/-! ### Runs -/

section Runs

variable {σ φ : Type} (hooks : Hooks σ φ)

/-- The frame of a call, if the event opens one. -/
def topCall (w : MovySuiTracerWrapper σ φ) : TraceEvent → List Frame
  | .openFrame frame =>
    if w.tracer.concolic.disable = false ∧ w.tracer.concolic.locals.isEmpty = true then [frame] else []
  | _ => []

/-- The frames of the calls that a trace shows. -/
def topCalls : MovySuiTracerWrapper σ φ → List TraceEvent → List Frame
  | _, [] => []
  | w, ev :: rest =>
    topCall w ev ++ match w.notify hooks ev with
      | none => []
      | some next => topCalls next rest

/-- Each call has its arguments, with its number. -/
def Numbers (n : ℕ) (frames : List Frame) (args : List (List (ℕ × ZInt))) : Prop :=
  args.length = frames.length ∧ ∀ (j : ℕ) frame a, frames[j]? = some frame → args[j]? = some a →
    ArgsOf (n + j) frame a

variable {hooks}

theorem onRawEvent_args (t : SuiFuzzTracer σ φ) (s : TraceState) (ev : TraceEvent) :
    (t.onRawEvent s ev).concolic.args = t.concolic.args := by
  simp only [SuiFuzzTracer.onRawEvent, onRawEventInner]
  split
  · rfl
  · split
    · split <;> rfl
    · rfl
    · rfl

theorem beforeInstruction_args (t t' : SuiFuzzTracer σ φ) (s : TraceState) (pc : ℕ) (ins : Bytecode)
    (h : t.beforeInstruction hooks s pc ins = some t') : t'.concolic.args = t.concolic.args := by
  rcases beforeInstruction_cases t t' s pc ins h with ⟨hc, -, -⟩ | ⟨o, b, l, ht⟩
  · rw [hc]
  · obtain ⟨extra, c, k, -, hskip, hbefore, hc, -⟩ := traceInstruction_cases _ t' s ins ht
    cases hs : t.skipConcolic with
    | true => rw [hc, (hskip hs).1]
    | false => rw [hc, onBeforeInstructionInner_args ins s extra (hbefore hs)]

theorem notify_args (w next : MovySuiTracerWrapper σ φ) (ev : TraceEvent)
    (h : w.notify hooks ev = some next) :
    ∃ more, next.tracer.concolic.args = w.tracer.concolic.args ++ more ∧
      Numbers w.tracer.concolic.args.length (topCall w ev) more := by
  simp only [notify, Option.bind_eq_bind, Option.bind_eq_some_iff] at h
  obtain ⟨t, ht, s, -, h⟩ := h
  cases h
  have hraw := onRawEvent_args w.tracer w.state ev
  have hsame : topCall w ev = [] → t.concolic.args = w.tracer.concolic.args →
      ∃ more, t.concolic.args = w.tracer.concolic.args ++ more ∧
        Numbers w.tracer.concolic.args.length (topCall w ev) more := by
    intro hnone hargs
    refine ⟨[], by rw [hargs, List.append_nil], ?_⟩
    rw [hnone]
    exact ⟨rfl, fun j _ _ hj => by cases hj⟩
  cases ev with
  | external e =>
    cases e with
    | other =>
      cases ht
      exact hsame rfl hraw
    | moveCallStart =>
      cases ht
      refine hsame rfl ?_
      rw [← hraw]
      unfold SuiFuzzTracer.onMoveCall
      split <;> rfl
  | closeFrame id =>
    cases ht
    refine hsame rfl ?_
    rw [← hraw]
    unfold SuiFuzzTracer.closeFrame
    dsimp only
    split <;> rfl
  | effect e =>
    cases ht
    exact hsame rfl hraw
  | instruction pc ins =>
    refine hsame rfl ?_
    rw [← hraw]
    exact beforeInstruction_args _ t w.state pc ins ht
  | openFrame frame =>
    cases ht
    cases hd : w.tracer.concolic.disable with
    | true =>
      refine hsame (by simp only [topCall, hd, Bool.true_eq_false, false_and, if_false]) ?_
      simp only [SuiFuzzTracer.openFrame, SuiFuzzTracer.onRawEvent, onRawEventInner, hd, if_true,
        Bool.not_false]
    | false =>
      have hargs : ((w.tracer.onRawEvent w.state (.openFrame frame)).openFrame hooks frame).concolic =
          w.tracer.concolic.onOpenFrameInner frame := by
        simp only [SuiFuzzTracer.openFrame, SuiFuzzTracer.onRawEvent, onRawEventInner, hd,
          Bool.false_eq_true, if_false, Bool.not_true]
      by_cases hl : w.tracer.concolic.locals = []
      · obtain ⟨args, happ, hof⟩ := onOpenFrameInner_args w.tracer.concolic frame hl
        refine ⟨[args], (congrArg ConcolicState.args hargs).trans happ, ?_⟩
        simp only [topCall, hd, hl, List.isEmpty_nil, and_self, if_true]
        refine ⟨rfl, fun j fr a hj ha => ?_⟩
        cases j with
        | zero =>
          cases hj
          cases ha
          exact hof
        | succ j => cases hj
      · refine hsame ?_ ((congrArg ConcolicState.args hargs).trans (onOpenFrameInner_inner _ frame hl))
        simp only [topCall, hd, List.isEmpty_iff, hl, and_false, if_false]

theorem numbers_append (n : ℕ) (frames frames' : List Frame) (args args' : List (List (ℕ × ZInt)))
    (h : Numbers n frames args) (h' : Numbers (n + args.length) frames' args') :
    Numbers n (frames ++ frames') (args ++ args') := by
  refine ⟨by rw [List.length_append, List.length_append, h.1, h'.1], fun j frame a hj ha => ?_⟩
  by_cases hlt : j < args.length
  · rw [List.getElem?_append_left (h.1 ▸ hlt)] at hj
    rw [List.getElem?_append_left hlt] at ha
    exact h.2 j frame a hj ha
  · rw [List.getElem?_append_right (by rw [← h.1]; omega), ← h.1] at hj
    rw [List.getElem?_append_right (by omega)] at ha
    have hof := h'.2 _ frame a hj ha
    rwa [show n + args.length + (j - args.length) = n + j by omega] at hof

/-- The calls of a trace are numbered in their order. -/
theorem run_args (evs : List TraceEvent) (w final : MovySuiTracerWrapper σ φ)
    (h : run (notify hooks) w evs = some final) :
    ∃ more, final.tracer.concolic.args = w.tracer.concolic.args ++ more ∧
      Numbers w.tracer.concolic.args.length (topCalls hooks w evs) more := by
  induction evs generalizing w with
  | nil =>
    cases h
    exact ⟨[], (List.append_nil _).symm, rfl, fun j _ _ hj => (by cases hj)⟩
  | cons ev rest ih =>
    obtain ⟨next, hn, hrest⟩ := run_cons (notify hooks) w final ev rest h
    obtain ⟨first, hfirst, hnum⟩ := notify_args w next ev hn
    obtain ⟨more, hmore, hnums⟩ := ih next hrest
    refine ⟨first ++ more, by rw [hmore, hfirst, List.append_assoc], ?_⟩
    simp only [topCalls, hn]
    rw [hfirst, List.length_append] at hnums
    exact numbers_append _ _ _ _ _ hnum hnums

/-- From the start of an execution, the arguments with number `k` are those of call `k`. -/
theorem traced_args (o : σ) (evs : List TraceEvent) (final : MovySuiTracerWrapper σ φ)
    (h : run (notify hooks) (new o) evs = some final) :
    final.tracer.concolic.args.length = (topCalls hooks (new o) evs).length ∧
      ∀ (k : ℕ) frame args, (topCalls hooks (new o) evs)[k]? = some frame →
        final.tracer.concolic.args[k]? = some args → ArgsOf k frame args := by
  obtain ⟨more, hmore, hlen, hargs⟩ := run_args evs (new o) final h
  have hnil : (new o : MovySuiTracerWrapper σ φ).tracer.concolic.args = [] := rfl
  rw [hnil, List.nil_append] at hmore
  rw [hmore]
  refine ⟨hlen, fun k frame args hk ha => ?_⟩
  have hof := hargs k frame args hk ha
  rwa [hnil, List.length_nil, Nat.zero_add] at hof

end Runs

end Movy.Tracer
