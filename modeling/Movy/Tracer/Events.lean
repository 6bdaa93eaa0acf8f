import Movy.Tracer.Instruction
import Movy.Tracer.Mirror

/-!
# Single events

What the tracer does on one event while the engine is enabled, and how a
change of the VM's memory carries over to symbols and shown values.
-/

namespace Movy.Tracer

open Movy.Store (ObjectID)
open ConcolicState MovySuiTracerWrapper InstructionExtraInformation

/-! ### Memory -/

section Memory

variable {I : Interp ArgVar} {U : ZInt → Prop} {vm vm' : Vm}

theorem readLoc_congr (l : Location) (h : ∀ f i, l.root = .ofLocal f i →
    vm'.locals f i = vm.locals f i) (hg : vm'.globals = vm.globals) :
    vm'.readLoc l = vm.readLoc l := by
  induction l with
  | ofLocal f i => simp only [Vm.readLoc, h f i rfl]
  | indexed l i ih => simp only [Vm.readLoc, ih h]
  | global id => simp only [Vm.readLoc, hg]

theorem primOf_congr (r : RtValue) (h : ∀ m l, r = .ref m l → vm'.readLoc l = vm.readLoc l) :
    vm'.primOf r = vm.primOf r := by
  cases r with
  | val v => rfl
  | ref m l => simp only [Vm.primOf, Vm.denotes, h m l rfl]

theorem primOf_same (r : RtValue) (hl : vm'.locals = vm.locals) (hg : vm'.globals = vm.globals) :
    vm'.primOf r = vm.primOf r :=
  primOf_congr r fun _ l _ => readLoc_congr l (fun f i _ => by rw [hl]) hg

theorem fits_across (s : SymbolValue) (r r' : RtValue) (h : Fits I U vm s r)
    (heq : vm'.primOf r' = vm.primOf r) : Fits I U vm' s r' := by
  intro e he
  obtain ⟨p, hp, hm⟩ := h e he
  exact ⟨p, heq.trans hp, hm⟩

/- For a term that is not trusted, the type is enough. -/
theorem fits_untrusted (s : SymbolValue) (r r' : RtValue) (hU : ∀ e, s = .value e → ¬e.Avoids U)
    (h : Fits I U vm s r) (heq : vm'.kindOf r' = vm.kindOf r) : Fits I U vm' s r' := by
  intro e he
  obtain ⟨p, hp, _⟩ := h e he
  rw [kindOf_of_prim r p hp] at heq
  obtain ⟨p', hp', _⟩ := Option.map_eq_some_iff.mp heq
  exact ⟨p', hp', fun ha => absurd ha (hU e he)⟩

theorem shows_across (t : TraceValue) (r : RtValue) (h : Shows vm t r)
    (heq : ∀ m l, r = .ref m l → vm'.kindOf r = vm.kindOf r) : Shows vm' t r := by
  cases r with
  | val v => exact h
  | ref m l =>
    show _ = vm'.kindOf (.ref m l)
    rw [heq m l rfl]
    exact h

theorem forall₂_zip {α β : Type} {R S : α → β → Prop} {l : List α} {m : List β}
    (h : List.Forall₂ R l m) (himp : ∀ p ∈ l.zip m, R p.1 p.2 → S p.1 p.2) :
    List.Forall₂ S l m := by
  induction h with
  | nil => exact .nil
  | @cons a b l m hab _ ih =>
    refine .cons (himp (a, b) (List.mem_cons_self ..) hab) (ih fun p hp => ?_)
    exact himp p (List.mem_cons_of_mem _ hp)

theorem forall₂_split {α β : Type} {R : α → β → Prop} {l : List α} (m n : List β)
    (h : List.Forall₂ R l (m ++ n)) :
    ∃ l₁ l₂, l = l₁ ++ l₂ ∧ List.Forall₂ R l₁ m ∧ List.Forall₂ R l₂ n :=
  ⟨l.take m.length, l.drop m.length, (List.take_append_drop _ l).symm,
    List.forall₂_take_append l m n h, List.forall₂_drop_append l m n h⟩

/- The memory behind the trusted symbols of the stack and the locals keeps its
values. -/
structure Keeps (U : ZInt → Prop) (stack : List SymbolValue) (locals : List (List SymbolValue))
    (vm vm' : Vm) : Prop where
  stack : ∀ p ∈ stack.zip vm.stack, ∀ e, p.1 = .value e → e.Avoids U →
    vm'.primOf p.2 = vm.primOf p.2
  locals : ∀ p ∈ locals.zip vm.frames, ∀ (i : ℕ) e r r', p.1[i]? = some (SymbolValue.value e) →
    e.Avoids U → vm.locals p.2.id i = some r → vm'.locals p.2.id i = some r' →
    vm'.primOf r' = vm.primOf r

theorem keeps_refl (stack : List SymbolValue) (locals : List (List SymbolValue)) (vm : Vm) :
    Keeps U stack locals vm vm where
  stack _ _ _ _ _ := rfl
  locals _ _ _ _ r r' _ _ hr hr' := by rw [Option.some.inj (hr.symm.trans hr')]

/- Without trust there is nothing to keep. -/
theorem keeps_untrusted (hU : ∀ e, U e) (stack : List SymbolValue)
    (locals : List (List SymbolValue)) (vm vm' : Vm) : Keeps U stack locals vm vm' where
  stack _ _ e _ ha := absurd (hU e) (ha.not_mem U e)
  locals _ _ _ e _ _ _ ha _ _ := absurd (hU e) (ha.not_mem U e)

/- A symbol carries over to a value of the same type that is equal where the
symbol is trusted. -/
theorem fits_kept (s : SymbolValue) (r r' : RtValue) (h : Fits I U vm s r)
    (hkind : vm'.kindOf r' = vm.kindOf r)
    (hkeep : ∀ e, s = .value e → e.Avoids U → vm'.primOf r' = vm.primOf r) : Fits I U vm' s r' := by
  by_cases ha : ∃ e, s = .value e ∧ e.Avoids U
  · obtain ⟨e, he, ha⟩ := ha
    exact fits_across s r r' h (hkeep e he ha)
  · exact fits_untrusted s r r' (fun e he hae => ha ⟨e, he, hae⟩) h hkind

theorem sameShape_kind (r r' : RtValue) (h : SameShape (some r) (some r'))
    (href : ∀ m l, r = .ref m l → vm'.kindOf (.ref m l) = vm.kindOf (.ref m l)) :
    vm'.kindOf r' = vm.kindOf r := by
  cases h with
  | val v w hk => exact hk.symm
  | ref m l => exact href m l rfl

theorem live_of_mem (m : Bool) (l : Location) (h : .ref m l ∈ vm.stack) : vm.Live l := ⟨m, .inl h⟩

theorem rewrites_kind (accesses : List Effect) (hm : Rewrites vm vm' accesses) (r : RtValue)
    (hr : r ∈ vm.stack) : vm'.kindOf r = vm.kindOf r := by
  cases r with
  | val v => rfl
  | ref m l => exact hm.refs m l (live_of_mem m l hr)

theorem rewrites_fits (accesses : List Effect) (stack : List SymbolValue)
    (locals : List (List SymbolValue)) (hm : Rewrites vm vm' accesses)
    (hkeep : Keeps U stack locals vm vm') (h : List.Forall₂ (Fits I U vm) stack vm.stack) :
    List.Forall₂ (Fits I U vm') stack vm.stack :=
  forall₂_zip h fun p hp hfit => fits_kept p.1 p.2 p.2 hfit
    (rewrites_kind accesses hm p.2 (List.of_mem_zip hp).2) (hkeep.stack p hp)

theorem rewrites_locals (accesses : List Effect) (stack : List SymbolValue)
    (locals : List (List SymbolValue)) (hm : Rewrites vm vm' accesses)
    (hkeep : Keeps U stack locals vm vm')
    (h : List.Forall₂ (LocalsFit I U vm) locals vm.frames) :
    List.Forall₂ (LocalsFit I U vm') locals vm.frames := by
  refine forall₂_zip h fun p hp hfit => ?_
  intro i s r' hs hr'
  have hshape := hm.locals p.2.id i
  cases hr : vm.locals p.2.id i with
  | none =>
    rw [hr, hr'] at hshape
    cases hshape
  | some r =>
    rw [hr, hr'] at hshape
    refine fits_kept s r r' (hfit i s r hs hr) (sameShape_kind r r' hshape ?_) ?_
    · intro m l hl
      exact hm.refs m l ⟨m, .inr ⟨p.2, (List.of_mem_zip hp).2, i, hl ▸ hr⟩⟩
    · rintro e rfl ha
      exact hkeep.locals p hp i e r r' hs ha hr hr'

theorem rewrites_shows (accesses : List Effect) (ts : List TraceValue)
    (hm : Rewrites vm vm' accesses) (h : List.Forall₂ (Shows vm) ts vm.stack) :
    List.Forall₂ (Shows vm') ts vm.stack :=
  forall₂_zip h fun p hp hshow =>
    shows_across p.1 p.2 hshow fun _ _ _ => rewrites_kind accesses hm p.2 (List.of_mem_zip hp).2

end Memory

/-! ### Events -/

section Events

variable {σ φ : Type} (hooks : Hooks σ φ) (w : MovySuiTracerWrapper σ φ)

/- No oracle fails on an instruction. -/
def Hooks.Quiet {σ φ : Type} (hooks : Hooks σ φ) : Prop :=
  ∀ o pc ins s c f, (hooks.oracle o pc ins s c f).2.isSome = true

/- The raw handler only looks at instructions and errors. -/
theorem onRawEventInner_keep (c : ConcolicState) (ev : TraceEvent) (s : TraceState)
    (hd : c.disable = false) (hi : ∀ pc ins, ev ≠ .instruction pc ins)
    (he : ∀ m, ev ≠ .effect (.executionError m)) : c.onRawEventInner ev s = (c, true) := by
  unfold onRawEventInner
  rw [if_neg (by simp [hd])]
  split
  · exact absurd rfl (hi _ _)
  · exact absurd rfl (he _)
  · rfl

theorem notify_effect (e : Effect) (s' : TraceState) (hd : w.tracer.concolic.disable = false)
    (he : ∀ m, e ≠ .executionError m) (hs : w.state.applyEffect e = some s') :
    w.notify hooks (.effect e) = some ⟨{ w.tracer with skipConcolic := false }, s'⟩ := by
  have hraw := onRawEventInner_keep w.tracer.concolic (.effect e) w.state hd
    (fun _ _ h => by cases h) fun m h => he m (TraceEvent.effect.inj h)
  simp only [notify, handle, SuiFuzzTracer.onRawEvent, hraw, TraceState.applyEvent, hs,
    Option.bind_eq_bind, Option.bind_some, Bool.not_true]

theorem run_effects (effs : List Effect) (s' : TraceState)
    (hd : w.tracer.concolic.disable = false) (he : ∀ e ∈ effs, ∀ m, e ≠ .executionError m)
    (hs : run TraceState.applyEffect w.state effs = some s') :
    ∃ b, run (notify hooks) w (effects effs) =
      some ⟨{ w.tracer with skipConcolic := b }, s'⟩ := by
  induction effs generalizing w with
  | nil =>
    cases hs
    exact ⟨w.tracer.skipConcolic, rfl⟩
  | cons e rest ih =>
    obtain ⟨s₁, hs₁, hrest⟩ := run_cons _ _ _ _ _ hs
    have hnotify := notify_effect hooks w e s₁ hd (he e (List.mem_cons_self ..)) hs₁
    obtain ⟨b, hb⟩ := ih ⟨{ w.tracer with skipConcolic := false }, s₁⟩ hd
      (fun e' he' => he e' (List.mem_cons_of_mem _ he')) hrest
    refine ⟨b, ?_⟩
    simp only [effects, List.map_cons, run, hnotify, Option.bind_some]
    exact hb

theorem accesses_ne_error (vm : Vm) (accesses : List Effect)
    (h : ∀ e ∈ accesses, Accesses vm e) : ∀ e ∈ accesses, ∀ m, e ≠ .executionError m := by
  intro e he m heq
  subst heq
  cases h _ he

theorem notify_open (frame : Frame) (s' : TraceState) (hd : w.tracer.concolic.disable = false)
    (hs : w.state.applyEvent (.openFrame frame) = some s') :
    w.notify hooks (.openFrame frame) = some
      ⟨{ w.tracer with
          skipConcolic := false
          resolver := (mayLoadPackage hooks.db w.tracer.resolver frame.versionId).1
          concolic := w.tracer.concolic.onOpenFrameInner frame
          currentFunctions :=
            (frame.versionId, ⟨frame.moduleId, frame.functionName⟩) :: w.tracer.currentFunctions },
        s'⟩ := by
  have hraw := onRawEventInner_keep w.tracer.concolic (.openFrame frame) w.state hd
    (fun _ _ h => by cases h) fun _ h => by cases h
  simp only [notify, handle, SuiFuzzTracer.onRawEvent, hraw, hs, SuiFuzzTracer.openFrame,
    Option.bind_eq_bind, Option.bind_some, Bool.not_true, Bool.false_eq_true, if_false]

theorem notify_close (id : ℕ) (s' : TraceState) (hd : w.tracer.concolic.disable = false)
    (hs : w.state.applyEvent (.closeFrame id) = some s') :
    w.notify hooks (.closeFrame id) = some
      ⟨{ w.tracer with
          skipConcolic := false
          concolic := w.tracer.concolic.onCloseFrameInner
          currentFunctions := w.tracer.currentFunctions.tail },
        s'⟩ := by
  have hraw := onRawEventInner_keep w.tracer.concolic (.closeFrame id) w.state hd
    (fun _ _ h => by cases h) fun _ h => by cases h
  simp only [notify, handle, SuiFuzzTracer.onRawEvent, hraw, hs, SuiFuzzTracer.closeFrame,
    Option.bind_eq_bind, Option.bind_some, Bool.not_true, Bool.false_eq_true, if_false]

theorem notify_start (hd : w.tracer.concolic.disable = false) :
    w.notify hooks (.external .moveCallStart) = some
      ⟨{ w.tracer with skipConcolic := false, concolic := w.tracer.concolic.onMoveCallInner },
        TraceState.new⟩ := by
  have hraw := onRawEventInner_keep w.tracer.concolic (.external .moveCallStart) w.state hd
    (fun _ _ h => by cases h) fun _ h => by cases h
  simp only [notify, handle, SuiFuzzTracer.onRawEvent, hraw, SuiFuzzTracer.onMoveCall,
    TraceState.applyEvent, Option.bind_eq_bind, Option.bind_some, Bool.not_true,
    Bool.false_eq_true, if_false]

theorem notify_other (hd : w.tracer.concolic.disable = false) :
    w.notify hooks (.external .other) = some
      ⟨{ w.tracer with skipConcolic := false }, w.state⟩ := by
  have hraw := onRawEventInner_keep w.tracer.concolic (.external .other) w.state hd
    (fun _ _ h => by cases h) fun _ h => by cases h
  simp only [notify, handle, SuiFuzzTracer.onRawEvent, hraw, TraceState.applyEvent,
    Option.bind_eq_bind, Option.bind_some, Bool.not_true]

/-! ### Instructions -/

theorem code_of_tryFrom (ins : Bytecode) (op : CmpOp) (h : CmpOp.tryFrom ins = some op) :
    ins = op.code := by
  cases ins <;> cases h <;> rfl

/- A comparison log with a constraint is old or the one of this instruction. -/
def LogsFrom (logs logs' : FunctionIdent → List Log) (ins : Bytecode) (k : Option ZBool) : Prop :=
  ∀ f lhs rhs op e, .cmpLog lhs rhs op (some e) ∈ logs' f →
    .cmpLog lhs rhs op (some e) ∈ logs f ∨ ins = op.code ∧ k = some e

theorem logsFrom_record (t : SuiFuzzTracer σ φ) (log : Log) (ins : Bytecode) (k : Option ZBool)
    (h : ∀ lhs rhs op e, log = .cmpLog lhs rhs op (some e) → ins = op.code ∧ k = some e) :
    LogsFrom t.logs (t.record log).logs ins k := by
  intro f lhs rhs op e hmem
  unfold SuiFuzzTracer.record at hmem
  cases hl : t.currentFunctions.getLast? with
  | none =>
    rw [hl] at hmem
    exact .inl hmem
  | some g =>
    rw [hl] at hmem
    simp only at hmem
    by_cases hf : f = g.2
    · subst hf
      rw [Function.update_self] at hmem
      rcases List.mem_append.mp hmem with hmem | hmem
      · exact .inl hmem
      · exact .inr (h lhs rhs op e (List.mem_singleton.mp hmem).symm)
    · rw [Function.update_of_ne hf] at hmem
      exact .inl hmem

/- At most one log is appended, and a comparison log has the constraint of its
instruction. -/
theorem logInstruction_cases (t : SuiFuzzTracer σ φ) (s : TraceState) (ins : Bytecode)
    (k : Option ZBool) : t.logInstruction s ins k = t ∨
      ∃ log, t.logInstruction s ins k = t.record log ∧ ∀ lhs rhs op e,
        log = .cmpLog lhs rhs op (some e) → ins = op.code ∧ k = some e := by
  have hcmp : ∀ lhs rhs op, CmpOp.tryFrom ins = some op → ∃ log,
      t.record (.cmpLog lhs rhs op k) = t.record log ∧ ∀ lhs rhs op e,
        log = .cmpLog lhs rhs op (some e) → ins = op.code ∧ k = some e := by
    intro lhs rhs op hop
    refine ⟨_, rfl, fun lhs' rhs' op' e h => ?_⟩
    cases h
    exact ⟨code_of_tryFrom ins op hop, rfl⟩
  unfold SuiFuzzTracer.logInstruction
  split
  all_goals try exact .inl rfl
  all_goals split
  all_goals first
    | exact .inl rfl
    | exact .inr (hcmp _ _ _ (by assumption))
    | exact .inr ⟨_, rfl, fun _ _ _ _ h => Log.noConfusion h⟩

theorem logsFrom_logInstruction (t : SuiFuzzTracer σ φ) (s : TraceState) (ins : Bytecode)
    (k : Option ZBool) : LogsFrom t.logs (t.logInstruction s ins k).logs ins k := by
  rcases logInstruction_cases t s ins k with h | ⟨log, h, hlog⟩
  · rw [h]
    exact fun _ _ _ _ _ hmem => .inl hmem
  · rw [h]
    exact logsFrom_record t log ins k hlog

/- The fields of the tracer that an instruction may change, and how. -/
structure Instructed (w w' : MovySuiTracerWrapper σ φ) (c : ConcolicState) : Prop where
  state : w'.state = w.state
  concolic : w'.tracer.concolic = c
  functions : w'.tracer.currentFunctions = w.tracer.currentFunctions
  resolver : w'.tracer.resolver = w.tracer.resolver

theorem logInstruction_fields (t : SuiFuzzTracer σ φ) (s : TraceState) (ins : Bytecode)
    (k : Option ZBool) : (t.logInstruction s ins k).concolic = t.concolic ∧
      (t.logInstruction s ins k).currentFunctions = t.currentFunctions ∧
      (t.logInstruction s ins k).resolver = t.resolver := by
  rcases logInstruction_cases t s ins k with h | ⟨log, h, _⟩
  · rw [h]
    exact ⟨rfl, rfl, rfl⟩
  · rw [h, SuiFuzzTracer.record]
    split <;> exact ⟨rfl, rfl, rfl⟩

/- The handler of an instruction, if the stacks are equally high. -/
theorem notify_instruction (hq : hooks.Quiet) (pc : ℕ) (ins : Bytecode) (fr : VmFrame)
    (outer : List (ObjectID × FunctionIdent)) (hd : w.tracer.concolic.disable = false)
    (hh : w.tracer.concolic.stack.length = w.state.operandStack.length)
    (hf : w.tracer.currentFunctions =
      (fr.versionId, ⟨fr.code.selfId, fr.functionName⟩) :: outer)
    (extra : Option InstructionExtraInformation) (c : ConcolicState) (k : Option ZBool)
    (hx : fromResolver ins w.tracer.resolver fr.versionId fr.code.selfId = some extra)
    (hs : w.tracer.concolic.shadowInstruction ins w.state.operandStack extra = some (c, k)) :
    ∃ w', w.notify hooks (.instruction pc ins) = some w' ∧ Instructed w w' c := by
  have hraw : w.tracer.concolic.onRawEventInner (.instruction pc ins) w.state =
      (w.tracer.concolic, true) := by
    simp only [onRawEventInner, hd, Bool.false_eq_true, if_false, hh, ne_eq, not_true_eq_false]
  have hbefore : w.tracer.concolic.onBeforeInstructionInner ins w.state extra = some (c, k) := by
    rw [onBeforeInstructionInner, if_neg (by simp [hd, hh]), hs]
  have htrace : ∀ t : SuiFuzzTracer σ φ, t.concolic = w.tracer.concolic →
      t.currentFunctions = w.tracer.currentFunctions → t.resolver = w.tracer.resolver →
      t.skipConcolic = false → t.traceInstruction w.state ins =
        some (({ t with concolic := c } : SuiFuzzTracer σ φ).logInstruction w.state ins k) := by
    intro t hc hcf hr hskip
    simp only [SuiFuzzTracer.traceInstruction, hcf, hf, hr, hskip, hc, hx, hbefore,
      List.head?_cons, Option.bind_eq_bind, Option.bind_some, Bool.false_eq_true, if_false]
  obtain ⟨found, hfound⟩ := Option.isSome_iff_exists.mp
    (hq w.tracer.oracles pc ins w.state w.tracer.concolic ⟨fr.code.selfId, fr.functionName⟩)
  obtain ⟨o, ho⟩ : ∃ o, hooks.oracle w.tracer.oracles pc ins w.state w.tracer.concolic
      ⟨fr.code.selfId, fr.functionName⟩ = (o, some found) := ⟨_, Prod.ext rfl hfound⟩
  let t : SuiFuzzTracer σ φ := { w.tracer with
    skipConcolic := false
    oracles := o
    crash := w.tracer.crash || !found.isEmpty
    findings := w.tracer.findings ++ found }
  obtain ⟨h₁, h₂, h₃⟩ := logInstruction_fields { t with concolic := c } w.state ins k
  refine ⟨⟨({ t with concolic := c } : SuiFuzzTracer σ φ).logInstruction w.state ins k, w.state⟩,
    ?_, rfl, h₁, h₂, h₃⟩
  simp only [notify, handle, SuiFuzzTracer.onRawEvent, hraw, Bool.not_true,
    SuiFuzzTracer.beforeInstruction, hf, List.head?_cons, ho]
  rw [← hf, htrace t rfl rfl rfl rfl]
  rfl

end Events

end Movy.Tracer
