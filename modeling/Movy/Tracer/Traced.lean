import Movy.Tracer.Calls

/-!
# Runs of the VM with the tracer beside it

A step lemma for all steps of the VM at once, and what follows for whole runs.
If a module cannot be found, an instruction that needs its tables stops the
tracer or turns the engine off; then the engine stays off and logs nothing.
-/

namespace Movy.Tracer

open ConcolicState MovySuiTracerWrapper InstructionExtraInformation

/-! ### Steps -/

/- The steps that may write to memory through a reference. -/
inductive MemoryStep : List TraceEvent → Prop
  | write (pc : ℕ) (ins : Bytecode) (rest : List TraceEvent) (h : ins.Writes) :
      MemoryStep (.instruction pc ins :: rest)
  | native (pc : ℕ) (ins : Bytecode) (frame : Frame) (rest : List TraceEvent)
      (h : frame.isNative = true) : MemoryStep (.instruction pc ins :: .openFrame frame :: rest)

def TraceEvent.taken : TraceEvent → ℕ
  | .effect (.pop _) => 1
  | .openFrame frame => frame.parameters.length
  | _ => 0

def taken (evs : List TraceEvent) : ℕ := (evs.map TraceEvent.taken).sum

theorem taken_cons (ev : TraceEvent) (evs : List TraceEvent) :
    taken (ev :: evs) = ev.taken + taken evs := rfl

theorem taken_append (l m : List TraceEvent) : taken (l ++ m) = taken l + taken m := by
  simp only [taken, List.map_append, List.sum_append]

theorem taken_zero (effs : List Effect) (h : ∀ e ∈ effs, ∀ t, e ≠ .pop t) :
    taken (effects effs) = 0 := by
  induction effs with
  | nil => rfl
  | cons e rest ih =>
    have hrest : taken (effects rest) = 0 := ih fun e' he' => h e' (List.mem_cons_of_mem _ he')
    show taken (.effect e :: effects rest) = 0
    rw [taken_cons, hrest]
    cases e with
    | pop t => exact absurd rfl (h (.pop t) (List.mem_cons_self ..) t)
    | _ => rfl

theorem taken_pops (popped : List TraceValue) : taken (effects (pops popped)) = popped.length := by
  induction popped with
  | nil => rfl
  | cons t rest ih =>
    show taken (.effect (.pop t) :: effects (pops rest)) = _
    rw [taken_cons, ih, List.length_cons, Nat.add_comm]
    rfl

theorem taken_accesses (vm : Vm) (accesses : List Effect) (h : ∀ e ∈ accesses, Accesses vm e) :
    taken (effects accesses) = 0 := by
  refine taken_zero accesses fun e he t heq => ?_
  subst heq
  cases h _ he

theorem taken_pushes (results : List TraceValue) : taken (effects (pushes results)) = 0 := by
  refine taken_zero _ fun e he t heq => ?_
  obtain ⟨_, _, rfl⟩ := List.mem_map.mp he
  cases heq

theorem effects_append (l m : List Effect) : effects (l ++ m) = effects l ++ effects m :=
  List.map_append

theorem taken_exec (vm : Vm) (pc : ℕ) (ins : Bytecode) (popped results : List TraceValue)
    (accesses : List Effect) (h : ∀ e ∈ accesses, Accesses vm e) :
    taken (.instruction pc ins :: effects (pops popped ++ accesses ++ pushes results)) =
      popped.length := by
  rw [taken_cons, effects_append, effects_append, taken_append, taken_append, taken_pops,
    taken_accesses vm accesses h, taken_pushes]
  simp only [TraceEvent.taken]
  omega

theorem taken_native (vm : Vm) (pc id : ℕ) (ins : Bytecode) (frame : Frame)
    (results : List TraceValue) (inside outside : List Effect)
    (h : ∀ e ∈ inside ++ outside, Accesses vm e) :
    taken (.instruction pc ins :: .openFrame frame ::
      (effects inside ++ .closeFrame id :: effects (outside ++ pushes results))) =
      frame.parameters.length := by
  rw [taken_cons, taken_cons, taken_append, taken_cons, effects_append, taken_append,
    taken_accesses vm inside fun e he => h e (List.mem_append_left _ he),
    taken_accesses vm outside fun e he => h e (List.mem_append_right _ he), taken_pushes]
  simp only [TraceEvent.taken]
  omega

section Steps

variable {σ φ : Type} {hooks : Hooks σ φ} {I : Interp ArgVar} {U : ZInt → Prop} {vm vm' : Vm}
  {w : MovySuiTracerWrapper σ φ}

/- What keeps the trusted terms right over a step: an instruction that can push
a wrong term pushes one that is not trusted, and a write to memory leaves the
values behind the trusted terms as they are. -/
structure Careful (U : ZInt → Prop) (vm : Vm) (w : MovySuiTracerWrapper σ φ)
    (evs : List TraceEvent) (vm' : Vm) : Prop where
  pushed : ∀ pc ins rest, evs = .instruction pc ins :: rest →
    Exempt vm ins w.state.operandStack vm.stack vm'.stack →
    Distrusts U w.tracer.concolic ins w.state.operandStack
  kept : MemoryStep evs → Keeps U (w.tracer.concolic.stack.drop (taken evs))
    w.tracer.concolic.locals { vm with stack := vm.stack.drop (taken evs) } vm'

theorem careful_untrusted (hU : ∀ e, U e) (evs : List TraceEvent) : Careful U vm w evs vm' where
  pushed _ _ _ _ _ _ _ _ e _ _ := hU e
  kept _ := keeps_untrusted hU _ _ _ _

theorem primOf_stack (vm : Vm) (st : List RtValue) (r : RtValue) :
    Vm.primOf { vm with stack := st } r = vm.primOf r := primOf_same r rfl rfl

theorem keeps_stack (stack : List SymbolValue) (locals : List (List SymbolValue))
    (st : List RtValue) (h : Keeps U stack locals vm { vm' with stack := st }) :
    Keeps U stack locals vm vm' where
  stack p hp e he ha := (primOf_stack vm' st p.2).symm.trans (h.stack p hp e he ha)
  locals p hp i e r r' hs ha hr hr' :=
    (primOf_stack vm' st r').symm.trans (h.locals p hp i e r r' hs ha hr hr')

/- The step lemma. -/
theorem follows_step (hq : hooks.Quiet) (hf : Follows hooks I U vm w) (evs : List TraceEvent)
    (hs : Step hooks.db vm evs vm')
    (htable : ∀ pc ins rest fr outer, evs = .instruction pc ins :: rest → vm.frames = fr :: outer →
      ins.NeedsTable → storedModule hooks.db fr = some fr.code)
    (hsafe : Careful U vm w evs vm') (hagree : (∀ e, U e) ∨ Agrees I vm'.calls) :
    Advances hooks I U vm' w evs := by
  cases hs with
  | exec vm₁ fr outer pc ins ops res rest popped results accesses hfr hst hr hp hm hpure ht =>
    refine follows_exec hq hf vm₁ fr outer pc ins ops res rest popped results accesses hfr hst hr hp
      hm hpure ht (htable pc ins _ fr outer rfl hfr) (hsafe.pushed pc ins _ rfl) fun hw => ?_
    have hkept := hsafe.kept (.write pc ins _ hw)
    rw [taken_exec _ pc ins popped results accesses hm.reported, hp, hst, List.drop_left] at hkept
    exact keeps_stack _ _ _ hkept
  | moveLoc fr outer pc idx r t hfr hl ht hb =>
    exact follows_moveLoc hq hf fr outer pc idx r t hfr hl ht hb
  | stLoc fr outer pc idx r rest t popped hfr hst ht hb =>
    exact follows_stLoc hq hf fr outer pc idx r rest t popped hfr hst ht hb
  | call fr outer pc ins frame callee params rest hfr hi hst ho hn =>
    exact follows_call hq hf fr outer pc ins frame callee params rest hfr hi hst ho hn
  | callNative vm₁ fr outer pc ins frame callee params res rest results inside outside hfr hi hst
      ho hn hm hret ht =>
    refine follows_callNative hq hf vm₁ fr outer pc ins frame callee params res rest results inside
      outside hfr hi hst ho hn hm hret ht ?_
    have hkept := hsafe.kept (.native pc ins frame _ hn)
    rw [taken_native _ pc callee.id ins frame results inside outside hm.reported,
      ho.params.length_eq, hst, ← List.length_reverse, List.drop_left, List.length_reverse] at hkept
    exact keeps_stack _ _ _ hkept
  | ret fr outer pc hfr => exact follows_ret hq hf fr outer pc hfr
  | moveCall loaded frame callee params hfr ho hty hn =>
    exact follows_moveCall hf loaded frame callee params hfr ho hty hagree
  | moveCallNative vm₁ loaded frame callee params res results inside outside hfr ho hn hm ht =>
    exact follows_moveCallNative hf vm₁ loaded frame callee params res results inside outside hfr ho
      hm
  | other => exact follows_other hf

end Steps

/-! ### What the handler of an instruction does

Without assumptions on the state of the tracer. -/

section Handler

variable {σ φ : Type} {hooks : Hooks σ φ} {w w' : MovySuiTracerWrapper σ φ}

theorem traceInstruction_eq (t : SuiFuzzTracer σ φ) (s : TraceState) (ins : Bytecode) :
    t.traceInstruction s ins =
      ((t.currentFunctions.head?.map fun f =>
        fromResolver ins t.resolver f.1 f.2.moduleId).getD (some none)).bind fun extra =>
      (if t.skipConcolic = true then some (t.concolic, none)
        else t.concolic.onBeforeInstructionInner ins s extra).bind fun r =>
      some (({ t with concolic := r.1 } : SuiFuzzTracer σ φ).logInstruction s ins r.2) := by
  unfold SuiFuzzTracer.traceInstruction
  cases t.currentFunctions.head? <;> by_cases hs : t.skipConcolic = true <;>
    simp only [hs, Option.bind_eq_bind, Option.map_none, Option.map_some, Option.getD_none,
      Option.getD_some, if_true, Bool.false_eq_true, if_false]

theorem traceInstruction_cases (t t' : SuiFuzzTracer σ φ) (s : TraceState) (ins : Bytecode)
    (h : t.traceInstruction s ins = some t') :
    ∃ extra c k, (∀ pkg f rest, t.currentFunctions = (pkg, f) :: rest →
        fromResolver ins t.resolver pkg f.moduleId = some extra) ∧
      (t.skipConcolic = true → c = t.concolic ∧ k = none) ∧
      (t.skipConcolic = false → t.concolic.onBeforeInstructionInner ins s extra = some (c, k)) ∧
      t'.concolic = c ∧ LogsFrom t.logs t'.logs ins k := by
  simp only [traceInstruction_eq, Option.bind_eq_some_iff] at h
  obtain ⟨extra, hx, ⟨c, k⟩, hc, h⟩ := h
  cases h
  have hfields := logInstruction_fields ({ t with concolic := c } : SuiFuzzTracer σ φ) s ins k
  refine ⟨extra, c, k, ?_, ?_, ?_, hfields.1, logsFrom_logInstruction _ s ins k⟩
  · intro pkg f rest hfn
    rw [hfn] at hx
    exact hx
  · intro hskip
    rw [if_pos hskip] at hc
    cases hc
    exact ⟨rfl, rfl⟩
  · intro hskip
    rw [if_neg (by simp [hskip])] at hc
    exact hc

theorem Hooks.oracle_cases (hooks : Hooks σ φ) (o : σ) (pc : ℕ) (ins : Bytecode) (s : TraceState)
    (c : ConcolicState) (f : FunctionIdent) :
    (∃ o', hooks.oracle o pc ins s c f = (o', none) ∧ ¬hooks.Quiet) ∨
      ∃ o' found, hooks.oracle o pc ins s c f = (o', some found) := by
  cases h : hooks.oracle o pc ins s c f with
  | mk o' found =>
    cases found with
    | none =>
      refine .inl ⟨o', rfl, fun hq => ?_⟩
      have hsome := hq o pc ins s c f
      rw [h] at hsome
      cases hsome
    | some found => exact .inr ⟨o', found, rfl⟩

theorem beforeInstruction_cases (t t' : SuiFuzzTracer σ φ) (s : TraceState) (pc : ℕ)
    (ins : Bytecode) (h : t.beforeInstruction hooks s pc ins = some t') :
    t'.concolic = t.concolic ∧ t'.logs = t.logs ∧ ¬hooks.Quiet ∨
      ∃ o b l, ({ t with oracles := o, crash := b, findings := l } :
        SuiFuzzTracer σ φ).traceInstruction s ins = some t' := by
  unfold SuiFuzzTracer.beforeInstruction at h
  cases hfn : t.currentFunctions.head? with
  | none =>
    rw [hfn] at h
    exact .inr ⟨t.oracles, t.crash, t.findings, h⟩
  | some f =>
    rw [hfn] at h
    have hor := hooks.oracle_cases t.oracles pc ins s t.concolic f.2
    rcases hor with ⟨o, ho, hnq⟩ | ⟨o, found, ho⟩
    · simp only [ho] at h
      cases h
      exact .inl ⟨rfl, rfl, hnq⟩
    · simp only [ho] at h
      exact .inr ⟨_, _, _, h⟩

/- The handlers of the other events leave the logs alone. -/
theorem notify_logs (ev : TraceEvent) (hev : ∀ pc ins, .instruction pc ins ≠ ev)
    (h : w.notify hooks ev = some w') : w'.tracer.logs = w.tracer.logs := by
  simp only [notify, Option.bind_eq_bind, Option.bind_eq_some_iff] at h
  obtain ⟨t, ht, s, _, h⟩ := h
  cases h
  show t.logs = w.tracer.logs
  cases ev with
  | external e =>
    cases e with
    | other => cases ht; rfl
    | moveCallStart =>
      cases ht
      unfold SuiFuzzTracer.onMoveCall
      split <;> rfl
  | openFrame frame => cases ht; rfl
  | closeFrame id => cases ht; rfl
  | effect e => cases ht; rfl
  | instruction pc ins => exact absurd rfl (hev pc ins)

/- The engine and the logs after an instruction. -/
theorem notify_instruction_cases (pc : ℕ) (ins : Bytecode)
    (h : w.notify hooks (.instruction pc ins) = some w') :
    (w'.tracer.concolic.disable = true ∨ ¬hooks.Quiet ∨
      ∃ extra k, (∀ pkg f rest, w.tracer.currentFunctions = (pkg, f) :: rest →
          fromResolver ins w.tracer.resolver pkg f.moduleId = some extra) ∧
        w.tracer.concolic.shadowInstruction ins w.state.operandStack extra =
          some (w'.tracer.concolic, k)) ∧
      ∀ f lhs rhs op e, .cmpLog lhs rhs op (some e) ∈ w'.tracer.logs f →
        .cmpLog lhs rhs op (some e) ∈ w.tracer.logs f ∨ w.tracer.concolic.disable = false ∧
          ins = op.code ∧ ∃ extra c,
            w.tracer.concolic.shadowInstruction ins w.state.operandStack extra =
              some (c, some e) := by
  simp only [notify, Option.bind_eq_bind, Option.bind_eq_some_iff] at h
  obtain ⟨t, ht, s, _, h⟩ := h
  cases h
  -- the check of the heights, before the handler
  have hraw : (w.tracer.onRawEvent w.state (.instruction pc ins) =
        { w.tracer with skipConcolic := false } ∧
      w.tracer.concolic.disable = false ∧
      w.tracer.concolic.stack.length = w.state.operandStack.length) ∨
      (w.tracer.onRawEvent w.state (.instruction pc ins)).skipConcolic = true ∧
        (w.tracer.onRawEvent w.state (.instruction pc ins)).concolic.disable = true := by
    unfold SuiFuzzTracer.onRawEvent onRawEventInner
    cases hd : w.tracer.concolic.disable with
    | true => exact .inr ⟨by simp, by simp [hd]⟩
    | false =>
      by_cases hh : w.tracer.concolic.stack.length = w.state.operandStack.length
      · exact .inl ⟨by simp [hh], rfl, hh⟩
      · exact .inr ⟨by simp [hh], by simp [hh]⟩
  have hlogs₀ : (w.tracer.onRawEvent w.state (.instruction pc ins)).logs = w.tracer.logs := rfl
  rcases beforeInstruction_cases _ t w.state pc ins ht with ⟨_, hl, hnq⟩ | ⟨o, b, l, ht⟩
  · exact ⟨.inr (.inl hnq), fun f lhs rhs op e hmem => .inl (by rwa [hl] at hmem)⟩
  obtain ⟨extra, c, k, hx, hskip, hbefore, hc, hlogs⟩ := traceInstruction_cases _ t w.state ins ht
  rcases hraw with ⟨hkeep, hd, hh⟩ | ⟨hs, hd⟩
  · rw [hkeep] at hx hbefore hlogs
    have hshadow := hbefore rfl
    rw [onBeforeInstructionInner, if_neg (by simp [hd, hh])] at hshadow
    refine ⟨.inr (.inr ⟨extra, k, hx, hc.symm ▸ hshadow⟩), fun f lhs rhs op e hmem => ?_⟩
    rcases hlogs f lhs rhs op e hmem with hold | ⟨hop, rfl⟩
    · exact .inl hold
    · exact .inr ⟨hd, hop, extra, c, hshadow⟩
  · obtain ⟨rfl, rfl⟩ := hskip hs
    refine ⟨.inl (hc ▸ hd), fun f lhs rhs op e hmem => ?_⟩
    rcases hlogs f lhs rhs op e hmem with hold | ⟨_, hk⟩
    · exact .inl hold
    · cases hk

/- A comparison log with a constraint is old, or the engine returned it for the
instruction these events start with. -/
def Logged (w : MovySuiTracerWrapper σ φ) (evs : List TraceEvent)
    (w' : MovySuiTracerWrapper σ φ) : Prop :=
  ∀ f lhs rhs op e, .cmpLog lhs rhs op (some e) ∈ w'.tracer.logs f →
    .cmpLog lhs rhs op (some e) ∈ w.tracer.logs f ∨ w.tracer.concolic.disable = false ∧
      ∃ pc rest extra c, evs = .instruction pc op.code :: rest ∧
        w.tracer.concolic.shadowInstruction op.code w.state.operandStack extra = some (c, some e)

def NoInstruction (evs : List TraceEvent) : Prop := ∀ pc ins, .instruction pc ins ∉ evs

theorem run_logs (evs : List TraceEvent) (hev : NoInstruction evs)
    (h : run (notify hooks) w evs = some w') : w'.tracer.logs = w.tracer.logs := by
  induction evs generalizing w with
  | nil => cases h; rfl
  | cons ev rest ih =>
    obtain ⟨w₁, hw₁, hrest⟩ := run_cons _ _ _ _ _ h
    have hne : ∀ pc ins, .instruction pc ins ≠ ev := fun pc ins heq =>
      hev pc ins (heq ▸ List.mem_cons_self ..)
    exact (ih (fun pc ins hmem => hev pc ins (List.mem_cons_of_mem _ hmem)) hrest).trans
      (notify_logs ev hne hw₁)

theorem run_logged (evs : List TraceEvent) (hev : NoInstruction evs.tail)
    (h : run (notify hooks) w evs = some w') : Logged w evs w' := by
  intro f lhs rhs op e hmem
  cases evs with
  | nil =>
    cases h
    exact .inl hmem
  | cons ev rest =>
    obtain ⟨w₁, hw₁, hrest⟩ := run_cons _ _ _ _ _ h
    rw [run_logs rest hev hrest] at hmem
    by_cases hins : ∃ pc ins, TraceEvent.instruction pc ins = ev
    · obtain ⟨pc, ins, rfl⟩ := hins
      rcases (notify_instruction_cases pc ins hw₁).2 f lhs rhs op e hmem with
        hold | ⟨hd, rfl, extra, c, hshadow⟩
      · exact .inl hold
      · exact .inr ⟨hd, pc, rest, extra, c, rfl, hshadow⟩
    · rw [notify_logs ev (fun pc ins heq => hins ⟨pc, ins, heq⟩) hw₁] at hmem
      exact .inl hmem

end Handler

/-! ### The engine turned off -/

section Disabled

variable {σ φ : Type} {hooks : Hooks σ φ} {w w' : MovySuiTracerWrapper σ φ}

theorem disabled_notify (hd : w.tracer.concolic.disable = true) (ev : TraceEvent)
    (h : w.notify hooks ev = some w') : w'.tracer.concolic.disable = true := by
  have hraw : w.tracer.onRawEvent w.state ev = { w.tracer with skipConcolic := true } := by
    simp only [SuiFuzzTracer.onRawEvent, onRawEventInner, hd, if_true, Bool.not_false]
  simp only [notify, hraw, Option.bind_eq_bind, Option.bind_eq_some_iff] at h
  obtain ⟨t, ht, s, _, h⟩ := h
  cases h
  show t.concolic.disable = true
  cases ev with
  | external e => cases e <;> cases ht <;> exact hd
  | openFrame frame => cases ht; exact hd
  | closeFrame id => cases ht; exact hd
  | effect e => cases ht; exact hd
  | instruction pc ins =>
    rcases beforeInstruction_cases _ t w.state pc ins ht with ⟨hc, _, _⟩ | ⟨o, b, l, ht⟩
    · exact hc ▸ hd
    · obtain ⟨_, c, k, _, hskip, _, hc, _⟩ := traceInstruction_cases _ t w.state ins ht
      obtain ⟨rfl, _⟩ := hskip rfl
      exact hc ▸ hd

theorem disabled_run (hd : w.tracer.concolic.disable = true) (evs : List TraceEvent)
    (h : run (notify hooks) w evs = some w') : w'.tracer.concolic.disable = true := by
  induction evs generalizing w with
  | nil =>
    cases h
    exact hd
  | cons ev rest ih =>
    obtain ⟨w₁, hw₁, hrest⟩ := run_cons _ _ _ _ _ h
    exact ih (disabled_notify hd ev hw₁) hrest

/- Without its tables, an instruction that needs them does not get past the
engine or turns it off. -/
theorem shadow_missing (c c' : ConcolicState) (ins : Bytecode) (stack : List TraceValue)
    (k : Option ZBool) (hn : ins.NeedsTable)
    (h : c.shadowInstruction ins stack none = some (c', k)) : c'.disable = true := by
  cases hn with
  | pack g idx => cases g <;> cases h
  | unpack g idx => cases g <;> cases h
  | packVariant g idx => cases g <;> cases h
  | unpackVariant g idx => cases g <;> cases h <;> rfl
  | unpackVariantRef m g idx => cases m <;> cases g <;> cases h <;> rfl

theorem resolver_missing (resolver : PackageResolvedCache) (fr : VmFrame) (ins : Bytecode)
    (hn : ins.NeedsTable) (h : resolver.moduleRef fr.code.selfId fr.versionId = none) :
    fromResolver ins resolver fr.versionId fr.code.selfId = some none := by
  have hlookup : ∀ count make,
      lookup resolver fr.versionId fr.code.selfId count make = some none := by
    intro count make
    rw [lookup, h]
  cases hn with
  | pack g idx => cases g <;> exact hlookup _ _
  | unpack g idx => cases g <;> exact hlookup _ _
  | packVariant g idx => cases g <;> exact hlookup _ _
  | unpackVariant g idx => cases g <;> exact hlookup _ _
  | unpackVariantRef m g idx => cases m <;> cases g <;> exact hlookup _ _

theorem missing_table {I : Interp ArgVar} {U : ZInt → Prop} {vm : Vm} (hq : hooks.Quiet)
    (hf : Follows hooks I U vm w) (fr : VmFrame) (outer : List VmFrame)
    (hfr : vm.frames = fr :: outer) (pc : ℕ) (ins : Bytecode) (hn : ins.NeedsTable)
    (hm : storedModule hooks.db fr = none) (h : w.notify hooks (.instruction pc ins) = some w') :
    w'.tracer.concolic.disable = true := by
  rcases (notify_instruction_cases pc ins h).1 with hd | hnq | ⟨extra, k, hx, hshadow⟩
  · exact hd
  · exact absurd hq hnq
  · have hmod : w.tracer.resolver.moduleRef fr.code.selfId fr.versionId = none :=
      (moduleRef_eq hf fr (by simp [hfr])).trans hm
    have hextra := (resolver_missing w.tracer.resolver fr ins hn hmod).symm.trans
      (hx _ _ (outer.map VmFrame.ident) (by rw [hf.functions, hfr]; rfl))
    cases hextra
    exact shadow_missing _ _ ins _ k hn hshadow

end Disabled

/-! ### Runs -/

section Runs

variable {σ φ : Type} (hooks : Hooks σ φ) (o : σ)

/- The states of the VM and of the tracer that a run can reach if all of its
steps meet a condition. -/
inductive Traced (G : Vm → MovySuiTracerWrapper σ φ → List TraceEvent → Vm → Prop) :
    Vm → MovySuiTracerWrapper σ φ → Prop
  | start : Traced G Vm.start (new o)
  | step (vm vm' : Vm) (w w' : MovySuiTracerWrapper σ φ) (evs : List TraceEvent)
      (h : Traced G vm w) (hs : Step hooks.db vm evs vm')
      (hn : run (notify hooks) w evs = some w') (hg : G vm w evs vm') : Traced G vm' w'

variable {hooks o} {I : Interp ArgVar} {U : ZInt → Prop} {vm vm' : Vm}
  {w w' : MovySuiTracerWrapper σ φ} {G : Vm → MovySuiTracerWrapper σ φ → List TraceEvent → Vm → Prop}

theorem follows_start : Follows hooks I U Vm.start (new o) where
  enabled := rfl
  functions := rfl
  filled _ := .inl rfl
  loaded _ h := by cases h
  stored _ h := by cases h
  calls := rfl
  locals := .nil
  shown h := absurd rfl h
  fits h := absurd rfl h
  mirrors := mirrors_start

/- The arguments of earlier calls stay. -/
theorem step_calls {db : PackageStore} (evs : List TraceEvent) (h : Step db vm evs vm') :
    vm.calls <+: vm'.calls := by
  cases h with
  | exec vm₁ fr outer pc ins ops res rest popped results accesses hfr hst hr hp hm hpure ht =>
    have hcalls : vm₁.calls = vm.calls := hm.calls
    exact hcalls ▸ List.prefix_rfl
  | callNative vm₁ fr outer pc ins frame callee params res rest results inside outside hfr hi hst
      ho hn hm hret ht =>
    have hcalls : vm₁.calls = vm.calls := hm.calls
    exact hcalls ▸ List.prefix_rfl
  | moveCall loaded frame callee params hfr ho hty hn => exact List.prefix_append _ _
  | moveCallNative vm₁ loaded frame callee params res results inside outside hfr ho hn hm ht =>
    have hcalls : vm₁.calls = vm.calls ++ [params] := hm.calls
    exact hcalls ▸ List.prefix_append _ _
  | _ => exact List.prefix_rfl

theorem agrees_earlier (calls calls' : List (List RtValue)) (h : Agrees I calls')
    (hp : calls <+: calls') : Agrees I calls := by
  obtain ⟨more, rfl⟩ := hp
  intro k i params v p hk
  refine h k i params v p ?_
  rw [List.getElem?_append_left (List.getElem?_eq_some_iff.mp hk).1]
  exact hk

theorem follows_or_disabled (hq : hooks.Quiet)
    (h : Follows hooks I U vm w ∨ w.tracer.concolic.disable = true) (evs : List TraceEvent)
    (hs : Step hooks.db vm evs vm') (hn : run (notify hooks) w evs = some w')
    (hsafe : Careful U vm w evs vm') (hagree : (∀ e, U e) ∨ Agrees I vm'.calls) :
    Follows hooks I U vm' w' ∨ w'.tracer.concolic.disable = true := by
  rcases h with hf | hd
  · by_cases htable : ∀ pc ins rest fr outer, evs = .instruction pc ins :: rest →
        vm.frames = fr :: outer → ins.NeedsTable → storedModule hooks.db fr = some fr.code
    · obtain ⟨w₁, hw₁, hf₁⟩ := follows_step hq hf evs hs htable hsafe hagree
      cases hn.symm.trans hw₁
      exact .inl hf₁
    · push Not at htable
      obtain ⟨pc, ins, rest, fr, outer, rfl, hfr, hneeds, hne⟩ := htable
      have hmissing := (hf.stored fr (by simp [hfr])).resolve_left hne
      obtain ⟨w₁, hw₁, hrest⟩ := run_cons _ _ _ _ _ hn
      exact .inr (disabled_run (missing_table hq hf fr outer hfr pc ins hneeds hmissing hw₁) rest
        hrest)
  · exact .inr (disabled_run hd evs hn)

/- The run lemma. -/
theorem traced_follows (hq : hooks.Quiet) (h : Traced hooks o G vm w)
    (hG : ∀ vm w evs vm', G vm w evs vm' → Careful U vm w evs vm') (hI : Agrees I vm.calls) :
    Follows hooks I U vm w ∨ w.tracer.concolic.disable = true := by
  induction h with
  | start => exact .inl follows_start
  | step vm vm' w w' evs h hs hn hg ih =>
    have hprev := ih (agrees_earlier vm.calls vm'.calls hI (step_calls evs hs))
    exact follows_or_disabled hq hprev evs hs hn (hG vm w evs vm' hg) (.inr hI)

end Runs

end Movy.Tracer
