import Movy.Tracer.Lockstep

/-!
# The terms of the shadow state

A term on the shadow stack or in a symbolic local should have the value of the
primitive at its position. It does in every run that avoids four things: a
comparison with a term that comes out false, a bit operation on 256 bits with
a term, a comparison with a term of a reference whose snapshot is outdated, and
a write through a reference to a value that some term stands for.
-/

namespace Movy.Tracer

open ConcolicState MovySuiTracerWrapper InstructionExtraInformation

variable {σ φ : Type}

/- The values of the terms at an instruction: those on the stack and those in the
live locals of the innermost frame. -/
structure SymbolsSound (I : Interp ArgVar) (vm : Vm) (c : ConcolicState) : Prop where
  stack : ∀ (i : ℕ) e, c.stack[i]? = some (.value e) →
    ∃ r p, vm.stack[i]? = some r ∧ vm.primOf r = some p ∧ e.eval I = p.asU256
  locals : ∀ fr outer locals louter (i : ℕ) e r, vm.frames = fr :: outer →
    c.locals = locals :: louter → locals[i]? = some (SymbolValue.value e) →
    vm.locals fr.id i = some r → ∃ p, vm.primOf r = some p ∧ e.eval I = p.asU256

/- The symbols from which a comparison, a bit operation or a shift makes a term. -/
inductive PushesTerm : Bytecode → List SymbolValue → Prop
  | compare (op : CmpOp) (sl sr : SymbolValue) (rest : List SymbolValue)
      (h : sl ≠ .unknown ∨ sr ≠ .unknown) : PushesTerm op.code (sr :: sl :: rest)
  | bitLeft (op : BitOp) (e : ZInt) (rest : List SymbolValue) :
      PushesTerm op.code (.unknown :: .value e :: rest)
  | bitRight (op : BitOp) (e : ZInt) (rest : List SymbolValue) :
      PushesTerm op.code (.value e :: .unknown :: rest)
  | shl (e : ZInt) (rest : List SymbolValue) : PushesTerm .shl (.unknown :: .value e :: rest)

/- A step that keeps the terms right. -/
structure Faithful (vm : Vm) (w : MovySuiTracerWrapper σ φ) (evs : List TraceEvent) (vm' : Vm) :
    Prop where
  pushed : ∀ pc ins rest, evs = .instruction pc ins :: rest →
    Exempt vm ins w.state.operandStack vm.stack vm'.stack →
    ¬PushesTerm ins w.tracer.concolic.stack
  kept : MemoryStep evs → Keeps (fun _ => False) (w.tracer.concolic.stack.drop (taken evs))
    w.tracer.concolic.locals { vm with stack := vm.stack.drop (taken evs) } vm'

/-! ### Instructions that push no term -/

theorem compare_unknown (op : CmpOp) (c c' : ConcolicState) (stack : List TraceValue)
    (extra : Option InstructionExtraInformation) (k : Option ZBool)
    (hc : ¬PushesTerm op.code c.stack)
    (h : c.shadowInstruction op.code stack extra = some (c', k)) :
    c'.stack.head? = some .unknown := by
  have hproc : c.processBinaryOp stack = none → c.shadowInstruction op.code stack extra = none := by
    intro hnone
    cases op <;>
      simp only [CmpOp.code, shadowInstruction, cmpInstruction, neqInstruction, hnone,
        Option.bind_eq_bind, Option.bind_none]
  rcases hs : c.stack with - | ⟨sr, - | ⟨sl, rest⟩⟩
  · simp [hproc (by simp [processBinaryOp, pop2, hs])] at h
  · simp [hproc (by simp [processBinaryOp, pop2, hs])] at h
  rcases stack with - | ⟨tr, - | ⟨tl, trest⟩⟩
  · simp [hproc (by simp [processBinaryOp, pop2, hs, stackTop2])] at h
  · simp [hproc (by simp [processBinaryOp, pop2, hs, stackTop2])] at h
  · have hboth : sl = .unknown ∧ sr = .unknown := by
      by_contra hne
      rw [hs] at hc
      refine hc (.compare op sl sr rest ?_)
      by_cases hl : sl = .unknown
      · exact .inr fun hr => hne ⟨hl, hr⟩
      · exact .inl hl
    obtain ⟨rfl, rfl⟩ := hboth
    rw [compare_shadow_unknown op c rest tl tr trest extra hs] at h
    cases h
    rfl

theorem bit_unknown (op : BitOp) (c c' : ConcolicState) (stack : List TraceValue)
    (extra : Option InstructionExtraInformation) (k : Option ZBool)
    (hc : ¬PushesTerm op.code c.stack)
    (h : c.shadowInstruction op.code stack extra = some (c', k)) :
    c'.stack.head? = some .unknown := by
  rw [shadow_bit] at h
  simp only [bitInstruction, Option.bind_eq_bind, Option.bind_eq_some_iff] at h
  obtain ⟨⟨lhs, rhs, c₁⟩, hpop, ⟨tl, tr⟩, _, bits, _, a, _, b, _, h⟩ := h
  rcases hs : c.stack with - | ⟨sr, - | ⟨sl, rest⟩⟩
  · simp [pop2, hs] at hpop
  · simp [pop2, hs] at hpop
  · simp only [pop2, hs, Option.some.injEq, Prod.mk.injEq] at hpop
    obtain ⟨rfl, rfl, rfl⟩ := hpop
    cases sl with
    | unknown =>
      cases sr with
      | unknown => cases h; rfl
      | value e => exact absurd (hs ▸ .bitRight op e rest) hc
    | value l =>
      cases sr with
      | unknown => exact absurd (hs ▸ .bitLeft op l rest) hc
      | value r => cases h; rfl

theorem shl_unknown (c c' : ConcolicState) (stack : List TraceValue)
    (extra : Option InstructionExtraInformation) (k : Option ZBool)
    (hc : ¬PushesTerm .shl c.stack) (h : c.shadowInstruction .shl stack extra = some (c', k)) :
    c'.stack.head? = some .unknown := by
  change c.shlInstruction stack = _ at h
  simp only [shlInstruction, Option.bind_eq_bind, Option.bind_eq_some_iff] at h
  obtain ⟨⟨lhs, rhs, c₁⟩, hpop, ⟨tl, tr⟩, _, bits, _, a, _, m, _, h⟩ := h
  rcases hs : c.stack with - | ⟨sr, - | ⟨sl, rest⟩⟩
  · simp [pop2, hs] at hpop
  · simp [pop2, hs] at hpop
  · simp only [pop2, hs, Option.some.injEq, Prod.mk.injEq] at hpop
    obtain ⟨rfl, rfl, rfl⟩ := hpop
    cases sl with
    | unknown => cases sr <;> cases h <;> rfl
    | value l =>
      cases sr with
      | unknown => exact absurd (hs ▸ .shl l rest) hc
      | value r => cases h; rfl

theorem exempt_unknown (vm : Vm) (ins : Bytecode) (ts : List TraceValue) (rs rs' : List RtValue)
    (hex : Exempt vm ins ts rs rs') (c c' : ConcolicState) (stack : List TraceValue)
    (extra : Option InstructionExtraInformation) (k : Option ZBool) (hc : ¬PushesTerm ins c.stack)
    (h : c.shadowInstruction ins stack extra = some (c', k)) :
    c'.stack.head? = some .unknown := by
  cases hex with
  | wide op => exact bit_unknown op c c' stack extra k hc h
  | wideShl => exact shl_unknown c c' stack extra k hc h
  | failed op => exact compare_unknown op c c' stack extra k hc h
  | stale op => exact compare_unknown op c c' stack extra k hc h

theorem careful_of_faithful (vm vm' : Vm) (w : MovySuiTracerWrapper σ φ) (evs : List TraceEvent)
    (h : Faithful vm w evs vm') : Careful (fun _ => False) vm w evs vm' where
  pushed pc ins rest hev hex extra c' k e hshadow hhead := by
    have hunknown := exempt_unknown vm ins _ _ _ hex _ c' _ extra k (h.pushed pc ins rest hev hex)
      hshadow
    rw [hunknown] at hhead
    cases hhead
  kept := h.kept

/-! ### Whole runs -/

theorem fits_value (I : Interp ArgVar) (vm : Vm) (e : ZInt) (r : RtValue)
    (h : Fits I (fun _ => False) vm (.value e) r) :
    ∃ p, vm.primOf r = some p ∧ e.eval I = p.asU256 := by
  obtain ⟨p, hp, hm⟩ := h e rfl
  exact ⟨p, hp, hm (IntTerm.avoids_empty _ (fun _ => id) e)⟩

theorem symbolsSound_of_follows (hooks : Hooks σ φ) (I : Interp ArgVar) (vm : Vm)
    (w : MovySuiTracerWrapper σ φ) (hf : Follows hooks I (fun _ => False) vm w)
    (hne : vm.frames ≠ []) : SymbolsSound I vm w.tracer.concolic where
  stack i e he := by
    have hlen := (hf.fits hne).length_eq
    obtain ⟨hi, hget⟩ := List.getElem?_eq_some_iff.mp he
    have hfit := (List.forall₂_iff_get.mp (hf.fits hne)).2 i hi (hlen ▸ hi)
    simp only [List.get_eq_getElem, hget] at hfit
    obtain ⟨p, hp, hev⟩ := fits_value I vm e _ hfit
    exact ⟨_, p, List.getElem?_eq_getElem (hlen ▸ hi), hp, hev⟩
  locals fr outer locals louter i e r hfr hl he hr := by
    have hlocals := hf.locals
    rw [hfr, hl] at hlocals
    cases hlocals with
    | cons hfit _ => exact fits_value I vm e r (hfit i _ r he hr)

/- In every run whose steps keep the terms right, the terms are right at every
instruction at which the engine is on. -/
theorem traced_symbolsSound (hooks : Hooks σ φ) (o : σ) (hq : hooks.Quiet) (vm : Vm)
    (w : MovySuiTracerWrapper σ φ) (h : Traced hooks o Faithful vm w) (hne : vm.frames ≠ [])
    (hd : w.tracer.concolic.disable = false) (I : Interp ArgVar) (hI : Agrees I vm.calls) :
    SymbolsSound I vm w.tracer.concolic := by
  have hG : ∀ (vm : Vm) (w : MovySuiTracerWrapper σ φ) evs vm', Faithful vm w evs vm' →
      Careful (fun _ => False) vm w evs vm' := fun vm w evs vm' h =>
    careful_of_faithful vm vm' w evs h
  rcases traced_follows hq h hG hI with hf | hdis
  · exact symbolsSound_of_follows hooks I vm w hf hne
  · rw [hd] at hdis
    cases hdis

/-! ### Comparing 1 with 2, and 2 with 1 -/

section Sample

variable (x y : Fin (2 ^ IntWidth.w64.bits))

def sampleTracer (evs : List TraceEvent) : MovySuiTracerWrapper Unit Unit :=
  (run (notify sampleHooks) (new ()) evs).getD (new ())

theorem sampleTracer_append (evs more : List TraceEvent)
    (h : (run (notify sampleHooks) (new ()) (evs ++ more)).isSome = true) :
    run (notify sampleHooks) (sampleTracer evs) more = some (sampleTracer (evs ++ more)) := by
  unfold sampleTracer
  rw [run_append] at h ⊢
  cases hevs : run (notify sampleHooks) (new ()) evs with
  | none =>
    rw [hevs] at h
    cases h
  | some w =>
    rw [hevs] at h
    obtain ⟨v, hv⟩ := Option.isSome_iff_exists.mp h
    have hv : run (notify sampleHooks) w more = some v := hv
    simp only [Option.bind_some, Option.getD_some, hv]

def sampleArguments : List TraceEvent := sampleCall x y ++ sampleMove x 0 ++ sampleMove y 1

def sampleInterp : Interp ArgVar where
  var v := if v.2 = 0 then x.val else y.val
  div0 := id
  rem0 := id
  mod0 := id

theorem sample_agrees (b : Bool) : Agrees (sampleInterp x y) (sampleDone x y b).calls := by
  intro k i params v p hk hi hp
  match k with
  | 0 =>
    cases hk
    match i with
    | 0 => cases hi; cases hp; rfl
    | 1 => cases hi; cases hp; rfl
    | _ + 2 => cases hi
  | _ + 1 => cases hk

theorem sample_traced (G : Vm → MovySuiTracerWrapper Unit Unit → List TraceEvent → Vm → Prop)
    (op : CmpOp) (b : Bool) (w : MovySuiTracerWrapper Unit Unit)
    (h : Runs (sampleBoth x y) sampleCallee op.code
      [.val (.int .w64 y), .val (.int .w64 x)] (some [.val (.bool b)]))
    (hw : run (notify sampleHooks) (sampleTracer (sampleArguments x y)) (sampleCompare x y op b) =
      some w)
    (h₁ : G Vm.start (new ()) (sampleCall x y) (sampleCalled x y))
    (h₂ : G (sampleCalled x y) (sampleTracer (sampleCall x y)) (sampleMove x 0) (sampleLeft x y))
    (h₃ : G (sampleLeft x y) (sampleTracer (sampleCall x y ++ sampleMove x 0)) (sampleMove y 1)
      (sampleBoth x y))
    (h₄ : G (sampleBoth x y) (sampleTracer (sampleArguments x y)) (sampleCompare x y op b)
      (sampleDone x y b)) : Traced sampleHooks () G (sampleDone x y b) w := by
  have ht₁ : Traced sampleHooks () G (sampleCalled x y) (sampleTracer (sampleCall x y)) :=
    .step _ _ _ _ _ .start (sample_step_call x y) rfl h₁
  have ht₂ : Traced sampleHooks () G (sampleLeft x y)
      (sampleTracer (sampleCall x y ++ sampleMove x 0)) :=
    .step _ _ _ _ _ ht₁ (sample_step_left x y) (sampleTracer_append _ _ rfl) h₂
  have ht₃ : Traced sampleHooks () G (sampleBoth x y) (sampleTracer (sampleArguments x y)) :=
    .step _ _ _ _ _ ht₂ (sample_step_both x y) (sampleTracer_append _ _ rfl) h₃
  exact .step _ _ _ _ _ ht₃ (sample_step_compare x y op b h) hw h₄

theorem exempt_code (vm : Vm) (ins : Bytecode) (ts : List TraceValue) (rs rs' : List RtValue)
    (h : Exempt vm ins ts rs rs') :
    (∃ op : BitOp, ins = op.code) ∨ ins = .shl ∨ ∃ op : CmpOp, ins = op.code := by
  cases h with
  | wide op => exact .inl ⟨op, rfl⟩
  | wideShl => exact .inr (.inl rfl)
  | failed op => exact .inr (.inr ⟨op, rfl⟩)
  | stale op => exact .inr (.inr ⟨op, rfl⟩)

theorem faithful_call (vm vm' : Vm) (w : MovySuiTracerWrapper σ φ) :
    Faithful vm w (sampleCall x y) vm' where
  pushed pc ins rest hev := by cases hev
  kept h := by cases h

theorem faithful_move (vm vm' : Vm) (w : MovySuiTracerWrapper σ φ) (idx : ℕ) :
    Faithful vm w (sampleMove x idx) vm' where
  pushed pc ins rest hev hex := by
    cases hev
    rcases exempt_code _ _ _ _ _ hex with ⟨op, hop⟩ | hop | ⟨op, hop⟩
    · cases op <;> cases hop
    · cases hop
    · cases op <;> cases hop
  kept h := by
    cases h with
    | write _ _ _ hw => cases hw

/- Comparing 1 with 2 comes out true, and the pushed term is one. -/
theorem traced_symbolsSound_sample :
    SymbolsSound (sampleInterp 1 2) (sampleDone 1 2 true)
      (sampleTracer (sampleArguments 1 2 ++ sampleCompare 1 2 .lt true)).tracer.concolic := by
  have hfaithful : Faithful (sampleBoth 1 2) (sampleTracer (sampleArguments 1 2))
      (sampleCompare 1 2 .lt true) (sampleDone 1 2 true) := by
    refine ⟨fun pc ins rest hev hex => ?_, fun h => ?_⟩
    · cases hev
      generalize hins : CmpOp.lt.code = ins at hex
      generalize hts : (sampleTracer (sampleArguments 1 2)).state.operandStack = ts at hex
      generalize hrs : (sampleBoth 1 2).stack = rs at hex
      generalize hres : (sampleDone 1 2 true).stack = res at hex
      cases hex with
      | wide op => cases op <;> cases hins
      | wideShl => cases hins
      | failed op => cases hres
      | stale op t u ts r l rest res h =>
        cases hts
        cases hrs
        rcases h with h | h
        · exact absurd rfl h
        · exact absurd rfl h
    · cases h with
      | write _ _ _ hw => cases hw
  exact traced_symbolsSound sampleHooks () sample_quiet _ _
    (sample_traced 1 2 Faithful .lt true _ (.order .lt (by decide) (by decide) .w64 1 2) rfl
      (faithful_call 1 2 _ _ _) (faithful_move 1 _ _ _ 0) (faithful_move 2 _ _ _ 1) hfaithful)
    (List.cons_ne_nil _ _) rfl _ (sample_agrees 1 2 true)

/- Comparing 2 with 1 comes out false, but the pushed term is one as well. -/
theorem symbolsSound_fails :
    ¬∀ (hooks : Hooks Unit Unit) (o : Unit) (vm : Vm) (w : MovySuiTracerWrapper Unit Unit),
      hooks.Quiet → Traced hooks o (fun _ _ _ _ => True) vm w → vm.frames ≠ [] →
      w.tracer.concolic.disable = false → ∀ I, Agrees I vm.calls →
      SymbolsSound I vm w.tracer.concolic := by
  intro hall
  have hsound := hall sampleHooks () (sampleDone 2 1 false)
    (sampleTracer (sampleArguments 2 1 ++ sampleCompare 2 1 .lt false)) sample_quiet
    (sample_traced 2 1 _ .lt false _ (.order .lt (by decide) (by decide) .w64 2 1) rfl trivial
      trivial trivial trivial)
    (List.cons_ne_nil _ _) rfl (sampleInterp 2 1) (sample_agrees 2 1 false)
  obtain ⟨r, p, hr, hp, heval⟩ := hsound.stack 0
    (.ite (.not (.lt (.var (0, 0)) (.var (0, 1)))) (.const 1) (.const 0)) rfl
  cases hr
  cases hp
  exact absurd heval (by decide)

end Sample

end Movy.Tracer
