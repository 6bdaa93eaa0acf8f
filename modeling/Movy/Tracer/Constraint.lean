import Movy.Tracer.Sound

/-!
# The constraints of comparisons

At a comparison with a term the engine returns a constraint, and the tracer logs
it. The run that made it should satisfy it. It does if the terms in it are
right and the trace shows the values that are compared; but `Neq` on equal
operands returns that they differ.
-/

namespace Movy.Tracer

open ConcolicState MovySuiTracerWrapper InstructionExtraInformation

variable {σ φ : Type}

def ConstraintsHold (I : Interp ArgVar) (w : MovySuiTracerWrapper σ φ) : Prop :=
  ∀ f lhs rhs op e, .cmpLog lhs rhs op (some e) ∈ w.tracer.logs f → e.eval I = true

/- A comparison whose constraint can be relied on: its terms are trusted, the
trace shows what its operands stand for, and `Neq` compares different values. -/
structure Comparable (U : ZInt → Prop) (vm : Vm) (op : CmpOp) (sl sr : SymbolValue)
    (tl tr : TraceValue) (l r : RtValue) : Prop where
  left : ∀ e, sl = .value e → e.Avoids U
  right : ∀ e, sr = .value e → e.Avoids U
  shownLeft : extractPrimitiveValue tl = vm.primOf l
  shownRight : extractPrimitiveValue tr = vm.primOf r
  differ : op = .neq → vm.primOf l ≠ vm.primOf r

def ComparesWell (U : ZInt → Prop) (vm : Vm) (w : MovySuiTracerWrapper σ φ)
    (evs : List TraceEvent) : Prop :=
  ∀ pc op rest, evs = .instruction pc (CmpOp.code op) :: rest →
    ∀ sl sr srest tl tr trest l r lrest, w.tracer.concolic.stack = sr :: sl :: srest →
      w.state.operandStack = tr :: tl :: trest → vm.stack = r :: l :: lrest →
      sl ≠ .unknown ∨ sr ≠ .unknown → Comparable U vm op sl sr tl tr l r

/- A step that keeps the trusted terms right and compares well. -/
structure Reliable (U : ZInt → Prop) (vm : Vm) (w : MovySuiTracerWrapper σ φ)
    (evs : List TraceEvent) (vm' : Vm) : Prop where
  careful : Careful U vm w evs vm'
  compared : ComparesWell U vm w evs

/- The states at the end of a run that is reliable, also of one that ends with an
error. -/
inductive Recorded (hooks : Hooks σ φ) (o : σ) (U : ZInt → Prop) :
    Vm → MovySuiTracerWrapper σ φ → Prop
  | running (vm : Vm) (w : MovySuiTracerWrapper σ φ) (h : Traced hooks o (Reliable U) vm w) :
      Recorded hooks o U vm w
  | failed (vm : Vm) (w w' : MovySuiTracerWrapper σ φ) (evs : List TraceEvent)
      (h : Traced hooks o (Reliable U) vm w) (hf : Fails hooks.db vm evs)
      (hn : run (notify hooks) w evs = some w') (hc : ComparesWell U vm w evs) :
      Recorded hooks o U vm w'

/-! ### Comparisons of the VM -/

section Compared

variable {vm vm' : Vm} {db : PackageStore}

theorem runs_compares (fr : VmFrame) (op : CmpOp) (ops : List RtValue)
    (out : Option (List RtValue)) (h : Runs vm fr op.code ops out) :
    ∃ l r b, ops = [r, l] ∧ Compares vm op l r b := by
  generalize hins : op.code = ins at h
  cases h with
  | order op' hne hnn w a b =>
    obtain rfl : op = op' := by cases op <;> cases op' <;> first | rfl | cases hins
    exact ⟨_, _, _, rfl, compares_order op w a b⟩
  | eq l r b hk hb =>
    obtain rfl : op = .eq := by cases op <;> first | rfl | cases hins
    exact ⟨l, r, b, rfl, compares_eq l r b hk hb⟩
  | neq l r b hk hb =>
    obtain rfl : op = .neq := by cases op <;> first | rfl | cases hins
    exact ⟨l, r, b, rfl, compares_neq l r b hk hb⟩
  | arith op' w a b => cases op <;> cases op' <;> cases hins
  | bit op' p q r _ _ _ _ => cases op <;> cases op' <;> cases hins
  | borrowLoc m idx v h => cases op <;> cases m <;> cases hins
  | borrowField m g m' idx i l t fields h => cases op <;> cases m <;> cases g <;> cases hins
  | vecBorrow m m' sig l i vs h => cases op <;> cases m <;> cases hins
  | pack g idx t vs h => cases op <;> cases g <;> cases hins
  | unpack g idx t vs h => cases op <;> cases g <;> cases hins
  | packVariant g idx t tag vs h => cases op <;> cases g <;> cases hins
  | unpackVariant g idx t tag n vs h => cases op <;> cases g <;> cases hins
  | unpackVariantRef m g m' idx n l hit h => cases op <;> cases m <;> cases g <;> cases hins
  | _ => cases op <;> cases hins

structure OnStack (vm : Vm) (op : CmpOp) (l r : RtValue) (lrest : List RtValue) (b : Bool) :
    Prop where
  frames : vm.frames ≠ []
  stack : vm.stack = r :: l :: lrest
  compares : Compares vm op l r b

theorem onStack_of_runs (fr : VmFrame) (outer : List VmFrame) (op : CmpOp)
    (ops rest : List RtValue) (out : Option (List RtValue)) (hf : vm.frames = fr :: outer)
    (hs : vm.stack = ops ++ rest) (h : Runs vm fr op.code ops out) :
    ∃ l r b, OnStack vm op l r rest b := by
  obtain ⟨l, r, b, rfl, hcmp⟩ := runs_compares fr op ops out h
  exact ⟨l, r, b, by simp [hf], hs, hcmp⟩

theorem step_onStack (pc : ℕ) (op : CmpOp) (rest : List TraceEvent)
    (h : Step db vm (.instruction pc op.code :: rest) vm') :
    ∃ l r lrest b, OnStack vm op l r lrest b := by
  generalize hev : TraceEvent.instruction pc op.code :: rest = evs at h
  cases h with
  | exec vm₁ fr outer pc' ins ops res orest popped results accesses hf hst hr hp hm hpure ht =>
    cases hev
    obtain ⟨l, r, b, h⟩ := onStack_of_runs fr outer op ops orest _ hf hst hr
    exact ⟨l, r, orest, b, h⟩
  | moveLoc fr outer pc idx r t hfr hl ht hb => cases op <;> cases hev
  | stLoc fr outer pc idx r rest t popped hfr hst ht hb => cases op <;> cases hev
  | call fr outer pc ins frame callee params rest hf hi hst ho hn =>
    obtain ⟨idx, rfl | rfl⟩ := hi <;> cases op <;> cases hev
  | callNative vm₁ fr outer pc ins frame callee params res rest results inside outside hf hi hst
      ho hn hm hret ht =>
    obtain ⟨idx, rfl | rfl⟩ := hi <;> cases op <;> cases hev
  | ret fr outer pc hf => cases op <;> cases hev
  | moveCall loaded frame callee params hf ho hty hn => cases hev
  | moveCallNative vm₁ loaded frame callee params res results inside outside hf ho hn hm ht =>
    cases hev
  | other => cases hev

theorem fails_onStack (pc : ℕ) (op : CmpOp) (rest : List TraceEvent)
    (h : Fails db vm (.instruction pc op.code :: rest)) :
    ∃ l r lrest b, OnStack vm op l r lrest b := by
  generalize hev : TraceEvent.instruction pc op.code :: rest = evs at h
  cases h with
  | exec fr outer pc' ins ops orest out popped message hf hst hr hp =>
    cases hev
    obtain ⟨l, r, b, h⟩ := onStack_of_runs fr outer op ops orest _ hf hst hr
    exact ⟨l, r, orest, b, h⟩
  | control fr outer pc ins message hf hc => cases hc <;> cases op <;> cases hev
  | native fr outer pc ins frame callee params rest message hf hi hst ho hn =>
    obtain ⟨idx, rfl | rfl⟩ := hi <;> cases op <;> cases hev

end Compared

/-! ### One comparison -/

section Constraint

variable {hooks : Hooks σ φ} {o : σ} {I : Interp ArgVar} {U : ZInt → Prop} {vm vm' : Vm}
  {w w' : MovySuiTracerWrapper σ φ}

theorem fits_trusted (s : SymbolValue) (r : RtValue) (p : PrimitiveValue) (h : Fits I U vm s r)
    (hr : vm.primOf r = some p) (ht : ∀ e, s = .value e → e.Avoids U) (e : ZInt)
    (he : s = .value e) : e.Means I (fun _ => False) p.asU256 := by
  intro _
  exact fits_shown s r p h hr e he (ht e he)

theorem comparable_eval (op : CmpOp) (l r : RtValue) (lrest : List RtValue) (b : Bool)
    (hf : Follows hooks I U vm w) (hon : OnStack vm op l r lrest b)
    (hcmp : ∀ sl sr srest tl tr trest, w.tracer.concolic.stack = sr :: sl :: srest →
      w.state.operandStack = tr :: tl :: trest → sl ≠ .unknown ∨ sr ≠ .unknown →
      Comparable U vm op sl sr tl tr l r)
    (extra : Option InstructionExtraInformation) (c : ConcolicState) (e : ZBool)
    (hshadow : w.tracer.concolic.shadowInstruction op.code w.state.operandStack extra =
      some (c, some e)) : e.eval I = true := by
  have hfits := hf.fits hon.frames
  have hshown := hf.shown hon.frames
  rw [hon.stack] at hfits hshown
  obtain ⟨sr, ss, hc, hfr, hss⟩ := forall₂_cons_inv r _ hfits
  obtain ⟨sl, srest, rfl, hfl, _⟩ := forall₂_cons_inv l _ hss
  obtain ⟨tr, ts, ht, hsr, hts⟩ := forall₂_cons_inv r _ hshown
  obtain ⟨tl, trest, rfl, hsl, _⟩ := forall₂_cons_inv l _ hts
  rw [ht] at hshadow
  by_cases hsym : sl ≠ .unknown ∨ sr ≠ .unknown
  · have hgood := hcmp sl sr srest tl tr trest hc ht hsym
    obtain ⟨p, q, p', q', hp, hq, hp', hq', hw⟩ :=
      compared_prims op l r b sl sr tl tr hon.compares hfl hfr hsl hsr hsym
    obtain rfl : p' = p := Option.some.inj (hp'.symm.trans (hgood.shownLeft.trans hp))
    obtain rfl : q' = q := Option.some.inj (hq'.symm.trans (hgood.shownRight.trans hq))
    obtain ⟨x, y, hxy⟩ := resolved_of_symbol sl sr tl tr p' q' hp' hq' hsym
    have hresult := compare_shadow op w.tracer.concolic sl sr srest tl tr trest extra p' q' hc hp'
      hq' hw x y hxy
    rw [hresult] at hshadow
    cases hshadow
    -- the operands have the values that are compared
    obtain ⟨hx, hy⟩ := resolved_means (I := I) (U := fun _ => False) sl sr tl tr p' q' x y hp' hq'
      (fits_trusted sl l p' hfl hp hgood.left) (fits_trusted sr r q' hfr hq hgood.right) hxy
    refine constraint_eval op x y _ _ (hx (IntTerm.avoids_empty _ (fun _ => id) x))
      (hy (IntTerm.avoids_empty _ (fun _ => id) y)) fun hop heq => ?_
    refine hgood.differ hop ?_
    rw [hp, hq, PrimitiveValue.eq_of_asU256 p' q' hw heq]
  · simp only [ne_eq, not_or, not_not] at hsym
    obtain ⟨rfl, rfl⟩ := hsym
    rw [compare_shadow_unknown op w.tracer.concolic srest tl tr trest extra hc] at hshadow
    cases hshadow

/-! ### Whole runs -/

theorem logged_hold (evs : List TraceEvent) (hlog : Logged w evs w') (hold : ConstraintsHold I w)
    (hf : Follows hooks I U vm w ∨ w.tracer.concolic.disable = true)
    (hon : ∀ pc op rest, evs = .instruction pc (CmpOp.code op) :: rest →
      ∃ l r lrest b, OnStack vm op l r lrest b)
    (hcmp : ComparesWell U vm w evs) : ConstraintsHold I w' := by
  intro f lhs rhs op e hmem
  rcases hlog f lhs rhs op e hmem with hmem | ⟨hd, pc, rest, extra, c, rfl, hshadow⟩
  · exact hold f lhs rhs op e hmem
  rcases hf with hf | hdis
  · obtain ⟨l, r, lrest, b, hs⟩ := hon pc op rest rfl
    refine comparable_eval op l r lrest b hf hs ?_ extra c e hshadow
    intro sl sr srest tl tr trest hc ht hsym
    exact hcmp pc op rest rfl sl sr srest tl tr trest l r lrest hc ht hs.stack hsym
  · rw [hd] at hdis
    cases hdis

theorem traced_hold (hq : hooks.Quiet) (h : Traced hooks o (Reliable U) vm w)
    (hI : Agrees I vm.calls) : ConstraintsHold I w := by
  induction h with
  | start => exact fun _ _ _ _ _ hmem => by cases hmem
  | step vm vm' w w' evs h hs hn hg ih =>
    have hprev := agrees_earlier vm.calls vm'.calls hI (step_calls evs hs)
    exact logged_hold evs (run_logged evs (step_tail evs hs) hn) (ih hprev)
      (traced_follows hq h (fun _ _ _ _ hg => hg.careful) hprev)
      (fun pc op rest hev => step_onStack pc op rest (hev ▸ hs)) hg.compared

end Constraint

/- The constraints of every reliable run are true under its own arguments. -/
theorem recorded_constraintsHold (hooks : Hooks σ φ) (o : σ) (hq : hooks.Quiet) (U : ZInt → Prop)
    (vm : Vm) (w : MovySuiTracerWrapper σ φ) (h : Recorded hooks o U vm w) (I : Interp ArgVar)
    (hI : Agrees I vm.calls) : ConstraintsHold I w := by
  cases h with
  | running w h => exact traced_hold hq h hI
  | failed w₀ w evs h hf hn hc =>
    exact logged_hold evs (run_logged evs (fails_tail evs hf) hn) (traced_hold hq h hI)
      (traced_follows hq h (fun _ _ _ _ hg => hg.careful) hI)
      (fun pc op rest hev => fails_onStack pc op rest (hev ▸ hf)) hc

/-! ### Comparing 2 with 1, and 5 with 5 -/

section Sample

def IsOutcome (e : ZInt) : Prop := ∃ c, e = .ite c (.const 1) (.const 0)

theorem reliable_call (x y : Fin (2 ^ IntWidth.w64.bits)) (U : ZInt → Prop) (vm vm' : Vm)
    (w : MovySuiTracerWrapper σ φ) : Reliable U vm w (sampleCall x y) vm' where
  careful := ⟨fun _ _ _ hev => (by cases hev), fun h => (by cases h)⟩
  compared _ _ _ hev := by cases hev

theorem reliable_move (x : Fin (2 ^ IntWidth.w64.bits)) (idx : ℕ) (U : ZInt → Prop) (vm vm' : Vm)
    (w : MovySuiTracerWrapper σ φ) : Reliable U vm w (sampleMove x idx) vm' where
  careful := by
    refine ⟨fun pc ins rest hev hex => ?_, fun h => ?_⟩
    · cases hev
      rcases exempt_code _ _ _ _ _ hex with ⟨op, hop⟩ | hop | ⟨op, hop⟩
      · cases op <;> cases hop
      · cases hop
      · cases op <;> cases hop
    · cases h with
      | write _ _ _ hw => cases hw
  compared pc op rest hev := by cases op <;> cases hev

/- Comparing 2 with 1 comes out false, and the constraint says so. The pushed
term is wrong, but no later comparison uses it. -/
theorem recorded_constraintsHold_sample :
    ConstraintsHold (sampleInterp 2 1)
      (sampleTracer (sampleArguments 2 1 ++ sampleCompare 2 1 .lt false)) := by
  have hreliable : Reliable IsOutcome (sampleBoth 2 1) (sampleTracer (sampleArguments 2 1))
      (sampleCompare 2 1 .lt false) (sampleDone 2 1 false) := by
    refine ⟨⟨fun pc ins rest hev _ extra c' k e hshadow hhead => ?_, fun h => ?_⟩, ?_⟩
    · cases hev
      cases hshadow
      cases hhead
      exact ⟨_, rfl⟩
    · cases h with
      | write _ _ _ hw => cases hw
    · intro pc op rest hev sl sr srest tl tr trest l r lrest hc ht hs _
      obtain rfl : CmpOp.lt = op := by cases op <;> first | rfl | cases hev
      cases hc
      cases ht
      cases hs
      refine ⟨fun e he => ?_, fun e he => ?_, rfl, rfl, fun h => by cases h⟩
      · cases he
        intro hall
        obtain ⟨c, hc⟩ := hall
        cases hc
      · cases he
        intro hall
        obtain ⟨c, hc⟩ := hall
        cases hc
  exact recorded_constraintsHold sampleHooks () sample_quiet IsOutcome _ _
    (.running _ _ (sample_traced 2 1 (Reliable IsOutcome) .lt false _
      (.order .lt (by decide) (by decide) .w64 2 1) rfl (reliable_call 2 1 _ _ _ _)
      (reliable_move 2 0 _ _ _ _) (reliable_move 1 1 _ _ _ _) hreliable))
    _ (sample_agrees 2 1 false)

/- `Neq` on 5 and 5 logs that the arguments differ. -/
theorem constraintsHold_fails :
    ¬∀ (hooks : Hooks Unit Unit) (o : Unit) (vm : Vm) (w : MovySuiTracerWrapper Unit Unit),
      hooks.Quiet → Traced hooks o (fun _ _ _ _ => True) vm w → ∀ I, Agrees I vm.calls →
      ConstraintsHold I w := by
  intro hall
  have hold := hall sampleHooks () (sampleDone 5 5 false)
    (sampleTracer (sampleArguments 5 5 ++ sampleCompare 5 5 .neq false)) sample_quiet
    (sample_traced 5 5 _ .neq false _ (.neq _ _ false rfl (by simp)) rfl trivial trivial trivial
      trivial)
    (sampleInterp 5 5) (sample_agrees 5 5 false)
  have hmem : Log.cmpLog (.int .w64 5) (.int .w64 5) .neq
      (some (.not (.eq (.var (0, 0)) (.var (0, 1))))) ∈
      (sampleTracer (sampleArguments 5 5 ++ sampleCompare 5 5 .neq false)).tracer.logs
        ⟨sampleModule.selfId, "f"⟩ := by
    show _ ∈ [_]
    exact List.mem_singleton.mpr rfl
  exact absurd (hold _ _ _ _ _ hmem) (by decide)

end Sample

end Movy.Tracer
