import Movy.Tracer.Events

/-!
# The tracer follows the VM

`Follows` ties the state of the tracer to the state of the VM between two
steps: equally high stacks with fitting symbols, one list of symbolic locals
and one function for each open frame, and a trace state that mirrors the VM.
Every step of the VM leads the tracer to a state that follows again.
-/

namespace Movy.Tracer

open Movy.Store (ObjectID)
open ConcolicState MovySuiTracerWrapper InstructionExtraInformation

variable {σ φ : Type} (hooks : Hooks σ φ) (I : Interp ArgVar) (U : ZInt → Prop)

def VmFrame.ident (fr : VmFrame) : ObjectID × FunctionIdent :=
  (fr.versionId, ⟨fr.code.selfId, fr.functionName⟩)

/- What the store has for the module of a frame. -/
def storedModule (db : PackageStore) (fr : VmFrame) : Option CompiledModule :=
  (stored db fr.versionId).bind fun modules => modules fr.code.selfId

/- The variable `k.i` has the value of the `i`-th argument of the `k`-th call. -/
def Agrees (I : Interp ArgVar) (calls : List (List RtValue)) : Prop :=
  ∀ (k i : ℕ) params v p, calls[k]? = some params → params[i]? = some (RtValue.val v) →
    v.primitive = some p → I.var (k, i) = p.asU256

structure Follows (vm : Vm) (w : MovySuiTracerWrapper σ φ) : Prop where
  enabled : w.tracer.concolic.disable = false
  functions : w.tracer.currentFunctions = vm.frames.map VmFrame.ident
  filled : FilledFrom hooks.db w.tracer.resolver
  loaded : ∀ fr ∈ vm.frames,
    w.tracer.resolver.packages fr.versionId = stored hooks.db fr.versionId
  stored : ∀ fr ∈ vm.frames,
    storedModule hooks.db fr = some fr.code ∨ storedModule hooks.db fr = none
  calls : w.tracer.concolic.args.length = vm.calls.length
  locals : List.Forall₂ (LocalsFit I U vm) w.tracer.concolic.locals vm.frames
  -- between two calls the stacks do not matter
  shown : vm.frames ≠ [] → List.Forall₂ (Shows vm) w.state.operandStack vm.stack
  fits : vm.frames ≠ [] → List.Forall₂ (Fits I U vm) w.tracer.concolic.stack vm.stack
  mirrors : Mirrors vm w.state

/- The tracer takes the events and follows the VM to `vm'`. -/
def Advances (vm' : Vm) (w : MovySuiTracerWrapper σ φ) (evs : List TraceEvent) : Prop :=
  ∃ w', run (notify hooks) w evs = some w' ∧ Follows hooks I U vm' w'

section Parts

variable {hooks I U} {vm : Vm} {w : MovySuiTracerWrapper σ φ}

theorem moduleRef_eq (hf : Follows hooks I U vm w) (fr : VmFrame) (hfr : fr ∈ vm.frames) :
    w.tracer.resolver.moduleRef fr.code.selfId fr.versionId = storedModule hooks.db fr := by
  rw [PackageResolvedCache.moduleRef, hf.loaded fr hfr]
  rfl

theorem heights (hf : Follows hooks I U vm w) (hne : vm.frames ≠ []) :
    w.tracer.concolic.stack.length = w.state.operandStack.length :=
  (hf.fits hne).length_eq.trans (hf.shown hne).length_eq.symm

/- The instruction event of a step. -/
theorem follows_instruction (hq : hooks.Quiet) (hf : Follows hooks I U vm w) (fr : VmFrame)
    (outer : List VmFrame) (hfr : vm.frames = fr :: outer) (pc : ℕ) (ins : Bytecode)
    (extra : Option InstructionExtraInformation) (c : ConcolicState) (k : Option ZBool)
    (hx : fromResolver ins w.tracer.resolver fr.versionId fr.code.selfId = some extra)
    (hs : w.tracer.concolic.shadowInstruction ins w.state.operandStack extra = some (c, k)) :
    ∃ w', w.notify hooks (.instruction pc ins) = some w' ∧ Instructed w w' c := by
  have hfn : w.tracer.currentFunctions =
      (fr.versionId, ⟨fr.code.selfId, fr.functionName⟩) :: outer.map VmFrame.ident := by
    rw [hf.functions, hfr]
    rfl
  exact notify_instruction hooks w hq pc ins fr _ hf.enabled (heights hf (by simp [hfr])) hfn extra
    c k hx hs

/- Frames, functions and modules do not change within a frame. -/
theorem follows_within (vm' : Vm) (w' : MovySuiTracerWrapper σ φ) (hf : Follows hooks I U vm w)
    (hframes : vm'.frames = vm.frames) (hcalls : vm'.calls = vm.calls)
    (hd : w'.tracer.concolic.disable = w.tracer.concolic.disable)
    (hargs : w'.tracer.concolic.args = w.tracer.concolic.args)
    (hfn : w'.tracer.currentFunctions = w.tracer.currentFunctions)
    (hres : w'.tracer.resolver = w.tracer.resolver)
    (hl : List.Forall₂ (LocalsFit I U vm') w'.tracer.concolic.locals vm.frames)
    (hsh : List.Forall₂ (Shows vm') w'.state.operandStack vm'.stack)
    (hft : List.Forall₂ (Fits I U vm') w'.tracer.concolic.stack vm'.stack)
    (hm : Mirrors vm' w'.state) : Follows hooks I U vm' w' where
  enabled := hd.trans hf.enabled
  functions := by rw [hfn, hframes, hf.functions]
  filled := hres ▸ hf.filled
  loaded fr hfr := by
    rw [hres]
    exact hf.loaded fr (hframes ▸ hfr)
  stored fr hfr := hf.stored fr (hframes ▸ hfr)
  calls := by rw [hargs, hcalls, hf.calls]
  locals := hframes ▸ hl
  shown _ := hsh
  fits _ := hft
  mirrors := hm

theorem forall₂_cons_inv {α β : Type} {R : α → β → Prop} {l : List α} (b : β) (m : List β)
    (h : List.Forall₂ R l (b :: m)) : ∃ a l', l = a :: l' ∧ R a b ∧ List.Forall₂ R l' m := by
  cases h with
  | cons hab h => exact ⟨_, _, rfl, hab, h⟩

theorem fits_same (vm vm' : Vm) (hl : vm'.locals = vm.locals) (hg : vm'.globals = vm.globals) :
    Fits I U vm' = Fits I U vm := by
  funext s r
  simp only [Fits, primOf_same r hl hg]

theorem shows_same (vm vm' : Vm) (hl : vm'.locals = vm.locals) (hg : vm'.globals = vm.globals) :
    Shows vm' = Shows vm := by
  funext t r
  cases r with
  | val v => rfl
  | ref m l => simp only [Shows, Vm.kindOf, primOf_same (.ref m l) hl hg]

theorem locals_same (vm vm' : Vm) (hl : vm'.locals = vm.locals) (hg : vm'.globals = vm.globals) :
    LocalsFit I U vm' = LocalsFit I U vm := by
  funext locals fr
  simp only [LocalsFit, hl, fits_same vm vm' hl hg]

theorem mirrors_same {s : TraceState} (vm' : Vm) (s' : TraceState) (h : Mirrors vm s)
    (hf : vm'.frames = vm.frames) (hl : vm'.locals = vm.locals) (hg : vm'.globals = vm.globals)
    (hc : s'.callStack = s.callStack) (hs : s'.loadedState = s.loadedState) : Mirrors vm' s' :=
  mirrors_congr vm' s' h hf hc (fun _ _ _ r hr => ⟨r, hl ▸ hr, fun v hv => ⟨v, hv⟩⟩)
    fun id hid => hs ▸ h.globals id (hg ▸ hid)

theorem fits_stack (vm : Vm) (st : List RtValue) : Fits I U { vm with stack := st } = Fits I U vm :=
  fits_same vm _ rfl rfl

theorem shows_stack (vm : Vm) (st : List RtValue) : Shows { vm with stack := st } = Shows vm :=
  shows_same vm _ rfl rfl

theorem locals_stack (vm : Vm) (st : List RtValue) :
    LocalsFit I U { vm with stack := st } = LocalsFit I U vm :=
  locals_same vm _ rfl rfl

/- An instruction that writes leaves plain values. -/
theorem writes_results (fr : VmFrame) (ins : Bytecode) (ops res : List RtValue)
    (hr : Runs vm fr ins ops (some res)) (hw : ins.Writes) (vm' : Vm) (syms : List SymbolValue)
    (h : List.Forall₂ (Fits I U vm) syms res) : List.Forall₂ (Fits I U vm') syms res := by
  have hval : ∀ r ∈ res, ∃ v, r = .val v := by
    generalize hout : some res = out at hr
    cases hr with
    | writeRef l v =>
      cases hout
      simp
    | vecPushBack sig l v =>
      cases hout
      simp
    | vecSwap sig l i j =>
      cases hout
      simp
    | vecPopBack sig l vs hl =>
      obtain ⟨v, _, rfl⟩ := Option.map_eq_some_iff.mp hout.symm
      simp
    | arith op w a b => cases op <;> cases hw
    | bit op p q r _ _ _ _ => cases op <;> cases hw
    | order op hne hnn w a b => cases op <;> cases hw
    | borrowLoc m idx v h => cases m <;> cases hw
    | borrowField m g m' idx i l t fields h => cases m <;> cases g <;> cases hw
    | vecBorrow m m' sig l i vs h => cases m <;> cases hw
    | pack g idx t vs h => cases g <;> cases hw
    | unpack g idx t vs h => cases g <;> cases hw
    | packVariant g idx t tag vs h => cases g <;> cases hw
    | unpackVariant g idx t tag n vs h => cases g <;> cases hw
    | unpackVariantRef m g m' idx n l hit h => cases m <;> cases g <;> cases hw
    | _ => cases hw
  refine forall₂_zip h fun p hp hfit => ?_
  obtain ⟨v, hv⟩ := hval p.2 (List.of_mem_zip hp).2
  exact fits_across p.1 p.2 p.2 hfit (by rw [hv]; rfl)

end Parts

/-! ### Steps within a frame -/

section Within

variable {hooks I U} {vm : Vm} {w : MovySuiTracerWrapper σ φ}

theorem pops_ne_error (popped : List TraceValue) : ∀ e ∈ pops popped, ∀ m, e ≠ .executionError m := by
  intro e he m heq
  obtain ⟨t, _, rfl⟩ := List.mem_map.mp he
  cases heq

theorem pushes_ne_error (results : List TraceValue) :
    ∀ e ∈ pushes results, ∀ m, e ≠ .executionError m := by
  intro e he m heq
  obtain ⟨t, _, rfl⟩ := List.mem_map.mp he
  cases heq

/- Accesses and pushes after the operands are gone. -/
theorem run_results (vm vm' : Vm) (s : TraceState) (accesses : List Effect)
    (results : List TraceValue) (hm : Rewrites vm vm' accesses) (hmir : Mirrors vm s) :
    ∃ s', run TraceState.applyEffect s (accesses ++ pushes results) = some s' ∧
      Mirrors vm' s' ∧ s'.operandStack = results ++ s.operandStack := by
  obtain ⟨s₁, hs₁, hacc, hload⟩ := run_accesses accesses hmir hm.reported
  refine ⟨{ s₁ with operandStack := results ++ s₁.operandStack }, ?_, ?_, ?_⟩
  · rw [run_append, hs₁, Option.bind_some, run_pushes]
  · exact mirrors_same vm' _ (mirrors_rewrites vm' s₁ accesses hacc.mirrors hm hload) rfl rfl rfl
      rfl rfl
  · rw [← hacc.stack]

/- A step that consists of an instruction and its effects. -/
theorem advances_of_effects (vm' : Vm) (w₁ : MovySuiTracerWrapper σ φ) (s' : TraceState) (pc : ℕ)
    (ins : Bytecode) (c : ConcolicState) (effs : List Effect) (hf : Follows hooks I U vm w)
    (hw₁ : w.notify hooks (.instruction pc ins) = some w₁) (hi : Instructed w w₁ c)
    (hd : c.disable = w.tracer.concolic.disable)
    (he : ∀ e ∈ effs, ∀ m, e ≠ .executionError m)
    (hrun : run TraceState.applyEffect w.state effs = some s')
    (hfol : ∀ b, Follows hooks I U vm' ⟨{ w₁.tracer with skipConcolic := b }, s'⟩) :
    Advances hooks I U vm' w (.instruction pc ins :: effects effs) := by
  obtain ⟨b, hb⟩ := run_effects hooks w₁ effs s' (by rw [hi.concolic, hd, hf.enabled]) he
    (by rw [hi.state, hrun])
  refine ⟨⟨{ w₁.tracer with skipConcolic := b }, s'⟩, ?_, hfol b⟩
  simp only [run, hw₁, Option.bind_some, hb]

theorem follows_exec (hq : hooks.Quiet) (hf : Follows hooks I U vm w) (vm' : Vm) (fr : VmFrame)
    (outer : List VmFrame) (pc : ℕ) (ins : Bytecode) (ops res rest : List RtValue)
    (popped results : List TraceValue) (accesses : List Effect) (hfr : vm.frames = fr :: outer)
    (hs : vm.stack = ops ++ rest) (hr : Runs vm fr ins ops (some res))
    (hp : popped.length = ops.length) (hm : Rewrites { vm with stack := rest } vm' accesses)
    (hpure : ¬ins.Writes → vm' = { vm with stack := rest })
    (ht : List.Forall₂ (fun t r => vm'.traceValue r = some t) results res)
    (hav : ins.NeedsTable → storedModule hooks.db fr = some fr.code)
    (hpush : Exempt vm ins w.state.operandStack vm.stack (res ++ rest) →
      Distrusts U w.tracer.concolic ins w.state.operandStack)
    (hkeep : ins.Writes → Keeps U (w.tracer.concolic.stack.drop ops.length)
      w.tracer.concolic.locals { vm with stack := rest } vm') :
    Advances hooks I U { vm' with stack := res ++ rest } w
      (.instruction pc ins :: effects (pops popped ++ accesses ++ pushes results)) := by
  have hne : vm.frames ≠ [] := by simp [hfr]
  obtain ⟨ss, srest, hcs, hss, hsrest⟩ := forall₂_split ops rest (hs ▸ hf.fits hne)
  obtain ⟨ts, trest, hct, hts, htrest⟩ := forall₂_split ops rest (hs ▸ hf.shown hne)
  obtain ⟨locals, louter, hcl, hl, _⟩ := forall₂_cons_inv fr outer (hfr ▸ hf.locals)
  rw [hct, hs] at hpush
  have hmod := moduleRef_eq hf fr (by simp [hfr])
  obtain ⟨extra, syms, k, hx, hshadow, hfits⟩ := shadows_runs I U vm fr ins ops (some res) hr
    w.tracer.resolver (fun h => hmod.trans (hav h)) w.tracer.concolic ss srest locals louter ts
    trest rest hcs hcl hss hts hl fun res' h => by cases h; exact hpush
  rw [← hct] at hshadow
  obtain ⟨w₁, hw₁, hi⟩ := follows_instruction hq hf fr outer hfr pc ins extra _ k hx hshadow
  -- the effects change the trace state only
  have hpops := run_pops (s := w.state) popped ts trest (hp.trans hts.length_eq.symm) hct
  have hmir : Mirrors { vm with stack := rest } { w.state with operandStack := trest } :=
    mirrors_same _ _ hf.mirrors rfl rfl rfl rfl rfl
  obtain ⟨s', hs', hmir', hstack'⟩ := run_results _ vm' _ accesses results hm hmir
  have hrun : run TraceState.applyEffect w.state (pops popped ++ accesses ++ pushes results) =
      some s' := by
    rw [List.append_assoc, run_append, hpops, Option.bind_some, hs']
  have herr : ∀ e ∈ pops popped ++ accesses ++ pushes results, ∀ m, e ≠ .executionError m := by
    intro e he
    rcases List.mem_append.mp he with he | he
    · rcases List.mem_append.mp he with he | he
      · exact pops_ne_error popped e he
      · exact accesses_ne_error _ accesses hm.reported e he
    · exact pushes_ne_error results e he
  refine advances_of_effects _ w₁ s' pc ins _ _ hf hw₁ hi rfl herr hrun fun b => ?_
  have hkeep' : Keeps U srest w.tracer.concolic.locals { vm with stack := rest } vm' := by
    by_cases hw : ins.Writes
    · have hdrop : w.tracer.concolic.stack.drop ops.length = srest := by
        rw [hcs, ← hss.length_eq, List.drop_left]
      exact hdrop ▸ hkeep hw
    · rw [hpure hw]
      exact keeps_refl _ _ _
  have hsyms : List.Forall₂ (Fits I U vm') syms res := by
    by_cases hw : ins.Writes
    · exact writes_results fr ins ops res hr hw _ syms (hfits res rfl)
    · rw [hpure hw, fits_stack]
      exact hfits res rfl
  refine follows_within _ _ hf hm.frames hm.calls (by rw [hi.concolic]) (by rw [hi.concolic])
    hi.functions hi.resolver ?_ ?_ ?_ (mirrors_same _ s' hmir' rfl rfl rfl rfl rfl)
  · rw [locals_stack, hi.concolic]
    have hlocals := rewrites_locals (I := I) accesses srest w.tracer.concolic.locals hm hkeep'
    rw [locals_stack] at hlocals
    exact hlocals hf.locals
  · rw [shows_stack, hstack']
    refine List.rel_append (List.Forall₂.imp shows_of_trace ht) ?_
    have hshows := rewrites_shows accesses trest hm
    rw [shows_stack] at hshows
    exact hshows htrest
  · rw [fits_stack, hi.concolic]
    refine List.rel_append hsyms ?_
    have hrest := rewrites_fits (I := I) accesses srest w.tracer.concolic.locals hm hkeep'
    rw [fits_stack] at hrest
    exact hrest hsrest

/-! A local that is not borrowed can change without notice. -/

theorem setLocal_locals (f i f' i' : ℕ) (r : Option RtValue) :
    (vm.setLocal f i r).locals f' i' = if f' = f ∧ i' = i then r else vm.locals f' i' := by
  simp only [Vm.setLocal]
  by_cases hf : f' = f
  · subst hf
    by_cases hi : i' = i
    · subst hi
      simp
    · simp [hi]
  · simp [hf]

theorem setLocal_primOf (f i : ℕ) (new : Option RtValue)
    (hb : ∀ l, vm.Live l → l.root ≠ .ofLocal f i) (r : RtValue)
    (hr : ∀ m l, r = .ref m l → vm.Live l) : (vm.setLocal f i new).primOf r = vm.primOf r := by
  refine primOf_congr r fun m l hl => readLoc_congr l (fun f' i' hroot => ?_) rfl
  rw [setLocal_locals, if_neg]
  intro h
  obtain ⟨rfl, rfl⟩ := h
  exact hb l (hr m l hl) hroot

theorem live_stack (r : RtValue) (hr : r ∈ vm.stack) (m : Bool) (l : Location)
    (h : r = .ref m l) : vm.Live l := live_of_mem m l (h ▸ hr)

theorem live_local (fr : VmFrame) (hfr : fr ∈ vm.frames) (i : ℕ) (r : RtValue)
    (hr : vm.locals fr.id i = some r) (m : Bool) (l : Location) (h : r = .ref m l) : vm.Live l :=
  ⟨m, .inr ⟨fr, hfr, i, h ▸ hr⟩⟩

theorem setLocal_shows (f i : ℕ) (new : Option RtValue)
    (hb : ∀ l, vm.Live l → l.root ≠ .ofLocal f i) (ts : List TraceValue)
    (h : List.Forall₂ (Shows vm) ts vm.stack) :
    List.Forall₂ (Shows (vm.setLocal f i new)) ts vm.stack := by
  refine forall₂_zip h fun p hp hshow => shows_across p.1 p.2 hshow fun _ _ _ => ?_
  rw [Vm.kindOf, Vm.kindOf,
    setLocal_primOf f i new hb p.2 (live_stack p.2 (List.of_mem_zip hp).2)]

theorem setLocal_fits (f i : ℕ) (new : Option RtValue)
    (hb : ∀ l, vm.Live l → l.root ≠ .ofLocal f i) (ss : List SymbolValue)
    (h : List.Forall₂ (Fits I U vm) ss vm.stack) :
    List.Forall₂ (Fits I U (vm.setLocal f i new)) ss vm.stack :=
  forall₂_zip h fun p hp hfit => fits_across p.1 p.2 p.2 hfit
    (setLocal_primOf f i new hb p.2 (live_stack p.2 (List.of_mem_zip hp).2))

/- The locals of the frame change at one index, those of the outer frames not. -/
theorem setLocal_localsFit (fr : VmFrame) (outer : List VmFrame) (idx : ℕ) (new : Option RtValue)
    (hfr : vm.frames = fr :: outer) (hord : vm.frames.Pairwise fun a b => b.id < a.id)
    (hb : ∀ l, vm.Live l → l.root ≠ .ofLocal fr.id idx) (locals locals' : List SymbolValue)
    (louter : List (List SymbolValue)) (hl : LocalsFit I U vm locals fr)
    (houter : List.Forall₂ (LocalsFit I U vm) louter outer)
    (hother : ∀ i s, i ≠ idx → locals'[i]? = some s → s = .unknown ∨ locals[i]? = some s)
    (hself : ∀ s r, locals'[idx]? = some s → new = some r →
      Fits I U (vm.setLocal fr.id idx new) s r) :
    List.Forall₂ (LocalsFit I U (vm.setLocal fr.id idx new)) (locals' :: louter) vm.frames := by
  rw [hfr] at hord ⊢
  refine .cons ?_ ?_
  · intro i s r hs hr
    rw [setLocal_locals] at hr
    by_cases hi : i = idx
    · subst hi
      rw [if_pos ⟨rfl, rfl⟩] at hr
      exact hself s r hs hr
    · rw [if_neg fun h => hi h.2] at hr
      rcases hother i s hi hs with rfl | hold
      · exact fits_unknown r
      · exact fits_across s r r (hl i s r hold hr)
          (setLocal_primOf fr.id idx new hb r (live_local fr (by simp [hfr]) i r hr))
  · refine forall₂_zip houter fun p hp hfit => ?_
    intro i s r hs hr
    have hmem := (List.of_mem_zip hp).2
    have hne : p.2.id ≠ fr.id := ((List.pairwise_cons.mp hord).1 p.2 hmem).ne
    rw [setLocal_locals, if_neg fun h => hne h.1] at hr
    exact fits_across s r r (hfit i s r hs hr)
      (setLocal_primOf fr.id idx new hb r (live_local p.2 (by simp [hfr, hmem]) i r hr))

theorem setLocal_mirrors (s : TraceState) (h : Mirrors vm s) (fr : VmFrame) (hfr : fr ∈ vm.frames)
    (L : FrameLocals) (hL : s.callStack.get? fr.id = some L) (idx : ℕ) (new : Option RtValue)
    (entry : Option TraceValue) (hself : ∀ r, new = some r →
      ∃ t, entry = some t ∧ ∀ v, r = .val v → t.isRuntime = true) :
    Mirrors (vm.setLocal fr.id idx new) { s with
      callStack := s.callStack.insert fr.id (Function.update L.1 idx entry, L.2) } := by
  refine mirrors_setLocal _ h fr hfr L hL idx entry rfl rfl ?_ ?_
  · intro f i r hor hr
    rw [setLocal_locals, if_neg] at hr
    · exact hr
    · intro hall
      obtain ⟨rfl, rfl⟩ := hall
      rcases hor with h | h <;> exact h rfl
  · intro r hr
    rw [setLocal_locals, if_pos ⟨rfl, rfl⟩] at hr
    exact hself r hr

theorem follows_moveLoc (hq : hooks.Quiet) (hf : Follows hooks I U vm w) (fr : VmFrame)
    (outer : List VmFrame) (pc idx : ℕ) (r : RtValue) (t : TraceValue)
    (hfr : vm.frames = fr :: outer) (hr : vm.locals fr.id idx = some r)
    (ht : vm.traceValue r = some t) (hb : ∀ l, vm.Live l → l.root ≠ .ofLocal fr.id idx) :
    Advances hooks I U { vm.setLocal fr.id idx none with stack := r :: vm.stack } w
      (.instruction pc (.moveLoc idx) ::
        effects [.read (.ofLocal fr.id idx) true, .push t]) := by
  have hne : vm.frames ≠ [] := by simp [hfr]
  have hmem : fr ∈ vm.frames := by simp [hfr]
  obtain ⟨locals, louter, hcl, hl, houter⟩ := forall₂_cons_inv fr outer (hfr ▸ hf.locals)
  have hshadow : w.tracer.concolic.shadowInstruction (.moveLoc idx) w.state.operandStack none =
      some ({ w.tracer.concolic with
        stack := locals[idx]?.getD .unknown :: w.tracer.concolic.stack
        locals := locals.set idx .unknown :: louter }, none) := by
    show some (w.tracer.concolic.moveLocal idx, none) = _
    rw [moveLocal, hcl]
  obtain ⟨w₁, hw₁, hi⟩ := follows_instruction hq hf fr outer hfr pc _ none _ none rfl hshadow
  obtain ⟨L, hL⟩ := frame_known hf.mirrors fr hmem
  have hrun : run TraceState.applyEffect w.state [.read (.ofLocal fr.id idx) true, .push t] =
      some { w.state with
        operandStack := t :: w.state.operandStack
        callStack := w.state.callStack.insert fr.id (Function.update L.1 idx none, L.2) } := by
    simp only [run, TraceState.applyEffect, if_true, hL, Option.bind_eq_bind, Option.bind_some]
  refine advances_of_effects _ w₁ _ pc _ _ _ hf hw₁ hi rfl
    (by intro e he m heq; subst heq; simp at he) hrun fun b => ?_
  have hprim : (vm.setLocal fr.id idx none).primOf r = vm.primOf r :=
    setLocal_primOf fr.id idx none hb r (live_local fr hmem idx r hr)
  refine follows_within _ _ hf rfl rfl (by rw [hi.concolic]) (by rw [hi.concolic]) hi.functions
    hi.resolver ?_ ?_ ?_ ?_
  · rw [locals_stack, hi.concolic]
    refine setLocal_localsFit fr outer idx none hfr hf.mirrors.ordered hb locals _ louter hl houter ?_
      fun s r _ h => by cases h
    intro i s hi' hs
    exact .inr (by rwa [List.getElem?_set_ne (Ne.symm hi')] at hs)
  · rw [shows_stack]
    refine .cons ?_ (setLocal_shows fr.id idx none hb _ (hf.shown hne))
    refine shows_across t r (shows_of_trace t r ht) fun _ _ _ => ?_
    rw [Vm.kindOf, Vm.kindOf, hprim]
  · rw [fits_stack, hi.concolic]
    refine .cons ?_ (setLocal_fits fr.id idx none hb _ (hf.fits hne))
    cases hi' : locals[idx]? with
    | none => exact fits_unknown r
    | some s => exact fits_across s r r (hl idx s r hi' hr) hprim
  · exact mirrors_same _ _
      (setLocal_mirrors w.state hf.mirrors fr hmem L hL idx none none fun _ h => by cases h)
      rfl rfl rfl rfl rfl

theorem grown_get (locals : List SymbolValue) (n idx i : ℕ) (v s : SymbolValue) (hi : i ≠ idx)
    (h : ((locals ++ List.replicate n SymbolValue.unknown).set idx v)[i]? = some s) :
    s = .unknown ∨ locals[i]? = some s := by
  rw [List.getElem?_set_ne (Ne.symm hi)] at h
  by_cases hlt : i < locals.length
  · rw [List.getElem?_append_left hlt] at h
    exact .inr h
  · rw [List.getElem?_append_right (by omega)] at h
    exact .inl (List.eq_of_mem_replicate (List.mem_of_getElem? h))

theorem follows_stLoc (hq : hooks.Quiet) (hf : Follows hooks I U vm w) (fr : VmFrame)
    (outer : List VmFrame) (pc idx : ℕ) (r : RtValue) (rest : List RtValue) (t popped : TraceValue)
    (hfr : vm.frames = fr :: outer) (hs : vm.stack = r :: rest) (ht : vm.traceValue r = some t)
    (hb : ∀ l, vm.Live l → l.root ≠ .ofLocal fr.id idx) :
    Advances hooks I U { vm.setLocal fr.id idx (some r) with stack := rest } w
      (.instruction pc (.stLoc idx) ::
        effects [.pop popped, .write (.ofLocal fr.id idx) t]) := by
  have hne : vm.frames ≠ [] := by simp [hfr]
  have hmem : fr ∈ vm.frames := by simp [hfr]
  obtain ⟨locals, louter, hcl, hl, houter⟩ := forall₂_cons_inv fr outer (hfr ▸ hf.locals)
  obtain ⟨s, srest, hcs, hsr, _⟩ := forall₂_cons_inv r rest (hs ▸ hf.fits hne)
  obtain ⟨tr, trest, hct, _, _⟩ := forall₂_cons_inv r rest (hs ▸ hf.shown hne)
  have hshadow : w.tracer.concolic.shadowInstruction (.stLoc idx) w.state.operandStack none =
      some ({ w.tracer.concolic with
        stack := srest
        locals := (locals ++ List.replicate (idx + 1 - locals.length) SymbolValue.unknown).set idx s ::
          louter }, none) := by
    show some (w.tracer.concolic.storeLocal idx, none) = _
    rw [storeLocal, hcs, hcl]
  obtain ⟨w₁, hw₁, hi⟩ := follows_instruction hq hf fr outer hfr pc _ none _ none rfl hshadow
  obtain ⟨L, hL⟩ := frame_known hf.mirrors fr hmem
  have hrun : run TraceState.applyEffect w.state [.pop popped, .write (.ofLocal fr.id idx) t] =
      some { w.state with
        operandStack := trest
        callStack := w.state.callStack.insert fr.id (Function.update L.1 idx (some t), L.2) } := by
    simp only [run, TraceState.applyEffect, hct, hL, Option.bind_eq_bind, Option.bind_some]
  refine advances_of_effects _ w₁ _ pc _ _ _ hf hw₁ hi rfl
    (by intro e he m heq; subst heq; simp at he) hrun fun b => ?_
  have hshows := setLocal_shows fr.id idx (some r) hb _ (hf.shown hne)
  have hfits := setLocal_fits fr.id idx (some r) hb _ (hf.fits hne)
  rw [hct, hs] at hshows
  rw [hcs, hs] at hfits
  cases hshows with
  | cons _ hshows =>
    cases hfits with
    | cons hfit hfits =>
      refine follows_within _ _ hf rfl rfl (by rw [hi.concolic]) (by rw [hi.concolic])
        hi.functions hi.resolver ?_ ?_ ?_ ?_
      · rw [locals_stack, hi.concolic]
        refine setLocal_localsFit fr outer idx (some r) hfr hf.mirrors.ordered hb locals _ louter hl
          houter (fun i s' hi' h => grown_get locals _ idx i s s' hi' h) ?_
        intro s' r' hs' hr'
        cases hr'
        rw [List.getElem?_set_self (by simp; omega)] at hs'
        cases hs'
        exact hfit
      · rw [shows_stack]
        exact hshows
      · rw [fits_stack, hi.concolic]
        exact hfits
      · refine mirrors_same _ _
          (setLocal_mirrors w.state hf.mirrors fr hmem L hL idx (some r) (some t) ?_)
          rfl rfl rfl rfl rfl
        intro r' hr'
        cases hr'
        refine ⟨t, rfl, fun v hv => ?_⟩
        subst hv
        cases ht
        rfl

end Within

end Movy.Tracer
