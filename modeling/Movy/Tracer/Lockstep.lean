import Movy.Tracer.Traced

/-!
# The shadow stack stays in step

For every trace of a VM whose packages resolve: at each instruction the shadow
stack is as high as the operand stack of the trace state, the engine is on,
and the handler of the instruction does not panic.
-/

namespace Movy.Tracer

open ConcolicState MovySuiTracerWrapper InstructionExtraInformation

/-! ### Traces -/

/- The events of a run of the VM, and the state it leads to. -/
inductive Emits (db : PackageStore) : List TraceEvent → Vm → Prop
  | start : Emits db [] Vm.start
  | step (evs evs' : List TraceEvent) (vm vm' : Vm) (h : Emits db evs vm)
      (hs : Step db vm evs' vm') : Emits db (evs ++ evs') vm'

/- A trace is a run, or a run with a step that fails; nothing is said about the
events after the error. -/
inductive Trace (db : PackageStore) : List TraceEvent → Prop
  | running (evs : List TraceEvent) (vm : Vm) (h : Emits db evs vm) : Trace db evs
  | failed (evs evs' after : List TraceEvent) (vm : Vm) (h : Emits db evs vm)
      (hf : Fails db vm evs') : Trace db (evs ++ (evs' ++ after))

/- The package of the frame loads, with the module that runs. -/
def PackageResolves (db : PackageStore) (frame : Frame) : Prop :=
  ∃ modules : List CompiledModule, db frame.versionId = .ok (some (modules.map some)) ∧
    ∃ m ∈ modules, m.selfId = frame.moduleId

section Frames

variable {db : PackageStore} {vm vm' : Vm}

theorem opens_resolves (frame : Frame) (fr : VmFrame) (params : List RtValue)
    (ho : Opens db vm frame fr params) (h : PackageResolves db frame) : Resolves db fr := by
  obtain ⟨modules, hdb, m, hm, hid⟩ := h
  rw [ho.version] at hdb
  have hcode : ∀ x ∈ modules, x.selfId = fr.code.selfId → x = fr.code := fun x hx hxid =>
    ho.stored _ x hdb (List.mem_map_of_mem hx) hxid
  obtain rfl := hcode m hm (hid.trans ho.moduleId)
  exact ⟨modules, hdb, hm, hcode⟩

/- An open frame was open before or has its event in the step. -/
theorem step_frames (evs : List TraceEvent) (h : Step db vm evs vm') (fr : VmFrame)
    (hfr : fr ∈ vm'.frames) : fr ∈ vm.frames ∨
      ∃ vm₁ frame params, .openFrame frame ∈ evs ∧ Opens db vm₁ frame fr params := by
  cases h with
  | exec vm₁ fr₀ outer pc ins ops res rest popped results accesses hf hst hr hp hm hpure ht =>
    have hframes : vm₁.frames = vm.frames := hm.frames
    exact .inl (hframes ▸ hfr)
  | call fr₀ outer pc ins frame callee params rest hf hi hst ho hn =>
    rcases List.mem_cons.mp hfr with rfl | hmem
    · exact .inr ⟨vm, frame, params, by simp, ho⟩
    · exact .inl hmem
  | callNative vm₁ fr₀ outer pc ins frame callee params res rest results inside outside hf hi hst
      ho hn hm hret ht =>
    have hframes : vm₁.frames = vm.frames := hm.frames
    exact .inl (hframes ▸ hfr)
  | ret fr₀ outer pc hf => exact .inl (hf ▸ List.mem_cons_of_mem _ hfr)
  | moveCall loaded frame callee params hf ho hty hn =>
    obtain rfl := List.mem_singleton.mp hfr
    exact .inr ⟨_, frame, params, by simp, ho⟩
  | moveCallNative vm₁ loaded frame callee params res results inside outside hf ho hn hm ht =>
    have hframes : vm₁.frames = [] := hm.frames
    exact absurd hfr (by simp [hframes])
  | _ => exact .inl hfr

theorem emits_resolves (evs : List TraceEvent) (h : Emits db evs vm)
    (hres : ∀ frame, .openFrame frame ∈ evs → PackageResolves db frame) :
    ∀ fr ∈ vm.frames, storedModule db fr = some fr.code := by
  induction h with
  | start => exact fun _ hfr => by cases hfr
  | step evs evs' vm vm' h hs ih =>
    intro fr hfr
    rcases step_frames evs' hs fr hfr with hold | ⟨vm₁, frame, params, hmem, ho⟩
    · exact ih (fun frame hf => hres frame (List.mem_append_left _ hf)) fr hold
    · exact resolves_stored db fr
        (opens_resolves frame fr params ho (hres frame (List.mem_append_right _ hmem)))

/-! ### Only the first event of a step can be an instruction -/

theorem noInstruction_effects (l : List Effect) : NoInstruction (effects l) := by
  intro pc ins h
  obtain ⟨_, _, h⟩ := List.mem_map.mp h
  cases h

theorem noInstruction_append (l m : List TraceEvent) (hl : NoInstruction l)
    (hm : NoInstruction m) : NoInstruction (l ++ m) := by
  intro pc ins h
  rcases List.mem_append.mp h with h | h
  · exact hl pc ins h
  · exact hm pc ins h

theorem noInstruction_cons (ev : TraceEvent) (l : List TraceEvent)
    (hev : ∀ pc ins, .instruction pc ins ≠ ev) (hl : NoInstruction l) :
    NoInstruction (ev :: l) := by
  intro pc ins h
  rcases List.mem_cons.mp h with h | h
  · exact hev pc ins h
  · exact hl pc ins h

theorem noInstruction_nil : NoInstruction [] := fun _ _ h => by cases h

theorem noInstruction_native (frame : Frame) (id : ℕ) (inside outside : List Effect) :
    NoInstruction (.openFrame frame :: (effects inside ++ .closeFrame id :: effects outside)) :=
  noInstruction_cons _ _ (fun _ _ h => by cases h)
    (noInstruction_append _ _ (noInstruction_effects inside)
      (noInstruction_cons _ _ (fun _ _ h => by cases h) (noInstruction_effects outside)))

theorem step_tail (evs : List TraceEvent) (h : Step db vm evs vm') : NoInstruction evs.tail := by
  cases h with
  | exec vm₁ fr outer pc ins ops res rest popped results accesses hf hst hr hp hm hpure ht =>
    exact noInstruction_effects _
  | moveLoc fr outer pc idx r t hfr hl ht hb => exact noInstruction_effects _
  | stLoc fr outer pc idx r rest t popped hfr hst ht hb => exact noInstruction_effects _
  | call fr outer pc ins frame callee params rest hf hi hst ho hn =>
    exact noInstruction_cons _ _ (fun _ _ h => by cases h) noInstruction_nil
  | callNative vm₁ fr outer pc ins frame callee params res rest results inside outside hf hi hst
      ho hn hm hret ht =>
    exact noInstruction_native frame callee.id inside _
  | ret fr outer pc hf => exact noInstruction_cons _ _ (fun _ _ h => by cases h) noInstruction_nil
  | moveCall loaded frame callee params hf ho hty hn =>
    exact noInstruction_append _ _ (noInstruction_effects _)
      (noInstruction_cons _ _ (fun _ _ h => by cases h) noInstruction_nil)
  | moveCallNative vm₁ loaded frame callee params res results inside outside hf ho hn hm ht =>
    exact noInstruction_append _ _ (noInstruction_effects _)
      (noInstruction_native frame callee.id inside _)
  | other => exact noInstruction_nil

theorem fails_tail (evs : List TraceEvent) (h : Fails db vm evs) : NoInstruction evs.tail := by
  cases h with
  | exec fr outer pc ins ops rest out popped message hf hst hr hp => exact noInstruction_effects _
  | control fr outer pc ins message hf hc => exact noInstruction_effects _
  | native fr outer pc ins frame callee params rest message hf hi hst ho hn =>
    exact noInstruction_cons _ _ (fun _ _ h => by cases h)
      (noInstruction_cons _ _ (fun _ _ h => by cases h) noInstruction_nil)

/- An event of a joined trace belongs to the first part or to the second. -/
theorem split_append (l m pre post : List TraceEvent) (ev : TraceEvent)
    (h : l ++ m = pre ++ ev :: post) :
    (∃ a, l = pre ++ ev :: a) ∨ ∃ a, pre = l ++ a ∧ m = a ++ ev :: post := by
  rcases List.append_eq_append_iff.mp h with ⟨a, hpre, hm⟩ | ⟨a, hl, hpost⟩
  · exact .inr ⟨a, hpre, hm⟩
  · cases a with
    | nil => exact .inr ⟨[], by simpa using hl.symm, by simpa using hpost.symm⟩
    | cons x a =>
      obtain ⟨rfl, _⟩ := List.cons.inj hpost
      exact .inl ⟨a, hl⟩

/- So an instruction among the events of a step is the first of them. -/
theorem head_of_tail (evs pre post : List TraceEvent) (pc : ℕ) (ins : Bytecode)
    (h : NoInstruction evs.tail) (heq : evs = pre ++ .instruction pc ins :: post) : pre = [] := by
  cases pre with
  | nil => rfl
  | cons ev pre =>
    subst heq
    exact absurd (by simp) (h pc ins)

theorem fails_error (evs : List TraceEvent) (h : Fails db vm evs) :
    ∃ m, .effect (.executionError m) ∈ evs := by
  cases h with
  | exec fr outer pc ins ops rest out popped message hf hst hr hp =>
    exact ⟨message, by simp [effects]⟩
  | control fr outer pc ins message hf hc => exact ⟨message, by simp [effects]⟩
  | native fr outer pc ins frame callee params rest message hf hi hst ho hn =>
    exact ⟨message, by simp⟩

end Frames

/-! ### The tracer in step -/

section Lockstep

variable {σ φ : Type} {hooks : Hooks σ φ} {o : σ} {I : Interp ArgVar} {U : ZInt → Prop} {vm vm' : Vm}
  {w : MovySuiTracerWrapper σ φ}

/- The tracer is in step at an instruction, and takes it without a panic. -/
structure InStep (hooks : Hooks σ φ) (w : MovySuiTracerWrapper σ φ) (pc : ℕ) (ins : Bytecode) :
    Prop where
  height : w.tracer.concolic.stack.length = w.state.operandStack.length
  enabled : w.tracer.concolic.disable = false
  handled : ∃ w', w.notify hooks (.instruction pc ins) = some w' ∧
    w'.tracer.concolic.disable = false

theorem inStep_of_advances (hf : Follows hooks I U vm w) (hne : vm.frames ≠ []) (pc : ℕ)
    (ins : Bytecode) (rest : List TraceEvent)
    (h : Advances hooks I U vm' w (.instruction pc ins :: rest)) : InStep hooks w pc ins := by
  refine ⟨heights hf hne, hf.enabled, ?_⟩
  obtain ⟨w', hw', hf'⟩ := h
  obtain ⟨w₁, hw₁, hrest⟩ := run_cons _ _ _ _ _ hw'
  refine ⟨w₁, hw₁, ?_⟩
  cases hd : w₁.tracer.concolic.disable with
  | false => rfl
  | true =>
    have := disabled_run hd rest hrest
    rw [hf'.enabled] at this
    cases this

theorem inStep_of_shadow (hq : hooks.Quiet) (hf : Follows hooks I U vm w) (fr : VmFrame)
    (outer : List VmFrame) (hfr : vm.frames = fr :: outer) (pc : ℕ) (ins : Bytecode)
    (extra : Option InstructionExtraInformation) (c : ConcolicState) (k : Option ZBool)
    (hx : fromResolver ins w.tracer.resolver fr.versionId fr.code.selfId = some extra)
    (hs : w.tracer.concolic.shadowInstruction ins w.state.operandStack extra = some (c, k))
    (hd : c.disable = w.tracer.concolic.disable) : InStep hooks w pc ins := by
  obtain ⟨w', hw', hi⟩ := follows_instruction hq hf fr outer hfr pc ins extra c k hx hs
  exact ⟨heights hf (by simp [hfr]), hf.enabled, w', hw', by rw [hi.concolic, hd, hf.enabled]⟩

theorem control_shadow (c : ConcolicState) (ins : Bytecode) (stack : List TraceValue)
    (h : ins.Control) : ∃ c', c.shadowInstruction ins stack none = some (c', none) ∧
      c'.disable = c.disable := by
  cases h with
  | moveLoc idx =>
    refine ⟨_, rfl, ?_⟩
    unfold moveLocal
    split <;> rfl
  | stLoc idx =>
    refine ⟨_, rfl, ?_⟩
    unfold storeLocal
    split <;> rfl
  | call idx => exact ⟨c, rfl, rfl⟩
  | callGeneric idx => exact ⟨c, rfl, rfl⟩
  | ret => exact ⟨c, rfl, rfl⟩

/- A step of the VM, of which no term is trusted. -/
theorem advances_untrusted (hq : hooks.Quiet) (hU : ∀ e, U e) (hf : Follows hooks I U vm w)
    (hres : ∀ fr ∈ vm.frames, storedModule hooks.db fr = some fr.code) (evs : List TraceEvent)
    (hs : Step hooks.db vm evs vm') : Advances hooks I U vm' w evs :=
  follows_step hq hf evs hs
    (fun _ _ _ fr _ _ hfr _ => hres fr (by simp [hfr]))
    (careful_untrusted hU evs) (.inl hU)

theorem inStep_of_fails (hq : hooks.Quiet) (hU : ∀ e, U e) (hf : Follows hooks I U vm w)
    (hres : ∀ fr ∈ vm.frames, storedModule hooks.db fr = some fr.code) (evs : List TraceEvent)
    (hs : Fails hooks.db vm evs) (pc : ℕ) (ins : Bytecode) (rest : List TraceEvent)
    (hev : evs = .instruction pc ins :: rest) : InStep hooks w pc ins := by
  cases hs with
  | exec fr outer pc' ins' ops orest out popped message hfr hst hr hp =>
    cases hev
    have hne : vm.frames ≠ [] := by simp [hfr]
    obtain ⟨ss, srest, hcs, hss, hsrest⟩ := forall₂_split ops orest (hst ▸ hf.fits hne)
    obtain ⟨ts, trest, hct, hts, htrest⟩ := forall₂_split ops orest (hst ▸ hf.shown hne)
    obtain ⟨locals, louter, hcl, hl, _⟩ := forall₂_cons_inv fr outer (hfr ▸ hf.locals)
    have hmod := moduleRef_eq hf fr (by simp [hfr])
    obtain ⟨extra, syms, k, hx, hshadow, _⟩ := shadows_runs I U vm fr ins ops out hr
      w.tracer.resolver (fun _ => hmod.trans (hres fr (by simp [hfr]))) w.tracer.concolic ss srest
      locals louter ts trest orest hcs hcl hss hts hl fun _ _ _ _ _ _ e _ _ => hU e
    rw [← hct] at hshadow
    exact inStep_of_shadow hq hf fr outer hfr pc ins extra _ k hx hshadow rfl
  | control fr outer pc' ins' message hfr hc =>
    cases hev
    obtain ⟨c, hshadow, hd⟩ := control_shadow w.tracer.concolic ins w.state.operandStack hc
    exact inStep_of_shadow hq hf fr outer hfr pc ins none c none (by cases hc <;> rfl) hshadow hd
  | native fr outer pc' ins' frame callee params prest message hfr hi hst ho hn =>
    cases hev
    obtain ⟨w', hw', hins⟩ := call_instruction hq hf fr outer hfr pc ins hi
    exact ⟨heights hf (by simp [hfr]), hf.enabled, w', hw', by rw [hins.concolic, hf.enabled]⟩

/- An instruction is run in a frame. -/
theorem step_running (pc : ℕ) (ins : Bytecode) (rest : List TraceEvent)
    (h : Step hooks.db vm (.instruction pc ins :: rest) vm') : vm.frames ≠ [] := by
  generalize hev : TraceEvent.instruction pc ins :: rest = evs at h
  cases h with
  | moveCall loaded frame callee params hf ho hty hn => cases hev
  | moveCallNative vm₁ loaded frame callee params res results inside outside hf ho hn hm ht =>
    cases hev
  | other => cases hev
  | exec vm₁ fr outer pc ins ops res rest popped results accesses hf hst hr hp hm hpure ht =>
    simp [hf]
  | moveLoc fr outer pc idx r t hfr hl ht hb => simp [hfr]
  | stLoc fr outer pc idx r rest t popped hfr hst ht hb => simp [hfr]
  | call fr outer pc ins frame callee params rest hf hi hst ho hn => simp [hf]
  | callNative vm₁ fr outer pc ins frame callee params res rest results inside outside hf hi hst
      ho hn hm hret ht => simp [hf]
  | ret fr outer pc hf => simp [hf]

/- The run lemma: the tracer follows the VM over every run. -/
theorem emits_follows (hq : hooks.Quiet) (hU : ∀ e, U e) (evs : List TraceEvent)
    (h : Emits hooks.db evs vm)
    (hres : ∀ frame, .openFrame frame ∈ evs → PackageResolves hooks.db frame) :
    ∃ w, run (notify hooks) (new o) evs = some w ∧ Follows hooks I U vm w := by
  induction h with
  | start => exact ⟨_, rfl, follows_start⟩
  | step evs evs' vm vm' h hs ih =>
    have hres' := fun frame hf => hres frame (List.mem_append_left _ hf)
    obtain ⟨w, hw, hf⟩ := ih hres'
    obtain ⟨w', hw', hf'⟩ := advances_untrusted hq hU hf (emits_resolves evs h hres') evs' hs
    exact ⟨w', by rw [run_append, hw, Option.bind_some, hw'], hf'⟩

theorem emits_inStep (hq : hooks.Quiet) (evs : List TraceEvent) (h : Emits hooks.db evs vm)
    (hres : ∀ frame, .openFrame frame ∈ evs → PackageResolves hooks.db frame)
    (pre post : List TraceEvent) (pc : ℕ) (ins : Bytecode)
    (hev : evs = pre ++ .instruction pc ins :: post) :
    ∃ w, run (notify hooks) (new o) pre = some w ∧ InStep hooks w pc ins := by
  induction h generalizing post with
  | start => simp at hev
  | step evs evs' vm vm' h hs ih =>
    have hres' := fun frame hf => hres frame (List.mem_append_left _ hf)
    rcases split_append evs evs' pre post _ hev with ⟨a, ha⟩ | ⟨a, hpre, hevs'⟩
    · exact ih hres' a ha
    · obtain rfl := head_of_tail evs' a post pc ins (step_tail evs' hs) hevs'
      obtain rfl : pre = evs := by simpa using hpre
      obtain rfl : evs' = .instruction pc ins :: post := hevs'
      obtain ⟨w, hw, hf⟩ := emits_follows (o := o) (I := ⟨fun _ => 0, id, id, id⟩)
        (U := fun _ => True) hq (fun _ => trivial) pre h hres'
      exact ⟨w, hw, inStep_of_advances hf (step_running pc ins post hs) pc ins post
        (advances_untrusted hq (fun _ => trivial) hf (emits_resolves pre h hres') _ hs)⟩

/- At every instruction before the first error. -/
theorem trace_inStep (o : σ) (hq : hooks.Quiet) (evs : List TraceEvent) (ht : Trace hooks.db evs)
    (hres : ∀ frame, .openFrame frame ∈ evs → PackageResolves hooks.db frame)
    (pre post : List TraceEvent) (pc : ℕ) (ins : Bytecode)
    (hev : evs = pre ++ .instruction pc ins :: post)
    (hbefore : ∀ m, .effect (.executionError m) ∉ pre) :
    ∃ w, run (notify hooks) (new o) pre = some w ∧ InStep hooks w pc ins := by
  cases ht with
  | running evs vm h => exact emits_inStep hq evs h hres pre post pc ins hev
  | failed evs evs' after vm h hf =>
    have hres' := fun frame hf => hres frame (List.mem_append_left _ hf)
    rcases split_append evs _ pre post _ hev with ⟨a, ha⟩ | ⟨a, hpre, hfail⟩
    · exact emits_inStep hq evs h hres' pre a pc ins ha
    rcases split_append evs' after a post _ hfail with ⟨b, hb⟩ | ⟨b, hb, _⟩
    · -- the instruction that fails
      obtain rfl := head_of_tail evs' a b pc ins (fails_tail evs' hf) hb
      obtain rfl : pre = evs := by simpa using hpre
      obtain ⟨w, hw, hfol⟩ := emits_follows (o := o) (I := ⟨fun _ => 0, id, id, id⟩)
        (U := fun _ => True) hq (fun _ => trivial) pre h hres'
      exact ⟨w, hw, inStep_of_fails hq (fun _ => trivial) hfol (emits_resolves pre h hres') evs' hf
        pc ins b hb⟩
    · obtain ⟨m, hm⟩ := fails_error evs' hf
      refine absurd ?_ (hbefore m)
      rw [hpre, hb]
      exact List.mem_append_right _ (List.mem_append_left _ hm)

end Lockstep

/-! ### A small program

The function `f(x: u64, y: u64)` moves its arguments to the stack and compares
them. -/

section Sample

open Movy.Store (ObjectID)

def sampleModule : CompiledModule where
  selfId := ⟨ObjectID.ofByte 2, "m"⟩
  structDefs := []
  structInstantiations := []
  enumDefs := []
  enumInstantiations := []
  variantHandles := []
  variantInstantiationHandles := []

def sampleHooks : Hooks Unit Unit where
  db _ := .ok (some [some sampleModule])
  oracle _ _ _ _ _ _ := ((), some [])

def sampleCallee : VmFrame := ⟨0, ObjectID.ofByte 2, "f", sampleModule⟩

variable (x y : Fin (2 ^ IntWidth.w64.bits))

def sampleFrame : Frame where
  frameId := 0
  functionName := "f"
  moduleId := sampleModule.selfId
  versionId := ObjectID.ofByte 2
  parameters := [.runtimeValue (.int .w64 x), .runtimeValue (.int .w64 y)]
  returnTypes := []
  localsTypes := [⟨.u64, none⟩, ⟨.u64, none⟩]
  isNative := false

def sampleParams : List RtValue := [.val (.int .w64 x), .val (.int .w64 y)]

def sampleCalled : Vm :=
  (Vm.start.moveCall [] (sampleParams x y)).openFrame sampleCallee (sampleParams x y)

def sampleLeft : Vm :=
  { (sampleCalled x y).setLocal 0 0 none with stack := [.val (.int .w64 x)] }

def sampleBoth : Vm :=
  { (sampleLeft x y).setLocal 0 1 none with stack := [.val (.int .w64 y), .val (.int .w64 x)] }

def sampleDone (b : Bool) : Vm := { sampleBoth x y with stack := [.val (.bool b)] }

def sampleCall : List TraceEvent :=
  .external .moveCallStart :: (effects (loads []) ++ [.openFrame (sampleFrame x y)])

def sampleMove (idx : ℕ) : List TraceEvent :=
  .instruction idx (.moveLoc idx) ::
    effects [.read (.ofLocal 0 idx) true, .push (.runtimeValue (.int .w64 x))]

def sampleCompare (op : CmpOp) (b : Bool) : List TraceEvent :=
  .instruction 2 op.code :: effects
    (pops [.runtimeValue (.int .w64 y), .runtimeValue (.int .w64 x)] ++ [] ++
      pushes [.runtimeValue (.bool b)])

theorem sample_quiet : sampleHooks.Quiet := fun _ _ _ _ _ _ => rfl

theorem sample_params (i : ℕ) (r : RtValue) (h : (sampleParams x y)[i]? = some r) :
    ∃ n, r = .val (.int .w64 n) := by
  match i with
  | 0 => exact ⟨x, (Option.some.inj h).symm⟩
  | 1 => exact ⟨y, (Option.some.inj h).symm⟩
  | _ + 2 => cases h

/- No reference is ever made. -/
theorem sample_called_live (l : Location) : ¬(sampleCalled x y).Live l := by
  intro hall
  obtain ⟨m, h | ⟨fr, hfr, i, h⟩⟩ := hall
  · cases h
  · obtain rfl := List.mem_singleton.mp hfr
    obtain ⟨n, hn⟩ := sample_params x y i _ h
    cases hn

theorem sample_left_live (l : Location) : ¬(sampleLeft x y).Live l := by
  intro hall
  obtain ⟨m, h | ⟨fr, hfr, i, h⟩⟩ := hall
  · simp [sampleLeft] at h
  · obtain rfl := List.mem_singleton.mp hfr
    change ((sampleCalled x y).setLocal 0 0 none).locals 0 i = _ at h
    rw [setLocal_locals] at h
    split_ifs at h
    obtain ⟨n, hn⟩ := sample_params x y i _ h
    cases hn

theorem sample_step_call :
    Step sampleHooks.db Vm.start (sampleCall x y) (sampleCalled x y) := by
  refine .moveCall Vm.start [] (sampleFrame x y) sampleCallee (sampleParams x y) rfl ?_ ?_ rfl
  · refine ⟨rfl, rfl, rfl, rfl, .cons rfl (.cons rfl .nil), fun _ h => (by cases h), ?_, ?_⟩
    · rintro l i ⟨m, h | ⟨fr, hfr, _⟩⟩
      · cases h
      · cases hfr
    · intro modules m hdb hm _
      cases hdb
      show m = sampleModule
      simpa using hm
  · intro i ty r hty hr _ bits hbits
    obtain ⟨n, rfl⟩ := sample_params x y i r hr
    refine ⟨⟨_, rfl⟩, ?_⟩
    have hu64 : ty.type = .u64 := by
      match i with
      | 0 => cases hty; rfl
      | 1 => cases hty; rfl
      | _ + 2 => cases hty
    rw [hu64] at hbits
    exact hbits

theorem sample_step_left :
    Step sampleHooks.db (sampleCalled x y) (sampleMove x 0) (sampleLeft x y) :=
  .moveLoc (sampleCalled x y) sampleCallee [] 0 0 (.val (.int .w64 x)) _ rfl rfl rfl
    fun l hl => absurd hl (sample_called_live x y l)

theorem sample_step_both :
    Step sampleHooks.db (sampleLeft x y) (sampleMove y 1) (sampleBoth x y) :=
  .moveLoc (sampleLeft x y) sampleCallee [] 1 1 (.val (.int .w64 y)) _ rfl rfl rfl
    fun l hl => absurd hl (sample_left_live x y l)

theorem rewrites_refl (vm : Vm) : Rewrites vm vm [] := by
  refine ⟨rfl, rfl, rfl, fun _ h => (by cases h), fun f i => ?_, fun _ h => .inl h,
    fun _ _ _ => rfl⟩
  cases vm.locals f i with
  | none => exact .none
  | some r =>
    cases r with
    | val v => exact .val v v rfl
    | ref m l => exact .ref m l

theorem sample_step_compare (op : CmpOp) (b : Bool)
    (h : Runs (sampleBoth x y) sampleCallee op.code
      [.val (.int .w64 y), .val (.int .w64 x)] (some [.val (.bool b)])) :
    Step sampleHooks.db (sampleBoth x y) (sampleCompare x y op b) (sampleDone x y b) := by
  have hm := rewrites_refl { sampleBoth x y with stack := [] }
  exact .exec (sampleBoth x y) { sampleBoth x y with stack := [] } sampleCallee [] 2 op.code _ _ []
    _ _ [] rfl rfl h rfl hm (fun _ => rfl) (.cons rfl .nil)

/- Its call resolves. -/
theorem sample_resolves (frame : Frame) (b : Bool) (op : CmpOp)
    (h : .openFrame frame ∈ sampleCall x y ++ sampleMove x 0 ++ sampleMove y 1 ++
      sampleCompare x y op b) : PackageResolves sampleHooks.db frame := by
  have hframe : frame = sampleFrame x y := by
    simpa [sampleCall, sampleMove, sampleCompare, effects, loads, pops, pushes] using h
  subst hframe
  exact ⟨[sampleModule], rfl, sampleModule, List.mem_singleton.mpr rfl, rfl⟩

theorem sample_emits (op : CmpOp) (b : Bool)
    (h : Runs (sampleBoth x y) sampleCallee op.code
      [.val (.int .w64 y), .val (.int .w64 x)] (some [.val (.bool b)])) :
    Emits sampleHooks.db (sampleCall x y ++ sampleMove x 0 ++ sampleMove y 1 ++
      sampleCompare x y op b) (sampleDone x y b) :=
  .step _ _ _ _ (.step _ _ _ _ (.step _ _ _ _ (.step _ _ _ _ .start (sample_step_call x y))
    (sample_step_left x y)) (sample_step_both x y)) (sample_step_compare x y op b h)

/- Comparing 1 with 2: the comparison finds both stacks at two. -/
theorem trace_inStep_sample :
    ∃ w, run (notify sampleHooks) (new ()) (sampleCall 1 2 ++ sampleMove 1 0 ++ sampleMove 2 1) =
      some w ∧ InStep sampleHooks w 2 .lt :=
  trace_inStep () sample_quiet _
    (.running _ _ (sample_emits 1 2 .lt true (.order .lt (by decide) (by decide) .w64 1 2)))
    (fun frame h => sample_resolves 1 2 frame true .lt h) _ _ 2 .lt rfl
    (by simp [sampleCall, sampleMove, effects, loads])

end Sample

end Movy.Tracer
