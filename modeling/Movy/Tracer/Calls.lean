import Movy.Tracer.Follow

/-!
# Frames

Calls, natives, returns and the calls of the transaction: the steps of the VM
that open and close frames.
-/

namespace Movy.Tracer

open Movy.Store (ObjectID)
open Movy.Types (MoveTypeTag)
open ConcolicState MovySuiTracerWrapper InstructionExtraInformation

variable {σ φ : Type} {hooks : Hooks σ φ} {I : Interp ArgVar} {U : ZInt → Prop} {vm : Vm}
  {w : MovySuiTracerWrapper σ φ}

/-! ### A new frame does not touch the memory in use -/

theorem openFrame_primOf (fr : VmFrame) (params : List RtValue)
    (hb : ∀ l i, vm.Live l → l.root ≠ .ofLocal fr.id i) (r : RtValue)
    (hr : ∀ m l, r = .ref m l → vm.Live l) :
    (vm.openFrame fr params).primOf r = vm.primOf r := by
  refine primOf_congr r fun m l hl => readLoc_congr l (fun f i hroot => ?_) rfl
  simp only [Vm.openFrame]
  rw [Function.update_of_ne]
  rintro rfl
  exact hb l i (hr m l hl) hroot

theorem openFrame_fits (fr : VmFrame) (params : List RtValue)
    (hb : ∀ l i, vm.Live l → l.root ≠ .ofLocal fr.id i) (ss : List SymbolValue)
    (rs : List RtValue) (hsub : ∀ r ∈ rs, r ∈ vm.stack) (h : List.Forall₂ (Fits I U vm) ss rs) :
    List.Forall₂ (Fits I U (vm.openFrame fr params)) ss rs :=
  forall₂_zip h fun p hp hfit => fits_across p.1 p.2 p.2 hfit
    (openFrame_primOf fr params hb p.2 (live_stack p.2 (hsub p.2 (List.of_mem_zip hp).2)))

theorem openFrame_shows (fr : VmFrame) (params : List RtValue)
    (hb : ∀ l i, vm.Live l → l.root ≠ .ofLocal fr.id i) (ts : List TraceValue)
    (rs : List RtValue) (hsub : ∀ r ∈ rs, r ∈ vm.stack) (h : List.Forall₂ (Shows vm) ts rs) :
    List.Forall₂ (Shows (vm.openFrame fr params)) ts rs := by
  refine forall₂_zip h fun p hp hshow => shows_across p.1 p.2 hshow fun _ _ _ => ?_
  rw [Vm.kindOf, Vm.kindOf,
    openFrame_primOf fr params hb p.2 (live_stack p.2 (hsub p.2 (List.of_mem_zip hp).2))]

theorem openFrame_outer (fr : VmFrame) (params : List RtValue)
    (hb : ∀ l i, vm.Live l → l.root ≠ .ofLocal fr.id i) (hfresh : ∀ f ∈ vm.frames, f.id < fr.id)
    (ls : List (List SymbolValue)) (h : List.Forall₂ (LocalsFit I U vm) ls vm.frames) :
    List.Forall₂ (LocalsFit I U (vm.openFrame fr params)) ls vm.frames := by
  refine forall₂_zip h fun p hp hfit => ?_
  intro i s r hs hr
  have hmem := (List.of_mem_zip hp).2
  simp only [Vm.openFrame] at hr
  rw [Function.update_of_ne (hfresh p.2 hmem).ne] at hr
  exact fits_across s r r (hfit i s r hs hr)
    (openFrame_primOf fr params hb r (live_local p.2 hmem i r hr))

/- The symbols of the arguments become those of the first locals. -/
theorem openFrame_params (fr : VmFrame) (params : List RtValue) (ss : List SymbolValue) (n : ℕ)
    (h : List.Forall₂ (Fits I U (vm.openFrame fr params)) ss params.reverse) :
    LocalsFit I U (vm.openFrame fr params) (ss.reverse ++ List.replicate n .unknown) fr := by
  intro i s r hs hr
  simp only [Vm.openFrame, Function.update_self] at hr
  have hrev : List.Forall₂ (Fits I U (vm.openFrame fr params)) ss.reverse params := by
    rw [← List.forall₂_reverse_iff, List.reverse_reverse]
    exact h
  obtain ⟨hi, hget⟩ := List.getElem?_eq_some_iff.mp hr
  have hlt : i < ss.reverse.length := by
    rw [hrev.length_eq]
    exact hi
  rw [List.getElem?_append_left hlt, List.getElem?_eq_getElem hlt] at hs
  cases hs
  subst hget
  exact (List.forall₂_iff_get.mp hrev).2 i hlt hi

/-! ### What the engine and the resolver do -/

theorem onOpenFrameInner_call (c : ConcolicState) (frame : Frame) (ss srest : List SymbolValue)
    (locals : List SymbolValue) (outer : List (List SymbolValue)) (hl : c.locals = locals :: outer)
    (hc : c.stack = ss ++ srest) (hlen : ss.length = frame.parameters.length) :
    c.onOpenFrameInner frame =
      { c with
        locals := (ss.reverse ++ List.replicate (frame.localsTypes.length - ss.length) .unknown) ::
          c.locals
        stack := if frame.isNative = true
          then List.replicate frame.returnTypes.length .unknown ++ srest else srest } := by
  have hmin : min frame.parameters.length (ss ++ srest).length = ss.length := by
    rw [List.length_append, ← hlen]
    omega
  simp only [onOpenFrameInner, hl, List.isEmpty_cons, Bool.false_eq_true, if_false, hc, hmin,
    List.take_left, List.drop_left, List.length_reverse]

/- The fields of the tracer after a frame was opened. -/
structure Opened (hooks : Hooks σ φ) (w w' : MovySuiTracerWrapper σ φ) (frame : Frame)
    (fr : VmFrame) : Prop where
  concolic : w'.tracer.concolic = w.tracer.concolic.onOpenFrameInner frame
  functions : w'.tracer.currentFunctions = fr.ident :: w.tracer.currentFunctions
  filled : FilledFrom hooks.db w'.tracer.resolver
  loaded : w'.tracer.resolver.packages fr.versionId = stored hooks.db fr.versionId
  kept : ∀ id, w.tracer.resolver.packages id = stored hooks.db id →
    w'.tracer.resolver.packages id = stored hooks.db id
  stack : w'.state.operandStack = w.state.operandStack.drop frame.parameters.length

theorem open_notify (frame : Frame) (fr : VmFrame) (params : List RtValue)
    (ho : Opens hooks.db vm frame fr params) (hd : w.tracer.concolic.disable = false)
    (hfill : FilledFrom hooks.db w.tracer.resolver) (hm : Mirrors vm w.state) :
    ∃ w', w.notify hooks (.openFrame frame) = some w' ∧ Opened hooks w w' frame fr ∧
      Mirrors (vm.openFrame fr params) w'.state := by
  obtain ⟨s', hs', hmir, hstack, _⟩ := mirrors_open hooks.db frame fr params hm ho
  refine ⟨_, notify_open hooks w frame s' hd hs', ⟨rfl, ?_, ?_, ?_, ?_, hstack⟩, hmir⟩
  · simp only [VmFrame.ident, ho.version, ho.moduleId, ho.function]
  · exact mayLoadPackage_filled hooks.db _ _ hfill
  · rw [mayLoadPackage_packages hooks.db _ _ _ hfill, if_pos ho.version.symm, ho.version]
  · intro id hid
    rw [mayLoadPackage_packages hooks.db _ _ _ hfill]
    split_ifs with h
    · rw [h]
    · exact hid

theorem opens_stored (frame : Frame) (fr : VmFrame) (params : List RtValue)
    (ho : Opens hooks.db vm frame fr params) :
    storedModule hooks.db fr = some fr.code ∨ storedModule hooks.db fr = none := by
  unfold storedModule stored
  cases hdb : hooks.db fr.versionId with
  | error e => exact .inr rfl
  | ok found =>
    cases found with
    | none => exact .inr rfl
    | some modules =>
      exact collect_or fr.code.selfId fr.code modules none (.inr rfl)
        fun m hm hid => ho.stored modules m hdb hm hid

theorem resolves_stored (db : PackageStore) (fr : VmFrame) (h : Resolves db fr) :
    storedModule db fr = some fr.code := by
  obtain ⟨modules, hdb, hmem, huniq⟩ := h
  simp only [storedModule, stored, hdb]
  exact collect_mem fr.code.selfId fr.code modules none rfl (.inl hmem) huniq

/-! ### Calls within a frame -/

theorem call_instruction (hq : hooks.Quiet) (hf : Follows hooks I U vm w) (fr : VmFrame)
    (outer : List VmFrame) (hfr : vm.frames = fr :: outer) (pc : ℕ) (ins : Bytecode)
    (hi : ∃ idx, ins = .call idx ∨ ins = .callGeneric idx) :
    ∃ w', w.notify hooks (.instruction pc ins) = some w' ∧
      Instructed w w' w.tracer.concolic := by
  obtain ⟨idx, rfl | rfl⟩ := hi
  · exact follows_instruction hq hf fr outer hfr pc _ none _ none rfl rfl
  · exact follows_instruction hq hf fr outer hfr pc _ none _ none rfl rfl

/- The stacks of the tracer at a call: the arguments, which it gives to the frame, and the
rest. -/
theorem call_splits (hf : Follows hooks I U vm w) (fr : VmFrame) (outer : List VmFrame)
    (hfr : vm.frames = fr :: outer) (frame : Frame) (callee : VmFrame) (params rest : List RtValue)
    (hs : vm.stack = params.reverse ++ rest) (ho : Opens hooks.db vm frame callee params) :
    ∃ ss srest, w.tracer.concolic.stack = ss ++ srest ∧ ss.length = frame.parameters.length ∧
      List.Forall₂ (Fits I U vm) ss params.reverse ∧ List.Forall₂ (Fits I U vm) srest rest ∧
      List.Forall₂ (Shows vm) (w.state.operandStack.drop frame.parameters.length) rest ∧
      w.tracer.concolic.onOpenFrameInner frame =
        { w.tracer.concolic with
          locals := (ss.reverse ++ List.replicate (frame.localsTypes.length - ss.length) .unknown) ::
            w.tracer.concolic.locals
          stack := if frame.isNative = true
            then List.replicate frame.returnTypes.length .unknown ++ srest else srest } := by
  have hne : vm.frames ≠ [] := by simp [hfr]
  obtain ⟨ss, srest, hcs, hss, hsrest⟩ := forall₂_split params.reverse rest (hs ▸ hf.fits hne)
  obtain ⟨ts, trest, hct, hts, htrest⟩ := forall₂_split params.reverse rest (hs ▸ hf.shown hne)
  obtain ⟨locals, louter, hcl, _, _⟩ := forall₂_cons_inv fr outer (hfr ▸ hf.locals)
  have hparams : frame.parameters.length = params.length := ho.params.length_eq
  have hlen : ss.length = frame.parameters.length := by
    rw [hss.length_eq, List.length_reverse, hparams]
  have hdrop : w.state.operandStack.drop frame.parameters.length = trest := by
    rw [hct, hparams, ← List.length_reverse, ← hts.length_eq, List.drop_left]
  exact ⟨ss, srest, hcs, hlen, hss, hsrest, hdrop ▸ htrest,
    onOpenFrameInner_call w.tracer.concolic frame ss srest locals louter hcl hcs hlen⟩

theorem follows_call (hq : hooks.Quiet) (hf : Follows hooks I U vm w) (fr : VmFrame)
    (outer : List VmFrame) (pc : ℕ) (ins : Bytecode) (frame : Frame) (callee : VmFrame)
    (params rest : List RtValue) (hfr : vm.frames = fr :: outer)
    (hi : ∃ idx, ins = .call idx ∨ ins = .callGeneric idx)
    (hs : vm.stack = params.reverse ++ rest) (ho : Opens hooks.db vm frame callee params)
    (hn : frame.isNative = false) :
    Advances hooks I U { vm.openFrame callee params with stack := rest } w
      [.instruction pc ins, .openFrame frame] := by
  obtain ⟨w₁, hw₁, hins⟩ := call_instruction hq hf fr outer hfr pc ins hi
  obtain ⟨w₂, hw₂, hop, hmir⟩ := open_notify frame callee params ho
    (by rw [hins.concolic]; exact hf.enabled) (by rw [hins.resolver]; exact hf.filled)
    (by rw [hins.state]; exact hf.mirrors)
  obtain ⟨ss, srest, hcs, hlen, hss, hsrest, htrest, hinner⟩ :=
    call_splits hf fr outer hfr frame callee params rest hs ho
  rw [← hins.concolic, ← hop.concolic, hins.concolic] at hinner
  have hsub : ∀ r ∈ rest, r ∈ vm.stack := fun r hr => hs ▸ List.mem_append_right _ hr
  refine ⟨w₂, by simp only [run, hw₁, Option.bind_some, hw₂], ?_⟩
  refine ⟨?_, ?_, hop.filled, ?_, ?_, ?_, ?_, fun _ => ?_, fun _ => ?_,
    mirrors_same _ _ hmir rfl rfl rfl rfl rfl⟩
  · rw [hinner]
    exact hf.enabled
  · rw [hop.functions, hins.functions, hf.functions]
    rfl
  · intro fr' hfr'
    rcases List.mem_cons.mp hfr' with rfl | hmem
    · exact hop.loaded
    · exact hop.kept _ (by rw [hins.resolver]; exact hf.loaded fr' hmem)
  · intro fr' hfr'
    rcases List.mem_cons.mp hfr' with rfl | hmem
    · exact opens_stored frame _ params ho
    · exact hf.stored fr' hmem
  · rw [hinner]
    exact hf.calls
  · rw [locals_stack, hinner]
    refine .cons ?_ (openFrame_outer callee params ho.unborrowed ho.fresh _ hf.locals)
    refine openFrame_params callee params ss _ (openFrame_fits callee params ho.unborrowed ss _ ?_ hss)
    exact fun r hr => hs ▸ List.mem_append_left _ hr
  · rw [shows_stack, hop.stack, hins.state]
    exact openFrame_shows callee params ho.unborrowed _ rest hsub htrest
  · rw [fits_stack, hinner, hn]
    exact openFrame_fits callee params ho.unborrowed srest rest hsub hsrest

/-! ### Natives -/

theorem accesses_open (frame : Frame) (fr : VmFrame) (params : List RtValue) (db : PackageStore)
    (ho : Opens db vm frame fr params) (e : Effect) (h : Accesses vm e) :
    Accesses (vm.openFrame fr params) e := by
  have hw : ∀ l, vm.Writable l → (vm.openFrame fr params).Writable l := by
    intro l
    induction l with
    | ofLocal f i =>
      intro hall
      obtain ⟨⟨fr', hfr', rfl⟩, v, hv⟩ := hall
      refine ⟨⟨fr', List.mem_cons_of_mem _ hfr', rfl⟩, v, ?_⟩
      simp only [Vm.openFrame]
      rw [Function.update_of_ne (ho.fresh fr' hfr').ne]
      exact hv
    | indexed l i ih => exact ih
    | global id => exact fun h => h
  cases h with
  | read l => exact .read l
  | write l v hl => exact .write l v (hw l hl)
  | dataLoad id v => exact .dataLoad id v

/- The rest of a native call, after its frame was opened. -/
theorem native_tail (frame : Frame) (fr : VmFrame) (params : List RtValue) (vm' : Vm)
    (results : List TraceValue) (inside outside : List Effect)
    (ho : Opens hooks.db vm frame fr params) (hm : Rewrites vm vm' (inside ++ outside))
    (hd : w.tracer.concolic.disable = false) (hmir : Mirrors (vm.openFrame fr params) w.state) :
    ∃ b s', run (notify hooks) w
        (effects inside ++ .closeFrame fr.id :: effects (outside ++ pushes results)) =
      some ⟨{ w.tracer with
        skipConcolic := b
        concolic := w.tracer.concolic.onCloseFrameInner
        currentFunctions := w.tracer.currentFunctions.tail }, s'⟩ ∧
      Mirrors vm' s' ∧ s'.operandStack = results ++ w.state.operandStack := by
  have hrep : ∀ e ∈ inside, Accesses vm e := fun e he =>
    hm.reported e (List.mem_append_left _ he)
  have hrep' : ∀ e ∈ outside, Accesses vm e := fun e he =>
    hm.reported e (List.mem_append_right _ he)
  obtain ⟨s₁, hs₁, hacc₁, hload₁⟩ := run_accesses inside hmir
    fun e he => accesses_open frame fr params hooks.db ho e (hrep e he)
  obtain ⟨b₁, hb₁⟩ := run_effects hooks w inside s₁ hd (accesses_ne_error vm inside hrep) hs₁
  obtain ⟨s₂, hs₂, hmir₂, hstack₂, hloaded₂⟩ :=
    mirrors_close fr vm.frames rfl hacc₁.mirrors fr.id
  -- without its frame, the native has left the locals as they were
  have hmir₂' : Mirrors vm s₂ := by
    refine mirrors_congr vm s₂ hmir₂ rfl rfl (fun fr' hfr' i r hr => ?_) hmir₂.globals
    refine ⟨r, ?_, fun v hv => ⟨v, hv⟩⟩
    simp only [Vm.openFrame]
    rw [Function.update_of_ne (ho.fresh fr' hfr').ne]
    exact hr
  obtain ⟨s₃, hs₃, hacc₃, hload₃⟩ := run_accesses outside hmir₂' hrep'
  have hmir₃ : Mirrors vm' s₃ := by
    refine mirrors_rewrites vm' s₃ _ hacc₃.mirrors hm fun id v hv => ?_
    rcases List.mem_append.mp hv with hv | hv
    · exact hacc₃.loaded id (by rw [hloaded₂]; exact hload₁ id v hv)
    · exact hload₃ id v hv
  have hclose := notify_close hooks ⟨{ w.tracer with skipConcolic := b₁ }, s₁⟩ fr.id s₂ hd hs₂
  have hrun : run TraceState.applyEffect s₂ (outside ++ pushes results) =
      some { s₃ with operandStack := results ++ s₃.operandStack } := by
    rw [run_append, hs₃, Option.bind_some, run_pushes]
  have herr : ∀ e ∈ outside ++ pushes results, ∀ m, e ≠ .executionError m := by
    intro e he
    rcases List.mem_append.mp he with he | he
    · exact accesses_ne_error vm outside hrep' e he
    · exact pushes_ne_error results e he
  obtain ⟨b₃, hb₃⟩ := run_effects hooks
    ⟨{ w.tracer with
        skipConcolic := false
        concolic := w.tracer.concolic.onCloseFrameInner
        currentFunctions := w.tracer.currentFunctions.tail }, s₂⟩
    (outside ++ pushes results) _ hd herr hrun
  refine ⟨b₃, { s₃ with operandStack := results ++ s₃.operandStack }, ?_,
    mirrors_same _ _ hmir₃ rfl rfl rfl rfl rfl, ?_⟩
  · rw [run_append, hb₁, Option.bind_some]
    simp only [run, hclose, Option.bind_some]
    exact hb₃
  · show results ++ s₃.operandStack = _
    rw [hacc₃.stack, hstack₂, hacc₁.stack]

/- What the trace shows depends on the memory alone. -/
theorem traceValue_same (vm vm' : Vm) (hl : vm'.locals = vm.locals)
    (hg : vm'.globals = vm.globals) (r : RtValue) : vm'.traceValue r = vm.traceValue r := by
  have hread : ∀ l, vm'.readLoc l = vm.readLoc l := fun l =>
    readLoc_congr l (fun f i _ => by rw [hl]) hg
  cases r with
  | val v => rfl
  | ref m l => cases m <;> simp only [Vm.traceValue, hread l]

/- The arguments are gone from the stack before the frame of a native is opened. -/
theorem opens_rest (frame : Frame) (callee : VmFrame) (params rest : List RtValue)
    (db : PackageStore) (hs : vm.stack = params.reverse ++ rest)
    (ho : Opens db vm frame callee params) :
    Opens db { vm with stack := rest } frame callee params :=
  { ho with
    params := ho.params.imp fun _ r h => (traceValue_same vm { vm with stack := rest } rfl rfl r).trans h
    unborrowed := by
      rintro l i ⟨m, hl | hl⟩
      · exact ho.unborrowed l i ⟨m, .inl (hs ▸ List.mem_append_right _ hl)⟩
      · exact ho.unborrowed l i ⟨m, .inr hl⟩ }

theorem follows_callNative (hq : hooks.Quiet) (hf : Follows hooks I U vm w) (vm' : Vm)
    (fr : VmFrame) (outer : List VmFrame) (pc : ℕ) (ins : Bytecode) (frame : Frame)
    (callee : VmFrame) (params res rest : List RtValue) (results : List TraceValue)
    (inside outside : List Effect) (hfr : vm.frames = fr :: outer)
    (hi : ∃ idx, ins = .call idx ∨ ins = .callGeneric idx)
    (hs : vm.stack = params.reverse ++ rest) (ho : Opens hooks.db vm frame callee params)
    (hn : frame.isNative = true) (hm : Rewrites { vm with stack := rest } vm' (inside ++ outside))
    (hret : frame.returnTypes.length = res.length)
    (ht : List.Forall₂ (fun t r => vm'.traceValue r = some t) results res)
    (hkeep : Keeps U (w.tracer.concolic.stack.drop params.length) w.tracer.concolic.locals
      { vm with stack := rest } vm') :
    Advances hooks I U { vm' with stack := res ++ rest } w
      (.instruction pc ins :: .openFrame frame ::
        (effects inside ++ .closeFrame callee.id :: effects (outside ++ pushes results))) := by
  obtain ⟨w₁, hw₁, hins⟩ := call_instruction hq hf fr outer hfr pc ins hi
  have ho' := opens_rest frame callee params rest hooks.db hs ho
  obtain ⟨w₂, hw₂, hop, hmir⟩ := open_notify frame callee params ho'
    (by rw [hins.concolic]; exact hf.enabled) (by rw [hins.resolver]; exact hf.filled)
    (by rw [hins.state]; exact mirrors_same _ _ hf.mirrors rfl rfl rfl rfl rfl)
  obtain ⟨ss, srest, hcs, hlen, hss, hsrest, htrest, hinner⟩ :=
    call_splits hf fr outer hfr frame callee params rest hs ho
  rw [← hins.concolic, ← hop.concolic, hins.concolic, if_pos hn] at hinner
  obtain ⟨b, s', hs', hmir', hstack'⟩ := native_tail frame callee params vm' results inside outside
    ho' hm (by rw [hinner]; exact hf.enabled) hmir
  have hdrop : w.tracer.concolic.stack.drop params.length = srest := by
    rw [hcs, ← ho.params.length_eq, ← hlen, List.drop_left]
  rw [hdrop] at hkeep
  refine ⟨⟨{ w₂.tracer with
      skipConcolic := b
      concolic := w₂.tracer.concolic.onCloseFrameInner
      currentFunctions := w₂.tracer.currentFunctions.tail }, s'⟩,
    by simp only [run, hw₁, Option.bind_some, hw₂, hs'], ?_⟩
  have hframes : vm'.frames = vm.frames := hm.frames
  refine ⟨?_, ?_, hop.filled, ?_, ?_, ?_, ?_, fun _ => ?_, fun _ => ?_,
    mirrors_same _ _ hmir' rfl rfl rfl rfl rfl⟩
  · simp only [hinner, onCloseFrameInner]
    exact hf.enabled
  · simp only [hop.functions, List.tail_cons, hins.functions, hf.functions, hframes]
  · intro fr' hfr'
    exact hop.kept _ (by rw [hins.resolver]; exact hf.loaded fr' (hframes ▸ hfr'))
  · exact fun fr' hfr' => hf.stored fr' (hframes ▸ hfr')
  · simp only [hinner, onCloseFrameInner]
    exact hf.calls.trans (congrArg List.length hm.calls.symm)
  · rw [locals_stack]
    simp only [hinner, onCloseFrameInner, List.tail_cons, hframes]
    have hlocals := rewrites_locals (I := I) _ srest w.tracer.concolic.locals hm hkeep
    rw [locals_stack] at hlocals
    exact hlocals hf.locals
  · simp only [shows_stack, hstack', hop.stack, hins.state]
    refine List.rel_append (List.Forall₂.imp shows_of_trace ht) ?_
    have hshows := rewrites_shows _ (w.state.operandStack.drop frame.parameters.length) hm
    rw [shows_stack] at hshows
    exact hshows htrest
  · simp only [fits_stack, hinner, onCloseFrameInner, hret]
    refine List.rel_append (fits_replicate res) ?_
    have hrest := rewrites_fits (I := I) _ srest w.tracer.concolic.locals hm hkeep
    rw [fits_stack] at hrest
    exact hrest hsrest

theorem follows_ret (hq : hooks.Quiet) (hf : Follows hooks I U vm w) (fr : VmFrame)
    (outer : List VmFrame) (pc : ℕ) (hfr : vm.frames = fr :: outer) :
    Advances hooks I U { vm with frames := outer } w [.instruction pc .ret, .closeFrame fr.id] := by
  have hne : vm.frames ≠ [] := by simp [hfr]
  obtain ⟨w₁, hw₁, hins⟩ := follows_instruction hq hf fr outer hfr pc .ret none _ none rfl rfl
  obtain ⟨locals, louter, hcl, _, houter⟩ := forall₂_cons_inv fr outer (hfr ▸ hf.locals)
  obtain ⟨s', hs', hmir, hstack, _⟩ :=
    mirrors_close fr outer hfr (hins.state ▸ hf.mirrors) fr.id
  have hclose := notify_close hooks w₁ fr.id s' (by rw [hins.concolic]; exact hf.enabled) hs'
  have hmem : ∀ fr' ∈ outer, fr' ∈ vm.frames := fun fr' h => hfr ▸ List.mem_cons_of_mem _ h
  refine ⟨⟨{ w₁.tracer with
      skipConcolic := false
      concolic := w₁.tracer.concolic.onCloseFrameInner
      currentFunctions := w₁.tracer.currentFunctions.tail }, s'⟩,
    by simp only [run, hw₁, Option.bind_some, hclose], ?_⟩
  refine ⟨?_, ?_, ?_, ?_, fun fr' h => hf.stored fr' (hmem fr' h), ?_, ?_, fun _ => ?_,
    fun _ => ?_, hmir⟩
  · simp only [hins.concolic, onCloseFrameInner]
    exact hf.enabled
  · simp only [hins.functions, hf.functions, hfr, List.map_cons, List.tail_cons]
  · simp only [hins.resolver]
    exact hf.filled
  · intro fr' h
    simp only [hins.resolver]
    exact hf.loaded fr' (hmem fr' h)
  · simp only [hins.concolic, onCloseFrameInner]
    exact hf.calls
  · simp only [hins.concolic, onCloseFrameInner, hcl, List.tail_cons]
    rw [locals_same vm { vm with frames := outer } rfl rfl]
    exact houter
  · simp only [hstack, hins.state]
    rw [shows_same vm { vm with frames := outer } rfl rfl]
    exact hf.shown hne
  · simp only [hins.concolic, onCloseFrameInner]
    rw [fits_same vm { vm with frames := outer } rfl rfl]
    exact hf.fits hne

/-! ### The calls of the transaction -/

theorem foldl_loaded (loaded : List (ℕ × MoveValue)) (g : ℕ → Option MoveValue) (id : ℕ)
    (h : (loaded.foldl (fun (g : ℕ → Option MoveValue) e => Function.update g e.1 (some e.2)) g
      id).isSome = true) :
    (g id).isSome = true ∨ ∃ v, (id, v) ∈ loaded := by
  induction loaded generalizing g with
  | nil => exact .inl h
  | cons e rest ih =>
    rcases ih _ h with h | ⟨v, hv⟩
    · by_cases hid : id = e.1
      · exact .inr ⟨e.2, hid ▸ List.mem_cons_self ..⟩
      · simp only [Function.update_of_ne hid] at h
        exact .inl h
    · exact .inr ⟨v, List.mem_cons_of_mem _ hv⟩

/- The tracer when the arguments of a call are loaded. -/
structure Started (w w' : MovySuiTracerWrapper σ φ) : Prop where
  concolic : w'.tracer.concolic = w.tracer.concolic.onMoveCallInner
  functions : w'.tracer.currentFunctions = w.tracer.currentFunctions
  resolver : w'.tracer.resolver = w.tracer.resolver
  stack : w'.state.operandStack = []

theorem start_notify (hooks : Hooks σ φ) (vm : Vm) (hd : w.tracer.concolic.disable = false)
    (loaded : List (ℕ × MoveValue)) (params : List RtValue) :
    ∃ w', run (notify hooks) w (.external .moveCallStart :: effects (loads loaded)) = some w' ∧
      Started w w' ∧ Mirrors (vm.moveCall loaded params) w'.state := by
  have hstart := notify_start hooks w hd
  -- before the loads, no value is there
  have hmir : Mirrors { vm.moveCall loaded params with globals := fun _ => none } TraceState.new :=
    mirrors_congr _ _ mirrors_start rfl rfl (fun fr hfr => by cases hfr) fun _ h => by cases h
  have hacc : ∀ e ∈ loads loaded,
      Accesses { vm.moveCall loaded params with globals := fun _ => none } e := by
    intro e he
    obtain ⟨x, _, rfl⟩ := List.mem_map.mp he
    exact .dataLoad x.1 x.2
  obtain ⟨s, hs, hs', hload⟩ := run_accesses (loads loaded) hmir hacc
  obtain ⟨b, hb⟩ := run_effects hooks
    ⟨{ w.tracer with skipConcolic := false, concolic := w.tracer.concolic.onMoveCallInner },
      TraceState.new⟩ (loads loaded) s hd (accesses_ne_error _ _ hacc) hs
  refine ⟨⟨{ w.tracer with
      skipConcolic := b
      concolic := w.tracer.concolic.onMoveCallInner }, s⟩,
    by simp only [run, hstart, Option.bind_some, hb], ⟨rfl, rfl, rfl, hs'.stack⟩,
    mirrors_congr _ _ hs'.mirrors rfl rfl (fun fr hfr => by cases hfr) ?_⟩
  intro id hid
  rcases foldl_loaded loaded (fun _ => none) id hid with h | ⟨v, hv⟩
  · cases h
  · exact hload id v (List.mem_map.mpr ⟨(id, v), hv, rfl⟩)

theorem onOpenFrameInner_first (c : ConcolicState) (frame : Frame) (hl : c.locals = []) :
    ∃ args n, c.onOpenFrameInner frame =
      { c with
        args := c.args ++ [args]
        locals := [frame.localsTypes.mapIdx (fun i ty => resolveArg c.args.length i ty) ++
          List.replicate n .unknown] } := by
  simp only [onOpenFrameInner, hl, List.isEmpty_nil, if_true]
  exact ⟨_, _, rfl⟩

theorem resolveArg_value (k i : ℕ) (ty : TypeTagWithRefs) (e : ZInt)
    (h : resolveArg k i ty = .value e) :
    ty.refType = none ∧ e = .var (k, i) ∧ ∃ bits, primBits ty.type = some bits := by
  unfold resolveArg at h
  split_ifs at h with href
  cases hr : ty.refType with
  | some r =>
    rw [hr] at href
    exact absurd rfl href
  | none =>
    refine ⟨rfl, ?_⟩
    cases hty : ty.type <;> rw [hty] at h <;> cases h <;> exact ⟨rfl, _, rfl⟩

/- The symbol of an argument is a variable with its value. -/
theorem resolved_fits (vm₁ vm₂ : Vm) (calls : List (List RtValue)) (params : List RtValue) (i : ℕ)
    (ty : TypeTagWithRefs) (r : RtValue)
    (hty : HasType vm₁ ty r) (hr : params[i]? = some r)
    (hagree : (∀ e, U e) ∨ Agrees I (calls ++ [params])) :
    Fits I U vm₂ (resolveArg calls.length i ty) r := by
  intro e he
  obtain ⟨href, rfl, bits, hbits⟩ := resolveArg_value _ i ty e he
  obtain ⟨⟨v, rfl⟩, hkind⟩ := hty href bits hbits
  obtain ⟨p, hp, _⟩ := Option.map_eq_some_iff.mp hkind
  refine ⟨p, hp, ?_⟩
  rcases hagree with hU | hag
  · exact .of_untrusted (hU _)
  · intro _
    exact hag calls.length i params v p (by simp) hr hp

theorem follows_moveCall (hf : Follows hooks I U vm w) (loaded : List (ℕ × MoveValue))
    (frame : Frame) (callee : VmFrame) (params : List RtValue) (hfr : vm.frames = [])
    (ho : Opens hooks.db (vm.moveCall loaded params) frame callee params)
    (hty : ∀ (i : ℕ) ty r, frame.localsTypes[i]? = some ty → params[i]? = some r →
      HasType (vm.moveCall loaded params) ty r)
    (hagree : (∀ e, U e) ∨ Agrees I (vm.calls ++ [params])) :
    Advances hooks I U ((vm.moveCall loaded params).openFrame callee params) w
      (.external .moveCallStart :: (effects (loads loaded) ++ [.openFrame frame])) := by
  obtain ⟨w₁, hw₁, hst, hmir₁⟩ := start_notify hooks vm hf.enabled loaded params
  obtain ⟨w₂, hw₂, hop, hmir₂⟩ := open_notify frame callee params ho
    (by rw [hst.concolic]; exact hf.enabled) (by rw [hst.resolver]; exact hf.filled) hmir₁
  have hrun : run (notify hooks) w
      (.external .moveCallStart :: (effects (loads loaded) ++ [.openFrame frame])) = some w₂ := by
    rw [← List.cons_append, run_append, hw₁, Option.bind_some]
    simp only [run, hw₂, Option.bind_some]
  obtain ⟨args, n, hinner⟩ := onOpenFrameInner_first w.tracer.concolic.onMoveCallInner frame rfl
  rw [← hst.concolic, ← hop.concolic, hst.concolic] at hinner
  refine ⟨w₂, hrun, ?_⟩
  refine ⟨?_, ?_, hop.filled, ?_, ?_, ?_, ?_, fun _ => ?_, fun _ => ?_, hmir₂⟩
  · rw [hinner]
    exact hf.enabled
  · rw [hop.functions, hst.functions, hf.functions, hfr]
    rfl
  · intro fr hmem
    obtain rfl := List.mem_singleton.mp hmem
    exact hop.loaded
  · intro fr hmem
    obtain rfl := List.mem_singleton.mp hmem
    exact opens_stored frame _ params ho
  · rw [hinner]
    simp only [onMoveCallInner, Vm.openFrame, Vm.moveCall, List.length_append, hf.calls]
    rfl
  · rw [hinner]
    refine .cons ?_ .nil
    intro i s r hs hr
    simp only [Vm.openFrame, Function.update_self] at hr
    by_cases hi : i < frame.localsTypes.length
    · rw [List.getElem?_append_left (by simpa using hi), List.getElem?_mapIdx,
        List.getElem?_eq_getElem hi, Option.map_some] at hs
      cases hs
      show Fits I U _ (resolveArg w.tracer.concolic.args.length i _) r
      rw [hf.calls]
      exact resolved_fits _ _ vm.calls params i _ r (hty i _ r (List.getElem?_eq_getElem hi) hr) hr
        hagree
    · rw [List.getElem?_append_right (by simpa using hi)] at hs
      rw [List.eq_of_mem_replicate (List.mem_of_getElem? hs)]
      exact fits_unknown r
  · rw [hop.stack, hst.stack, List.drop_nil]
    exact .nil
  · rw [hinner]
    exact .nil

theorem follows_moveCallNative (hf : Follows hooks I U vm w) (vm' : Vm)
    (loaded : List (ℕ × MoveValue)) (frame : Frame) (callee : VmFrame) (params res : List RtValue)
    (results : List TraceValue) (inside outside : List Effect) (hfr : vm.frames = [])
    (ho : Opens hooks.db (vm.moveCall loaded params) frame callee params)
    (hm : Rewrites (vm.moveCall loaded params) vm' (inside ++ outside)) :
    Advances hooks I U { vm' with stack := res } w
      (.external .moveCallStart :: (effects (loads loaded) ++ .openFrame frame ::
        (effects inside ++ .closeFrame callee.id :: effects (outside ++ pushes results)))) := by
  obtain ⟨w₁, hw₁, hst, hmir₁⟩ := start_notify hooks vm hf.enabled loaded params
  obtain ⟨w₂, hw₂, hop, hmir₂⟩ := open_notify frame callee params ho
    (by rw [hst.concolic]; exact hf.enabled) (by rw [hst.resolver]; exact hf.filled) hmir₁
  obtain ⟨args, n, hinner⟩ := onOpenFrameInner_first w.tracer.concolic.onMoveCallInner frame rfl
  rw [← hst.concolic, ← hop.concolic, hst.concolic] at hinner
  obtain ⟨b, s', hs', hmir', _⟩ := native_tail frame callee params vm' results inside outside ho hm
    (by rw [hinner]; exact hf.enabled) hmir₂
  have hframes : vm'.frames = [] := hm.frames
  refine ⟨⟨{ w₂.tracer with
      skipConcolic := b
      concolic := w₂.tracer.concolic.onCloseFrameInner
      currentFunctions := w₂.tracer.currentFunctions.tail }, s'⟩, ?_, ?_⟩
  · rw [← List.cons_append, run_append, hw₁, Option.bind_some]
    simp only [run, hw₂, Option.bind_some, hs']
  refine ⟨?_, ?_, hop.filled, ?_, ?_, ?_, ?_, fun hne => absurd hframes hne,
    fun hne => absurd hframes hne, mirrors_same _ _ hmir' rfl rfl rfl rfl rfl⟩
  · simp only [hinner, onCloseFrameInner]
    exact hf.enabled
  · simp only [hop.functions, List.tail_cons, hst.functions, hf.functions, hfr, hframes]
  · intro fr hmem
    simp [hframes] at hmem
  · intro fr hmem
    simp [hframes] at hmem
  · simp only [hinner, onCloseFrameInner, onMoveCallInner, hm.calls, Vm.moveCall,
      List.length_append, hf.calls]
    rfl
  · simp only [hinner, onCloseFrameInner, List.tail_cons, hframes]
    exact .nil

theorem follows_other (hf : Follows hooks I U vm w) :
    Advances hooks I U vm w [.external .other] := by
  have hother := notify_other hooks w hf.enabled
  refine ⟨⟨{ w.tracer with skipConcolic := false }, w.state⟩,
    by simp only [run, hother, Option.bind_some], ?_⟩
  exact ⟨hf.enabled, hf.functions, hf.filled, hf.loaded, hf.stored, hf.calls, hf.locals, hf.shown,
    hf.fits, hf.mirrors⟩

end Movy.Tracer
