import Movy.Tracer.Vm

/-!
# The trace state mirrors the VM

`TraceState` rebuilds frames, locals and loaded values from the effects alone.
As long as the events follow the VM it knows every open frame, every live
local and every loaded value, so that none of its lookups fails.
-/

namespace Movy.Tracer

open TraceState

structure Mirrors (vm : Vm) (s : TraceState) : Prop where
  frames : ∀ f, (s.callStack.get? f).isSome = true ↔ ∃ fr ∈ vm.frames, fr.id = f
  locals : ∀ fr ∈ vm.frames, ∀ L, s.callStack.get? fr.id = some L → ∀ i r,
    vm.locals fr.id i = some r → ∃ t, L.1 i = some t ∧ ∀ v, r = .val v → t.isRuntime = true
  ordered : vm.frames.Pairwise fun a b => b.id < a.id
  globals : ∀ id, (vm.globals id).isSome = true → (s.loadedState id).isSome = true

variable {vm : Vm} {s : TraceState}

theorem mirrors_start : Mirrors Vm.start TraceState.new where
  frames f := by
    refine ⟨fun h => ?_, fun h => ?_⟩
    · cases h
    · obtain ⟨fr, hfr, _⟩ := h
      cases hfr
  locals fr hfr := by cases hfr
  ordered := .nil
  globals id h := by cases h

/- Only the open frames, their locals and the loaded values matter. -/
theorem mirrors_congr (vm' : Vm) (s' : TraceState) (h : Mirrors vm s)
    (hf : vm'.frames = vm.frames) (hc : s'.callStack = s.callStack)
    (hl : ∀ fr ∈ vm.frames, ∀ i r', vm'.locals fr.id i = some r' →
      ∃ r, vm.locals fr.id i = some r ∧ ∀ v', r' = .val v' → ∃ v, r = .val v)
    (hg : ∀ id, (vm'.globals id).isSome = true → (s'.loadedState id).isSome = true) :
    Mirrors vm' s' where
  frames f := by
    rw [hf, hc]
    exact h.frames f
  locals fr hfr L hL i r' hr' := by
    rw [hf] at hfr
    rw [hc] at hL
    obtain ⟨r, hr, hval⟩ := hl fr hfr i r' hr'
    obtain ⟨t, ht, hrt⟩ := h.locals fr hfr L hL i r hr
    refine ⟨t, ht, fun v' hv' => ?_⟩
    obtain ⟨v, hv⟩ := hval v' hv'
    exact hrt v hv
  ordered := hf ▸ h.ordered
  globals := hg

theorem mirrors_rewrites (vm' : Vm) (s' : TraceState) (accesses : List Effect) (h : Mirrors vm s')
    (hm : Rewrites vm vm' accesses)
    (hload : ∀ id v, Effect.dataLoad (.global id) v ∈ accesses →
      (s'.loadedState id).isSome = true) : Mirrors vm' s' := by
  refine mirrors_congr vm' s' h hm.frames rfl ?_ ?_
  · intro fr _ i r' hr'
    have hshape := hm.locals fr.id i
    rw [hr'] at hshape
    cases hr : vm.locals fr.id i with
    | none =>
      rw [hr] at hshape
      cases hshape
    | some r =>
      rw [hr] at hshape
      cases hshape with
      | val v w _ => exact ⟨_, rfl, fun v' _ => ⟨v, rfl⟩⟩
      | ref m l => exact ⟨_, rfl, fun v' hv' => by cases hv'⟩
  · intro id hid
    rcases hm.globals id hid with hg | ⟨v, hv⟩
    · exact h.globals id hg
    · exact hload id v hv

/-! ### Single updates -/

theorem frame_known (h : Mirrors vm s) (fr : VmFrame) (hfr : fr ∈ vm.frames) :
    ∃ L, s.callStack.get? fr.id = some L :=
  Option.isSome_iff_exists.mp ((h.frames fr.id).mpr ⟨fr, hfr, rfl⟩)

/- A local of an open frame is set to a new entry. -/
theorem mirrors_setLocal (vm' : Vm) (h : Mirrors vm s) (fr : VmFrame) (hfr : fr ∈ vm.frames)
    (L : FrameLocals) (hL : s.callStack.get? fr.id = some L) (idx : ℕ) (entry : Option TraceValue)
    (hf : vm'.frames = vm.frames) (hg : vm'.globals = vm.globals)
    (hother : ∀ f i r, (f ≠ fr.id ∨ i ≠ idx) → vm'.locals f i = some r →
      vm.locals f i = some r)
    (hself : ∀ r, vm'.locals fr.id idx = some r →
      ∃ t, entry = some t ∧ ∀ v, r = .val v → t.isRuntime = true) :
    Mirrors vm' { s with
      callStack := s.callStack.insert fr.id (Function.update L.1 idx entry, L.2) } where
  frames f := by
    simp only [SortedMap.get?_insert, hf, ← h.frames f]
    split_ifs with hfid
    · subst hfid
      simp [hL]
    · exact Iff.rfl
  locals fr' hfr' L' hL' i r hr := by
    rw [hf] at hfr'
    simp only [SortedMap.get?_insert] at hL'
    split_ifs at hL' with hid
    · cases hL'
      by_cases hi : i = idx
      · subst hi
        rw [hid] at hr
        simpa using hself r hr
      · obtain ⟨t, ht, hrt⟩ := h.locals fr hfr L hL i r
          (hother fr.id i r (.inr hi) (hid ▸ hr))
        exact ⟨t, by simpa [Function.update_of_ne hi] using ht, hrt⟩
    · exact h.locals fr' hfr' L' hL' i r (hother fr'.id i r (.inl hid) hr)
  ordered := hf ▸ h.ordered
  globals id hid := h.globals id (hg ▸ hid)

theorem mirrors_load (h : Mirrors vm s) (id : ℕ) (v : MoveValue) :
    Mirrors vm { s with loadedState := Function.update s.loadedState id (some v) } := by
  refine mirrors_congr vm _ h rfl rfl (fun _ _ _ r hr => ⟨r, hr, fun v' hv' => ⟨v', hv'⟩⟩) ?_
  intro j hj
  by_cases hji : j = id
  · subst hji
    simp
  · simpa [Function.update_of_ne hji] using h.globals j hj

/- What an access keeps, and that a load is kept. -/
structure Accessed (vm : Vm) (s s' : TraceState) : Prop where
  mirrors : Mirrors vm s'
  stack : s'.operandStack = s.operandStack
  loaded : ∀ id, (s.loadedState id).isSome = true → (s'.loadedState id).isSome = true

theorem setLocation_accessed (h : Mirrors vm s) (v : MoveValue) (l : Location)
    (hw : vm.Writable l) : ∃ s', s.setLocation v l = some s' ∧ Accessed vm s s' := by
  induction l with
  | ofLocal f i =>
    obtain ⟨⟨fr, hfr, rfl⟩, v₀, hv₀⟩ := hw
    obtain ⟨L, hL⟩ := frame_known h fr hfr
    obtain ⟨t, ht, hrt⟩ := h.locals fr hfr L hL i (.val v₀) hv₀
    have hmir := mirrors_setLocal vm h fr hfr L hL i (some (.runtimeValue v)) rfl rfl
      (fun _ _ _ _ hr => hr) fun _ _ => ⟨_, rfl, fun _ _ => rfl⟩
    refine ⟨_, ?_, hmir, rfl, fun _ hid => hid⟩
    simp only [setLocation, hL, ht, Option.bind_eq_bind, Option.bind_some, hrt v₀ rfl, if_true]
  | indexed l i ih => exact ih hw
  | global id =>
    obtain ⟨v₀, hv₀⟩ := Option.isSome_iff_exists.mp (h.globals id hw)
    refine ⟨_, ?_, mirrors_load h id v, rfl, ?_⟩
    · simp only [setLocation, hv₀, Option.bind_eq_bind, Option.bind_some]
    intro j hj
    by_cases hji : j = id
    · subst hji
      simp
    · simpa [Function.update_of_ne hji] using hj

theorem applyEffect_accessed (h : Mirrors vm s) (e : Effect) (he : Accesses vm e) :
    ∃ s', s.applyEffect e = some s' ∧ Accessed vm s s' ∧
      ∀ id v, e = .dataLoad (.global id) v → (s'.loadedState id).isSome = true := by
  cases he with
  | read l => exact ⟨s, rfl, ⟨h, rfl, fun _ hid => hid⟩, fun _ _ hd => by cases hd⟩
  | write l v hw =>
    cases l with
    | ofLocal f i =>
      obtain ⟨⟨fr, hfr, rfl⟩, v₀, hv₀⟩ := hw
      obtain ⟨L, hL⟩ := frame_known h fr hfr
      have hmir := mirrors_setLocal vm h fr hfr L hL i (some (.runtimeValue v)) rfl rfl
        (fun _ _ _ _ hr => hr) fun _ _ => ⟨_, rfl, fun _ _ => rfl⟩
      refine ⟨_, ?_, ⟨hmir, rfl, fun _ hid => hid⟩, fun _ _ hd => by cases hd⟩
      simp only [applyEffect, hL, Option.bind_eq_bind, Option.bind_some]
    | indexed l i =>
      obtain ⟨s', hs', hacc⟩ := setLocation_accessed h v l hw
      exact ⟨s', hs', hacc, fun _ _ hd => by cases hd⟩
    | global id =>
      obtain ⟨s', hs', hacc⟩ := setLocation_accessed h v (.global id) hw
      exact ⟨s', hs', hacc, fun _ _ hd => by cases hd⟩
  | dataLoad id v =>
    refine ⟨_, rfl, ⟨mirrors_load h id v, rfl, ?_⟩, ?_⟩
    · intro j hj
      by_cases hji : j = id
      · subst hji
        simp
      · simpa [Function.update_of_ne hji] using hj
    · intro j w hd
      cases hd
      simp

/- All accesses of a step. -/
theorem run_accesses (accesses : List Effect) (h : Mirrors vm s)
    (ha : ∀ e ∈ accesses, Accesses vm e) :
    ∃ s', run applyEffect s accesses = some s' ∧ Accessed vm s s' ∧
      ∀ id v, Effect.dataLoad (.global id) v ∈ accesses → (s'.loadedState id).isSome = true := by
  induction accesses generalizing s with
  | nil => exact ⟨s, rfl, ⟨h, rfl, fun _ hid => hid⟩, fun _ _ hd => by cases hd⟩
  | cons e rest ih =>
    obtain ⟨s₁, hs₁, hacc₁, hload₁⟩ := applyEffect_accessed h e (ha e (List.mem_cons_self ..))
    obtain ⟨s₂, hs₂, hacc₂, hload₂⟩ :=
      ih hacc₁.mirrors fun e' he' => ha e' (List.mem_cons_of_mem _ he')
    refine ⟨s₂, by simp only [run, hs₁, Option.bind_some, hs₂],
      ⟨hacc₂.mirrors, hacc₂.stack.trans hacc₁.stack,
        fun id hid => hacc₂.loaded id (hacc₁.loaded id hid)⟩, ?_⟩
    intro id v hd
    rcases List.mem_cons.mp hd with hd | hd
    · exact hacc₂.loaded id (hload₁ id v hd.symm)
    · exact hload₂ id v hd

/-! ### Operands -/

theorem run_pops (popped ts trest : List TraceValue) (hlen : popped.length = ts.length)
    (hs : s.operandStack = ts ++ trest) :
    run applyEffect s (pops popped) = some { s with operandStack := trest } := by
  induction popped generalizing s ts with
  | nil =>
    obtain rfl := List.length_eq_zero_iff.mp hlen.symm
    obtain rfl : s.operandStack = trest := hs
    rfl
  | cons t popped ih =>
    cases ts with
    | nil => cases hlen
    | cons u ts =>
      have happly : s.applyEffect (.pop t) = some { s with operandStack := ts ++ trest } := by
        simp only [applyEffect, hs, List.cons_append]
      simp only [pops, List.map_cons, run, happly, Option.bind_some]
      exact ih ts (Nat.succ.inj hlen) rfl

theorem run_pushes (results : List TraceValue) :
    run applyEffect s (pushes results) =
      some { s with operandStack := results ++ s.operandStack } := by
  have hpush : ∀ (l : List TraceValue) (s : TraceState), run applyEffect s (l.map .push) =
      some { s with operandStack := l.reverse ++ s.operandStack } := by
    intro l
    induction l with
    | nil => intro s; rfl
    | cons t l ih =>
      intro s
      simp only [List.map_cons, run, applyEffect, Option.bind_some, ih, List.reverse_cons,
        List.append_assoc, List.singleton_append]
  rw [pushes, hpush, List.reverse_reverse]

/-! ### Frames -/

theorem mirrors_open (db : PackageStore) (frame : Frame) (fr : VmFrame) (params : List RtValue)
    (h : Mirrors vm s) (ho : Opens db vm frame fr params) :
    ∃ s', s.applyEvent (.openFrame frame) = some s' ∧ Mirrors (vm.openFrame fr params) s' ∧
      s'.operandStack = s.operandStack.drop frame.parameters.length ∧
      s'.loadedState = s.loadedState := by
  refine ⟨_, rfl, ⟨?_, ?_, ?_, h.globals⟩, rfl, rfl⟩
  · intro f
    simp only [SortedMap.get?_insert, ho.id, Vm.openFrame, List.mem_cons, exists_eq_or_imp]
    split_ifs with hid
    · simp [hid]
    · rw [h.frames f]
      refine ⟨.inr, fun hor => hor.resolve_left fun heq => hid heq.symm⟩
  · intro fr' hfr' L hL i r hr
    simp only [SortedMap.get?_insert, ho.id] at hL
    split_ifs at hL with hid
    · cases hL
      simp only [Vm.openFrame, hid, Function.update_self] at hr
      -- the locals of the new frame are its parameters
      obtain ⟨hi, hget⟩ := List.getElem?_eq_some_iff.mp hr
      have hlen := ho.params.length_eq
      have hparam := (List.forall₂_iff_get.mp ho.params).2 i (by omega) hi
      refine ⟨frame.parameters[i], List.getElem?_eq_getElem (by omega), fun v hv => ?_⟩
      simp only [List.get_eq_getElem, hget, hv, Vm.traceValue, Option.some.injEq] at hparam
      rw [← hparam]
      rfl
    · have hmem : fr' ∈ vm.frames := by
        rcases List.mem_cons.mp hfr' with rfl | hmem
        · exact absurd rfl hid
        · exact hmem
      simp only [Vm.openFrame, Function.update_of_ne hid] at hr
      exact h.locals fr' hmem L hL i r hr
  · exact List.pairwise_cons.mpr ⟨ho.fresh, h.ordered⟩

theorem mirrors_close (fr : VmFrame) (outer : List VmFrame) (hf : vm.frames = fr :: outer)
    (h : Mirrors vm s) (id : ℕ) :
    ∃ s', s.applyEvent (.closeFrame id) = some s' ∧ Mirrors { vm with frames := outer } s' ∧
      s'.operandStack = s.operandStack ∧ s'.loadedState = s.loadedState := by
  obtain ⟨L, hL⟩ := frame_known h fr (hf ▸ List.mem_cons_self ..)
  have hord := h.ordered
  rw [hf, List.pairwise_cons] at hord
  have hne : ∀ fr' ∈ outer, fr'.id ≠ fr.id := fun fr' hfr' => (hord.1 fr' hfr').ne
  have hmax : ∀ k v, s.callStack.get? k = some v → k ≤ fr.id := by
    intro k v hk
    obtain ⟨fr', hfr', rfl⟩ := (h.frames k).mp (by rw [hk]; rfl)
    rw [hf] at hfr'
    rcases List.mem_cons.mp hfr' with rfl | hfr'
    · exact le_rfl
    · exact (hord.1 fr' hfr').le
  refine ⟨{ s with callStack := s.callStack.erase fr.id }, ?_, ⟨?_, ?_, hord.2, h.globals⟩, rfl, rfl⟩
  · simp only [applyEvent, popLast_eq s.callStack fr.id L hL hmax, Option.bind_eq_bind,
      Option.bind_some]
  · intro f
    simp only [SortedMap.get?_erase]
    split_ifs with hid
    · subst hid
      simp only [Option.isSome_none, Bool.false_eq_true, false_iff, not_exists, not_and]
      exact hne
    · rw [h.frames f, hf]
      simp only [List.mem_cons, exists_eq_or_imp]
      exact ⟨fun hor => hor.resolve_left fun heq => hid heq.symm, .inr⟩
  · intro fr' hfr' L' hL' i r hr
    simp only [SortedMap.get?_erase, hne fr' hfr', if_false] at hL'
    exact h.locals fr' (hf ▸ List.mem_cons_of_mem _ hfr') L' hL' i r hr

end Movy.Tracer
