import Movy.Tracer.Tree

/-!
# Two tracers at once (`movy-replay/src/tracer/mod.rs`, `tracer/lcov.rs`)

`TeeTracer` hands every event to both of its tracers. It wants an event when
one of them does, and then both handle it: also the one that asked to have it
skipped. `LineCoverageTracer` does not say what it wants and is given nothing
on its own; it works because a tee delivers for it.
-/

namespace Movy.Tracer

section Tee

variable {ξ α β : Type}

def TeeTracer (t : MovySuiTracerExt ξ α) (u : MovySuiTracerExt ξ β) : MovySuiTracerExt ξ (α × β) where
  onRawEvent self state ev x := do
    let (a, keepLeft) ← t.onRawEvent self.1 state ev x
    let (b, keepRight) ← u.onRawEvent self.2 state ev x
    some ((a, b), keepLeft || keepRight)
  onMoveCall self state := do
    let a ← t.onMoveCall self.1 state
    let b ← u.onMoveCall self.2 state
    some (a, b)
  onEffect self state e := do
    let a ← t.onEffect self.1 state e
    let b ← u.onEffect self.2 state e
    some (a, b)
  openFrame self state frame x := do
    let a ← t.openFrame self.1 state frame x
    let b ← u.openFrame self.2 state frame x
    some (a, b)
  closeFrame self state id x := do
    let a ← t.closeFrame self.1 state id x
    let b ← u.closeFrame self.2 state id x
    some (a, b)
  beforeInstruction self state x pc ins := do
    let a ← t.beforeInstruction self.1 state x pc ins
    let b ← u.beforeInstruction self.2 state x pc ins
    some (a, b)

def apart (t : MovySuiTracerExt ξ α) (u : MovySuiTracerExt ξ β) (s : (α × β) × TraceState)
    (ev : TraceEvent × ξ) : Option ((α × β) × TraceState) :=
  (t.notify (s.1.1, s.2) ev).bind fun a => (u.notify (s.1.2, s.2) ev).map fun b =>
    ((a.1, b.1), a.2)

/- Where one tracer skips the event and the other does not, the handler of the
one that skips it changes nothing. -/
def Undisturbed (t : MovySuiTracerExt ξ α) (u : MovySuiTracerExt ξ β) (s : (α × β) × TraceState)
    (ev : TraceEvent × ξ) : Prop :=
  ∀ a b keepLeft keepRight, t.onRawEvent s.1.1 s.2 ev.1 ev.2 = some (a, keepLeft) →
    u.onRawEvent s.1.2 s.2 ev.1 ev.2 = some (b, keepRight) →
    (keepLeft = false → keepRight = true → t.handle a s.2 ev.2 ev.1 = some a) ∧
    (keepRight = false → keepLeft = true → u.handle b s.2 ev.2 ev.1 = some b)

variable (t : MovySuiTracerExt ξ α) (u : MovySuiTracerExt ξ β)

theorem tee_handle (self : α × β) (state : TraceState) (x : ξ) (ev : TraceEvent) :
    (TeeTracer t u).handle self state x ev =
      (t.handle self.1 state x ev).bind fun a => (u.handle self.2 state x ev).map fun b =>
        (a, b) := by
  cases ev with
  | external e => cases e <;> simp [MovySuiTracerExt.handle, TeeTracer, Option.map_eq_bind]
  | _ => simp [MovySuiTracerExt.handle, TeeTracer, Option.map_eq_bind]

theorem deliver_cases (self next : α) (state : TraceState) (ev : TraceEvent × ξ)
    (h : t.deliver self state ev = some next) :
    ∃ a keep, t.onRawEvent self state ev.1 ev.2 = some (a, keep) ∧
      (keep = true ∧ t.handle a state ev.2 ev.1 = some next ∨ keep = false ∧ a = next) := by
  obtain ⟨⟨a, keep⟩, hraw, hkeep⟩ := Option.bind_eq_some_iff.mp h
  refine ⟨a, keep, hraw, ?_⟩
  cases keep with
  | true => exact .inl ⟨rfl, hkeep⟩
  | false => exact .inr ⟨rfl, Option.some.inj hkeep⟩

theorem apart_eq_some (s next : (α × β) × TraceState) (ev : TraceEvent × ξ) :
    apart t u s ev = some next ↔
      t.notify (s.1.1, s.2) ev = some (next.1.1, next.2) ∧
        u.notify (s.1.2, s.2) ev = some (next.1.2, next.2) := by
  simp only [apart, Option.bind_eq_some_iff, Option.map_eq_some_iff]
  constructor
  · intro h
    obtain ⟨⟨a, sa⟩, ha, ⟨b, sb⟩, hb, rfl⟩ := h
    have hsa := ((t.notify_eq_some _ _ ev).mp ha).2
    have hsb := ((u.notify_eq_some _ _ ev).mp hb).2
    obtain rfl : sa = sb := Option.some.inj (hsa.symm.trans hsb)
    exact ⟨ha, hb⟩
  · intro h
    obtain ⟨ha, hb⟩ := h
    exact ⟨_, ha, _, hb, rfl⟩

theorem tee_deliver (a a₁ : α) (b b₁ : β) (state : TraceState) (ev : TraceEvent × ξ) (kl kr : Bool)
    (ha : t.onRawEvent a state ev.1 ev.2 = some (a₁, kl))
    (hb : u.onRawEvent b state ev.1 ev.2 = some (b₁, kr)) :
    (TeeTracer t u).deliver (a, b) state ev =
      if (kl || kr) = true then
        (t.handle a₁ state ev.2 ev.1).bind fun a => (u.handle b₁ state ev.2 ev.1).map fun b => (a, b)
      else some (a₁, b₁) := by
  have hraw : (TeeTracer t u).onRawEvent (a, b) state ev.1 ev.2 = some ((a₁, b₁), kl || kr) := by
    simp only [TeeTracer, ha, hb, Option.bind_eq_bind, Option.bind_some]
  simp only [MovySuiTracerExt.deliver, hraw, Option.bind_some, tee_handle]

/- A step of the tee is a step of the two tracers apart if and only if it
disturbs neither. -/
theorem tee_step_iff (s next : (α × β) × TraceState) (ev : TraceEvent × ξ)
    (h : apart t u s ev = some next) :
    (TeeTracer t u).notify s ev = apart t u s ev ↔ Undisturbed t u s ev := by
  obtain ⟨⟨a, b⟩, state⟩ := s
  obtain ⟨ha, hb⟩ := (apart_eq_some t u _ next ev).mp h
  obtain ⟨hda, hstate⟩ := (t.notify_eq_some _ _ ev).mp ha
  obtain ⟨hdb, -⟩ := (u.notify_eq_some _ _ ev).mp hb
  obtain ⟨a₁, kl, hrawl, hl⟩ := deliver_cases t _ _ _ ev hda
  obtain ⟨b₁, kr, hrawr, hr⟩ := deliver_cases u _ _ _ ev hdb
  have htee : (TeeTracer t u).notify ((a, b), state) ev = some next ↔
      (TeeTracer t u).deliver (a, b) state ev = some next.1 := by
    rw [(TeeTracer t u).notify_eq_some]
    exact and_iff_left hstate
  have hund : Undisturbed t u ((a, b), state) ev ↔
      (kl = false → kr = true → t.handle a₁ state ev.2 ev.1 = some a₁) ∧
      (kr = false → kl = true → u.handle b₁ state ev.2 ev.1 = some b₁) := by
    constructor
    · intro hall
      exact hall a₁ b₁ kl kr hrawl hrawr
    · intro hgood a' b' kl' kr' ha' hb'
      cases hrawl.symm.trans ha'
      cases hrawr.symm.trans hb'
      exact hgood
  rw [h, htee, hund, tee_deliver t u a a₁ b b₁ state ev kl kr hrawl hrawr]
  rcases hl with ⟨rfl, hl⟩ | ⟨rfl, rfl⟩ <;> rcases hr with ⟨rfl, hr⟩ | ⟨rfl, rfl⟩
  · simp [hl, hr]
  · simp only [Bool.or_false, if_true, hl, Option.bind_some, Option.map_eq_some_iff]
    constructor
    · intro hcase
      obtain ⟨b', hb', heq⟩ := hcase
      obtain rfl : b' = next.1.2 := congrArg Prod.snd heq
      exact ⟨fun hf => (by cases hf), fun _ _ => hb'⟩
    · intro hcase
      obtain ⟨-, hgood⟩ := hcase
      exact ⟨_, hgood trivial trivial, rfl⟩
  · simp only [Bool.false_or, if_true, hr, Option.map_some, Option.bind_eq_some_iff,
      Option.some.injEq]
    constructor
    · intro hcase
      obtain ⟨a', ha', heq⟩ := hcase
      obtain rfl : a' = next.1.1 := congrArg Prod.fst heq
      exact ⟨fun _ _ => ha', fun _ hf => (by cases hf)⟩
    · intro hcase
      obtain ⟨hgood, -⟩ := hcase
      exact ⟨_, hgood trivial trivial, rfl⟩
  · simp

theorem run_apart (s next : (α × β) × TraceState) (evs : List (TraceEvent × ξ)) :
    run (apart t u) s evs = some next ↔
      run t.notify (s.1.1, s.2) evs = some (next.1.1, next.2) ∧
        run u.notify (s.1.2, s.2) evs = some (next.1.2, next.2) := by
  induction evs generalizing s with
  | nil =>
    obtain ⟨⟨a, b⟩, state⟩ := s
    obtain ⟨⟨a', b'⟩, state'⟩ := next
    simp only [run, Option.some.injEq, Prod.mk.injEq]
    constructor
    · intro h
      obtain ⟨⟨ha, hb⟩, hs⟩ := h
      exact ⟨⟨ha, hs⟩, hb, hs⟩
    · intro h
      obtain ⟨⟨ha, hs⟩, hb, _⟩ := h
      exact ⟨⟨ha, hb⟩, hs⟩
  | cons ev evs ih =>
    simp only [run, Option.bind_eq_some_iff]
    constructor
    · intro h
      obtain ⟨mid, hmid, hrest⟩ := h
      obtain ⟨hl, hr⟩ := (apart_eq_some t u s mid ev).mp hmid
      obtain ⟨hl', hr'⟩ := (ih mid).mp hrest
      exact ⟨⟨_, hl, hl'⟩, ⟨_, hr, hr'⟩⟩
    · intro h
      obtain ⟨⟨⟨a, sa⟩, ha, ha'⟩, ⟨⟨b, sb⟩, hb, hb'⟩⟩ := h
      have hsa := ((t.notify_eq_some _ _ ev).mp ha).2
      have hsb := ((u.notify_eq_some _ _ ev).mp hb).2
      obtain rfl : sa = sb := Option.some.inj (hsa.symm.trans hsb)
      exact ⟨((a, b), sa), (apart_eq_some t u s _ ev).mpr ⟨ha, hb⟩, (ih _).mpr ⟨ha', hb'⟩⟩

theorem run_state (a a' : α) (b b' : β) (s s₁ s₂ : TraceState) (evs : List (TraceEvent × ξ))
    (ha : run t.notify (a, s) evs = some (a', s₁)) (hb : run u.notify (b, s) evs = some (b', s₂)) :
    s₁ = s₂ := by
  induction evs generalizing a b s with
  | nil =>
    cases ha
    cases hb
    rfl
  | cons ev evs ih =>
    obtain ⟨⟨a₁, sa⟩, hna, hra⟩ := run_cons _ _ _ ev evs ha
    obtain ⟨⟨b₁, sb⟩, hnb, hrb⟩ := run_cons _ _ _ ev evs hb
    have hsa := ((t.notify_eq_some _ _ ev).mp hna).2
    have hsb := ((u.notify_eq_some _ _ ev).mp hnb).2
    obtain rfl : sa = sb := Option.some.inj (hsa.symm.trans hsb)
    exact ih a₁ b₁ sa hra hrb

/- On a trace that both tracers go through, the tee holds after every event what
they hold on their own if and only if no event on the way disturbs one. -/
theorem tee_product_iff (a a' : α) (b b' : β) (s s₁ s₂ : TraceState) (evs : List (TraceEvent × ξ))
    (ha : run t.notify (a, s) evs = some (a', s₁)) (hb : run u.notify (b, s) evs = some (b', s₂)) :
    (∀ l, l <+: evs → ∀ x y sx sy, run t.notify (a, s) l = some (x, sx) →
        run u.notify (b, s) l = some (y, sy) →
        run (TeeTracer t u).notify ((a, b), s) l = some ((x, y), sx)) ↔
      Along (apart t u) (Undisturbed t u) ((a, b), s) evs := by
  obtain rfl := run_state t u a a' b b' s s₁ s₂ evs ha hb
  have hapart : run (apart t u) ((a, b), s) evs = some ((a', b'), s₁) :=
    (run_apart t u ((a, b), s) ((a', b'), s₁) evs).mpr ⟨ha, hb⟩
  rw [← along_congr (apart t u) (fun s i => (TeeTracer t u).notify s i = apart t u s i) _
    (fun s i next hn => tee_step_iff t u s next i hn) _ _ evs hapart,
    ← run_agree_iff (TeeTracer t u).notify (apart t u) _ _ evs hapart]
  constructor
  · intro hall l hl
    obtain ⟨⟨⟨x, y⟩, sx⟩, hx⟩ := run_prefix _ _ _ _ _ hapart hl
    obtain ⟨hxl, hyl⟩ := (run_apart t u _ _ l).mp hx
    rw [hx]
    exact hall l hl x y sx sx hxl hyl
  · intro hall l hl x y sx sy hxl hyl
    obtain rfl := run_state t u a x b y s sx sy l hxl hyl
    rw [hall l hl]
    exact (run_apart t u ((a, b), s) ((x, y), sx) l).mpr ⟨hxl, hyl⟩

def WantsAll : Prop := ∀ self state ev x next keep,
  t.onRawEvent self state ev x = some (next, keep) → keep = true

theorem undisturbed_of_wantsAll (ht : WantsAll t) (hu : WantsAll u) (s : (α × β) × TraceState)
    (ev : TraceEvent × ξ) : Undisturbed t u s ev := by
  intro a b keepLeft keepRight ha hb
  obtain rfl := ht _ _ _ _ _ _ ha
  obtain rfl := hu _ _ _ _ _ _ hb
  exact ⟨fun h => (by cases h), fun h => (by cases h)⟩

theorem along_wantsAll (ht : WantsAll t) (hu : WantsAll u) (s : (α × β) × TraceState)
    (evs : List (TraceEvent × ξ)) : Along (apart t u) (Undisturbed t u) s evs := by
  induction evs generalizing s with
  | nil => trivial
  | cons ev evs ih => exact ⟨undisturbed_of_wantsAll t u ht hu s ev, fun next _ => ih next⟩

end Tee

/-! ### Line coverage -/

structure BytecodeLocation where
  module : MoveModuleId
  function : ℕ
  pc : ℕ
  deriving DecidableEq

structure LineCoverageTracer where
  hits : List BytecodeLocation
  frames : List BytecodeLocation

/- It leaves `on_raw_event` as the trait provides it. -/
def lineCoverageTracer : MovySuiTracerExt EventDetail LineCoverageTracer :=
  { MovySuiTracerExt.provided with
    openFrame := fun self _ frame x =>
      some { self with frames := ⟨frame.moduleId, x.function, 0⟩ :: self.frames }
    closeFrame := fun self _ _ _ => some { self with frames := self.frames.tail }
    beforeInstruction := fun self _ _ pc _ =>
      match self.frames with
      | [] => some self
      | current :: _ => some { self with hits := self.hits.insert { current with pc := pc } } }

/- On its own it covers nothing. -/
example (self : LineCoverageTracer) (state : TraceState)
    (ev : TraceEvent × EventDetail) : lineCoverageTracer.deliver self state ev = some self := rfl

section Sample

def coveredFrame : Frame where
  frameId := 0
  functionName := "f"
  moduleId := ⟨Movy.Store.ObjectID.ofByte 5, "m"⟩
  versionId := Movy.Store.ObjectID.ofByte 5
  parameters := []
  returnTypes := []
  localsTypes := []
  isNative := false

def coveredTrace : List (TraceEvent × EventDetail) :=
  [(.openFrame coveredFrame, ⟨0, []⟩), (.instruction 0 .ret, ⟨0, []⟩), (.closeFrame 0, ⟨0, []⟩)]

/- Two call trees at once are each the tree of their own. -/
theorem tee_product_iff_trees :
    ∃ x s, run treeTracer.notify (TreeTraceResult.new, TraceState.new) coveredTrace = some (x, s) ∧
      run (TeeTracer treeTracer treeTracer).notify
        ((TreeTraceResult.new, TreeTraceResult.new), TraceState.new) coveredTrace =
          some ((x, x), s) := by
  have hwants : WantsAll treeTracer := by
    intro self state ev x next keep h
    exact (congrArg Prod.snd (Option.some.inj h)).symm
  have hproduct := (tee_product_iff treeTracer treeTracer TreeTraceResult.new _ TreeTraceResult.new
    _ TraceState.new _ _ coveredTrace rfl rfl).mpr (along_wantsAll _ _ hwants hwants _ _)
  exact ⟨_, _, rfl, hproduct coveredTrace List.prefix_rfl _ _ _ _ rfl rfl⟩

/- Beside the call tree, line coverage sees the instruction that it does not see
on its own. -/
theorem tee_product_fails :
    ¬∀ (a a' : TreeTraceResult) (b b' : LineCoverageTracer) (s s₁ s₂ : TraceState)
      (evs : List (TraceEvent × EventDetail)),
      run treeTracer.notify (a, s) evs = some (a', s₁) →
      run lineCoverageTracer.notify (b, s) evs = some (b', s₂) →
      run (TeeTracer treeTracer lineCoverageTracer).notify ((a, b), s) evs =
        some ((a', b'), s₁) := by
  intro hall
  have hsame := hall TreeTraceResult.new _ ⟨[], []⟩ _ TraceState.new _ _ coveredTrace rfl rfl
  have hhits := congrArg (Option.map fun r => r.1.2.hits) hsame
  exact absurd hhits (by decide)

end Sample

end Movy.Tracer
