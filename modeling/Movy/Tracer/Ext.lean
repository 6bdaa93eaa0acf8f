import Movy.Tracer.Fuzz

/-!
# Tracers and their wrapper (`movy-replay/src/tracer/mod.rs`)

`MovySuiTracerExt` is what a tracer answers to an event, and
`MovySuiTracerWrapper` is the loop that feeds it the events and keeps the
trace state. A tracer is asked first whether it wants the event at all.
-/

namespace Movy.Tracer

/- What a trace event carries beside what the trace state reads. -/
structure EventDetail where
  /- `binary_member_index` of the frame -/
  function : ℕ
  return_ : List TraceValue

/- The methods of the trait over a state `α`; `none` is a panic. `ξ` is the part
of an event that only tracers read. -/
structure MovySuiTracerExt (ξ α : Type) where
  onRawEvent : α → TraceState → TraceEvent → ξ → Option (α × Bool)
  onMoveCall : α → TraceState → Option α
  onEffect : α → TraceState → Effect → Option α
  openFrame : α → TraceState → Frame → ξ → Option α
  closeFrame : α → TraceState → ℕ → ξ → Option α
  beforeInstruction : α → TraceState → ξ → ℕ → Bytecode → Option α

namespace MovySuiTracerExt

variable {ξ α : Type}

/- The methods that the trait provides. -/
def provided : MovySuiTracerExt ξ α where
  onRawEvent self _ _ _ := some (self, false)
  onMoveCall self _ := some self
  onEffect self _ _ := some self
  openFrame self _ _ _ := some self
  closeFrame self _ _ _ := some self
  beforeInstruction self _ _ _ _ := some self

def handle (t : MovySuiTracerExt ξ α) (self : α) (state : TraceState) (x : ξ) :
    TraceEvent → Option α
  | .external .moveCallStart => t.onMoveCall self state
  | .external .other => some self
  | .openFrame frame => t.openFrame self state frame x
  | .closeFrame id => t.closeFrame self state id x
  | .effect e => t.onEffect self state e
  | .instruction pc ins => t.beforeInstruction self state x pc ins

def deliver (t : MovySuiTracerExt ξ α) (self : α) (state : TraceState) (ev : TraceEvent × ξ) :
    Option α :=
  (t.onRawEvent self state ev.1 ev.2).bind fun r =>
    if r.2 = true then t.handle r.1 state ev.2 ev.1 else some r.1

def notify (t : MovySuiTracerExt ξ α) (self : α × TraceState) (ev : TraceEvent × ξ) :
    Option (α × TraceState) :=
  (t.deliver self.1 self.2 ev).bind fun tracer =>
    (self.2.applyEvent ev.1).map fun state => (tracer, state)

theorem notify_eq_some (t : MovySuiTracerExt ξ α) (self next : α × TraceState)
    (ev : TraceEvent × ξ) :
    t.notify self ev = some next ↔
      t.deliver self.1 self.2 ev = some next.1 ∧ self.2.applyEvent ev.1 = some next.2 := by
  simp only [notify, Option.bind_eq_some_iff, Option.map_eq_some_iff]
  constructor
  · intro h
    obtain ⟨a, ha, s, hs, rfl⟩ := h
    exact ⟨ha, hs⟩
  · intro h
    obtain ⟨ha, hs⟩ := h
    exact ⟨next.1, ha, next.2, hs, rfl⟩

end MovySuiTracerExt

def SuiFuzzTracer.ext {σ φ : Type} (hooks : Hooks σ φ) (ξ : Type) :
    MovySuiTracerExt ξ (SuiFuzzTracer σ φ) where
  onRawEvent self state ev _ := some (self.onRawEvent state ev, true)
  onMoveCall self _ := some self.onMoveCall
  onEffect self _ _ := some self
  openFrame self _ frame _ := some (self.openFrame hooks frame)
  closeFrame self _ _ _ := some self.closeFrame
  beforeInstruction self state _ pc ins := self.beforeInstruction hooks state pc ins

/- Its wrapper is the general one. -/
theorem MovySuiTracerWrapper.notify_ext {σ φ ξ : Type} (hooks : Hooks σ φ)
    (w : MovySuiTracerWrapper σ φ) (ev : TraceEvent) (x : ξ) :
    (SuiFuzzTracer.ext hooks ξ).notify (w.tracer, w.state) (ev, x) =
      (w.notify hooks ev).map fun w' => (w'.tracer, w'.state) := by
  have hhandle : (SuiFuzzTracer.ext hooks ξ).deliver w.tracer w.state (ev, x) =
      MovySuiTracerWrapper.handle hooks (w.tracer.onRawEvent w.state ev) w.state ev := by
    cases ev with
    | external e => cases e <;> rfl
    | _ => rfl
  simp only [MovySuiTracerExt.notify, hhandle, MovySuiTracerWrapper.notify]
  cases MovySuiTracerWrapper.handle hooks (w.tracer.onRawEvent w.state ev) w.state ev with
  | none => rfl
  | some t =>
    cases hs : w.state.applyEvent ev with
    | none => rfl
    | some s => rfl

end Movy.Tracer
