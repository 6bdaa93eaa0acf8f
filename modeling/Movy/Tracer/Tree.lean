import Movy.Tracer.Ext
import Mathlib.Data.List.Induction

/-!
# The call tree (`movy-replay/src/tracer/tree.rs`)

`TreeTracer` builds the tree of calls from the frames that open and close. It
keeps no pointer to the open call but the path of indices that leads to it, so
that every event walks down the tree again. `none` is a failed `unwrap`.
-/

namespace Movy.Tracer

inductive FrameTraced where
  | mk (opened : Frame) (subcalls : List FrameTraced) (close : Option (List TraceValue))

namespace FrameTraced

def opened : FrameTraced → Frame
  | mk f _ _ => f

def subcalls : FrameTraced → List FrameTraced
  | mk _ s _ => s

def close : FrameTraced → Option (List TraceValue)
  | mk _ _ c => c

/- `current_calls`: the list that a path leads to, and the calls with that list
changed. -/
def modifyCalls (f : List FrameTraced → List FrameTraced) :
    List ℕ → List FrameTraced → Option (List FrameTraced × List FrameTraced)
  | [], calls => some (calls, f calls)
  | i :: path, calls => calls[i]?.bind fun c =>
    (modifyCalls f path c.subcalls).map fun r => (r.1, calls.set i (mk c.opened r.2 c.close))

/- `current_frame`: the calls with the frame changed that a path leads to. -/
def modifyFrame (f : FrameTraced → FrameTraced) : List ℕ → List FrameTraced → Option (List FrameTraced)
  | [], _ => none
  | [i], calls => calls[i]?.map fun c => calls.set i (f c)
  | i :: j :: path, calls => calls[i]?.bind fun c =>
    (modifyFrame f (j :: path) c.subcalls).map fun s => calls.set i (mk c.opened s c.close)

/- `frame_at_path`. -/
def frameAtPath : List FrameTraced → List ℕ → Option FrameTraced
  | _, [] => none
  | calls, [i] => calls[i]?
  | calls, i :: j :: path => calls[i]?.bind fun c => frameAtPath c.subcalls (j :: path)

end FrameTraced

structure TreeTraceResult where
  calls : List FrameTraced
  callIdxs : List ℕ
  errorCallIdxs : Option (List ℕ)
  errorMessage : Option String
  evs : List (TraceEvent × EventDetail)

namespace TreeTraceResult

def new : TreeTraceResult := ⟨[], [], none, none, []⟩

def openFrameInner (self : TreeTraceResult) (frame : Frame) : Option TreeTraceResult :=
  (FrameTraced.modifyCalls (· ++ [.mk frame [] none]) self.callIdxs self.calls).map fun r =>
    { self with calls := r.2, callIdxs := self.callIdxs ++ [r.1.length] }

def closeFrameInner (self : TreeTraceResult) (return_ : List TraceValue) : Option TreeTraceResult :=
  if self.callIdxs.isEmpty then some self
  else
    (FrameTraced.modifyFrame (fun c => .mk c.opened c.subcalls (some return_)) self.callIdxs
        self.calls).map fun calls =>
      { self with calls := calls, callIdxs := self.callIdxs.dropLast }

/- The first error keeps the path of the open call. -/
def onRawEvent (self : TreeTraceResult) (ev : TraceEvent) (x : EventDetail) : TreeTraceResult :=
  let self := match ev with
    | .effect (.executionError message) =>
      if self.errorCallIdxs.isNone then
        { self with errorCallIdxs := some self.callIdxs, errorMessage := some message }
      else self
    | _ => self
  { self with evs := self.evs ++ [(ev, x)] }

/- `pprint_error_trace`, with the labels of the frames as a parameter. -/
def pprintErrorTrace (self : TreeTraceResult) (label : FrameTraced → String) : Option String :=
  self.errorCallIdxs.bind fun path =>
    ((List.range path.length).mapM fun depth =>
      (FrameTraced.frameAtPath self.calls (path.take (depth + 1))).map fun frame =>
        String.join (List.replicate depth "  ") ++ (if 0 < depth then "└─ " else "") ++
          label frame ++ "\n").map fun lines =>
      "error_call_trace:\n" ++ String.join lines ++
        match self.errorMessage with
        | some msg =>
          String.join (List.replicate path.length "  ") ++ "└─ ExecutionError: " ++ msg ++ "\n"
        | none => ""

end TreeTraceResult

def treeTracer : MovySuiTracerExt EventDetail TreeTraceResult :=
  { MovySuiTracerExt.provided with
    onRawEvent := fun self _ ev x => some (self.onRawEvent ev x, true)
    openFrame := fun self _ frame _ => self.openFrameInner frame
    closeFrame := fun self _ _ x => self.closeFrameInner x.return_ }

/-! ### Preorder -/

mutual

def FrameTraced.preorder : FrameTraced → List Frame
  | .mk f s _ => f :: preorder s

def preorder : List FrameTraced → List Frame
  | [] => []
  | c :: rest => c.preorder ++ preorder rest

end

mutual

def FrameTraced.positions : FrameTraced → List (List ℕ)
  | .mk _ s _ => [] :: positionsFrom 0 s

/- The paths to the calls of a list whose first has the index `i`, in preorder. -/
def positionsFrom : ℕ → List FrameTraced → List (List ℕ)
  | _, [] => []
  | i, c :: rest => c.positions.map (i :: ·) ++ positionsFrom (i + 1) rest

end

def positions (calls : List FrameTraced) : List (List ℕ) := positionsFrom 0 calls

theorem preorder_append (l m : List FrameTraced) : preorder (l ++ m) = preorder l ++ preorder m := by
  induction l with
  | nil => rfl
  | cons c l ih => simp only [List.cons_append, preorder, ih, List.append_assoc]

theorem positionsFrom_append (i : ℕ) (l m : List FrameTraced) :
    positionsFrom i (l ++ m) = positionsFrom i l ++ positionsFrom (i + l.length) m := by
  induction l generalizing i with
  | nil => rfl
  | cons c l ih =>
    simp only [List.cons_append, positionsFrom, ih, List.append_assoc, List.length_cons,
      Nat.add_assoc, Nat.add_comm 1]

theorem preorder_snoc (l : List FrameTraced) (f : Frame) (s : List FrameTraced)
    (r : Option (List TraceValue)) : preorder (l ++ [.mk f s r]) = preorder l ++ f :: preorder s := by
  simp only [preorder_append, preorder, FrameTraced.preorder, List.append_nil]

theorem positions_snoc (l : List FrameTraced) (f : Frame) (s : List FrameTraced)
    (r : Option (List TraceValue)) :
    positions (l ++ [.mk f s r]) =
      positions l ++ [l.length] :: (positions s).map (l.length :: ·) := by
  simp only [positions, positionsFrom_append, positionsFrom, FrameTraced.positions, Nat.zero_add,
    List.append_nil, List.map_cons]

/-! ### The rightmost path -/

/- The path takes the last call at every level. -/
def Spine : List ℕ → List FrameTraced → Prop
  | [], _ => True
  | i :: path, calls =>
    ∃ before f s r, calls = before ++ [.mk f s r] ∧ i = before.length ∧ Spine path s

theorem set_snoc (before : List FrameTraced) (c d : FrameTraced) :
    (before ++ [c]).set before.length d = before ++ [d] := by
  simp

/- A new call at the end of the rightmost path is the last in preorder. -/
theorem modifyCalls_push (path : List ℕ) (calls : List FrameTraced) (h : Spine path calls)
    (f : Frame) :
    ∃ current calls', FrameTraced.modifyCalls (· ++ [.mk f [] none]) path calls =
        some (current, calls') ∧
      Spine (path ++ [current.length]) calls' ∧ preorder calls' = preorder calls ++ [f] ∧
      positions calls' = positions calls ++ [path ++ [current.length]] := by
  induction path generalizing calls with
  | nil =>
    refine ⟨calls, _, rfl, ⟨calls, f, [], none, rfl, rfl, trivial⟩, ?_, ?_⟩
    · rw [preorder_snoc, preorder]
    · rw [positions_snoc]
      rfl
  | cons i path ih =>
    obtain ⟨before, g, s, r, rfl, rfl, hs⟩ := h
    obtain ⟨current, s', hmod, hspine, hpre, hpos⟩ := ih s hs
    refine ⟨current, before ++ [.mk g s' r], ?_, ⟨before, g, s', r, rfl, rfl, hspine⟩, ?_, ?_⟩
    · simp only [FrameTraced.modifyCalls, List.getElem?_concat_length, Option.bind_some,
        FrameTraced.subcalls, hmod, Option.map_some, set_snoc, FrameTraced.opened, FrameTraced.close]
    · simp only [preorder_snoc, hpre, List.append_assoc, List.cons_append]
    · simp only [positions_snoc, hpos, List.map_append, List.map_cons, List.map_nil,
        List.append_assoc, List.cons_append]

/- Closing the call at the end of the rightmost path keeps the shape. -/
theorem modifyFrame_close (f : FrameTraced → FrameTraced)
    (hf : ∀ g s r, ∃ r', f (.mk g s r) = .mk g s r') (path : List ℕ) (i : ℕ)
    (calls : List FrameTraced) (h : Spine (path ++ [i]) calls) :
    ∃ calls', FrameTraced.modifyFrame f (path ++ [i]) calls = some calls' ∧ Spine path calls' ∧
      preorder calls' = preorder calls ∧ positions calls' = positions calls := by
  induction path generalizing calls with
  | nil =>
    obtain ⟨before, g, s, r, rfl, rfl, hs⟩ := h
    obtain ⟨r', hr⟩ := hf g s r
    refine ⟨before ++ [.mk g s r'], ?_, trivial, ?_, ?_⟩
    · simp only [List.nil_append, FrameTraced.modifyFrame, List.getElem?_concat_length,
        Option.map_some, set_snoc, hr]
    · rw [preorder_snoc, preorder_snoc]
    · rw [positions_snoc, positions_snoc]
  | cons j path ih =>
    obtain ⟨before, g, s, r, rfl, rfl, hs⟩ := h
    obtain ⟨s', hmod, hspine, hpre, hpos⟩ := ih s hs
    refine ⟨before ++ [.mk g s' r], ?_, ⟨before, g, s', r, rfl, rfl, hspine⟩, ?_, ?_⟩
    · obtain ⟨k, rest, hk⟩ : ∃ k rest, path ++ [i] = k :: rest := by
        cases path with
        | nil => exact ⟨i, [], rfl⟩
        | cons k path => exact ⟨k, path ++ [i], rfl⟩
      rw [hk] at hmod
      simp only [List.cons_append, hk, FrameTraced.modifyFrame, List.getElem?_concat_length,
        Option.bind_some, FrameTraced.subcalls, hmod, Option.map_some, set_snoc, FrameTraced.opened,
        FrameTraced.close]
    · rw [preorder_snoc, preorder_snoc, hpre]
    · rw [positions_snoc, positions_snoc, hpos]

/-! ### Paths and calls -/

theorem frameAtPath_cons (calls : List FrameTraced) (i : ℕ) (c : FrameTraced)
    (h : calls[i]? = some c) (path : List ℕ) (hp : path ≠ []) :
    FrameTraced.frameAtPath calls (i :: path) = FrameTraced.frameAtPath c.subcalls path := by
  cases path with
  | nil => exact absurd rfl hp
  | cons j path => simp only [FrameTraced.frameAtPath, h, Option.bind_some]

mutual

theorem FrameTraced.positions_spec : (c : FrameTraced) → (calls : List FrameTraced) → (i : ℕ) →
    calls[i]? = some c →
    List.Forall₂ (fun p f => ∃ d, FrameTraced.frameAtPath calls p = some d ∧ d.opened = f)
      (c.positions.map (i :: ·)) c.preorder
  | .mk f s r, calls, i, h => by
    simp only [FrameTraced.positions, FrameTraced.preorder, List.map_cons]
    refine .cons ⟨.mk f s r, h, rfl⟩ ?_
    have hs := positionsFrom_spec s s 0 (fun k => by rw [Nat.zero_add])
    rw [List.forall₂_map_left_iff]
    refine hs.imp fun p g hd => ?_
    obtain ⟨d, hat, hopen⟩ := hd
    have hp : p ≠ [] := by
      rintro rfl
      cases hat
    exact ⟨d, (frameAtPath_cons calls i _ h p hp).trans hat, hopen⟩

/- The paths of a list lead to its calls, in preorder. -/
theorem positionsFrom_spec : (l calls : List FrameTraced) → (i : ℕ) →
    (∀ k, l[k]? = calls[i + k]?) →
    List.Forall₂ (fun p f => ∃ d, FrameTraced.frameAtPath calls p = some d ∧ d.opened = f)
      (positionsFrom i l) (preorder l)
  | [], _, _, _ => .nil
  | c :: rest, calls, i, h => by
    simp only [positionsFrom, preorder]
    refine List.rel_append (c.positions_spec calls i ?_) (positionsFrom_spec rest calls (i + 1) ?_)
    · have h0 := h 0
      simpa using h0.symm
    · intro k
      have hk := h (k + 1)
      rw [List.getElem?_cons_succ] at hk
      rw [hk, Nat.add_right_comm, Nat.add_assoc]

end

theorem positionsFrom_head (l : List FrameTraced) (i : ℕ) (p : List ℕ)
    (h : p ∈ positionsFrom i l) : ∃ j q, p = j :: q ∧ i ≤ j := by
  induction l generalizing i with
  | nil => cases h
  | cons c rest ih =>
    rcases List.mem_append.mp h with h | h
    · obtain ⟨q, -, rfl⟩ := List.mem_map.mp h
      exact ⟨i, q, rfl, le_rfl⟩
    · obtain ⟨j, q, rfl, hij⟩ := ih (i + 1) h
      exact ⟨j, q, rfl, by omega⟩

mutual

theorem FrameTraced.positions_nodup : (c : FrameTraced) → c.positions.Nodup
  | .mk _ s _ => by
    rw [FrameTraced.positions, List.nodup_cons]
    refine ⟨fun h => ?_, positionsFrom_nodup s 0⟩
    obtain ⟨j, q, hq, -⟩ := positionsFrom_head s 0 [] h
    cases hq

theorem positionsFrom_nodup : (l : List FrameTraced) → (i : ℕ) → (positionsFrom i l).Nodup
  | [], _ => List.nodup_nil
  | c :: rest, i => by
    rw [positionsFrom, List.nodup_append]
    refine ⟨c.positions_nodup.map (fun _ _ h => (List.cons.inj h).2),
      positionsFrom_nodup rest (i + 1), fun p hp q hq heq => ?_⟩
    obtain ⟨p', -, rfl⟩ := List.mem_map.mp hp
    obtain ⟨j, q', rfl, hj⟩ := positionsFrom_head rest (i + 1) q hq
    have hij := (List.cons.inj heq).1
    omega

end

/-! ### Brackets

What the frames say by themselves: the calls are numbered in the order in which
they open, and closing ends the innermost one. -/

structure Brackets where
  /- each call with the number of the call that was innermost when it opened -/
  opened : List (Frame × Option ℕ)
  /- the numbers of the open calls, the innermost first -/
  stack : List ℕ
  /- the message of the first error, and the calls open then -/
  error : Option (String × List ℕ)

namespace Brackets

def new : Brackets := ⟨[], [], none⟩

def step (b : Brackets) : TraceEvent → Brackets
  | .openFrame frame => { b with
      opened := b.opened ++ [(frame, b.stack.head?)]
      stack := b.opened.length :: b.stack }
  | .closeFrame _ => { b with stack := b.stack.tail }
  | .effect (.executionError message) => { b with error := b.error.or (some (message, b.stack)) }
  | _ => b

def read (evs : List TraceEvent) : Brackets := evs.foldl step new

end Brackets

def Through (paths : List (List ℕ)) : List ℕ → List ℕ → Prop
  | [], path => path = []
  | k :: outer, path => ∃ above i, path = above ++ [i] ∧ paths[k]? = some path ∧ Through paths outer above

def Under (paths : List (List ℕ)) (k : ℕ) (above : List ℕ) : Option ℕ → Prop
  | none => above = []
  | some j => j < k ∧ paths[j]? = some above

/- The tree has the shape of the brackets: the `k`-th call that was opened is the
`k`-th in preorder, right below the call that was innermost then. -/
structure Shaped (b : Brackets) (t : TreeTraceResult) : Prop where
  preorder : preorder t.calls = b.opened.map Prod.fst
  parent : ∀ k frame parent, b.opened[k]? = some (frame, parent) →
    ∃ above i, (positions t.calls)[k]? = some (above ++ [i]) ∧
      Under (positions t.calls) k above parent
  current : Through (positions t.calls) b.stack t.callIdxs
  error : match b.error with
    | none => t.errorCallIdxs = none
    | some (message, stack) => t.errorMessage = some message ∧
      ∃ path, t.errorCallIdxs = some path ∧ Through (positions t.calls) stack path

theorem getElem?_kept {α : Type} (l m : List α) (k : ℕ) (x : α) (h : l[k]? = some x) :
    (l ++ m)[k]? = some x := by
  rw [List.getElem?_append_left (List.getElem?_eq_some_iff.mp h).1, h]

theorem getElem?_concat_cases {α : Type} (l : List α) (x y : α) (k : ℕ)
    (h : (l ++ [x])[k]? = some y) : l[k]? = some y ∨ k = l.length ∧ y = x := by
  rcases Nat.lt_trichotomy k l.length with hk | rfl | hk
  · rw [List.getElem?_append_left hk] at h
    exact .inl h
  · rw [List.getElem?_concat_length] at h
    exact .inr ⟨rfl, (Option.some.inj h).symm⟩
  · rw [List.getElem?_eq_none (by simp; omega)] at h
    cases h

theorem under_append (paths more : List (List ℕ)) (k : ℕ) (above : List ℕ) (parent : Option ℕ)
    (h : Under paths k above parent) : Under (paths ++ more) k above parent := by
  cases parent with
  | none => exact h
  | some j => exact ⟨h.1, getElem?_kept paths more j above h.2⟩

theorem through_append (paths more : List (List ℕ)) (stack path : List ℕ)
    (h : Through paths stack path) : Through (paths ++ more) stack path := by
  induction stack generalizing path with
  | nil => exact h
  | cons k outer ih =>
    obtain ⟨above, i, hpath, hk, hab⟩ := h
    exact ⟨above, i, hpath, getElem?_kept paths more k path hk, ih above hab⟩

theorem positions_spec (calls : List FrameTraced) :
    List.Forall₂ (fun p f => ∃ d, FrameTraced.frameAtPath calls p = some d ∧ d.opened = f)
      (positions calls) (preorder calls) :=
  positionsFrom_spec calls calls 0 fun k => by rw [Nat.zero_add]

section Events

variable {b : Brackets} {t : TreeTraceResult}

theorem Shaped.opened_length (h : Shaped b t) : b.opened.length = (positions t.calls).length := by
  rw [(positions_spec t.calls).length_eq, h.preorder, List.length_map]

theorem Shaped.congr (h : Shaped b t) (t' : TreeTraceResult) (hc : t'.calls = t.calls)
    (hi : t'.callIdxs = t.callIdxs) (he : t'.errorCallIdxs = t.errorCallIdxs)
    (hm : t'.errorMessage = t.errorMessage) : Shaped b t' := by
  obtain ⟨hpre, hpar, hcur, herr⟩ := h
  refine ⟨by rw [hc, hpre], by rw [hc]; exact hpar, by rw [hc, hi]; exact hcur, ?_⟩
  rw [hc, he, hm]
  exact herr

theorem Shaped.openFrame (h : Shaped b t) (hs : Spine t.callIdxs t.calls) (frame : Frame) :
    ∃ t', t.openFrameInner frame = some t' ∧ Shaped (b.step (.openFrame frame)) t' ∧
      Spine t'.callIdxs t'.calls := by
  obtain ⟨current, calls', hmod, hspine, hpre, hpos⟩ := modifyCalls_push t.callIdxs t.calls hs frame
  refine ⟨_, by rw [TreeTraceResult.openFrameInner, hmod, Option.map_some], ?_, hspine⟩
  have hlast : (positions calls')[b.opened.length]? = some (t.callIdxs ++ [current.length]) := by
    rw [hpos, h.opened_length]
    simp
  refine ⟨?_, fun k f parent hk => ?_, ?_, ?_⟩
  · simp only [Brackets.step, hpre, h.preorder, List.map_append, List.map_cons, List.map_nil]
  · rcases getElem?_concat_cases b.opened _ _ _ hk with hk | ⟨rfl, heq⟩
    · obtain ⟨above, i, hpath, hpar⟩ := h.parent k f parent hk
      refine ⟨above, i, ?_, ?_⟩
      · rw [hpos]
        exact getElem?_kept _ _ _ _ hpath
      · rw [hpos]
        exact under_append _ _ _ _ _ hpar
    · cases heq
      refine ⟨t.callIdxs, current.length, hlast, ?_⟩
      -- the innermost open call is where the path of the tree ends
      have hcur := h.current
      cases hstack : b.stack with
      | nil =>
        rw [hstack] at hcur
        exact hcur
      | cons j outer =>
        rw [hstack] at hcur
        obtain ⟨above, i, -, hj, -⟩ := hcur
        refine ⟨?_, ?_⟩
        · rw [h.opened_length]
          exact (List.getElem?_eq_some_iff.mp hj).1
        · rw [hpos]
          exact getElem?_kept _ _ _ _ hj
  · refine ⟨t.callIdxs, current.length, rfl, hlast, ?_⟩
    rw [hpos]
    exact through_append _ _ _ _ h.current
  · have herr := h.error
    simp only [Brackets.step]
    cases hb : b.error with
    | none =>
      rw [hb] at herr
      exact herr
    | some e =>
      rw [hb] at herr
      obtain ⟨hm, path, hp, hthrough⟩ := herr
      refine ⟨hm, path, hp, ?_⟩
      rw [hpos]
      exact through_append _ _ _ _ hthrough

theorem Shaped.closeFrame (h : Shaped b t) (hs : Spine t.callIdxs t.calls) (id : ℕ)
    (return_ : List TraceValue) :
    ∃ t', t.closeFrameInner return_ = some t' ∧ Shaped (b.step (.closeFrame id)) t' ∧
      Spine t'.callIdxs t'.calls := by
  have hcur := h.current
  cases hstack : b.stack with
  | nil =>
    rw [hstack] at hcur
    have hnil : t.callIdxs = [] := hcur
    refine ⟨t, by simp only [TreeTraceResult.closeFrameInner, hnil, List.isEmpty_nil, if_true], ?_,
      hs⟩
    refine ⟨h.preorder, h.parent, ?_, h.error⟩
    simp only [Brackets.step, hstack, List.tail_nil]
    exact hnil
  | cons k outer =>
    rw [hstack] at hcur
    obtain ⟨above, i, hpath, -, hout⟩ := hcur
    rw [hpath] at hs
    obtain ⟨calls', hmod, hspine, hpre, hpos⟩ := modifyFrame_close
      (fun c => .mk c.opened c.subcalls (some return_)) (fun _ _ _ => ⟨_, rfl⟩) above i t.calls hs
    refine ⟨{ t with calls := calls', callIdxs := above }, ?_, ?_, hspine⟩
    · simp only [TreeTraceResult.closeFrameInner, hpath, hmod, Option.map_some,
        List.dropLast_concat]
      rw [if_neg (by simp)]
    · refine ⟨hpre.trans h.preorder, ?_, ?_, ?_⟩
      · simp only [hpos]
        exact h.parent
      · simp only [Brackets.step, hstack, List.tail_cons, hpos]
        exact hout
      · simp only [Brackets.step, hpos]
        exact h.error

theorem isError_cases (ev : TraceEvent) :
    (∃ message, ev = .effect (.executionError message)) ∨
      ∀ t : TreeTraceResult, ∀ x, t.onRawEvent ev x = { t with evs := t.evs ++ [(ev, x)] } := by
  cases ev with
  | effect e =>
    cases e with
    | executionError message => exact .inl ⟨message, rfl⟩
    | _ => exact .inr fun _ _ => rfl
  | _ => exact .inr fun _ _ => rfl

/- The first error keeps the path to the open call. -/
theorem Shaped.executionError (h : Shaped b t) (message : String) (x : EventDetail) :
    Shaped (b.step (.effect (.executionError message)))
      (t.onRawEvent (.effect (.executionError message)) x) := by
  have herr := h.error
  cases hb : b.error with
  | none =>
    rw [hb] at herr
    have hnone : t.errorCallIdxs.isNone = true := by rw [herr]; rfl
    simp only [TreeTraceResult.onRawEvent, hnone, if_true, Brackets.step, hb, Option.none_or]
    exact ⟨h.preorder, h.parent, h.current, rfl, t.callIdxs, rfl, h.current⟩
  | some e =>
    rw [hb] at herr
    obtain ⟨hm, path, hp, hthrough⟩ := herr
    have hsome : ¬t.errorCallIdxs.isNone = true := by rw [hp]; simp
    simp only [TreeTraceResult.onRawEvent, if_neg hsome, Brackets.step, hb, Option.some_or]
    exact ⟨h.preorder, h.parent, h.current, hm, path, hp, hthrough⟩

/- One event: no `unwrap` fails, and the tree follows the brackets. -/
theorem Shaped.deliver (h : Shaped b t) (hs : Spine t.callIdxs t.calls) (state : TraceState)
    (ev : TraceEvent) (x : EventDetail) :
    ∃ t', treeTracer.deliver t state (ev, x) = some t' ∧ Shaped (b.step ev) t' ∧
      Spine t'.callIdxs t'.calls := by
  have hdeliver : treeTracer.deliver t state (ev, x) =
      treeTracer.handle (t.onRawEvent ev x) state x ev := rfl
  rw [hdeliver]
  rcases isError_cases ev with ⟨message, rfl⟩ | hraw
  · refine ⟨t.onRawEvent (.effect (.executionError message)) x, rfl, h.executionError message x, ?_⟩
    simp only [TreeTraceResult.onRawEvent]
    split_ifs <;> exact hs
  · rw [hraw]
    have hlogged := h.congr { t with evs := t.evs ++ [(ev, x)] } rfl rfl rfl rfl
    cases ev with
    | openFrame frame => exact hlogged.openFrame hs frame
    | closeFrame id => exact hlogged.closeFrame hs id x.return_
    | instruction pc ins => exact ⟨_, rfl, hlogged, hs⟩
    | external e => cases e <;> exact ⟨_, rfl, hlogged, hs⟩
    | effect e =>
      cases e with
      | executionError message =>
        exact ⟨_, rfl, (hraw t x) ▸ h.executionError message x, hs⟩
      | _ => exact ⟨_, rfl, hlogged, hs⟩

end Events

/-! ### Whole traces -/

theorem shaped_new : Shaped Brackets.new TreeTraceResult.new where
  preorder := rfl
  parent k f p h := by cases h
  current := rfl
  error := rfl

theorem read_snoc (evs : List TraceEvent) (ev : TraceEvent) :
    Brackets.read (evs ++ [ev]) = (Brackets.read evs).step ev := by
  simp only [Brackets.read, List.foldl_append, List.foldl_cons, List.foldl_nil]

/- A path through open calls leads to calls of the tree. -/
theorem through_frameAtPath (calls : List FrameTraced) (stack path : List ℕ)
    (h : Through (positions calls) stack path) (depth : ℕ) (hd : depth < path.length) :
    ∃ c, FrameTraced.frameAtPath calls (path.take (depth + 1)) = some c := by
  induction stack generalizing path with
  | nil =>
    obtain rfl : path = [] := h
    exact absurd hd (Nat.not_lt_zero depth)
  | cons k outer ih =>
    obtain ⟨above, i, rfl, hk, hout⟩ := h
    rw [List.length_append, List.length_singleton] at hd
    rcases Nat.lt_or_ge depth above.length with hlt | hge
    · rw [List.take_append_of_le_length hlt]
      exact ih above hout hlt
    · rw [List.take_of_length_le (by simp; omega)]
      obtain ⟨hk, hget⟩ := List.getElem?_eq_some_iff.mp hk
      have hspec := positions_spec calls
      obtain ⟨c, hc, -⟩ := (List.forall₂_iff_get.mp hspec).2 k hk (hspec.length_eq ▸ hk)
      rw [List.get_eq_getElem, hget] at hc
      exact ⟨c, hc⟩

def deliverTree (t : TreeTraceResult) (e : TraceState × TraceEvent × EventDetail) :
    Option TreeTraceResult :=
  treeTracer.deliver t e.1 e.2

theorem run_shaped (evs : List (TraceState × TraceEvent × EventDetail)) :
    ∃ t, run deliverTree TreeTraceResult.new evs = some t ∧
      Shaped (Brackets.read (evs.map fun e => e.2.1)) t ∧ Spine t.callIdxs t.calls := by
  induction evs using List.reverseRecOn with
  | nil => exact ⟨_, rfl, shaped_new, trivial⟩
  | append_singleton evs e ih =>
    obtain ⟨t, hrun, hshape, hspine⟩ := ih
    obtain ⟨state, ev, x⟩ := e
    obtain ⟨t', hdeliver, hshape', hspine'⟩ := hshape.deliver hspine state ev x
    refine ⟨t', ?_, ?_, hspine'⟩
    · rw [run_append, hrun]
      simp only [Option.bind_some, run, deliverTree, hdeliver]
    · rw [List.map_append, List.map_singleton, read_snoc]
      exact hshape'

/- On every trace the tracer goes through, its tree has the shape of the
brackets, its calls are where the positions say, and the error path leads to
calls of the tree. -/
theorem tree_mirrors (evs : List (TraceState × TraceEvent × EventDetail)) :
    ∃ t, run deliverTree TreeTraceResult.new evs = some t ∧
      Shaped (Brackets.read (evs.map fun e => e.2.1)) t ∧ (positions t.calls).Nodup ∧
      List.Forall₂ (fun p f => ∃ c, FrameTraced.frameAtPath t.calls p = some c ∧ c.opened = f)
        (positions t.calls) (preorder t.calls) ∧
      ∀ path depth, t.errorCallIdxs = some path → depth < path.length →
        ∃ c, FrameTraced.frameAtPath t.calls (path.take (depth + 1)) = some c := by
  obtain ⟨t, hrun, hshape, -⟩ := run_shaped evs
  refine ⟨t, hrun, hshape, positionsFrom_nodup t.calls 0, positions_spec t.calls, ?_⟩
  intro path depth hpath hd
  have herr := hshape.error
  cases hb : (Brackets.read (evs.map fun e => e.2.1)).error with
  | none =>
    rw [hb, hpath] at herr
    cases herr
  | some e =>
    rw [hb] at herr
    obtain ⟨-, path', hp', hthrough⟩ := herr
    obtain rfl : path' = path := Option.some.inj (hp'.symm.trans hpath)
    exact through_frameAtPath t.calls e.2 path' hthrough depth hd

end Movy.Tracer
