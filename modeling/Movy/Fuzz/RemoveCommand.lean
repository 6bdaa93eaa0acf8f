import Mathlib.Data.List.Sort
import Movy.Fuzz.ArgMutator
import Movy.Fuzz.Construct
import Movy.Fuzz.Remap
import Movy.Lib.Explore
import Movy.Lib.Removal

/-!
# Removing a command (`movy-fuzz/src/mutators/sequence.rs`)

With a command go the calls that use its results, the splits right before it,
and the producers of the hot potatoes that it takes; each of them in the same
way. All of them are put into one list, which is sorted again and again.
-/

namespace Movy.Fuzz

open Movy.Types Movy.Store

/- Why there is no result. -/
inductive Stop where
  | outOfFuel
  | panic
  deriving DecidableEq

/-! ### `gen_remove_idxes` -/

def resultOf (idx : U16) : SequenceArgument → Bool
  | .result i => decide (i = idx)
  | .nestedResult i _ => decide (i = idx)
  | _ => false

def usesResult (idx : U16) : MoveSequenceCall → Bool
  | .call call => call.arguments.any (resultOf idx)
  | _ => false

/- The calls behind a command that use its results; the distance to them is cut to
sixteen bits. -/
def deletingIdxes (commands : List MoveSequenceCall) (idx : U16) : List U16 :=
  (commands.drop (idx.val + 1)).zipIdx.filterMap fun e =>
    if usesResult idx e.1 then some (idx + asU16 e.2 + 1) else none

def resultIdx : SequenceArgument → Option U16
  | .result i => some i
  | .nestedResult i _ => some i
  | _ => none

/- The commands that made the hot potatoes which a call takes by value. -/
def deletingPrevIdxes (call : MoveCall) (function : MoveFunctionAbi) : List U16 :=
  (call.arguments.zip function.parameters).filterMap fun e =>
    if isStruct e.2 && e.2.isHotPotato then resultIdx e.1 else none

def sortDedup (idxes : List U16) : List U16 := (idxes.insertionSort (· ≤ ·)).dedup

def splitAt (commands : List MoveSequenceCall) (i : ℕ) : Bool :=
  match commands[i]? with
  | some (.call call) => MoveCall.isSplit call
  | _ => false

/- The test that a command is out of reach; the subtractions must not underflow. -/
def outOfReach (flash : Option FlashProvider) (commands : List MoveSequenceCall) (idx : U16) :
    Except Stop Bool :=
  match flash with
  | some .cetus =>
    if commands.length < 3 then .error .panic
    else .ok (decide (commands.length - 3 ≤ idx.val) || idx = 0)
  | some .nemo =>
    if commands.length < 1 then .error .panic
    else .ok (decide (commands.length - 1 ≤ idx.val) || idx ≤ 1)
  | none => .ok (decide (commands.length ≤ idx.val))

section

variable (visit : U16 → List U16 → Except Stop (List U16))

def removeMissing : List U16 → List U16 → Except Stop (List U16)
  | [], removed => .ok removed
  | i :: rest, removed =>
    if i ∈ removed then removeMissing rest removed
    else (visit i removed).bind fun removed => removeMissing rest removed

def removeSplits (commands : List MoveSequenceCall) : ℕ → List U16 → Except Stop (List U16)
  | 0, removed => .ok removed
  | i + 1, removed =>
    if asU16 i ∈ removed then removeSplits commands i removed
    else if splitAt commands i then
      (visit (asU16 i) removed).bind fun removed => removeSplits commands i removed
    else .ok removed

def removeStep (st : FuzzState) (flash : Option FlashProvider) (commands : List MoveSequenceCall)
    (idx : U16) (removed : List U16) : Except Stop (List U16) :=
  (outOfReach flash commands idx).bind fun out =>
  if out then .ok removed
  else
    (removeMissing visit (sortDedup (deletingIdxes commands idx)).reverse (removed ++ [idx])).bind
      fun removed =>
    match commands[idx.val]? with
    | some (.call call) =>
      (removeSplits visit commands idx.val removed).bind fun removed =>
      match st.getCalled call with
      | some function =>
        (removeMissing visit (sortDedup (deletingPrevIdxes call function)).reverse removed).bind
          fun removed => .ok (sortDedup removed)
      | none => .error .panic
    | _ => .ok removed

end

def genRemoveIdxes (st : FuzzState) (flash : Option FlashProvider)
    (commands : List MoveSequenceCall) : ℕ → U16 → List U16 → Except Stop (List U16)
  | 0 => fun _ _ => .error .outOfFuel
  | fuel + 1 => removeStep (genRemoveIdxes st flash commands fuel) st flash commands

/-! ### `remove_command` -/

/- `Vec::remove` from the last one to the first; `none` is its panic. -/
def removeIdxes (commands : List MoveSequenceCall) (removed : List U16) :
    Option (List MoveSequenceCall) :=
  removed.foldr (fun i rest => rest.bind fun commands => removeAt commands i.val) (some commands)

/- `none` is an underflow. -/
def shiftIdx (removed : List U16) (i : U16) : Option U16 :=
  let shift := (removed.filter fun removedIdx => removedIdx < i).length
  if shift ≤ i.val then some (asU16 (i.val - shift)) else none

def shiftArg (removed : List U16) : SequenceArgument → Option SequenceArgument
  | .result i => (shiftIdx removed i).map .result
  | .nestedResult i j => (shiftIdx removed i).map fun i => .nestedResult i j
  | arg => some arg

def shiftCommand (removed : List U16) : MoveSequenceCall → Option MoveSequenceCall
  | .call call => (call.arguments.mapM (shiftArg removed)).map fun arguments =>
      .call { call with arguments := arguments }
  | cmd => some cmd

/- `none` is `Skipped`. -/
def removeCommand (st : FuzzState) (flash : Option FlashProvider) (ptb : MoveSequence) (fuel : ℕ)
    (idx : U16) : Except Stop (Option MoveSequence) :=
  (genRemoveIdxes st flash ptb.commands fuel idx []).bind fun removed =>
  if ptb.commands.length ≤ removed.length ∨ removed = [] then .ok none
  else match (removeIdxes ptb.commands removed).bind fun commands =>
      commands.mapM (shiftCommand removed) with
    | some commands => .ok (some { ptb with commands := commands })
    | none => .error .panic

/-! ### What is removed -/

theorem bind_eq_ok {α β : Type} (x : Except Stop α) (f : α → Except Stop β) (b : β) :
    x.bind f = .ok b ↔ ∃ a, x = .ok a ∧ f a = .ok b := by
  cases x with
  | error e => simp [Except.bind]
  | ok a => simp [Except.bind]

theorem bind_eq_error {α β : Type} (x : Except Stop α) (f : α → Except Stop β) (e : Stop) :
    x.bind f = .error e ↔ x = .error e ∨ ∃ a, x = .ok a ∧ f a = .error e := by
  cases x with
  | error e => simp [Except.bind]
  | ok a => simp [Except.bind]

theorem mem_sortDedup (l : List U16) (i : U16) : i ∈ sortDedup l ↔ i ∈ l := by
  rw [sortDedup, List.mem_dedup, List.mem_insertionSort]

theorem asU16_of_lt (n : ℕ) (h : n < 2 ^ 16) : (asU16 n).val = n := Nat.mod_eq_of_lt h

def CallsUnknown (st : FuzzState) (commands : List MoveSequenceCall) : Prop :=
  ∃ call, .call call ∈ commands ∧ st.getCalled call = none

section

variable (flash : Option FlashProvider) (commands : List MoveSequenceCall)

def InReach (idx : U16) : Prop := outOfReach flash commands idx = .ok false

theorem inReach_none (idx : U16) : InReach none commands idx ↔ idx.val < commands.length := by
  rw [InReach, outOfReach, Except.ok.injEq, decide_eq_false_iff_not, Nat.not_le]

theorem inReach_cetus (idx : U16) :
    InReach (some .cetus) commands idx ↔ idx.val + 3 < commands.length ∧ 0 < idx.val := by
  have hzero : idx = 0 ↔ idx.val = 0 := Fin.ext_iff
  simp only [InReach, outOfReach]
  split_ifs with hlen
  · constructor
    · intro h
      cases h
    · omega
  · rw [Except.ok.injEq, Bool.or_eq_false_iff, decide_eq_false_iff_not, decide_eq_false_iff_not,
      hzero]
    omega

theorem inReach_nemo (idx : U16) :
    InReach (some .nemo) commands idx ↔ idx.val + 1 < commands.length ∧ 1 < idx.val := by
  have hone : idx ≤ 1 ↔ idx.val ≤ 1 := Iff.rfl
  simp only [InReach, outOfReach]
  split_ifs with hlen
  · constructor
    · intro h
      cases h
    · omega
  · rw [Except.ok.injEq, Bool.or_eq_false_iff, decide_eq_false_iff_not, decide_eq_false_iff_not,
      hone]
    omega

theorem InReach.lt {flash : Option FlashProvider} {commands : List MoveSequenceCall} {idx : U16}
    (h : InReach flash commands idx) : idx.val < commands.length := by
  cases flash with
  | none => exact (inReach_none commands idx).mp h
  | some provider =>
    cases provider with
    | cetus =>
      have hidx := (inReach_cetus commands idx).mp h
      omega
    | nemo =>
      have hidx := (inReach_nemo commands idx).mp h
      omega

/- Below a command that is in reach, one that is not has only such below it. -/
theorem not_inReach_below (x i y : U16) (hx : InReach flash commands x)
    (hi : ¬ InReach flash commands i) (hix : i.val < x.val) (hyi : y.val ≤ i.val) :
    ¬ InReach flash commands y := by
  cases flash with
  | none =>
    rw [inReach_none] at hx hi
    omega
  | some provider =>
    cases provider with
    | cetus =>
      rw [inReach_cetus] at hx hi ⊢
      omega
    | nemo =>
      rw [inReach_nemo] at hx hi ⊢
      omega

theorem outOfReach_ok (idx : U16) (out : Bool) (h : outOfReach flash commands idx = .ok out) :
    out = false ↔ InReach flash commands idx := by
  rw [InReach, h, Except.ok.injEq]

end

section

variable (st : FuzzState) (flash : Option FlashProvider) (commands : List MoveSequenceCall)

/- With command `x` goes command `y`. -/
inductive Removes : U16 → U16 → Prop
  | dependent (x y : U16) : y ∈ deletingIdxes commands x → InReach flash commands y → Removes x y
  | split (x y : U16) : y.val + 1 = x.val → splitAt commands y.val = true →
    InReach flash commands y → Removes x y
  | producer (x y : U16) (call : MoveCall) (function : MoveFunctionAbi) :
    commands[x.val]? = some (.call call) → st.getCalled call = some function →
    y ∈ deletingPrevIdxes call function → InReach flash commands y → Removes x y

variable (visit : U16 → List U16 → Except Stop (List U16))

def SoundVisit : Prop := ∀ idx s t, idx ∉ s → visit idx s = .ok t →
  (¬ InReach flash commands idx ∧ t = s) ∨
    (InReach flash commands idx ∧ Visited (Removes st flash commands) idx s t)

variable (hvisit : SoundVisit st flash commands visit)

include hvisit

theorem removeMissing_explored (l s t : List U16)
    (hl : ∀ i ∈ l, InReach flash commands i → ∃ b ∈ s, Removes st flash commands b i)
    (h : removeMissing visit l s = .ok t) :
    Explored (Removes st flash commands) s t ∧ ∀ i ∈ l, InReach flash commands i → i ∈ t := by
  induction l generalizing s with
  | nil =>
    rw [removeMissing, Except.ok.injEq] at h
    subst h
    exact ⟨Explored.refl s, fun i hi => absurd hi List.not_mem_nil⟩
  | cons i rest ih =>
    rw [removeMissing] at h
    split_ifs at h with hmem
    · obtain ⟨hexp, hrest⟩ := ih s (fun j hj => hl j (List.mem_cons_of_mem _ hj)) h
      refine ⟨hexp, fun j hj hin => ?_⟩
      rcases List.mem_cons.mp hj with rfl | hj
      · exact hexp.keeps j hmem
      · exact hrest j hj hin
    · obtain ⟨mid, hmid, h⟩ := (bind_eq_ok _ _ _).mp h
      have hstep : Explored (Removes st flash commands) s mid ∧
          (InReach flash commands i → i ∈ mid) := by
        rcases hvisit i s mid hmem hmid with ⟨hout, rfl⟩ | ⟨hin, hvisited⟩
        · exact ⟨Explored.refl _, fun hin => absurd hin hout⟩
        · obtain ⟨b, hb, hbi⟩ := hl i (List.mem_cons_self ..) hin
          exact ⟨hvisited.explored hb hbi, fun _ => hvisited.visits⟩
      obtain ⟨hexp, hrest⟩ := ih mid (fun j hj hin => by
        obtain ⟨b, hb, hbj⟩ := hl j (List.mem_cons_of_mem _ hj) hin
        exact ⟨b, hstep.1.keeps b hb, hbj⟩) h
      refine ⟨hstep.1.trans hexp, fun j hj hin => ?_⟩
      rcases List.mem_cons.mp hj with rfl | hj
      · exact hexp.keeps j (hstep.2 hin)
      · exact hrest j hj hin

theorem removeSplits_explored (x : U16) (hx : InReach flash commands x) (i : ℕ) (s t : List U16)
    (hi : i ≤ x.val) (hmem : asU16 i ∈ s ∨ ∀ y : U16, y.val < i → ¬ InReach flash commands y)
    (h : removeSplits visit commands i s = .ok t) :
    Explored (Removes st flash commands) s t ∧
      ∀ y : U16, y.val + 1 = i → splitAt commands y.val = true → InReach flash commands y →
        y ∈ t := by
  induction i generalizing s with
  | zero =>
    rw [removeSplits, Except.ok.injEq] at h
    subst h
    exact ⟨Explored.refl s, fun y hy => by omega⟩
  | succ i ih =>
    have hlt := x.isLt
    have hval : (asU16 i).val = i := asU16_of_lt i (by omega)
    have hsame : ∀ y : U16, y.val + 1 = i + 1 → y = asU16 i := by
      intro y hy
      apply Fin.ext
      omega
    rw [removeSplits] at h
    split_ifs at h with hin hsplit
    · obtain ⟨hexp, -⟩ := ih s (by omega) (Or.inl hin) h
      refine ⟨hexp, fun y hy _ _ => ?_⟩
      rw [hsame y hy]
      exact hexp.keeps _ hin
    · obtain ⟨mid, hmid, hrest⟩ := (bind_eq_ok _ _ _).mp h
      rcases hvisit (asU16 i) s mid hin hmid with ⟨hout, rfl⟩ | ⟨hreach, hvisited⟩
      · obtain ⟨hexp, -⟩ := ih mid (by omega) (Or.inr fun y hy =>
          not_inReach_below flash commands x (asU16 i) y hx hout (by omega) (by omega)) hrest
        exact ⟨hexp, fun y hy _ hreach => absurd (hsame y hy ▸ hreach) hout⟩
      · have habove : asU16 (i + 1) ∈ s :=
          hmem.resolve_right fun hnone => hnone (asU16 i) (by omega) hreach
        have hstep : Removes st flash commands (asU16 (i + 1)) (asU16 i) := by
          refine Removes.split _ _ ?_ (by rw [hval]; exact hsplit) hreach
          rw [hval, asU16_of_lt (i + 1) (by omega)]
        obtain ⟨hexp, -⟩ := ih mid (by omega) (Or.inl hvisited.visits) hrest
        refine ⟨(hvisited.explored habove hstep).trans hexp, fun y hy _ _ => ?_⟩
        rw [hsame y hy]
        exact hexp.keeps _ hvisited.visits
    · rw [Except.ok.injEq] at h
      subst h
      refine ⟨Explored.refl _, fun y hy hsplitAt _ => ?_⟩
      rw [hsame y hy, hval] at hsplitAt
      exact absurd hsplitAt hsplit

theorem removeStep_sound (hcalls : ∀ cmd ∈ commands, ∃ call, cmd = .call call) :
    SoundVisit st flash commands (removeStep visit st flash commands) := by
  intro idx s t hidx h
  obtain ⟨out, hout, h⟩ := (bind_eq_ok _ _ _).mp h
  have hreach := outOfReach_ok flash commands idx out hout
  cases out with
  | true =>
    rw [if_pos rfl, Except.ok.injEq] at h
    exact Or.inl ⟨fun hin => Bool.noConfusion (hreach.mpr hin), h.symm⟩
  | false =>
    rw [if_neg Bool.false_ne_true] at h
    have hin : InReach flash commands idx := hreach.mp rfl
    have hlt := hin.lt
    refine Or.inr ⟨hin, ?_⟩
    obtain ⟨s1, h1, h⟩ := (bind_eq_ok _ _ _).mp h
    have hself : idx ∈ s ++ [idx] := List.mem_append_right _ (List.mem_singleton_self idx)
    obtain ⟨hexp1, hdependents⟩ := removeMissing_explored st flash commands visit hvisit _ _ _
      (fun i hi hin => by
        rw [List.mem_reverse, mem_sortDedup] at hi
        exact ⟨idx, hself, Removes.dependent idx i hi hin⟩) h1
    obtain ⟨call, hcall⟩ := hcalls commands[idx.val] (List.getElem_mem hlt)
    have hget : commands[idx.val]? = some (.call call) := by
      rw [List.getElem?_eq_getElem hlt, hcall]
    rw [hget] at h
    obtain ⟨s2, h2, h⟩ := (bind_eq_ok _ _ _).mp h
    obtain ⟨hexp2, hsplits⟩ := removeSplits_explored st flash commands visit hvisit idx hin idx.val
      s1 s2 (Nat.le_refl _)
      (by
        rw [show asU16 idx.val = idx from Fin.ext (asU16_of_lt _ idx.isLt)]
        exact Or.inl (hexp1.keeps idx hself)) h2
    cases hfunction : st.getCalled call with
    | none =>
      rw [hfunction] at h
      cases h
    | some function =>
      rw [hfunction] at h
      obtain ⟨s3, h3, h⟩ := (bind_eq_ok _ _ _).mp h
      rw [Except.ok.injEq] at h
      have hidx2 : idx ∈ s2 := hexp2.keeps idx (hexp1.keeps idx hself)
      obtain ⟨hexp3, hproducers⟩ := removeMissing_explored st flash commands visit hvisit _ _ _
        (fun i hi hin => by
          rw [List.mem_reverse, mem_sortDedup] at hi
          exact ⟨idx, hidx2, Removes.producer idx i call function hget hfunction hi hin⟩) h3
      have hexp : Explored (Removes st flash commands) (s ++ [idx]) t :=
        ((hexp1.trans hexp2).trans hexp3).congr fun x => by rw [← h, mem_sortDedup]
      refine hexp.visited fun y hy => ?_
      rw [← h, mem_sortDedup]
      cases hy with
      | dependent hmem hyin =>
        have hy1 := hdependents y (List.mem_reverse.mpr ((mem_sortDedup _ y).mpr hmem)) hyin
        exact hexp3.keeps y (hexp2.keeps y hy1)
      | split hnext hsplit hyin => exact hexp3.keeps y (hsplits y hnext hsplit hyin)
      | producer call' function' hget' hfunction' hmem hyin =>
        obtain rfl : call = call' := by
          rw [hget] at hget'
          cases hget'
          rfl
        obtain rfl : function = function' :=
          Option.some.inj (hfunction.symm.trans hfunction')
        exact hproducers y (List.mem_reverse.mpr ((mem_sortDedup _ y).mpr hmem)) hyin

end

section

variable (st : FuzzState) (flash : Option FlashProvider) (commands : List MoveSequenceCall)
  (hcalls : ∀ cmd ∈ commands, ∃ call, cmd = .call call)

include hcalls

theorem genRemoveIdxes_sound (fuel : ℕ) :
    SoundVisit st flash commands (genRemoveIdxes st flash commands fuel) := by
  induction fuel with
  | zero =>
    intro idx s t _ h
    cases h
  | succ fuel ih => exact removeStep_sound st flash commands _ ih hcalls

end

/-! ### Why the search ends -/

/- The commands that come with a flash loan are missing. -/
def TooShort (flash : Option FlashProvider) (commands : List MoveSequenceCall) : Prop :=
  (flash = some .cetus ∧ commands.length < 3) ∨ (flash = some .nemo ∧ commands.length < 1)

section

variable (st : FuzzState) (flash : Option FlashProvider) (commands : List MoveSequenceCall)
  (visit : U16 → List U16 → Except Stop (List U16))

def KeepingVisit : Prop := ∀ idx s t, visit idx s = .ok t → ∀ x ∈ s, x ∈ t

/- Why a visit may fail: `n` levels are not enough, a function is unknown, or there
are too few commands. -/
def BoundedVisit (n : ℕ) : Prop := ∀ idx s e, idx ∉ s → visit idx s = .error e →
  (e = .outOfFuel ∧ n ≤ unvisited s) ∨
    (e = .panic ∧ (CallsUnknown st commands ∨ TooShort flash commands))

theorem outOfReach_error (idx : U16) (e : Stop) (h : outOfReach flash commands idx = .error e) :
    e = .panic ∧ TooShort flash commands := by
  cases flash with
  | none => cases h
  | some provider =>
    cases provider with
    | cetus =>
      simp only [outOfReach] at h
      split_ifs at h with hlen
      cases h
      exact ⟨rfl, Or.inl ⟨rfl, hlen⟩⟩
    | nemo =>
      simp only [outOfReach] at h
      split_ifs at h with hlen
      cases h
      exact ⟨rfl, Or.inr ⟨rfl, hlen⟩⟩

variable (hkeeps : KeepingVisit visit)

include hkeeps

theorem removeMissing_keeps (l s t : List U16) (h : removeMissing visit l s = .ok t) :
    ∀ x ∈ s, x ∈ t := by
  induction l generalizing s with
  | nil =>
    rw [removeMissing, Except.ok.injEq] at h
    subst h
    exact fun x hx => hx
  | cons i rest ih =>
    rw [removeMissing] at h
    split_ifs at h with hmem
    · exact ih s h
    · obtain ⟨mid, hmid, h⟩ := (bind_eq_ok _ _ _).mp h
      exact fun x hx => ih mid h x (hkeeps i s mid hmid x hx)

theorem removeSplits_keeps (i : ℕ) (s t : List U16) (h : removeSplits visit commands i s = .ok t) :
    ∀ x ∈ s, x ∈ t := by
  induction i generalizing s with
  | zero =>
    rw [removeSplits, Except.ok.injEq] at h
    subst h
    exact fun x hx => hx
  | succ i ih =>
    rw [removeSplits] at h
    split_ifs at h with hmem hsplit
    · exact ih s h
    · obtain ⟨mid, hmid, h⟩ := (bind_eq_ok _ _ _).mp h
      exact fun x hx => ih mid h x (hkeeps _ s mid hmid x hx)
    · rw [Except.ok.injEq] at h
      subst h
      exact fun x hx => hx

theorem removeStep_keeps : KeepingVisit (removeStep visit st flash commands) := by
  intro idx s t h x hx
  obtain ⟨out, -, h⟩ := (bind_eq_ok _ _ _).mp h
  split_ifs at h
  · rw [Except.ok.injEq] at h
    subst h
    exact hx
  obtain ⟨s1, h1, h⟩ := (bind_eq_ok _ _ _).mp h
  have hx1 := removeMissing_keeps visit hkeeps _ _ _ h1 x (List.mem_append_left _ hx)
  cases hcmd : commands[idx.val]? with
  | none =>
    rw [hcmd, Except.ok.injEq] at h
    exact h ▸ hx1
  | some cmd =>
    rw [hcmd] at h
    cases cmd with
    | call call =>
      obtain ⟨s2, h2, h⟩ := (bind_eq_ok _ _ _).mp h
      have hx2 := removeSplits_keeps commands visit hkeeps _ _ _ h2 x hx1
      cases hfunction : st.getCalled call with
      | none =>
        rw [hfunction] at h
        cases h
      | some function =>
        rw [hfunction] at h
        obtain ⟨s3, h3, h⟩ := (bind_eq_ok _ _ _).mp h
        rw [Except.ok.injEq] at h
        rw [← h, mem_sortDedup]
        exact removeMissing_keeps visit hkeeps _ _ _ h3 x hx2
    | _ =>
      rw [Except.ok.injEq] at h
      exact h ▸ hx1

variable (n : ℕ) (hbound : BoundedVisit st flash commands visit n)

include hbound

theorem removeMissing_error (l s : List U16) (e : Stop)
    (h : removeMissing visit l s = .error e) :
    (e = .outOfFuel ∧ n ≤ unvisited s) ∨
      (e = .panic ∧ (CallsUnknown st commands ∨ TooShort flash commands)) := by
  induction l generalizing s with
  | nil => cases h
  | cons i rest ih =>
    rw [removeMissing] at h
    split_ifs at h with hmem
    · exact ih s h
    · rcases (bind_eq_error _ _ _).mp h with h | ⟨mid, hmid, h⟩
      · exact hbound i s e hmem h
      · have hle := unvisited_le s mid (hkeeps i s mid hmid)
        refine (ih mid h).imp_left fun herr => ⟨herr.1, ?_⟩
        omega

theorem removeSplits_error (i : ℕ) (s : List U16) (e : Stop)
    (h : removeSplits visit commands i s = .error e) :
    (e = .outOfFuel ∧ n ≤ unvisited s) ∨
      (e = .panic ∧ (CallsUnknown st commands ∨ TooShort flash commands)) := by
  induction i generalizing s with
  | zero => cases h
  | succ i ih =>
    rw [removeSplits] at h
    split_ifs at h with hmem hsplit
    · exact ih s h
    · rcases (bind_eq_error _ _ _).mp h with h | ⟨mid, hmid, h⟩
      · exact hbound _ s e hmem h
      · have hle := unvisited_le s mid (hkeeps _ s mid hmid)
        refine (ih mid h).imp_left fun herr => ⟨herr.1, ?_⟩
        omega

/- One level more reaches one more command. -/
theorem removeStep_bounded :
    BoundedVisit st flash commands (removeStep visit st flash commands) (n + 1) := by
  intro idx s e hidx h
  have hlt := unvisited_lt s idx hidx
  have hweaken : ∀ u : List U16, (∀ x ∈ s ++ [idx], x ∈ u) →
      (e = .outOfFuel ∧ n ≤ unvisited u) ∨
        (e = .panic ∧ (CallsUnknown st commands ∨ TooShort flash commands)) →
      (e = .outOfFuel ∧ n + 1 ≤ unvisited s) ∨
        (e = .panic ∧ (CallsUnknown st commands ∨ TooShort flash commands)) := by
    intro u hu herr
    have hle := unvisited_le (s ++ [idx]) u hu
    exact herr.imp_left fun herr => ⟨herr.1, by omega⟩
  rcases (bind_eq_error _ _ _).mp h with h | ⟨out, hout, h⟩
  · obtain ⟨he, hshort⟩ := outOfReach_error flash commands idx e h
    exact Or.inr ⟨he, Or.inr hshort⟩
  split_ifs at h
  rcases (bind_eq_error _ _ _).mp h with h | ⟨s1, h1, h⟩
  · exact hweaken _ (fun _ hx => hx)
      (removeMissing_error st flash commands visit hkeeps n hbound _ _ e h)
  have hkept1 := removeMissing_keeps visit hkeeps _ _ _ h1
  cases hcmd : commands[idx.val]? with
  | none =>
    rw [hcmd] at h
    cases h
  | some cmd =>
    rw [hcmd] at h
    cases cmd with
    | call call =>
      rcases (bind_eq_error _ _ _).mp h with h | ⟨s2, h2, h⟩
      · exact hweaken s1 hkept1
          (removeSplits_error st flash commands visit hkeeps n hbound _ _ e h)
      have hkept2 := removeSplits_keeps commands visit hkeeps _ _ _ h2
      cases hfunction : st.getCalled call with
      | none =>
        rw [hfunction] at h
        cases h
        exact Or.inr ⟨rfl, Or.inl ⟨call, List.mem_of_getElem? hcmd, hfunction⟩⟩
      | some function =>
        rw [hfunction] at h
        rcases (bind_eq_error _ _ _).mp h with h | ⟨s3, -, h⟩
        · exact hweaken s2 (fun x hx => hkept2 x (hkept1 x hx))
            (removeMissing_error st flash commands visit hkeeps n hbound _ _ e h)
        · cases h
    | _ => cases h

end

section

variable (st : FuzzState) (flash : Option FlashProvider) (commands : List MoveSequenceCall)

theorem genRemoveIdxes_keeps (fuel : ℕ) :
    KeepingVisit (genRemoveIdxes st flash commands fuel) := by
  induction fuel with
  | zero =>
    intro idx s t h
    cases h
  | succ fuel ih => exact removeStep_keeps st flash commands _ ih

theorem genRemoveIdxes_bounded (fuel : ℕ) :
    BoundedVisit st flash commands (genRemoveIdxes st flash commands fuel) fuel := by
  induction fuel with
  | zero =>
    intro idx s e _ h
    cases h
    exact Or.inl ⟨rfl, Nat.zero_le _⟩
  | succ fuel ih =>
    exact removeStep_bounded st flash commands _ (genRemoveIdxes_keeps st flash commands fuel) fuel
      ih

/- There are no more than 65536 indices to visit. -/
theorem genRemoveIdxes_terminates (fuel : ℕ) (hfuel : 2 ^ 16 < fuel) (idx : U16) :
    genRemoveIdxes st flash commands fuel idx [] ≠ .error .outOfFuel := by
  intro h
  rcases genRemoveIdxes_bounded st flash commands fuel idx [] _ List.not_mem_nil h with
    ⟨-, hle⟩ | ⟨hne, -⟩
  · have hcard := unvisited_le_card ([] : List U16)
    rw [Fintype.card_fin] at hcard
    omega
  · cases hne

theorem genRemoveIdxes_panics (fuel : ℕ) (idx : U16)
    (h : genRemoveIdxes st flash commands fuel idx [] = .error .panic) :
    CallsUnknown st commands ∨ TooShort flash commands := by
  rcases genRemoveIdxes_bounded st flash commands fuel idx [] _ List.not_mem_nil h with
    ⟨hne, -⟩ | ⟨-, hreason⟩
  · cases hne
  · exact hreason

theorem genRemoveIdxes_unknown (fuel : ℕ) (idx : U16)
    (h : genRemoveIdxes st none commands fuel idx [] = .error .panic) :
    CallsUnknown st commands := by
  rcases genRemoveIdxes_panics st none commands fuel idx h with
    hunknown | ⟨hflash, -⟩ | ⟨hflash, -⟩
  · exact hunknown
  · cases hflash
  · cases hflash

end

end Movy.Fuzz
