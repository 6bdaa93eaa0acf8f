import Mathlib.Data.ZMod.Defs
import Movy.Fuzz.Atomic
import Movy.Fuzz.RemoveCommand

/-!
# Mutating a sequence (`movy-fuzz/src/mutators/sequence.rs`)

Up to ten rounds append a call of a target function, drawn by its score. A hot
potato that is left over raises the scores of its consumers, and the next round
goes on with the longer sequence. A skipped mutation puts the snapshot back, but
not where it returns because no target function has a score.
-/

namespace Movy.Fuzz

open Movy.Types Movy.Store MoveAbiSignatureToken

/-! ### Scores -/

abbrev U64 := Fin (2 ^ 64)

def INIT_FUNCTION_SCORE : U64 := 100
def SCORE_TICK : U64 := 5000

/- The part of the metadata that a mutation of the sequence changes. -/
structure Scores where
  targetFunctions : List FunctionIdent
  functionScores : FunctionIdent → Option U64
  specificFunctionScores : FunctionIdent → Option U64

/- The public functions with a parameter that the type matches, once for each such
parameter. -/
def MoveTypeGraph.findConsumers (self : MoveTypeGraph) (ty : MoveAbiSignatureToken) :
    List (MoveModuleId × MoveFunctionAbi) :=
  self.functions.flatMap fun (m, f) => f.parameters.filterMap fun param =>
    if ((param.dereference.getD param).partialExtractTyArgs ty).isSome && f.visibility = .public_
    then some (m, f)
    else none

def consumers (st : FuzzState) (hotPotatoes : List MoveTypeTag) : List FunctionIdent :=
  hotPotatoes.flatMap fun typeTag =>
    (st.typeGraph.findConsumers (fromTypeTagLossy typeTag)).map fun (m, f) => ⟨m, f.name⟩

namespace Scores

def derive (targetFunctions : List FunctionIdent)
    (specificFunctionScores : FunctionIdent → Option U64) : Scores where
  targetFunctions := targetFunctions
  functionScores := fun f =>
    if f ∈ targetFunctions then some ((specificFunctionScores f).getD INIT_FUNCTION_SCORE)
    else none
  specificFunctionScores := specificFunctionScores

def tick (functionScores : FunctionIdent → Option U64) (func : FunctionIdent) :
    FunctionIdent → Option U64 :=
  fun f => if f = func then (functionScores f).map fun score => score + SCORE_TICK
    else functionScores f

def update (st : FuzzState) (self : Scores) (hotPotatoes : List MoveTypeTag) : Scores :=
  let increased := consumers st hotPotatoes
  let ticked := increased.foldl tick self.functionScores
  { self with
    functionScores := fun f =>
      if f ∈ increased then ticked f
      else (ticked f).map fun _ => (self.specificFunctionScores f).getD INIT_FUNCTION_SCORE }

def weights (self : Scores) : List U64 :=
  self.targetFunctions.map fun f => (self.functionScores f).getD 0

end Scores

def reachWeight {α : Type} (randomNumber : ℕ) : List (α × U64) → U64 → Option α
  | [], _ => none
  | (item, weight) :: rest, cumulativeWeight =>
    if randomNumber ≤ (cumulativeWeight + weight).val then some item
    else reachWeight randomNumber rest (cumulativeWeight + weight)

def weightedSample {α : Type} (items : List α) (weights : List U64) : Choice α := do
  if weights.sum = 0 then Choice.panic
  else do
    let randomNumber ← Choice.belowOrZero weights.sum.val
    Choice.expect (reachWeight (randomNumber + 1) (items.zip weights) 0)

/-! ### One round -/

/- The commands behind which the flash loan is paid back, and the arguments that are
kept for it. `none` is a `drain` out of range. -/
def templateStart (flash : Option FlashProvider) (ptb : MoveSequence) :
    Option (ℕ × List SequenceArgument) :=
  match flash with
  | some .cetus =>
    if ptb.commands.length < 3 then none
    else some (ptb.commands.length - 3, [.nestedResult 0 2])
  | some .nemo =>
    if ptb.commands.length < 1 then none
    else some (ptb.commands.length - 1, [.nestedResult 1 1])
  | none => some (ptb.commands.length, [])

def splitCommands (ptb : MoveSequence) : List MoveSequenceCall :=
  ptb.commands.filter fun cmd => match cmd with
    | .call call => MoveCall.isSplit call
    | _ => false

inductive Round where
  /- No target function has a score. -/
  | noWeights
  /- The call could not be appended. -/
  | failed
  | tooManySplits
  /- There are hot potatoes left. -/
  | pending (ptb : MoveSequence) (scores : Scores)
  | solved (ptb : MoveSequence) (scores : Scores)

def mutateRound (st : FuzzState) (flash : Option FlashProvider) (ptb : MoveSequence)
    (scores : Scores) : Choice Round := do
  if scores.weights.all fun w => w = 0 then pure .noWeights
  else do
    let function ← weightedSample scores.targetFunctions scores.weights
    let (idx, usedArguments) ← Choice.expect (templateStart flash ptb)
    let templateCmds := ptb.commands.drop idx
    let (appended, ptb) ← appendTop st { ptb with commands := ptb.commands.take idx } function
      SortedMap.empty SortedMap.empty usedArguments false
    match appended with
    | none => pure .failed
    | some _ => do
      let ptb := { ptb with commands := ptb.commands ++ templateCmds }
      if 10 < (splitCommands ptb).length then pure .tooManySplits
      else do
        let objectData ← Choice.expect (ObjectData.fromPtb st ptb)
        let scores := scores.update st objectData.hotPotatoes
        if objectData.hotPotatoes.isEmpty then pure (.solved ptb scores)
        else pure (.pending ptb scores)

/-! ### The loop -/

def finishRounds (st : FuzzState) (result : MutationResult) (ptb : MoveSequence)
    (scores : Scores) : Choice (MutationResult × MoveSequence × Scores) := do
  let objectData ← Choice.expect (ObjectData.fromPtb st ptb)
  pure (result, ptb, scores.update st objectData.hotPotatoes)

def mutateRounds (st : FuzzState) (flash : Option FlashProvider) (snapshot : MoveSequence) :
    ℕ → MoveSequence → Scores → Choice (MutationResult × MoveSequence × Scores)
  | 0, _, scores => finishRounds st .skipped snapshot scores
  | rounds + 1, ptb, scores => do
    let round ← mutateRound st flash ptb scores
    match round with
    | .noWeights => pure (.skipped, ptb, scores)
    | .failed => mutateRounds st flash snapshot rounds snapshot scores
    | .tooManySplits => finishRounds st .skipped snapshot scores
    | .pending ptb scores => mutateRounds st flash snapshot rounds ptb scores
    | .solved ptb scores => finishRounds st .mutated ptb scores

section

/- Whether a random float is below `ADD_MOVECALL_PROB * 7.0 / len`. -/
variable (st : FuzzState) (nextFloatBelow : ℕ → ℕ → Bool)

def addsMovecall (ptb : MoveSequence) : Choice Bool :=
  if ptb.commands.length ≤ 3 then pure true
  else fun rs => match rs with
    | [] => none
    | d :: rest => some (nextFloatBelow d ptb.commands.length, rest)

/- `remove_command` of a random command; there are no more than 65536 indices, so the
search comes to an end. -/
def removeRandom (flash : Option FlashProvider) (ptb : MoveSequence) (scores : Scores) :
    Choice (MutationResult × MoveSequence × Scores) := do
  let idx ← Choice.belowOrZero ptb.commands.length
  match removeCommand st flash ptb (2 ^ 16 + 1) (asU16 idx) with
  | .ok (some removed) => pure (.mutated, removed, scores)
  | .ok none => pure (.skipped, ptb, scores)
  | .error _ => Choice.panic

/- `mutate_sequence` with its loop as a parameter. -/
def mutateSequenceBy (flash : Option FlashProvider)
    (rounds : MoveSequence → Scores → Choice (MutationResult × MoveSequence × Scores))
    (ptb : MoveSequence) (scores : Scores) : Choice (MutationResult × MoveSequence × Scores) := do
  if scores.targetFunctions.isEmpty then Choice.panic
  else do
    let inc ← addsMovecall nextFloatBelow ptb
    if inc then rounds ptb scores
    else removeRandom st flash ptb scores

def mutateSequence (flash : Option FlashProvider) (ptb : MoveSequence) (scores : Scores) :
    Choice (MutationResult × MoveSequence × Scores) :=
  mutateSequenceBy st nextFloatBelow flash (mutateRounds st flash ptb 10) ptb scores

end

/-! ### The return without the snapshot -/

/- `mutateRounds`, cut off where it returns right after a round that has left its
call in the sequence. -/
def roundsRestored (st : FuzzState) (flash : Option FlashProvider) (snapshot : MoveSequence) :
    ℕ → Bool → MoveSequence → Scores → Choice (MutationResult × MoveSequence × Scores)
  | 0, _, _, scores => finishRounds st .skipped snapshot scores
  | rounds + 1, left, ptb, scores => do
    let round ← mutateRound st flash ptb scores
    match round with
    | .noWeights => if left then Choice.panic else pure (.skipped, ptb, scores)
    | .failed => roundsRestored st flash snapshot rounds false snapshot scores
    | .tooManySplits => finishRounds st .skipped snapshot scores
    | .pending ptb scores => roundsRestored st flash snapshot rounds true ptb scores
    | .solved ptb scores => finishRounds st .mutated ptb scores

def mutateSequenceRestored (st : FuzzState) (nextFloatBelow : ℕ → ℕ → Bool)
    (flash : Option FlashProvider) (ptb : MoveSequence) (scores : Scores) :
    Choice (MutationResult × MoveSequence × Scores) :=
  mutateSequenceBy st nextFloatBelow flash (roundsRestored st flash ptb 10 false) ptb scores

def Longer (a b : MoveSequence) : Prop := a.commands.length < b.commands.length

theorem mutateRound_longer (st : FuzzState) (flash : Option FlashProvider) (ptb : MoveSequence)
    (scores : Scores) :
    Choice.Ensures (mutateRound st flash ptb scores) fun round =>
      ∀ ptb' scores', round = .pending ptb' scores' → Longer ptb ptb' := by
  unfold mutateRound
  split_ifs
  · exact Choice.ensures_pure _ _ fun _ _ h => by cases h
  · apply Choice.ensures_then
    intro function
    refine Choice.ensures_bind _ _ (fun start => start.1 ≤ ptb.commands.length) _ ?_ ?_
    · apply Choice.ensures_expect
      intro start hstart
      cases flash with
      | none =>
        rw [← Option.some.inj hstart]
      | some provider =>
        cases provider with
        | cetus =>
          simp only [templateStart] at hstart
          split_ifs at hstart
          rw [← Option.some.inj hstart]
          exact Nat.sub_le _ _
        | nemo =>
          simp only [templateStart] at hstart
          split_ifs at hstart
          rw [← Option.some.inj hstart]
          exact Nat.sub_le _ _
    · intro start hidx
      refine Choice.ensures_bind _ _ _ _ (appendFunction_longer st 11 _ _ _ _ _ _) ?_
      rintro ⟨appended, ptb'⟩ hlonger
      cases appended with
      | none => exact Choice.ensures_pure _ _ fun _ _ h => by cases h
      | some appended =>
        have hlen : start.1 < ptb'.commands.length := by
          have hlonger := hlonger rfl
          rw [List.length_take, Nat.min_eq_left hidx] at hlonger
          exact hlonger
        by_cases hsplits : 10 < (splitCommands
            { ptb' with commands := ptb'.commands ++ ptb.commands.drop start.1 }).length
        · simp only [hsplits, if_true]
          exact Choice.ensures_pure _ _ fun _ _ h => by cases h
        · simp only [hsplits, if_false]
          apply Choice.ensures_then
          intro objectData
          split_ifs
          · exact Choice.ensures_pure _ _ fun _ _ h => by cases h
          · apply Choice.ensures_pure
            intro ptb' scores' h
            cases h
            rw [Longer, List.length_append, List.length_drop]
            omega

/- A result without the cut is a result with it, or the sequence has grown. -/
theorem roundsRestored_cuts (st : FuzzState) (flash : Option FlashProvider)
    (snapshot : MoveSequence) (rounds : ℕ) (left : Bool) (ptb : MoveSequence) (scores : Scores)
    (hleft : left = true → Longer snapshot ptb) (hback : left = false → ptb = snapshot) :
    Choice.Cuts (roundsRestored st flash snapshot rounds left ptb scores)
      (mutateRounds st flash snapshot rounds ptb scores) fun r => Longer snapshot r.2.1 := by
  induction rounds generalizing left ptb scores with
  | zero => exact Choice.cuts_refl _ _
  | succ rounds ih =>
    refine Choice.cuts_bind _ _ _ _ (fun _ => False) _ (Choice.cuts_refl _ _) ?_
      fun _ h => h.elim
    intro round hround
    cases round with
    | noWeights =>
      cases left with
      | false => exact Choice.cuts_refl _ _
      | true =>
        intro rs r rest h
        obtain ⟨rfl, -⟩ := Prod.mk.inj ((Choice.pure_eq_some _ rs _).mp h)
        exact Or.inr (hleft rfl)
    | failed => exact ih false snapshot scores (fun h => by cases h) fun _ => rfl
    | tooManySplits => exact Choice.cuts_refl _ _
    | pending ptb' scores' =>
      have hgrown := (mutateRound_longer st flash ptb scores).of_yields hround ptb' scores' rfl
      refine ih true ptb' scores' (fun _ => ?_) fun h => by cases h
      cases left with
      | false => exact hback rfl ▸ hgrown
      | true => exact Nat.lt_trans (hleft rfl) hgrown
    | solved ptb' scores' => exact Choice.cuts_refl _ _

/- What is skipped with the cut has its snapshot. -/
theorem roundsRestored_skipped (st : FuzzState) (flash : Option FlashProvider)
    (snapshot : MoveSequence) (rounds : ℕ) (left : Bool) (ptb : MoveSequence) (scores : Scores)
    (hback : left = false → ptb = snapshot) :
    Choice.Ensures (roundsRestored st flash snapshot rounds left ptb scores) fun r =>
      r.1 = .skipped → r.2.1 = snapshot := by
  have hfinish : ∀ scores, Choice.Ensures (finishRounds st .skipped snapshot scores) fun r =>
      r.1 = .skipped → r.2.1 = snapshot := by
    intro scores
    apply Choice.ensures_then
    intro objectData
    exact Choice.ensures_pure _ _ fun _ => rfl
  induction rounds generalizing left ptb scores with
  | zero => exact hfinish scores
  | succ rounds ih =>
    apply Choice.ensures_then
    intro round
    cases round with
    | noWeights =>
      cases left with
      | false => exact Choice.ensures_pure _ _ fun _ => hback rfl
      | true => exact Choice.ensures_panic _
    | failed => exact ih false snapshot scores fun _ => rfl
    | tooManySplits => exact hfinish scores
    | pending ptb' scores' => exact ih true ptb' scores' fun h => by cases h
    | solved ptb' scores' =>
      apply Choice.ensures_then
      intro objectData
      exact Choice.ensures_pure _ _ fun h => by cases h

theorem roundsRestored_refines (st : FuzzState) (flash : Option FlashProvider)
    (snapshot : MoveSequence) (rounds : ℕ) (left : Bool) (ptb : MoveSequence) (scores : Scores) :
    Choice.Refines (roundsRestored st flash snapshot rounds left ptb scores)
      (mutateRounds st flash snapshot rounds ptb scores) := by
  induction rounds generalizing left ptb scores with
  | zero => exact Choice.Refines.refl _
  | succ rounds ih =>
    apply Choice.refines_then
    intro round
    cases round with
    | noWeights =>
      cases left with
      | false => exact Choice.Refines.refl _
      | true => exact Choice.panic_refines _
    | failed => exact ih false snapshot scores
    | tooManySplits => exact Choice.Refines.refl _
    | pending ptb' scores' => exact ih true ptb' scores'
    | solved ptb' scores' => exact Choice.Refines.refl _

section

variable (st : FuzzState) (nextFloatBelow : ℕ → ℕ → Bool) (flash : Option FlashProvider)
  (ptb : MoveSequence) (scores : Scores)

theorem mutateSequenceRestored_cuts :
    Choice.Cuts (mutateSequenceRestored st nextFloatBelow flash ptb scores)
      (mutateSequence st nextFloatBelow flash ptb scores) fun r => Longer ptb r.2.1 := by
  unfold mutateSequenceRestored mutateSequence mutateSequenceBy
  split_ifs
  · exact Choice.cuts_refl _ _
  · apply Choice.cuts_then
    intro inc
    split_ifs
    · exact roundsRestored_cuts st flash ptb 10 false ptb scores (fun h => by cases h) fun _ => rfl
    · exact Choice.cuts_refl _ _

theorem mutateSequenceRestored_refines :
    Choice.Refines (mutateSequenceRestored st nextFloatBelow flash ptb scores)
      (mutateSequence st nextFloatBelow flash ptb scores) := by
  unfold mutateSequenceRestored mutateSequence mutateSequenceBy
  split_ifs
  · exact Choice.Refines.refl _
  · apply Choice.refines_then
    intro inc
    split_ifs
    · exact roundsRestored_refines st flash ptb 10 false ptb scores
    · exact Choice.Refines.refl _

theorem removeRandom_skipped :
    Choice.Ensures (removeRandom st flash ptb scores) fun r =>
      r.1 = .skipped → r.2.1 = ptb := by
  apply Choice.ensures_then
  intro idx
  split
  · exact Choice.ensures_pure _ _ fun h => by cases h
  · exact Choice.ensures_pure _ _ fun _ => rfl
  · exact Choice.ensures_panic _

theorem mutateSequenceRestored_skipped :
    Choice.Ensures (mutateSequenceRestored st nextFloatBelow flash ptb scores) fun r =>
      r.1 = .skipped → r.2.1 = ptb := by
  unfold mutateSequenceRestored mutateSequenceBy
  split_ifs
  · exact Choice.ensures_panic _
  · apply Choice.ensures_then
    intro inc
    split_ifs
    · exact roundsRestored_skipped st flash ptb 10 false ptb scores fun _ => rfl
    · exact removeRandom_skipped st flash ptb scores

/- A skipped mutation leaves the sequence as it was exactly if no round finds all
scores at zero right after a round that has left its call in the sequence. -/
theorem skipped_unchanged_iff (ptb' : MoveSequence) (scores' : Scores) (rs rest : List ℕ)
    (h : mutateSequence st nextFloatBelow flash ptb scores rs =
      some ((.skipped, ptb', scores'), rest)) :
    ptb' = ptb ↔
      (mutateSequenceRestored st nextFloatBelow flash ptb scores rs).isSome = true := by
  constructor
  · rintro rfl
    rcases mutateSequenceRestored_cuts st nextFloatBelow flash ptb' scores rs _ rest h with
      hrun | hlonger
    · rw [hrun]
      rfl
    · exact absurd hlonger (Nat.lt_irrefl _)
  · intro hsome
    obtain ⟨r, hr⟩ := Option.isSome_iff_exists.mp hsome
    have hfull := mutateSequenceRestored_refines st nextFloatBelow flash ptb scores rs r hr
    rw [h, Option.some.injEq] at hfull
    subst hfull
    exact mutateSequenceRestored_skipped st nextFloatBelow flash ptb scores rs _ rest hr rfl

end

/- A pass must be returned: it can be opened and stamped. -/
def passModule : MoveModuleId := ⟨ObjectID.ofByte 7, "pass"⟩

def passHandle : MoveStructHandle := ⟨passModule, "Pass", ⟨false, false, false, false⟩, []⟩

def passState : FuzzState :=
  FuzzState.ofModule ⟨passModule,
    [⟨"open", [], [.struct passHandle], [], .public_⟩,
      ⟨"stamp", [.struct passHandle], [.struct passHandle], [], .public_⟩], [passHandle]⟩

def passCall (function : String) (arguments : List SequenceArgument) : MoveSequenceCall :=
  .call ⟨ObjectID.ofByte 7, "pass", function, [], arguments⟩

def passScores (openScore stampScore : U64) : Scores :=
  .derive [⟨passModule, "open"⟩, ⟨passModule, "stamp"⟩] fun f =>
    if f = ⟨passModule, "open"⟩ then some openScore
    else if f = ⟨passModule, "stamp"⟩ then some stampScore
    else none

/- Ten calls of `open` do not get rid of the pass. -/
theorem skipped_unchanged_iff_open :
    ∃ scores, mutateSequence passState (fun _ _ => true) none ⟨[], []⟩ (passScores 7 5)
      (List.replicate 20 0) = some ((.skipped, ⟨[], []⟩, scores), []) ∧
    ((⟨[], []⟩ : MoveSequence) = ⟨[], []⟩ ↔
      (mutateSequenceRestored passState (fun _ _ => true) none ⟨[], []⟩ (passScores 7 5)
        (List.replicate 20 0)).isSome = true) := by
  obtain ⟨scores, hrun⟩ : ∃ scores, mutateSequence passState (fun _ _ => true) none ⟨[], []⟩
      (passScores 7 5) (List.replicate 20 0) = some ((.skipped, ⟨[], []⟩, scores), []) :=
    ⟨_, by rfl⟩
  exact ⟨scores, hrun, skipped_unchanged_iff _ _ _ _ _ _ _ _ _ hrun⟩

/- After the first round `open` has the score zero, and that of `stamp` has wrapped
around to zero. With a score that is left from before, no overflow is needed. -/
theorem skipped_keeps_calls :
    (∃ scores, mutateSequence passState (fun _ _ => true) none ⟨[], []⟩
      (passScores 0 (2 ^ 64 - 5000)) [0, 0, 0, 0] =
        some ((.skipped, ⟨[], [passCall "open" [], passCall "stamp" [.result 0]]⟩, scores), [])) ∧
    ∃ scores, mutateSequence passState (fun _ _ => true) none ⟨[], []⟩
      ⟨[⟨passModule, "open"⟩], fun _ => some 100, fun _ => some 0⟩ [0, 0] =
        some ((.skipped, ⟨[], [passCall "open" []]⟩, scores), []) :=
  ⟨⟨_, by rfl⟩, _, by rfl⟩

end Movy.Fuzz
