import Movy.Fuzz.ArgMutator
import Movy.Types.ToPtb

/-!
# The stage of a failed execution (`movy-fuzz/src/executor.rs`)

A failed transaction names the command that failed, by its position in the
transaction. `run_target` records this number as a position in the sequence,
and the mutators take the call there as the one to work on. The commands that
`to_ptb` makes for vectors among the inputs come first, so the two numberings
may differ.
-/

namespace Movy.Fuzz

open Movy.Types

inductive ExecutionStatus where
  | success
  | failure (command : Option ℕ)

/- The stage and the success that `run_target` records. A command may be out of
range if the execution was not aborted by one. -/
def recordedStage (seq : MoveSequence) : ExecutionStatus → Option ℕ × Bool
  | .failure command =>
    (if command.any (· < seq.commands.length) then command else none, false)
  | .success => (none, true)

section

variable (bcs : PureValue → List Movy.Store.Byte)

/- Command `c` of the transaction is the one that the builder appends for call
`k`. -/
def GeneratedFrom (seq : MoveSequence) (c k : ℕ) : Prop :=
  ∃ builder,
    MoveSequence.addInputs bcs ProgrammableTransactionBuilder.new seq.inputs = some builder ∧
    k < seq.commands.length ∧
    (MoveSequence.addCommands builder (seq.commands.take k)).commands.length = c

end

def SplitRightBefore (seq : MoveSequence) (idx k : ℕ) : Prop :=
  idx < k ∧ ∀ j, idx ≤ j → j < k →
    ∃ prev, seq.commands[j]? = some (.call prev) ∧ MoveCall.isSplit prev = true

def InputArgument.isVector : InputArgument → Bool
  | .vector _ _ => true
  | _ => false

theorem vectorsList_eq_zero_iff (inputs : List InputArgument) :
    InputArgument.vectorsList inputs = 0 ↔
      ∀ input ∈ inputs, InputArgument.isVector input = false := by
  induction inputs with
  | nil => simp [InputArgument.vectorsList]
  | cons v vs ih =>
    have hv : v.vectors = 0 ↔ InputArgument.isVector v = false := by
      cases v <;> simp [InputArgument.vectors, InputArgument.isVector]
    simp only [InputArgument.vectorsList, Nat.add_eq_zero_iff, hv, ih, List.forall_mem_cons]

theorem generatedFrom_iff (bcs : PureValue → List Movy.Store.Byte) (seq : MoveSequence)
    (ptb : ProgrammableTransaction) (h : seq.toPtb bcs = some ptb) (c k : ℕ) :
    GeneratedFrom bcs seq c k ↔
      k < seq.commands.length ∧ c = InputArgument.vectorsList seq.inputs + k := by
  simp only [MoveSequence.toPtb, Option.map_eq_some_iff] at h
  obtain ⟨b, hb, _⟩ := h
  obtain ⟨cs, hcs, hlen⟩ := (added_addInputs bcs seq.inputs _ b hb).commands
  have hat : k < seq.commands.length →
      (MoveSequence.addCommands b (seq.commands.take k)).commands.length =
        InputArgument.vectorsList seq.inputs + k := by
    intro hk
    rw [addCommands_eq, hcs]
    simp only [ProgrammableTransactionBuilder.new, List.nil_append, List.length_append,
      List.length_map, List.length_take, hlen]
    omega
  constructor
  · intro hgen
    obtain ⟨b', hb', hk, hc⟩ := hgen
    obtain rfl := Option.some.inj (hb.symm.trans hb')
    exact ⟨hk, hc.symm.trans (hat hk)⟩
  · intro hgen
    obtain ⟨hk, hc⟩ := hgen
    exact ⟨b, hb, hk, (hat hk).trans hc.symm⟩

theorem recordedStage_failure (seq : MoveSequence) (c k : ℕ) :
    (recordedStage seq (.failure (some c))).1 = some k ↔ k = c ∧ c < seq.commands.length := by
  by_cases hlt : c < seq.commands.length
  · simp [recordedStage, hlt, eq_comm]
  · simp [recordedStage, hlt]

theorem splitsBefore_mem (commands : List MoveSequenceCall) (k idx : ℕ)
    (h : idx ∈ splitsBefore commands k) :
    idx < k ∧ ∀ j, idx ≤ j → j < k →
      ∃ prev, commands[j]? = some (.call prev) ∧ MoveCall.isSplit prev = true := by
  induction k with
  | zero => simp [splitsBefore] at h
  | succ k ih =>
    simp only [splitsBefore] at h
    split at h
    · rename_i prev hprev
      split_ifs at h with hsplit
      · have hlast : ∀ j, j = k → ∃ prev, commands[j]? = some (.call prev) ∧
            MoveCall.isSplit prev = true := fun j hj => hj ▸ ⟨prev, hprev, hsplit⟩
        rcases List.mem_cons.mp h with rfl | hmem
        · exact ⟨Nat.lt_succ_self _, fun j hle hlt => hlast j (by omega)⟩
        · obtain ⟨hidx, hall⟩ := ih hmem
          refine ⟨by omega, fun j hle hlt => ?_⟩
          by_cases hj : j = k
          · exact hlast j hj
          · exact hall j hle (by omega)
      · exact absurd h List.not_mem_nil
    · exact absurd h List.not_mem_nil

theorem stageCandidateIndices_mem (st : FuzzState) (seq : MoveSequence) (k inputLimit : ℕ)
    (indices : List ℕ) (h : stageCandidateIndices st seq k inputLimit = some indices) (idx : ℕ)
    (hidx : idx ∈ indices) : idx = k ∨ SplitRightBefore seq idx k := by
  simp only [stageCandidateIndices] at h
  split at h
  · simp only [Option.bind_eq_bind, Option.bind_eq_some_iff, Option.some.injEq] at h
    obtain ⟨function, _, rfl⟩ := h
    rcases List.mem_append.mp hidx with hmem | hmem
    · split_ifs at hmem with hmut
      · exact Or.inl (List.mem_singleton.mp hmem)
      · exact absurd hmem List.not_mem_nil
    · exact Or.inr (splitsBefore_mem seq.commands k idx hmem)
  · rw [← Option.some.inj h] at hidx
    exact absurd hidx List.not_mem_nil

section

variable (bcs : PureValue → List Movy.Store.Byte)

/- The recorded stage, if there is one, is the call that command `c` was made
from, and the candidates are this call and the splits right before it. -/
def Localised (seq : MoveSequence) (c : ℕ) : Prop :=
  ∀ k, (recordedStage seq (.failure (some c))).1 = some k →
    GeneratedFrom bcs seq c k ∧
    ∀ st inputLimit indices, stageCandidateIndices st seq k inputLimit = some indices →
      ∀ idx ∈ indices, ∃ failing, GeneratedFrom bcs seq c failing ∧
        (idx = failing ∨ SplitRightBefore seq idx failing)

/- A failure is localised exactly if no input is a vector or the failing command
has a number that no call has. -/
theorem localised_iff (seq : MoveSequence) (ptb : ProgrammableTransaction)
    (h : seq.toPtb bcs = some ptb) (c : ℕ) :
    Localised bcs seq c ↔
      (∀ input ∈ seq.inputs, InputArgument.isVector input = false) ∨ seq.commands.length ≤ c := by
  rw [← vectorsList_eq_zero_iff]
  constructor
  · intro hloc
    by_cases hlt : c < seq.commands.length
    · have hgen := (hloc c ((recordedStage_failure seq c c).mpr ⟨rfl, hlt⟩)).1
      obtain ⟨_, hc⟩ := (generatedFrom_iff bcs seq ptb h c c).mp hgen
      exact Or.inl (by omega)
    · exact Or.inr (Nat.le_of_not_lt hlt)
  · intro hcond k hk
    obtain ⟨rfl, hlt⟩ := (recordedStage_failure seq c k).mp hk
    have hgen : GeneratedFrom bcs seq k k := by
      rw [generatedFrom_iff bcs seq ptb h]
      exact ⟨hlt, by omega⟩
    refine ⟨hgen, fun st inputLimit indices hind idx hidx => ⟨k, hgen, ?_⟩⟩
    exact stageCandidateIndices_mem st seq k inputLimit indices hind idx hidx

end

/-! ### A failure with and without a vector -/

def callOf (function : String) : MoveSequenceCall :=
  .call ⟨MoveAddress.two, "m", function, [], [.input 0]⟩

theorem localised_without_vectors :
    Localised bcsBytes ⟨[.u64 7], [callOf "f", callOf "g"]⟩ 1 :=
  (localised_iff bcsBytes ⟨[.u64 7], [callOf "f", callOf "g"]⟩ _ rfl 1).mpr
    (Or.inl (by simp [InputArgument.isVector]))

/- The transaction makes the vector, calls `f` and calls `g`. When `f` fails,
the call of `g` is recorded. -/
theorem vector_shifts_stage :
    ∃ ptb, (⟨[.u64 7, .vector .u64 [.u64 7]], [callOf "f", callOf "g"]⟩ : MoveSequence).toPtb
        bcsBytes = some ptb ∧ 1 < ptb.commands.length ∧
      GeneratedFrom bcsBytes ⟨[.u64 7, .vector .u64 [.u64 7]], [callOf "f", callOf "g"]⟩ 1 0 ∧
      ¬Localised bcsBytes ⟨[.u64 7, .vector .u64 [.u64 7]], [callOf "f", callOf "g"]⟩ 1 := by
  refine ⟨_, rfl, by decide, ?_, ?_⟩
  · rw [generatedFrom_iff bcsBytes _ _ rfl]
    exact ⟨by decide, rfl⟩
  · intro hloc
    have hgen := (hloc 1 ((recordedStage_failure _ 1 1).mpr ⟨rfl, by decide⟩)).1
    obtain ⟨_, hc⟩ := (generatedFrom_iff bcsBytes _ _ rfl 1 1).mp hgen
    exact absurd hc (by decide)

end Movy.Fuzz
