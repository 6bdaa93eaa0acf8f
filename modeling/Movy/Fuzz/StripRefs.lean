import Movy.Fuzz.Embed
import Movy.Lib.Positions

/-!
# References after stripping

`strip_hooks_only` drops the hooks, and then what used their results. The new
indices are counted before the second kind of removal.
-/

namespace Movy.Fuzz

open Movy.Types

section

variable (st : FuzzState) (commands : List MoveSequenceCall)

def plainAt (i : ℕ) : Bool := (commands[i]?).any fun cmd => !isHook st cmd

def hookAt (i : ℕ) : Bool := (commands[i]?).any fun cmd => isHook st cmd

def usesHook (k : ℕ) : Bool :=
  (commands[k]?).any fun cmd => (commandArgs cmd).any fun arg =>
    (argCommand arg).any fun i => hookAt st commands i

/- Dropped for the second reason. -/
def Dropped (k : ℕ) : Prop := plainAt st commands k = true ∧ usesHook st commands k = true

def Survives (k : ℕ) : Prop := plainAt st commands k = true ∧ ¬ usesHook st commands k = true

instance : DecidablePred (Survives st commands) := fun k =>
  inferInstanceAs (Decidable (plainAt st commands k = true ∧ ¬ usesHook st commands k = true))

/- Where the commands of the stripped sequence stood. -/
def stripPositions : List ℕ := keptIndices (Survives st commands) commands.length

inductive DependsOnHook : ℕ → Prop
  | hook (k i : ℕ) : Refers commands k i → hookAt st commands i = true → DependsOnHook k
  | trans (k i : ℕ) : Refers commands k i → DependsOnHook i → DependsOnHook k

end

/- Stripping keeps the references intact and drops what depends on a hook. -/
structure StripIntact (st : FuzzState) (ptb : MoveSequence) : Prop where
  refs : ∀ p cmd', (stripHooksOnly st ptb).commands[p]? = some cmd' →
    ∃ k cmd g, (stripPositions st ptb.commands)[p]? = some k ∧ ptb.commands[k]? = some cmd ∧
      cmd' = mapCommand g cmd ∧
      ∀ arg ∈ commandArgs cmd, Relocated (stripPositions st ptb.commands) p arg (g arg)
  dependents : ∀ k, DependsOnHook st ptb.commands k → k ∉ stripPositions st ptb.commands

/-! ### The index map -/

theorem stripMapping_getElem? (st : FuzzState) (n : ℕ) (commands : List MoveSequenceCall) (i : ℕ) :
    (stripMapping st n commands)[i]? = (commands[i]?).map fun cmd =>
      if isHook st cmd then none
      else some (asU16 (n + Nat.count (fun j => plainAt st commands j = true) i)) := by
  induction commands generalizing n i with
  | nil => rfl
  | cons cmd rest ih =>
    cases i with
    | zero =>
      unfold stripMapping
      split_ifs with hhook
      · simp [hhook]
      · simp [hhook]
    | succ i =>
      have hcount : Nat.count (fun j => plainAt st (cmd :: rest) j = true) (i + 1) =
          Nat.count (fun j => plainAt st rest j = true) i + if isHook st cmd then 0 else 1 := by
        rw [Nat.count_succ']
        have hzero : plainAt st (cmd :: rest) 0 = !isHook st cmd := rfl
        simp only [hzero]
        cases isHook st cmd <;> rfl
      unfold stripMapping
      by_cases hhook : isHook st cmd = true
      · rw [if_pos hhook] at hcount ⊢
        rw [List.getElem?_cons_succ, List.getElem?_cons_succ, ih, hcount, Nat.add_zero]
      · rw [if_neg hhook] at hcount ⊢
        rw [List.getElem?_cons_succ, List.getElem?_cons_succ, ih, hcount]
        have hassoc : n + 1 + Nat.count (fun j => plainAt st rest j = true) i =
            n + (Nat.count (fun j => plainAt st rest j = true) i + 1) := by omega
        rw [hassoc]

section

variable (st : FuzzState) (ptb : MoveSequence)

/- The new index of a command, as it is counted. -/
def countedIndex (i : ℕ) : ℕ := Nat.count (fun j => plainAt st ptb.commands j = true) i

theorem plainAt_iff (commands : List MoveSequenceCall) (i : ℕ) :
    plainAt st commands i = true ↔ ∃ cmd, commands[i]? = some cmd ∧ isHook st cmd = false := by
  unfold plainAt
  cases commands[i]? with
  | none => simp
  | some cmd => simp

theorem usesHook_iff (commands : List MoveSequenceCall) (k : ℕ) :
    usesHook st commands k = true ↔ ∃ i, Refers commands k i ∧ hookAt st commands i = true := by
  unfold usesHook Refers
  cases commands[k]? with
  | none => simp
  | some cmd =>
    simp only [Option.any_some, List.any_eq_true, Option.some.injEq, exists_eq_left']
    constructor
    · intro h
      obtain ⟨arg, harg, hany⟩ := h
      cases hi : argCommand arg with
      | none =>
        rw [hi] at hany
        cases hany
      | some i =>
        rw [hi] at hany
        exact ⟨i, ⟨arg, harg, hi⟩, hany⟩
    · intro h
      obtain ⟨i, ⟨arg, harg, hi⟩, hhook⟩ := h
      refine ⟨arg, harg, ?_⟩
      rw [hi]
      exact hhook

theorem remapArg_strip (arg : SequenceArgument) (i : ℕ) (h : argCommand arg = some i)
    (hi : i < ptb.commands.length) :
    remapArgWithMap (stripMapping st 0 ptb.commands) arg =
      if hookAt st ptb.commands i then none else some (renameArg (countedIndex st ptb) arg) := by
  have hget : ∀ j : U16, j.val = i → (stripMapping st 0 ptb.commands)[j.val]? =
      some (if hookAt st ptb.commands i then none else some (asU16 (countedIndex st ptb j.val))) := by
    rintro j rfl
    rw [stripMapping_getElem?, hookAt, List.getElem?_eq_getElem hi, Nat.zero_add]
    rfl
  cases arg with
  | gasCoin => cases h
  | input j => cases h
  | result j =>
    cases h
    rw [remapArgWithMap, hget j rfl]
    split_ifs <;> rfl
  | nestedResult j l =>
    cases h
    rw [remapArgWithMap, hget j rfl]
    split_ifs <;> rfl

/- What is made of a command. -/
def stripCommand (cmd : MoveSequenceCall) : Option MoveSequenceCall :=
  if isHook st cmd then none else remapCommandWithMap cmd (stripMapping st 0 ptb.commands)

theorem stripHooksOnly_filterMap :
    (stripHooksOnly st ptb).commands = ptb.commands.filterMap (stripCommand st ptb) := by
  show (ptb.commands.filter fun cmd => !isHook st cmd).filterMap _ = _
  rw [List.filterMap_filter]
  apply List.filterMap_congr
  intro cmd _
  unfold stripCommand
  cases isHook st cmd <;> rfl

theorem countedIndex_le (i : ℕ) : countedIndex st ptb i ≤ i := Nat.count_le _

/- A survivor is at the counted index if nothing was dropped before it. -/
theorem position_iff (i : ℕ) (hi : i < ptb.commands.length) :
    (stripPositions st ptb.commands)[countedIndex st ptb i]? = some i ↔
      Survives st ptb.commands i ∧ ∀ d < i, ¬ Dropped st ptb.commands d := by
  have hcount := count_eq_count_iff (Survives st ptb.commands)
    (fun j => plainAt st ptb.commands j = true) (fun j hj => hj.1) i
  rw [stripPositions, getElem?_keptIndices, and_iff_right hi]
  refine and_congr_right fun _ => hcount.trans ?_
  exact forall₂_congr fun d _ =>
    ⟨fun hall hdropped => (hall hdropped.1).2 hdropped.2, fun hnot hplain => ⟨hplain, fun huses =>
      hnot ⟨hplain, huses⟩⟩⟩

variable (hback : BackwardRefs ptb.commands)

include hback

theorem refers_inRange (k i : ℕ) (h : Refers ptb.commands k i) : i < ptb.commands.length := by
  obtain ⟨cmd, hcmd, -⟩ := id h
  exact Nat.lt_trans (hback.lt h) (List.getElem?_eq_some_iff.mp hcmd).1

theorem stripCommand_eq (k : ℕ) (cmd : MoveSequenceCall) (hcmd : ptb.commands[k]? = some cmd)
    (hsurvives : Survives st ptb.commands k) :
    stripCommand st ptb cmd = some (renameCommand (countedIndex st ptb) cmd) := by
  obtain ⟨hplain, huses⟩ := hsurvives
  obtain ⟨c, hc, hhook⟩ := (plainAt_iff st ptb.commands k).mp hplain
  obtain rfl := Option.some.inj (hcmd.symm.trans hc)
  rw [stripCommand, hhook, if_neg (by decide)]
  apply remapArgs_eq
  intro arg harg
  cases hi : argCommand arg with
  | none =>
    rw [renameArg_none _ arg hi]
    cases arg with
    | gasCoin => rfl
    | input j => rfl
    | result j => cases hi
    | nestedResult j l => cases hi
  | some i =>
    have hrefers : Refers ptb.commands k i := ⟨cmd, hcmd, arg, harg, hi⟩
    rw [remapArg_strip st ptb arg i hi (refers_inRange ptb hback k i hrefers), if_neg]
    intro hhookAt
    exact huses ((usesHook_iff st ptb.commands k).mpr ⟨i, hrefers, hhookAt⟩)

theorem survives_iff (k : ℕ) :
    Survives st ptb.commands k ↔
      ((ptb.commands[k]?).bind (stripCommand st ptb)).isSome = true := by
  constructor
  · intro hsurvives
    obtain ⟨cmd, hcmd, -⟩ := (plainAt_iff st ptb.commands k).mp hsurvives.1
    rw [hcmd, Option.bind_some, stripCommand_eq st ptb hback k cmd hcmd hsurvives]
    rfl
  · intro hsome
    cases hcmd : ptb.commands[k]? with
    | none =>
      rw [hcmd] at hsome
      cases hsome
    | some cmd =>
      rw [hcmd, Option.bind_some, stripCommand] at hsome
      cases hhook : isHook st cmd with
      | true =>
        rw [hhook] at hsome
        cases hsome
      | false =>
        rw [hhook, if_neg (by decide), remapCommandWithMap, remapArgs_isSome_iff] at hsome
        refine ⟨(plainAt_iff st ptb.commands k).mpr ⟨cmd, hcmd, hhook⟩, fun huses => ?_⟩
        obtain ⟨i, hrefers, hhookAt⟩ := (usesHook_iff st ptb.commands k).mp huses
        have hi := refers_inRange ptb hback k i hrefers
        obtain ⟨c, hc, arg, harg, hargi⟩ := hrefers
        obtain rfl := Option.some.inj (hcmd.symm.trans hc)
        have harg := hsome arg harg
        rw [remapArg_strip st ptb arg i hargi hi, if_pos hhookAt] at harg
        cases harg

theorem stripHooksOnly_getElem? (p : ℕ) :
    (stripHooksOnly st ptb).commands[p]? = ((stripPositions st ptb.commands)[p]?).bind fun k =>
      (ptb.commands[k]?).map (renameCommand (countedIndex st ptb)) := by
  rw [stripHooksOnly_filterMap, getElem?_filterMap _ _ (Survives st ptb.commands)
    fun i _ => survives_iff st ptb hback i]
  show ((stripPositions st ptb.commands)[p]?).bind _ = _
  cases hk : (stripPositions st ptb.commands)[p]? with
  | none => rfl
  | some k =>
    obtain ⟨-, hsurvives, -⟩ := (getElem?_keptIndices _ _ _ _).mp hk
    obtain ⟨cmd, hcmd, -⟩ := (plainAt_iff st ptb.commands k).mp hsurvives.1
    simp only [Option.bind_some, hcmd, Option.map_some]
    exact stripCommand_eq st ptb hback k cmd hcmd hsurvives

theorem survives_or_dropped (k i : ℕ) (hk : Survives st ptb.commands k)
    (hrefers : Refers ptb.commands k i) :
    Survives st ptb.commands i ∨ Dropped st ptb.commands i := by
  have hplain : plainAt st ptb.commands i = true := by
    have hi := refers_inRange ptb hback k i hrefers
    rw [plainAt_iff]
    refine ⟨ptb.commands[i], List.getElem?_eq_getElem hi, ?_⟩
    by_contra hhook
    rw [Bool.not_eq_false] at hhook
    refine hk.2 ((usesHook_iff st ptb.commands k).mpr ⟨i, hrefers, ?_⟩)
    rw [hookAt, List.getElem?_eq_getElem hi]
    exact hhook
  by_cases huses : usesHook st ptb.commands i = true
  · exact Or.inr ⟨hplain, huses⟩
  · exact Or.inl ⟨hplain, huses⟩

end

/- Stripping keeps all references exactly if no surviving command refers to a
result at or behind a command that is dropped for using a hook. -/
theorem stripIntact_iff (st : FuzzState) (ptb : MoveSequence) (hback : BackwardRefs ptb.commands) :
    StripIntact st ptb ↔ ∀ k i d, Survives st ptb.commands k → Refers ptb.commands k i →
      Dropped st ptb.commands d → i < d := by
  constructor
  · intro hintact k i d hk hrefers hdropped
    have hi := refers_inRange ptb hback k i hrefers
    obtain ⟨cmd, hcmd, arg, harg, hargi⟩ := hrefers
    have hklt := (List.getElem?_eq_some_iff.mp hcmd).1
    have hpos : (stripPositions st ptb.commands)[Nat.count (Survives st ptb.commands) k]? = some k :=
      (getElem?_keptIndices _ _ _ _).mpr ⟨hklt, hk, rfl⟩
    have hstripped := stripHooksOnly_getElem? st ptb hback
      (Nat.count (Survives st ptb.commands) k)
    rw [hpos, Option.bind_some, hcmd, Option.map_some] at hstripped
    obtain ⟨k', cmd', g, hpos', hcmd', hmap, hargs⟩ := hintact.refs _ _ hstripped
    obtain rfl := Option.some.inj (hpos.symm.trans hpos')
    obtain rfl := Option.some.inj (hcmd.symm.trans hcmd')
    have hreloc := hargs arg harg
    rw [← mapCommand_injOn _ _ cmd hmap arg harg, Relocated, hargi] at hreloc
    obtain ⟨q, -, hq, hargq, -⟩ := hreloc
    rw [argCommand_renameArg _ arg i hargi (countedIndex_le st ptb i), Option.some.injEq] at hargq
    rw [← hargq] at hq
    obtain ⟨hsurvives, hnone⟩ := (position_iff st ptb i hi).mp hq
    have hne : i ≠ d := by
      rintro rfl
      exact hsurvives.2 hdropped.2
    have hnlt : ¬ d < i := fun hlt => hnone d hlt hdropped
    omega
  · intro hcond
    have hrefsTo : ∀ k i, Survives st ptb.commands k → Refers ptb.commands k i →
        Survives st ptb.commands i ∧ ∀ d < i, ¬ Dropped st ptb.commands d := by
      intro k i hk hrefers
      have hfree : ∀ d ≤ i, ¬ Dropped st ptb.commands d := fun d hd hdropped =>
        absurd (hcond k i d hk hrefers hdropped) (Nat.not_lt.mpr hd)
      exact ⟨(survives_or_dropped st ptb hback k i hk hrefers).resolve_right
        (hfree i (Nat.le_refl i)), fun d hd => hfree d (Nat.le_of_lt hd)⟩
    constructor
    · intro p cmd' hcmd'
      rw [stripHooksOnly_getElem? st ptb hback, Option.bind_eq_some_iff] at hcmd'
      obtain ⟨k, hk, hcmd'⟩ := hcmd'
      obtain ⟨cmd, hcmd, rfl⟩ := Option.map_eq_some_iff.mp hcmd'
      obtain ⟨-, hsurvives, hp⟩ := (getElem?_keptIndices _ _ _ _).mp hk
      refine ⟨k, cmd, renameArg (countedIndex st ptb), hk, hcmd, rfl, fun arg harg => ?_⟩
      unfold Relocated
      cases hi : argCommand arg with
      | none => exact renameArg_none _ arg hi
      | some i =>
        have hrefers : Refers ptb.commands k i := ⟨cmd, hcmd, arg, harg, hi⟩
        obtain ⟨hsurv, hnone⟩ := hrefsTo k i hsurvives hrefers
        have hpos := (position_iff st ptb i (refers_inRange ptb hback k i hrefers)).mpr
          ⟨hsurv, hnone⟩
        refine ⟨countedIndex st ptb i, ?_, hpos,
          argCommand_renameArg _ arg i hi (countedIndex_le st ptb i), renameArg_at _ _ arg i hi rfl⟩
        have hcount := ((getElem?_keptIndices _ _ _ _).mp hpos).2.2
        rw [← hcount, ← hp]
        exact Nat.count_strict_mono hsurv (hback.lt hrefers)
    · intro k hdepends hmem
      obtain ⟨-, hk⟩ := (mem_keptIndices _ _ k).mp hmem
      clear hmem
      induction hdepends with
      | hook k i hrefers hhook =>
        exact hk.2 ((usesHook_iff st ptb.commands k).mpr ⟨i, hrefers, hhook⟩)
      | trans k i hrefers _ ih => exact ih (hrefsTo k i hk hrefers).1

theorem redeem_backward :
    BackwardRefs [ticketCall "begin" [], ticketCall "open" [], ticketCall "redeem" [.result 1]] := by
  intro k cmd hk arg harg i hi
  match k with
  | 0 | 1 =>
    obtain rfl := Option.some.inj hk
    cases harg
  | 2 =>
    obtain rfl := Option.some.inj hk
    rw [List.mem_singleton.mp harg] at hi
    rw [← Option.some.inj hi]
    decide
  | k + 3 => simp at hk

theorem stripIntact_iff_redeem :
    StripIntact ticketState
        ⟨[], [ticketCall "begin" [], ticketCall "open" [], ticketCall "redeem" [.result 1]]⟩ ↔
      ∀ k i d,
        Survives ticketState
          [ticketCall "begin" [], ticketCall "open" [], ticketCall "redeem" [.result 1]] k →
        Refers [ticketCall "begin" [], ticketCall "open" [], ticketCall "redeem" [.result 1]] k i →
        Dropped ticketState
          [ticketCall "begin" [], ticketCall "open" [], ticketCall "redeem" [.result 1]] d →
        i < d :=
  stripIntact_iff ticketState ⟨[], _⟩ redeem_backward

/- The second call uses the result of a hook and is dropped; the last one, which
should refer to the call before it, refers to itself. -/
def shiftedCommands : List MoveSequenceCall :=
  [ticketCall "begin" [], ticketCall "redeem" [.result 0], ticketCall "open" [],
    ticketCall "redeem" [.result 2]]

theorem shifted_backward : BackwardRefs shiftedCommands := by
  intro k cmd hk arg harg i hi
  match k with
  | 0 | 2 =>
    obtain rfl := Option.some.inj hk
    cases harg
  | 1 | 3 =>
    obtain rfl := Option.some.inj hk
    rw [List.mem_singleton.mp harg] at hi
    rw [← Option.some.inj hi]
    decide
  | k + 4 => simp [shiftedCommands] at hk

theorem strip_shifted :
    BackwardRefs shiftedCommands ∧
    (stripHooksOnly ticketState ⟨[], shiftedCommands⟩).commands =
      [ticketCall "open" [], ticketCall "redeem" [.result 1]] ∧
    ¬ StripIntact ticketState ⟨[], shiftedCommands⟩ := by
  refine ⟨shifted_backward, by rfl, fun hintact => ?_⟩
  obtain ⟨k, cmd, g, hk, hcmd, hmap, hargs⟩ := hintact.refs 1 (ticketCall "redeem" [.result 1]) rfl
  have hk3 : k = 3 := Option.some.inj (hk.symm.trans (by decide))
  subst hk3
  obtain rfl : ticketCall "redeem" [.result 2] = cmd := Option.some.inj hcmd
  have hreloc := hargs (.result 2) (List.mem_singleton_self _)
  have hg : [SequenceArgument.result 1] = [g (.result 2)] := congrArg commandArgs hmap
  rw [← (List.cons.inj hg).1] at hreloc
  obtain ⟨q, hq, -, hargq, -⟩ := hreloc
  have h1 : (1 : ℕ) = q := Option.some.inj hargq
  omega

end Movy.Fuzz
