import Movy.Fuzz.Embed
import Movy.Fuzz.RemoveCommand
import Movy.Lib.Positions

/-!
# References after a removal

What is removed is closed under the use of results, so the commands that stay
only refer to each other, and the shifts find them at their new places.
-/

namespace Movy.Fuzz

open Movy.Types

def stayPositions (removed : List U16) (n : ℕ) : List ℕ :=
  keptIndices (fun k => k ∉ removed.map Fin.val) n

/- Removing a command takes along what depends on it, and keeps the references of
the others. Only an unknown function makes it panic. -/
structure RemovalIntact (st : FuzzState) (ptb : MoveSequence) (idx : U16) : Prop where
  terminates : ∃ n, ∀ fuel, n ≤ fuel → removeCommand st none ptb fuel idx ≠ .error .outOfFuel
  panics : ∀ fuel, removeCommand st none ptb fuel idx = .error .panic →
    CallsUnknown st ptb.commands
  dependents : ∀ fuel removed, genRemoveIdxes st none ptb.commands fuel idx [] = .ok removed →
    ∀ k i, i ∈ removed.map Fin.val → Refers ptb.commands k i → k ∈ removed.map Fin.val
  references : ∀ fuel ptb', removeCommand st none ptb fuel idx = .ok (some ptb') →
    ∃ removed, genRemoveIdxes st none ptb.commands fuel idx [] = .ok removed ∧
      ptb'.inputs = ptb.inputs ∧
      ptb'.commands.length = (stayPositions removed ptb.commands.length).length ∧
      ∀ p k, (stayPositions removed ptb.commands.length)[p]? = some k →
        ∃ cmd g, ptb.commands[k]? = some cmd ∧ ptb'.commands[p]? = some (mapCommand g cmd) ∧
          ∀ arg ∈ commandArgs cmd,
            Relocated (stayPositions removed ptb.commands.length) p arg (g arg)

/-! ### The removed indices -/

theorem sortDedup_pairwise (l : List U16) : (sortDedup l).Pairwise (· < ·) := by
  have hle : (sortDedup l).Pairwise (· ≤ ·) :=
    (List.pairwise_insertionSort (· ≤ ·) l).sublist (List.dedup_sublist _)
  exact (hle.and (List.nodup_dedup _)).imp fun h => lt_of_le_of_ne h.1 h.2

theorem count_not_removed (removed : List ℕ) (j : ℕ) :
    Nat.count (fun k => k ∉ removed) j = j - removedBefore removed j := by
  rw [← length_keptIndices]
  exact filter_range_not_mem_length removed j

section

variable (st : FuzzState) (flash : Option FlashProvider) (commands : List MoveSequenceCall)
  (hcalls : ∀ cmd ∈ commands, ∃ call, cmd = .call call)

include hcalls

theorem removeStep_sorted (visit : U16 → List U16 → Except Stop (List U16)) (idx : U16)
    (s t : List U16) (hin : InReach flash commands idx)
    (h : removeStep visit st flash commands idx s = .ok t) : t.Pairwise (· < ·) := by
  obtain ⟨out, hout, h⟩ := (bind_eq_ok _ _ _).mp h
  obtain rfl := (outOfReach_ok flash commands idx out hout).mpr hin
  rw [if_neg Bool.false_ne_true] at h
  obtain ⟨s1, -, h⟩ := (bind_eq_ok _ _ _).mp h
  have hlt := hin.lt
  obtain ⟨call, hcall⟩ := hcalls commands[idx.val] (List.getElem_mem hlt)
  rw [List.getElem?_eq_getElem hlt, hcall] at h
  obtain ⟨s2, -, h⟩ := (bind_eq_ok _ _ _).mp h
  cases hfunction : st.getCalled call with
  | none =>
    rw [hfunction] at h
    cases h
  | some function =>
    rw [hfunction] at h
    obtain ⟨s3, -, h⟩ := (bind_eq_ok _ _ _).mp h
    rw [← Except.ok.inj h]
    exact sortDedup_pairwise s3

theorem genRemoveIdxes_spec (fuel : ℕ) (idx : U16) (removed : List U16)
    (h : genRemoveIdxes st flash commands fuel idx [] = .ok removed) :
    (removed = [] ∧ ¬ InReach flash commands idx) ∨
      (InReach flash commands idx ∧ Visited (Removes st flash commands) idx [] removed ∧
        removed.Pairwise (· < ·) ∧ ∀ i ∈ removed, i.val < commands.length) := by
  rcases genRemoveIdxes_sound st flash commands hcalls fuel idx [] removed List.not_mem_nil h with
    ⟨hout, rfl⟩ | ⟨hin, hvisited⟩
  · exact Or.inl ⟨rfl, hout⟩
  · refine Or.inr ⟨hin, hvisited, ?_, ?_⟩
    · cases fuel with
      | zero => cases h
      | succ fuel => exact removeStep_sorted st flash commands hcalls _ idx [] removed hin h
    · refine hvisited.least {i | i.val < commands.length} ?_ hin.lt
      intro x y _ hxy
      cases hxy with
      | dependent _ hy => exact hy.lt
      | split _ _ hy => exact hy.lt
      | producer _ _ _ _ _ hy => exact hy.lt

end

section

variable (st : FuzzState) (commands : List MoveSequenceCall)
  (hcalls : ∀ cmd ∈ commands, ∃ call, cmd = .call call)

include hcalls

/- A later use of a result is not missed. -/
theorem removes_of_use (flash : Option FlashProvider) (x y : U16) (hxy : x.val < y.val)
    (h : Refers commands y.val x.val) (hreach : InReach flash commands y) :
    Removes st flash commands x y := by
  obtain ⟨cmd, hcmd, arg, harg, hargx⟩ := h
  refine Removes.dependent x y ?_ hreach
  obtain ⟨call, rfl⟩ := hcalls cmd (List.mem_of_getElem? hcmd)
  rw [deletingIdxes, List.mem_filterMap]
  refine ⟨(.call call, y.val - (x.val + 1)), ?_, ?_⟩
  · rw [List.mem_iff_getElem?]
    refine ⟨y.val - (x.val + 1), ?_⟩
    rw [List.getElem?_zipIdx, List.getElem?_drop, Nat.add_sub_cancel' hxy, hcmd, Option.map_some,
      Nat.zero_add]
  · have huses : usesResult x (.call call) = true := by
      refine List.any_eq_true.mpr ⟨arg, harg, ?_⟩
      cases arg with
      | gasCoin => cases hargx
      | input i => cases hargx
      | result i => exact decide_eq_true (Fin.ext (Option.some.inj hargx))
      | nestedResult i j => exact decide_eq_true (Fin.ext (Option.some.inj hargx))
    rw [if_pos huses, Option.some.injEq]
    apply Fin.ext
    have hlt := y.isLt
    have hdist : (asU16 (y.val - (x.val + 1))).val = y.val - (x.val + 1) :=
      asU16_of_lt _ (by omega)
    show ((x.val + (asU16 (y.val - (x.val + 1))).val) % 2 ^ 16 + 1) % 2 ^ 16 = y.val
    rw [hdist]
    omega

theorem removes_of_refers (hback : BackwardRefs commands) (hlen : commands.length ≤ 2 ^ 16)
    (x : U16) (k : ℕ) (h : Refers commands k x.val) :
    ∃ y : U16, y.val = k ∧ Removes st none commands x y := by
  have hxk := hback.lt h
  have hk : k < commands.length := by
    obtain ⟨cmd, hcmd, -⟩ := h
    exact (List.getElem?_eq_some_iff.mp hcmd).1
  have hy : (asU16 k).val = k := asU16_of_lt k (by omega)
  refine ⟨asU16 k, hy, removes_of_use st commands hcalls none x _ (by omega) (by rw [hy]; exact h)
    ((inReach_none commands _).mpr (by omega))⟩

end

/-! ### The shifts -/

section

variable (removed : List U16) (hsorted : removed.Pairwise (· < ·))

include hsorted

theorem shiftIdx_eq (i : U16) :
    shiftIdx removed i = some (asU16 (i.val - removedBefore (removed.map Fin.val) i.val)) := by
  have hcount : (removed.filter fun j => decide (j < i)).length =
      removedBefore (removed.map Fin.val) i.val := by
    have hnodup : (removed.map Fin.val).Nodup :=
      (hsorted.imp fun h => ne_of_lt h).map Fin.val fun a b h => fun heq => h (Fin.ext heq)
    rw [removedBefore, hnodup.dedup, List.filter_map, List.length_map]
    rfl
  have hle := removedBefore_le (removed.map Fin.val) i.val
  rw [← hcount] at hle
  rw [shiftIdx, if_pos hle, hcount]

theorem shiftCommand_eq (call : MoveCall) :
    shiftCommand removed (.call call) = some (renameCommand
      (fun i => i - removedBefore (removed.map Fin.val) i) (.call call)) := by
  have hargs := mapM_eq_map (shiftArg removed)
    (renameArg fun i => i - removedBefore (removed.map Fin.val) i) call.arguments fun arg _ => by
      cases arg with
      | gasCoin => rfl
      | input i => rfl
      | result i => rw [shiftArg, shiftIdx_eq removed hsorted]; rfl
      | nestedResult i j => rw [shiftArg, shiftIdx_eq removed hsorted]; rfl
  rw [shiftCommand, hargs]
  rfl

end

/-! ### The shortened sequence -/

/- The new index of a command that stays. -/
def shiftedTo (removed : List U16) (i : ℕ) : ℕ := i - removedBefore (removed.map Fin.val) i

theorem removeIdxes_eq (commands : List MoveSequenceCall) (removed : List U16)
    (hsorted : removed.Pairwise (· < ·)) (hlt : ∀ i ∈ removed, i.val < commands.length) :
    removeIdxes commands removed = some (withoutIdxs commands (removed.map Fin.val)) := by
  have hfold := foldr_removeAt commands (removed.map Fin.val)
    (hsorted.map Fin.val fun _ _ h => h) fun i hi => by
      obtain ⟨j, hj, rfl⟩ := List.mem_map.mp hi
      exact hlt j hj
  rw [List.foldr_map] at hfold
  exact hfold

section

variable (st : FuzzState) (flash : Option FlashProvider) (ptb : MoveSequence)
  (hcalls : ∀ cmd ∈ ptb.commands, ∃ call, cmd = .call call)

include hcalls

theorem shiftCommands_eq (removed : List U16) (hsorted : removed.Pairwise (· < ·)) :
    (withoutIdxs ptb.commands (removed.map Fin.val)).mapM (shiftCommand removed) =
      some ((withoutIdxs ptb.commands (removed.map Fin.val)).map
        (renameCommand (shiftedTo removed))) := by
  apply mapM_eq_map
  intro cmd hcmd
  have hmem : cmd ∈ ptb.commands := by
    obtain ⟨e, he, rfl⟩ := List.mem_map.mp hcmd
    obtain ⟨-, -, heq⟩ := List.mem_zipIdx (List.mem_of_mem_filter he)
    rw [heq]
    exact List.getElem_mem _
  obtain ⟨call, rfl⟩ := hcalls cmd hmem
  exact shiftCommand_eq removed hsorted call

/- After a search that had a result, the removal does not fail. -/
theorem removeCommand_cases (fuel : ℕ) (idx : U16) (removed : List U16)
    (h : genRemoveIdxes st flash ptb.commands fuel idx [] = .ok removed) :
    removeCommand st flash ptb fuel idx = .ok none ∨
      removed.Pairwise (· < ·) ∧ InReach flash ptb.commands idx ∧
        Visited (Removes st flash ptb.commands) idx [] removed ∧
        removeCommand st flash ptb fuel idx = .ok (some { ptb with
          commands := (withoutIdxs ptb.commands (removed.map Fin.val)).map
            (renameCommand (shiftedTo removed)) }) := by
  rw [removeCommand, h]
  dsimp only [Except.bind]
  by_cases hskip : ptb.commands.length ≤ removed.length ∨ removed = []
  · rw [if_pos hskip]
    exact Or.inl rfl
  · rw [if_neg hskip]
    rcases genRemoveIdxes_spec st flash ptb.commands hcalls fuel idx removed h with
      ⟨hnil, -⟩ | ⟨hin, hvisited, hsorted, hlt⟩
    · exact absurd (Or.inr hnil) hskip
    · refine Or.inr ⟨hsorted, hin, hvisited, ?_⟩
      rw [removeIdxes_eq ptb.commands removed hsorted hlt, Option.bind_some,
        shiftCommands_eq ptb hcalls removed hsorted]

end

section

variable (st : FuzzState) (ptb : MoveSequence)
  (hcalls : ∀ cmd ∈ ptb.commands, ∃ call, cmd = .call call)

include hcalls

variable (hback : BackwardRefs ptb.commands) (hlen : ptb.commands.length ≤ 2 ^ 16)

include hback hlen

theorem removed_dependents (fuel : ℕ) (idx : U16) (removed : List U16)
    (h : genRemoveIdxes st none ptb.commands fuel idx [] = .ok removed) (k i : ℕ)
    (hi : i ∈ removed.map Fin.val) (hrefers : Refers ptb.commands k i) :
    k ∈ removed.map Fin.val := by
  obtain ⟨x, hx, rfl⟩ := List.mem_map.mp hi
  rcases genRemoveIdxes_spec st none ptb.commands hcalls fuel idx removed h with
    ⟨rfl, -⟩ | ⟨-, hvisited, -⟩
  · cases hx
  · obtain ⟨y, rfl, hxy⟩ := removes_of_refers st ptb.commands hcalls hback hlen x k hrefers
    exact List.mem_map.mpr ⟨y, hvisited.closed x y hx hxy, rfl⟩

end

/- In a sequence of at most 65536 calls with backward references, a removal keeps
all references intact. -/
theorem removeCommand_intact (st : FuzzState) (ptb : MoveSequence) (idx : U16)
    (hcalls : ∀ cmd ∈ ptb.commands, ∃ call, cmd = .call call)
    (hback : BackwardRefs ptb.commands) (hlen : ptb.commands.length ≤ 2 ^ 16) :
    RemovalIntact st ptb idx := by
  have hfails : ∀ fuel e, removeCommand st none ptb fuel idx = .error e →
      genRemoveIdxes st none ptb.commands fuel idx [] = .error e := by
    intro fuel e h
    cases hgen : genRemoveIdxes st none ptb.commands fuel idx [] with
    | error e' =>
      rw [removeCommand, hgen] at h
      cases h
      rfl
    | ok removed =>
      rcases removeCommand_cases st none ptb hcalls fuel idx removed hgen with
        hok | ⟨-, -, -, hok⟩
      · rw [hok] at h
        cases h
      · rw [hok] at h
        cases h
  constructor
  · refine ⟨2 ^ 16 + 1, fun fuel hfuel h => ?_⟩
    exact genRemoveIdxes_terminates st none ptb.commands fuel hfuel idx (hfails fuel _ h)
  · intro fuel h
    exact genRemoveIdxes_unknown st ptb.commands fuel idx (hfails fuel _ h)
  · exact fun fuel removed h => removed_dependents st ptb hcalls hback hlen fuel idx removed h
  · intro fuel ptb' h
    obtain ⟨removed, hgen, -⟩ := (bind_eq_ok _ _ _).mp h
    rcases removeCommand_cases st none ptb hcalls fuel idx removed hgen with
        hok | ⟨-, -, -, hok⟩
    · rw [hok] at h
      cases h
    · rw [hok, Except.ok.injEq, Option.some.injEq] at h
      subst h
      refine ⟨removed, hgen, rfl, ?_, ?_⟩
      · rw [List.length_map, length_withoutIdxs, stayPositions, length_keptIndices,
          count_not_removed]
      · intro p k hk
        obtain ⟨hkl, hstay, hp⟩ := (getElem?_keptIndices _ _ _ _).mp hk
        rw [count_not_removed] at hp
        have hcmd := List.getElem?_eq_getElem hkl
        refine ⟨ptb.commands[k], renameArg (shiftedTo removed), hcmd, ?_, ?_⟩
        · rw [List.getElem?_map, ← hp, getElem?_withoutIdxs _ _ k _ hcmd hstay]
          rfl
        · intro arg harg
          unfold Relocated
          cases hi : argCommand arg with
          | none => exact renameArg_none _ arg hi
          | some i =>
            have hrefers : Refers ptb.commands k i := ⟨_, hcmd, arg, harg, hi⟩
            have hik := hback.lt hrefers
            have histay : i ∉ removed.map Fin.val := fun hmem => hstay
              (removed_dependents st ptb hcalls hback hlen fuel idx removed hgen k i hmem hrefers)
            refine ⟨shiftedTo removed i, ?_, ?_,
              argCommand_renameArg _ arg i hi (Nat.sub_le _ _), renameArg_at _ _ arg i hi rfl⟩
            · rw [← hp]
              exact removedBefore_strictMono _ i k hik histay
            · exact (getElem?_keptIndices _ _ _ _).mpr
                ⟨Nat.lt_trans hik hkl, histay, count_not_removed _ i⟩

theorem removeCommand_intact_redeem :
    (∀ cmd ∈ [ticketCall "open" [], ticketCall "redeem" [.result 0]], ∃ call, cmd = .call call) ∧
    RemovalIntact ticketState ⟨[], [ticketCall "open" [], ticketCall "redeem" [.result 0]]⟩ 1 := by
  have hcalls : ∀ cmd ∈ [ticketCall "open" [], ticketCall "redeem" [.result 0]],
      ∃ call, cmd = .call call := by
    intro cmd hcmd
    rcases List.mem_cons.mp hcmd with rfl | hcmd
    · exact ⟨_, rfl⟩
    · rw [List.mem_singleton.mp hcmd]
      exact ⟨_, rfl⟩
  exact ⟨hcalls, removeCommand_intact ticketState ⟨[], _⟩ 1 hcalls ticket_backward (by decide)⟩

/-! ### Beyond sixteen bits -/

/- The last call uses the first result, but its index has no sixteen bits. -/
def wideCommands : List MoveSequenceCall :=
  List.replicate 65537 (ticketCall "begin" []) ++ [ticketCall "redeem" [.result 0]]

theorem wideCommands_getElem? (k : ℕ) (cmd : MoveSequenceCall) (h : wideCommands[k]? = some cmd) :
    (k < 65537 ∧ cmd = ticketCall "begin" []) ∨
      (k = 65537 ∧ cmd = ticketCall "redeem" [.result 0]) := by
  rw [wideCommands, List.getElem?_append, List.length_replicate] at h
  split_ifs at h with hk
  · rw [List.getElem?_replicate, if_pos hk, Option.some.injEq] at h
    exact Or.inl ⟨hk, h.symm⟩
  · rw [List.getElem?_singleton] at h
    split_ifs at h with hzero
    rw [Option.some.injEq] at h
    exact Or.inr ⟨by omega, h.symm⟩

theorem wideCommands_last : wideCommands[65537]? = some (ticketCall "redeem" [.result 0]) := by
  rw [wideCommands, List.getElem?_append_right (by rw [List.length_replicate]),
    List.length_replicate, Nat.sub_self]
  rfl

theorem wide_not_intact :
    (∀ cmd ∈ wideCommands, ∃ call, cmd = .call call ∧ (ticketState.getCalled call).isSome = true) ∧
    BackwardRefs wideCommands ∧ ¬ RemovalIntact ticketState ⟨[], wideCommands⟩ 0 := by
  have hknown : ∀ cmd ∈ wideCommands,
      ∃ call, cmd = .call call ∧ (ticketState.getCalled call).isSome = true := by
    intro cmd hcmd
    obtain ⟨k, hk⟩ := List.mem_iff_getElem?.mp hcmd
    rcases wideCommands_getElem? k cmd hk with ⟨-, rfl⟩ | ⟨-, rfl⟩
    · exact ⟨_, rfl, rfl⟩
    · exact ⟨_, rfl, rfl⟩
  have hcalls : ∀ cmd ∈ wideCommands, ∃ call, cmd = .call call := fun cmd hcmd =>
    (hknown cmd hcmd).imp fun _ h => h.1
  refine ⟨hknown, ?_, fun hintact => ?_⟩
  · intro k cmd hk arg harg i hi
    rcases wideCommands_getElem? k cmd hk with ⟨-, rfl⟩ | ⟨rfl, rfl⟩
    · cases harg
    · rw [List.mem_singleton.mp harg] at hi
      rw [← Option.some.inj hi]
      decide
  · cases hgen : genRemoveIdxes ticketState none wideCommands (2 ^ 16 + 1) 0 [] with
    | error e =>
      cases e with
      | outOfFuel =>
        exact genRemoveIdxes_terminates ticketState none wideCommands _ (Nat.lt_succ_self _) 0 hgen
      | panic =>
        obtain ⟨call, hmem, hnone⟩ := genRemoveIdxes_unknown ticketState wideCommands _ 0 hgen
        obtain ⟨call', heq, hsome⟩ := hknown _ hmem
        cases heq
        rw [hnone] at hsome
        cases hsome
    | ok removed =>
      have hzero : 0 ∈ removed.map Fin.val := by
        rcases genRemoveIdxes_spec ticketState none wideCommands hcalls _ 0 removed hgen with
          ⟨-, hout⟩ | ⟨-, hvisited, -⟩
        · have hlast := (List.getElem?_eq_some_iff.mp wideCommands_last).1
          exact absurd ((inReach_none wideCommands 0).mpr (Nat.zero_lt_of_lt hlast)) hout
        · exact List.mem_map.mpr ⟨0, hvisited.visits, rfl⟩
      have hlast := hintact.dependents _ removed hgen 65537 0 hzero
        ⟨_, wideCommands_last, .result 0, List.mem_singleton_self _, rfl⟩
      obtain ⟨y, -, hy⟩ := List.mem_map.mp hlast
      have hlt := y.isLt
      omega

end Movy.Fuzz
