import Movy.Fuzz.Ledger

/-!
# Values taken as they were brought

The books of `from_ptb` are kept by type, the values of a sequence have names. Where
every value is taken once, under the type and with the readings under which it was
brought, the books never fall short.
-/

namespace Movy.Fuzz

open Movy.Types Movy.Store MoveAbiSignatureToken

/-! ### Names -/

/-- The first result of a call has two names. -/
def valueName : SequenceArgument → SequenceArgument
  | .nestedResult i j => if j = 0 then .result i else .nestedResult i j
  | arg => arg

theorem argCommand_valueName (arg : SequenceArgument) :
    argCommand (valueName arg) = argCommand arg := by
  cases arg with
  | nestedResult i j =>
    rw [valueName]
    split_ifs <;> rfl
  | _ => rfl

theorem valueName_renameArg (f : ℕ → ℕ) (arg : SequenceArgument) :
    valueName (renameArg f arg) = renameArg f (valueName arg) := by
  cases arg with
  | nestedResult i j =>
    rw [renameArg, valueName, valueName]
    split_ifs <;> rfl
  | _ => rfl

/-! ### Who takes and brings -/

/-- Command `k` takes the value. -/
def Takes (st : FuzzState) (commands : List MoveSequenceCall) (k : ℕ) (note : Note) : Prop :=
  ∃ cmd, commands[k]? = some cmd ∧ .debit note ∈ callEntries st k cmd

def Brings (st : FuzzState) (commands : List MoveSequenceCall) (k : ℕ) (note : Note) : Prop :=
  ∃ cmd, commands[k]? = some cmd ∧ .credit note ∈ callEntries st k cmd

theorem mem_entriesFrom (st : FuzzState) (commands : List MoveSequenceCall) (e : Entry Note) :
    e ∈ entriesFrom st 0 commands ↔
      ∃ k cmd, commands[k]? = some cmd ∧ e ∈ callEntries st k cmd := by
  rw [entriesFrom, List.mem_flatMap]
  constructor
  · intro hall
    obtain ⟨⟨cmd, k⟩, hmem, he⟩ := hall
    exact ⟨k, cmd, List.mem_zipIdx_iff_getElem?.mp hmem, he⟩
  · intro hall
    obtain ⟨k, cmd, hcmd, he⟩ := hall
    exact ⟨(cmd, k), List.mem_zipIdx_iff_getElem?.mpr hcmd, he⟩

theorem debited_entriesFrom (st : FuzzState) (commands : List MoveSequenceCall) (note : Note) :
    note ∈ debited (entriesFrom st 0 commands) ↔ ∃ k, Takes st commands k note := by
  rw [mem_debited, mem_entriesFrom]
  rfl

theorem credited_entriesFrom (st : FuzzState) (commands : List MoveSequenceCall) (note : Note) :
    note ∈ credited (entriesFrom st 0 commands) ↔ ∃ k, Brings st commands k note := by
  rw [mem_credited, mem_entriesFrom]
  rfl

theorem takes_iff (st : FuzzState) (commands : List MoveSequenceCall) (k : ℕ) (note : Note) :
    Takes st commands k note ↔ ∃ call function param,
      commands[k]? = some (.call call) ∧ st.getCalled call = some function ∧
      (note.arg, param) ∈ call.arguments.zip function.parameters ∧
      takenNote (tyArgsMap call.typeArguments) note.arg param = some note := by
  constructor
  · intro hall
    obtain ⟨cmd, hcmd, hmem⟩ := hall
    obtain ⟨call, function, rfl, hfunction, htaken | hbrought⟩ := (mem_callEntries _ _ _ _).mp hmem
    · obtain ⟨⟨arg, param⟩, hzip, hnote⟩ := List.mem_filterMap.mp htaken
      obtain ⟨note', hnote', heq⟩ := Option.map_eq_some_iff.mp hnote
      obtain rfl := Entry.debit.inj heq
      have harg : note'.arg = arg := by
        unfold takenNote at hnote'
        split_ifs at hnote'
        obtain ⟨ty, -, rfl⟩ := Option.map_eq_some_iff.mp hnote'
        exact Note.taken_arg _ _ _ _
      subst harg
      exact ⟨call, function, param, hcmd, hfunction, hzip, hnote'⟩
    · obtain ⟨r, -, ty, -, heq⟩ := (mem_broughtEntries _ _ _ _ _ _).mp hbrought
      cases heq
  · intro hall
    obtain ⟨call, function, param, hcmd, hfunction, hzip, hnote⟩ := hall
    refine ⟨.call call, hcmd, (mem_callEntries _ _ _ _).mpr ⟨call, function, rfl, hfunction, ?_⟩⟩
    refine Or.inl (List.mem_filterMap.mpr ⟨_, hzip, ?_⟩)
    rw [hnote]
    rfl

theorem Takes.refers {st : FuzzState} {commands : List MoveSequenceCall} {k i : ℕ} {note : Note}
    (h : Takes st commands k note) (harg : argCommand note.arg = some i) :
    Refers commands k i := by
  obtain ⟨call, function, param, hcmd, -, hzip, -⟩ := (takes_iff _ _ _ _).mp h
  exact ⟨.call call, hcmd, note.arg, (List.of_mem_zip hzip).1, harg⟩

theorem Takes.input_hot {st : FuzzState} {commands : List MoveSequenceCall} {k : ℕ} {note : Note}
    (h : Takes st commands k note) (i : U16) (hinput : note.arg = .input i) : note.hot = false := by
  obtain ⟨call, function, param, -, -, -, hnote⟩ := (takes_iff _ _ _ _).mp h
  rw [hinput] at hnote
  unfold takenNote at hnote
  split_ifs at hnote
  obtain ⟨ty, -, rfl⟩ := Option.map_eq_some_iff.mp hnote
  rfl

theorem brings_iff (st : FuzzState) (commands : List MoveSequenceCall) (k : ℕ) (note : Note) :
    Brings st commands k note ↔ ∃ call function ret j ty,
      commands[k]? = some (.call call) ∧ st.getCalled call = some function ∧
      function.returnParamters[j]? = some ret ∧
      ret.subst (tyArgsMap call.typeArguments) = some ty ∧
      note = .brought st (tyArgsMap call.typeArguments) ret
        (ObjectData.resultArg function.returnParamters.length k j) ty := by
  constructor
  · intro hall
    obtain ⟨cmd, hcmd, hmem⟩ := hall
    obtain ⟨call, function, rfl, hfunction, hmem⟩ := (mem_callEntries _ _ _ _).mp hmem
    rw [mem_takenEntries, mem_broughtEntries] at hmem
    rcases hmem with ⟨p, -, ty, -, -, -, heq⟩ | ⟨⟨ret, j⟩, hret, ty, hty, heq⟩
    · cases heq
    · exact ⟨call, function, ret, j, ty, hcmd, hfunction, List.mem_zipIdx_iff_getElem?.mp hret,
        hty, Entry.credit.inj heq⟩
  · intro hall
    obtain ⟨call, function, ret, j, ty, hcmd, hfunction, hret, hty, rfl⟩ := hall
    refine ⟨.call call, hcmd, (mem_callEntries _ _ _ _).mpr ⟨call, function, rfl, hfunction, ?_⟩⟩
    exact Or.inr ((mem_broughtEntries _ _ _ _ _ _).mpr
      ⟨(ret, j), List.mem_zipIdx_iff_getElem?.mpr hret, ty, hty, rfl⟩)

theorem Brings.argCommand {st : FuzzState} {commands : List MoveSequenceCall} {k : ℕ} {note : Note}
    (h : Brings st commands k note) (hlen : commands.length ≤ 2 ^ 16) :
    argCommand note.arg = some k := by
  obtain ⟨call, function, ret, j, ty, hcmd, -, -, -, rfl⟩ := (brings_iff _ _ _ _).mp h
  have hlt := (List.getElem?_eq_some_iff.mp hcmd).1
  rw [Note.brought_arg, argCommand_resultArg _ _ _ (by omega)]

theorem Brings.listed_iff {st : FuzzState} {commands : List MoveSequenceCall} {k : ℕ}
    {note : Note} (h : Brings st commands k note) :
    note.listed = true ↔ ∃ a m n tys, note.ty = .struct a m n tys := by
  obtain ⟨call, function, ret, j, ty, -, -, -, hty, rfl⟩ := (brings_iff _ _ _ _).mp h
  rw [Note.brought_ty]
  cases ty with
  | struct a m n tys =>
    refine iff_of_true ?_ ⟨a, m, n, tys, rfl⟩
    cases ret with
    | vector inner =>
      obtain ⟨element, -, heq⟩ := Option.map_eq_some_iff.mp hty
      cases heq
    | _ => rfl
  | _ =>
    refine iff_of_false ?_ fun hall => ?_
    · cases ret <;> exact Bool.false_ne_true
    · obtain ⟨a, m, n, tys, heq⟩ := hall
      cases heq

/-! ### Renamed commands -/

def Note.rename (f : ℕ → ℕ) (note : Note) : Note := { note with arg := renameArg f note.arg }

theorem takenNote_rename (f : ℕ → ℕ) (tyArgs : TyArgs) (arg : SequenceArgument)
    (param : MoveAbiSignatureToken) :
    takenNote tyArgs (renameArg f arg) param = (takenNote tyArgs arg param).map (Note.rename f) := by
  unfold takenNote
  split_ifs
  · rfl
  · rw [Option.map_map]
    cases arg <;> rfl

theorem broughtNote_rename (f : ℕ → ℕ) (st : FuzzState) (tyArgs : TyArgs)
    (ret : MoveAbiSignatureToken) (arg : SequenceArgument) :
    broughtNote st tyArgs ret (renameArg f arg) =
      (broughtNote st tyArgs ret arg).map (Note.rename f) := by
  rw [broughtNote, broughtNote, Option.map_map]
  apply Option.map_congr
  intro ty _
  cases ret with
  | vector inner => rfl
  | _ => cases ty <;> rfl

theorem renameArg_resultArg (f : ℕ → ℕ) (n k j : ℕ) (hk : k < 2 ^ 16) :
    renameArg f (ObjectData.resultArg n k j) = ObjectData.resultArg n (f k) j := by
  unfold ObjectData.resultArg
  split_ifs
  · rw [renameArg, asU16_val k hk]
  · rw [renameArg, asU16_val k hk]

/-- A command that moves, with what it refers to, takes and brings the same under new names. -/
theorem callEntries_rename (f : ℕ → ℕ) (st : FuzzState) (k : ℕ) (hk : k < 2 ^ 16)
    (cmd : MoveSequenceCall) : callEntries st (f k) (renameCommand f cmd) =
      (callEntries st k cmd).map (Entry.map (Note.rename f)) := by
  cases cmd with
  | call call =>
    have hcalled : st.getCalled { call with arguments := call.arguments.map (renameArg f) } =
        st.getCalled call := rfl
    simp only [renameCommand, mapCommand, callEntries, hcalled]
    cases st.getCalled call with
    | none => rfl
    | some function =>
      simp only [List.map_append, takenEntries, broughtEntries, List.map_filterMap,
        List.zip_map_left, List.filterMap_map]
      congr 1
      · apply List.filterMap_congr
        intro e _
        show (takenNote _ (renameArg f e.1) e.2).map Entry.debit = _
        rw [takenNote_rename, Option.map_map, Option.map_map]
        rfl
      · apply List.filterMap_congr
        intro e _
        rw [← renameArg_resultArg f _ k _ hk, broughtNote_rename, Option.map_map, Option.map_map]
        rfl
  | _ => rfl

/-! ### What is in front of an entry -/

/-- In front of what a command takes is everything that earlier commands bring. -/
theorem entriesFrom_split (st : FuzzState) (commands : List MoveSequenceCall)
    (pre post : List (Entry Note)) (note : Note)
    (h : entriesFrom st 0 commands = pre ++ .debit note :: post) :
    ∃ k, Takes st commands k note ∧ ∀ i c, i < k → Brings st commands i c → .credit c ∈ pre := by
  obtain ⟨before, ⟨cmd, k⟩, after, p, q, hzip, hentries, rfl⟩ := flatMap_eq_append_cons _ _ _ _ _ h
  have hmem : (cmd, k) ∈ commands.zipIdx := by
    rw [hzip]
    exact List.mem_append_right _ (List.mem_cons_self ..)
  have hk : k = before.length := by
    have hget : commands.zipIdx[before.length]? = some (cmd, k) := by
      rw [hzip, List.getElem?_append_right (Nat.le_refl _), Nat.sub_self, List.getElem?_cons_zero]
    rw [List.getElem?_zipIdx] at hget
    obtain ⟨c, -, hc⟩ := Option.map_eq_some_iff.mp hget
    rw [← (Prod.mk.inj hc).2, Nat.zero_add]
  refine ⟨k, ⟨cmd, List.mem_zipIdx_iff_getElem?.mp hmem, ?_⟩, ?_⟩
  · show Entry.debit note ∈ callEntries st (cmd, k).2 (cmd, k).1
    rw [hentries]
    exact List.mem_append_right _ (List.mem_cons_self ..)
  · intro i c hik hbrings
    obtain ⟨cmd', hcmd', hc⟩ := hbrings
    have hfront : (before ++ (cmd, k) :: after)[i]? = before[i]? :=
      List.getElem?_append_left (by omega)
    have hget : before[i]? = some (cmd', i) := by
      rw [← hfront, ← hzip, List.getElem?_zipIdx, hcmd', Option.map_some, Nat.zero_add]
    exact List.mem_append_left _ (List.mem_flatMap.mpr ⟨_, List.mem_of_getElem? hget, hc⟩)

/-! ### Taken as brought -/

/-- The value is listed when it is brought, and read alike when it is taken. -/
structure BroughtAs (c d : Note) : Prop where
  name : valueName c.arg = valueName d.arg
  ty : c.ty = d.ty
  listed : c.listed = true
  hot : c.hot = d.hot

/-- Every value has its own name and is taken once at most, and what is taken is an
object among the inputs or was brought so by an earlier command. -/
structure TakenAsBrought (st : FuzzState) (ptb : MoveSequence) : Prop where
  commands_length : ptb.commands.length ≤ 2 ^ 16
  named : ((credited (entriesFrom st 0 ptb.commands)).map fun c => valueName c.arg).Nodup
  once : ((debited (entriesFrom st 0 ptb.commands)).map fun d => valueName d.arg).Nodup
  brought : ∀ k d, Takes st ptb.commands k d → InputThere st 0 ptb.inputs d.ty d.arg ∨
    ∃ i c, i < k ∧ Brings st ptb.commands i c ∧ BroughtAs c d

theorem BroughtAs.argCommand {st : FuzzState} {commands : List MoveSequenceCall} {i : ℕ}
    {c d : Note} (h : BroughtAs c d) (hbrings : Brings st commands i c)
    (hlen : commands.length ≤ 2 ^ 16) : argCommand d.arg = some i := by
  rw [← argCommand_valueName, ← h.name, argCommand_valueName, hbrings.argCommand hlen]

section

variable {st : FuzzState} {ptb : MoveSequence} (h : TakenAsBrought st ptb)

include h

theorem TakenAsBrought.brought_hot (k : ℕ) (d : Note) (htakes : Takes st ptb.commands k d)
    (hhot : d.hot = true) : ∃ i c, i < k ∧ Brings st ptb.commands i c ∧ BroughtAs c d := by
  rcases h.brought k d htakes with ⟨j, _, _, _, _, _, _, _, _, hinput⟩ | hbrought
  · rw [htakes.input_hot _ hinput] at hhot
    cases hhot
  · exact hbrought

/-- No hot potato is missing when it is taken. -/
theorem TakenAsBrought.covered : Covered [] (hotEntries st ptb.commands) := by
  apply covered_of_brought Note.hot (fun note => valueName note.arg) Note.ty _ h.once
  intro pre d post heq hhot
  obtain ⟨k, htakes, hpre⟩ := entriesFrom_split st _ pre post d heq
  obtain ⟨i, c, hik, hbrings, has⟩ := h.brought_hot k d htakes hhot
  exact ⟨c, (mem_credited pre c).mpr (hpre i c hik hbrings), has.hot.trans hhot, has.name, has.ty⟩

theorem TakenAsBrought.alwaysListed :
    AlwaysListed (InputThere st 0 ptb.inputs) (entriesFrom st 0 ptb.commands) := by
  intro pre e post heq
  cases e with
  | credit note => trivial
  | debit d =>
    obtain ⟨k, htakes, hpre⟩ := entriesFrom_split st _ pre post d heq
    -- nothing in front has the name of the value
    have hnew : ∀ note ∈ debited pre, valueName note.arg ≠ valueName d.arg := by
      intro note hnote
      have hnodup := h.once
      rw [heq, debited_append, debited_debit, List.map_append, List.map_cons] at hnodup
      exact (List.nodup_append.mp hnodup).2.2 _ (List.mem_map_of_mem hnote) _
        (List.mem_cons_self ..)
    rcases h.brought k d htakes with hinput | ⟨i, c, hik, hbrings, has⟩
    · refine ⟨d.arg, Or.inl ⟨hinput, ?_⟩⟩
      intro note hnote _ harg
      exact hnew note hnote (congrArg valueName harg)
    · obtain ⟨front, back, hsplit⟩ := List.append_of_mem (hpre i c hik hbrings)
      refine ⟨c.arg, Or.inr ⟨front, c, back, hsplit, ⟨has.listed, has.ty, rfl⟩, ?_⟩⟩
      intro note hnote _ harg
      have hmem : note ∈ debited pre := by
        rw [hsplit, debited_append]
        exact List.mem_append_right _ hnote
      exact hnew note hmem ((congrArg valueName harg).trans has.name)

end

end Movy.Fuzz
