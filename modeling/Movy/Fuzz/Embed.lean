import Movy.Fuzz.Hooks

/-!
# The decorated sequence contains the sequence

Everything that the decoration does to a sequence is to append to it. The index
map always lists where the commands so far have gone, so that the renamed
commands refer to the same results as before.
-/

namespace Movy.Fuzz

open Movy.Types Movy.Store MoveAbiSignatureToken

/-! ### Growing -/

/- Inputs and commands were only added at the end, and the commands satisfy `P`. -/
def Grows (P : MoveSequenceCall → Prop) (a b : MoveSequence) : Prop :=
  a.inputs <+: b.inputs ∧ ∃ added, b.commands = a.commands ++ added ∧ ∀ cmd ∈ added, P cmd

theorem Grows.refl (P : MoveSequenceCall → Prop) (a : MoveSequence) : Grows P a a :=
  ⟨List.prefix_rfl, [], (List.append_nil _).symm, fun _ h => by cases h⟩

theorem Grows.commands {P : MoveSequenceCall → Prop} {a b : MoveSequence} (h : Grows P a b) :
    a.commands <+: b.commands := by
  obtain ⟨_, added, hadded, _⟩ := h
  exact ⟨added, hadded.symm⟩

theorem Grows.trans {P : MoveSequenceCall → Prop} {a b c : MoveSequence} (hab : Grows P a b)
    (hbc : Grows P b c) : Grows P a c := by
  obtain ⟨hin, added, hcmds, hP⟩ := hab
  obtain ⟨hin', added', hcmds', hP'⟩ := hbc
  refine ⟨hin.trans hin', added ++ added', ?_, ?_⟩
  · rw [hcmds', hcmds, List.append_assoc]
  · intro cmd hcmd
    rcases List.mem_append.mp hcmd with h | h
    · exact hP cmd h
    · exact hP' cmd h

theorem grows_append (P : MoveSequenceCall → Prop) (a : MoveSequence)
    (inputs : List InputArgument) (cmd : MoveSequenceCall) (hP : P cmd) :
    Grows P a ⟨a.inputs ++ inputs, a.commands ++ [cmd]⟩ := by
  refine ⟨List.prefix_append .., [cmd], rfl, ?_⟩
  intro c hc
  rw [List.mem_singleton.mp hc]
  exact hP

theorem grows_command (P : MoveSequenceCall → Prop) (a : MoveSequence) (cmd : MoveSequenceCall)
    (hP : P cmd) : Grows P a { a with commands := a.commands ++ [cmd] } := by
  have h := grows_append P a [] cmd hP
  rw [List.append_nil] at h
  exact h

theorem Grows.mono {P Q : MoveSequenceCall → Prop} {a b : MoveSequence} (h : Grows P a b)
    (hPQ : ∀ cmd, P cmd → Q cmd) : Grows Q a b := by
  obtain ⟨hin, added, hadded, hP⟩ := h
  exact ⟨hin, added, hadded, fun cmd hcmd => hPQ cmd (hP cmd hcmd)⟩

/- Growing by commands of any kind. -/
def GrowsFreely : MoveSequence → MoveSequence → Prop := Grows fun _ => True

/- A call of a function. -/
def IsCall (cmd : MoveSequenceCall) : Prop := ∃ call, cmd = .call call

/-! ### `append_function` -/

theorem splitArgs_grows (typeArguments : List MoveTypeTag) (ptb : MoveSequence)
    (inputs : List InputArgument) (args : List SequenceArgument)
    (params : List MoveAbiSignatureToken)
    (r : MoveSequence × List InputArgument × List SequenceArgument)
    (h : splitArgs typeArguments ptb inputs args params = some r) : Grows IsCall ptb r.1 := by
  induction args generalizing ptb inputs params r with
  | nil =>
    cases params <;>
    · simp only [splitArgs, Option.some.injEq] at h
      rw [← h]
      exact Grows.refl _ ptb
  | cons arg args ih =>
    cases params with
    | nil =>
      simp only [splitArgs, Option.some.injEq] at h
      rw [← h]
      exact Grows.refl _ ptb
    | cons param params =>
      simp only [splitArgs] at h
      by_cases hp : (param.isBalance || param.isCoin) = true
      · rw [if_pos hp] at h
        obtain ⟨ty, _, h⟩ := Option.bind_eq_some_iff.mp h
        split at h
        · obtain ⟨next, hnext, h⟩ := Option.bind_eq_some_iff.mp h
          rw [← Option.some.inj h]
          exact (grows_command _ ptb _ ⟨_, rfl⟩).trans (ih _ _ _ next hnext)
        · cases h
      · rw [if_neg hp] at h
        obtain ⟨next, hnext, h⟩ := Option.bind_eq_some_iff.mp h
        rw [← Option.some.inj h]
        exact ih _ _ _ next hnext

/- Everything the end of an append can do: fail, or write the call behind the splits. -/
theorem finishAppend_cases (function : MoveFunctionAbi) (ident : FunctionIdent)
    (disableSplit : Bool) (inputLen : ℕ) (ptb : MoveSequence) (arguments : List SequenceArgument)
    (typeArguments : List MoveTypeTag) (inputs : List InputArgument) :
    Choice.Ensures (finishAppend function ident disableSplit inputLen ptb arguments typeArguments
      inputs) fun r => r = (none, ptb) ∨ ∃ appended split added call,
        r = (some appended, ⟨split.inputs ++ added, split.commands ++ [.call call]⟩) ∧
        callIdent call = ident ∧ Grows IsCall ptb split ∧ (disableSplit = true → split = ptb) := by
  unfold finishAppend
  apply Choice.ensures_then
  intro reindexed
  cases reindexed with
  | none => exact Choice.ensures_pure _ _ (.inl rfl)
  | some reindexed =>
    refine Choice.ensures_bind _ _
      (fun split => Grows IsCall ptb split.1 ∧ (disableSplit = true → split.1 = ptb)) _ ?_ ?_
    · apply Choice.ensures_expect
      intro split hsplit
      split_ifs at hsplit with hdisabled
      · rw [← Option.some.inj hsplit]
        exact ⟨Grows.refl _ ptb, fun _ => rfl⟩
      · exact ⟨splitArgs_grows _ _ _ _ _ split hsplit, fun h => absurd h hdisabled⟩
    · intro split hsplit
      obtain ⟨hgrows, hsame⟩ := hsplit
      show Choice.Ensures (if _ then _ else _) _
      split_ifs
      · exact Choice.ensures_panic _
      · exact Choice.ensures_pure _ _ (.inr ⟨_, split.1, split.2.1, _, rfl, rfl, hgrows, hsame⟩)

theorem finishAppend_grows (function : MoveFunctionAbi) (ident : FunctionIdent)
    (disableSplit : Bool) (inputLen : ℕ) (ptb : MoveSequence) (arguments : List SequenceArgument)
    (typeArguments : List MoveTypeTag) (inputs : List InputArgument) :
    Choice.Ensures (finishAppend function ident disableSplit inputLen ptb arguments typeArguments
      inputs) fun r => Grows IsCall ptb r.2 := by
  refine (finishAppend_cases _ _ _ _ _ _ _ _).mono ?_
  intro r hr
  rcases hr with rfl | ⟨_, split, added, call, rfl, _, hgrows, _⟩
  · exact Grows.refl _ ptb
  · exact hgrows.trans (grows_append _ split added (.call call) ⟨call, rfl⟩)

/- The rule for one level of `append_function`: `Q` holds of what the producers leave, and
the end makes `P` of it. -/
theorem appendStep_ensures (st : FuzzState)
    (append : MoveSequence → FunctionIdent → TyArgs → List SequenceArgument →
      Choice (Option Appended × MoveSequence))
    (Q : MoveSequence → Prop) (P : Option Appended × MoveSequence → Prop) (ptb : MoveSequence)
    (ident : FunctionIdent) (fixedArgs : FixedArgs) (fixedTyArgs : TyArgs)
    (usedArguments : List SequenceArgument) (disableSplit : Bool) (hstart : Q ptb)
    (hfail : ∀ ptb', Q ptb' → P (none, ptb'))
    (hloop : ∀ inputLen tyArgs params args d, Q d.ptb →
      Choice.Ensures (partialArgs st ident inputLen fixedArgs tyArgs append params args d) fun r =>
        Q r.2 ∧ ∀ next, r.1 = some next → Q next.ptb)
    (hfinish : ∀ function inputLen ptb' arguments typeArguments inputs, Q ptb' →
      Choice.Ensures (finishAppend function ident disableSplit inputLen ptb' arguments
        typeArguments inputs) P) :
    Choice.Ensures (appendStep st append ptb ident fixedArgs fixedTyArgs usedArguments
      disableSplit) P := by
  unfold appendStep
  apply Choice.ensures_then
  intro objectData
  apply Choice.ensures_then
  intro function
  apply Choice.ensures_then
  intro result
  cases result with
  | unsolvable => exact Choice.ensures_pure _ _ (hfail ptb hstart)
  | ok args tyArgs inputs =>
    apply Choice.ensures_then
    intro built
    exact hfinish _ _ ptb _ _ _ hstart
  | partialFound args tyArgs inputs =>
    refine Choice.ensures_bind _ _ _ _ (hloop _ _ _ _ _ hstart) ?_
    intro left hleft
    obtain ⟨r, ptb'⟩ := left
    obtain ⟨hQ, hnext⟩ := hleft
    cases r with
    | none => exact Choice.ensures_pure _ _ (hfail ptb' hQ)
    | some d =>
      apply Choice.ensures_then
      intro tyArgs'
      exact hfinish _ _ d.ptb _ _ _ (hnext d rfl)

section

variable (st : FuzzState)
  (append : MoveSequence → FunctionIdent → TyArgs → List SequenceArgument →
    Choice (Option Appended × MoveSequence))
  {P : MoveSequenceCall → Prop}
  (happend : ∀ ptb ident tyArgs used,
    Choice.Ensures (append ptb ident tyArgs used) fun r => Grows P ptb r.2)

include happend

theorem produceArg_grows (ident : FunctionIdent) (tyArgs : TyArgs) (d : Draft)
    (param : MoveAbiSignatureToken) :
    Choice.Ensures (produceArg st ident tyArgs append d param) fun r =>
      Grows P d.ptb r.2 ∧ ∀ next, r.1 = some next → next.ptb = r.2 := by
  have hstay : Grows P d.ptb d.ptb ∧ ∀ next, (none : Option Draft) = some next → next.ptb = d.ptb :=
    ⟨Grows.refl _ _, fun next h => by cases h⟩
  simp only [produceArg]
  by_cases hfuncs : (st.typeGraph.findProducers (param.partialSubst tyArgs) ident).isEmpty
  · rw [if_pos hfuncs]
    exact Choice.ensures_pure _ _ hstay
  · rw [if_neg hfuncs]
    apply Choice.ensures_then
    intro preFunc
    split
    · exact Choice.ensures_pure _ _ hstay
    · split
      · exact Choice.ensures_pure _ _ hstay
      · refine Choice.ensures_bind _ _ _ _ (happend _ _ _ _) ?_
        rintro ⟨r, ptb⟩ hgrows
        cases r with
        | none => exact Choice.ensures_pure _ _ ⟨hgrows, fun next h => by cases h⟩
        | some appended =>
          apply Choice.ensures_then
          intro newCall
          apply Choice.ensures_then
          intro settled
          apply Choice.ensures_then
          intro ret
          apply Choice.ensures_pure
          refine ⟨hgrows, fun next h => ?_⟩
          rw [← Option.some.inj h]

theorem partialArgs_grows (ident : FunctionIdent) (inputLen : ℕ) (fixedArgs : FixedArgs)
    (tyArgs : TyArgs) (params : List (MoveAbiSignatureToken × ℕ))
    (args : List (Option SequenceArgument)) (d : Draft) :
    Choice.Ensures (partialArgs st ident inputLen fixedArgs tyArgs append params args d) fun r =>
      Grows P d.ptb r.2 ∧ ∀ next, r.1 = some next → next.ptb = r.2 := by
  induction params generalizing args d with
  | nil =>
    apply Choice.ensures_pure
    refine ⟨Grows.refl _ _, fun next h => ?_⟩
    rw [← Option.some.inj h]
  | cons p rest ih =>
    obtain ⟨param, i⟩ := p
    unfold partialArgs
    split
    · exact ih args _
    · split_ifs
      · exact ih args d
      · split
        · exact Choice.ensures_panic _
        · exact ih _ _
        · refine Choice.ensures_bind _ _ _ _
            (produceArg_grows st append happend ident tyArgs d param) ?_
          rintro ⟨r, ptb⟩ ⟨hgrows, hnext⟩
          cases r with
          | none => exact Choice.ensures_pure _ _ ⟨hgrows, fun next h => by cases h⟩
          | some next =>
            have hptb := hnext next rfl
            refine Choice.Ensures.mono (ih _ next) ?_
            rintro r' ⟨hgrows', hlast⟩
            rw [hptb] at hgrows'
            exact ⟨hgrows.trans hgrows', hlast⟩
      · apply Choice.ensures_then
        intro v
        exact ih args _

end

theorem appendStep_grows (st : FuzzState)
    (append : MoveSequence → FunctionIdent → TyArgs → List SequenceArgument →
      Choice (Option Appended × MoveSequence))
    (happend : ∀ ptb ident tyArgs used,
      Choice.Ensures (append ptb ident tyArgs used) fun r => Grows IsCall ptb r.2)
    (ptb : MoveSequence) (ident : FunctionIdent) (fixedArgs : FixedArgs)
    (fixedTyArgs : TyArgs) (usedArguments : List SequenceArgument) (disableSplit : Bool) :
    Choice.Ensures (appendStep st append ptb ident fixedArgs fixedTyArgs usedArguments disableSplit)
      fun r => Grows IsCall ptb r.2 := by
  refine appendStep_ensures st append (Grows IsCall ptb) _ ptb ident fixedArgs fixedTyArgs
    usedArguments disableSplit (Grows.refl _ ptb) ?_ ?_ ?_
  · intro ptb' hgrows
    exact hgrows
  · intro inputLen tyArgs params args d hd
    refine (partialArgs_grows st append happend ident inputLen fixedArgs tyArgs params args d).mono ?_
    intro r hr
    have hgrows : Grows IsCall ptb r.2 := hd.trans hr.1
    exact ⟨hgrows, fun next hnext => hr.2 next hnext ▸ hgrows⟩
  · intro function inputLen ptb' arguments typeArguments inputs hgrows
    exact (finishAppend_grows function ident disableSplit inputLen ptb' arguments typeArguments
      inputs).mono fun r hr => hgrows.trans hr

/- Only calls are appended. -/
theorem appendFunction_onlyCalls (st : FuzzState) (fuel : ℕ) (ptb : MoveSequence)
    (ident : FunctionIdent) (fixedArgs : FixedArgs) (fixedTyArgs : TyArgs)
    (usedArguments : List SequenceArgument) (disableSplit : Bool) :
    Choice.Ensures (appendFunction st fuel ptb ident fixedArgs fixedTyArgs usedArguments
      disableSplit) fun r => Grows IsCall ptb r.2 := by
  induction fuel generalizing ptb ident fixedArgs fixedTyArgs usedArguments disableSplit with
  | zero => exact Choice.ensures_pure _ _ (Grows.refl _ ptb)
  | succ fuel ih =>
    apply appendStep_grows
    intro ptb ident tyArgs used
    exact ih ptb ident SortedMap.empty tyArgs used false

theorem appendFunction_grows (st : FuzzState) (fuel : ℕ) (ptb : MoveSequence)
    (ident : FunctionIdent) (fixedArgs : FixedArgs) (fixedTyArgs : TyArgs)
    (usedArguments : List SequenceArgument) (disableSplit : Bool) :
    Choice.Ensures (appendFunction st fuel ptb ident fixedArgs fixedTyArgs usedArguments
      disableSplit) fun r => GrowsFreely ptb r.2 :=
  (appendFunction_onlyCalls st fuel ptb ident fixedArgs fixedTyArgs usedArguments disableSplit).mono
    fun _ h => h.mono fun _ _ => trivial

/-! ### Weaving -/

/- Where the commands of the base have gone, as a renaming. -/
def positions (pos : List ℕ) (i : ℕ) : ℕ := pos.getD i 0

/- The second sequence consists of the first, renamed to the positions in the
list, and of commands that satisfy `P`. -/
inductive Woven (P : MoveSequenceCall → Prop) :
    List MoveSequenceCall → List MoveSequenceCall → List ℕ → Prop where
  | nil : Woven P [] [] []
  | added (base out : List MoveSequenceCall) (pos : List ℕ) (cmd : MoveSequenceCall) :
      Woven P base out pos → P cmd → Woven P base (out ++ [cmd]) pos
  | base (base out : List MoveSequenceCall) (pos : List ℕ) (cmd : MoveSequenceCall) :
      Woven P base out pos → (∀ arg ∈ commandArgs cmd, RefersBelow base.length arg) →
      Woven P (base ++ [cmd]) (out ++ [renameCommand (positions pos) cmd]) (pos ++ [out.length])

theorem renameCommand_congr (f g : ℕ → ℕ) (n : ℕ) (cmd : MoveSequenceCall)
    (hrefs : ∀ arg ∈ commandArgs cmd, RefersBelow n arg) (h : ∀ i, i < n → f i = g i) :
    renameCommand f cmd = renameCommand g cmd := by
  apply mapCommand_congr
  intro arg harg
  have hbelow := hrefs arg harg
  cases arg with
  | gasCoin => rfl
  | input i => rfl
  | result i => simp only [renameArg, h i.val (hbelow i.val rfl)]
  | nestedResult i j => simp only [renameArg, h i.val (hbelow i.val rfl)]

theorem positions_append (pos : List ℕ) (p i : ℕ) (hi : i < pos.length) :
    positions pos i = positions (pos ++ [p]) i := by
  simp only [positions, List.getD_eq_getElem?_getD, List.getElem?_append_left hi]

namespace Woven

variable {P : MoveSequenceCall → Prop} {base out : List MoveSequenceCall} {pos : List ℕ}

theorem length_eq (h : Woven P base out pos) : pos.length = base.length := by
  induction h with
  | nil => rfl
  | added base out pos cmd _ _ ih => exact ih
  | base base out pos cmd _ _ ih => simp only [List.length_append, ih, List.length_singleton]

theorem lt_length (h : Woven P base out pos) : ∀ p ∈ pos, p < out.length := by
  induction h with
  | nil => intro p hp; cases hp
  | added base out pos cmd _ _ ih =>
    intro p hp
    have := ih p hp
    simp only [List.length_append, List.length_singleton]
    omega
  | base base out pos cmd _ _ ih =>
    intro p hp
    simp only [List.length_append, List.length_singleton]
    rcases List.mem_append.mp hp with h | h
    · have := ih p h
      omega
    · rw [List.mem_singleton.mp h]
      omega

theorem pairwise (h : Woven P base out pos) : pos.Pairwise (· < ·) := by
  induction h with
  | nil => exact List.Pairwise.nil
  | added base out pos cmd _ _ ih => exact ih
  | base base out pos cmd hw _ ih =>
    rw [List.pairwise_append]
    refine ⟨ih, List.pairwise_singleton _ _, ?_⟩
    intro p hp q hq
    rw [List.mem_singleton.mp hq]
    exact hw.lt_length p hp

theorem positions_lt (h : Woven P base out pos) (j k : ℕ) (hjk : j < k) (hk : k < base.length) :
    positions pos j < positions pos k := by
  have hk' : k < pos.length := by rw [h.length_eq]; exact hk
  have hj' : j < pos.length := by omega
  have hlt := List.pairwise_iff_getElem.mp h.pairwise j k hj' hk' hjk
  simpa only [positions, List.getD_eq_getElem?_getD, List.getElem?_eq_getElem hk',
    List.getElem?_eq_getElem hj', Option.getD_some] using hlt

theorem backward (h : Woven P base out pos) : BackwardRefs base := by
  induction h with
  | nil => intro k cmd hk; simp at hk
  | added base out pos cmd _ _ ih => exact ih
  | base base out pos cmd _ hrefs ih =>
    intro k c hk
    rcases Nat.lt_or_ge k base.length with hlt | hge
    · rw [List.getElem?_append_left hlt] at hk
      exact ih k c hk
    · rw [List.getElem?_append_right hge] at hk
      obtain ⟨hzero, hc⟩ := List.getElem?_eq_some_iff.mp hk
      simp only [List.length_singleton] at hzero
      have hkl : k = base.length := by omega
      subst hkl
      simp only [Nat.sub_self, List.getElem_singleton] at hc
      subst hc
      exact hrefs

/- The commands of the base are where the list says. -/
theorem getElem?_positions (h : Woven P base out pos) (k : ℕ) (cmd : MoveSequenceCall)
    (hk : base[k]? = some cmd) :
    out[positions pos k]? = some (renameCommand (positions pos) cmd) := by
  induction h with
  | nil => simp at hk
  | added base out pos c hw _ ih =>
    have hout := ih hk
    rw [List.getElem?_append_left (List.getElem?_eq_some_iff.mp hout).1]
    exact hout
  | base base out pos c hw hrefs ih =>
    have hlen := hw.length_eq
    rcases Nat.lt_or_ge k base.length with hlt | hge
    · rw [List.getElem?_append_left hlt] at hk
      have hout := ih hk
      have hrename : renameCommand (positions pos) cmd =
          renameCommand (positions (pos ++ [out.length])) cmd := by
        apply renameCommand_congr _ _ k cmd (hw.backward k cmd hk)
        intro i hi
        exact positions_append pos out.length i (by omega)
      rw [← positions_append pos out.length k (by omega),
        List.getElem?_append_left (List.getElem?_eq_some_iff.mp hout).1, hout, hrename]
    · rw [List.getElem?_append_right hge] at hk
      obtain ⟨hzero, hc⟩ := List.getElem?_eq_some_iff.mp hk
      simp only [List.length_singleton] at hzero
      have hkl : k = pos.length := by omega
      have hsub : k - base.length = 0 := by omega
      simp only [hsub, List.getElem_singleton] at hc
      have hlast : positions (pos ++ [out.length]) k = out.length := by
        simp [positions, hkl]
      have hrename : renameCommand (positions pos) cmd =
          renameCommand (positions (pos ++ [out.length])) cmd := by
        apply renameCommand_congr _ _ base.length cmd (hc ▸ hrefs)
        intro i hi
        exact positions_append pos out.length i (by omega)
      rw [hlast, List.getElem?_append_right (Nat.le_refl _), Nat.sub_self, ← hrename, hc]
      rfl

/- Appending more commands of the same kind. -/
theorem append (h : Woven P base out pos) (added : List MoveSequenceCall)
    (hP : ∀ cmd ∈ added, P cmd) : Woven P base (out ++ added) pos := by
  induction added generalizing out with
  | nil =>
    rw [List.append_nil]
    exact h
  | cons cmd added ih =>
    have hnext := h.added base out pos cmd (hP cmd (List.mem_cons_self ..))
    have := ih hnext fun c hc => hP c (List.mem_cons_of_mem _ hc)
    rw [List.append_assoc] at this
    exact this

end Woven

/-! ### `apply_hooks` -/

theorem contextIdents_mem (st : FuzzState) (create destroy : FunctionIdent)
    (h : contextIdents st = some (create, destroy)) :
    create ∈ hookIdents st ∧ destroy ∈ hookIdents st := by
  simp [hookIdents, h]

theorem callHooks_mem (st : FuzzState) (call : MoveCall) (abi : MoveFunctionAbi)
    (hooks : FunctionHook) (h : callHooks st call = some (abi, hooks)) :
    (∀ hook ∈ hooks.preHooks, hook ∈ hookIdents st) ∧
      ∀ hook ∈ hooks.postHooks, hook ∈ hookIdents st := by
  obtain ⟨abi', _, h⟩ := Option.bind_eq_some_iff.mp h
  obtain ⟨hooks', hget, h⟩ := Option.bind_eq_some_iff.mp h
  obtain ⟨rfl, rfl⟩ := Prod.mk.inj (Option.some.inj h)
  have hmem : hooks' ∈ st.functionHooks.values :=
    List.mem_map.mpr ⟨_, st.functionHooks.mem_entries_of_get? _ _ hget, rfl⟩
  have hall : ∀ hook ∈ hooks'.preHooks ++ hooks'.postHooks, hook ∈ hookIdents st := by
    intro hook hhook
    have hflat : hook ∈ st.functionHooks.values.flatMap fun h => h.preHooks ++ h.postHooks :=
      List.mem_flatMap.mpr ⟨hooks', hmem, hhook⟩
    unfold hookIdents
    exact List.mem_append_left _ (List.mem_append_right _ hflat)
  exact ⟨fun hook hh => hall hook (List.mem_append_left _ hh),
    fun hook hh => hall hook (List.mem_append_right _ hh)⟩

section

variable (st : FuzzState)
  (append : MoveSequence → FunctionIdent → FixedArgs → TyArgs → List SequenceArgument →
    Choice (Option Appended × MoveSequence))
  (P : MoveSequenceCall → Prop)
  (happend : ∀ ptb ident fixedArgs fixedTyArgs used, ident ∈ hookIdents st →
    Choice.Ensures (append ptb ident fixedArgs fixedTyArgs used) fun r => Grows P ptb r.2)

include happend

theorem appendHookCall_grows (ptb : MoveSequence) (hook : FunctionIdent)
    (target : Option (MoveCall × MoveFunctionAbi)) (ctxArg : Option SequenceArgument)
    (hhook : hook ∈ hookIdents st) :
    Choice.Ensures (appendHookCall st append ptb hook target ctxArg) fun r => Grows P ptb r := by
  unfold appendHookCall
  split
  · exact Choice.ensures_pure _ _ (Grows.refl P ptb)
  · split
    · exact Choice.ensures_pure _ _ (Grows.refl P ptb)
    · refine Choice.ensures_bind _ _ _ _ (happend ptb hook _ _ _ hhook) ?_
      intro r hr
      exact Choice.ensures_pure _ _ hr

theorem appendHookCalls_grows (target : Option (MoveCall × MoveFunctionAbi))
    (ctxArg : Option SequenceArgument) (ptb : MoveSequence) (hooks : List FunctionIdent)
    (hhooks : ∀ hook ∈ hooks, hook ∈ hookIdents st) :
    Choice.Ensures (appendHookCalls st append target ctxArg ptb hooks) fun r => Grows P ptb r := by
  induction hooks generalizing ptb with
  | nil => exact Choice.ensures_pure _ _ (Grows.refl P ptb)
  | cons hook hooks ih =>
    have hfirst := appendHookCall_grows st append P happend ptb hook target ctxArg
      (hhooks hook (List.mem_cons_self ..))
    refine Choice.ensures_bind _ _ _ _ hfirst ?_
    intro mid hmid
    refine Choice.Ensures.mono (ih mid fun h hh => hhooks h (List.mem_cons_of_mem _ hh)) ?_
    intro r hr
    exact hmid.trans hr

theorem appendContextCreation_grows (ptb : MoveSequence) :
    Choice.Ensures (appendContextCreation st append ptb) fun r => Grows P ptb r.2 := by
  unfold appendContextCreation
  split
  · exact Choice.ensures_pure _ _ (Grows.refl P ptb)
  · rename_i create destroy hctx
    refine Choice.ensures_bind _ _ _ _ (happend ptb create _ _ _ (contextIdents_mem st _ _ hctx).1) ?_
    intro r hr
    exact Choice.ensures_pure _ _ hr

theorem appendContextDestruction_grows (ptb : MoveSequence) (ctxArg : Option SequenceArgument) :
    Choice.Ensures (appendContextDestruction st append ptb ctxArg) fun r => Grows P ptb r := by
  unfold appendContextDestruction
  split
  · rename_i ctx create destroy paramTy hctx _
    refine Choice.ensures_bind _ _ _ _ (happend ptb destroy _ _ _ (contextIdents_mem st _ _ hctx).2) ?_
    intro r hr
    exact Choice.ensures_pure _ _ hr
  · exact Choice.ensures_pure _ _ (Grows.refl P ptb)

end

/- The invariant of the loop over the base sequence. -/
structure Weaves (P : MoveSequenceCall → Prop) (inputs : List InputArgument)
    (base : List MoveSequenceCall) (d : Decorated) (pos : List ℕ) : Prop where
  woven : Woven P base d.ptb.commands pos
  indexMap : d.indexMap = pos.map asU16
  inputs : inputs <+: d.ptb.inputs

theorem Weaves.grows {P : MoveSequenceCall → Prop} {inputs : List InputArgument}
    {base : List MoveSequenceCall} {d : Decorated} {pos : List ℕ} {ptb : MoveSequence}
    (h : Weaves P inputs base d pos) (hgrows : Grows P d.ptb ptb) :
    Weaves P inputs base ⟨ptb, d.indexMap⟩ pos := by
  obtain ⟨hin, added, hcmds, hP⟩ := hgrows
  refine ⟨?_, h.indexMap, h.inputs.trans hin⟩
  show Woven P base ptb.commands pos
  rw [hcmds]
  exact h.woven.append added hP

theorem Weaves.remapCommand {P : MoveSequenceCall → Prop} {inputs : List InputArgument}
    {base : List MoveSequenceCall} {d : Decorated} {pos : List ℕ}
    (h : Weaves P inputs base d pos) (cmd : MoveSequenceCall)
    (hrefs : ∀ arg ∈ commandArgs cmd, RefersBelow base.length arg) :
    remapCommand cmd d.indexMap = some (renameCommand (positions pos) cmd) := by
  have hlen : d.indexMap.length = base.length := by
    rw [h.indexMap, List.length_map, h.woven.length_eq]
  apply remapCommand_eq
  · intro i hi
    have hpos : i < pos.length := by rw [h.woven.length_eq, ← hlen]; exact hi
    simp [h.indexMap, positions, hpos]
  · rw [hlen]
    exact hrefs

theorem Weaves.appendCommand {P : MoveSequenceCall → Prop} {inputs : List InputArgument}
    {base : List MoveSequenceCall} {d : Decorated} {pos : List ℕ}
    (h : Weaves P inputs base d pos) (cmd : MoveSequenceCall)
    (hrefs : ∀ arg ∈ commandArgs cmd, RefersBelow base.length arg) :
    Weaves P inputs (base ++ [cmd]) (appendCommand d (renameCommand (positions pos) cmd))
      (pos ++ [d.ptb.commands.length]) := by
  refine ⟨.base base _ pos cmd h.woven hrefs, ?_, h.inputs⟩
  show d.indexMap ++ [asU16 d.ptb.commands.length] = _
  rw [h.indexMap, List.map_append, List.map_singleton]

section

variable (st : FuzzState)
  (append : MoveSequence → FunctionIdent → FixedArgs → TyArgs → List SequenceArgument →
    Choice (Option Appended × MoveSequence))
  (P : MoveSequenceCall → Prop)
  (happend : ∀ ptb ident fixedArgs fixedTyArgs used, ident ∈ hookIdents st →
    Choice.Ensures (append ptb ident fixedArgs fixedTyArgs used) fun r => Grows P ptb r.2)
  (inputs : List InputArgument)

include happend

theorem handleFunctionCallHooks_weaves (base : List MoveSequenceCall) (d : Decorated)
    (pos : List ℕ) (cmd : MoveSequenceCall) (remappedCall : MoveCall) (abi : MoveFunctionAbi)
    (hooks : FunctionHook) (h : Weaves P inputs base d pos)
    (hrefs : ∀ arg ∈ commandArgs cmd, RefersBelow base.length arg)
    (hrenamed : renameCommand (positions pos) cmd = .call remappedCall)
    (hhooks : callHooks st remappedCall = some (abi, hooks)) :
    Choice.Ensures (handleFunctionCallHooks st append d remappedCall abi hooks) fun d' =>
      ∃ pos', Weaves P inputs (base ++ [cmd]) d' pos' := by
  obtain ⟨hpre, hpost⟩ := callHooks_mem st remappedCall abi hooks hhooks
  unfold handleFunctionCallHooks
  refine Choice.ensures_bind _ _ _ _
    (appendContextCreation_grows st append P happend d.ptb) ?_
  rintro ⟨hookCtx, ptb⟩ hcreate
  refine Choice.ensures_bind _ _ _ _
    (appendHookCalls_grows st append P happend _ hookCtx ptb hooks.preHooks hpre) ?_
  intro before hbefore
  -- the call itself follows what the hooks have left
  have hcall := (h.grows (hcreate.trans hbefore)).appendCommand cmd hrefs
  rw [hrenamed] at hcall
  refine Choice.ensures_bind _ _ _ _
    (appendHookCalls_grows st append P happend _ hookCtx _ hooks.postHooks hpost) ?_
  intro after hafter
  refine Choice.ensures_bind _ _ _ _
    (appendContextDestruction_grows st append P happend after hookCtx) ?_
  intro last hlast
  apply Choice.ensures_pure
  exact ⟨_, hcall.grows (hafter.trans hlast)⟩

theorem decorateCommand_weaves (base : List MoveSequenceCall) (d : Decorated) (pos : List ℕ)
    (cmd : MoveSequenceCall) (h : Weaves P inputs base d pos)
    (hrefs : ∀ arg ∈ commandArgs cmd, RefersBelow base.length arg) :
    Choice.Ensures (decorateCommand st append d cmd) fun d' =>
      ∃ pos', Weaves P inputs (base ++ [cmd]) d' pos' := by
  have hcmd := h.appendCommand cmd hrefs
  unfold decorateCommand
  rw [h.remapCommand cmd hrefs]
  refine Choice.ensures_bind _ _ (fun remapped => remapped = renameCommand (positions pos) cmd) _
    ?_ ?_
  · apply Choice.ensures_expect
    intro remapped hremapped
    exact (Option.some.inj hremapped).symm
  · intro remapped hremapped
    rw [← hremapped] at hcmd
    split
    · split
      · rename_i remappedCall _ abi hooks hhooks
        exact handleFunctionCallHooks_weaves st append P happend inputs base d pos cmd remappedCall
          abi hooks h hrefs hremapped.symm hhooks
      · exact Choice.ensures_pure _ _ ⟨_, hcmd⟩
    · exact Choice.ensures_pure _ _ ⟨_, hcmd⟩

theorem decorateCommands_weaves (base rest : List MoveSequenceCall) (d : Decorated)
    (pos : List ℕ) (h : Weaves P inputs base d pos) (hback : BackwardRefs (base ++ rest)) :
    Choice.Ensures (decorateCommands st append d rest) fun d' =>
      ∃ pos', Weaves P inputs (base ++ rest) d' pos' := by
  induction rest generalizing base d pos with
  | nil =>
    rw [List.append_nil]
    exact Choice.ensures_pure _ _ ⟨pos, h⟩
  | cons cmd rest ih =>
    have hrefs : ∀ arg ∈ commandArgs cmd, RefersBelow base.length arg :=
      hback base.length cmd (by simp)
    refine Choice.ensures_bind _ _ _ _
      (decorateCommand_weaves st append P happend inputs base d pos cmd h hrefs) ?_
    rintro next ⟨pos', hnext⟩
    have hassoc : base ++ cmd :: rest = (base ++ [cmd]) ++ rest := by
      rw [List.append_assoc, List.singleton_append]
    rw [hassoc] at hback ⊢
    exact ih (base ++ [cmd]) next pos' hnext hback

/- Before the leftover values are dealt with, the base is woven with commands
of hooks. -/
theorem insertHooks_weaves (base : MoveSequence) (hback : BackwardRefs base.commands) :
    Choice.Ensures (insertHooks st append base) fun ptb =>
      ∃ pos, Woven P base.commands ptb.commands pos ∧ base.inputs <+: ptb.inputs := by
  unfold insertHooks
  refine Choice.ensures_bind _ _ _ _ (appendContextCreation_grows st append P happend _) ?_
  rintro ⟨globalCtx, created⟩ hcreate
  have hseq : (∀ hook ∈ st.sequenceHooks.preHooks, hook ∈ hookIdents st) ∧
      ∀ hook ∈ st.sequenceHooks.postHooks, hook ∈ hookIdents st := by
    unfold hookIdents
    constructor <;>
    · intro hook hhook
      simp [hhook]
  refine Choice.ensures_bind _ _ _ _
    (appendHookCalls_grows st append P happend none globalCtx created _ hseq.1) ?_
  intro before hbefore
  have hstart : Weaves P base.inputs [] ⟨⟨base.inputs, []⟩, []⟩ [] :=
    ⟨.nil, rfl, List.prefix_rfl⟩
  refine Choice.ensures_bind _ _ _ _ (decorateCommands_weaves st append P happend base.inputs []
    base.commands ⟨before, []⟩ [] (hstart.grows (hcreate.trans hbefore)) hback) ?_
  rintro d ⟨pos, hd⟩
  refine Choice.ensures_bind _ _ _ _
    (appendHookCalls_grows st append P happend none globalCtx d.ptb _ hseq.2) ?_
  intro after hafter
  refine (appendContextDestruction_grows st append P happend after globalCtx).mono ?_
  intro ptb hptb
  have hfinal := hd.grows (hafter.trans hptb)
  exact ⟨pos, hfinal.woven, hfinal.inputs⟩

omit happend in
/- The two steps behind the hooks take no choices. -/
theorem decorate_eq_some (base result : MoveSequence) (rs rest : List ℕ) :
    decorate st append base rs = some (result, rest) ↔
      ∃ ptb mid, insertHooks st append base rs = some (ptb, rest) ∧
        processBalance st ptb = some mid ∧ processKeyStore st mid = some result := by
  unfold decorate
  rw [Choice.bind_eq_some]
  constructor
  · rintro ⟨ptb, rs₁, hptb, h⟩
    obtain ⟨mid, rs₂, hbalance, hlast⟩ := (Choice.bind_eq_some _ _ _ _).mp h
    obtain ⟨hmid, hrs₂⟩ := (Choice.expect_eq_some _ _ (mid, rs₂)).mp hbalance
    obtain ⟨hresult, hrest⟩ := (Choice.expect_eq_some _ _ (result, rest)).mp hlast
    obtain rfl : rest = rs₁ := hrest.trans hrs₂
    exact ⟨ptb, mid, hptb, hmid, hresult⟩
  · rintro ⟨ptb, mid, hptb, hmid, hresult⟩
    refine ⟨ptb, rest, hptb, (Choice.bind_eq_some _ _ _ _).mpr ⟨mid, rest, ?_, ?_⟩⟩
    · exact (Choice.expect_eq_some _ _ _).mpr ⟨hmid, rfl⟩
    · exact (Choice.expect_eq_some _ _ _).mpr ⟨hresult, rfl⟩

end

/-! ### The commands at the end -/

theorem convertBalances_grows (st : FuzzState) (ptb r : MoveSequence)
    (balances : List SequenceArgument) (h : convertBalances st ptb balances = some r) :
    Grows (fun cmd => isFromBalance cmd) ptb r ∧ r.inputs = ptb.inputs := by
  induction balances generalizing ptb with
  | nil =>
    rw [← Option.some.inj h]
    exact ⟨Grows.refl _ ptb, rfl⟩
  | cons balance rest ih =>
    obtain ⟨tyArg, _, h⟩ := Option.bind_eq_some_iff.mp h
    obtain ⟨hgrows, hinputs⟩ := ih _ h
    have hcall : isFromBalance (fromBalanceCall tyArg balance) := by
      simp [isFromBalance, fromBalanceCall]
    exact ⟨(grows_command _ ptb _ hcall).trans hgrows, hinputs⟩

theorem processBalance_grows (st : FuzzState) (ptb r : MoveSequence)
    (h : processBalance st ptb = some r) :
    Grows (fun cmd => isFromBalance cmd) ptb r ∧ r.inputs = ptb.inputs := by
  obtain ⟨objectData, _, h⟩ := Option.bind_eq_some_iff.mp h
  exact convertBalances_grows st ptb r objectData.balances h

theorem processKeyStore_cases (st : FuzzState) (ptb r : MoveSequence)
    (h : processKeyStore st ptb = some r) :
    r = ptb ∨ ∃ objects, r = ⟨ptb.inputs ++ [.address st.attacker],
      ptb.commands ++ [.transferObjects objects (.input (asU16 ptb.inputs.length))]⟩ := by
  obtain ⟨objectData, _, h⟩ := Option.map_eq_some_iff.mp h
  split_ifs at h
  · exact .inl h.symm
  · exact .inr ⟨_, h.symm⟩

/- The decorated sequence contains the base sequence: a strictly increasing map
sends every command to its renamed copy, and the inputs are still there. -/
theorem applyHooks_embeds (st : FuzzState) (base result : MoveSequence) (rs rest : List ℕ)
    (hback : BackwardRefs base.commands)
    (hrun : applyHooks st base rs = some (result, rest))
    (hlen : result.commands.length < 2 ^ 16) :
    base.inputs <+: result.inputs ∧
      ∃ f : ℕ → ℕ, (∀ j k, j < k → k < base.commands.length → f j < f k) ∧
        ∀ k cmd, base.commands[k]? = some cmd →
          (asU16 (f k)).val = f k ∧ result.commands[f k]? = some (renameCommand f cmd) := by
  obtain ⟨ptb, mid, hptb, hmid, hresult⟩ := (decorate_eq_some st _ base result rs rest).mp hrun
  obtain ⟨pos, hwoven, hin⟩ :=
    insertHooks_weaves st _ (fun _ => True)
      (fun ptb ident fixedArgs fixedTyArgs used _ =>
        appendFunction_grows st 11 ptb ident fixedArgs fixedTyArgs used true)
      base hback rs ptb rest hptb
  obtain ⟨⟨_, added, hadded, _⟩, hinputs⟩ := processBalance_grows st ptb mid hmid
  have hlast : base.inputs <+: result.inputs ∧
      ∃ tail, result.commands = ptb.commands ++ tail := by
    rcases processKeyStore_cases st mid result hresult with rfl | ⟨objects, rfl⟩
    · rw [hinputs]
      exact ⟨hin, added, hadded⟩
    · refine ⟨?_, added ++ [.transferObjects objects (.input (asU16 mid.inputs.length))], ?_⟩
      · rw [hinputs]
        exact hin.trans (List.prefix_append ..)
      · show mid.commands ++ _ = _
        rw [hadded, List.append_assoc]
  obtain ⟨hgrown, tail, htail⟩ := hlast
  have hall : Woven (fun _ => True) base.commands result.commands pos := by
    rw [htail]
    exact hwoven.append tail fun _ _ => trivial
  refine ⟨hgrown, positions pos, hall.positions_lt, ?_⟩
  intro k cmd hcmd
  have hget := hall.getElem?_positions k cmd hcmd
  have hlt := (List.getElem?_eq_some_iff.mp hget).1
  refine ⟨?_, hget⟩
  show positions pos k % 2 ^ 16 = positions pos k
  exact Nat.mod_eq_of_lt (by omega)

/- A ticket is opened and redeemed; the redeeming has a hook, the sequence too. -/
def ticketModule : MoveModuleId := ⟨ObjectID.ofByte 7, "ticket"⟩

def ticketHandle : MoveStructHandle := ⟨ticketModule, "Ticket", ⟨false, true, false, false⟩, []⟩

def ticketState : FuzzState :=
  { FuzzState.ofModule ⟨ticketModule,
      [⟨"open", [], [.struct ticketHandle], [], .public_⟩,
        ⟨"redeem", [.struct ticketHandle], [], [], .public_⟩,
        ⟨"begin", [], [], [], .public_⟩,
        ⟨"check", [.reference (.struct ticketHandle)], [], [], .public_⟩], [ticketHandle]⟩ with
    functionHooks := IndexMap.empty.insert ⟨ticketModule, "redeem"⟩ ⟨[⟨ticketModule, "check"⟩], []⟩
    sequenceHooks := ⟨[⟨ticketModule, "begin"⟩], []⟩ }

def ticketCall (function : String) (arguments : List SequenceArgument) : MoveSequenceCall :=
  .call ⟨ObjectID.ofByte 7, "ticket", function, [], arguments⟩

theorem ticket_backward :
    BackwardRefs [ticketCall "open" [], ticketCall "redeem" [.result 0]] := by
  intro k cmd hk arg harg i hi
  match k with
  | 0 =>
    obtain rfl := Option.some.inj hk
    cases harg
  | 1 =>
    obtain rfl := Option.some.inj hk
    rw [List.mem_singleton.mp harg] at hi
    obtain rfl := Option.some.inj hi
    decide
  | k + 2 => simp at hk

theorem applyHooks_embeds_ticket :
    [] <+: ([] : List InputArgument) ∧
      ∃ f : ℕ → ℕ, (∀ j k, j < k → k < 2 → f j < f k) ∧
        ∀ k cmd, [ticketCall "open" [], ticketCall "redeem" [.result 0]][k]? = some cmd →
          (asU16 (f k)).val = f k ∧
            [ticketCall "begin" [], ticketCall "open" [], ticketCall "check" [.result 1],
              ticketCall "redeem" [.result 1]][f k]? = some (renameCommand f cmd) := by
  exact applyHooks_embeds ticketState ⟨[], [ticketCall "open" [], ticketCall "redeem" [.result 0]]⟩
    ⟨[], [ticketCall "begin" [], ticketCall "open" [], ticketCall "check" [.result 1],
      ticketCall "redeem" [.result 1]]⟩ [0, 0] [] ticket_backward rfl (by decide)

end Movy.Fuzz
