import Movy.Fuzz.Embed

/-!
# Cutting `append_function` off

A run in which the calls for producers are cut off follows the run of the code as
long as it gets. Where it stops, the code has appended more commands than the
calls that it was asked for.
-/

namespace Movy.Fuzz

open Movy.Types Movy.Store MoveAbiSignatureToken

/-! ### Following -/

section

variable (st : FuzzState)
  (append append' : MoveSequence → FunctionIdent → TyArgs → List SequenceArgument →
    Choice (Option Appended × MoveSequence))
  (happend : ∀ ptb ident tyArgs used,
    Choice.Refines (append ptb ident tyArgs used) (append' ptb ident tyArgs used))

include happend

theorem produceArg_refines (ident : FunctionIdent) (tyArgs : TyArgs) (d : Draft)
    (param : MoveAbiSignatureToken) :
    Choice.Refines (produceArg st ident tyArgs append d param)
      (produceArg st ident tyArgs append' d param) := by
  simp only [produceArg]
  by_cases hfuncs : (st.typeGraph.findProducers (param.partialSubst tyArgs) ident).isEmpty
  · rw [if_pos hfuncs, if_pos hfuncs]
    exact Choice.Refines.refl _
  · rw [if_neg hfuncs, if_neg hfuncs]
    apply Choice.refines_then
    intro preFunc
    split
    · exact Choice.Refines.refl _
    · split
      · exact Choice.Refines.refl _
      · refine Choice.refines_bind _ _ _ _ (happend _ _ _ _) ?_
        intro r
        exact Choice.Refines.refl _

theorem partialArgs_refines (ident : FunctionIdent) (inputLen : ℕ) (fixedArgs : FixedArgs)
    (tyArgs : TyArgs) (params : List (MoveAbiSignatureToken × ℕ))
    (args : List (Option SequenceArgument)) (d : Draft) :
    Choice.Refines (partialArgs st ident inputLen fixedArgs tyArgs append params args d)
      (partialArgs st ident inputLen fixedArgs tyArgs append' params args d) := by
  induction params generalizing args d with
  | nil => exact Choice.Refines.refl _
  | cons p rest ih =>
    obtain ⟨param, i⟩ := p
    unfold partialArgs
    split
    · exact ih args _
    · split_ifs
      · exact ih args d
      · split
        · exact Choice.Refines.refl _
        · exact ih _ _
        · refine Choice.refines_bind _ _ _ _
            (produceArg_refines st append append' happend ident tyArgs d param) ?_
          intro h
          obtain ⟨r, ptb⟩ := h
          cases r with
          | none => exact Choice.Refines.refl _
          | some next => exact ih _ next
      · apply Choice.refines_then
        intro v
        exact ih args _

theorem appendStep_refines (ptb : MoveSequence) (ident : FunctionIdent) (fixedArgs : FixedArgs)
    (fixedTyArgs : TyArgs) (usedArguments : List SequenceArgument) (disableSplit : Bool) :
    Choice.Refines
      (appendStep st append ptb ident fixedArgs fixedTyArgs usedArguments disableSplit)
      (appendStep st append' ptb ident fixedArgs fixedTyArgs usedArguments disableSplit) := by
  unfold appendStep
  apply Choice.refines_then
  intro objectData
  apply Choice.refines_then
  intro function
  apply Choice.refines_then
  intro result
  cases result with
  | unsolvable => exact Choice.Refines.refl _
  | ok args tyArgs inputs => exact Choice.Refines.refl _
  | partialFound args tyArgs inputs =>
    refine Choice.refines_bind _ _ _ _
      (partialArgs_refines st append append' happend _ _ _ _ _ _ _) ?_
    intro r
    exact Choice.Refines.refl _

end

section

variable (st : FuzzState)
  (append append' : MoveSequence → FunctionIdent → FixedArgs → TyArgs → List SequenceArgument →
    Choice (Option Appended × MoveSequence))
  (happend : ∀ ptb ident fixedArgs fixedTyArgs used,
    Choice.Refines (append ptb ident fixedArgs fixedTyArgs used)
      (append' ptb ident fixedArgs fixedTyArgs used))

include happend

theorem appendHookCalls_refines (target : Option (MoveCall × MoveFunctionAbi))
    (ctxArg : Option SequenceArgument) (ptb : MoveSequence) (hooks : List FunctionIdent) :
    Choice.Refines (appendHookCalls st append target ctxArg ptb hooks)
      (appendHookCalls st append' target ctxArg ptb hooks) := by
  induction hooks generalizing ptb with
  | nil => exact Choice.Refines.refl _
  | cons hook hooks ih =>
    apply Choice.refines_bind
    · unfold appendHookCall
      split
      · exact Choice.Refines.refl _
      · split
        · exact Choice.Refines.refl _
        · refine Choice.refines_bind _ _ _ _ (happend _ _ _ _ _) ?_
          intro r
          exact Choice.Refines.refl _
    · intro mid
      exact ih mid

theorem appendContextCreation_refines (ptb : MoveSequence) :
    Choice.Refines (appendContextCreation st append ptb) (appendContextCreation st append' ptb) := by
  unfold appendContextCreation
  split
  · exact Choice.Refines.refl _
  · refine Choice.refines_bind _ _ _ _ (happend _ _ _ _ _) ?_
    intro r
    exact Choice.Refines.refl _

theorem appendContextDestruction_refines (ptb : MoveSequence) (ctxArg : Option SequenceArgument) :
    Choice.Refines (appendContextDestruction st append ptb ctxArg)
      (appendContextDestruction st append' ptb ctxArg) := by
  unfold appendContextDestruction
  split
  · refine Choice.refines_bind _ _ _ _ (happend _ _ _ _ _) ?_
    intro r
    exact Choice.Refines.refl _
  · exact Choice.Refines.refl _

theorem handleFunctionCallHooks_refines (d : Decorated) (remappedCall : MoveCall)
    (abi : MoveFunctionAbi) (hooks : FunctionHook) :
    Choice.Refines (handleFunctionCallHooks st append d remappedCall abi hooks)
      (handleFunctionCallHooks st append' d remappedCall abi hooks) := by
  unfold handleFunctionCallHooks
  refine Choice.refines_bind _ _ _ _ (appendContextCreation_refines st _ _ happend _) ?_
  intro h
  obtain ⟨hookCtx, ptb⟩ := h
  refine Choice.refines_bind _ _ _ _ (appendHookCalls_refines st _ _ happend _ _ _ _) ?_
  intro before
  refine Choice.refines_bind _ _ _ _ (appendHookCalls_refines st _ _ happend _ _ _ _) ?_
  intro after
  refine Choice.refines_bind _ _ _ _ (appendContextDestruction_refines st _ _ happend _ _) ?_
  intro last
  exact Choice.Refines.refl _

theorem decorateCommands_refines (d : Decorated) (cmds : List MoveSequenceCall) :
    Choice.Refines (decorateCommands st append d cmds) (decorateCommands st append' d cmds) := by
  induction cmds generalizing d with
  | nil => exact Choice.Refines.refl _
  | cons cmd cmds ih =>
    apply Choice.refines_bind
    · unfold decorateCommand
      apply Choice.refines_then
      intro remapped
      split
      · split
        · exact handleFunctionCallHooks_refines st _ _ happend _ _ _ _
        · exact Choice.Refines.refl _
      · exact Choice.Refines.refl _
    · intro next
      exact ih next

theorem insertHooks_refines (base : MoveSequence) :
    Choice.Refines (insertHooks st append base) (insertHooks st append' base) := by
  unfold insertHooks
  refine Choice.refines_bind _ _ _ _ (appendContextCreation_refines st _ _ happend _) ?_
  intro h
  obtain ⟨globalCtx, ptb⟩ := h
  refine Choice.refines_bind _ _ _ _ (appendHookCalls_refines st _ _ happend _ _ _ _) ?_
  intro before
  refine Choice.refines_bind _ _ _ _ (decorateCommands_refines st _ _ happend _ _) ?_
  intro d
  refine Choice.refines_bind _ _ _ _ (appendHookCalls_refines st _ _ happend _ _ _ _) ?_
  intro after
  exact appendContextDestruction_refines st _ _ happend _ _

theorem decorate_refines (base : MoveSequence) :
    Choice.Refines (decorate st append base) (decorate st append' base) :=
  Choice.refines_bind _ _ _ _ (insertHooks_refines st _ _ happend base) fun _ =>
    Choice.Refines.refl _

end

/-! ### Counting commands -/

/- The commands of a kind. -/
def countOf (p : MoveSequenceCall → Bool) (ptb : MoveSequence) : ℕ := ptb.commands.countP p

theorem Grows.countOf_le {P : MoveSequenceCall → Prop} {a b : MoveSequence} (h : Grows P a b)
    (p : MoveSequenceCall → Bool) : countOf p a ≤ countOf p b :=
  h.commands.sublist.countP_le

theorem countOf_concat (p : MoveSequenceCall → Bool) (ptb : MoveSequence)
    (cmd : MoveSequenceCall) : countOf p { ptb with commands := ptb.commands ++ [cmd] } =
      countOf p ptb + if p cmd then 1 else 0 := by
  simp [countOf, List.countP_append, List.countP_cons]

section

variable (p : MoveSequenceCall → Bool) (st : FuzzState)
  (append append' : MoveSequence → FunctionIdent → TyArgs → List SequenceArgument →
    Choice (Option Appended × MoveSequence))
  (hcuts : ∀ ptb ident tyArgs used,
    Choice.CutsAbove (append ptb ident tyArgs used) (append' ptb ident tyArgs used)
      (countOf p ptb) fun r => countOf p r.2)
  (hgrows : ∀ ptb ident tyArgs used,
    Choice.Ensures (append' ptb ident tyArgs used) fun r => GrowsFreely ptb r.2)

include hcuts

theorem produceArg_cuts (ident : FunctionIdent) (tyArgs : TyArgs) (d : Draft)
    (param : MoveAbiSignatureToken) :
    Choice.CutsAbove (produceArg st ident tyArgs append d param)
      (produceArg st ident tyArgs append' d param) (countOf p d.ptb) fun r => countOf p r.2 := by
  simp only [produceArg]
  by_cases hfuncs : (st.typeGraph.findProducers (param.partialSubst tyArgs) ident).isEmpty
  · rw [if_pos hfuncs, if_pos hfuncs]
    exact Choice.cutsAbove_pure _ _ _ (Nat.le_refl _)
  · rw [if_neg hfuncs, if_neg hfuncs]
    apply Choice.cutsAbove_then
    intro preFunc _
    split
    · exact Choice.cutsAbove_pure _ _ _ (Nat.le_refl _)
    · split
      · exact Choice.cutsAbove_pure _ _ _ (Nat.le_refl _)
      · refine Choice.cutsAbove_bind _ _ _ _ _ 0 _ _ (hcuts _ _ _ _) ?_
        rintro ⟨r, ptb⟩ _
        cases r with
        | none => exact Choice.cutsAbove_pure _ _ _ (Nat.le_refl _)
        | some appended =>
          apply Choice.cutsAbove_then
          intro newCall _
          apply Choice.cutsAbove_then
          intro settled _
          apply Choice.cutsAbove_then
          intro ret _
          exact Choice.cutsAbove_pure _ _ _ (Nat.le_refl _)

include hgrows

theorem partialArgs_cuts (ident : FunctionIdent) (inputLen : ℕ) (fixedArgs : FixedArgs)
    (tyArgs : TyArgs) (params : List (MoveAbiSignatureToken × ℕ))
    (args : List (Option SequenceArgument)) (d : Draft) :
    Choice.CutsAbove (partialArgs st ident inputLen fixedArgs tyArgs append params args d)
      (partialArgs st ident inputLen fixedArgs tyArgs append' params args d) (countOf p d.ptb)
      fun r => countOf p r.2 := by
  induction params generalizing args d with
  | nil => exact Choice.cutsAbove_pure _ _ _ (Nat.le_refl _)
  | cons e rest ih =>
    obtain ⟨param, i⟩ := e
    unfold partialArgs
    split
    · exact ih args _
    · split_ifs
      · exact ih args d
      · split
        · exact Choice.cutsAbove_panic _ _
        · exact ih _ _
        · refine Choice.cutsAbove_bind _ _ _ _ _ 0 _ _
            (produceArg_cuts p st append append' hcuts ident tyArgs d param) ?_
          rintro ⟨r, ptb⟩ hyields
          cases r with
          | none => exact Choice.cutsAbove_pure _ _ _ (Nat.le_refl _)
          | some next =>
            obtain ⟨_, hnext⟩ :=
              (produceArg_grows st append' hgrows ident tyArgs d param).of_yields hyields
            have hptb : next.ptb = ptb := hnext next rfl
            show Choice.CutsAbove _ _ (countOf p ptb) _
            rw [← hptb]
            exact ih _ next
      · apply Choice.cutsAbove_then
        intro v _
        exact ih args _

theorem appendStep_cuts (ptb : MoveSequence) (ident : FunctionIdent) (fixedArgs : FixedArgs)
    (fixedTyArgs : TyArgs) (used : List SequenceArgument) (disableSplit : Bool) :
    Choice.CutsAbove (appendStep st append ptb ident fixedArgs fixedTyArgs used disableSplit)
      (appendStep st append' ptb ident fixedArgs fixedTyArgs used disableSplit) (countOf p ptb)
      fun r => countOf p r.2 := by
  have hfinish : ∀ function inputLen ptb' arguments typeArguments inputs,
      Choice.CutsAbove (finishAppend function ident disableSplit inputLen ptb' arguments
        typeArguments inputs) (finishAppend function ident disableSplit inputLen ptb' arguments
        typeArguments inputs) (countOf p ptb') fun r => countOf p r.2 := by
    intro function inputLen ptb' arguments typeArguments inputs
    exact ⟨(finishAppend_grows _ _ _ _ ptb' _ _ _).mono fun r hr => hr.countOf_le p,
      Choice.cuts_refl _ _⟩
  unfold appendStep
  apply Choice.cutsAbove_then
  intro objectData _
  apply Choice.cutsAbove_then
  intro function _
  apply Choice.cutsAbove_then
  intro result _
  cases result with
  | unsolvable => exact Choice.cutsAbove_pure _ _ _ (Nat.le_refl _)
  | ok args tyArgs inputs =>
    apply Choice.cutsAbove_then
    intro built _
    exact hfinish _ _ _ _ _ _
  | partialFound args tyArgs inputs =>
    refine Choice.cutsAbove_bind _ _ _ _ _ 0 _ _
      (partialArgs_cuts p st append append' hcuts hgrows _ _ _ _ _ _ _) ?_
    rintro ⟨r, ptb'⟩ hyields
    obtain ⟨_, hnext⟩ :=
      (partialArgs_grows st append' hgrows _ _ _ _ _ _ _).of_yields hyields
    cases r with
    | none => exact Choice.cutsAbove_pure _ _ _ (Nat.le_refl _)
    | some d =>
      apply Choice.cutsAbove_then
      intro tyArgs' _
      have hptb : d.ptb = ptb' := hnext d rfl
      show Choice.CutsAbove _ _ (countOf p ptb') _
      rw [← hptb]
      exact hfinish _ _ _ _ _ _

end

/-! ### Counting while decorating -/

section

variable (p : MoveSequenceCall → Bool) (st : FuzzState)
  (append append' : MoveSequence → FunctionIdent → FixedArgs → TyArgs → List SequenceArgument →
    Choice (Option Appended × MoveSequence))
  (hcuts : ∀ ptb ident fixedArgs fixedTyArgs used,
    Choice.CutsAbove (append ptb ident fixedArgs fixedTyArgs used)
      (append' ptb ident fixedArgs fixedTyArgs used) (countOf p ptb) fun r => countOf p r.2)

include hcuts

theorem appendHookCalls_cuts (target : Option (MoveCall × MoveFunctionAbi))
    (ctxArg : Option SequenceArgument) (ptb : MoveSequence) (hooks : List FunctionIdent) :
    Choice.CutsAbove (appendHookCalls st append target ctxArg ptb hooks)
      (appendHookCalls st append' target ctxArg ptb hooks) (countOf p ptb) (countOf p) := by
  induction hooks generalizing ptb with
  | nil => exact Choice.cutsAbove_pure _ _ _ (Nat.le_refl _)
  | cons hook hooks ih =>
    refine Choice.cutsAbove_bind _ _ _ _ (countOf p ptb) 0 (countOf p) _ ?_ fun mid _ => ih mid
    unfold appendHookCall
    split
    · exact Choice.cutsAbove_pure _ _ _ (Nat.le_refl _)
    · split
      · exact Choice.cutsAbove_pure _ _ _ (Nat.le_refl _)
      · exact Choice.cutsAbove_bind _ _ _ _ _ 0 _ _ (hcuts _ _ _ _ _) fun r _ =>
          Choice.cutsAbove_pure _ _ _ (Nat.le_refl _)

theorem appendContextCreation_cuts (ptb : MoveSequence) :
    Choice.CutsAbove (appendContextCreation st append ptb) (appendContextCreation st append' ptb)
      (countOf p ptb) fun r => countOf p r.2 := by
  unfold appendContextCreation
  split
  · exact Choice.cutsAbove_pure _ _ _ (Nat.le_refl _)
  · exact Choice.cutsAbove_bind _ _ _ _ _ 0 _ _ (hcuts _ _ _ _ _) fun r _ =>
      Choice.cutsAbove_pure _ _ _ (Nat.le_refl _)

theorem appendContextDestruction_cuts (ptb : MoveSequence) (ctxArg : Option SequenceArgument) :
    Choice.CutsAbove (appendContextDestruction st append ptb ctxArg)
      (appendContextDestruction st append' ptb ctxArg) (countOf p ptb) (countOf p) := by
  unfold appendContextDestruction
  split
  · exact Choice.cutsAbove_bind _ _ _ _ _ 0 _ _ (hcuts _ _ _ _ _) fun r _ =>
      Choice.cutsAbove_pure _ _ _ (Nat.le_refl _)
  · exact Choice.cutsAbove_pure _ _ _ (Nat.le_refl _)

theorem handleFunctionCallHooks_cuts (d : Decorated) (remappedCall : MoveCall)
    (abi : MoveFunctionAbi) (hooks : FunctionHook) :
    Choice.CutsAbove (handleFunctionCallHooks st append d remappedCall abi hooks)
      (handleFunctionCallHooks st append' d remappedCall abi hooks)
      (countOf p d.ptb + if p (.call remappedCall) then 1 else 0) fun r => countOf p r.ptb := by
  unfold handleFunctionCallHooks
  refine Choice.cutsAbove_bind _ _ _ _ _ _ _ _
    (appendContextCreation_cuts p st append append' hcuts _) ?_
  rintro ⟨hookCtx, ptb⟩ _
  refine Choice.cutsAbove_bind _ _ _ _ _ _ _ _
    (appendHookCalls_cuts p st append append' hcuts _ _ _ _) ?_
  intro before _
  -- here the call itself is appended
  rw [← countOf_concat]
  refine Choice.cutsAbove_bind _ _ _ _ _ 0 _ _
    (appendHookCalls_cuts p st append append' hcuts _ _ _ _) ?_
  intro after _
  refine Choice.cutsAbove_bind _ _ _ _ _ 0 _ _
    (appendContextDestruction_cuts p st append append' hcuts _ _) ?_
  intro last _
  exact Choice.cutsAbove_pure _ _ _ (Nat.le_refl _)

variable (hkind : ∀ cmd mapping cmd', remapCommand cmd mapping = some cmd' → p cmd' = p cmd)

include hkind

theorem decorateCommands_cuts (d : Decorated) (cmds : List MoveSequenceCall) :
    Choice.CutsAbove (decorateCommands st append d cmds) (decorateCommands st append' d cmds)
      (countOf p d.ptb + cmds.countP p) fun r => countOf p r.ptb := by
  induction cmds generalizing d with
  | nil => exact Choice.cutsAbove_pure _ _ _ (Nat.le_refl _)
  | cons cmd cmds ih =>
    have hcount : countOf p d.ptb + (cmd :: cmds).countP p =
        countOf p d.ptb + (if p cmd then 1 else 0) + cmds.countP p := by
      rw [List.countP_cons]
      omega
    rw [hcount]
    refine Choice.cutsAbove_bind _ _ _ _ _ _ (fun r => countOf p r.ptb) _ ?_ fun next _ => ih next
    unfold decorateCommand
    apply Choice.cutsAbove_then
    intro remapped hremapped
    rw [← hkind cmd d.indexMap remapped (Choice.yields_expect _ _ hremapped)]
    have hplain : ∀ cmd', Choice.CutsAbove (pure (appendCommand d cmd')) (pure (appendCommand d cmd'))
        (countOf p d.ptb + if p cmd' then 1 else 0) fun r => countOf p r.ptb := by
      intro cmd'
      apply Choice.cutsAbove_pure
      exact (countOf_concat p d.ptb cmd').ge
    cases remapped with
    | call remappedCall =>
      dsimp only
      split
      · exact handleFunctionCallHooks_cuts p st append append' hcuts _ _ _ _
      · exact hplain _
    | _ => exact hplain _

/- Where the decoration is cut off, more commands have been put in than the base has. -/
theorem insertHooks_cuts (base : MoveSequence) :
    Choice.CutsAbove (insertHooks st append base) (insertHooks st append' base)
      (base.commands.countP p) (countOf p) := by
  have hstart : base.commands.countP p =
      countOf p ⟨base.inputs, []⟩ + base.commands.countP p := (Nat.zero_add _).symm
  rw [hstart]
  unfold insertHooks
  refine Choice.cutsAbove_bind _ _ _ _ _ _ _ _
    (appendContextCreation_cuts p st append append' hcuts _) ?_
  rintro ⟨globalCtx, ptb⟩ _
  refine Choice.cutsAbove_bind _ _ _ _ _ _ _ _
    (appendHookCalls_cuts p st append append' hcuts _ _ _ _) ?_
  intro before _
  refine Choice.cutsAbove_bind _ _ _ _ _ 0 (fun r => countOf p r.ptb) _
    (decorateCommands_cuts p st append append' hcuts hkind _ _) ?_
  intro d _
  exact Choice.cutsAbove_bind _ _ _ _ _ 0 _ _
    (appendHookCalls_cuts p st append append' hcuts _ _ _ _) fun after _ =>
      appendContextDestruction_cuts p st append append' hcuts _ _

end

end Movy.Fuzz
