import Movy.Fuzz.Strip

/-!
# What a failed append leaves behind

The producers of arguments are appended before it is known whether the other
arguments can be found. A failure does not take them back.
-/

namespace Movy.Fuzz

open Movy.Types Movy.Store MoveAbiSignatureToken

/-- The call for a producer, cut off when it has succeeded. -/
def cutProducer (append : Choice (Option Appended × MoveSequence)) :
    Choice (Option Appended × MoveSequence) := do
  let r ← append
  if r.1.isSome then Choice.panic else pure r

/-- `append_function` up to the first producer that was appended, on any level. -/
def appendAlone (st : FuzzState) : ℕ → MoveSequence → FunctionIdent → FixedArgs → TyArgs →
    List SequenceArgument → Bool → Choice (Option Appended × MoveSequence)
  | 0, ptb, _, _, _, _, _ => pure (none, ptb)
  | fuel + 1, ptb, ident, fixedArgs, fixedTyArgs, usedArguments, disableSplit =>
    appendStep st
      (fun ptb ident tyArgs used => cutProducer
        (appendAlone st fuel ptb ident SortedMap.empty tyArgs used false))
      ptb ident fixedArgs fixedTyArgs usedArguments disableSplit

/-! ### Failure and success at the end -/

theorem finishAppend_outcome (function : MoveFunctionAbi) (ident : FunctionIdent)
    (disableSplit : Bool) (inputLen : ℕ) (ptb : MoveSequence) (arguments : List SequenceArgument)
    (typeArguments : List MoveTypeTag) (inputs : List InputArgument) :
    Choice.Ensures (finishAppend function ident disableSplit inputLen ptb arguments typeArguments
      inputs) fun r => (r.1 = none → r.2 = ptb) ∧ (r.1.isSome = true →
        ptb.commands.length < r.2.commands.length) := by
  refine (finishAppend_cases _ _ _ _ _ _ _ _).mono ?_
  intro r hr
  rcases hr with rfl | ⟨_, split, added, call, rfl, _, hgrows, _⟩
  · constructor
    · intro _
      rfl
    · intro h
      cases h
  · constructor
    · intro h
      cases h
    · intro _
      have hle := hgrows.commands.length_le
      show ptb.commands.length < (split.commands ++ [_]).length
      rw [List.length_append, List.length_singleton]
      omega

/-! ### A failure without producers -/

theorem partialArgs_failed (st : FuzzState)
    (append : MoveSequence → FunctionIdent → TyArgs → List SequenceArgument →
      Choice (Option Appended × MoveSequence))
    (happend : ∀ ptb ident tyArgs used,
      Choice.Ensures (append ptb ident tyArgs used) fun r => r.1 = none ∧ r.2 = ptb)
    (ident : FunctionIdent) (inputLen : ℕ) (fixedArgs : FixedArgs)
    (tyArgs : TyArgs) (params : List (MoveAbiSignatureToken × ℕ))
    (args : List (Option SequenceArgument)) (d : Draft) :
    Choice.Ensures (partialArgs st ident inputLen fixedArgs tyArgs append params args d) fun r =>
      r.2 = d.ptb ∧ ∀ next, r.1 = some next → next.ptb = d.ptb := by
  induction params generalizing args d with
  | nil =>
    apply Choice.ensures_pure
    refine ⟨rfl, fun next h => ?_⟩
    rw [← Option.some.inj h]
  | cons p rest ih =>
    obtain ⟨param, i⟩ := p
    unfold partialArgs
    split
    · exact ih args _
    · split_ifs
      · exact ih args d
      · split
        · exact Choice.ensures_panic _
        · exact ih _ _
        · have hproduce : Choice.Ensures (produceArg st ident tyArgs append d param)
              fun r => r = (none, d.ptb) := by
            simp only [produceArg]
            by_cases hfuncs : (st.typeGraph.findProducers (param.partialSubst tyArgs) ident).isEmpty
            · rw [if_pos hfuncs]
              exact Choice.ensures_pure _ _ rfl
            · rw [if_neg hfuncs]
              apply Choice.ensures_then
              intro preFunc
              split
              · exact Choice.ensures_pure _ _ rfl
              · split
                · exact Choice.ensures_pure _ _ rfl
                · refine Choice.ensures_bind _ _ _ _ (happend _ _ _ _) ?_
                  rintro ⟨r, ptb⟩ ⟨hnone, hptb⟩
                  obtain rfl : r = none := hnone
                  obtain rfl : ptb = d.ptb := hptb
                  exact Choice.ensures_pure _ _ rfl
          refine Choice.ensures_bind _ _ _ _ hproduce ?_
          rintro r rfl
          exact Choice.ensures_pure _ _ ⟨rfl, fun next h => by cases h⟩
      · apply Choice.ensures_then
        intro v
        exact ih args _

theorem appendStep_failed (st : FuzzState)
    (append : MoveSequence → FunctionIdent → TyArgs → List SequenceArgument →
      Choice (Option Appended × MoveSequence))
    (happend : ∀ ptb ident tyArgs used,
      Choice.Ensures (append ptb ident tyArgs used) fun r => r.1 = none ∧ r.2 = ptb)
    (ptb : MoveSequence) (ident : FunctionIdent) (fixedArgs : FixedArgs) (fixedTyArgs : TyArgs)
    (used : List SequenceArgument) (disableSplit : Bool) :
    Choice.Ensures (appendStep st append ptb ident fixedArgs fixedTyArgs used disableSplit)
      fun r => r.1 = none → r.2 = ptb := by
  refine appendStep_ensures st append (fun ptb' => ptb' = ptb) _ ptb ident fixedArgs fixedTyArgs
    used disableSplit rfl ?_ ?_ ?_
  · intro ptb' hptb _
    exact hptb
  · intro inputLen tyArgs params args d hd
    rw [← hd]
    exact partialArgs_failed st append happend ident inputLen fixedArgs tyArgs params args d
  · intro function inputLen ptb' arguments typeArguments inputs hptb
    rw [← hptb]
    exact (finishAppend_outcome function ident disableSplit inputLen ptb' arguments typeArguments
      inputs).mono fun _ h => h.1

theorem appendAlone_failed (st : FuzzState) (fuel : ℕ) (ptb : MoveSequence) (ident : FunctionIdent)
    (fixedArgs : FixedArgs) (fixedTyArgs : TyArgs) (used : List SequenceArgument)
    (disableSplit : Bool) :
    Choice.Ensures (appendAlone st fuel ptb ident fixedArgs fixedTyArgs used disableSplit)
      fun r => r.1 = none → r.2 = ptb := by
  induction fuel generalizing ptb ident fixedArgs fixedTyArgs used disableSplit with
  | zero => exact Choice.ensures_pure _ _ fun _ => rfl
  | succ fuel ih =>
    apply appendStep_failed
    intro ptb ident tyArgs used
    refine Choice.ensures_bind _ _ _ _ (ih ptb ident SortedMap.empty tyArgs used false) ?_
    rintro ⟨r, ptb'⟩ hr
    cases r with
    | none => exact Choice.ensures_pure _ _ ⟨rfl, hr rfl⟩
    | some appended => exact Choice.ensures_panic _

theorem cutProducer_refines (x y : Choice (Option Appended × MoveSequence))
    (h : Choice.Refines x y) : Choice.Refines (cutProducer x) y := by
  intro rs r hr
  obtain ⟨a, mid, ha, hr⟩ := (Choice.bind_eq_some _ _ rs r).mp hr
  split_ifs at hr with hsome
  · cases hr
  · rw [(Choice.pure_eq_some a mid r).mp hr]
    exact h rs _ ha

theorem appendAlone_refines (st : FuzzState) (fuel : ℕ) (ptb : MoveSequence) (ident : FunctionIdent)
    (fixedArgs : FixedArgs) (fixedTyArgs : TyArgs) (used : List SequenceArgument)
    (disableSplit : Bool) :
    Choice.Refines (appendAlone st fuel ptb ident fixedArgs fixedTyArgs used disableSplit)
      (appendFunction st fuel ptb ident fixedArgs fixedTyArgs used disableSplit) := by
  induction fuel generalizing ptb ident fixedArgs fixedTyArgs used disableSplit with
  | zero => exact Choice.Refines.refl _
  | succ fuel ih =>
    apply appendStep_refines
    intro ptb ident tyArgs used
    exact cutProducer_refines _ _ (ih ptb ident SortedMap.empty tyArgs used false)

/-! ### A run that is cut off has grown -/

theorem appendFunction_longer (st : FuzzState) (fuel : ℕ) (ptb : MoveSequence)
    (ident : FunctionIdent) (fixedArgs : FixedArgs) (fixedTyArgs : TyArgs)
    (used : List SequenceArgument) (disableSplit : Bool) :
    Choice.Ensures (appendFunction st fuel ptb ident fixedArgs fixedTyArgs used disableSplit)
      fun r => r.1.isSome = true → ptb.commands.length < r.2.commands.length := by
  cases fuel with
  | zero => exact Choice.ensures_pure _ _ fun h => by cases h
  | succ fuel =>
    refine appendStep_ensures st _ (GrowsFreely ptb) _ ptb ident fixedArgs fixedTyArgs used
      disableSplit (Grows.refl _ ptb) ?_ ?_ ?_
    · intro ptb' _ h
      cases h
    · intro inputLen tyArgs params args d hd
      refine (partialArgs_grows st _ (fun ptb ident tyArgs used => appendFunction_grows st fuel ptb
        ident SortedMap.empty tyArgs used false) ident inputLen fixedArgs tyArgs params args d).mono ?_
      intro r hr
      have hgrown : GrowsFreely ptb r.2 := hd.trans hr.1
      exact ⟨hgrown, fun next hnext => hr.2 next hnext ▸ hgrown⟩
    · intro function inputLen ptb' arguments typeArguments inputs hgrown
      refine (finishAppend_outcome function ident disableSplit inputLen ptb' arguments typeArguments
        inputs).mono fun r hr hsome => ?_
      exact Nat.lt_of_le_of_lt hgrown.commands.length_le (hr.2 hsome)

theorem appendAlone_cuts (st : FuzzState) (fuel : ℕ) (ptb : MoveSequence) (ident : FunctionIdent)
    (fixedArgs : FixedArgs) (fixedTyArgs : TyArgs) (used : List SequenceArgument)
    (disableSplit : Bool) :
    Choice.CutsAbove (appendAlone st fuel ptb ident fixedArgs fixedTyArgs used disableSplit)
      (appendFunction st fuel ptb ident fixedArgs fixedTyArgs used disableSplit)
      (countOf (fun _ => true) ptb) fun r => countOf (fun _ => true) r.2 := by
  induction fuel generalizing ptb ident fixedArgs fixedTyArgs used disableSplit with
  | zero => exact Choice.cutsAbove_pure _ _ _ (Nat.le_refl _)
  | succ fuel ih =>
    apply appendStep_cuts
    · intro ptb ident tyArgs used
      refine ⟨(ih ptb ident SortedMap.empty tyArgs used false).least, ?_⟩
      intro rs r rest h
      rcases (ih ptb ident SortedMap.empty tyArgs used false).cuts rs r rest h with halone | hlonger
      · by_cases hsome : r.1.isSome = true
        · have hlonger := appendFunction_longer st fuel _ _ _ _ _ _ rs r rest h hsome
          refine .inr ?_
          simpa only [countOf, List.countP_true] using hlonger
        · refine .inl ((Choice.bind_eq _ _ rs rest r halone).trans ?_)
          rw [if_neg hsome]
          rfl
      · exact .inr hlonger
    · intro ptb ident tyArgs used
      exact appendFunction_grows st fuel ptb ident SortedMap.empty tyArgs used false

/-! ### The callers that ignore the failure -/

def hookAlone (st : FuzzState) (ptb : MoveSequence) (ident : FunctionIdent) (fixedArgs : FixedArgs)
    (fixedTyArgs : TyArgs) (used : List SequenceArgument) :
    Choice (Option Appended × MoveSequence) :=
  appendAlone st 11 ptb ident fixedArgs fixedTyArgs used true

/-- The runs of `hookAppend` that fail. -/
def hookFailing (st : FuzzState) (ptb : MoveSequence) (ident : FunctionIdent) (fixedArgs : FixedArgs)
    (fixedTyArgs : TyArgs) (used : List SequenceArgument) :
    Choice (Option Appended × MoveSequence) := do
  let r ← hookAppend st ptb ident fixedArgs fixedTyArgs used
  if r.1.isSome then Choice.panic else pure r

theorem appendFunction_failed_iff (st : FuzzState) (fuel : ℕ) (ptb ptb' : MoveSequence)
    (ident : FunctionIdent) (fixedArgs : FixedArgs) (fixedTyArgs : TyArgs)
    (used : List SequenceArgument) (disableSplit : Bool) (rs rest : List ℕ)
    (h : appendFunction st fuel ptb ident fixedArgs fixedTyArgs used disableSplit rs =
      some ((none, ptb'), rest)) :
    ptb' = ptb ↔
      (appendAlone st fuel ptb ident fixedArgs fixedTyArgs used disableSplit rs).isSome = true := by
  constructor
  · rintro rfl
    rcases (appendAlone_cuts st fuel ptb' ident fixedArgs fixedTyArgs used disableSplit).cuts rs _
      rest h with halone | hlonger
    · rw [halone]
      rfl
    · exact absurd hlonger (Nat.lt_irrefl _)
  · intro hsome
    obtain ⟨r, hr⟩ := Option.isSome_iff_exists.mp hsome
    have hfull := appendAlone_refines st fuel ptb ident fixedArgs fixedTyArgs used disableSplit rs r hr
    rw [h, Option.some.injEq] at hfull
    subst hfull
    exact appendAlone_failed st fuel ptb ident fixedArgs fixedTyArgs used disableSplit rs _ rest hr rfl

theorem hookFailing_iff {β : Type} (st : FuzzState) (ptb : MoveSequence) (ident : FunctionIdent)
    (fixedArgs : FixedArgs) (fixedTyArgs : TyArgs) (used : List SequenceArgument)
    (f : Option Appended × MoveSequence → β) (b : β) (rs rest : List ℕ)
    (h : (hookFailing st ptb ident fixedArgs fixedTyArgs used >>= fun r => pure (f r)) rs =
      some (b, rest)) :
    ∃ ptb', b = f (none, ptb') ∧ (ptb' = ptb ↔
      ((hookAlone st ptb ident fixedArgs fixedTyArgs used >>= fun r => pure (f r)) rs).isSome = true) := by
  obtain ⟨r, mid, hfailing, hpure⟩ := (Choice.bind_eq_some _ _ rs (b, rest)).mp h
  obtain ⟨rfl, rfl⟩ := Prod.mk.inj ((Choice.pure_eq_some _ mid _).mp hpure)
  obtain ⟨⟨result, ptb'⟩, mid', hrun, hnone⟩ := (Choice.bind_eq_some _ _ rs _).mp hfailing
  split_ifs at hnone with hsome
  · cases hnone
  obtain ⟨rfl, rfl⟩ := Prod.mk.inj ((Choice.pure_eq_some _ mid' _).mp hnone)
  obtain rfl : result = none := Option.not_isSome_iff_eq_none.mp hsome
  refine ⟨ptb', rfl, ?_⟩
  rw [appendFunction_failed_iff st 11 ptb ptb' ident fixedArgs fixedTyArgs used true rs _ hrun]
  constructor
  · intro halone
    obtain ⟨r, hr⟩ := Option.isSome_iff_exists.mp halone
    rw [Choice.bind_eq (hookAlone st ptb ident fixedArgs fixedTyArgs used) _ rs r.2 r.1 hr]
    rfl
  · intro hbind
    obtain ⟨r, hr⟩ := Option.isSome_iff_exists.mp hbind
    obtain ⟨a, mid, ha, -⟩ := (Choice.bind_eq_some _ _ rs r).mp hr
    show (hookAlone st ptb ident fixedArgs fixedTyArgs used rs).isSome = true
    rw [ha]
    rfl

/-- A failed append, a failed hook call and a failed creation or destruction of a
context leave the sequence alone exactly if the run fails before a producer was
appended. -/
theorem failed_append_atomic_iff (st : FuzzState) :
    (∀ fuel ptb ident fixedArgs fixedTyArgs used disableSplit rs ptb' rest,
      appendFunction st fuel ptb ident fixedArgs fixedTyArgs used disableSplit rs =
        some ((none, ptb'), rest) →
      (ptb' = ptb ↔
        (appendAlone st fuel ptb ident fixedArgs fixedTyArgs used disableSplit rs).isSome = true)) ∧
    (∀ ptb hook target ctxArg rs ptb' rest,
      appendHookCall st (hookFailing st) ptb hook target ctxArg rs = some (ptb', rest) →
      (ptb' = ptb ↔ (appendHookCall st (hookAlone st) ptb hook target ctxArg rs).isSome = true)) ∧
    (∀ ptb rs ctx ptb' rest,
      appendContextCreation st (hookFailing st) ptb rs = some ((ctx, ptb'), rest) →
      (ptb' = ptb ↔ (appendContextCreation st (hookAlone st) ptb rs).isSome = true)) ∧
    (∀ ptb ctxArg rs ptb' rest,
      appendContextDestruction st (hookFailing st) ptb ctxArg rs = some (ptb', rest) →
      (ptb' = ptb ↔ (appendContextDestruction st (hookAlone st) ptb ctxArg rs).isSome = true)) := by
  refine ⟨?_, ?_, ?_, ?_⟩
  · intro fuel ptb ident fixedArgs fixedTyArgs used disableSplit rs ptb' rest h
    exact appendFunction_failed_iff st fuel ptb ptb' ident fixedArgs fixedTyArgs used disableSplit
      rs rest h
  · intro ptb hook target ctxArg rs ptb' rest h
    cases habi : st.getFunction hook.moduleId.moduleAddress hook.moduleId.moduleName
        hook.function with
    | none =>
      simp only [appendHookCall, habi] at h ⊢
      rw [(Prod.mk.inj ((Choice.pure_eq_some _ rs _).mp h)).1]
      exact iff_of_true rfl rfl
    | some hookAbi =>
      cases hargs : hookArgs hookAbi target ctxArg with
      | none =>
        simp only [appendHookCall, habi, hargs] at h ⊢
        rw [(Prod.mk.inj ((Choice.pure_eq_some _ rs _).mp h)).1]
        exact iff_of_true rfl rfl
      | some args =>
        simp only [appendHookCall, habi, hargs] at h ⊢
        obtain ⟨_, rfl, hiff⟩ := hookFailing_iff st ptb hook _ _ _ (fun r => r.2) ptb' rs rest h
        exact hiff
  · intro ptb rs ctx ptb' rest h
    cases hidents : contextIdents st with
    | none =>
      simp only [appendContextCreation, hidents] at h ⊢
      rw [(Prod.mk.inj (Prod.mk.inj ((Choice.pure_eq_some _ rs _).mp h)).1).2]
      exact iff_of_true rfl rfl
    | some idents =>
      simp only [appendContextCreation, hidents] at h ⊢
      obtain ⟨_, heq, hiff⟩ := hookFailing_iff st ptb _ _ _ _
        (fun r => (r.1.bind fun appended => appended.2.head?, r.2)) (ctx, ptb') rs rest h
      rw [(Prod.mk.inj heq).2]
      exact hiff
  · intro ptb ctxArg rs ptb' rest h
    have hpure : ∀ x y : Choice MoveSequence, x = pure ptb → y = pure ptb →
        x rs = some (ptb', rest) → (ptb' = ptb ↔ (y rs).isSome = true) := by
      rintro x y rfl rfl hx
      rw [(Prod.mk.inj ((Choice.pure_eq_some _ rs _).mp hx)).1]
      exact iff_of_true rfl rfl
    cases ctxArg with
    | none => exact hpure _ _ rfl rfl h
    | some ctx =>
      cases hidents : contextIdents st with
      | none =>
        exact hpure _ _ (by simp only [appendContextDestruction, hidents])
          (by simp only [appendContextDestruction, hidents]) h
      | some idents =>
        cases hty : destroyParamTy st with
        | none =>
          exact hpure _ _ (by simp only [appendContextDestruction, hidents, hty])
            (by simp only [appendContextDestruction, hidents, hty]) h
        | some paramTy =>
          simp only [appendContextDestruction, hidents, hty] at h ⊢
          obtain ⟨_, rfl, hiff⟩ := hookFailing_iff st ptb _ _ _ _ (fun r => r.2) ptb' rs rest h
          exact hiff

/-- A ticket can be opened, a key cannot; both functions ask for both. -/
def keyHandle : MoveStructHandle := ⟨ticketModule, "Key", ⟨false, true, false, false⟩, []⟩

def pairState : FuzzState :=
  { FuzzState.ofModule ⟨ticketModule,
      [⟨"open", [], [.struct ticketHandle], [], .public_⟩,
        ⟨"create_context", [.reference (.struct ticketHandle), .reference (.struct keyHandle)], [],
          [], .public_⟩,
        ⟨"destroy_context",
          [.u64, .reference (.struct ticketHandle), .reference (.struct keyHandle)], [], [],
          .public_⟩,
        ⟨"unlock", [.reference (.struct keyHandle)], [], [], .public_⟩],
      [ticketHandle, keyHandle]⟩ with
    functionNameToIdents := fun name =>
      if name = "create_context" ∨ name = "destroy_context" then some [⟨ticketModule, name⟩]
      else none }

theorem failed_append_atomic_iff_unlock :
    appendFunction pairState 11 ⟨[], []⟩ ⟨ticketModule, "unlock"⟩ SortedMap.empty SortedMap.empty []
      true [0] = some ((none, ⟨[], []⟩), []) ∧
    ((⟨[], []⟩ : MoveSequence) = ⟨[], []⟩ ↔
      (appendAlone pairState 11 ⟨[], []⟩ ⟨ticketModule, "unlock"⟩ SortedMap.empty SortedMap.empty []
        true [0]).isSome = true) := by
  have hrun : appendFunction pairState 11 ⟨[], []⟩ ⟨ticketModule, "unlock"⟩ SortedMap.empty
      SortedMap.empty [] true [0] = some ((none, ⟨[], []⟩), []) := by rfl
  exact ⟨hrun, (failed_append_atomic_iff pairState).1 11 ⟨[], []⟩ _ _ _ _ _ _ _ _ hrun⟩

/-- The opening of the ticket stays behind. -/
theorem failed_append_leaves_producer :
    appendFunction pairState 11 ⟨[], []⟩ ⟨ticketModule, "create_context"⟩ SortedMap.empty
        SortedMap.empty [] true [0, 0, 0] = some ((none, ⟨[], [ticketCall "open" []]⟩), []) ∧
    appendHookCall pairState (hookAppend pairState) ⟨[], []⟩ ⟨ticketModule, "create_context"⟩ none
        none [0, 0, 0] = some (⟨[], [ticketCall "open" []]⟩, []) ∧
    appendContextCreation pairState (hookAppend pairState) ⟨[], []⟩ [0, 0, 0] =
        some ((none, ⟨[], [ticketCall "open" []]⟩), []) ∧
    appendContextDestruction pairState (hookAppend pairState) ⟨[], []⟩ (some (.result 7))
        [0, 0, 0] = some (⟨[], [ticketCall "open" []]⟩, []) :=
  ⟨by rfl, by rfl, by rfl, by rfl⟩

end Movy.Fuzz
