import Movy.Fuzz.Settle

/-!
# Producers that agree

What a producer settles replaces the type arguments that an earlier one has
settled. Here `append_function` runs with an assertion behind every producer: the
type arguments from before are kept, those of the comparison are taken over, and
they have the abilities that the function asks for.
-/

namespace Movy.Fuzz

open Movy.Types Movy.Store MoveAbiSignatureToken

/- `Able`, evaluated. -/
def able (st : FuzzState) (abilities : List MoveAbility) (i : ℕ) (ty : MoveTypeTag) : Bool :=
  (abilities[i]?).any fun wanted =>
    (st.getTypeTagAbility ty).any fun found => wanted.isSubsetOf found

theorem able_iff (st : FuzzState) (abilities : List MoveAbility) (i : ℕ) (ty : MoveTypeTag) :
    able st abilities i ty = true ↔ Able st abilities i ty := by
  simp only [able, Able, Option.any_eq_true]
  constructor
  · intro h
    obtain ⟨wanted, hwanted, found, hfound, hsubset⟩ := h
    exact ⟨wanted, found, hwanted, hfound, hsubset⟩
  · intro h
    obtain ⟨wanted, found, hwanted, hfound, hsubset⟩ := h
    exact ⟨wanted, hwanted, found, hfound, hsubset⟩

/- What a comparison says about the type arguments of the consumer: those it binds,
and for those it links what the producer was called with. -/
def comparedTyArgs (argTyArg : TyArgs) (mapping : List (U16 × U16)) (call : MoveCall) :
    List (U16 × MoveTypeTag) :=
  argTyArg.entries ++ mapping.filterMap fun m =>
    (call.typeArguments[m.2.val]?).map fun ty => (m.1, ty)

section

variable (st : FuzzState) (abilities : List MoveAbility) (tyArgs : TyArgs)

/- The assertion, on the drafts before and after a producer. -/
def producerAgrees (d : Draft) (param : MoveAbiSignatureToken) (next : Draft) : Bool :=
  (lastCall next.ptb).any fun call => (st.getCalled call).any fun function =>
    (firstMatch (param.partialSubst tyArgs) 0 function.returnParamters).any fun found =>
      (comparedTyArgs found.1.1 found.1.2.2 call).all (fun e =>
        decide (next.typeArguments.get? e.1 = some e.2) && able st abilities e.1.val e.2) &&
      d.typeArguments.entries.all fun e => decide (next.typeArguments.get? e.1 = some e.2)

variable (ident : FunctionIdent)
  (append : MoveSequence → FunctionIdent → TyArgs → List SequenceArgument →
    Choice (Option Appended × MoveSequence))

def produceArgChecked (d : Draft) (param : MoveAbiSignatureToken) :
    Choice (Option Draft × MoveSequence) := do
  let (r, ptb) ← produceArg st ident tyArgs append d param
  match r with
  | none => pure (none, ptb)
  | some next =>
    if producerAgrees st abilities tyArgs d param next then pure (some next, ptb)
    else Choice.panic

end

/- `append_function` with the assertion, for the arguments of the function itself;
its producers do not assert anything. -/
def appendChecked (st : FuzzState) : ℕ → MoveSequence → FunctionIdent → FixedArgs → TyArgs →
    List SequenceArgument → Bool → Choice (Option Appended × MoveSequence)
  | 0, ptb, _, _, _, _, _ => pure (none, ptb)
  | fuel + 1, ptb, ident, fixedArgs, fixedTyArgs, usedArguments, disableSplit =>
    appendStepWith st
      (fun function tyArgs => produceArgChecked st function.typeParameters tyArgs ident
        (appendProducer st fuel))
      ptb ident fixedArgs fixedTyArgs usedArguments disableSplit

/-! ### Nothing but the assertion is added -/

theorem produceArgChecked_refines (st : FuzzState) (abilities : List MoveAbility) (tyArgs : TyArgs)
    (ident : FunctionIdent)
    (append : MoveSequence → FunctionIdent → TyArgs → List SequenceArgument →
      Choice (Option Appended × MoveSequence)) (d : Draft) (param : MoveAbiSignatureToken) :
    Choice.Refines (produceArgChecked st abilities tyArgs ident append d param)
      (produceArg st ident tyArgs append d param) := by
  intro rs r h
  obtain ⟨⟨found, ptb⟩, mid, hproduce, h⟩ := (Choice.bind_eq_some _ _ rs r).mp h
  cases found with
  | none =>
    rw [(Choice.pure_eq_some _ mid r).mp h]
    exact hproduce
  | some next =>
    dsimp only at h
    split_ifs at h
    · rw [(Choice.pure_eq_some _ mid r).mp h]
      exact hproduce
    · simp [Choice.panic] at h

theorem fillArgs_refines (st : FuzzState) (inputLen : ℕ) (fixedArgs : FixedArgs)
    (produce produce' : Draft → MoveAbiSignatureToken → Choice (Option Draft × MoveSequence))
    (h : ∀ d param, Choice.Refines (produce d param) (produce' d param))
    (params : List (MoveAbiSignatureToken × ℕ)) (slots : List (Option SequenceArgument))
    (d : Draft) :
    Choice.Refines (fillArgs st inputLen fixedArgs produce params slots d)
      (fillArgs st inputLen fixedArgs produce' params slots d) := by
  induction params generalizing slots d with
  | nil => exact Choice.Refines.refl _
  | cons p rest ih =>
    obtain ⟨param, i⟩ := p
    unfold fillArgs
    split
    · exact ih slots _
    · split_ifs
      · exact ih slots d
      · split
        · exact Choice.Refines.refl _
        · exact ih _ _
        · refine Choice.refines_bind _ _ _ _ (h d param) ?_
          intro hall
          obtain ⟨r, ptb⟩ := hall
          cases r with
          | none => exact Choice.Refines.refl _
          | some next => exact ih _ next
      · exact Choice.refines_then _ _ _ fun v => ih slots _

theorem appendStepWith_refines (st : FuzzState)
    (produce produce' : MoveFunctionAbi → TyArgs → Draft → MoveAbiSignatureToken →
      Choice (Option Draft × MoveSequence))
    (h : ∀ function tyArgs d param,
      Choice.Refines (produce function tyArgs d param) (produce' function tyArgs d param))
    (ptb : MoveSequence) (ident : FunctionIdent) (fixedArgs : FixedArgs) (fixedTyArgs : TyArgs)
    (usedArguments : List SequenceArgument) (disableSplit : Bool) :
    Choice.Refines
      (appendStepWith st produce ptb ident fixedArgs fixedTyArgs usedArguments disableSplit)
      (appendStepWith st produce' ptb ident fixedArgs fixedTyArgs usedArguments disableSplit) := by
  refine Choice.refines_then _ _ _ fun objectData => ?_
  refine Choice.refines_then _ _ _ fun function => ?_
  refine Choice.refines_then _ _ _ fun result => ?_
  cases result with
  | unsolvable => exact Choice.Refines.refl _
  | ok args tyArgs inputs => exact Choice.Refines.refl _
  | partialFound slots tyArgs inputs =>
    refine Choice.refines_bind _ _ _ _
      (fillArgs_refines st _ _ _ _ (h function tyArgs) _ _ _) ?_
    intro hall
    obtain ⟨r, ptb⟩ := hall
    exact Choice.Refines.refl _

theorem appendChecked_refines (st : FuzzState) (fuel : ℕ) (ptb : MoveSequence)
    (ident : FunctionIdent) (fixedArgs : FixedArgs) (fixedTyArgs : TyArgs)
    (usedArguments : List SequenceArgument) (disableSplit : Bool) :
    Choice.Refines
      (appendChecked st fuel ptb ident fixedArgs fixedTyArgs usedArguments disableSplit)
      (appendFunction st fuel ptb ident fixedArgs fixedTyArgs usedArguments disableSplit) := by
  cases fuel with
  | zero => exact Choice.Refines.refl _
  | succ fuel =>
    show Choice.Refines _ (appendStep st (appendProducer st fuel) ptb ident fixedArgs fixedTyArgs
      usedArguments disableSplit)
    rw [appendStep_eq_with]
    exact appendStepWith_refines st _ _ (fun function tyArgs d param =>
      produceArgChecked_refines st _ tyArgs ident _ d param) ptb ident fixedArgs fixedTyArgs
      usedArguments disableSplit

/-! ### Runs that pass the assertion -/

/- A producer was appended, and it agrees. -/
def Agreed (st : FuzzState) (abilities : List MoveAbility) (ident : FunctionIdent) (tyArgs : TyArgs)
    (append : MoveSequence → FunctionIdent → TyArgs → List SequenceArgument →
      Choice (Option Appended × MoveSequence)) (d : Draft) (param : MoveAbiSignatureToken)
    (next : Draft) : Prop :=
  Produced st ident tyArgs append d param next ∧
    producerAgrees st abilities tyArgs d param next = true

theorem produceArgChecked_agreed (st : FuzzState) (abilities : List MoveAbility) (tyArgs : TyArgs)
    (ident : FunctionIdent)
    (append : MoveSequence → FunctionIdent → TyArgs → List SequenceArgument →
      Choice (Option Appended × MoveSequence)) (d next : Draft) (param : MoveAbiSignatureToken)
    (ptb : MoveSequence)
    (h : Choice.Yields (produceArgChecked st abilities tyArgs ident append d param)
      (some next, ptb)) : Agreed st abilities ident tyArgs append d param next := by
  obtain ⟨⟨found, ptb'⟩, hproduce, h⟩ := Choice.yields_bind _ _ _ h
  cases found with
  | none => simp [Choice.yields_pure] at h
  | some next' =>
    dsimp only at h
    split_ifs at h with hagrees
    · rw [Choice.yields_pure, Prod.mk.injEq, Option.some.injEq] at h
      obtain ⟨rfl, rfl⟩ := h
      exact ⟨produceArg_produced st ident tyArgs append d next param ptb hproduce, hagrees⟩
    · exact absurd h (Choice.not_yields_panic _)

theorem appendChecked_run (st : FuzzState) (fuel : ℕ) (ptb : MoveSequence)
    (ident : FunctionIdent) (fixedArgs : FixedArgs) (fixedTyArgs : TyArgs)
    (usedArguments : List SequenceArgument) (disableSplit : Bool) (appended : Appended)
    (ptb' : MoveSequence)
    (h : Choice.Yields (appendChecked st fuel ptb ident fixedArgs fixedTyArgs usedArguments
      disableSplit) (some appended, ptb')) :
    ∃ (n : ℕ) (run : AppendRun st (appendProducer st n) ptb ident fixedArgs fixedTyArgs
        usedArguments disableSplit appended ptb'),
      Fills st ptb.inputs.length fixedArgs
        (Agreed st run.function.typeParameters ident run.tyArgs (appendProducer st n))
        run.function.parameters.zipIdx run.slots run.start run.draft := by
  cases fuel with
  | zero =>
    have := (Choice.yields_pure _ _).mp h
    cases this
  | succ n =>
    obtain ⟨run, hfills⟩ := appendStepWith_run st _ (appendProducer st n) ptb ident fixedArgs
      fixedTyArgs usedArguments disableSplit appended ptb' (fun function tyArgs d param next ptb h =>
        (produceArgChecked_agreed st _ tyArgs ident _ d next param ptb h).1) h
    exact ⟨n, run, hfills.mono st _ _ fun d param next hnext =>
      produceArgChecked_agreed st _ run.tyArgs ident _ d next param _ hnext.choose_spec⟩

end Movy.Fuzz
