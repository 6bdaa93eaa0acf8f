import Movy.Fuzz.Ledger
import Movy.Fuzz.WellTyped

/-!
# What a sequence leaves

The purpose of `from_ptb`: the results of a sequence that no call has taken by
value, sorted by the abilities that their types really have. A type of a generic
struct only has those abilities that its type arguments have as well, except where
they are phantom.
-/

namespace Movy.Fuzz

open Movy.Types Movy.Store MoveAbiSignatureToken

/-! ### Abilities of a type -/

def FuzzState.getStruct (self : FuzzState) (packageId : MoveAddress) (module structName : String) :
    Option MoveStructHandle :=
  (self.getModule packageId module).bind fun m =>
    m.structs.find? fun s => s.structName = structName

/-- A key wants its fields to have `store`, every other ability wants itself. -/
def instanceAbilities (handle : MoveStructHandle) (args : List MoveAbility) : MoveAbility :=
  let held := ((args.zip handle.typeParameters).filter fun e => !e.2.phantom).map Prod.fst
  { copy := handle.abilities.copy && held.all fun a => a.copy
    drop := handle.abilities.drop && held.all fun a => a.drop
    store := handle.abilities.store && held.all fun a => a.store
    key := handle.abilities.key && held.all fun a => a.store }

mutual

/-- The abilities that values of the type have. -/
def typeAbilities (st : FuzzState) : MoveTypeTag → Option MoveAbility
  | .signer => some ⟨false, true, false, false⟩
  | .vector ty => (typeAbilities st ty).map fun a => { a with key := false }
  | .struct a m n tys => (st.getStruct a m n).bind fun handle =>
      (typesAbilities st tys).bind fun args =>
        if args.length = handle.typeParameters.length then some (instanceAbilities handle args)
        else none
  | _ => some MoveAbility.PRIMITIVES

def typesAbilities (st : FuzzState) : List MoveTypeTag → Option (List MoveAbility)
  | [] => some []
  | ty :: rest => (typeAbilities st ty).bind fun a =>
      (typesAbilities st rest).map fun as => a :: as

end

def isFrameworkTag (module name : String) : MoveTypeTag → Bool
  | .struct a m n _ => a = MoveAddress.two && m = module && n = name
  | _ => false

def reallyBalance (ty : MoveTypeTag) : Bool := isFrameworkTag "balance" "Balance" ty

def reallyKeyStore (st : FuzzState) (ty : MoveTypeTag) : Bool :=
  (typeAbilities st ty).any fun a => a.key && a.store

def reallyHot (st : FuzzState) (ty : MoveTypeTag) : Bool :=
  (typeAbilities st ty).any (fun a => !a.drop && !a.store) && !reallyBalance ty &&
    !isFrameworkTag "tx_context" "TxContext" ty

/-! ### Results that are left -/

/-- The results of a command, with their types. -/
def commandResults (st : FuzzState) (i : ℕ) :
    MoveSequenceCall → List (SequenceArgument × MoveTypeTag)
  | .call call => match st.getCalled call with
    | some function => function.returnParamters.zipIdx.filterMap fun e =>
        (e.1.subst (tyArgsMap call.typeArguments)).map fun ty =>
          (ObjectData.resultArg function.returnParamters.length i e.2, ty)
    | none => []
  | _ => []

def results (st : FuzzState) (commands : List MoveSequenceCall) :
    List (SequenceArgument × MoveTypeTag) :=
  commands.zipIdx.flatMap fun e => commandResults st e.2 e.1

/-- The arguments of a command, and whether it takes them by value; a `TxContext` has
no argument. -/
def commandUses (st : FuzzState) : MoveSequenceCall → List (SequenceArgument × Bool)
  | .call call => match st.getCalled call with
    | some function =>
      (call.arguments.zip (passedParams function)).map fun e => (e.1, !isReference e.2)
    | none => []
  | _ => []

def commandTakes (st : FuzzState) (cmd : MoveSequenceCall) : List SequenceArgument :=
  ((commandUses st cmd).filter Prod.snd).map Prod.fst

/-- Both names of the only result of a command are one value. -/
def canonical (st : FuzzState) (commands : List MoveSequenceCall) :
    SequenceArgument → SequenceArgument
  | .nestedResult i j =>
    if j = 0 ∧ ((commands[i.val]?).bind (returnTypes st)).any (fun tys => tys.length = 1) then
      .result i
    else .nestedResult i j
  | arg => arg

def isLeft (st : FuzzState) (commands : List MoveSequenceCall) (arg : SequenceArgument) : Bool :=
  decide (arg ∉ (commands.flatMap (commandTakes st)).map (canonical st commands))

def leftResults (st : FuzzState) (commands : List MoveSequenceCall) :
    List (SequenceArgument × MoveTypeTag) :=
  (results st commands).filter fun e => isLeft st commands e.1

/-- `from_ptb` does not panic, and lists what is left. -/
def AccountsExactly (st : FuzzState) (ptb : MoveSequence) : Prop :=
  ∃ data, ObjectData.fromPtb st ptb = some data ∧
    data.hotPotatoes.Perm
      (((leftResults st ptb.commands).filter fun e => reallyHot st e.2).map Prod.snd) ∧
    data.keyStoreObjects.Perm
      (((leftResults st ptb.commands).filter fun e => reallyKeyStore st e.2).map Prod.fst) ∧
    data.balances.Perm
      (((leftResults st ptb.commands).filter fun e => reallyBalance e.2).map Prod.fst)

/-! ### Well-typed sequences -/

def CallTyped (st : FuzzState) (ptb : MoveSequence) (cmd : MoveSequenceCall) : Prop :=
  ∃ call function, cmd = .call call ∧ st.getCalled call = some function ∧
    WellTyped st ptb function call ∧ function.returnParamters.length ≤ 2 ^ 16 ∧
    ∀ ret ∈ function.returnParamters, isReference ret = false ∧
      ∃ ty, ret.subst (tyArgsMap call.typeArguments) = some ty ∧ (typeAbilities st ty).isSome = true

/-- Every call is well typed behind those before it, and the objects among the inputs
are known structs. Every command and every result has an index of sixteen bits. -/
structure SequenceTyped (st : FuzzState) (ptb : MoveSequence) : Prop where
  calls : ∀ (k : ℕ) cmd, ptb.commands[k]? = some cmd →
    CallTyped st ⟨ptb.inputs, ptb.commands.take k⟩ cmd
  inputs : ∀ ty obj, .object ty obj ∈ ptb.inputs → ∀ id, ObjectData.objectId obj = some id →
    ∃ object, st.getMoveObjectInfo id = some object ∧ object.ty = ty
  structs : ∀ ty obj, .object ty obj ∈ ptb.inputs → ∃ a m n tys, ty = .struct a m n tys
  commands_length : ptb.commands.length ≤ 2 ^ 16

def isPureArg (ptb : MoveSequence) : SequenceArgument → Bool
  | .input i => (ptb.inputs[i.val]?).any fun v => match v with
    | .object _ _ => false
    | _ => true
  | _ => false

/-- What is taken by value is not used any more. -/
def Linear (st : FuzzState) (ptb : MoveSequence) : Prop :=
  (ptb.commands.flatMap (commandUses st)).Pairwise fun e e' =>
    e.2 = true → isPureArg ptb e.1 = false →
      canonical st ptb.commands e.1 ≠ canonical st ptb.commands e'.1

/-! ### What the readings have to be -/

/-- The results that are read so when they are brought, and not when they are taken,
are those that are left and really are so. -/
def ReadRight (st : FuzzState) (commands : List MoveSequenceCall) (read : Note → Bool)
    (real : MoveTypeTag → Bool) : Prop :=
  ∀ note ∈ credited (entriesFrom st 0 commands),
    (read note = true ∧
      note.arg ∉ ((debited (entriesFrom st 0 commands)).filter read).map Note.arg) ↔
    (isLeft st commands note.arg = true ∧ real note.ty = true)

/-- The kinds of inputs that are known, and the readings of the tokens fit together. -/
structure ReadsRight (st : FuzzState) (ptb : MoveSequence) : Prop where
  inputs : ptb.commands = [] ∨ InputsSupported st ptb.inputs
  listed : AlwaysListed (InputThere st 0 ptb.inputs) (entriesFrom st 0 ptb.commands)
  balances : ReadRight st ptb.commands Note.balance reallyBalance
  keyStore : ReadRight st ptb.commands Note.keyStore (reallyKeyStore st)
  covered : Covered [] (hotEntries st ptb.commands)
  hot : ∀ ty, (credited (hotEntries st ptb.commands)).count ty =
    (debited (hotEntries st ptb.commands)).count ty +
      (((leftResults st ptb.commands).filter fun e => reallyHot st e.2).map Prod.snd).count ty

/-! ### The entries of a well-typed sequence -/

theorem results_eq (st : FuzzState) (commands : List MoveSequenceCall) :
    results st commands =
      (credited (entriesFrom st 0 commands)).map fun note => (note.arg, note.ty) := by
  rw [results, entriesFrom, credited_flatMap, List.map_flatMap]
  apply List.flatMap_congr
  rintro ⟨cmd, k⟩ -
  cases cmd with
  | call call =>
    simp only [commandResults, callEntries]
    cases st.getCalled call with
    | none => rfl
    | some function =>
      simp only [takenEntries, broughtEntries, credited_append, credited_debits, credited_credits,
        List.nil_append, List.map_filterMap]
      apply List.filterMap_congr
      rintro ⟨ret, j⟩ -
      cases hty : ret.subst (tyArgsMap call.typeArguments) with
      | none => simp [broughtNote, hty]
      | some ty => simp [broughtNote, hty, Note.brought_arg, Note.brought_ty]
  | _ => rfl

theorem not_txContext_of_needsSample (param : MoveAbiSignatureToken)
    (h : param.needsSample = true) : param.isTxContext = false := by
  cases param with
  | struct handle => simpa [needsSample] using h
  | reference b =>
    rw [needsSample, Bool.and_eq_true, Bool.not_eq_true'] at h
    exact h.1
  | mutableReference b =>
    rw [needsSample, Bool.and_eq_true, Bool.not_eq_true'] at h
    exact h.1
  | _ => rfl

theorem getAbilities_isSome (st : FuzzState) (a : MoveAddress) (m n : String)
    (tys : List MoveTypeTag) (h : (typeAbilities st (.struct a m n tys)).isSome = true) :
    (st.getAbilities a m n).isSome = true := by
  obtain ⟨abilities, h⟩ := Option.isSome_iff_exists.mp h
  rw [typeAbilities] at h
  obtain ⟨handle, hhandle, -⟩ := Option.bind_eq_some_iff.mp h
  obtain ⟨module, hmodule, hfind⟩ := Option.bind_eq_some_iff.mp hhandle
  rw [FuzzState.getAbilities, hmodule, Option.bind_some, hfind]
  rfl

theorem vectorHolds_isSome (st : FuzzState) (tyArgs : TyArgs) (inner : MoveAbiSignatureToken)
    (ty : MoveTypeTag) (hty : (MoveAbiSignatureToken.vector inner).subst tyArgs = some ty)
    (habilities : (typeAbilities st ty).isSome = true) :
    (ObjectData.vectorHoldsHotPotato st tyArgs inner).isSome = true := by
  rw [subst] at hty
  obtain ⟨element, helement, rfl⟩ := Option.map_eq_some_iff.mp hty
  rw [typeAbilities, Option.isSome_map] at habilities
  cases inner with
  | typeParameter idx ability =>
    have hget : tyArgs.get? idx = some element := helement
    rw [ObjectData.vectorHoldsHotPotato, hget, Option.bind_eq_bind, Option.bind_some]
    cases element with
    | struct a m n tys =>
      obtain ⟨found, hfound⟩ := Option.isSome_iff_exists.mp
        (getAbilities_isSome st a m n tys habilities)
      simp [hfound]
    | _ => rfl
  | _ => rfl

section

variable {st : FuzzState} {ptb : MoveSequence} (h : SequenceTyped st ptb)

include h

theorem SequenceTyped.backward : BackwardRefs ptb.commands := by
  intro k cmd hk arg harg i hi
  obtain ⟨call, function, rfl, -, htyped, -⟩ := h.calls k cmd hk
  have hlt := (List.getElem?_eq_some_iff.mp hk).1
  have hne : arg ≠ .gasCoin := by
    rintro rfl
    cases hi
  have hbefore := htyped.earlier arg harg hne
  rw [List.length_take, Nat.min_eq_left (Nat.le_of_lt hlt)] at hbefore
  cases arg with
  | result c =>
    rw [← Option.some.inj hi]
    exact hbefore.resolve_right fun h => absurd h.2 (Nat.lt_irrefl 0)
  | nestedResult c j =>
    rw [← Option.some.inj hi]
    exact hbefore.resolve_right fun h => absurd h.2 (Nat.not_lt_zero _)
  | _ => cases hi

theorem SequenceTyped.fresh : (entriesFrom st 0 ptb.commands).Pairwise Fresh := by
  apply entriesFrom_fresh st ptb.commands h.backward h.commands_length
  intro call function hmem hfunction
  obtain ⟨k, hk⟩ := List.mem_iff_getElem?.mp hmem
  obtain ⟨call', function', hcall, hfunction', -, hlen, -⟩ := h.calls k _ hk
  cases hcall
  rw [← Option.some.inj (hfunction'.symm.trans hfunction)]
  exact hlen

theorem SequenceTyped.readable : ∀ cmd ∈ ptb.commands, CommandReadable st cmd := by
  intro cmd hmem
  obtain ⟨k, hk⟩ := List.mem_iff_getElem?.mp hmem
  obtain ⟨call, function, rfl, hfunction, htyped, -, hreturns⟩ := h.calls k cmd hk
  refine ⟨function, hfunction, ?_, ?_⟩
  · intro e he hsample _
    have hpassed : e.2 ∈ passedParams function :=
      List.mem_filter.mpr ⟨(List.of_mem_zip he).2, by
        rw [not_txContext_of_needsSample e.2 hsample]
        rfl⟩
    obtain ⟨j, hj⟩ := List.mem_iff_getElem?.mp hpassed
    have hjlt := (List.getElem?_eq_some_iff.mp hj).1
    rw [← htyped.count] at hjlt
    obtain ⟨ty, -, hty⟩ := htyped.typed j e.2 _ hj (List.getElem?_eq_getElem hjlt)
    rw [hty]
    rfl
  · intro ret hret
    obtain ⟨-, ty, hty, habilities⟩ := hreturns ret hret
    refine ⟨by rw [hty]; rfl, ?_⟩
    rintro inner rfl
    exact vectorHolds_isSome st _ inner ty hty habilities

theorem SequenceTyped.credited_nodup :
    ((credited (entriesFrom st 0 ptb.commands)).map Note.arg).Nodup := by
  rw [← credited_map]
  exact Movy.credited_nodup _ (List.pairwise_map.mpr h.fresh)

theorem SequenceTyped.mark_perm_iff (read : Note → Bool) (real : MoveTypeTag → Bool) :
    (mark (entriesOf read Note.arg (entriesFrom st 0 ptb.commands)) []).Perm
        (((leftResults st ptb.commands).filter fun e => real e.2).map Prod.fst) ↔
      ReadRight st ptb.commands read real := by
  have hfresh := h.fresh
  have hleft : ((leftResults st ptb.commands).filter fun e => real e.2).map Prod.fst =
      ((credited (entriesFrom st 0 ptb.commands)).filter fun note =>
        real note.ty && isLeft st ptb.commands note.arg).map Note.arg := by
    rw [leftResults, results_eq, List.filter_map, List.filter_map, List.map_map, List.filter_filter]
    rfl
  rw [mark_entriesOf read Note.arg _ hfresh, hleft, perm_filter_map_iff _ _ h.credited_nodup]
  apply forall₂_congr
  intro note _
  rw [Bool.and_eq_true, Bool.and_eq_true, decide_eq_true_eq, and_comm (a := real note.ty = true)]

/-- `from_ptb` does not panic and lists what is left exactly if the inputs are of the
kinds that it knows, something is listed of each type that is taken, and the readings
fit together. -/
theorem accountsExactly_counted : AccountsExactly st ptb ↔ ReadsRight st ptb := by
  obtain ⟨hsome, hlists⟩ := fromPtb_spec st ptb
  have hcounted : ∀ data, ObjectData.fromPtb st ptb = some data →
      (data.hotPotatoes.Perm
        (((leftResults st ptb.commands).filter fun e => reallyHot st e.2).map Prod.snd) ↔
      ∀ ty, (credited (hotEntries st ptb.commands)).count ty =
        (debited (hotEntries st ptb.commands)).count ty +
          (((leftResults st ptb.commands).filter fun e => reallyHot st e.2).map Prod.snd).count
            ty) := by
    intro data hdata
    rw [settle_perm_iff _ _ _ _ (hlists data hdata).1]
    simp only [List.count_nil, Nat.zero_add]
  constructor
  · intro hexact
    obtain ⟨data, hdata, hhot, hkeyStore, hbalances⟩ := hexact
    have hbooked : Booked st ptb := hsome.mp (by rw [hdata]; rfl)
    obtain ⟨-, hmarkBalances, hmarkKeyStore⟩ := hlists data hdata
    rw [hmarkKeyStore] at hkeyStore
    rw [hmarkBalances] at hbalances
    exact
      { inputs := hbooked.inputs
        listed := hbooked.listed
        covered := hbooked.covered
        balances := (h.mark_perm_iff Note.balance reallyBalance).mp hbalances
        keyStore := (h.mark_perm_iff Note.keyStore (reallyKeyStore st)).mp hkeyStore
        hot := (hcounted data hdata).mp hhot }
  · intro hright
    have hbooked : Booked st ptb :=
      ⟨hright.inputs, h.readable, hright.listed, hright.covered⟩
    obtain ⟨data, hdata⟩ := Option.isSome_iff_exists.mp (hsome.mpr hbooked)
    obtain ⟨-, hmarkBalances, hmarkKeyStore⟩ := hlists data hdata
    refine ⟨data, hdata, (hcounted data hdata).mpr hright.hot, ?_, ?_⟩
    · rw [hmarkKeyStore]
      exact (h.mark_perm_iff Note.keyStore (reallyKeyStore st)).mpr hright.keyStore
    · rw [hmarkBalances]
      exact (h.mark_perm_iff Note.balance reallyBalance).mpr hright.balances

end

end Movy.Fuzz
