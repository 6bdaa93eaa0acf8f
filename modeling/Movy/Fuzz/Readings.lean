import Mathlib.Data.List.Flatten
import Movy.Fuzz.Accounts
import Movy.Fuzz.Taken

/-!
# How values are read

`from_ptb` reads the abilities of a value twice: off the token of the result when it
is brought, and off that of the parameter when it is taken. Where both readings of
what is taken fit together, and what is left is read as it really is, the lists are
exact.
-/

namespace Movy.Fuzz

open Movy.Types Movy.Store MoveAbiSignatureToken

/-- `from_ptb` sees the value taken, possibly under its other name. -/
def SeenTaken (st : FuzzState) (commands : List MoveSequenceCall) (c d : Note) : Prop :=
  (∃ k, Takes st commands k d) ∧ canonical st commands d.arg = c.arg

/-- A `TxContext` comes behind all arguments, and the gas coin is only lent. -/
structure Straight (st : FuzzState) (ptb : MoveSequence) : Prop where
  contexts : ∀ (call : MoveCall) function, .call call ∈ ptb.commands →
    st.getCalled call = some function → passedParams function <+: function.parameters
  gas : ∀ k d, Takes st ptb.commands k d → d.arg ≠ .gasCoin

/-- A result that is taken at a type parameter is seen without abilities: no struct is a
key-store object there, and every one is a hot potato but balances and contexts. -/
theorem taken_typeParameter (tyArgs : TyArgs) (i : U16) (ability : MoveAbility)
    (arg : SequenceArgument) (a : MoveAddress) (m n : String) (tys : List MoveTypeTag)
    (hget : tyArgs.get? i = some (.struct a m n tys)) (harg : ∀ j, arg ≠ .input j) (note : Note)
    (h : takenNote tyArgs arg (.typeParameter i ability) = some note) :
    note.keyStore = false ∧ (note.hot = true ↔
      (fromTypeTagLossy (.struct a m n tys)).isBalance = false ∧
        (fromTypeTagLossy (.struct a m n tys)).isTxContext = false) := by
  have hread : Note.taken tyArgs (.typeParameter i ability) arg (.struct a m n tys) =
      .read arg (.struct a m n tys) ((typeParameter i ability).partialSubst tyArgs) := by
    cases arg with
    | input j => exact absurd rfl (harg j)
    | _ => rfl
  have hnote : takenNote tyArgs arg (.typeParameter i ability) =
      some (.taken tyArgs (.typeParameter i ability) arg (.struct a m n tys)) := by
    rw [takenNote, subst, hget]
    rfl
  have hpartial : (typeParameter i ability).partialSubst tyArgs =
      fromTypeTagLossy (.struct a m n tys) := by
    rw [partialSubst, hget]
  rw [hnote, hread, hpartial, Option.some.injEq] at h
  rw [← h, fromTypeTagLossy]
  split_ifs
  · refine ⟨rfl, ?_⟩
    simp [Note.read, isHotPotato, isBalance, MoveAbility.isHotPotato, MoveAbility.empty]
  · refine ⟨rfl, ?_⟩
    simp [Note.read, isHotPotato, isTxContext, MoveAbility.isHotPotato, MoveAbility.empty]

/-! ### Arguments and parameters -/

theorem valueName_canonical (st : FuzzState) (commands : List MoveSequenceCall)
    (arg : SequenceArgument) : valueName (canonical st commands arg) = valueName arg := by
  cases arg with
  | nestedResult i j =>
    rw [canonical]
    split_ifs with hone
    · rw [hone.1]
      rfl
    · rfl
  | _ => rfl

theorem zip_of_prefix {α β : Type} (l : List α) (p m : List β) (h : p <+: m)
    (hlen : l.length = p.length) : l.zip m = l.zip p := by
  obtain ⟨rest, rfl⟩ := h
  calc l.zip (p ++ rest) = (l ++ []).zip (p ++ rest) := by rw [List.append_nil]
    _ = l.zip p ++ [].zip rest := List.zip_append hlen
    _ = l.zip p := by rw [List.zip_nil_left, List.append_nil]

section

variable {st : FuzzState} {ptb : MoveSequence} (h : SequenceTyped st ptb)
  (hstraight : Straight st ptb)

include h hstraight

theorem SequenceTyped.zip_params (k : ℕ) (call : MoveCall) (function : MoveFunctionAbi)
    (hcall : ptb.commands[k]? = some (.call call)) (hfunction : st.getCalled call = some function) :
    call.arguments.zip function.parameters = call.arguments.zip (passedParams function) := by
  obtain ⟨call', function', heq, hfunction', htyped, -⟩ := h.calls k _ hcall
  cases heq
  obtain rfl := Option.some.inj (hfunction'.symm.trans hfunction)
  exact zip_of_prefix _ _ _
    (hstraight.contexts call function' (List.mem_of_getElem? hcall) hfunction) htyped.count

theorem SequenceTyped.takes_type (k : ℕ) (d : Note) (htakes : Takes st ptb.commands k d) :
    argType st ⟨ptb.inputs, ptb.commands.take k⟩ d.arg = some d.ty := by
  obtain ⟨call, function, param, hcall, hfunction, hzip, hnote⟩ := (takes_iff _ _ _ _).mp htakes
  rw [h.zip_params hstraight k call function hcall hfunction] at hzip
  obtain ⟨call', function', heq, hfunction', htyped, -⟩ := h.calls k _ hcall
  cases heq
  obtain rfl := Option.some.inj (hfunction'.symm.trans hfunction)
  obtain ⟨j, hj⟩ := List.mem_iff_getElem?.mp hzip
  obtain ⟨harg, hparam⟩ := List.getElem?_zip_eq_some.mp hj
  obtain ⟨ty, hty, hsubst⟩ := htyped.typed j param d.arg hparam harg
  unfold takenNote at hnote
  split_ifs at hnote
  rw [hsubst, Option.map_some, Option.some.injEq] at hnote
  rw [hty, ← hnote, Note.taken_ty]

end

theorem brings_of_type (st : FuzzState) (ptb : MoveSequence) (k i : ℕ) (arg : SequenceArgument)
    (ty : MoveTypeTag)
    (hty : argType st ⟨ptb.inputs, ptb.commands.take k⟩ arg = some ty)
    (hi : argCommand arg = some i) :
    i < k ∧ ∃ c, Brings st ptb.commands i c ∧ c.arg = canonical st ptb.commands arg ∧
      c.ty = ty := by
  have hresult : ∀ tys, ((ptb.commands.take k)[i]?).bind (returnTypes st) = some tys → i < k ∧
      ∃ call function, ptb.commands[i]? = some (.call call) ∧ st.getCalled call = some function ∧
        tys = function.returnParamters.map fun ret => ret.subst (tyArgsMap call.typeArguments) := by
    intro tys htys
    obtain ⟨cmd, hcmd, htys⟩ := Option.bind_eq_some_iff.mp htys
    rw [List.getElem?_take] at hcmd
    split_ifs at hcmd with hik
    cases cmd with
    | call call =>
      obtain ⟨function, hfunction, rfl⟩ := Option.map_eq_some_iff.mp htys
      exact ⟨hik, call, function, hcmd, hfunction, rfl⟩
    | _ => cases htys
  cases arg with
  | result i' =>
    obtain rfl := Option.some.inj hi
    obtain ⟨tys, htys, hty⟩ := Option.bind_eq_some_iff.mp hty
    obtain ⟨hik, call, function, hcmd, hfunction, rfl⟩ := hresult tys htys
    rw [List.length_map] at hty
    split_ifs at hty with hone
    obtain ⟨ret, hret, hsubst⟩ : ∃ ret, function.returnParamters[0]? = some ret ∧
        ret.subst (tyArgsMap call.typeArguments) = some ty := by
      rw [List.getElem?_map] at hty
      obtain ⟨found, hfound, hjoin⟩ := Option.bind_eq_some_iff.mp hty
      obtain ⟨ret, hret, rfl⟩ := Option.map_eq_some_iff.mp hfound
      exact ⟨ret, hret, hjoin⟩
    refine ⟨hik, _, (brings_iff _ _ _ _).mpr ⟨call, function, ret, 0, ty, hcmd, hfunction, hret,
      hsubst, rfl⟩, ?_, Note.brought_ty _ _ _ _ _⟩
    rw [Note.brought_arg, ObjectData.resultArg, if_pos hone]
    exact congrArg SequenceArgument.result (Fin.ext (asU16_val _ i'.isLt))
  | nestedResult i' j =>
    obtain rfl := Option.some.inj hi
    obtain ⟨tys, htys, hty⟩ := Option.bind_eq_some_iff.mp hty
    obtain ⟨hik, call, function, hcmd, hfunction, rfl⟩ := hresult tys htys
    obtain ⟨ret, hret, hsubst⟩ : ∃ ret, function.returnParamters[j.val]? = some ret ∧
        ret.subst (tyArgsMap call.typeArguments) = some ty := by
      rw [List.getElem?_map] at hty
      obtain ⟨found, hfound, hjoin⟩ := Option.bind_eq_some_iff.mp hty
      obtain ⟨ret, hret, rfl⟩ := Option.map_eq_some_iff.mp hfound
      exact ⟨ret, hret, hjoin⟩
    have hlt := (List.getElem?_eq_some_iff.mp hret).1
    refine ⟨hik, _, (brings_iff _ _ _ _).mpr ⟨call, function, ret, j.val, ty, hcmd, hfunction, hret,
      hsubst, rfl⟩, ?_, Note.brought_ty _ _ _ _ _⟩
    have hself : asU16 i'.val = i' := Fin.ext (asU16_val _ i'.isLt)
    have hself' : asU16 j.val = j := Fin.ext (asU16_val _ j.isLt)
    rw [Note.brought_arg, ObjectData.resultArg, hself, hself', canonical, hcmd]
    simp only [Option.bind_some, returnTypes, hfunction, Option.map_some, Option.any_some,
      List.length_map]
    by_cases hone : function.returnParamters.length = 1
    · have hzero : j = 0 := Fin.ext (Nat.lt_one_iff.mp (hone ▸ hlt))
      simp [hone, hzero]
    · simp [hone]
  | input i' => cases hi
  | gasCoin => cases hi

section

variable {st : FuzzState} {ptb : MoveSequence} (h : SequenceTyped st ptb)

include h

theorem SequenceTyped.canonical_brought (i : ℕ) (c : Note) (hbrings : Brings st ptb.commands i c) :
    canonical st ptb.commands c.arg = c.arg := by
  obtain ⟨call, function, ret, j, ty, hcmd, hfunction, -, -, rfl⟩ := (brings_iff _ _ _ _).mp hbrings
  have hlt := (List.getElem?_eq_some_iff.mp hcmd).1
  have hlen := h.commands_length
  rw [Note.brought_arg, ObjectData.resultArg]
  split_ifs with hone
  · rfl
  · rw [canonical, asU16_val i (by omega), hcmd]
    simp [returnTypes, hfunction, hone]

theorem SequenceTyped.brought_inj (i j : ℕ) (c c' : Note) (hbrings : Brings st ptb.commands i c)
    (hbrings' : Brings st ptb.commands j c') (hname : valueName c.arg = valueName c'.arg) :
    c.arg = c'.arg := by
  have hij : i = j := by
    have hi := hbrings.argCommand h.commands_length
    rw [← argCommand_valueName, hname, argCommand_valueName,
      hbrings'.argCommand h.commands_length] at hi
    exact (Option.some.inj hi).symm
  subst hij
  obtain ⟨call, function, ret, m, ty, hcmd, hfunction, -, -, rfl⟩ := (brings_iff _ _ _ _).mp hbrings
  obtain ⟨call', function', ret', m', ty', hcmd', hfunction', -, -, rfl⟩ :=
    (brings_iff _ _ _ _).mp hbrings'
  cases hcmd.symm.trans hcmd'
  obtain rfl := Option.some.inj (hfunction.symm.trans hfunction')
  rw [Note.brought_arg, Note.brought_arg] at hname ⊢
  unfold ObjectData.resultArg at hname ⊢
  split_ifs at hname ⊢ with hone
  · rfl
  · simp only [valueName] at hname
    split_ifs at hname with hm hm'
    · rw [hm, hm']
    · exact hname

end

/-! ### Taken once -/

theorem takenNotes_sublist (tyArgs : TyArgs)
    (pairs : List (SequenceArgument × MoveAbiSignatureToken)) :
    ((pairs.filterMap fun e => takenNote tyArgs e.1 e.2).map Note.arg).Sublist
      (((pairs.map fun e => (e.1, !isReference e.2)).filter Prod.snd).map Prod.fst) := by
  induction pairs with
  | nil => exact List.Sublist.refl _
  | cons e rest ih =>
    rw [List.filterMap_cons, List.map_cons, List.filter_cons]
    cases hnote : takenNote tyArgs e.1 e.2 with
    | none =>
      split_ifs
      · exact ih.cons _
      · exact ih
    | some note =>
      unfold takenNote at hnote
      split_ifs at hnote with hskip
      rw [Bool.or_eq_true, not_or, Bool.not_eq_true, Bool.not_eq_true] at hskip
      obtain ⟨ty, -, rfl⟩ := Option.map_eq_some_iff.mp hnote
      rw [if_pos (by rw [hskip.2]; rfl), List.map_cons, List.map_cons, Note.taken_arg]
      exact ih.cons_cons _

section

variable {st : FuzzState} {ptb : MoveSequence} (h : SequenceTyped st ptb)
  (hstraight : Straight st ptb)

include h hstraight

theorem SequenceTyped.debited_sublist :
    ((debited (entriesFrom st 0 ptb.commands)).map Note.arg).Sublist
      (ptb.commands.flatMap (commandTakes st)) := by
  have hindexed : ptb.commands.flatMap (commandTakes st) =
      ptb.commands.zipIdx.flatMap fun e => commandTakes st e.1 := by
    have hfst := List.flatMap_map Prod.fst (commandTakes st) ptb.commands.zipIdx
    rw [List.zipIdx_map_fst] at hfst
    exact hfst
  rw [entriesFrom, debited_flatMap, List.map_flatMap, hindexed]
  apply List.Sublist.flatMap_right
  rintro ⟨cmd, k⟩ hmem
  have hcmd := List.mem_zipIdx_iff_getElem?.mp hmem
  obtain ⟨call, function, rfl, hfunction, -⟩ := h.calls k cmd hcmd
  have hzip := h.zip_params hstraight k call function hcmd hfunction
  simp only [callEntries, commandTakes, commandUses, hfunction]
  rw [debited_append, takenEntries, broughtEntries, debited_debits, debited_credits,
    List.append_nil, hzip]
  exact takenNotes_sublist _ _

theorem SequenceTyped.not_left (c d : Note) (hseen : SeenTaken st ptb.commands c d) :
    isLeft st ptb.commands c.arg = false := by
  obtain ⟨htakes, hname⟩ := hseen
  have hmem := (h.debited_sublist hstraight).subset
    (List.mem_map_of_mem ((debited_entriesFrom st _ d).mpr htakes))
  rw [isLeft, decide_eq_false_iff_not, not_not, ← hname]
  exact List.mem_map_of_mem hmem

variable (hlinear : Linear st ptb)
  (hstructs : ∀ k d, Takes st ptb.commands k d → ∃ a m n tys, d.ty = .struct a m n tys)

include hstructs

theorem SequenceTyped.not_pure (k : ℕ) (d : Note) (htakes : Takes st ptb.commands k d) :
    isPureArg ptb d.arg = false := by
  have hty := h.takes_type hstraight k d htakes
  obtain ⟨a, m, n, tys, hstruct⟩ := hstructs k d htakes
  cases harg : d.arg with
  | input j =>
    rw [harg, hstruct] at hty
    obtain ⟨v, hv, htag⟩ := Option.map_eq_some_iff.mp hty
    have hv : ptb.inputs[j.val]? = some v := hv
    rw [isPureArg, hv, Option.any_some]
    cases v with
    | object ty obj => rfl
    | _ => cases htag
  | _ => rfl

include hlinear

theorem SequenceTyped.debited_nodup :
    ((debited (entriesFrom st 0 ptb.commands)).map fun d =>
      canonical st ptb.commands d.arg).Nodup := by
  have htakes : (ptb.commands.flatMap (commandTakes st)).Pairwise fun a b =>
      isPureArg ptb a = false → canonical st ptb.commands a ≠ canonical st ptb.commands b := by
    have hflat : ptb.commands.flatMap (commandTakes st) =
        ((ptb.commands.flatMap (commandUses st)).filter Prod.snd).map Prod.fst := by
      rw [List.filter_flatMap, List.map_flatMap]
      rfl
    rw [hflat, List.pairwise_map, List.pairwise_filter]
    exact hlinear.imp fun huses hfirst _ => huses hfirst
  have hargs := List.pairwise_map.mp (htakes.sublist (h.debited_sublist hstraight))
  apply List.pairwise_map.mpr
  apply hargs.imp_of_mem
  intro d d' hd _ hne
  obtain ⟨k, htakes⟩ := (debited_entriesFrom st _ d).mp hd
  exact hne (h.not_pure hstraight hstructs k d htakes)

theorem SequenceTyped.seenTaken_unique (c d d' : Note) (hseen : SeenTaken st ptb.commands c d)
    (hseen' : SeenTaken st ptb.commands c d') : d = d' :=
  List.inj_on_of_nodup_map (h.debited_nodup hstraight hlinear hstructs)
    ((debited_entriesFrom st _ d).mpr hseen.1) ((debited_entriesFrom st _ d').mpr hseen'.1)
    (hseen.2.trans hseen'.2.symm)

end

/-! ### Readings that fit together -/

/-- What is left is read as it really is, and what is taken is read alike at both ends.
Only structs are taken, and a balance or a key-store object under the name that it is
listed by. -/
structure ReadsTruly (st : FuzzState) (ptb : MoveSequence) : Prop where
  inputs : ptb.commands = [] ∨ InputsSupported st ptb.inputs
  structs : ∀ k d, Takes st ptb.commands k d → ∃ a m n tys, d.ty = .struct a m n tys
  left : ∀ k c, Brings st ptb.commands k c → isLeft st ptb.commands c.arg = true →
    c.hot = reallyHot st c.ty ∧ c.keyStore = reallyKeyStore st c.ty ∧ c.balance = reallyBalance c.ty
  hot : ∀ k c, Brings st ptb.commands k c → isLeft st ptb.commands c.arg = false →
    (c.hot = true ↔ ∃ d, SeenTaken st ptb.commands c d ∧ d.hot = true)
  keyStore : ∀ k c, Brings st ptb.commands k c → isLeft st ptb.commands c.arg = false →
    c.keyStore = true → ∃ d, SeenTaken st ptb.commands c d ∧ d.arg = c.arg ∧ d.keyStore = true
  balances : ∀ k c, Brings st ptb.commands k c → isLeft st ptb.commands c.arg = false →
    c.balance = true → ∃ d, SeenTaken st ptb.commands c d ∧ d.arg = c.arg ∧ d.balance = true

/-- The value is taken as a hot potato, or is left and really one. -/
def EndsHot (st : FuzzState) (commands : List MoveSequenceCall) (c : Note) : Prop :=
  (isLeft st commands c.arg = true ∧ reallyHot st c.ty = true) ∨
    ∃ d, SeenTaken st commands c d ∧ d.hot = true

/-- Of one type, no hot potato is made up, or none is missed. -/
def MistakesOneWay (st : FuzzState) (commands : List MoveSequenceCall) : Prop :=
  ∀ ty, (∀ k c, Brings st commands k c → c.ty = ty → c.hot = true → EndsHot st commands c) ∨
    ∀ k c, Brings st commands k c → c.ty = ty → EndsHot st commands c → c.hot = true

/-- Without mistakes, there are none that cancel. -/
theorem ReadsTruly.oneWay {st : FuzzState} {ptb : MoveSequence} (h : ReadsTruly st ptb) :
    MistakesOneWay st ptb.commands := by
  refine fun ty => Or.inl fun k c hbrings _ hhot => ?_
  cases hleft : isLeft st ptb.commands c.arg with
  | true => exact Or.inl ⟨hleft, (h.left k c hbrings hleft).1 ▸ hhot⟩
  | false => exact Or.inr ((h.hot k c hbrings hleft).mp hhot)

section

variable {st : FuzzState} {ptb : MoveSequence} (h : SequenceTyped st ptb)
  (hstraight : Straight st ptb)

include h hstraight

theorem SequenceTyped.input_there (hinputs : InputsSupported st ptb.inputs) (k : ℕ) (d : Note)
    (htakes : Takes st ptb.commands k d) (hpure : isPureArg ptb d.arg = false) (i : U16)
    (harg : d.arg = .input i) : InputThere st 0 ptb.inputs d.ty d.arg := by
  have hty := h.takes_type hstraight k d htakes
  rw [harg] at hty hpure
  obtain ⟨v, hv, htag⟩ := Option.map_eq_some_iff.mp hty
  have hv : ptb.inputs[i.val]? = some v := hv
  rw [isPureArg, hv, Option.any_some] at hpure
  cases v with
  | object ty obj =>
    have hmem := List.mem_of_getElem? hv
    obtain ⟨id, object, hid, hobject, -⟩ := hinputs ty obj hmem
    obtain ⟨object', hobject', hty'⟩ := h.inputs ty obj hmem id hid
    obtain rfl := Option.some.inj (hobject.symm.trans hobject')
    refine ⟨i.val, ty, obj, id, object, hv, hid, hobject, hty'.trans htag, ?_⟩
    rw [harg, Nat.zero_add]
    exact congrArg SequenceArgument.input (Fin.ext (asU16_val _ i.isLt)).symm
  | _ => cases hpure

theorem SequenceTyped.result_brought (k : ℕ) (d : Note) (htakes : Takes st ptb.commands k d)
    (hinput : ∀ i, d.arg ≠ .input i) : ∃ i c, i < k ∧ Brings st ptb.commands i c ∧
      SeenTaken st ptb.commands c d ∧ c.ty = d.ty := by
  have hty := h.takes_type hstraight k d htakes
  obtain ⟨i, hi⟩ : ∃ i, argCommand d.arg = some i := by
    cases harg : d.arg with
    | gasCoin => exact absurd harg (hstraight.gas k d htakes)
    | input i => exact absurd harg (hinput i)
    | result i => exact ⟨i.val, rfl⟩
    | nestedResult i j => exact ⟨i.val, rfl⟩
  obtain ⟨hik, c, hbrings, hname, hcty⟩ := brings_of_type st ptb k i d.arg d.ty hty hi
  exact ⟨i, c, hik, hbrings, ⟨⟨k, htakes⟩, hname.symm⟩, hcty⟩

theorem SequenceTyped.canonical_inj (k k' : ℕ) (d d' : Note) (htakes : Takes st ptb.commands k d)
    (htakes' : Takes st ptb.commands k' d') (hname : valueName d.arg = valueName d'.arg) :
    canonical st ptb.commands d.arg = canonical st ptb.commands d'.arg := by
  have hinput : ∀ (arg arg' : SequenceArgument) i, arg = .input i →
      valueName arg = valueName arg' → arg = arg' := by
    intro arg arg' i harg heq
    rw [harg] at heq ⊢
    cases arg' with
    | nestedResult i' j =>
      simp only [valueName] at heq
      split_ifs at heq
    | _ => exact heq
  by_cases hd : ∃ i, d.arg = .input i
  · obtain ⟨i, hi⟩ := hd
    rw [hinput d.arg d'.arg i hi hname]
  · by_cases hd' : ∃ i, d'.arg = .input i
    · obtain ⟨i, hi⟩ := hd'
      rw [hinput d'.arg d.arg i hi hname.symm]
    · rw [not_exists] at hd hd'
      obtain ⟨i, c, -, hbrings, hseen, -⟩ := h.result_brought hstraight k d htakes hd
      obtain ⟨i', c', -, hbrings', hseen', -⟩ := h.result_brought hstraight k' d' htakes' hd'
      rw [hseen.2, hseen'.2]
      apply h.brought_inj i i' c c' hbrings hbrings'
      rw [← hseen.2, ← hseen'.2, valueName_canonical, valueName_canonical, hname]

theorem SequenceTyped.takenAsBrought (hlinear : Linear st ptb) (htruly : ReadsTruly st ptb) :
    TakenAsBrought st ptb where
  commands_length := h.commands_length
  named := by
    apply List.pairwise_map.mpr
    apply (List.pairwise_map.mp h.credited_nodup).imp_of_mem
    intro c c' hc hc' hne hname
    obtain ⟨i, hbrings⟩ := (credited_entriesFrom st _ c).mp hc
    obtain ⟨j, hbrings'⟩ := (credited_entriesFrom st _ c').mp hc'
    exact hne (h.brought_inj i j c c' hbrings hbrings' hname)
  once := by
    apply List.pairwise_map.mpr
    apply (List.pairwise_map.mp
      (h.debited_nodup hstraight hlinear htruly.structs)).imp_of_mem
    intro d d' hd hd' hne hname
    obtain ⟨k, htakes⟩ := (debited_entriesFrom st _ d).mp hd
    obtain ⟨k', htakes'⟩ := (debited_entriesFrom st _ d').mp hd'
    exact hne (h.canonical_inj hstraight k k' d d' htakes htakes' hname)
  brought := by
    intro k d htakes
    by_cases hinput : ∃ i, d.arg = .input i
    · obtain ⟨i, hi⟩ := hinput
      have hinputs : InputsSupported st ptb.inputs := by
        refine htruly.inputs.resolve_left fun hnil => ?_
        obtain ⟨cmd, hcmd, -⟩ := htakes
        rw [hnil] at hcmd
        cases hcmd
      exact Or.inl (h.input_there hstraight hinputs k d htakes
        (h.not_pure hstraight htruly.structs k d htakes) i hi)
    · rw [not_exists] at hinput
      obtain ⟨i, c, hik, hbrings, hseen, hty⟩ := h.result_brought hstraight k d htakes hinput
      refine Or.inr ⟨i, c, hik, hbrings, ?_⟩
      have hhot := htruly.hot i c hbrings (h.not_left hstraight c d hseen)
      refine ⟨?_, hty, hbrings.listed_iff.mpr (hty ▸ htruly.structs k d htakes), ?_⟩
      · rw [← hseen.2, valueName_canonical]
      · rw [Bool.eq_iff_iff, hhot]
        constructor
        · intro hall
          obtain ⟨d', hseen', hhot'⟩ := hall
          rw [h.seenTaken_unique hstraight hlinear htruly.structs c d d' hseen hseen']
          exact hhot'
        · exact fun hhot' => ⟨d, hseen, hhot'⟩

/-! ### Counting -/

variable (hlinear : Linear st ptb)
  (hstructs : ∀ k d, Takes st ptb.commands k d → ∃ a m n tys, d.ty = .struct a m n tys)

include hlinear hstructs

open Classical in
theorem SequenceTyped.hot_debits_perm :
    (labelled Note.hot (fun d => canonical st ptb.commands d.arg) Note.ty
        (debited (entriesFrom st 0 ptb.commands))).Perm
      (labelled (fun c => decide (∃ d, SeenTaken st ptb.commands c d ∧ d.hot = true)) Note.arg
        Note.ty (credited (entriesFrom st 0 ptb.commands))) := by
  rw [List.perm_ext_iff_of_nodup
    (labelled_nodup _ _ _ _ (h.debited_nodup hstraight hlinear hstructs))
    (labelled_nodup _ _ _ _ h.credited_nodup)]
  intro e
  rw [mem_labelled, mem_labelled]
  constructor
  · intro hall
    obtain ⟨d, hd, hhot, hname, hty⟩ := hall
    obtain ⟨k, htakes⟩ := (debited_entriesFrom st _ d).mp hd
    have hinput : ∀ i, d.arg ≠ .input i := by
      intro i hi
      rw [htakes.input_hot i hi] at hhot
      cases hhot
    obtain ⟨i, c, -, hbrings, hseen, hcty⟩ := h.result_brought hstraight k d htakes hinput
    exact ⟨c, (credited_entriesFrom st _ c).mpr ⟨i, hbrings⟩,
      decide_eq_true ⟨d, hseen, hhot⟩, hseen.2.symm.trans hname, hcty.trans hty⟩
  · intro hall
    obtain ⟨c, hc, hhot, hname, hty⟩ := hall
    obtain ⟨d, hseen, hdhot⟩ := of_decide_eq_true hhot
    obtain ⟨k, htakes⟩ := hseen.1
    have hinput : ∀ i, d.arg ≠ .input i := by
      intro i hi
      rw [htakes.input_hot i hi] at hdhot
      cases hdhot
    obtain ⟨i, c', -, hbrings, hseen', hcty⟩ := h.result_brought hstraight k d htakes hinput
    have hsame : c' = c := List.inj_on_of_nodup_map h.credited_nodup
      ((credited_entriesFrom st _ c').mpr ⟨i, hbrings⟩) hc (hseen'.2.symm.trans hseen.2)
    rw [hsame] at hcty
    exact ⟨d, (debited_entriesFrom st _ d).mpr ⟨k, htakes⟩, hdhot, hseen.2.trans hname,
      hcty.symm.trans hty⟩

open Classical in
/-- The counts come out exactly if as many values of each type are brought as hot
potatoes as end as such. -/
theorem SequenceTyped.hot_count_iff (ty : MoveTypeTag) :
    ((credited (hotEntries st ptb.commands)).count ty =
      (debited (hotEntries st ptb.commands)).count ty +
        (((leftResults st ptb.commands).filter fun e => reallyHot st e.2).map Prod.snd).count ty) ↔
    (((credited (entriesFrom st 0 ptb.commands)).filter Note.hot).map Note.ty).count ty =
      (((credited (entriesFrom st 0 ptb.commands)).filter fun c =>
        decide (EndsHot st ptb.commands c)).map Note.ty).count ty := by
  have hleft : ((leftResults st ptb.commands).filter fun e => reallyHot st e.2).map Prod.snd =
      ((credited (entriesFrom st 0 ptb.commands)).filter fun c =>
        isLeft st ptb.commands c.arg && reallyHot st c.ty).map Note.ty := by
    rw [leftResults, results_eq, List.filter_map, List.filter_map, List.map_map, List.filter_filter]
    congr 1
    exact List.filter_congr fun c _ => Bool.and_comm _ _
  have hdebits := ((h.hot_debits_perm hstraight hlinear hstructs).map Prod.snd).count_eq ty
  rw [labelled_snd, labelled_snd] at hdebits
  have hends := count_filter_or (credited (entriesFrom st 0 ptb.commands))
    (fun c => isLeft st ptb.commands c.arg && reallyHot st c.ty)
    (fun c => decide (∃ d, SeenTaken st ptb.commands c d ∧ d.hot = true)) Note.ty ty ?_
  · have hsame : ((credited (entriesFrom st 0 ptb.commands)).filter fun c =>
        decide (EndsHot st ptb.commands c)) =
        (credited (entriesFrom st 0 ptb.commands)).filter fun c =>
          (isLeft st ptb.commands c.arg && reallyHot st c.ty) ||
            decide (∃ d, SeenTaken st ptb.commands c d ∧ d.hot = true) := by
      apply List.filter_congr
      intro c _
      rw [Bool.eq_iff_iff, decide_eq_true_eq, Bool.or_eq_true, Bool.and_eq_true, decide_eq_true_eq]
      exact Iff.rfl
    rw [hotEntries, credited_entriesOf, debited_entriesOf, hleft, hdebits, hsame, hends,
      Nat.add_comm]
  · intro c _ hc
    rw [decide_eq_false_iff_not]
    intro hall
    obtain ⟨d, hseen, -⟩ := hall
    rw [h.not_left hstraight c d hseen] at hc
    cases hc

end

section

variable {st : FuzzState} {ptb : MoveSequence} (h : SequenceTyped st ptb)
  (hstraight : Straight st ptb)

include h

theorem SequenceTyped.structs_of_listed
    (hlisted : AlwaysListed (InputThere st 0 ptb.inputs) (entriesFrom st 0 ptb.commands)) (k : ℕ)
    (d : Note) (htakes : Takes st ptb.commands k d) : ∃ a m n tys, d.ty = .struct a m n tys := by
  obtain ⟨pre, post, hsplit⟩ := List.append_of_mem
    ((mem_debited _ d).mp ((debited_entriesFrom st _ d).mpr ⟨k, htakes⟩))
  obtain ⟨c, ⟨hthere, -⟩ | ⟨front, note, back, hpre, ⟨hnote, hty, -⟩, -⟩⟩ := hlisted pre _ post hsplit
  · obtain ⟨j, ty, obj, id, object, hj, hid, hobject, hty, -⟩ := hthere
    have hmem := List.mem_of_getElem? hj
    obtain ⟨object', hobject', hty'⟩ := h.inputs ty obj hmem id hid
    obtain rfl := Option.some.inj (hobject.symm.trans hobject')
    rw [← hty, hty']
    exact h.structs ty obj hmem
  · have hmem : note ∈ credited (entriesFrom st 0 ptb.commands) := by
      rw [mem_credited, hsplit, hpre]
      exact List.mem_append_left _ (List.mem_append_right _ (List.mem_cons_self ..))
    obtain ⟨i, hbrings⟩ := (credited_entriesFrom st _ note).mp hmem
    rw [← hty]
    exact hbrings.listed_iff.mp hnote

include hstraight

/-- Marks are right exactly if what is left is read right, and what is taken is taken
as it is marked. -/
theorem SequenceTyped.readRight_iff (read : Note → Bool) (real : MoveTypeTag → Bool) :
    ReadRight st ptb.commands read real ↔ ∀ k c, Brings st ptb.commands k c →
      (isLeft st ptb.commands c.arg = true → read c = real c.ty) ∧
      (isLeft st ptb.commands c.arg = false → read c = true →
        ∃ d, SeenTaken st ptb.commands c d ∧ d.arg = c.arg ∧ read d = true) := by
  have hread : ∀ k c, Brings st ptb.commands k c →
      (c.arg ∈ ((debited (entriesFrom st 0 ptb.commands)).filter read).map Note.arg ↔
        ∃ d, SeenTaken st ptb.commands c d ∧ d.arg = c.arg ∧ read d = true) := by
    intro k c hbrings
    rw [List.mem_map]
    constructor
    · intro hall
      obtain ⟨d, hd, harg⟩ := hall
      obtain ⟨hd, hreads⟩ := List.mem_filter.mp hd
      refine ⟨d, ⟨(debited_entriesFrom st _ d).mp hd, ?_⟩, harg, hreads⟩
      rw [harg, h.canonical_brought k c hbrings]
    · intro hall
      obtain ⟨d, hseen, harg, hreads⟩ := hall
      exact ⟨d, List.mem_filter.mpr ⟨(debited_entriesFrom st _ d).mpr hseen.1, hreads⟩, harg⟩
  constructor
  · intro hright k c hbrings
    have hiff := hright c ((credited_entriesFrom st _ c).mpr ⟨k, hbrings⟩)
    rw [hread k c hbrings] at hiff
    constructor
    · intro hleft
      have hnone : ¬ ∃ d, SeenTaken st ptb.commands c d ∧ d.arg = c.arg ∧ read d = true := by
        intro hall
        obtain ⟨d, hseen, -⟩ := hall
        rw [h.not_left hstraight c d hseen] at hleft
        cases hleft
      rw [Bool.eq_iff_iff]
      exact ⟨fun hr => (hiff.mp ⟨hr, hnone⟩).2, fun hr => (hiff.mpr ⟨hleft, hr⟩).1⟩
    · intro htaken hr
      by_contra hnone
      have hleft := (hiff.mp ⟨hr, hnone⟩).1
      rw [htaken] at hleft
      cases hleft
  · intro hall c hc
    obtain ⟨k, hbrings⟩ := (credited_entriesFrom st _ c).mp hc
    obtain ⟨hwhenLeft, hwhenTaken⟩ := hall k c hbrings
    rw [hread k c hbrings]
    cases hleft : isLeft st ptb.commands c.arg with
    | true =>
      rw [hwhenLeft hleft]
      constructor
      · exact fun hr => ⟨rfl, hr.1⟩
      · intro hr
        refine ⟨hr.2, fun hall => ?_⟩
        obtain ⟨d, hseen, -⟩ := hall
        rw [h.not_left hstraight c d hseen] at hleft
        cases hleft
    | false =>
      refine iff_of_false (fun hr => hr.2 (hwhenTaken hleft hr.1)) fun hr => ?_
      cases hr.1

end

/-- A badge is lent for a toll; badges can be kept. -/
def tollModule : MoveModuleId := ⟨ObjectID.ofByte 7, "toll"⟩

def tollHandle : MoveStructHandle := ⟨tollModule, "Toll", ⟨false, false, false, false⟩, []⟩

def badgeHandle : MoveStructHandle := ⟨tollModule, "Badge", ⟨false, false, true, true⟩, []⟩

def badgeTag : MoveTypeTag := .struct (ObjectID.ofByte 7) "toll" "Badge" []

def lendAbi : MoveFunctionAbi :=
  ⟨"lend", [], [.struct badgeHandle, .struct tollHandle], [], .public_⟩

def payAbi : MoveFunctionAbi := ⟨"pay", [.struct tollHandle], [], [], .public_⟩

def keepAbi : MoveFunctionAbi :=
  ⟨"keep", [.typeParameter 0 ⟨false, false, true, true⟩], [], [⟨false, false, true, true⟩],
    .public_⟩

def tollState : FuzzState :=
  FuzzState.ofModule ⟨tollModule, [lendAbi, payAbi, keepAbi], [tollHandle, badgeHandle]⟩

def tollCall (function : String) (tys : List MoveTypeTag) (arguments : List SequenceArgument) :
    MoveSequenceCall := .call ⟨ObjectID.ofByte 7, "toll", function, tys, arguments⟩

def paidCommands : List MoveSequenceCall :=
  [tollCall "lend" [] [], tollCall "pay" [] [.nestedResult 0 1]]

def keepCommand : MoveSequenceCall := tollCall "keep" [badgeTag] [.nestedResult 0 0]

theorem lend_typed : CallTyped tollState ⟨[], []⟩ (tollCall "lend" [] []) := by
  refine ⟨_, lendAbi, rfl, rfl, ?_, by decide, ?_⟩
  · exact
      { count := rfl
        typed := fun k param arg h => by cases h
        arity := rfl
        able := fun i ty h => by cases h
        earlier := fun arg h => by cases h }
  · intro ret hret
    rcases List.mem_pair.mp hret with rfl | rfl
    · exact ⟨rfl, _, rfl, rfl⟩
    · exact ⟨rfl, _, rfl, rfl⟩

theorem pay_typed : CallTyped tollState ⟨[], [tollCall "lend" [] []]⟩
    (tollCall "pay" [] [.nestedResult 0 1]) := by
  refine ⟨_, payAbi, rfl, rfl, ?_, by decide, fun ret hret => by cases hret⟩
  exact
    { count := rfl
      typed := fun k param arg hparam harg => by
        cases k with
        | zero =>
          cases hparam
          cases harg
          exact ⟨_, rfl, rfl⟩
        | succ k => cases hparam
      arity := rfl
      able := fun i ty h => by cases h
      earlier := fun arg harg _ => by
        rw [List.mem_singleton.mp harg]
        exact Or.inl (by decide) }

theorem keep_typed : CallTyped tollState ⟨[], paidCommands⟩ keepCommand := by
  refine ⟨_, keepAbi, rfl, rfl, ?_, by decide, fun ret hret => by cases hret⟩
  exact
    { count := rfl
      typed := fun k param arg hparam harg => by
        cases k with
        | zero =>
          cases hparam
          cases harg
          exact ⟨badgeTag, rfl, rfl⟩
        | succ k => cases hparam
      arity := rfl
      able := fun i ty hi => by
        cases i with
        | zero =>
          cases hi
          exact ⟨_, _, rfl, rfl, rfl⟩
        | succ i => cases hi
      earlier := fun arg harg _ => by
        rw [List.mem_singleton.mp harg]
        exact Or.inl (by decide) }

theorem paid_typed : SequenceTyped tollState ⟨[], paidCommands⟩ where
  calls := by
    intro k cmd hk
    match k, hk with
    | 0, hk => exact Option.some.inj hk ▸ lend_typed
    | 1, hk => exact Option.some.inj hk ▸ pay_typed
    | k + 2, hk => cases hk
  inputs := fun ty obj h => by cases h
  structs := fun ty obj h => by cases h
  commands_length := by decide

theorem kept_typed : SequenceTyped tollState ⟨[], paidCommands ++ [keepCommand]⟩ where
  calls := by
    intro k cmd hk
    match k, hk with
    | 0, hk => exact Option.some.inj hk ▸ lend_typed
    | 1, hk => exact Option.some.inj hk ▸ pay_typed
    | 2, hk => exact Option.some.inj hk ▸ keep_typed
    | k + 3, hk => cases hk
  inputs := fun ty obj h => by cases h
  structs := fun ty obj h => by cases h
  commands_length := by decide

theorem paid_straight : Straight tollState ⟨[], paidCommands⟩ where
  contexts := by
    intro call function hmem hfunction
    rcases List.mem_pair.mp hmem with heq | heq
    · cases heq
      obtain rfl := Option.some.inj hfunction
      exact ⟨[], rfl⟩
    · cases heq
      obtain rfl := Option.some.inj hfunction
      exact ⟨[], rfl⟩
  gas := by
    intro k d htakes
    obtain ⟨cmd, hcmd, hmem⟩ := htakes
    match k, hcmd with
    | 0, hcmd =>
      obtain rfl := Option.some.inj hcmd
      rcases List.mem_pair.mp hmem with heq | heq
      · cases heq
      · cases heq
    | 1, hcmd =>
      obtain rfl := Option.some.inj hcmd
      obtain rfl := Entry.debit.inj (List.mem_singleton.mp hmem)
      intro harg
      cases harg
    | k + 2, hcmd => cases hcmd

theorem paid_oneWay : MistakesOneWay tollState paidCommands := by
  intro ty
  refine Or.inl fun k c hbrings _ hhot => ?_
  obtain ⟨cmd, hcmd, hmem⟩ := hbrings
  match k, hcmd with
  | 0, hcmd =>
    obtain rfl := Option.some.inj hcmd
    rcases List.mem_pair.mp hmem with heq | heq
    · rw [Entry.credit.inj heq] at hhot
      cases hhot
    · obtain rfl := Entry.credit.inj heq
      exact Or.inr ⟨_, ⟨⟨1, _, rfl, List.mem_singleton_self _⟩, rfl⟩, rfl⟩
  | 1, hcmd =>
    obtain rfl := Option.some.inj hcmd
    cases List.mem_singleton.mp hmem
  | k + 2, hcmd => cases hcmd

end Movy.Fuzz
