import Movy.Fuzz.Cut

/-!
# Stripping a decorated sequence

`strip_generated` knows the calls of hooks by their names. It does not know the
producers that were appended for the arguments of a hook, so it gives the base
sequence back when they have left nothing but hooks themselves.
-/

namespace Movy.Fuzz

open Movy.Types Movy.Store MoveAbiSignatureToken

/-! ### Producers that the stripper knows -/

def hookAppend (st : FuzzState) (ptb : MoveSequence) (ident : FunctionIdent) (fixedArgs : FixedArgs)
    (fixedTyArgs : TyArgs) (used : List SequenceArgument) :
    Choice (Option Appended × MoveSequence) :=
  appendTop st ptb ident fixedArgs fixedTyArgs used true

/- The call for a producer, cut off if it leaves a command that is not a hook. -/
def cutStray (st : FuzzState) (ptb : MoveSequence)
    (append : Choice (Option Appended × MoveSequence)) :
    Choice (Option Appended × MoveSequence) := do
  let r ← append
  if (r.2.commands.drop ptb.commands.length).all (isHook st) then pure r else Choice.panic

/- `append_function` up to the first producer that leaves such a command. -/
def appendKnown (st : FuzzState) (ptb : MoveSequence) (ident : FunctionIdent)
    (fixedArgs : FixedArgs) (fixedTyArgs : TyArgs) (usedArguments : List SequenceArgument) :
    Choice (Option Appended × MoveSequence) :=
  appendStep st
    (fun ptb ident tyArgs used =>
      cutStray st ptb (appendFunction st 10 ptb ident SortedMap.empty tyArgs used false))
    ptb ident fixedArgs fixedTyArgs usedArguments true

/- The decoration as long as the producers leave nothing but hooks. -/
def applyHooksKnown (st : FuzzState) (base : MoveSequence) : Choice MoveSequence :=
  decorate st (appendKnown st) base

theorem cutStray_refines (st : FuzzState) (ptb : MoveSequence)
    (append : Choice (Option Appended × MoveSequence)) :
    Choice.Refines (cutStray st ptb append) append := by
  intro rs r hr
  obtain ⟨a, mid, ha, hr⟩ := (Choice.bind_eq_some _ _ rs r).mp hr
  split_ifs at hr
  · rw [(Choice.pure_eq_some a mid r).mp hr]
    exact ha
  · cases hr

theorem appendKnown_refines (st : FuzzState) (ptb : MoveSequence) (ident : FunctionIdent)
    (fixedArgs : FixedArgs) (fixedTyArgs : TyArgs) (used : List SequenceArgument) :
    Choice.Refines (appendKnown st ptb ident fixedArgs fixedTyArgs used)
      (hookAppend st ptb ident fixedArgs fixedTyArgs used) := by
  apply appendStep_refines
  intro ptb ident tyArgs used
  exact cutStray_refines st ptb _

theorem applyHooksKnown_refines (st : FuzzState) (base : MoveSequence) :
    Choice.Refines (applyHooksKnown st base) (applyHooks st base) :=
  decorate_refines st _ _ (appendKnown_refines st) base

theorem finishAppend_own (function : MoveFunctionAbi) (ident : FunctionIdent) (inputLen : ℕ)
    (ptb : MoveSequence) (arguments : List SequenceArgument) (typeArguments : List MoveTypeTag)
    (inputs : List InputArgument) :
    Choice.Ensures (finishAppend function ident true inputLen ptb arguments typeArguments inputs)
      fun r => Grows (fun cmd => ∃ call, cmd = .call call ∧ callIdent call = ident) ptb r.2 := by
  refine (finishAppend_cases _ _ _ _ _ _ _ _).mono ?_
  intro r hr
  rcases hr with rfl | ⟨_, split, added, call, rfl, hident, _, hsame⟩
  · exact Grows.refl _ ptb
  · rw [hsame rfl]
    exact grows_append _ ptb added (.call call) ⟨call, rfl, hident⟩

theorem cutStray_grows (st : FuzzState) (ptb : MoveSequence)
    (append : Choice (Option Appended × MoveSequence))
    (happend : Choice.Ensures append fun r => GrowsFreely ptb r.2) :
    Choice.Ensures (cutStray st ptb append) fun r => Grows (fun cmd => isHook st cmd) ptb r.2 := by
  refine Choice.ensures_bind _ _ _ _ happend ?_
  rintro r ⟨hin, added, hadded, _⟩
  split_ifs with hall
  · apply Choice.ensures_pure
    rw [hadded, List.drop_left, List.all_eq_true] at hall
    exact ⟨hin, added, hadded, hall⟩
  · exact Choice.ensures_panic _

theorem appendKnown_grows (st : FuzzState) (ptb : MoveSequence) (ident : FunctionIdent)
    (fixedArgs : FixedArgs) (fixedTyArgs : TyArgs) (used : List SequenceArgument)
    (hident : ident ∈ hookIdents st) :
    Choice.Ensures (appendKnown st ptb ident fixedArgs fixedTyArgs used) fun r =>
      Grows (fun cmd => isHook st cmd) ptb r.2 := by
  refine appendStep_ensures st _ (Grows (fun cmd => isHook st cmd) ptb) _ ptb ident fixedArgs
    fixedTyArgs used true (Grows.refl _ ptb) (fun _ h => h) ?_ ?_
  · intro inputLen tyArgs params args d hd
    refine (partialArgs_grows st _ (fun ptb ident tyArgs used => cutStray_grows st ptb _
      (appendFunction_grows st 10 ptb ident SortedMap.empty tyArgs used false)) ident inputLen
        fixedArgs tyArgs params args d).mono ?_
    intro r hr
    have hgrows := hd.trans hr.1
    exact ⟨hgrows, fun next hnext => hr.2 next hnext ▸ hgrows⟩
  · intro function inputLen ptb' arguments typeArguments inputs hptb
    refine (finishAppend_own function ident inputLen ptb' arguments typeArguments inputs).mono ?_
    intro r hr
    refine hptb.trans (hr.mono ?_)
    rintro cmd ⟨call, rfl, hcall⟩
    simp only [isHook, hcall, hident, decide_true]

/-! ### Where the decoration is cut off -/

theorem cutStray_cuts (st : FuzzState) (ptb : MoveSequence)
    (append : Choice (Option Appended × MoveSequence))
    (happend : Choice.Ensures append fun r => GrowsFreely ptb r.2) :
    Choice.CutsAbove (cutStray st ptb append) append (countOf (fun cmd => !isHook st cmd) ptb)
      fun r => countOf (fun cmd => !isHook st cmd) r.2 where
  least := happend.mono fun r hr => hr.countOf_le _
  cuts := by
    intro rs r rest h
    obtain ⟨_, added, hadded, _⟩ := happend rs r rest h
    by_cases hall : (r.2.commands.drop ptb.commands.length).all (isHook st) = true
    · refine .inl ((Choice.bind_eq _ _ rs rest r h).trans ?_)
      rw [if_pos hall]
      rfl
    · right
      rw [hadded, List.drop_left, List.all_eq_true, not_forall] at hall
      obtain ⟨cmd, hcmd⟩ := hall
      rw [Classical.not_imp, Bool.not_eq_true] at hcmd
      have hpos : 0 < added.countP fun cmd => !isHook st cmd :=
        List.countP_pos_iff.mpr ⟨cmd, hcmd.1, by rw [hcmd.2]; rfl⟩
      show countOf _ ptb < r.2.commands.countP _
      rw [hadded, List.countP_append]
      exact Nat.lt_add_of_pos_right hpos

theorem isHook_mapCommand (st : FuzzState) (f : SequenceArgument → SequenceArgument)
    (cmd : MoveSequenceCall) : isHook st (mapCommand f cmd) = isHook st cmd := by
  cases cmd <;> rfl

theorem isHook_renameCommand (st : FuzzState) (f : ℕ → ℕ) (cmd : MoveSequenceCall) :
    isHook st (renameCommand f cmd) = isHook st cmd := isHook_mapCommand st _ cmd

theorem isHook_remapArgs (st : FuzzState) (f : SequenceArgument → Option SequenceArgument)
    (cmd cmd' : MoveSequenceCall) (h : remapArgs f cmd = some cmd') :
    isHook st cmd' = isHook st cmd := by
  obtain ⟨g, rfl, _⟩ := remapArgs_shape f cmd cmd' h
  exact isHook_mapCommand st g cmd

/- Either the run gets to the end, or there are commands that neither the base nor
the hooks account for. -/
theorem insertHooks_known (st : FuzzState) (base ptb : MoveSequence) (rs rest : List ℕ)
    (hrun : insertHooks st (hookAppend st) base rs = some (ptb, rest)) :
    insertHooks st (appendKnown st) base rs = some (ptb, rest) ∨
      (base.commands.countP fun cmd => !isHook st cmd) < countOf (fun cmd => !isHook st cmd) ptb := by
  have hcuts := insertHooks_cuts (fun cmd => !isHook st cmd) st (appendKnown st) (hookAppend st)
    (fun ptb ident fixedArgs fixedTyArgs used => appendStep_cuts _ st _ _
      (fun ptb ident tyArgs used => cutStray_cuts st ptb _
        (appendFunction_grows st 10 ptb ident SortedMap.empty tyArgs used false))
      (fun ptb ident tyArgs used =>
        appendFunction_grows st 10 ptb ident SortedMap.empty tyArgs used false)
      ptb ident fixedArgs fixedTyArgs used true)
    (fun cmd mapping cmd' h => by rw [isHook_remapArgs st _ cmd cmd' h]) base
  exact hcuts.cuts rs ptb rest hrun

/-! ### Renaming back -/

theorem stripMapping_append (st : FuzzState) (n : ℕ) (a b : List MoveSequenceCall) :
    stripMapping st n (a ++ b) = stripMapping st n a ++
      stripMapping st (n + (a.filter fun cmd => !isHook st cmd).length) b := by
  induction a generalizing n with
  | nil => rfl
  | cons cmd a ih =>
    by_cases hcmd : isHook st cmd
    · simp [stripMapping, hcmd, ih]
    · have hn : n + 1 + (a.filter fun cmd => !isHook st cmd).length =
          n + ((a.filter fun cmd => !isHook st cmd).length + 1) := by omega
      simp [stripMapping, hcmd, ih, hn]

theorem stripMapping_length (st : FuzzState) (n : ℕ) (cmds : List MoveSequenceCall) :
    (stripMapping st n cmds).length = cmds.length := by
  induction cmds generalizing n with
  | nil => rfl
  | cons cmd cmds ih =>
    by_cases hcmd : isHook st cmd <;> simp [stripMapping, hcmd, ih]

namespace Woven

variable {st : FuzzState} {base out : List MoveSequenceCall} {pos : List ℕ}

theorem filter_hooks (h : Woven (fun cmd => isHook st cmd) base out pos)
    (hbase : ∀ cmd ∈ base, isHook st cmd = false) :
    (out.filter fun cmd => !isHook st cmd) = base.map (renameCommand (positions pos)) := by
  induction h with
  | nil => rfl
  | added base out pos cmd _ hP ih =>
    have hcmd : isHook st cmd = true := hP
    simp [ih hbase, hcmd]
  | base base out pos cmd hw hrefs ih =>
    have hcmd := hbase cmd (List.mem_append_right _ (List.mem_singleton_self cmd))
    have hlen := hw.length_eq
    have hstable : ∀ c k, k ≤ base.length → (∀ arg ∈ commandArgs c, RefersBelow k arg) →
        renameCommand (positions pos) c = renameCommand (positions (pos ++ [out.length])) c := by
      intro c k hk hc
      apply renameCommand_congr _ _ k c hc
      intro i hi
      exact positions_append pos out.length i (by omega)
    have hmap : base.map (renameCommand (positions pos)) =
        base.map (renameCommand (positions (pos ++ [out.length]))) := by
      apply List.map_congr_left
      intro c hc
      obtain ⟨k, hk, rfl⟩ := List.getElem_of_mem hc
      exact hstable _ k (by omega) (hw.backward k _ (List.getElem?_eq_getElem hk))
    rw [List.filter_append, ih fun c hc => hbase c (List.mem_append_left _ hc), hmap,
      List.map_append, List.map_singleton, hstable cmd base.length (Nat.le_refl _) hrefs]
    simp [isHook_renameCommand, hcmd]

theorem stripMapping_positions (h : Woven (fun cmd => isHook st cmd) base out pos)
    (hbase : ∀ cmd ∈ base, isHook st cmd = false) (k : ℕ) (hk : k < base.length) :
    (stripMapping st 0 out)[positions pos k]? = some (some (asU16 k)) := by
  induction h with
  | nil => simp at hk
  | added base out pos cmd hw _ ih =>
    have hget := ih hbase hk
    rw [stripMapping_append, List.getElem?_append_left (List.getElem?_eq_some_iff.mp hget).1]
    exact hget
  | base base out pos cmd hw hrefs ih =>
    have hcmd := hbase cmd (List.mem_append_right _ (List.mem_singleton_self cmd))
    have hbase' : ∀ c ∈ base, isHook st c = false :=
      fun c hc => hbase c (List.mem_append_left _ hc)
    have hlen := hw.length_eq
    rw [stripMapping_append]
    rcases Nat.lt_or_ge k base.length with hlt | hge
    · have hget := ih hbase' hlt
      rw [← positions_append pos out.length k (by omega),
        List.getElem?_append_left (List.getElem?_eq_some_iff.mp hget).1]
      exact hget
    · simp only [List.length_append, List.length_singleton] at hk
      have hkl : k = pos.length := by omega
      have hlast : positions (pos ++ [out.length]) k = out.length := by
        simp [positions, hkl]
      have hkept : (out.filter fun cmd => !isHook st cmd).length = k := by
        rw [hw.filter_hooks hbase', List.length_map]
        omega
      rw [hlast, List.getElem?_append_right (by rw [stripMapping_length]), stripMapping_length,
        Nat.sub_self, hkept]
      simp [stripMapping, isHook_renameCommand, hcmd]

theorem remap_renamed (h : Woven (fun cmd => isHook st cmd) base out pos)
    (hbase : ∀ cmd ∈ base, isHook st cmd = false) (hlen : out.length ≤ 2 ^ 16)
    (tail : List MoveSequenceCall) (cmd : MoveSequenceCall) (hcmd : cmd ∈ base) :
    remapCommandWithMap (renameCommand (positions pos) cmd)
      (stripMapping st 0 (out ++ tail)) = some cmd := by
  obtain ⟨k, hk, rfl⟩ := List.getElem_of_mem hcmd
  have hback := h.backward k _ (List.getElem?_eq_getElem hk)
  have hindex : ∀ i : U16, i.val < k → (stripMapping st 0 (out ++ tail))[(asU16
      (positions pos i.val)).val]? = some (some i) := by
    intro i hi
    have hget := h.stripMapping_positions hbase i.val (by omega)
    have hlt := (List.getElem?_eq_some_iff.mp hget).1
    have hval : (asU16 (positions pos i.val)).val = positions pos i.val := by
      rw [stripMapping_length] at hlt
      exact Nat.mod_eq_of_lt (by omega)
    have hi' : asU16 i.val = i := Fin.ext (Nat.mod_eq_of_lt i.isLt)
    rw [hval, stripMapping_append, List.getElem?_append_left hlt, hget, hi']
  have hargs : ∀ arg ∈ commandArgs base[k], remapArgWithMap (stripMapping st 0 (out ++ tail))
      (renameArg (positions pos) arg) = some arg := by
    intro arg harg
    cases arg with
    | gasCoin => rfl
    | input i => rfl
    | result i =>
      have hi := hindex i (hback _ harg i.val rfl)
      simp only [renameArg, remapArgWithMap, hi, Option.bind_some, Option.map_some]
    | nestedResult i j =>
      have hi := hindex i (hback _ harg i.val rfl)
      simp only [renameArg, remapArgWithMap, hi, Option.bind_some, Option.map_some]
  have hid := remapArgs_eq _ id base[k] hargs
  rw [mapCommand_id] at hid
  unfold remapCommandWithMap renameCommand
  rw [remapArgs_mapCommand]
  exact hid

end Woven

/-! ### The commands at the end -/

theorem isFromBalance_remap (f : SequenceArgument → Option SequenceArgument)
    (cmd cmd' : MoveSequenceCall) (h : remapArgs f cmd = some cmd') :
    isFromBalance cmd' = isFromBalance cmd := by
  obtain ⟨g, rfl, _⟩ := remapArgs_shape f cmd cmd' h
  cases cmd <;> rfl

theorem remap_transfer (f : SequenceArgument → Option SequenceArgument)
    (objects : List SequenceArgument) (i : U16) (cmd' : MoveSequenceCall)
    (hi : f (.input i) = some (.input i))
    (h : remapArgs f (.transferObjects objects (.input i)) = some cmd') :
    ∃ objects', cmd' = .transferObjects objects' (.input i) := by
  obtain ⟨objects', _, h⟩ := Option.bind_eq_some_iff.mp h
  rw [hi] at h
  exact ⟨objects', (Option.some.inj h).symm⟩

theorem rdropWhile_append_of_forall {α : Type} (p : α → Bool) (l tail : List α)
    (htail : ∀ a ∈ tail, p a) (hlast : ∀ a, l.getLast? = some a → p a = false) :
    (l ++ tail).rdropWhile p = l := by
  induction tail using List.reverseRecOn with
  | nil =>
    rw [List.append_nil, List.rdropWhile_eq_self_iff]
    intro hne
    rw [hlast _ (List.getLast?_eq_some_getLast hne)]
    decide
  | append_singleton tail a ih =>
    have ha := htail a (List.mem_append_right _ (List.mem_singleton_self a))
    rw [← List.append_assoc, List.rdropWhile_concat_pos _ _ _ ha]
    exact ih fun b hb => htail b (List.mem_append_left _ hb)

theorem endsInTransfer_append (l tail : List MoveSequenceCall)
    (htail : ∀ cmd ∈ tail, isFromBalance cmd) (hl : endsInTransfer l = false) :
    endsInTransfer (l ++ tail) = false := by
  cases htail' : tail.getLast? with
  | none =>
    rw [List.getLast?_eq_none_iff.mp htail', List.append_nil]
    exact hl
  | some cmd =>
    have hcmd := htail cmd (List.mem_of_getLast? htail')
    unfold endsInTransfer
    rw [List.getLast?_append, htail', Option.some_or]
    cases cmd with
    | call call => rfl
    | _ => cases hcmd

/- A sequence as the mutators work on it: nothing in it was generated. -/
structure Undecorated (st : FuzzState) (base : MoveSequence) : Prop where
  backward : BackwardRefs base.commands
  noHooks : ∀ cmd ∈ base.commands, isHook st cmd = false
  noFromBalance : ∀ cmd, base.commands.getLast? = some cmd → isFromBalance cmd = false
  noTransfer : endsInTransfer base.commands = false

/- What the stripper keeps of commands behind the woven base. -/
def keptTail (st : FuzzState) (out tail : List MoveSequenceCall) : List MoveSequenceCall :=
  (tail.filter fun cmd => !isHook st cmd).filterMap fun cmd =>
    remapCommandWithMap cmd (stripMapping st 0 (out ++ tail))

theorem stripHooksOnly_woven (st : FuzzState) (base : List MoveSequenceCall)
    (inputs : List InputArgument) (out tail : List MoveSequenceCall) (pos : List ℕ)
    (hwoven : Woven (fun cmd => isHook st cmd) base out pos)
    (hbase : ∀ cmd ∈ base, isHook st cmd = false) (hlen : out.length ≤ 2 ^ 16) :
    stripHooksOnly st ⟨inputs, out ++ tail⟩ = ⟨inputs, base ++ keptTail st out tail⟩ := by
  have hkept : (base.map (renameCommand (positions pos))).filterMap
      (fun cmd => remapCommandWithMap cmd (stripMapping st 0 (out ++ tail))) = base := by
    rw [List.filterMap_map]
    calc base.filterMap _ = base.filterMap some := by
          apply List.filterMap_congr
          intro cmd hcmd
          exact hwoven.remap_renamed hbase hlen tail cmd hcmd
      _ = base := List.filterMap_some
  unfold stripHooksOnly keptTail
  simp only [List.filter_append, List.filterMap_append, hwoven.filter_hooks hbase, hkept]

theorem keptTail_froms (st : FuzzState) (mapping : List (Option U16))
    (froms : List MoveSequenceCall) (hfroms : ∀ cmd ∈ froms, isFromBalance cmd) :
    ∀ cmd ∈ (froms.filter fun cmd => !isHook st cmd).filterMap fun cmd =>
      remapCommandWithMap cmd mapping, isFromBalance cmd := by
  intro cmd hcmd
  obtain ⟨cmd', hmem, hremap⟩ := List.mem_filterMap.mp hcmd
  rw [isFromBalance_remap _ cmd' cmd hremap]
  exact hfroms cmd' (List.mem_of_mem_filter hmem)

theorem keptTail_transfer (st : FuzzState) (out froms : List MoveSequenceCall)
    (objects : List SequenceArgument) (i : U16) (hfroms : ∀ cmd ∈ froms, isFromBalance cmd) :
    ∃ froms', (∀ cmd ∈ froms', isFromBalance cmd) ∧
      (keptTail st out (froms ++ [.transferObjects objects (.input i)]) = froms' ∨
        ∃ objects', keptTail st out (froms ++ [.transferObjects objects (.input i)]) =
          froms' ++ [.transferObjects objects' (.input i)]) := by
  refine ⟨_, keptTail_froms st
    (stripMapping st 0 (out ++ (froms ++ [.transferObjects objects (.input i)]))) froms hfroms, ?_⟩
  unfold keptTail
  rw [List.filter_append, List.filterMap_append]
  cases htransfer : remapCommandWithMap (.transferObjects objects (.input i))
      (stripMapping st 0 (out ++ (froms ++ [.transferObjects objects (.input i)]))) with
  | none =>
    left
    simp [isHook, htransfer]
  | some cmd =>
    obtain ⟨objects', rfl⟩ := remap_transfer (remapArgWithMap _) objects i cmd rfl htransfer
    right
    refine ⟨objects', ?_⟩
    simp [isHook, htransfer]

/- Neither of the two passes takes such a sequence for one with something left over. -/
def EndsPlain (commands : List MoveSequenceCall) : Prop :=
  (∀ cmd, commands.getLast? = some cmd → isFromBalance cmd = false) ∧
    endsInTransfer commands = false

theorem stripGenerated_froms (commands froms : List MoveSequenceCall)
    (inputs : List InputArgument) (hplain : EndsPlain commands)
    (hfroms : ∀ cmd ∈ froms, isFromBalance cmd) :
    removeProcessBalance (removeProcessKeyStore ⟨inputs, commands ++ froms⟩) =
      ⟨inputs, commands⟩ := by
  have hends := endsInTransfer_append commands froms hfroms hplain.2
  unfold removeProcessKeyStore removeProcessBalance
  simp only [hends, Bool.false_eq_true, if_false, rdropWhile_append_of_forall isFromBalance
    commands froms hfroms hplain.1]

theorem stripGenerated_transfer (commands froms : List MoveSequenceCall)
    (inputs : List InputArgument) (input : InputArgument) (objects : List SequenceArgument)
    (i : U16) (hplain : EndsPlain commands) (hfroms : ∀ cmd ∈ froms, isFromBalance cmd) :
    removeProcessBalance (removeProcessKeyStore ⟨inputs ++ [input],
      commands ++ (froms ++ [.transferObjects objects (.input i)])⟩) = ⟨inputs, commands⟩ := by
  rw [← List.append_assoc]
  have hends : endsInTransfer ((commands ++ froms) ++ [.transferObjects objects (.input i)]) =
      true := by
    unfold endsInTransfer
    rw [List.getLast?_concat]
  unfold removeProcessKeyStore removeProcessBalance
  simp only [hends, if_true, List.dropLast_concat, rdropWhile_append_of_forall isFromBalance
    commands froms hfroms hplain.1]

theorem stripGenerated_processed (st : FuzzState) (ptb mid result : MoveSequence)
    (kept : List MoveSequenceCall) (hmid : processBalance st ptb = some mid)
    (hresult : processKeyStore st mid = some result) (hlen : result.commands.length ≤ 2 ^ 16)
    (hkept : ∀ tail, ptb.commands.length ≤ 2 ^ 16 → stripHooksOnly st ⟨result.inputs,
      ptb.commands ++ tail⟩ = ⟨result.inputs, kept ++ keptTail st ptb.commands tail⟩)
    (hplain : EndsPlain kept) :
    (stripGenerated st result).commands = kept ∧
      ptb.inputs <+: (stripGenerated st result).inputs := by
  obtain ⟨⟨_, froms, hfroms, hall⟩, hinputs⟩ := processBalance_grows st ptb mid hmid
  obtain ⟨midInputs, midCommands⟩ := mid
  subst hinputs hfroms
  unfold stripGenerated
  rcases processKeyStore_cases st _ result hresult with rfl | ⟨objects, rfl⟩
  · have hptb : ptb.commands.length ≤ 2 ^ 16 := by
      simp only [List.length_append] at hlen
      omega
    have hstrip := stripGenerated_froms kept _ ptb.inputs hplain
      (keptTail_froms st (stripMapping st 0 (ptb.commands ++ froms)) froms hall)
    rw [hkept froms hptb]
    unfold keptTail
    rw [hstrip]
    exact ⟨rfl, List.prefix_rfl⟩
  · have hptb : ptb.commands.length ≤ 2 ^ 16 := by
      simp only [List.length_append] at hlen
      omega
    have hstrip := hkept (froms ++ [.transferObjects objects (.input (asU16 ptb.inputs.length))]) hptb
    rw [← List.append_assoc] at hstrip
    rw [hstrip]
    obtain ⟨froms', hfroms', htail | ⟨objects', htail⟩⟩ :=
      keptTail_transfer st ptb.commands froms objects (asU16 ptb.inputs.length) hall
    · rw [htail, stripGenerated_froms kept froms' _ hplain hfroms']
      exact ⟨rfl, List.prefix_append ..⟩
    · rw [htail, stripGenerated_transfer kept froms' _ _ objects' _ hplain hfroms']
      exact ⟨rfl, List.prefix_rfl⟩

/-! ### A command that is left -/

/- The stripper loses a command that is not a hook: it drops it with the hook whose result it
uses, or takes the last one for the conversion of a balance. -/
def LosesStray (st : FuzzState) (commands : List MoveSequenceCall) : Prop :=
  (∃ cmd ∈ commands, isHook st cmd = false ∧
    remapCommandWithMap cmd (stripMapping st 0 commands) = none) ∨
  ∃ cmd, (commands.filter fun cmd => !isHook st cmd).getLast? = some cmd ∧
    isFromBalance cmd = true

theorem remapCommandWithMap_append (cmd cmd' : MoveSequenceCall) (a b : List (Option U16))
    (h : remapCommandWithMap cmd a = some cmd') : remapCommandWithMap cmd (a ++ b) = some cmd' := by
  obtain ⟨g, rfl, hargs⟩ := remapArgs_shape _ cmd cmd' h
  apply remapArgs_eq
  intro arg harg
  rw [← hargs arg harg]
  have hindex : ∀ i : U16, a[i.val]? ≠ none → (a ++ b)[i.val]? = a[i.val]? := by
    intro i hi
    rw [List.getElem?_append_left]
    simpa using hi
  have hsome := hargs arg harg
  cases arg with
  | gasCoin => rfl
  | input i => rfl
  | result i =>
    simp only [remapArgWithMap] at hsome ⊢
    rw [hindex i fun hnone => by simp [hnone] at hsome]
  | nestedResult i j =>
    simp only [remapArgWithMap] at hsome ⊢
    rw [hindex i fun hnone => by simp [hnone] at hsome]

theorem Woven.last_kept {st : FuzzState} {base out : List MoveSequenceCall} {pos : List ℕ}
    (h : Woven IsCall base out pos) (hbase : ∀ cmd ∈ base, isHook st cmd = false)
    (cmd : MoveSequenceCall)
    (hlast : (out.filter fun cmd => !isHook st cmd).getLast? = some cmd) :
    IsCall cmd ∨ ∃ b f, base.getLast? = some b ∧ cmd = renameCommand f b := by
  induction h with
  | nil => cases hlast
  | added base out pos c _ hP ih =>
    rw [List.filter_append] at hlast
    by_cases hc : isHook st c = true
    · rw [List.filter_cons_of_neg (by simp [hc]), List.filter_nil, List.append_nil] at hlast
      exact ih hbase hlast
    · rw [List.filter_cons_of_pos (by simp [hc]), List.filter_nil, List.getLast?_concat] at hlast
      rw [← Option.some.inj hlast]
      exact .inl hP
  | base base out pos c _ _ ih =>
    have hc := hbase c (List.mem_append_right _ (List.mem_singleton_self c))
    rw [List.filter_append, List.filter_cons_of_pos (by simp [isHook_renameCommand, hc]),
      List.filter_nil, List.getLast?_concat] at hlast
    exact .inr ⟨c, _, List.getLast?_concat, (Option.some.inj hlast).symm⟩

theorem endsInTransfer_eq_false (commands : List MoveSequenceCall)
    (h : ∀ objects i, commands.getLast? ≠ some (.transferObjects objects (.input i))) :
    endsInTransfer commands = false := by
  unfold endsInTransfer
  split
  · rename_i objects i hlast
    exact absurd hlast (h objects i)
  · rfl

theorem renamed_not_transfer (mapping : List (Option U16)) (f : ℕ → ℕ) (cmd : MoveSequenceCall)
    (objects : List SequenceArgument) (i : U16)
    (h : remapCommandWithMap (renameCommand f cmd) mapping =
      some (.transferObjects objects (.input i))) :
    ∃ objects', cmd = .transferObjects objects' (.input i) := by
  obtain ⟨g, hcmd, hargs⟩ := remapArgs_shape _ _ _ h
  cases cmd with
  | transferObjects objects' dst =>
    have hdst : SequenceArgument.input i = g (renameArg f dst) :=
      (MoveSequenceCall.transferObjects.inj hcmd).2
    have harg := hargs (renameArg f dst)
      (List.mem_append_right _ (List.mem_singleton_self _))
    rw [← hdst] at harg
    refine ⟨objects', ?_⟩
    cases dst with
    | input j =>
      obtain rfl : j = i := SequenceArgument.input.inj (Option.some.inj harg)
      rfl
    | gasCoin => cases harg
    | result j =>
      obtain ⟨n, _, harg⟩ := Option.bind_eq_some_iff.mp harg
      obtain ⟨_, _, harg⟩ := Option.map_eq_some_iff.mp harg
      cases harg
    | nestedResult j l =>
      obtain ⟨n, _, harg⟩ := Option.bind_eq_some_iff.mp harg
      obtain ⟨_, _, harg⟩ := Option.map_eq_some_iff.mp harg
      cases harg
  | _ => cases hcmd

/- If the stripper loses none of the commands that it does not know, they are all left. -/
theorem stripped_length (st : FuzzState) (base ptb mid result : MoveSequence) (pos : List ℕ)
    (hbase : Undecorated st base) (hwoven : Woven IsCall base.commands ptb.commands pos)
    (hmid : processBalance st ptb = some mid) (hresult : processKeyStore st mid = some result)
    (hlen : result.commands.length ≤ 2 ^ 16) (hloses : ¬ LosesStray st ptb.commands) :
    (stripGenerated st result).commands.length = countOf (fun cmd => !isHook st cmd) ptb := by
  rw [LosesStray, not_or] at hloses
  obtain ⟨hdropped, hconverted⟩ := hloses
  have himage : ∀ cmd ∈ ptb.commands.filter (fun cmd => !isHook st cmd),
      ∃ cmd', remapCommandWithMap cmd (stripMapping st 0 ptb.commands) = some cmd' := by
    intro cmd hcmd
    obtain ⟨hmem, hhook⟩ := List.mem_filter.mp hcmd
    rw [← Option.ne_none_iff_exists']
    intro hnone
    exact hdropped ⟨cmd, hmem, by simpa using hhook, hnone⟩
  have hkept := stripGenerated_processed st ptb mid result
    ((ptb.commands.filter fun cmd => !isHook st cmd).filterMap fun cmd =>
      remapCommandWithMap cmd (stripMapping st 0 ptb.commands)) hmid hresult hlen ?_ ?_
  · rw [hkept.1, countOf, List.countP_eq_length_filter, List.filterMap_length_eq_length]
    intro cmd hcmd
    obtain ⟨cmd', hcmd'⟩ := himage cmd hcmd
    rw [hcmd']
    rfl
  · intro tail _
    unfold stripHooksOnly keptTail
    simp only [List.filter_append, List.filterMap_append]
    congr 2
    apply List.filterMap_congr
    intro cmd hcmd
    obtain ⟨cmd', hcmd'⟩ := himage cmd hcmd
    rw [stripMapping_append, remapCommandWithMap_append cmd cmd' _ _ hcmd', hcmd']
  · rcases List.eq_nil_or_concat (ptb.commands.filter fun cmd => !isHook st cmd) with
      hnil | ⟨init, cmd, hconcat⟩
    · rw [hnil]
      exact ⟨fun _ h => by simp at h, rfl⟩
    · rw [List.concat_eq_append] at hconcat
      have hlast : (ptb.commands.filter fun cmd => !isHook st cmd).getLast? = some cmd := by
        rw [hconcat, List.getLast?_concat]
      obtain ⟨cmd', hcmd'⟩ := himage cmd (List.mem_of_getLast? hlast)
      have hone : [cmd].filterMap (fun cmd => remapCommandWithMap cmd
          (stripMapping st 0 ptb.commands)) = [cmd'] := by
        simp only [List.filterMap_cons, hcmd', List.filterMap_nil]
      have hlast' : ((ptb.commands.filter fun cmd => !isHook st cmd).filterMap fun cmd =>
          remapCommandWithMap cmd (stripMapping st 0 ptb.commands)).getLast? = some cmd' := by
        rw [hconcat, List.filterMap_append, hone, List.getLast?_concat]
      refine ⟨?_, endsInTransfer_eq_false _ ?_⟩
      · intro c hc
        rw [← Option.some.inj (hlast'.symm.trans hc), isFromBalance_remap _ _ _ hcmd']
        by_contra hfrom
        exact hconverted ⟨cmd, hlast, by simpa using hfrom⟩
      · intro objects i hc
        obtain rfl := Option.some.inj (hlast'.symm.trans hc)
        rcases hwoven.last_kept hbase.noHooks cmd hlast with ⟨call, rfl⟩ | ⟨b, f, hb, rfl⟩
        · obtain ⟨g, hg, _⟩ := remapArgs_shape _ _ _ hcmd'
          cases hg
        · obtain ⟨objects', rfl⟩ := renamed_not_transfer _ f b objects i hcmd'
          have hends := hbase.noTransfer
          rw [endsInTransfer, hb] at hends
          cases hends

/- Stripping a decorated sequence gives the base back when the producers of arguments for hooks
and contexts have left nothing but hooks. Where they have left anything else, the stripper gives
it back only if it loses a command that it does not know. -/
theorem stripGenerated_applyHooks (st : FuzzState) (base result : MoveSequence) (rs rest : List ℕ)
    (hbase : Undecorated st base) (hrun : applyHooks st base rs = some (result, rest))
    (hlen : result.commands.length ≤ 2 ^ 16) :
    ((applyHooksKnown st base rs).isSome →
      (stripGenerated st result).commands = base.commands ∧
        base.inputs <+: (stripGenerated st result).inputs) ∧
    ((stripGenerated st result).commands = base.commands →
      (applyHooksKnown st base rs).isSome ∨ ∃ ptb,
        insertHooks st (hookAppend st) base rs = some (ptb, rest) ∧ LosesStray st ptb.commands) := by
  obtain ⟨ptb, mid, hptb, hmid, hresult⟩ := (decorate_eq_some st _ base result rs rest).mp hrun
  constructor
  · intro hknown
    obtain ⟨r, hr⟩ := Option.isSome_iff_exists.mp hknown
    obtain rfl := Option.some.inj ((applyHooksKnown_refines st base rs r hr).symm.trans hrun)
    obtain ⟨ptb, mid, hptb, hmid, hresult⟩ := (decorate_eq_some st _ base result rs rest).mp hr
    obtain ⟨pos, hwoven, hin⟩ := insertHooks_weaves st (appendKnown st) _
      (appendKnown_grows st) base hbase.backward rs ptb rest hptb
    obtain ⟨hcommands, hinputs⟩ := stripGenerated_processed st ptb mid result base.commands hmid
      hresult hlen (fun tail hlen => stripHooksOnly_woven st base.commands _ _ tail pos hwoven
        hbase.noHooks hlen) ⟨hbase.noFromBalance, hbase.noTransfer⟩
    exact ⟨hcommands, hin.trans hinputs⟩
  · intro hrestored
    by_contra hnot
    rw [not_or, not_exists] at hnot
    obtain ⟨hcut, hloses⟩ := hnot
    obtain ⟨pos, hwoven, _⟩ := insertHooks_weaves st (hookAppend st) IsCall
      (fun ptb ident fixedArgs fixedTyArgs used _ =>
        appendFunction_onlyCalls st 11 ptb ident fixedArgs fixedTyArgs used true)
      base hbase.backward rs ptb rest hptb
    have hlength := stripped_length st base ptb mid result pos hbase hwoven hmid hresult hlen
      fun h => hloses ptb ⟨hptb, h⟩
    rw [hrestored] at hlength
    rcases insertHooks_known st base ptb rs rest hptb with hknown | hmore
    · have hrun' : applyHooksKnown st base rs = some (result, rest) :=
        (decorate_eq_some st _ base result rs rest).mpr ⟨ptb, mid, hknown, hmid, hresult⟩
      rw [hrun'] at hcut
      exact hcut rfl
    · have hall : (base.commands.countP fun cmd => !isHook st cmd) = base.commands.length :=
        List.countP_eq_length.mpr fun cmd hcmd => by rw [hbase.noHooks cmd hcmd]; rfl
      omega

theorem ticket_undecorated :
    Undecorated ticketState ⟨[], [ticketCall "open" [], ticketCall "redeem" [.result 0]]⟩ where
  backward := ticket_backward
  noHooks := by
    intro cmd hcmd
    rcases List.mem_cons.mp hcmd with rfl | h
    · decide
    · rw [List.mem_singleton.mp h]
      decide
  noFromBalance := by
    intro cmd hcmd
    obtain rfl := Option.some.inj hcmd
    decide
  noTransfer := rfl

theorem stripGenerated_applyHooks_ticket :
    (stripGenerated ticketState ⟨[], [ticketCall "begin" [], ticketCall "open" [],
        ticketCall "check" [.result 1], ticketCall "redeem" [.result 1]]⟩).commands =
      [ticketCall "open" [], ticketCall "redeem" [.result 0]] :=
  ((stripGenerated_applyHooks ticketState
    ⟨[], [ticketCall "open" [], ticketCall "redeem" [.result 0]]⟩ _ [0, 0] [] ticket_undecorated
    rfl (by decide)).1 rfl).1

/- The hook of a sequence asks for a ticket, and there is none: one is opened for
it, and the opening stays in the stripped sequence. -/
def producerState : FuzzState :=
  { FuzzState.ofModule ⟨ticketModule,
      [⟨"open", [], [.struct ticketHandle], [], .public_⟩,
        ⟨"close", [], [], [], .public_⟩,
        ⟨"check", [.reference (.struct ticketHandle)], [], [], .public_⟩], [ticketHandle]⟩ with
    sequenceHooks := ⟨[⟨ticketModule, "check"⟩], []⟩ }

theorem stripGenerated_keeps_producer :
    Undecorated producerState ⟨[], [ticketCall "close" []]⟩ ∧
      applyHooks producerState ⟨[], [ticketCall "close" []]⟩ [0, 0, 0] =
        some (⟨[], [ticketCall "open" [], ticketCall "check" [.result 0],
          ticketCall "close" []]⟩, []) ∧
      (stripGenerated producerState ⟨[], [ticketCall "open" [], ticketCall "check" [.result 0],
        ticketCall "close" []]⟩).commands ≠ [ticketCall "close" []] := by
  refine ⟨⟨?_, ?_, ?_, rfl⟩, rfl, fun h => absurd (congrArg List.length h) (by decide)⟩
  · intro k cmd hk arg harg i hi
    match k with
    | 0 =>
      obtain rfl := Option.some.inj hk
      cases harg
    | k + 1 => simp at hk
  · intro cmd hcmd
    rw [List.mem_singleton.mp hcmd]
    decide
  · intro cmd hcmd
    obtain rfl := Option.some.inj hcmd
    decide

end Movy.Fuzz
