import Mathlib.Data.List.Flatten
import Movy.Fuzz.RemoveRefs
import Movy.Fuzz.Taken
import Movy.Lib.Positions

/-!
# Hot potatoes after a removal

The calls that go with a removed one are settled by what the code reads off the
parameters of calls, the books of `from_ptb` by what it reads off the tokens of the
values. The calls that stay settle their hot potatoes if those that go take what
they bring.
-/

namespace Movy.Fuzz

open Movy.Types Movy.Store MoveAbiSignatureToken

/- `from_ptb` does not panic and reports no hot potato. -/
def NoHotPotatoes (st : FuzzState) (ptb : MoveSequence) : Prop :=
  ∃ data, ObjectData.fromPtb st ptb = some data ∧ data.hotPotatoes = []

def Balanced (es : List (Entry MoveTypeTag)) : Prop :=
  ∀ ty, (credited es).count ty = (debited es).count ty

/-! ### Reading hot potatoes -/

theorem noHotPotatoes_iff (st : FuzzState) (ptb : MoveSequence) :
    NoHotPotatoes st ptb ↔ Booked st ptb ∧ Balanced (hotEntries st ptb.commands) := by
  obtain ⟨hsome, hlists⟩ := fromPtb_spec st ptb
  have hempty : ∀ data, ObjectData.fromPtb st ptb = some data →
      (data.hotPotatoes = [] ↔ Balanced (hotEntries st ptb.commands)) := by
    intro data hdata
    rw [← List.perm_nil, settle_perm_iff _ _ _ _ (hlists data hdata).1]
    simp only [List.count_nil, Nat.zero_add, Nat.add_zero, Balanced]
  constructor
  · intro h
    obtain ⟨data, hdata, hnil⟩ := h
    exact ⟨hsome.mp (by rw [hdata]; rfl), (hempty data hdata).mp hnil⟩
  · intro h
    obtain ⟨hbooked, hbalanced⟩ := h
    obtain ⟨data, hdata⟩ := Option.isSome_iff_exists.mp (hsome.mpr hbooked)
    exact ⟨data, hdata, (hempty data hdata).mpr hbalanced⟩

theorem balanced_iff_labelled {γ : Type} (key : Note → γ) (es : List (Entry Note)) :
    Balanced (entriesOf Note.hot Note.ty es) ↔
      ∀ ty, ((labelled Note.hot key Note.ty (credited es)).map Prod.snd).count ty =
        ((labelled Note.hot key Note.ty (debited es)).map Prod.snd).count ty := by
  rw [labelled_snd, labelled_snd, ← credited_entriesOf, ← debited_entriesOf]
  rfl

theorem hotEntry_congr (mk : Note → Entry Note) (hval : ∀ note, (mk note).val = note)
    (hmap : ∀ note note', note.ty = note'.ty → (mk note).map Note.ty = (mk note').map Note.ty)
    (x y : Option Note)
    (h : x.map (fun note => (note.ty, note.hot)) = y.map fun note => (note.ty, note.hot)) :
    ((x.map mk).filter fun e => e.val.hot).map (Entry.map Note.ty) =
      ((y.map mk).filter fun e => e.val.hot).map (Entry.map Note.ty) := by
  cases x with
  | none =>
    cases y with
    | none => rfl
    | some note' => cases h
  | some note =>
    cases y with
    | none => cases h
    | some note' =>
      obtain ⟨hty, hhot⟩ := Prod.mk.inj (Option.some.inj h)
      simp only [Option.map_some, Option.filter_some, hval]
      have hhot : note.hot = note'.hot := hhot
      rw [hhot]
      split_ifs
      · rw [Option.map_some, Option.map_some, hmap note note' hty]
      · rfl

theorem takenNote_renameArg (tyArgs : TyArgs) (f : ℕ → ℕ) (arg : SequenceArgument)
    (param : MoveAbiSignatureToken) :
    (takenNote tyArgs (renameArg f arg) param).map (fun note => (note.ty, note.hot)) =
      (takenNote tyArgs arg param).map fun note => (note.ty, note.hot) := by
  unfold takenNote
  split_ifs
  · rfl
  · rw [Option.map_map, Option.map_map]
    cases arg <;> rfl

theorem broughtNote_arg (st : FuzzState) (tyArgs : TyArgs) (ret : MoveAbiSignatureToken)
    (arg arg' : SequenceArgument) :
    (broughtNote st tyArgs ret arg).map (fun note => (note.ty, note.hot)) =
      (broughtNote st tyArgs ret arg').map fun note => (note.ty, note.hot) := by
  rw [broughtNote, broughtNote, Option.map_map, Option.map_map]
  apply Option.map_congr
  intro ty _
  cases ret with
  | vector inner => rfl
  | _ => cases ty <;> rfl

theorem callEntries_hot (st : FuzzState) (f : ℕ → ℕ) (i k : ℕ) (cmd : MoveSequenceCall) :
    entriesOf Note.hot Note.ty (callEntries st i (renameCommand f cmd)) =
      entriesOf Note.hot Note.ty (callEntries st k cmd) := by
  cases cmd with
  | call call =>
    have hcalled : st.getCalled { call with arguments := call.arguments.map (renameArg f) } =
        st.getCalled call := rfl
    simp only [renameCommand, mapCommand, callEntries, hcalled]
    cases st.getCalled call with
    | none => rfl
    | some function =>
      simp only [entriesOf_append, takenEntries, broughtEntries, entriesOf_filterMap,
        List.zip_map_left, List.filterMap_map]
      congr 1
      · apply List.filterMap_congr
        intro e _
        exact hotEntry_congr Entry.debit (fun _ => rfl) (fun _ _ h => congrArg Entry.debit h) _ _
          (takenNote_renameArg _ f e.1 e.2)
      · apply List.filterMap_congr
        intro e _
        exact hotEntry_congr Entry.credit (fun _ => rfl) (fun _ _ h => congrArg Entry.credit h) _ _
          (broughtNote_arg st _ e.1 _ _)
  | _ => rfl

theorem callEntries_index (st : FuzzState) (e : MoveSequenceCall × ℕ) :
    entriesOf Note.hot Note.ty (callEntries st e.2 e.1) =
      entriesOf Note.hot Note.ty (callEntries st 0 e.1) := by
  rw [← callEntries_hot st id 0 e.2 e.1, ← callEntries_hot st id 0 0 e.1]

theorem hotEntries_eq (st : FuzzState) (commands : List MoveSequenceCall) :
    hotEntries st commands =
      commands.flatMap fun cmd => entriesOf Note.hot Note.ty (callEntries st 0 cmd) := by
  have hflat : commands.flatMap (fun cmd => entriesOf Note.hot Note.ty (callEntries st 0 cmd)) =
      (commands.zipIdx.map Prod.fst).flatMap fun cmd =>
        entriesOf Note.hot Note.ty (callEntries st 0 cmd) := by
    rw [List.zipIdx_map_fst]
  rw [hflat, List.flatMap_map, hotEntries, entriesFrom, entriesOf_flatMap]
  exact List.flatMap_congr fun e _ => callEntries_index st e

theorem hotEntries_rename (st : FuzzState) (f : ℕ → ℕ) (commands : List MoveSequenceCall) :
    hotEntries st (commands.map (renameCommand f)) = hotEntries st commands := by
  rw [hotEntries_eq, hotEntries_eq, List.flatMap_map]
  exact List.flatMap_congr fun cmd _ => callEntries_hot st f 0 0 cmd

theorem commandReadable_rename (st : FuzzState) (f : ℕ → ℕ) (cmd : MoveSequenceCall)
    (h : CommandReadable st cmd) : CommandReadable st (renameCommand f cmd) := by
  cases cmd with
  | call call =>
    obtain ⟨function, hfunction, hreadable⟩ := h
    refine ⟨function, hfunction, ?_, hreadable.returns⟩
    intro e he hsample href
    have he : e ∈ (call.arguments.map (renameArg f)).zip function.parameters := he
    rw [List.zip_map_left] at he
    obtain ⟨pair, hpair, rfl⟩ := List.mem_map.mp he
    exact hreadable.params pair hpair hsample href
  | _ => trivial

/-! ### What goes and what stays -/

section

variable (st : FuzzState) (flash : Option FlashProvider) (commands : List MoveSequenceCall)
  (idx : U16)

/- What goes when the command is removed. -/
inductive Goes : U16 → Prop
  | first : InReach flash commands idx → Goes idx
  | next (x y : U16) : Goes x → Removes st flash commands x y → Goes y

def Stays (k : ℕ) : Prop := ∀ x, Goes st flash commands idx x → x.val ≠ k

theorem not_stays_iff (x : U16) :
    ¬ Stays st flash commands idx x.val ↔ Goes st flash commands idx x := by
  constructor
  · intro h
    simp only [Stays, not_forall, not_not] at h
    obtain ⟨y, hy, heq⟩ := h
    rw [← Fin.ext heq]
    exact hy
  · exact fun hgoes hstays => hstays x hgoes rfl

open Classical in
noncomputable def staying : List MoveSequenceCall :=
  (commands.zipIdx.filter fun e => decide (Stays st flash commands idx e.2)).map Prod.fst

open Classical in
noncomputable def going : List MoveSequenceCall :=
  (commands.zipIdx.filter fun e => !decide (Stays st flash commands idx e.2)).map Prod.fst

open Classical in
noncomputable def indexAfter (i : ℕ) : ℕ := Nat.count (Stays st flash commands idx) i

open Classical in
theorem staying_going_perm :
    (staying st flash commands idx ++ going st flash commands idx).Perm commands := by
  have hperm := (List.filter_append_perm (fun e => decide (Stays st flash commands idx e.2))
    commands.zipIdx).map Prod.fst
  rw [List.map_append, List.zipIdx_map_fst] at hperm
  exact hperm

variable (removed : List U16) (hin : InReach flash commands idx)
  (hvisited : Visited (Removes st flash commands) idx [] removed)

include hin hvisited

theorem goes_iff (x : U16) : Goes st flash commands idx x ↔ x ∈ removed := by
  constructor
  · intro h
    induction h with
    | first _ => exact hvisited.visits
    | next x y _ hxy ih => exact hvisited.closed x y ih hxy
  · have hclosed : ClosedUnder (Removes st flash commands) {x | Goes st flash commands idx x} :=
      fun x y hx hxy => Goes.next x y hx hxy
    exact hvisited.least _ hclosed (Goes.first hin) x

theorem stays_iff (k : ℕ) : Stays st flash commands idx k ↔ k ∉ removed.map Fin.val := by
  simp only [Stays, goes_iff st flash commands idx removed hin hvisited, List.mem_map, not_exists,
    not_and]

theorem staying_eq :
    staying st flash commands idx = withoutIdxs commands (removed.map Fin.val) := by
  rw [staying, withoutIdxs]
  congr 1
  apply List.filter_congr
  intro e _
  rw [decide_eq_decide]
  exact stays_iff st flash commands idx removed hin hvisited e.2

theorem indexAfter_eq : indexAfter st flash commands idx = shiftedTo removed := by
  funext i
  have hstays : Stays st flash commands idx = fun k => k ∉ removed.map Fin.val := by
    funext k
    exact propext (stays_iff st flash commands idx removed hin hvisited k)
  rw [shiftedTo, ← count_not_removed, indexAfter]
  congr 1

end

/-! ### Settled without those that go -/

/- The calls that go take what they bring, those that stay find what they take. -/
structure SettledWithout (st : FuzzState) (flash : Option FlashProvider) (ptb : MoveSequence)
    (idx : U16) : Prop where
  balanced : Balanced (hotEntries st (going st flash ptb.commands idx))
  covered : Covered [] (hotEntries st (staying st flash ptb.commands idx))
  listed : AlwaysListed (InputThere st 0 ptb.inputs) (entriesFrom st 0
    ((staying st flash ptb.commands idx).map
      (renameCommand (indexAfter st flash ptb.commands idx))))

/- Of what is settled as a whole, one part is balanced if the other is. -/
theorem balanced_staying_iff (st : FuzzState) (flash : Option FlashProvider)
    (commands : List MoveSequenceCall) (idx : U16) (h : Balanced (hotEntries st commands)) :
    Balanced (hotEntries st (staying st flash commands idx)) ↔
      Balanced (hotEntries st (going st flash commands idx)) := by
  have hperm : (hotEntries st (staying st flash commands idx) ++
      hotEntries st (going st flash commands idx)).Perm (hotEntries st commands) := by
    rw [hotEntries_eq, hotEntries_eq, hotEntries_eq, ← List.flatMap_append]
    exact (staying_going_perm st flash commands idx).flatMap_right _
  apply forall_congr'
  intro ty
  have hcredits := (credited_perm hperm).count_eq ty
  have hdebits := (debited_perm hperm).count_eq ty
  rw [credited_append, List.count_append] at hcredits
  rw [debited_append, List.count_append] at hdebits
  have hall := h ty
  omega

/- From a sequence without hot potatoes, a removal leaves one exactly if the calls
that go with it take what they bring, and those that stay still find what they take. -/
theorem removeCommand_settled_iff (st : FuzzState) (flash : Option FlashProvider)
    (ptb ptb' : MoveSequence) (fuel : ℕ) (idx : U16)
    (hcalls : ∀ cmd ∈ ptb.commands, ∃ call, cmd = .call call) (hold : NoHotPotatoes st ptb)
    (h : removeCommand st flash ptb fuel idx = .ok (some ptb')) :
    NoHotPotatoes st ptb' ↔ SettledWithout st flash ptb idx := by
  obtain ⟨removed, hgen, -⟩ := (bind_eq_ok _ _ _).mp h
  obtain ⟨hbooked, hbalanced⟩ := (noHotPotatoes_iff st ptb).mp hold
  rcases removeCommand_cases st flash ptb hcalls fuel idx removed hgen with
    hskipped | ⟨-, hin, hvisited, hok⟩
  · rw [hskipped] at h
    cases h
  · have hptb' : ptb' = { ptb with
        commands := (staying st flash ptb.commands idx).map
          (renameCommand (indexAfter st flash ptb.commands idx)) } := by
      rw [hok, Except.ok.injEq, Option.some.injEq] at h
      rw [← h, staying_eq st flash ptb.commands idx removed hin hvisited,
        indexAfter_eq st flash ptb.commands idx removed hin hvisited]
    subst hptb'
    have hinputs : InputsSupported st ptb.inputs := by
      refine hbooked.inputs.resolve_left fun hnil => ?_
      have hlt := hin.lt
      rw [hnil] at hlt
      exact absurd hlt (Nat.not_lt_zero _)
    have hreadable : ∀ cmd ∈ (staying st flash ptb.commands idx).map
        (renameCommand (indexAfter st flash ptb.commands idx)), CommandReadable st cmd := by
      intro cmd hcmd
      obtain ⟨old, hold, rfl⟩ := List.mem_map.mp hcmd
      apply commandReadable_rename
      apply hbooked.readable
      exact (staying_going_perm st flash ptb.commands idx).mem_iff.mp (List.mem_append_left _ hold)
    rw [noHotPotatoes_iff, hotEntries_rename, balanced_staying_iff st flash _ idx hbalanced]
    constructor
    · intro hall
      obtain ⟨hnew, hgoing⟩ := hall
      have hcovered := hnew.covered
      rw [hotEntries_rename] at hcovered
      exact ⟨hgoing, hcovered, hnew.listed⟩
    · intro hsettled
      refine ⟨⟨Or.inr hinputs, hreadable, hsettled.listed, ?_⟩, hsettled.balanced⟩
      rw [hotEntries_rename]
      exact hsettled.covered

/-! ### What goes with what it takes -/

section

variable (st : FuzzState) (flash : Option FlashProvider) (commands : List MoveSequenceCall)

/- The call takes what it sees as a hot potato of the other, which is out of reach or
is not asked for at this parameter. -/
def Overlooks (x y : U16) : Prop :=
  ∃ call function param note, commands[x.val]? = some (.call call) ∧
    st.getCalled call = some function ∧
    (note.arg, param) ∈ call.arguments.zip function.parameters ∧
    takenNote (tyArgsMap call.typeArguments) note.arg param = some note ∧ note.hot = true ∧
    argCommand note.arg = some y.val ∧
    ¬ (isStruct param = true ∧ param.isHotPotato = true ∧ InReach flash commands y)

/- If a call that goes overlooks a hot potato, its producer goes for another reason. -/
def NothingOverlooked (idx : U16) : Prop :=
  ∀ x y, Goes st flash commands idx x → Overlooks st flash commands x y →
    Goes st flash commands idx y

/- What uses a result of a call that goes can go as well. -/
def Sheltered (idx : U16) : Prop :=
  ∀ (x y : U16) note, Takes st commands x.val note → argCommand note.arg = some y.val →
    Goes st flash commands idx y → InReach flash commands x

theorem sheltered_none (idx : U16) : Sheltered st none commands idx := by
  intro x y note htakes _ _
  obtain ⟨cmd, hcmd, -⟩ := htakes
  exact (inReach_none commands x).mpr (List.getElem?_eq_some_iff.mp hcmd).1

theorem removes_or_overlooks (x y : U16) (note : Note) (htakes : Takes st commands x.val note)
    (hhot : note.hot = true) (harg : argCommand note.arg = some y.val) :
    Removes st flash commands x y ∨ Overlooks st flash commands x y := by
  obtain ⟨call, function, param, hcmd, hfunction, hzip, hnote⟩ := (takes_iff _ _ _ _).mp htakes
  by_cases hasked : isStruct param = true ∧ param.isHotPotato = true ∧ InReach flash commands y
  · obtain ⟨hstruct, hpotato, hreach⟩ := hasked
    refine Or.inl (Removes.producer x y call function hcmd hfunction ?_ hreach)
    refine List.mem_filterMap.mpr ⟨(note.arg, param), hzip, ?_⟩
    have hidx : resultIdx note.arg = some y := by
      cases hcase : note.arg with
      | result i =>
        rw [hcase] at harg
        exact congrArg some (Fin.ext (Option.some.inj harg))
      | nestedResult i j =>
        rw [hcase] at harg
        exact congrArg some (Fin.ext (Option.some.inj harg))
      | gasCoin =>
        rw [hcase] at harg
        cases harg
      | input i =>
        rw [hcase] at harg
        cases harg
    rw [if_pos (by rw [hstruct, hpotato]; rfl), hidx]
  · exact Or.inr ⟨call, function, param, note, hcmd, hfunction, hzip, hnote, hhot, harg, hasked⟩

end

section

variable {st : FuzzState} {flash : Option FlashProvider} {ptb : MoveSequence} {idx : U16}
  (hcalls : ∀ cmd ∈ ptb.commands, ∃ call, cmd = .call call) (htaken : TakenAsBrought st ptb)
  (hsheltered : Sheltered st flash ptb.commands idx)

include hcalls htaken hsheltered

theorem takers_go (k : ℕ) (d c : Note) (y : U16) (htakes : Takes st ptb.commands k d)
    (hyk : y.val < k) (hbrings : Brings st ptb.commands y.val c) (has : BroughtAs c d)
    (hgoes : Goes st flash ptb.commands idx y) : ¬ Stays st flash ptb.commands idx k := by
  obtain ⟨cmd, hcmd, -⟩ := id htakes
  have hlt := (List.getElem?_eq_some_iff.mp hcmd).1
  have hlen := htaken.commands_length
  have hk : (asU16 k).val = k := asU16_val k (by omega)
  have harg := has.argCommand hbrings hlen
  have hreach : InReach flash ptb.commands (asU16 k) :=
    hsheltered (asU16 k) y d (by rw [hk]; exact htakes) harg hgoes
  have hremoves : Removes st flash ptb.commands y (asU16 k) :=
    removes_of_use st ptb.commands hcalls flash y (asU16 k) (by omega)
      (by rw [hk]; exact htakes.refers harg) hreach
  exact fun hstays => hstays (asU16 k) (Goes.next y _ hgoes hremoves) hk

theorem stays_of_brings (k i : ℕ) (d c : Note) (htakes : Takes st ptb.commands k d) (hik : i < k)
    (hbrings : Brings st ptb.commands i c) (has : BroughtAs c d)
    (hstays : Stays st flash ptb.commands idx k) : Stays st flash ptb.commands idx i := by
  intro y hgoes hy
  subst hy
  exact takers_go hcalls htaken hsheltered k d c y htakes hik hbrings has hgoes hstays

end

/-! ### What stays is taken as it was brought -/

section

variable (st : FuzzState) (flash : Option FlashProvider) (commands : List MoveSequenceCall)
  (idx : U16)

open Classical in
noncomputable def stayingEntries : List (Entry Note) :=
  (commands.zipIdx.filter fun e => decide (Stays st flash commands idx e.2)).flatMap
    fun e => callEntries st e.2 e.1

open Classical in
noncomputable def goingEntries : List (Entry Note) :=
  (commands.zipIdx.filter fun e => !decide (Stays st flash commands idx e.2)).flatMap
    fun e => callEntries st e.2 e.1

theorem stayingEntries_sublist :
    (stayingEntries st flash commands idx).Sublist (entriesFrom st 0 commands) :=
  List.filter_sublist.flatMap _

theorem goingEntries_sublist :
    (goingEntries st flash commands idx).Sublist (entriesFrom st 0 commands) :=
  List.filter_sublist.flatMap _

open Classical in
theorem mem_stayingEntries (e : Entry Note) : e ∈ stayingEntries st flash commands idx ↔
    ∃ k cmd, Stays st flash commands idx k ∧ commands[k]? = some cmd ∧
      e ∈ callEntries st k cmd := by
  rw [stayingEntries, List.mem_flatMap]
  constructor
  · intro hall
    obtain ⟨⟨cmd, k⟩, hmem, he⟩ := hall
    obtain ⟨hmem, hstays⟩ := List.mem_filter.mp hmem
    exact ⟨k, cmd, of_decide_eq_true hstays, List.mem_zipIdx_iff_getElem?.mp hmem, he⟩
  · intro hall
    obtain ⟨k, cmd, hstays, hcmd, he⟩ := hall
    exact ⟨(cmd, k), List.mem_filter.mpr ⟨List.mem_zipIdx_iff_getElem?.mpr hcmd,
      decide_eq_true hstays⟩, he⟩

open Classical in
theorem mem_goingEntries (e : Entry Note) : e ∈ goingEntries st flash commands idx ↔
    ∃ k cmd, ¬ Stays st flash commands idx k ∧ commands[k]? = some cmd ∧
      e ∈ callEntries st k cmd := by
  rw [goingEntries, List.mem_flatMap]
  constructor
  · intro hall
    obtain ⟨⟨cmd, k⟩, hmem, he⟩ := hall
    obtain ⟨hmem, hstays⟩ := List.mem_filter.mp hmem
    rw [Bool.not_eq_true', decide_eq_false_iff_not] at hstays
    exact ⟨k, cmd, hstays, List.mem_zipIdx_iff_getElem?.mp hmem, he⟩
  · intro hall
    obtain ⟨k, cmd, hstays, hcmd, he⟩ := hall
    refine ⟨(cmd, k), List.mem_filter.mpr ⟨List.mem_zipIdx_iff_getElem?.mpr hcmd, ?_⟩, he⟩
    rw [Bool.not_eq_true', decide_eq_false_iff_not]
    exact hstays

theorem hotEntries_going : hotEntries st (going st flash commands idx) =
    entriesOf Note.hot Note.ty (goingEntries st flash commands idx) := by
  rw [hotEntries_eq, going, List.flatMap_map, goingEntries, entriesOf_flatMap]
  exact List.flatMap_congr fun e _ => (callEntries_index st e).symm

open Classical in
theorem staying_zipIdx : (staying st flash commands idx).zipIdx =
    (commands.zipIdx.filter fun e => decide (Stays st flash commands idx e.2)).map
      fun e => (e.1, indexAfter st flash commands idx e.2) :=
  zipIdx_filter_zipIdx commands (Stays st flash commands idx)

theorem entriesFrom_staying (hlen : commands.length ≤ 2 ^ 16) :
    entriesFrom st 0 ((staying st flash commands idx).map
        (renameCommand (indexAfter st flash commands idx))) =
      (stayingEntries st flash commands idx).map
        (Entry.map (Note.rename (indexAfter st flash commands idx))) := by
  rw [entriesFrom, List.zipIdx_map, List.flatMap_map, staying_zipIdx, List.flatMap_map,
    stayingEntries, List.map_flatMap]
  apply List.flatMap_congr
  intro e he
  have hget := List.mem_zipIdx_iff_getElem?.mp (List.mem_of_mem_filter he)
  have hlt := (List.getElem?_eq_some_iff.mp hget).1
  exact callEntries_rename _ st e.2 (by omega) e.1

open Classical in
theorem staying_getElem? (k : ℕ) (cmd : MoveSequenceCall) (hcmd : commands[k]? = some cmd)
    (hstays : Stays st flash commands idx k) :
    ((staying st flash commands idx).map (renameCommand (indexAfter st flash commands idx)))[
      indexAfter st flash commands idx k]? =
        some (renameCommand (indexAfter st flash commands idx) cmd) := by
  have hmem : (cmd, indexAfter st flash commands idx k) ∈
      (staying st flash commands idx).zipIdx := by
    rw [staying_zipIdx, List.mem_map]
    exact ⟨(cmd, k), List.mem_filter.mpr ⟨List.mem_zipIdx_iff_getElem?.mpr hcmd,
      decide_eq_true hstays⟩, rfl⟩
  rw [List.getElem?_map, List.mem_zipIdx_iff_getElem?.mp hmem, Option.map_some]

open Classical in
theorem staying_of_getElem? (p : ℕ) (cmd' : MoveSequenceCall)
    (h : ((staying st flash commands idx).map
      (renameCommand (indexAfter st flash commands idx)))[p]? = some cmd') :
    ∃ k cmd, Stays st flash commands idx k ∧ commands[k]? = some cmd ∧
      p = indexAfter st flash commands idx k ∧
      cmd' = renameCommand (indexAfter st flash commands idx) cmd := by
  rw [List.getElem?_map] at h
  obtain ⟨cmd, hcmd, rfl⟩ := Option.map_eq_some_iff.mp h
  have hmem : (cmd, p) ∈ (staying st flash commands idx).zipIdx :=
    List.mem_zipIdx_iff_getElem?.mpr hcmd
  rw [staying_zipIdx] at hmem
  obtain ⟨⟨old, k⟩, hold, heq⟩ := List.mem_map.mp hmem
  obtain ⟨hold, hstays⟩ := List.mem_filter.mp hold
  obtain ⟨rfl, rfl⟩ := Prod.mk.inj heq
  exact ⟨k, old, of_decide_eq_true hstays, List.mem_zipIdx_iff_getElem?.mp hold, rfl, rfl⟩

open Classical in
theorem renameArg_inj (a b : SequenceArgument)
    (ha : ∀ k, argCommand a = some k → Stays st flash commands idx k)
    (hb : ∀ k, argCommand b = some k → Stays st flash commands idx k)
    (h : renameArg (indexAfter st flash commands idx) a =
      renameArg (indexAfter st flash commands idx) b) : a = b := by
  have hindex : ∀ i j : U16, Stays st flash commands idx i.val → Stays st flash commands idx j.val →
      asU16 (indexAfter st flash commands idx i.val) =
        asU16 (indexAfter st flash commands idx j.val) → i = j := by
    intro i j hi hj heq
    have hile : indexAfter st flash commands idx i.val ≤ i.val := Nat.count_le _
    have hjle : indexAfter st flash commands idx j.val ≤ j.val := Nat.count_le _
    have hval := congrArg Fin.val heq
    rw [asU16_val _ (by omega), asU16_val _ (by omega)] at hval
    exact Fin.ext (Nat.count_injective hi hj hval)
  cases a with
  | result i =>
    cases b with
    | result j =>
      rw [hindex i j (ha _ rfl) (hb _ rfl) (SequenceArgument.result.inj h)]
    | _ => cases h
  | nestedResult i m =>
    cases b with
    | nestedResult j n =>
      obtain ⟨hij, rfl⟩ := SequenceArgument.nestedResult.inj h
      rw [hindex i j (ha _ rfl) (hb _ rfl) hij]
    | _ => cases h
  | input i => cases b <;> first | exact h | cases h
  | gasCoin => cases b <;> first | exact h | cases h

end

section

variable {st : FuzzState} {flash : Option FlashProvider} {ptb : MoveSequence} {idx : U16}
  (hcalls : ∀ cmd ∈ ptb.commands, ∃ call, cmd = .call call) (htaken : TakenAsBrought st ptb)
  (hsheltered : Sheltered st flash ptb.commands idx)

include htaken

/- Every hot potato has been taken in the end. -/
theorem credits_taken (hbalanced : Balanced (hotEntries st ptb.commands)) :
    labelled Note.hot (fun note => valueName note.arg) Note.ty
        (credited (entriesFrom st 0 ptb.commands)) ⊆
      labelled Note.hot (fun note => valueName note.arg) Note.ty
        (debited (entriesFrom st 0 ptb.commands)) := by
  rw [hotEntries, balanced_iff_labelled fun note => valueName note.arg] at hbalanced
  refine (matched_iff _ _ (labelled_nodup _ _ _ _ htaken.once)
    (labelled_nodup _ _ _ _ htaken.named) ?_).mp fun ty => (hbalanced ty).symm
  intro e he
  obtain ⟨d, hd, hhot, hname, hty⟩ := (mem_labelled _ _ _ _ e).mp he
  obtain ⟨k, htakes⟩ := (debited_entriesFrom st _ d).mp hd
  obtain ⟨i, c, -, hbrings, has⟩ := htaken.brought_hot k d htakes hhot
  exact (mem_labelled _ _ _ _ e).mpr ⟨c, (credited_entriesFrom st _ c).mpr ⟨i, hbrings⟩,
    has.hot.trans hhot, has.name.trans hname, has.ty.trans hty⟩

include hcalls hsheltered

theorem stayingEntries_stays (e : Entry Note)
    (he : e ∈ stayingEntries st flash ptb.commands idx) (i : ℕ)
    (hi : argCommand (valueName e.val.arg) = some i) : Stays st flash ptb.commands idx i := by
  obtain ⟨k, cmd, hstays, hcmd, he⟩ := (mem_stayingEntries _ _ _ _ e).mp he
  rw [argCommand_valueName] at hi
  cases e with
  | credit c =>
    have hbrings : Brings st ptb.commands k c := ⟨cmd, hcmd, he⟩
    have hk := (hbrings.argCommand htaken.commands_length).symm.trans hi
    rw [← Option.some.inj hk]
    exact hstays
  | debit d =>
    have htakes : Takes st ptb.commands k d := ⟨cmd, hcmd, he⟩
    rcases htaken.brought k d htakes with ⟨j, _, _, _, _, _, _, _, _, hinput⟩ | hbrought
    · have hnone : argCommand d.arg = some i := hi
      rw [hinput] at hnone
      cases hnone
    · obtain ⟨i', c, hik, hbrings, has⟩ := hbrought
      have heq := (has.argCommand hbrings htaken.commands_length).symm.trans hi
      rw [← Option.some.inj heq]
      exact stays_of_brings hcalls htaken hsheltered k i' d c htakes hik hbrings has hstays

theorem renamed_nodup (l : List Note)
    (hl : ∀ note ∈ l, ∃ e ∈ stayingEntries st flash ptb.commands idx, e.val = note)
    (h : (l.map fun note => valueName note.arg).Nodup) :
    ((l.map (Note.rename (indexAfter st flash ptb.commands idx))).map
      fun note => valueName note.arg).Nodup := by
  have hnames : (l.map (Note.rename (indexAfter st flash ptb.commands idx))).map
      (fun note => valueName note.arg) = (l.map fun note => valueName note.arg).map
        (renameArg (indexAfter st flash ptb.commands idx)) := by
    rw [List.map_map, List.map_map]
    exact List.map_congr_left fun note _ => valueName_renameArg _ note.arg
  have hstays : ∀ name ∈ l.map (fun note => valueName note.arg), ∀ i,
      argCommand name = some i → Stays st flash ptb.commands idx i := by
    intro name hname i hi
    obtain ⟨note, hnote, rfl⟩ := List.mem_map.mp hname
    obtain ⟨e, he, rfl⟩ := hl note hnote
    exact stayingEntries_stays hcalls htaken hsheltered e he i hi
  rw [hnames]
  apply h.map_on
  intro a ha b hb hab
  exact renameArg_inj st flash ptb.commands idx a b (hstays a ha) (hstays b hb) hab

open Classical in
/- The shortened sequence takes its values as they were brought. -/
theorem takenAsBrought_staying : TakenAsBrought st { ptb with
    commands := (staying st flash ptb.commands idx).map
      (renameCommand (indexAfter st flash ptb.commands idx)) } := by
  have hlen := htaken.commands_length
  have hsublist := stayingEntries_sublist st flash ptb.commands idx
  constructor
  · have hle := (staying_going_perm st flash ptb.commands idx).length_eq
    rw [List.length_append] at hle
    rw [List.length_map]
    omega
  · rw [entriesFrom_staying _ _ _ _ hlen, credited_map]
    apply renamed_nodup hcalls htaken hsheltered
    · intro note hnote
      exact ⟨.credit note, (mem_credited _ note).mp hnote, rfl⟩
    · exact htaken.named.sublist ((credited_sublist hsublist).map _)
  · rw [entriesFrom_staying _ _ _ _ hlen, debited_map]
    apply renamed_nodup hcalls htaken hsheltered
    · intro note hnote
      exact ⟨.debit note, (mem_debited _ note).mp hnote, rfl⟩
    · exact htaken.once.sublist ((debited_sublist hsublist).map _)
  · intro p note htakes
    obtain ⟨cmd', hcmd', hmem⟩ := htakes
    obtain ⟨k, cmd, hstays, hcmd, rfl, rfl⟩ := staying_of_getElem? _ _ _ _ p cmd' hcmd'
    have hk : k < 2 ^ 16 := Nat.lt_of_lt_of_le (List.getElem?_eq_some_iff.mp hcmd).1 hlen
    rw [show callEntries st _ _ = _ from callEntries_rename _ st k hk cmd] at hmem
    obtain ⟨e, he, heq⟩ := List.mem_map.mp hmem
    cases e with
    | credit c => cases heq
    | debit d =>
      obtain rfl := Entry.debit.inj heq
      have htakes : Takes st ptb.commands k d := ⟨cmd, hcmd, he⟩
      rcases htaken.brought k d htakes with ⟨j, ty, obj, id, object, hj, hid, hobject, hty, hinput⟩ |
        ⟨i, c, hik, hbrings, has⟩
      · refine Or.inl ⟨j, ty, obj, id, object, hj, hid, hobject, hty, ?_⟩
        show renameArg _ d.arg = _
        rw [hinput]
        rfl
      · have hstay := stays_of_brings hcalls htaken hsheltered k i d c htakes hik hbrings has hstays
        obtain ⟨cmd₂, hcmd₂, hc⟩ := hbrings
        refine Or.inr ⟨indexAfter st flash ptb.commands idx i,
          c.rename (indexAfter st flash ptb.commands idx), Nat.count_strict_mono hstay hik,
          ⟨_, staying_getElem? _ _ _ _ i cmd₂ hcmd₂ hstay, ?_⟩, ?_⟩
        · rw [callEntries_rename _ st i (by omega) cmd₂]
          exact List.mem_map_of_mem (f := Entry.map _) hc
        · refine ⟨?_, has.ty, has.listed, has.hot⟩
          show valueName (renameArg _ c.arg) = valueName (renameArg _ d.arg)
          rw [valueName_renameArg, valueName_renameArg, has.name]

/-! ### What goes takes what it brings -/

theorem going_credits_taken (hbalanced : Balanced (hotEntries st ptb.commands)) :
    labelled Note.hot (fun note => valueName note.arg) Note.ty
        (credited (goingEntries st flash ptb.commands idx)) ⊆
      labelled Note.hot (fun note => valueName note.arg) Note.ty
        (debited (goingEntries st flash ptb.commands idx)) := by
  have hlen := htaken.commands_length
  intro e he
  obtain ⟨c, hc, hhot, hname, hty⟩ := (mem_labelled _ _ _ _ e).mp he
  rw [mem_credited, mem_goingEntries] at hc
  obtain ⟨k, cmd, hgone, hcmd, hc⟩ := hc
  have hbrings : Brings st ptb.commands k c := ⟨cmd, hcmd, hc⟩
  obtain ⟨d, hd, hhot', hname', hty'⟩ := (mem_labelled _ _ _ _ e).mp
    (credits_taken htaken hbalanced ((mem_labelled _ _ _ _ e).mpr
      ⟨c, (credited_entriesFrom st _ c).mpr ⟨k, hbrings⟩, hhot, hname, hty⟩))
  obtain ⟨j, htakes⟩ := (debited_entriesFrom st _ d).mp hd
  obtain ⟨i, c', hij, hbrings', has⟩ := htaken.brought_hot j d htakes hhot'
  have hik : i = k := by
    have hi := has.argCommand hbrings' hlen
    rw [← argCommand_valueName, hname', ← hname, argCommand_valueName,
      hbrings.argCommand hlen] at hi
    exact (Option.some.inj hi).symm
  subst hik
  have hi : (asU16 i).val = i :=
    asU16_val i (by have hlt := (List.getElem?_eq_some_iff.mp hcmd).1; omega)
  rw [← hi] at hgone hij hbrings'
  have hgoes := (not_stays_iff _ _ _ _ (asU16 i)).mp hgone
  have hgone' := takers_go hcalls htaken hsheltered j d c' (asU16 i) htakes hij hbrings' has hgoes
  obtain ⟨cmd', hcmd', hd⟩ := htakes
  refine (mem_labelled _ _ _ _ e).mpr ⟨d, ?_, hhot', hname', hty'⟩
  rw [mem_debited, mem_goingEntries]
  exact ⟨j, cmd', hgone', hcmd', hd⟩

/- The calls that go take the hot potatoes that they bring, and no others, exactly if
nobody who goes overlooks a hot potato. -/
theorem balanced_going_iff (hbalanced : Balanced (hotEntries st ptb.commands)) :
    Balanced (hotEntries st (going st flash ptb.commands idx)) ↔
      NothingOverlooked st flash ptb.commands idx := by
  have hlen := htaken.commands_length
  have hsublist := goingEntries_sublist st flash ptb.commands idx
  rw [hotEntries_going, balanced_iff_labelled fun note => valueName note.arg, matched_iff _ _
    (labelled_nodup _ _ _ _ (htaken.named.sublist ((credited_sublist hsublist).map _)))
    (labelled_nodup _ _ _ _ (htaken.once.sublist ((debited_sublist hsublist).map _)))
    (going_credits_taken hcalls htaken hsheltered hbalanced)]
  constructor
  · intro hback x y hgoes hoverlooks
    obtain ⟨call, function, param, d, hcmd, hfunction, hzip, hnote, hhot, harg, -⟩ := hoverlooks
    have htakes : Takes st ptb.commands x.val d :=
      (takes_iff _ _ _ _).mpr ⟨call, function, param, hcmd, hfunction, hzip, hnote⟩
    obtain ⟨cmd, hcmd, hmem⟩ := htakes
    have hd : d ∈ debited (goingEntries st flash ptb.commands idx) := by
      rw [mem_debited, mem_goingEntries]
      exact ⟨x.val, cmd, fun hstays => hstays x hgoes rfl, hcmd, hmem⟩
    obtain ⟨c, hc, -, hname, -⟩ := (mem_labelled _ _ _ _ _).mp
      (hback ((mem_labelled _ _ _ _ (valueName d.arg, d.ty)).mpr ⟨d, hd, hhot, rfl, rfl⟩))
    rw [mem_credited, mem_goingEntries] at hc
    obtain ⟨k, cmd', hgone, hcmd', hc⟩ := hc
    have hk : argCommand c.arg = some k := Brings.argCommand ⟨cmd', hcmd', hc⟩ hlen
    have hy : argCommand c.arg = some y.val := by
      rw [← argCommand_valueName, hname, argCommand_valueName, harg]
    obtain rfl := Option.some.inj (hk.symm.trans hy)
    exact (not_stays_iff _ _ _ _ y).mp hgone
  · intro hclosed e he
    obtain ⟨d, hd, hhot, hname, hty⟩ := (mem_labelled _ _ _ _ _).mp he
    rw [mem_debited, mem_goingEntries] at hd
    obtain ⟨k, cmd, hgone, hcmd, hmem⟩ := hd
    have htakes : Takes st ptb.commands k d := ⟨cmd, hcmd, hmem⟩
    obtain ⟨i, c, hik, hbrings, has⟩ := htaken.brought_hot k d htakes hhot
    have hlt := (List.getElem?_eq_some_iff.mp hcmd).1
    have hx : (asU16 k).val = k := asU16_val k (by omega)
    have hy : (asU16 i).val = i := asU16_val i (by omega)
    rw [← hx] at hgone htakes
    have hgoes := (not_stays_iff _ _ _ _ (asU16 k)).mp hgone
    have hgoes' : Goes st flash ptb.commands idx (asU16 i) := by
      rcases removes_or_overlooks st flash ptb.commands (asU16 k) (asU16 i) d htakes hhot
        (by rw [hy]; exact has.argCommand hbrings hlen) with hremoves | hoverlooks
      · exact Goes.next _ _ hgoes hremoves
      · exact hclosed _ _ hgoes hoverlooks
    obtain ⟨cmd', hcmd', hc⟩ := hbrings
    refine (mem_labelled _ _ _ _ e).mpr ⟨c, ?_, has.hot.trans hhot, has.name.trans hname,
      has.ty.trans hty⟩
    rw [mem_credited, mem_goingEntries]
    exact ⟨i, cmd', fun hstays => hstays _ hgoes' hy, hcmd', hc⟩

end

/- In such a sequence, only what is taken at a type parameter is overlooked. -/
theorem Overlooks.typeParameter {st : FuzzState} {flash : Option FlashProvider}
    {ptb : MoveSequence} (htaken : TakenAsBrought st ptb) (x y : U16)
    (h : Overlooks st flash ptb.commands x y) (hreach : InReach flash ptb.commands y) :
    ∃ call function arg i ability, ptb.commands[x.val]? = some (.call call) ∧
      st.getCalled call = some function ∧
      (arg, .typeParameter i ability) ∈ call.arguments.zip function.parameters ∧
      argCommand arg = some y.val := by
  obtain ⟨call, function, param, note, hcmd, hfunction, hzip, hnote, hhot, harg, hasked⟩ := h
  have htakes : Takes st ptb.commands x.val note :=
    (takes_iff _ _ _ _).mpr ⟨call, function, param, hcmd, hfunction, hzip, hnote⟩
  unfold takenNote at hnote
  split_ifs at hnote with hskip
  obtain ⟨ty, hty, heq⟩ := Option.map_eq_some_iff.mp hnote
  have hread : (param.partialSubst (tyArgsMap call.typeArguments)).isHotPotato = true := by
    cases hcase : note.arg with
    | input i =>
      rw [hcase] at harg
      cases harg
    | _ =>
      rw [hcase] at heq
      rw [← heq] at hhot
      exact hhot
  cases param with
  | typeParameter i ability => exact ⟨call, function, note.arg, i, ability, hcmd, hfunction, hzip, harg⟩
  | struct handle => exact absurd ⟨rfl, hread, hreach⟩ hasked
  | structInstantiation handle args => exact absurd ⟨rfl, hread, hreach⟩ hasked
  | vector inner =>
    -- vectors are not listed
    obtain ⟨i, c, -, hbrings, has⟩ := htaken.brought_hot _ _ htakes hhot
    obtain ⟨a, m, n, tys, hstruct⟩ := hbrings.listed_iff.mp has.listed
    rw [has.ty, ← heq, Note.taken_ty] at hstruct
    obtain ⟨element, -, rfl⟩ := Option.map_eq_some_iff.mp hty
    cases hstruct
  | _ => simp [needsSample, isReference] at hskip

/- A receipt must be handed in; it can be sealed in an envelope before. -/
def receiptModule : MoveModuleId := ⟨ObjectID.ofByte 7, "receipt"⟩

def receiptHandle : MoveStructHandle :=
  ⟨receiptModule, "Receipt", ⟨false, false, false, false⟩, []⟩

def envelopeHandle : MoveStructHandle :=
  ⟨receiptModule, "Envelope", ⟨false, false, false, false⟩, [⟨MoveAbility.empty, false⟩]⟩

def receiptTag : MoveTypeTag := .struct (ObjectID.ofByte 7) "receipt" "Receipt" []

def receiptState : FuzzState :=
  FuzzState.ofModule ⟨receiptModule,
    [⟨"borrow", [], [.struct receiptHandle], [], .public_⟩,
      ⟨"repay", [.struct receiptHandle], [], [], .public_⟩,
      ⟨"seal", [.typeParameter 0 MoveAbility.empty],
        [.structInstantiation envelopeHandle [.typeParameter 0 MoveAbility.empty]],
        [MoveAbility.empty], .public_⟩,
      ⟨"hand_in", [.structInstantiation envelopeHandle [.struct receiptHandle]], [], [],
        .public_⟩],
    [receiptHandle, envelopeHandle]⟩

def receiptCall (function : String) (tys : List MoveTypeTag)
    (arguments : List SequenceArgument) : MoveSequenceCall :=
  .call ⟨ObjectID.ofByte 7, "receipt", function, tys, arguments⟩

def twoLoans : List MoveSequenceCall :=
  [receiptCall "borrow" [] [], receiptCall "repay" [] [.result 0],
    receiptCall "borrow" [] [], receiptCall "repay" [] [.result 2]]

theorem twoLoans_taken : TakenAsBrought receiptState ⟨[], twoLoans⟩ where
  commands_length := by decide
  named := by decide
  once := by decide
  brought := by
    intro k d htakes
    obtain ⟨cmd, hcmd, hmem⟩ := htakes
    match k, hcmd with
    | 0, hcmd =>
      obtain rfl := Option.some.inj hcmd
      cases List.mem_singleton.mp hmem
    | 1, hcmd =>
      obtain rfl := Option.some.inj hcmd
      obtain rfl := Entry.debit.inj (List.mem_singleton.mp hmem)
      exact Or.inr ⟨0, _, Nat.one_pos, ⟨_, rfl, List.mem_singleton_self _⟩, ⟨rfl, rfl, rfl, rfl⟩⟩
    | 2, hcmd =>
      obtain rfl := Option.some.inj hcmd
      cases List.mem_singleton.mp hmem
    | 3, hcmd =>
      obtain rfl := Option.some.inj hcmd
      obtain rfl := Entry.debit.inj (List.mem_singleton.mp hmem)
      exact Or.inr ⟨2, _, Nat.lt_succ_self 2, ⟨_, rfl, List.mem_singleton_self _⟩,
        ⟨rfl, rfl, rfl, rfl⟩⟩
    | k + 4, hcmd => cases hcmd

end Movy.Fuzz
