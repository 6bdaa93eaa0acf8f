import Movy.Lib.BigEndian
import Movy.Lib.LittleEndian
import Movy.Types.Input

/-!
# What `to_ptb` preserves

A sequence refers to its inputs and to earlier calls by position. The builder
has positions of its own: equal inputs share a slot, and an input vector takes
no slot but one or more commands. `to_ptb` passes the sequence's positions on
unchanged, so they keep their meaning exactly if the two numberings agree on
the positions in use.
-/

namespace Movy.Types

/-! ### Meaning of an argument -/

/-- The places of a call that hold an argument. -/
def MoveSequenceCall.args : MoveSequenceCall → List SequenceArgument
  | .call c => c.arguments
  | .transferObjects args dst => args ++ [dst]
  | .splitCoins src amounts => src :: amounts
  | .mergeCoins dst srcs => dst :: srcs
  | .publish _ _ => []
  | .makeMoveVec _ args => args
  | .upgrade _ _ _ ticket => [ticket]

def Command.args : Command → List Argument
  | .moveCall c => c.arguments
  | .transferObjects args dst => args ++ [dst]
  | .splitCoins src amounts => src :: amounts
  | .mergeCoins dst srcs => dst :: srcs
  | .publish _ _ => []
  | .makeMoveVec _ args => args
  | .upgrade _ _ _ ticket => [ticket]

/-- What an argument of a transaction stands for. -/
inductive Resolved where
  | gasCoin
  | input (arg : CallArg)
  | result (command : ℕ)
  | nestedResult (command index : ℕ)

def ProgrammableTransaction.resolve (ptb : ProgrammableTransaction) : Argument → Option Resolved
  | .gasCoin => some .gasCoin
  | .input i => (ptb.inputs[i.val]?).map .input
  | .result i => if i.val < ptb.commands.length then some (.result i.val) else none
  | .nestedResult i j =>
    if i.val < ptb.commands.length then some (.nestedResult i.val j.val) else none

/-- An object argument that grants what another one asks for: merging two uses
of a shared object may make the use mutable. -/
def ObjectArg.Covers (have' want : ObjectArg) : Prop :=
  have' = want ∨ ∃ id v m, have' = .sharedObject id v .mutable ∧ want = .sharedObject id v m

inductive Leaf where
  | pure (v : PureValue)
  | object (arg : ObjectArg)

def InputArgument.leaf? : InputArgument → Option Leaf
  | .bool v => some (.pure (.bool v))
  | .u8 v => some (.pure (.u8 v))
  | .u16 v => some (.pure (.u16 v))
  | .u32 v => some (.pure (.u32 v))
  | .u64 v => some (.pure (.u64 v))
  | .u128 v => some (.pure (.u128 v))
  | .u256 v => some (.pure (.u256 v))
  | .address v => some (.pure (.address v))
  | .signer v => some (.pure (.address v))
  | .vector _ _ => none
  | .object _ v => some (.object v.intoObjectArg)

section

variable (bcs : PureValue → List Movy.Store.Byte)

def CallArg.Encodes (arg : CallArg) : Leaf → Prop
  | .pure v => arg = .pure (bcs v)
  | .object want => ∃ have', arg = .object have' ∧ have'.Covers want

def Leaf.key : Leaf → BuilderArg
  | .pure v => .pure (bcs v)
  | .object arg => .object arg.id

/-- The position, in the transaction, of the command made from call `j`: the
commands made from the calls come last. -/
def generatedAt (seq : MoveSequence) (ptb : ProgrammableTransaction) (j : ℕ) : ℕ :=
  ptb.commands.length - seq.commands.length + j

/-- One argument place means in the transaction what it meant in the sequence.
No slot holds a vector: it is the result of a command. -/
def Preserved (seq : MoveSequence) (ptb : ProgrammableTransaction) (a : SequenceArgument)
    (a' : Argument) : Prop :=
  match a with
  | .gasCoin => ptb.resolve a' = some .gasCoin
  | .input i => ∃ input leaf arg, seq.inputs[i.val]? = some input ∧ input.leaf? = some leaf ∧
      ptb.resolve a' = some (.input arg) ∧ arg.Encodes bcs leaf
  | .result j => ptb.resolve a' = some (.result (generatedAt seq ptb j.val))
  | .nestedResult j n =>
    ptb.resolve a' = some (.nestedResult (generatedAt seq ptb j.val) n.val)

def MeaningPreserved (seq : MoveSequence) (ptb : ProgrammableTransaction) : Prop :=
  ∀ (k : ℕ) (call : MoveSequenceCall), seq.commands[k]? = some call →
    ∃ c, ptb.commands[generatedAt seq ptb k]? = some c ∧
      List.Forall₂ (Preserved bcs seq ptb) call.args c.args

/-! ### When the numberings agree -/

mutual

/-- The slots that an input asks for, in order. -/
def InputArgument.leaves : InputArgument → List Leaf
  | .bool v => [.pure (.bool v)]
  | .u8 v => [.pure (.u8 v)]
  | .u16 v => [.pure (.u16 v)]
  | .u32 v => [.pure (.u32 v)]
  | .u64 v => [.pure (.u64 v)]
  | .u128 v => [.pure (.u128 v)]
  | .u256 v => [.pure (.u256 v)]
  | .address v => [.pure (.address v)]
  | .signer v => [.pure (.address v)]
  | .vector _ vs => InputArgument.leavesList vs
  | .object _ v => [.object v.intoObjectArg]

def InputArgument.leavesList : List InputArgument → List Leaf
  | [] => []
  | v :: vs => v.leaves ++ InputArgument.leavesList vs

end

mutual

def InputArgument.vectors : InputArgument → ℕ
  | .vector _ vs => InputArgument.vectorsList vs + 1
  | _ => 0

def InputArgument.vectorsList : List InputArgument → ℕ
  | [] => 0
  | v :: vs => v.vectors + InputArgument.vectorsList vs

end

def MoveSequence.slots (seq : MoveSequence) : List BuilderArg :=
  firstOccurrences ((InputArgument.leavesList seq.inputs).map (Leaf.key bcs))

/-- An input in use is not a vector and its slot has its own number; if results
are used, no input holds a vector. -/
def SequenceArgument.Aligned (seq : MoveSequence) : SequenceArgument → Prop
  | .gasCoin => True
  | .input i => ∃ input leaf, seq.inputs[i.val]? = some input ∧ input.leaf? = some leaf ∧
      (seq.slots bcs)[i.val]? = some (leaf.key bcs)
  | .result j => InputArgument.vectorsList seq.inputs = 0 ∧ j.val < seq.commands.length
  | .nestedResult j _ => InputArgument.vectorsList seq.inputs = 0 ∧ j.val < seq.commands.length

def MoveSequence.Aligned (seq : MoveSequence) : Prop :=
  ∀ call ∈ seq.commands, ∀ a ∈ call.args, a.Aligned bcs seq

/-! ### What the builder does with the inputs -/

def CallArg.key : CallArg → BuilderArg
  | .pure bytes => .pure bytes
  | .object arg => .object arg.id

theorem ObjectArg.Covers.trans (a b c : ObjectArg) (hab : a.Covers b) (hbc : b.Covers c) :
    a.Covers c := by
  rcases hab with rfl | ⟨id, v, m, rfl, rfl⟩
  · exact hbc
  · rcases hbc with rfl | ⟨id', v', m', hb, rfl⟩
    · exact Or.inr ⟨id, v, m, rfl, rfl⟩
    · simp only [ObjectArg.sharedObject.injEq] at hb
      obtain ⟨rfl, rfl, _⟩ := hb
      exact Or.inr ⟨id, v, m', rfl, rfl⟩

theorem ObjectArg.Covers.id_eq (a b : ObjectArg) (h : a.Covers b) : a.id = b.id := by
  rcases h with rfl | ⟨id, v, m, rfl, rfl⟩
  · rfl
  · rfl

theorem encodes_key (arg : CallArg) (l : Leaf) (h : arg.Encodes bcs l) : arg.key = l.key bcs := by
  cases l with
  | pure v => exact h ▸ rfl
  | object want =>
    obtain ⟨have', rfl, hc⟩ := h
    simp only [CallArg.key, Leaf.key, hc.id_eq]

namespace ProgrammableTransactionBuilder

theorem mergeObj_covers (old new merged : ObjectArg) (h : mergeObj old new = some merged) :
    merged.Covers old ∧ merged.Covers new := by
  have hsame : ∀ a b c : ObjectArg, (if a = b then some b else none) = some c →
      c.Covers a ∧ c.Covers b := by
    intro a b c habc
    split_ifs at habc with hab
    obtain rfl := Option.some.inj habc
    exact ⟨Or.inl hab.symm, Or.inl rfl⟩
  cases old with
  | immOrOwnedObject r => exact hsame _ _ _ h
  | receiving r => exact hsame _ _ _ h
  | sharedObject id1 v1 mut1 =>
    cases new with
    | immOrOwnedObject r => exact hsame _ _ _ h
    | receiving r => exact hsame _ _ _ h
    | sharedObject id2 v2 mut2 =>
      simp only [mergeObj] at h
      by_cases hv : v1 = v2
      · by_cases hid : id1 = id2
        · subst hv hid
          simp only [if_true, Option.some.injEq] at h
          subst h
          cases mut1 <;> cases mut2 <;> simp [ObjectArg.Covers]
        · simp [hv, hid] at h
      · simp only [hv, if_false] at h
        exact hsame _ _ _ h

def Holds (b : ProgrammableTransactionBuilder) (l : Leaf) : Prop :=
  ∃ arg, b.inputs.get? (l.key bcs) = some arg ∧ arg.Encodes bcs l

def Typed (b : ProgrammableTransactionBuilder) : Prop :=
  ∀ k arg, b.inputs.get? k = some arg → arg.key = k

structure Added (b : ProgrammableTransactionBuilder) (ls : List Leaf) (n : ℕ)
    (b' : ProgrammableTransactionBuilder) : Prop where
  keys : b'.inputs.keys = (ls.map (Leaf.key bcs)).foldl pushNew b.inputs.keys
  commands : ∃ cs, b'.commands = b.commands ++ cs ∧ cs.length = n
  holds : ∀ l ∈ ls, b'.Holds bcs l
  keeps : ∀ l, b.Holds bcs l → b'.Holds bcs l
  typed : b.Typed → b'.Typed

theorem Added.refl (b : ProgrammableTransactionBuilder) : Added bcs b [] 0 b :=
  ⟨rfl, ⟨[], by simp⟩, by simp, fun _ h => h, fun h => h⟩

theorem Added.trans (a b c : ProgrammableTransactionBuilder) (ls ms : List Leaf) (n m : ℕ)
    (h : Added bcs a ls n b) (h' : Added bcs b ms m c) : Added bcs a (ls ++ ms) (n + m) c := by
  obtain ⟨cs, hcs, hn⟩ := h.commands
  obtain ⟨ds, hds, hm⟩ := h'.commands
  refine ⟨?_, ⟨cs ++ ds, ?_, ?_⟩, ?_, ?_, ?_⟩
  · rw [h'.keys, h.keys, List.map_append, List.foldl_append]
  · rw [hds, hcs, List.append_assoc]
  · rw [List.length_append, hn, hm]
  · intro l hl
    rcases List.mem_append.mp hl with hl | hl
    · exact h'.keeps l (h.holds l hl)
    · exact h'.holds l hl
  · exact fun l hl => h'.keeps l (h.keeps l hl)
  · exact fun ht => h'.typed (h.typed ht)

/-- Filling the slot of one leaf, if what was there before stays covered. -/
theorem Added.insert (b : ProgrammableTransactionBuilder) (l : Leaf) (arg : CallArg)
    (he : arg.Encodes bcs l)
    (hold : ∀ old l', b.inputs.get? (l.key bcs) = some old → l'.key bcs = l.key bcs →
      old.Encodes bcs l' → arg.Encodes bcs l') :
    Added bcs b [l] 0 { b with inputs := b.inputs.insert (l.key bcs) arg } := by
  refine ⟨?_, ⟨[], by simp⟩, ?_, ?_, ?_⟩
  · simp only [IndexMap.keys_insert, List.map_cons, List.map_nil, List.foldl_cons, List.foldl_nil]
  · intro l' hl'
    obtain rfl := List.mem_singleton.mp hl'
    exact ⟨arg, by simp only [IndexMap.get?_insert, if_true], he⟩
  · rintro l' ⟨old, hget, henc⟩
    by_cases hk : l'.key bcs = l.key bcs
    · refine ⟨arg, by simp only [IndexMap.get?_insert, hk, if_true], ?_⟩
      exact hold old l' (hk ▸ hget) hk henc
    · exact ⟨old, by simp only [IndexMap.get?_insert, hk, if_false, hget], henc⟩
  · intro ht k a ha
    simp only [IndexMap.get?_insert] at ha
    split_ifs at ha with hk
    · rw [← Option.some.inj ha, hk]
      exact encodes_key bcs arg l he
    · exact ht k a ha

theorem added_pureBytes (b : ProgrammableTransactionBuilder) (v : PureValue) :
    Added bcs b [.pure v] 0 (b.pureBytes (bcs v)).2 := by
  refine Added.insert bcs b (.pure v) (.pure (bcs v)) rfl ?_
  intro old l' _ hk henc
  cases l' with
  | pure v' =>
    simp only [Leaf.key, BuilderArg.pure.injEq] at hk
    simp only [CallArg.Encodes, hk]
  | object want => simp [Leaf.key] at hk

theorem added_obj (b b' : ProgrammableTransactionBuilder) (a : ObjectArg) (arg : Argument)
    (h : b.obj a = some (arg, b')) : Added bcs b [.object a] 0 b' := by
  simp only [obj, Option.map_eq_some_iff] at h
  obtain ⟨a', ha', heq⟩ := h
  obtain rfl := (Prod.mk.inj heq).2
  have hself : a'.Covers a := by
    cases hg : b.inputs.get? (.object a.id) with
    | none =>
      rw [hg] at ha'
      exact Or.inl (Option.some.inj ha').symm
    | some old =>
      rw [hg] at ha'
      cases old with
      | pure bytes => simp at ha'
      | object o => exact (mergeObj_covers o a a' ha').2
  refine Added.insert bcs b (.object a) (.object a') ⟨a', rfl, hself⟩ ?_
  intro old l' hget hk henc
  cases l' with
  | pure v => simp [Leaf.key] at hk
  | object want =>
    obtain ⟨have', rfl, hc⟩ := henc
    simp only [Leaf.key] at hget
    rw [hget] at ha'
    exact ⟨a', rfl, (mergeObj_covers have' a a' ha').1.trans _ _ _ hc⟩

theorem added_command (b : ProgrammableTransactionBuilder) (c : Command) :
    Added bcs b [] 1 (b.command c).2 :=
  ⟨rfl, ⟨[c], rfl, rfl⟩, by simp, fun _ h => h, fun h => h⟩

end ProgrammableTransactionBuilder

open ProgrammableTransactionBuilder

mutual

theorem added_inputArg (input : InputArgument) (b b' : ProgrammableTransactionBuilder)
    (arg : Argument) (h : MoveSequence.suiBuilderInputArg bcs b input = some (arg, b')) :
    Added bcs b input.leaves input.vectors b' := by
  have hpure : ∀ v, some (b.pureBytes (bcs v)) = some (arg, b') →
      Added bcs b [.pure v] 0 b' := by
    intro v hv
    have hb : (b.pureBytes (bcs v)).2 = b' := congrArg Prod.snd (Option.some.inj hv)
    exact hb ▸ added_pureBytes bcs b v
  cases input with
  | bool v => exact hpure _ h
  | u8 v => exact hpure _ h
  | u16 v => exact hpure _ h
  | u32 v => exact hpure _ h
  | u64 v => exact hpure _ h
  | u128 v => exact hpure _ h
  | u256 v => exact hpure _ h
  | address v => exact hpure _ h
  | signer v => exact hpure _ h
  | object ty v => exact added_obj bcs b b' v.intoObjectArg arg h
  | vector ty vs =>
    simp only [MoveSequence.suiBuilderInputArg, Option.map_eq_some_iff] at h
    obtain ⟨r, hr, heq⟩ := h
    have hb := congrArg Prod.snd heq
    have hvs := added_inputArgs vs b r.2 r.1 hr
    have hcmd := added_command bcs r.2 (.makeMoveVec (some ty) r.1)
    have hall := Added.trans bcs b r.2 _ _ _ _ _ hvs hcmd
    rw [hb, List.append_nil] at hall
    exact hall

theorem added_inputArgs (inputs : List InputArgument) (b b' : ProgrammableTransactionBuilder)
    (args : List Argument) (h : MoveSequence.suiBuilderInputArgs bcs b inputs = some (args, b')) :
    Added bcs b (InputArgument.leavesList inputs) (InputArgument.vectorsList inputs) b' := by
  cases inputs with
  | nil =>
    simp only [MoveSequence.suiBuilderInputArgs, Option.some.injEq, Prod.mk.injEq] at h
    exact h.2 ▸ Added.refl bcs b
  | cons v vs =>
    simp only [MoveSequence.suiBuilderInputArgs, Option.bind_eq_some_iff,
      Option.map_eq_some_iff] at h
    obtain ⟨r, hr, rs, hrs, heq⟩ := h
    have hb : rs.2 = b' := congrArg Prod.snd heq
    have hv := added_inputArg v b r.2 r.1 hr
    have hvs := added_inputArgs vs r.2 rs.2 rs.1 hrs
    exact hb ▸ Added.trans bcs b r.2 rs.2 _ _ _ _ hv hvs

end

theorem added_addInputs (inputs : List InputArgument) (b b' : ProgrammableTransactionBuilder)
    (h : MoveSequence.addInputs bcs b inputs = some b') :
    Added bcs b (InputArgument.leavesList inputs) (InputArgument.vectorsList inputs) b' := by
  induction inputs generalizing b with
  | nil => exact Option.some.inj h ▸ Added.refl bcs b
  | cons v vs ih =>
    simp only [MoveSequence.addInputs, Option.bind_eq_some_iff] at h
    obtain ⟨r, hr, hrest⟩ := h
    exact Added.trans bcs b r.2 b' _ _ _ _ (added_inputArg bcs v b r.2 r.1 hr) (ih r.2 hrest)

theorem addCommands_eq (cmds : List MoveSequenceCall) (b : ProgrammableTransactionBuilder) :
    MoveSequence.addCommands b cmds =
      { b with commands := b.commands ++ cmds.map MoveSequence.intoCommand } := by
  induction cmds generalizing b with
  | nil => simp [MoveSequence.addCommands]
  | cons c cs ih =>
    have hstep : MoveSequence.addCommands b (c :: cs) =
        MoveSequence.addCommands (b.command (MoveSequence.intoCommand c)).2 cs := rfl
    rw [hstep, ih]
    simp [ProgrammableTransactionBuilder.command]

/-! ### The exact condition -/

theorem leaf_mem_leaves (inputs : List InputArgument) (i : ℕ) (input : InputArgument) (l : Leaf)
    (h : inputs[i]? = some input) (hl : input.leaf? = some l) :
    l ∈ InputArgument.leavesList inputs := by
  induction inputs generalizing i with
  | nil => simp at h
  | cons v vs ih =>
    simp only [InputArgument.leavesList, List.mem_append]
    cases i with
    | zero =>
      simp only [List.getElem?_cons_zero, Option.some.injEq] at h
      subst h
      left
      cases v <;> simp_all [InputArgument.leaf?, InputArgument.leaves]
    | succ i =>
      simp only [List.getElem?_cons_succ] at h
      exact Or.inr (ih i h)

/-- A successful translation: the slots, the commands and their numbers. -/
theorem toPtb_cases (seq : MoveSequence) (ptb : ProgrammableTransaction)
    (h : seq.toPtb bcs = some ptb) :
    ∃ b : ProgrammableTransactionBuilder, ∃ cs : List Command,
      ptb.inputs = b.inputs.values ∧ b.inputs.keys = seq.slots bcs ∧ b.Typed ∧
      (∀ l ∈ InputArgument.leavesList seq.inputs, b.Holds bcs l) ∧
      ptb.commands = cs ++ seq.commands.map MoveSequence.intoCommand ∧
      cs.length = InputArgument.vectorsList seq.inputs := by
  simp only [MoveSequence.toPtb, Option.map_eq_some_iff] at h
  obtain ⟨b, hb, rfl⟩ := h
  have hadd := added_addInputs bcs seq.inputs ProgrammableTransactionBuilder.new b hb
  obtain ⟨cs, hcs, hlen⟩ := hadd.commands
  refine ⟨b, cs, ?_, hadd.keys, hadd.typed ?_, hadd.holds, ?_, hlen⟩
  · rw [addCommands_eq]
    rfl
  · intro k arg hk
    simp [ProgrammableTransactionBuilder.new, IndexMap.get?, IndexMap.empty, rawGet] at hk
  · rw [addCommands_eq]
    simp only [ProgrammableTransactionBuilder.finish, hcs, ProgrammableTransactionBuilder.new,
      List.nil_append]

theorem preserved_iff (seq : MoveSequence) (ptb : ProgrammableTransaction)
    (h : seq.toPtb bcs = some ptb) (a : SequenceArgument) :
    Preserved bcs seq ptb a a.intoArgument ↔ a.Aligned bcs seq := by
  obtain ⟨b, cs, hin, hkeys, htyped, hholds, hcmd, hlen⟩ := toPtb_cases bcs seq ptb h
  have hn : ptb.commands.length = InputArgument.vectorsList seq.inputs + seq.commands.length := by
    rw [hcmd, List.length_append, List.length_map, hlen]
  cases a with
  | gasCoin => simp [Preserved, SequenceArgument.Aligned, SequenceArgument.intoArgument,
      ProgrammableTransaction.resolve]
  | input i =>
    simp only [Preserved, SequenceArgument.Aligned, SequenceArgument.intoArgument,
      ProgrammableTransaction.resolve]
    constructor
    · intro hall
      obtain ⟨input, leaf, arg, hi, hl, hres, henc⟩ := hall
      refine ⟨input, leaf, hi, hl, ?_⟩
      obtain ⟨arg', hget, heq⟩ := Option.map_eq_some_iff.mp hres
      obtain rfl := Resolved.input.inj heq
      rw [hin] at hget
      obtain ⟨k, hk, hval⟩ := IndexMap.values_getElem? b.inputs i.val arg' hget
      rw [← hkeys, hk, ← htyped k arg' hval, encodes_key bcs arg' leaf henc]
    · intro hall
      obtain ⟨input, leaf, hi, hl, hslot⟩ := hall
      obtain ⟨arg, hget, henc⟩ := hholds leaf (leaf_mem_leaves seq.inputs i.val input leaf hi hl)
      refine ⟨input, leaf, arg, hi, hl, ?_, henc⟩
      rw [← hkeys] at hslot
      rw [hin, IndexMap.values_of_key b.inputs i.val _ arg hslot hget, Option.map_some]
  | result j =>
    simp only [Preserved, SequenceArgument.Aligned, SequenceArgument.intoArgument,
      ProgrammableTransaction.resolve, generatedAt, hn]
    split_ifs with hlt
    · simp only [Option.some.injEq, Resolved.result.injEq]
      omega
    · simp only [false_iff]
      omega
  | nestedResult j n =>
    simp only [Preserved, SequenceArgument.Aligned, SequenceArgument.intoArgument,
      ProgrammableTransaction.resolve, generatedAt, hn]
    split_ifs with hlt
    · simp only [Option.some.injEq, Resolved.nestedResult.injEq, and_true]
      omega
    · simp only [false_iff]
      omega

theorem intoCommand_args (call : MoveSequenceCall) :
    (MoveSequence.intoCommand call).args = call.args.map SequenceArgument.intoArgument := by
  cases call <;> simp [MoveSequence.intoCommand, Command.args, MoveSequenceCall.args]

/-- The transaction means what the sequence means exactly if its arguments are
aligned. -/
theorem toPtb_preserves_iff (seq : MoveSequence) (ptb : ProgrammableTransaction)
    (h : seq.toPtb bcs = some ptb) : MeaningPreserved bcs seq ptb ↔ seq.Aligned bcs := by
  obtain ⟨b, cs, _, _, _, _, hcmd, hlen⟩ := toPtb_cases bcs seq ptb h
  have hgen : ∀ k call, seq.commands[k]? = some call →
      ptb.commands[generatedAt seq ptb k]? = some (MoveSequence.intoCommand call) := by
    intro k call hk
    have hat : generatedAt seq ptb k = cs.length + k := by
      rw [generatedAt, hcmd, List.length_append, List.length_map]
      omega
    rw [hat, hcmd, List.getElem?_append_right (by omega)]
    simp only [Nat.add_sub_cancel_left, List.getElem?_map, hk, Option.map_some]
  have hargs : ∀ call : MoveSequenceCall,
      List.Forall₂ (Preserved bcs seq ptb) call.args (MoveSequence.intoCommand call).args ↔
        ∀ a ∈ call.args, a.Aligned bcs seq := by
    intro call
    rw [intoCommand_args, List.forall₂_map_right_iff, List.forall₂_same]
    exact forall₂_congr fun a _ => preserved_iff bcs seq ptb h a
  constructor
  · intro hall call hmem
    obtain ⟨k, hk⟩ := List.getElem?_of_mem hmem
    obtain ⟨c, hc, hp⟩ := hall k call hk
    rw [hgen k call hk] at hc
    obtain rfl := Option.some.inj hc
    exact (hargs call).mp hp
  · intro hall k call hk
    exact ⟨_, hgen k call hk, (hargs call).mpr (hall call (List.mem_of_getElem? hk))⟩

end

/-! ### An aligned and a shifted sequence -/

/-- The serialisation of the libraries: integers little-endian at their width, but for
`u128`, and addresses as their bytes. -/
def bcsBytes : PureValue → List Movy.Store.Byte
  | .bool b => [if b then 1 else 0]
  | .u8 v => leBytes 1 v
  | .u16 v => leBytes 2 v
  | .u32 v => leBytes 4 v
  | .u64 v => leBytes 8 v
  | .u128 v => 16 :: beBytes 16 v
  | .u256 v => leBytes 32 v
  | .address a => a.bytes

def splitBy (inputs : List InputArgument) (i : U16) : MoveSequence :=
  ⟨inputs, [.splitCoins .gasCoin [.input i]]⟩

theorem toPtb_preserves_distinct :
    ∃ ptb, (splitBy [.u64 1, .u64 2] 1).toPtb bcsBytes = some ptb ∧
      MeaningPreserved bcsBytes (splitBy [.u64 1, .u64 2] 1) ptb := by
  refine ⟨_, rfl, (toPtb_preserves_iff bcsBytes _ _ rfl).mpr ?_⟩
  intro call hcall a ha
  obtain rfl := List.mem_singleton.mp hcall
  simp only [MoveSequenceCall.args, List.mem_cons, List.not_mem_nil, or_false] at ha
  rcases ha with rfl | rfl
  · trivial
  · exact ⟨.u64 2, .pure (.u64 2), rfl, rfl, by decide⟩

/-- With amounts 1, 1 and 2, the split by input 1 becomes a split by 2. -/
theorem toPtb_shifts_equal_inputs :
    ∃ ptb, (splitBy [.u64 1, .u64 1, .u64 2] 1).toPtb bcsBytes = some ptb ∧
      ptb.resolve (.input 1) = some (.input (.pure (bcsBytes (.u64 2)))) ∧
      ¬MeaningPreserved bcsBytes (splitBy [.u64 1, .u64 1, .u64 2] 1) ptb := by
  refine ⟨_, rfl, rfl, ?_⟩
  intro h
  obtain ⟨c, hc, hargs⟩ := h 0 _ rfl
  obtain rfl := Option.some.inj hc
  obtain ⟨_, hrest⟩ := List.forall₂_cons.mp hargs
  obtain ⟨hplace, _⟩ := List.forall₂_cons.mp hrest
  obtain ⟨input, leaf, arg, hi, hl, hres, henc⟩ := hplace
  obtain rfl := Option.some.inj hi
  obtain rfl := Option.some.inj hl
  obtain rfl := Resolved.input.inj (Option.some.inj hres)
  have hbytes : CallArg.pure (bcsBytes (.u64 2)) = .pure (bcsBytes (.u64 1)) := henc
  exact absurd hbytes (by decide)

end Movy.Types
