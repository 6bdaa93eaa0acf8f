import Movy.Fuzz.Listed
import Movy.Fuzz.Remap
import Movy.Lib.Tally

/-!
# `from_ptb` as book-keeping

What `from_ptb` looks at in a call: the values that it takes and those that it
brings, each with its type and with what the code reads off the token. The
object data are the books of these entries: lists of values that are marked, a
count of hot potatoes by type, and the map of what is there to be used.
-/

namespace Movy.Fuzz

open Movy.Types Movy.Store MoveAbiSignatureToken

/-! ### Entries -/

structure Note where
  arg : SequenceArgument
  ty : MoveTypeTag
  listed : Bool
  balance : Bool
  keyStore : Bool
  hot : Bool

def Note.unread (arg : SequenceArgument) (ty : MoveTypeTag) (listed : Bool) : Note :=
  ⟨arg, ty, listed, false, false, false⟩

/-- The abilities are those of the partial instance. -/
def Note.read (arg : SequenceArgument) (ty : MoveTypeTag) (token : MoveAbiSignatureToken) : Note :=
  ⟨arg, ty, true, token.isBalance, token.isKeyStore, token.isHotPotato⟩

/-- Inputs are not looked at when they are taken. -/
def Note.taken (tyArgs : TyArgs) (param : MoveAbiSignatureToken) (arg : SequenceArgument)
    (ty : MoveTypeTag) : Note :=
  match arg with
  | .input _ => .unread arg ty true
  | _ => .read arg ty (param.partialSubst tyArgs)

def Note.brought (st : FuzzState) (tyArgs : TyArgs) (ret : MoveAbiSignatureToken)
    (arg : SequenceArgument) (ty : MoveTypeTag) : Note :=
  match ret with
  | .vector inner =>
    { Note.unread arg ty false with
      hot := (ObjectData.vectorHoldsHotPotato st tyArgs inner).getD false }
  | ret => match ty with
    | .struct _ _ _ _ => .read arg ty (ret.partialSubst tyArgs)
    | _ => .unread arg ty false

def takenNote (tyArgs : TyArgs) (arg : SequenceArgument) (param : MoveAbiSignatureToken) :
    Option Note :=
  if !param.needsSample || isReference param then none
  else (param.subst tyArgs).map (.taken tyArgs param arg)

def broughtNote (st : FuzzState) (tyArgs : TyArgs) (ret : MoveAbiSignatureToken)
    (arg : SequenceArgument) : Option Note :=
  (ret.subst tyArgs).map (.brought st tyArgs ret arg)

def takenEntries (tyArgs : TyArgs) (pairs : List (SequenceArgument × MoveAbiSignatureToken)) :
    List (Entry Note) :=
  pairs.filterMap fun e => (takenNote tyArgs e.1 e.2).map .debit

def broughtEntries (st : FuzzState) (n i : ℕ) (tyArgs : TyArgs)
    (returns : List (MoveAbiSignatureToken × ℕ)) : List (Entry Note) :=
  returns.filterMap fun e =>
    (broughtNote st tyArgs e.1 (ObjectData.resultArg n i e.2)).map .credit

def callEntries (st : FuzzState) (i : ℕ) : MoveSequenceCall → List (Entry Note)
  | .call call => match st.getCalled call with
    | some function =>
      takenEntries (tyArgsMap call.typeArguments) (call.arguments.zip function.parameters) ++
        broughtEntries st function.returnParamters.length i (tyArgsMap call.typeArguments)
          function.returnParamters.zipIdx
    | none => []
  | _ => []

/-- Everything that the commands take and bring, in order; the first one has index `i`. -/
def entriesFrom (st : FuzzState) (i : ℕ) (commands : List MoveSequenceCall) : List (Entry Note) :=
  (commands.zipIdx i).flatMap fun e => callEntries st e.2 e.1

/-- The types of what is taken and brought can be worked out. -/
structure Readable (st : FuzzState) (call : MoveCall) (function : MoveFunctionAbi) : Prop where
  params : ∀ e ∈ call.arguments.zip function.parameters, e.2.needsSample = true →
    isReference e.2 = false → (e.2.subst (tyArgsMap call.typeArguments)).isSome = true
  returns : ∀ ret ∈ function.returnParamters,
    (ret.subst (tyArgsMap call.typeArguments)).isSome = true ∧
      ∀ inner, ret = .vector inner →
        (ObjectData.vectorHoldsHotPotato st (tyArgsMap call.typeArguments) inner).isSome = true

def CommandReadable (st : FuzzState) : MoveSequenceCall → Prop
  | .call call => ∃ function, st.getCalled call = some function ∧ Readable st call function
  | _ => True

/-! ### Books -/

def withoutArg (objects : ExistingObjects) (ty : MoveTypeTag) (arg : SequenceArgument)
    (candidates : List (SequenceArgument × Gate)) : ExistingObjects :=
  if (candidates.filter fun e => decide (e.1 ≠ arg)).isEmpty then objects.erase ty
  else objects.insert ty (candidates.filter fun e => decide (e.1 ≠ arg))

/-- The map of what is there; `none` if nothing of the type is. -/
def listStep (objects : ExistingObjects) : Entry Note → Option ExistingObjects
  | .credit note => some (if note.listed then
      ObjectData.pushObject objects note.ty note.arg .owned else objects)
  | .debit note => (objects.get? note.ty).map (withoutArg objects note.ty note.arg)

def listRun : List (Entry Note) → ExistingObjects → Option ExistingObjects
  | [], objects => some objects
  | e :: es, objects => (listStep objects e).bind (listRun es)

namespace ObjectData

def book (self : ObjectData) (es : List (Entry Note)) : Option ObjectData :=
  (listRun es self.existingObjects).bind fun objects =>
    (settle (entriesOf Note.hot Note.ty es) self.hotPotatoes).map fun hotPotatoes =>
      { self with
        existingObjects := objects
        hotPotatoes := hotPotatoes
        balances := mark (entriesOf Note.balance Note.arg es) self.balances
        keyStoreObjects := mark (entriesOf Note.keyStore Note.arg es) self.keyStoreObjects }

theorem book_nil (self : ObjectData) : self.book [] = some self := rfl

end ObjectData

theorem listRun_append (es fs : List (Entry Note)) (objects : ExistingObjects) :
    listRun (es ++ fs) objects = (listRun es objects).bind (listRun fs) := by
  induction es generalizing objects with
  | nil => rfl
  | cons e es ih =>
    rw [List.cons_append, listRun, listRun, Option.bind_assoc]
    exact Option.bind_congr fun next _ => ih next

theorem listRun_singleton (e : Entry Note) (objects : ExistingObjects) :
    listRun [e] objects = listStep objects e := by
  rw [listRun]
  cases listStep objects e <;> rfl

namespace ObjectData

theorem book_append (self : ObjectData) (es fs : List (Entry Note)) :
    self.book (es ++ fs) = (self.book es).bind fun next => next.book fs := by
  unfold book
  simp only [listRun_append, entriesOf_append, settle_append, mark_append]
  cases listRun es self.existingObjects with
  | none => rfl
  | some objects =>
    cases settle (entriesOf Note.hot Note.ty es) self.hotPotatoes with
    | none =>
      simp only [Option.bind_some, Option.map_none, Option.bind_none]
      cases listRun fs objects <;> rfl
    | some hotPotatoes => rfl

theorem book_debit (self : ObjectData) (note : Note) :
    self.book [.debit note] = (self.existingObjects.get? note.ty).bind fun candidates =>
      let self := { self with
        existingObjects := withoutArg self.existingObjects note.ty note.arg candidates }
      let self := if note.balance then
        { self with balances := self.balances.filter fun a => decide (a ≠ note.arg) } else self
      let self := if note.keyStore then
        { self with keyStoreObjects := self.keyStoreObjects.filter fun a => decide (a ≠ note.arg) }
        else self
      if note.hot then
        if note.ty ∈ self.hotPotatoes then
          some { self with hotPotatoes := self.hotPotatoes.erase note.ty }
        else none
      else some self := by
  rw [book, listRun_singleton, listStep]
  cases self.existingObjects.get? note.ty with
  | none => rfl
  | some candidates =>
    have hentries : ∀ {β : Type} (p : Note → Bool) (f : Note → β),
        entriesOf p f [.debit note] = if p note = true then [.debit (f note)] else [] := by
      intro β p f
      rw [entriesOf_cons]
      rfl
    simp only [Option.map_some, Option.bind_some, hentries]
    cases note.balance <;> cases note.keyStore <;> cases note.hot <;>
      simp only [if_true, if_false, Bool.false_eq_true, settle, mark, List.foldl_nil,
        List.foldl_cons, markEntry, Option.map_some] <;> split_ifs <;> rfl

theorem takeArg_eq_some (self next : ObjectData) (tyArgs : TyArgs) (arg : SequenceArgument)
    (param : MoveAbiSignatureToken) :
    takeArg self tyArgs arg param = some next ↔
      (param.needsSample = true → isReference param = false →
        (param.subst tyArgs).isSome = true) ∧
      self.book (takenEntries tyArgs [(arg, param)]) = some next := by
  by_cases hsample : param.needsSample = true
  · cases href : isReference param with
    | true =>
      have hnote : takenEntries tyArgs [(arg, param)] = [] := by
        simp [takenEntries, takenNote, href]
      rw [hnote, book_nil]
      simp [takeArg, href]
    | false =>
      cases hsubst : param.subst tyArgs with
      | none => simp [takeArg, hsample, href, hsubst]
      | some ty =>
        have hnote : takenEntries tyArgs [(arg, param)] =
            [.debit (.taken tyArgs param arg ty)] := by
          simp [takenEntries, takenNote, hsample, href, hsubst]
        unfold takeArg
        rw [if_neg (by simp [hsample]), if_neg (by simp [href]), hsubst]
        rw [hnote, book_debit]
        cases arg with
        | input i => exact ⟨fun h => ⟨fun _ _ => rfl, h⟩, fun h => h.2⟩
        | _ => exact ⟨fun h => ⟨fun _ _ => rfl, h⟩, fun h => h.2⟩
  · have hnote : takenEntries tyArgs [(arg, param)] = [] := by
      simp [takenEntries, takenNote, hsample]
    rw [hnote, book_nil]
    simp [takeArg, hsample]

theorem takeArgs_eq_some (self next : ObjectData) (tyArgs : TyArgs)
    (pairs : List (SequenceArgument × MoveAbiSignatureToken)) :
    takeArgs self tyArgs pairs = some next ↔
      (∀ e ∈ pairs, e.2.needsSample = true → isReference e.2 = false →
        (e.2.subst tyArgs).isSome = true) ∧
      self.book (takenEntries tyArgs pairs) = some next := by
  induction pairs generalizing self with
  | nil => simp [takeArgs, takenEntries, book_nil]
  | cons e rest ih =>
    have hcons : takenEntries tyArgs (e :: rest) =
        takenEntries tyArgs [e] ++ takenEntries tyArgs rest := by
      rw [takenEntries, takenEntries, takenEntries, ← List.filterMap_append, List.singleton_append]
    rw [takeArgs, hcons, book_append, List.forall_mem_cons]
    constructor
    · intro h
      obtain ⟨mid, hmid, h⟩ := Option.bind_eq_some_iff.mp h
      obtain ⟨hhead, hbook⟩ := (takeArg_eq_some self mid tyArgs e.1 e.2).mp hmid
      obtain ⟨htail, hrest⟩ := (ih mid).mp h
      exact ⟨⟨hhead, htail⟩, Option.bind_eq_some_iff.mpr ⟨mid, hbook, hrest⟩⟩
    · intro h
      obtain ⟨mid, hbook, hrest⟩ := Option.bind_eq_some_iff.mp h.2
      exact Option.bind_eq_some_iff.mpr ⟨mid,
        (takeArg_eq_some self mid tyArgs e.1 e.2).mpr ⟨h.1.1, hbook⟩,
        (ih mid).mpr ⟨h.1.2, hrest⟩⟩

theorem book_credit (self : ObjectData) (note : Note) :
    self.book [.credit note] = some { self with
      existingObjects := if note.listed then
          pushObject self.existingObjects note.ty note.arg .owned
        else self.existingObjects
      balances := if note.balance then self.balances ++ [note.arg] else self.balances
      keyStoreObjects :=
        if note.keyStore then self.keyStoreObjects ++ [note.arg] else self.keyStoreObjects
      hotPotatoes := if note.hot then self.hotPotatoes ++ [note.ty] else self.hotPotatoes } := by
  have hentries : ∀ {β : Type} (p : Note → Bool) (f : Note → β),
      entriesOf p f [.credit note] = if p note = true then [.credit (f note)] else [] := by
    intro β p f
    rw [entriesOf_cons]
    rfl
  rw [book, listRun_singleton, listStep]
  simp only [Option.bind_some, hentries]
  cases note.balance <;> cases note.keyStore <;> cases note.hot <;> rfl

theorem addReturn_eq_some (st : FuzzState) (self next : ObjectData) (tyArgs : TyArgs)
    (retTy : MoveAbiSignatureToken) (arg : SequenceArgument) :
    addReturn st self tyArgs retTy arg = some next ↔
      ((retTy.subst tyArgs).isSome = true ∧ ∀ inner, retTy = .vector inner →
        (vectorHoldsHotPotato st tyArgs inner).isSome = true) ∧
      self.book ((broughtNote st tyArgs retTy arg).map .credit).toList = some next := by
  cases hsubst : retTy.subst tyArgs with
  | none => simp [addReturn, hsubst]
  | some ty =>
    have hnote : ((broughtNote st tyArgs retTy arg).map Entry.credit).toList =
        [.credit (.brought st tyArgs retTy arg ty)] := by
      rw [broughtNote, hsubst]
      rfl
    rw [hnote, book_credit]
    unfold addReturn
    rw [hsubst]
    cases retTy with
    | vector inner =>
      cases hot : vectorHoldsHotPotato st tyArgs inner with
      | none => simp [hot]
      | some hot' =>
        simp only [Note.brought, hot, Option.getD_some, Note.unread, Option.bind_eq_bind,
          Option.bind_some, Option.isSome_some, true_and]
        constructor
        · intro h
          refine ⟨fun inner' heq => ?_, ?_⟩
          · cases heq
            rw [hot]
            rfl
          · rw [← h]
            cases hot' <;> rfl
        · intro h
          rw [← h.2]
          cases hot' <;> rfl
    | _ =>
      cases ty with
      | struct a m n tys => exact ⟨fun h => ⟨⟨rfl, fun _ heq => by cases heq⟩, h⟩, fun h => h.2⟩
      | _ => exact ⟨fun h => ⟨⟨rfl, fun _ heq => by cases heq⟩, h⟩, fun h => h.2⟩

theorem addReturns_eq_some (st : FuzzState) (n i : ℕ) (tyArgs : TyArgs) (self next : ObjectData)
    (j : ℕ) (retTys : List MoveAbiSignatureToken) :
    addReturns st n i tyArgs self j retTys = some next ↔
      (∀ ret ∈ retTys, (ret.subst tyArgs).isSome = true ∧ ∀ inner, ret = .vector inner →
        (vectorHoldsHotPotato st tyArgs inner).isSome = true) ∧
      self.book (broughtEntries st n i tyArgs (retTys.zipIdx j)) = some next := by
  induction retTys generalizing self j with
  | nil => simp [addReturns, broughtEntries, book_nil]
  | cons ret rest ih =>
    have hcons : broughtEntries st n i tyArgs ((ret :: rest).zipIdx j) =
        ((broughtNote st tyArgs ret (resultArg n i j)).map .credit).toList ++
          broughtEntries st n i tyArgs (rest.zipIdx (j + 1)) := by
      rw [broughtEntries, List.zipIdx_cons, List.filterMap_cons]
      cases broughtNote st tyArgs ret (resultArg n i j) <;> rfl
    rw [addReturns, hcons, book_append, List.forall_mem_cons]
    constructor
    · intro h
      obtain ⟨mid, hmid, h⟩ := Option.bind_eq_some_iff.mp h
      obtain ⟨hhead, hbook⟩ := (addReturn_eq_some st self mid tyArgs ret _).mp hmid
      obtain ⟨htail, hrest⟩ := (ih mid (j + 1)).mp h
      exact ⟨⟨hhead, htail⟩, Option.bind_eq_some_iff.mpr ⟨mid, hbook, hrest⟩⟩
    · intro h
      obtain ⟨mid, hbook, hrest⟩ := Option.bind_eq_some_iff.mp h.2
      exact Option.bind_eq_some_iff.mpr ⟨mid,
        (addReturn_eq_some st self mid tyArgs ret _).mpr ⟨h.1.1, hbook⟩,
        (ih mid (j + 1)).mpr ⟨h.1.2, hrest⟩⟩

theorem addCommands_eq_some (st : FuzzState) (self data : ObjectData) (i : ℕ)
    (commands : List MoveSequenceCall) :
    addCommands st self i commands = some data ↔
      (∀ cmd ∈ commands, CommandReadable st cmd) ∧
      self.book (entriesFrom st i commands) = some data := by
  induction commands generalizing self i with
  | nil => simp [addCommands, entriesFrom, book_nil]
  | cons cmd rest ih =>
    have hcons : entriesFrom st i (cmd :: rest) =
        callEntries st i cmd ++ entriesFrom st (i + 1) rest := by
      rw [entriesFrom, List.zipIdx_cons, List.flatMap_cons]
      rfl
    rw [hcons, book_append, List.forall_mem_cons]
    cases cmd with
    | call call =>
      rw [addCommands]
      cases hfunction : st.getCalled call with
      | none => simp [CommandReadable, hfunction]
      | some function =>
        rw [callEntries, hfunction]
        constructor
        · intro h
          rw [Option.bind_eq_bind, Option.bind_some] at h
          obtain ⟨taken, htaken, h⟩ := Option.bind_eq_some_iff.mp h
          obtain ⟨next, hnext, h⟩ := Option.bind_eq_some_iff.mp h
          obtain ⟨hparams, hbookTaken⟩ := (takeArgs_eq_some self taken _ _).mp htaken
          obtain ⟨hreturns, hbookNext⟩ := (addReturns_eq_some st _ i _ taken next 0 _).mp hnext
          obtain ⟨hrest, hbook⟩ := (ih next (i + 1)).mp h
          refine ⟨⟨⟨function, hfunction, hparams, hreturns⟩, hrest⟩, ?_⟩
          rw [book_append, hbookTaken, Option.bind_some, hbookNext, Option.bind_some, hbook]
        · intro h
          obtain ⟨⟨⟨function', hfunction', hreadable⟩, hrest⟩, hbook⟩ := h
          obtain rfl : function = function' := Option.some.inj (hfunction.symm.trans hfunction')
          obtain ⟨next, hnext, hbook⟩ := Option.bind_eq_some_iff.mp hbook
          rw [book_append] at hnext
          obtain ⟨taken, htaken, hnext⟩ := Option.bind_eq_some_iff.mp hnext
          rw [Option.bind_eq_bind, Option.bind_some]
          exact Option.bind_eq_some_iff.mpr ⟨taken,
            (takeArgs_eq_some self taken _ _).mpr ⟨hreadable.params, htaken⟩,
            Option.bind_eq_some_iff.mpr ⟨next,
              (addReturns_eq_some st _ i _ taken next 0 _).mpr ⟨hreadable.returns, hnext⟩,
              (ih next (i + 1)).mpr ⟨hrest, hbook⟩⟩⟩
    | _ =>
      show addCommands st self (i + 1) rest = some data ↔ _
      rw [ih]
      exact ⟨fun h => ⟨⟨trivial, h.1⟩, h.2⟩, fun h => ⟨h.1.2, h.2⟩⟩

end ObjectData

/-! ### What is listed -/

def NoEmpty (objects : ExistingObjects) : Prop :=
  ∀ ty args, objects.get? ty = some args → args ≠ []

theorem get?_isSome_iff (objects : ExistingObjects) (h : NoEmpty objects) (ty : MoveTypeTag) :
    (objects.get? ty).isSome = true ↔ ∃ c, Lists objects ty c := by
  constructor
  · intro hsome
    obtain ⟨args, hargs⟩ := Option.isSome_iff_exists.mp hsome
    obtain ⟨e, he⟩ := List.exists_mem_of_ne_nil _ (h ty args hargs)
    exact ⟨e.1, args, hargs, List.mem_map_of_mem he⟩
  · intro hlists
    obtain ⟨c, args, hargs, -⟩ := hlists
    rw [hargs]
    rfl

theorem NoEmpty.push {objects : ExistingObjects} (h : NoEmpty objects) (ty : MoveTypeTag)
    (arg : SequenceArgument) (gate : Gate) :
    NoEmpty (ObjectData.pushObject objects ty arg gate) := by
  intro ty' args hargs
  rw [ObjectData.pushObject, IndexMap.get?_insert] at hargs
  split_ifs at hargs
  · rw [← Option.some.inj hargs]
    exact List.append_ne_nil_of_right_ne_nil _ (List.cons_ne_nil _ _)
  · exact h ty' args hargs

theorem NoEmpty.withoutArg {objects : ExistingObjects} (h : NoEmpty objects) (ty : MoveTypeTag)
    (arg : SequenceArgument) (candidates : List (SequenceArgument × Gate)) :
    NoEmpty (withoutArg objects ty arg candidates) := by
  intro ty' args hargs
  unfold Fuzz.withoutArg at hargs
  split_ifs at hargs with hempty
  · rw [IndexMap.get?_erase] at hargs
    split_ifs at hargs
    exact h ty' args hargs
  · rw [IndexMap.get?_insert] at hargs
    split_ifs at hargs
    · rw [← Option.some.inj hargs]
      intro hnil
      rw [hnil] at hempty
      exact hempty rfl
    · exact h ty' args hargs

theorem lists_withoutArg (objects : ExistingObjects) (ty : MoveTypeTag) (arg : SequenceArgument)
    (candidates : List (SequenceArgument × Gate)) (hget : objects.get? ty = some candidates)
    (ty' : MoveTypeTag) (c : SequenceArgument) :
    Lists (withoutArg objects ty arg candidates) ty' c ↔
      Lists objects ty' c ∧ (ty = ty' → arg ≠ c) := by
  have hmem : c ∈ (candidates.filter fun e => decide (e.1 ≠ arg)).map Prod.fst ↔
      c ∈ candidates.map Prod.fst ∧ arg ≠ c := by
    simp only [List.mem_map, List.mem_filter, decide_eq_true_eq]
    constructor
    · intro hall
      obtain ⟨e, ⟨he, hne⟩, rfl⟩ := hall
      exact ⟨⟨e, he, rfl⟩, fun h => hne h.symm⟩
    · intro hall
      obtain ⟨⟨e, he, rfl⟩, hne⟩ := hall
      exact ⟨e, ⟨he, fun h => hne h.symm⟩, rfl⟩
  have hold : Lists objects ty c ↔ c ∈ candidates.map Prod.fst := by
    constructor
    · intro hall
      obtain ⟨args, hargs, hc⟩ := hall
      rw [← Option.some.inj (hget.symm.trans hargs)] at hc
      exact hc
    · exact fun hc => ⟨candidates, hget, hc⟩
  unfold withoutArg
  by_cases hty : ty' = ty
  · subst hty
    simp only [true_imp_iff]
    rw [hold, ← hmem]
    split_ifs with hempty
    · rw [List.isEmpty_iff.mp hempty]
      constructor
      · intro hall
        obtain ⟨args, hargs, -⟩ := hall
        rw [IndexMap.get?_erase, if_pos rfl] at hargs
        cases hargs
      · exact fun h => absurd h List.not_mem_nil
    · rw [lists_insert, if_pos rfl]
  · have hne : ¬ ty = ty' := fun h => hty h.symm
    have hother : Lists objects ty' c ∧ (ty = ty' → arg ≠ c) ↔ Lists objects ty' c :=
      and_iff_left fun h => absurd h hne
    rw [hother]
    split_ifs
    · unfold Lists
      rw [IndexMap.get?_erase, if_neg hty]
    · rw [lists_insert, if_neg hty]

section

variable (there : MoveTypeTag → SequenceArgument → Prop)

def NotTaken (es : List (Entry Note)) (ty : MoveTypeTag) (c : SequenceArgument) : Prop :=
  ∀ note ∈ debited es, note.ty = ty → note.arg ≠ c

/-- The argument was there, or has been brought under the type, and was not taken
since. -/
def ListedAfter (es : List (Entry Note)) (ty : MoveTypeTag) (c : SequenceArgument) : Prop :=
  (there ty c ∧ NotTaken es ty c) ∨
    ∃ pre note post, es = pre ++ .credit note :: post ∧
      (note.listed = true ∧ note.ty = ty ∧ note.arg = c) ∧ NotTaken post ty c

def NextListed (pre : List (Entry Note)) : Entry Note → Prop
  | .credit _ => True
  | .debit note => ∃ c, ListedAfter there pre note.ty c

/-- Whenever something is taken, something of its type is there. -/
def AlwaysListed (es : List (Entry Note)) : Prop :=
  ∀ pre e post, es = pre ++ e :: post → NextListed there pre e

end

theorem notTaken_concat (es : List (Entry Note)) (e : Entry Note) (ty : MoveTypeTag)
    (c : SequenceArgument) :
    NotTaken (es ++ [e]) ty c ↔ NotTaken es ty c ∧
      ∀ note, e = .debit note → note.ty = ty → note.arg ≠ c := by
  unfold NotTaken
  rw [debited_append]
  cases e with
  | credit note => simp
  | debit note =>
    simp only [debited_debit, debited_nil, List.mem_append, List.mem_singleton, Entry.debit.injEq]
    constructor
    · intro h
      exact ⟨fun m hm => h m (Or.inl hm), fun m hm => h m (Or.inr hm.symm)⟩
    · rintro h m (hm | rfl)
      · exact h.1 m hm
      · exact h.2 m rfl

theorem listedAfter_concat (there : MoveTypeTag → SequenceArgument → Prop)
    (es : List (Entry Note)) (e : Entry Note) (ty : MoveTypeTag) (c : SequenceArgument) :
    ListedAfter there (es ++ [e]) ty c ↔
      (ListedAfter there es ty c ∧ ∀ note, e = .debit note → note.ty = ty → note.arg ≠ c) ∨
        ∃ note, e = .credit note ∧ note.listed = true ∧ note.ty = ty ∧ note.arg = c := by
  constructor
  · rintro (⟨hthere, hnot⟩ | ⟨pre, note, post, heq, hnote, hnot⟩)
    · obtain ⟨hnot, hlast⟩ := (notTaken_concat es e ty c).mp hnot
      exact Or.inl ⟨Or.inl ⟨hthere, hnot⟩, hlast⟩
    · rcases List.eq_nil_or_concat post with rfl | ⟨init, last, rfl⟩
      · exact Or.inr ⟨note, List.singleton_inj.mp (List.append_inj' heq rfl).2, hnote⟩
      · rw [List.concat_eq_append] at heq hnot
        have hassoc : pre ++ .credit note :: (init ++ [last]) =
            (pre ++ .credit note :: init) ++ [last] := by
          rw [List.append_assoc]
          rfl
        rw [hassoc] at heq
        obtain ⟨rfl, hlast⟩ := List.append_inj' heq rfl
        obtain rfl := List.singleton_inj.mp hlast
        obtain ⟨hnot, hlast⟩ := (notTaken_concat init e ty c).mp hnot
        exact Or.inl ⟨Or.inr ⟨pre, note, init, rfl, hnote, hnot⟩, hlast⟩
  · rintro (⟨⟨hthere, hnot⟩ | ⟨pre, note, post, rfl, hnote, hnot⟩, hlast⟩ | ⟨note, rfl, hnote⟩)
    · exact Or.inl ⟨hthere, (notTaken_concat es e ty c).mpr ⟨hnot, hlast⟩⟩
    · refine Or.inr ⟨pre, note, post ++ [e], ?_, hnote,
        (notTaken_concat post e ty c).mpr ⟨hnot, hlast⟩⟩
      rw [List.append_assoc]
      rfl
    · exact Or.inr ⟨es, note, [], rfl, hnote, fun m hm => absurd hm List.not_mem_nil⟩

/-- The map lists what was brought and not taken, and the run goes on as long as that
is enough. -/
theorem listRun_spec (es : List (Entry Note)) (objects : ExistingObjects)
    (hempty : NoEmpty objects) :
    ((listRun es objects).isSome = true ↔ AlwaysListed (Lists objects) es) ∧
    ∀ next, listRun es objects = some next →
      NoEmpty next ∧ ∀ ty c, Lists next ty c ↔ ListedAfter (Lists objects) es ty c := by
  induction es using List.reverseRecOn with
  | nil =>
    refine ⟨iff_of_true rfl fun pre e post heq => ?_, fun next h => ?_⟩
    · cases pre <;> cases heq
    · rw [← Option.some.inj h]
      exact ⟨hempty, fun ty c => by simp [ListedAfter, NotTaken]⟩
  | append_singleton es e ih =>
    obtain ⟨hsome, hlists⟩ := ih
    rw [AlwaysListed, forall_split_concat, ← AlwaysListed, ← hsome, listRun_append]
    cases hrun : listRun es objects with
    | none => simp
    | some mid =>
      obtain ⟨hempty', hmid⟩ := hlists mid hrun
      cases e with
      | credit note =>
        rw [Option.bind_some, listRun_singleton, listStep]
        refine ⟨by simp [NextListed], fun next h => ?_⟩
        rw [Option.some.injEq] at h
        have hpush : ∀ ty c, Lists next ty c ↔
            Lists mid ty c ∨ (note.listed = true ∧ note.ty = ty ∧ note.arg = c) := by
          intro ty c
          rw [← h]
          split_ifs with hl
          · rw [lists_pushObject, or_comm]
            apply or_congr_right
            exact ⟨fun h => ⟨hl, h.1.symm, h.2.symm⟩, fun h => ⟨h.2.1.symm, h.2.2.symm⟩⟩
          · exact (or_iff_left fun h => hl h.1).symm
        refine ⟨?_, fun ty c => ?_⟩
        · rw [← h]
          split_ifs
          · exact hempty'.push _ _ _
          · exact hempty'
        · rw [hpush, hmid, listedAfter_concat]
          simp
      | debit note =>
        rw [Option.bind_some, listRun_singleton, listStep]
        constructor
        · rw [Option.isSome_map, get?_isSome_iff mid hempty']
          simp only [NextListed, hmid, Option.isSome_some, true_and]
        · intro next h
          obtain ⟨candidates, hget, rfl⟩ := Option.map_eq_some_iff.mp h
          refine ⟨hempty'.withoutArg _ _ _, fun ty c => ?_⟩
          rw [lists_withoutArg mid note.ty note.arg candidates hget, hmid, listedAfter_concat]
          simp

/-! ### Object inputs -/

/-- The inputs that `from_ptb` can deal with: objects of an owner, immutable or shared ones. -/
def InputsSupported (st : FuzzState) (inputs : List InputArgument) : Prop :=
  ∀ ty obj, .object ty obj ∈ inputs → ∃ id object, ObjectData.objectId obj = some id ∧
    st.getMoveObjectInfo id = some object ∧ (ObjectData.gateOf object.owner).isSome = true

def InputThere (st : FuzzState) (i : ℕ) (inputs : List InputArgument) (ty : MoveTypeTag)
    (c : SequenceArgument) : Prop :=
  ∃ k ty' obj id object, inputs[k]? = some (.object ty' obj) ∧ ObjectData.objectId obj = some id ∧
    st.getMoveObjectInfo id = some object ∧ object.ty = ty ∧ c = .input (asU16 (i + k))

theorem addInputs_isSome_iff (st : FuzzState) (self : ObjectData) (i : ℕ)
    (inputs : List InputArgument) :
    (ObjectData.addInputs st self i inputs).isSome = true ↔ InputsSupported st inputs := by
  induction inputs generalizing self i with
  | nil => exact iff_of_true rfl fun _ _ h => absurd h List.not_mem_nil
  | cons input rest ih =>
    have hrest : (∀ ty obj, input ≠ .object ty obj) →
        (InputsSupported st (input :: rest) ↔ InputsSupported st rest) := by
      intro hpure
      constructor
      · exact fun h ty obj hmem => h ty obj (List.mem_cons_of_mem _ hmem)
      · intro h ty obj hmem
        rcases List.mem_cons.mp hmem with heq | hmem
        · exact absurd heq.symm (hpure ty obj)
        · exact h ty obj hmem
    cases input with
    | object ty obj =>
      constructor
      · intro h
        obtain ⟨data, hdata⟩ := Option.isSome_iff_exists.mp h
        obtain ⟨id, hid, hdata⟩ := Option.bind_eq_some_iff.mp hdata
        obtain ⟨object, hobject, hdata⟩ := Option.bind_eq_some_iff.mp hdata
        obtain ⟨gate, hgate, hdata⟩ := Option.bind_eq_some_iff.mp hdata
        intro ty' obj' hmem
        rcases List.mem_cons.mp hmem with heq | hmem
        · cases heq
          exact ⟨id, object, hid, hobject, by rw [hgate]; rfl⟩
        · exact (ih _ (i + 1)).mp (by rw [hdata]; rfl) ty' obj' hmem
      · intro h
        obtain ⟨id, object, hid, hobject, hgate⟩ := h ty obj (List.mem_cons_self ..)
        obtain ⟨gate, hgate⟩ := Option.isSome_iff_exists.mp hgate
        rw [ObjectData.addInputs, hid, Option.bind_eq_bind, Option.bind_some, hobject,
          Option.bind_eq_bind, Option.bind_some, hgate, Option.bind_eq_bind, Option.bind_some, ih]
        exact fun ty' obj' hmem => h ty' obj' (List.mem_cons_of_mem _ hmem)
    | _ => exact (ih self (i + 1)).trans (hrest fun _ _ h => by cases h).symm

/-- The inputs only add to the map. -/
theorem addInputs_spec (st : FuzzState) (self data : ObjectData) (i : ℕ)
    (inputs : List InputArgument) (hempty : NoEmpty self.existingObjects)
    (h : ObjectData.addInputs st self i inputs = some data) :
    NoEmpty data.existingObjects ∧
      (∀ ty c, Lists data.existingObjects ty c ↔
        Lists self.existingObjects ty c ∨ InputThere st i inputs ty c) ∧
      data.hotPotatoes = self.hotPotatoes ∧ data.balances = self.balances ∧
      data.keyStoreObjects = self.keyStoreObjects := by
  induction inputs generalizing self i with
  | nil =>
    rw [← Option.some.inj h]
    refine ⟨hempty, fun ty c => ?_, rfl, rfl, rfl⟩
    simp [InputThere]
  | cons input rest ih =>
    have hthere : ∀ ty c, InputThere st i (input :: rest) ty c ↔
        (∃ ty' obj id object, input = .object ty' obj ∧ ObjectData.objectId obj = some id ∧
          st.getMoveObjectInfo id = some object ∧ object.ty = ty ∧ c = .input (asU16 i)) ∨
        InputThere st (i + 1) rest ty c := by
      intro ty c
      constructor
      · intro hall
        obtain ⟨k, ty', obj, id, object, hk, hid, hobject, hty, hc⟩ := hall
        cases k with
        | zero => exact Or.inl ⟨ty', obj, id, object, Option.some.inj hk, hid, hobject, hty, hc⟩
        | succ k =>
          refine Or.inr ⟨k, ty', obj, id, object, hk, hid, hobject, hty, ?_⟩
          rw [hc, Nat.add_right_comm i 1 k, Nat.add_assoc]
      · rintro (⟨ty', obj, id, object, hin, hid, hobject, hty, hc⟩ |
          ⟨k, ty', obj, id, object, hk, hid, hobject, hty, hc⟩)
        · exact ⟨0, ty', obj, id, object, congrArg some hin, hid, hobject, hty, hc⟩
        · refine ⟨k + 1, ty', obj, id, object, hk, hid, hobject, hty, ?_⟩
          rw [hc, Nat.add_right_comm i 1 k, Nat.add_assoc]
    have hskip : (∀ ty obj, input ≠ .object ty obj) →
        ∀ ty c, InputThere st i (input :: rest) ty c ↔ InputThere st (i + 1) rest ty c := by
      intro hpure ty c
      rw [hthere]
      refine or_iff_right ?_
      intro hall
      obtain ⟨ty', obj, _, _, hin, -⟩ := hall
      exact hpure ty' obj hin
    cases input with
    | object ty obj =>
      obtain ⟨id, hid, h⟩ := Option.bind_eq_some_iff.mp h
      obtain ⟨object, hobject, h⟩ := Option.bind_eq_some_iff.mp h
      obtain ⟨gate, hgate, h⟩ := Option.bind_eq_some_iff.mp h
      obtain ⟨hempty', hlists, hrest⟩ := ih _ (i + 1) (hempty.push object.ty _ gate) h
      refine ⟨hempty', fun ty' c => ?_, hrest⟩
      rw [hlists, lists_pushObject, hthere]
      constructor
      · rintro ((⟨rfl, rfl⟩ | hold) | hin)
        · exact Or.inr (Or.inl ⟨ty, obj, id, object, rfl, hid, hobject, rfl, rfl⟩)
        · exact Or.inl hold
        · exact Or.inr (Or.inr hin)
      · rintro (hold | ⟨ty'', obj', id', object', heq, hid', hobject', hty, hc⟩ | hin)
        · exact Or.inl (Or.inr hold)
        · cases heq
          obtain rfl := Option.some.inj (hid.symm.trans hid')
          obtain rfl := Option.some.inj (hobject.symm.trans hobject')
          exact Or.inl (Or.inl ⟨hty.symm, hc⟩)
        · exact Or.inr hin
    | _ =>
      obtain ⟨hempty', hlists, hrest⟩ := ih self (i + 1) hempty h
      refine ⟨hempty', fun ty c => ?_, hrest⟩
      rw [hlists, hskip fun _ _ heq => by cases heq]

/-! ### `from_ptb` -/

theorem book_spec (self data : ObjectData) (es : List (Entry Note)) :
    self.book es = some data ↔ ∃ objects hot, listRun es self.existingObjects = some objects ∧
      settle (entriesOf Note.hot Note.ty es) self.hotPotatoes = some hot ∧
      data = { self with
        existingObjects := objects
        hotPotatoes := hot
        balances := mark (entriesOf Note.balance Note.arg es) self.balances
        keyStoreObjects := mark (entriesOf Note.keyStore Note.arg es) self.keyStoreObjects } := by
  constructor
  · intro h
    obtain ⟨objects, hobjects, h⟩ := Option.bind_eq_some_iff.mp h
    obtain ⟨hot, hhot, rfl⟩ := Option.map_eq_some_iff.mp h
    exact ⟨objects, hot, hobjects, hhot, rfl⟩
  · intro hall
    obtain ⟨objects, hot, hobjects, hhot, rfl⟩ := hall
    rw [ObjectData.book, hobjects, Option.bind_some, hhot]
    rfl

/-- The types of what commands take and bring as hot potatoes. -/
def hotEntries (st : FuzzState) (commands : List MoveSequenceCall) : List (Entry MoveTypeTag) :=
  entriesOf Note.hot Note.ty (entriesFrom st 0 commands)

/-- What `from_ptb` needs in order not to panic. -/
structure Booked (st : FuzzState) (ptb : MoveSequence) : Prop where
  inputs : ptb.commands = [] ∨ InputsSupported st ptb.inputs
  readable : ∀ cmd ∈ ptb.commands, CommandReadable st cmd
  listed : AlwaysListed (InputThere st 0 ptb.inputs) (entriesFrom st 0 ptb.commands)
  covered : Covered [] (hotEntries st ptb.commands)

theorem start_spec (st : FuzzState) (inputs : List InputArgument) (start : ObjectData)
    (h : ObjectData.addInputs st { ObjectData.new with usedObjectIds := [st.gasId] } 0 inputs =
      some start) :
    NoEmpty start.existingObjects ∧ Lists start.existingObjects = InputThere st 0 inputs ∧
      start.hotPotatoes = [] ∧ start.balances = [] ∧ start.keyStoreObjects = [] := by
  have hnew : NoEmpty ObjectData.new.existingObjects := fun ty args h => by cases h
  obtain ⟨hempty, hlists, hhot, hbalances, hkeyStore⟩ := addInputs_spec st
    { ObjectData.new with usedObjectIds := [st.gasId] } start 0 _ hnew h
  refine ⟨hempty, ?_, hhot, hbalances, hkeyStore⟩
  funext ty c
  apply propext
  rw [hlists]
  apply or_iff_right
  intro hall
  obtain ⟨args, hargs, -⟩ := hall
  cases hargs

/-- `from_ptb` keeps the books of all entries: a count of hot potatoes, and lists with
marks for the rest. -/
theorem fromPtb_spec (st : FuzzState) (ptb : MoveSequence) :
    ((ObjectData.fromPtb st ptb).isSome = true ↔ Booked st ptb) ∧
    ∀ data, ObjectData.fromPtb st ptb = some data →
      settle (hotEntries st ptb.commands) [] = some data.hotPotatoes ∧
        data.balances = mark (entriesOf Note.balance Note.arg (entriesFrom st 0 ptb.commands)) [] ∧
        data.keyStoreObjects =
          mark (entriesOf Note.keyStore Note.arg (entriesFrom st 0 ptb.commands)) [] := by
  by_cases hnil : ptb.commands = []
  · have hrun : ObjectData.fromPtb st ptb =
        some { ObjectData.new with usedObjectIds := [st.gasId] } := by
      rw [ObjectData.fromPtb, hnil]
      rfl
    rw [hrun, hnil]
    refine ⟨iff_of_true rfl ⟨Or.inl hnil, ?_, ?_, ?_⟩, fun data h => ?_⟩
    · rw [hnil]
      exact fun cmd hcmd => absurd hcmd List.not_mem_nil
    · rw [hnil]
      intro pre e post heq
      cases pre <;> cases heq
    · rw [hnil]
      exact (settle_isSome_iff [] []).mp rfl
    · rw [← Option.some.inj h]
      exact ⟨rfl, rfl, rfl⟩
  · have hrun : ObjectData.fromPtb st ptb =
        (ObjectData.addInputs st { ObjectData.new with usedObjectIds := [st.gasId] } 0
          ptb.inputs).bind fun start => ObjectData.addCommands st start 0 ptb.commands := by
      rw [ObjectData.fromPtb, if_neg (by rw [List.isEmpty_iff]; exact hnil)]
      rfl
    rw [hrun]
    constructor
    · constructor
      · intro h
        obtain ⟨data, hdata⟩ := Option.isSome_iff_exists.mp h
        obtain ⟨start, hin, hdata⟩ := Option.bind_eq_some_iff.mp hdata
        obtain ⟨hempty, hlists, hhot, -, -⟩ := start_spec st _ start hin
        obtain ⟨hreadable, hbook⟩ := (ObjectData.addCommands_eq_some st start data 0 _).mp hdata
        obtain ⟨objects, hot, hobjects, hsettle, -⟩ := (book_spec start data _).mp hbook
        rw [hhot] at hsettle
        refine ⟨Or.inr ((addInputs_isSome_iff st _ 0 _).mp (by rw [hin]; rfl)), hreadable, ?_,
          (settle_isSome_iff _ _).mp (by rw [hotEntries, hsettle]; rfl)⟩
        rw [← hlists]
        exact (listRun_spec _ _ hempty).1.mp (by rw [hobjects]; rfl)
      · intro h
        obtain ⟨start, hin⟩ := Option.isSome_iff_exists.mp
          ((addInputs_isSome_iff st { ObjectData.new with usedObjectIds := [st.gasId] } 0 _).mpr
            (h.inputs.resolve_left hnil))
        obtain ⟨hempty, hlists, hhot, -, -⟩ := start_spec st _ start hin
        have hlisted := h.listed
        rw [← hlists] at hlisted
        obtain ⟨objects, hobjects⟩ := Option.isSome_iff_exists.mp
          ((listRun_spec _ _ hempty).1.mpr hlisted)
        obtain ⟨hot, hsettle⟩ := Option.isSome_iff_exists.mp
          ((settle_isSome_iff _ _).mpr h.covered)
        rw [hin, Option.bind_some, Option.isSome_iff_exists]
        refine ⟨_, (ObjectData.addCommands_eq_some st start _ 0 _).mpr ⟨h.readable,
          (book_spec start _ _).mpr ⟨objects, hot, hobjects, ?_, rfl⟩⟩⟩
        rw [hhot]
        exact hsettle
    · intro data hdata
      obtain ⟨start, hin, hdata⟩ := Option.bind_eq_some_iff.mp hdata
      obtain ⟨-, -, hhot, hbalances, hkeyStore⟩ := start_spec st _ start hin
      obtain ⟨-, hbook⟩ := (ObjectData.addCommands_eq_some st start data 0 _).mp hdata
      obtain ⟨objects, hot, -, hsettle, rfl⟩ := (book_spec start data _).mp hbook
      rw [hhot] at hsettle
      exact ⟨hsettle, by rw [hbalances], by rw [hkeyStore]⟩

/-! ### Results are new -/

/-- What is brought has not been mentioned before. -/
def Fresh (e e' : Entry Note) : Prop := NewCredit (e.map Note.arg) (e'.map Note.arg)

theorem fresh_credit (e : Entry Note) (note : Note) :
    Fresh e (.credit note) ↔ e.val.arg ≠ note.arg := by
  cases e <;> exact Iff.rfl

theorem fresh_debit (e : Entry Note) (note : Note) : Fresh e (.debit note) := trivial

theorem pairwise_zipIdx {α : Type} (l : List α) (i : ℕ) :
    (l.zipIdx i).Pairwise fun a b => a.2 < b.2 := by
  have h : ((l.zipIdx i).map Prod.snd).Pairwise (· < ·) := by
    rw [List.zipIdx_map_snd]
    exact List.pairwise_lt_range'
  exact List.pairwise_map.mp h

/-- Taken arguments come from before the command, brought ones from the command. -/
def EntryAt (k : ℕ) : Entry Note → Prop
  | .credit note => argCommand note.arg = some k
  | .debit note => RefersBelow k note.arg

theorem EntryAt.fresh {i k : ℕ} {e e' : Entry Note} (h : EntryAt i e) (h' : EntryAt k e')
    (hik : i < k) : Fresh e e' := by
  cases e' with
  | debit note => exact fresh_debit e note
  | credit note =>
    have hk : argCommand note.arg = some k := h'
    rw [fresh_credit]
    intro heq
    rw [← heq] at hk
    cases e with
    | debit taken =>
      have hlt := h k hk
      omega
    | credit brought =>
      have hi : argCommand brought.arg = some i := h
      rw [show (Entry.credit brought).val.arg = brought.arg from rfl, hi, Option.some.injEq] at hk
      omega

theorem argCommand_resultArg (n i j : ℕ) (hi : i < 2 ^ 16) :
    argCommand (ObjectData.resultArg n i j) = some i := by
  unfold ObjectData.resultArg
  split_ifs
  · exact congrArg some (asU16_val i hi)
  · exact congrArg some (asU16_val i hi)

theorem Note.taken_arg (tyArgs : TyArgs) (param : MoveAbiSignatureToken) (arg : SequenceArgument)
    (ty : MoveTypeTag) : (Note.taken tyArgs param arg ty).arg = arg := by
  cases arg <;> rfl

theorem Note.taken_ty (tyArgs : TyArgs) (param : MoveAbiSignatureToken) (arg : SequenceArgument)
    (ty : MoveTypeTag) : (Note.taken tyArgs param arg ty).ty = ty := by
  cases arg <;> rfl

theorem Note.brought_arg (st : FuzzState) (tyArgs : TyArgs) (ret : MoveAbiSignatureToken)
    (arg : SequenceArgument) (ty : MoveTypeTag) :
    (Note.brought st tyArgs ret arg ty).arg = arg := by
  cases ret <;> first | rfl | (cases ty <;> rfl)

theorem Note.brought_ty (st : FuzzState) (tyArgs : TyArgs) (ret : MoveAbiSignatureToken)
    (arg : SequenceArgument) (ty : MoveTypeTag) : (Note.brought st tyArgs ret arg ty).ty = ty := by
  cases ret <;> first | rfl | (cases ty <;> rfl)

theorem mem_takenEntries (tyArgs : TyArgs)
    (pairs : List (SequenceArgument × MoveAbiSignatureToken)) (e : Entry Note) :
    e ∈ takenEntries tyArgs pairs ↔ ∃ p ∈ pairs, ∃ ty, p.2.needsSample = true ∧
      isReference p.2 = false ∧ p.2.subst tyArgs = some ty ∧
        e = .debit (.taken tyArgs p.2 p.1 ty) := by
  rw [takenEntries, List.mem_filterMap]
  constructor
  · intro hall
    obtain ⟨p, hp, h⟩ := hall
    obtain ⟨note, hnote, rfl⟩ := Option.map_eq_some_iff.mp h
    unfold takenNote at hnote
    split_ifs at hnote with hskip
    obtain ⟨ty, hty, rfl⟩ := Option.map_eq_some_iff.mp hnote
    rw [Bool.or_eq_true, Bool.not_eq_true', not_or] at hskip
    exact ⟨p, hp, ty, Bool.not_eq_false _ ▸ hskip.1, Bool.not_eq_true _ ▸ hskip.2, hty, rfl⟩
  · intro hall
    obtain ⟨p, hp, ty, hsample, href, hty, rfl⟩ := hall
    refine ⟨p, hp, ?_⟩
    rw [takenNote, if_neg (by simp [hsample, href]), hty]
    rfl

theorem mem_broughtEntries (st : FuzzState) (n i : ℕ) (tyArgs : TyArgs)
    (returns : List (MoveAbiSignatureToken × ℕ)) (e : Entry Note) :
    e ∈ broughtEntries st n i tyArgs returns ↔ ∃ r ∈ returns, ∃ ty, r.1.subst tyArgs = some ty ∧
      e = .credit (.brought st tyArgs r.1 (ObjectData.resultArg n i r.2) ty) := by
  rw [broughtEntries, List.mem_filterMap]
  constructor
  · intro hall
    obtain ⟨r, hr, h⟩ := hall
    obtain ⟨note, hnote, rfl⟩ := Option.map_eq_some_iff.mp h
    obtain ⟨ty, hty, rfl⟩ := Option.map_eq_some_iff.mp hnote
    exact ⟨r, hr, ty, hty, rfl⟩
  · intro hall
    obtain ⟨r, hr, ty, hty, rfl⟩ := hall
    refine ⟨r, hr, ?_⟩
    rw [broughtNote, hty]
    rfl

theorem mem_callEntries (st : FuzzState) (k : ℕ) (cmd : MoveSequenceCall) (e : Entry Note) :
    e ∈ callEntries st k cmd ↔ ∃ call function, cmd = .call call ∧
      st.getCalled call = some function ∧
      (e ∈ takenEntries (tyArgsMap call.typeArguments) (call.arguments.zip function.parameters) ∨
        e ∈ broughtEntries st function.returnParamters.length k (tyArgsMap call.typeArguments)
          function.returnParamters.zipIdx) := by
  constructor
  · intro he
    cases cmd with
    | call call =>
      simp only [callEntries] at he
      cases hfunction : st.getCalled call with
      | none =>
        rw [hfunction] at he
        exact absurd he List.not_mem_nil
      | some function =>
        rw [hfunction] at he
        exact ⟨call, function, rfl, hfunction, List.mem_append.mp he⟩
    | _ => exact absurd he List.not_mem_nil
  · intro he
    obtain ⟨call, function, rfl, hfunction, he⟩ := he
    simp only [callEntries, hfunction]
    exact List.mem_append.mpr he

theorem callEntries_at (st : FuzzState) (k : ℕ) (hk : k < 2 ^ 16) (cmd : MoveSequenceCall)
    (hback : ∀ arg ∈ commandArgs cmd, RefersBelow k arg) :
    ∀ e ∈ callEntries st k cmd, EntryAt k e := by
  intro e he
  obtain ⟨call, function, rfl, -, he⟩ := (mem_callEntries _ _ _ _).mp he
  rw [mem_takenEntries, mem_broughtEntries] at he
  rcases he with ⟨p, hp, ty, -, -, -, rfl⟩ | ⟨r, hr, ty, -, rfl⟩
  · show RefersBelow k (Note.taken _ _ _ _).arg
    rw [Note.taken_arg]
    exact hback _ (List.of_mem_zip hp).1
  · show argCommand (Note.brought _ _ _ _ _).arg = some k
    rw [Note.brought_arg, argCommand_resultArg _ _ _ hk]

/-- In a call, what is brought comes behind what is taken and has names of its own. -/
theorem callEntries_fresh (st : FuzzState) (k : ℕ) (hk : k < 2 ^ 16) (cmd : MoveSequenceCall)
    (hback : ∀ arg ∈ commandArgs cmd, RefersBelow k arg)
    (hreturns : ∀ call function, cmd = .call call → st.getCalled call = some function →
      function.returnParamters.length ≤ 2 ^ 16) :
    (callEntries st k cmd).Pairwise Fresh := by
  have hat := callEntries_at st k hk cmd hback
  cases cmd with
  | call call =>
    simp only [callEntries] at hat ⊢
    cases hfunction : st.getCalled call with
    | none => exact List.Pairwise.nil
    | some function =>
      rw [hfunction] at hat
      have hn := hreturns call function rfl hfunction
      refine List.pairwise_append.mpr ⟨?_, ?_, ?_⟩
      · apply List.pairwise_of_forall_mem_list
        intro x hx y hy
        obtain ⟨p, -, ty, -, -, -, rfl⟩ := (mem_takenEntries _ _ y).mp hy
        exact fresh_debit x _
      · apply List.pairwise_filterMap.mpr
        apply (pairwise_zipIdx function.returnParamters 0).imp_of_mem
        intro a b ha hb hab x hx y hy
        obtain ⟨x', hx', rfl⟩ := Option.map_eq_some_iff.mp hx
        obtain ⟨y', hy', rfl⟩ := Option.map_eq_some_iff.mp hy
        obtain ⟨tx, -, rfl⟩ := Option.map_eq_some_iff.mp hx'
        obtain ⟨ty, -, rfl⟩ := Option.map_eq_some_iff.mp hy'
        rw [fresh_credit]
        show (Note.brought _ _ _ _ _).arg ≠ _
        rw [Note.brought_arg, Note.brought_arg]
        have hblt := (List.getElem?_eq_some_iff.mp (List.mem_zipIdx_iff_getElem?.mp hb)).1
        intro heq
        have hone : function.returnParamters.length ≠ 1 := by omega
        rw [ObjectData.resultArg, ObjectData.resultArg, if_neg hone, if_neg hone,
          SequenceArgument.nestedResult.injEq] at heq
        have hval := congrArg Fin.val heq.2
        rw [asU16_val a.2 (by omega), asU16_val b.2 (by omega)] at hval
        omega
      · intro x hx y hy
        obtain ⟨p, -, ty, -, -, -, rfl⟩ := (mem_takenEntries _ _ x).mp hx
        have hbelow := hat _ (List.mem_append_left _ hx)
        have hbrought := hat y (List.mem_append_right _ hy)
        obtain ⟨r, -, ty', -, rfl⟩ := (mem_broughtEntries _ _ _ _ _ y).mp hy
        rw [fresh_credit]
        intro heq
        have hlt := hbelow k (heq ▸ hbrought)
        omega
  | _ => exact List.Pairwise.nil

/-- Every result is named for the first time where it is brought. -/
theorem entriesFrom_fresh (st : FuzzState) (commands : List MoveSequenceCall)
    (hback : BackwardRefs commands) (hlen : commands.length ≤ 2 ^ 16)
    (hreturns : ∀ call function, .call call ∈ commands → st.getCalled call = some function →
      function.returnParamters.length ≤ 2 ^ 16) :
    (entriesFrom st 0 commands).Pairwise Fresh := by
  have hindex : ∀ e ∈ commands.zipIdx, commands[e.2]? = some e.1 ∧ e.2 < 2 ^ 16 := by
    intro e he
    have hget := List.mem_zipIdx_iff_getElem?.mp he
    have hlt := (List.getElem?_eq_some_iff.mp hget).1
    exact ⟨hget, by omega⟩
  have hat : ∀ e ∈ commands.zipIdx, ∀ x ∈ callEntries st e.2 e.1, EntryAt e.2 x := by
    intro e he
    obtain ⟨hget, hlt⟩ := hindex e he
    exact callEntries_at st e.2 hlt e.1 (hback e.2 e.1 hget)
  rw [entriesFrom, List.pairwise_flatMap]
  constructor
  · intro e he
    obtain ⟨hget, hlt⟩ := hindex e he
    apply callEntries_fresh st e.2 hlt e.1 (hback e.2 e.1 hget)
    intro call function hcall
    exact hreturns call function (hcall ▸ List.mem_of_getElem? hget)
  · apply (pairwise_zipIdx commands 0).imp_of_mem
    intro a b ha hb hab x hx y hy
    exact (hat a ha x hx).fresh (hat b hb y hy) hab

end Movy.Fuzz
