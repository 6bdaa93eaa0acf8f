import Movy.Fuzz.ObjectData

/-!
# What the object data lists

Every value of a sequence is listed at most once, under one type, and only
values that are there: object inputs, and results of commands before.
-/

namespace Movy.Fuzz

open Movy.Types Movy.Store

def Lists (objects : ExistingObjects) (ty : MoveTypeTag) (arg : SequenceArgument) : Prop :=
  ∃ args, objects.get? ty = some args ∧ arg ∈ args.map Prod.fst

structure ListsOnce (objects : ExistingObjects) : Prop where
  nodup : ∀ ty args, objects.get? ty = some args → (args.map Prod.fst).Nodup
  one_type : ∀ ty ty' arg, Lists objects ty arg → Lists objects ty' arg → ty = ty'

/-- An input below `inputs`, or a result before result `ret` of command `cmd`. -/
def Before (inputs cmd ret : ℕ) : SequenceArgument → Prop
  | .gasCoin => False
  | .input i => i.val < inputs
  | .result i => i.val < cmd ∨ (i.val = cmd ∧ 0 < ret)
  | .nestedResult i j => i.val < cmd ∨ (i.val = cmd ∧ j.val < ret)

theorem Before.mono {inputs cmd ret inputs' cmd' ret' : ℕ} {arg : SequenceArgument}
    (h : Before inputs cmd ret arg) (hin : inputs ≤ inputs')
    (hcmd : cmd < cmd' ∨ (cmd = cmd' ∧ ret ≤ ret')) : Before inputs' cmd' ret' arg := by
  cases arg with
  | gasCoin => exact h
  | input i =>
    have h' : i.val < inputs := h
    show i.val < inputs'
    omega
  | result i =>
    have h' : i.val < cmd ∨ (i.val = cmd ∧ 0 < ret) := h
    show i.val < cmd' ∨ (i.val = cmd' ∧ 0 < ret')
    omega
  | nestedResult i j =>
    have h' : i.val < cmd ∨ (i.val = cmd ∧ j.val < ret) := h
    show i.val < cmd' ∨ (i.val = cmd' ∧ j.val < ret')
    omega

/-! ### Changes of the lists -/

theorem lists_insert (objects : ExistingObjects) (ty ty' : MoveTypeTag)
    (args : List (SequenceArgument × Gate)) (arg : SequenceArgument) :
    Lists (objects.insert ty args) ty' arg ↔
      if ty' = ty then arg ∈ args.map Prod.fst else Lists objects ty' arg := by
  unfold Lists
  rw [IndexMap.get?_insert]
  split_ifs with h
  · constructor
    · intro hall
      obtain ⟨args', hargs', harg⟩ := hall
      rw [Option.some.inj hargs']
      exact harg
    · exact fun harg => ⟨args, rfl, harg⟩
  · exact Iff.rfl

theorem lists_pushObject (objects : ExistingObjects) (ty ty' : MoveTypeTag)
    (arg arg' : SequenceArgument) (gate : Gate) :
    Lists (ObjectData.pushObject objects ty arg gate) ty' arg' ↔
      (ty' = ty ∧ arg' = arg) ∨ Lists objects ty' arg' := by
  unfold ObjectData.pushObject
  rw [lists_insert]
  split_ifs with h
  · subst h
    rw [List.map_append, List.mem_append, List.map_singleton, List.mem_singleton, or_comm]
    have hgetD : arg' ∈ ((objects.get? ty').getD []).map Prod.fst ↔ Lists objects ty' arg' := by
      unfold Lists
      cases objects.get? ty' <;> simp
    rw [hgetD]
    simp
  · simp [h]

/-- Nothing is added to the lists. -/
def Narrows (objects' objects : ExistingObjects) : Prop :=
  ∀ ty args', objects'.get? ty = some args' → ∃ args, objects.get? ty = some args ∧
    List.Sublist args' args

theorem Narrows.refl (objects : ExistingObjects) : Narrows objects objects :=
  fun _ args h => ⟨args, h, List.Sublist.refl args⟩

theorem Narrows.trans {a b c : ExistingObjects} (hab : Narrows a b) (hbc : Narrows b c) :
    Narrows a c := by
  intro ty args h
  obtain ⟨args', h', hsub⟩ := hab ty args h
  obtain ⟨args'', h'', hsub'⟩ := hbc ty args' h'
  exact ⟨args'', h'', hsub.trans hsub'⟩

theorem Narrows.lists {objects' objects : ExistingObjects} (h : Narrows objects' objects)
    {ty : MoveTypeTag} {arg : SequenceArgument} (hl : Lists objects' ty arg) :
    Lists objects ty arg := by
  obtain ⟨args', hargs', harg⟩ := hl
  obtain ⟨args, hargs, hsub⟩ := h ty args' hargs'
  exact ⟨args, hargs, (hsub.map Prod.fst).subset harg⟩

theorem ListsOnce.narrows {objects' objects : ExistingObjects} (h : ListsOnce objects)
    (hn : Narrows objects' objects) : ListsOnce objects' where
  nodup := by
    intro ty args' hargs'
    obtain ⟨args, hargs, hsub⟩ := hn ty args' hargs'
    exact (h.nodup ty args hargs).sublist (hsub.map Prod.fst)
  one_type := fun ty ty' arg hl hl' => h.one_type ty ty' arg (hn.lists hl) (hn.lists hl')

theorem narrows_insert (objects : ExistingObjects) (ty : MoveTypeTag)
    (args args' : List (SequenceArgument × Gate)) (hargs : objects.get? ty = some args)
    (hsub : List.Sublist args' args) : Narrows (objects.insert ty args') objects := by
  intro ty' l hl
  rw [IndexMap.get?_insert] at hl
  split_ifs at hl with h
  · subst h
    rw [← Option.some.inj hl]
    exact ⟨args, hargs, hsub⟩
  · exact ⟨l, hl, List.Sublist.refl l⟩

theorem narrows_erase (objects : ExistingObjects) (ty : MoveTypeTag) :
    Narrows (objects.erase ty) objects := by
  intro ty' l hl
  rw [IndexMap.get?_erase] at hl
  split_ifs at hl
  exact ⟨l, hl, List.Sublist.refl l⟩

theorem ListsOnce.pushObject {objects : ExistingObjects} (h : ListsOnce objects)
    (ty : MoveTypeTag) (arg : SequenceArgument) (gate : Gate)
    (hnew : ∀ ty', ¬ Lists objects ty' arg) :
    ListsOnce (ObjectData.pushObject objects ty arg gate) where
  nodup := by
    intro ty' args hargs
    unfold ObjectData.pushObject at hargs
    rw [IndexMap.get?_insert] at hargs
    split_ifs at hargs with hty
    · rw [← Option.some.inj hargs, List.map_append, List.map_singleton, List.nodup_append]
      refine ⟨?_, List.nodup_singleton _, ?_⟩
      · cases hget : objects.get? ty with
        | none => exact List.nodup_nil
        | some old => exact h.nodup ty old hget
      · intro a ha b hb hab
        rw [List.mem_singleton.mp hb] at hab
        subst hab
        cases hget : objects.get? ty with
        | none => simp [hget] at ha
        | some old =>
          rw [hget, Option.getD_some] at ha
          exact hnew ty ⟨old, hget, ha⟩
    · exact h.nodup ty' args hargs
  one_type := by
    intro ty' ty'' arg' hl hl'
    rw [lists_pushObject] at hl hl'
    rcases hl with ⟨rfl, rfl⟩ | hl
    · rcases hl' with ⟨rfl, _⟩ | hl'
      · rfl
      · exact absurd hl' (hnew ty'')
    · rcases hl' with ⟨rfl, rfl⟩ | hl'
      · exact absurd hl (hnew ty')
      · exact h.one_type ty' ty'' arg' hl hl'

/-! ### `from_ptb` -/

/-- The invariant of the loops of `from_ptb`. -/
structure ListsBefore (objects : ExistingObjects) (inputs cmd ret : ℕ) : Prop where
  once : ListsOnce objects
  before : ∀ ty arg, Lists objects ty arg → Before inputs cmd ret arg

namespace ListsBefore

variable {objects : ExistingObjects} {inputs cmd ret : ℕ}

theorem mono (h : ListsBefore objects inputs cmd ret) {inputs' cmd' ret' : ℕ}
    (hin : inputs ≤ inputs') (hcmd : cmd < cmd' ∨ (cmd = cmd' ∧ ret ≤ ret')) :
    ListsBefore objects inputs' cmd' ret' :=
  ⟨h.once, fun ty arg hl => (h.before ty arg hl).mono hin hcmd⟩

theorem narrows (h : ListsBefore objects inputs cmd ret) {objects' : ExistingObjects}
    (hn : Narrows objects' objects) : ListsBefore objects' inputs cmd ret :=
  ⟨h.once.narrows hn, fun ty arg hl => h.before ty arg (hn.lists hl)⟩

/-- A value that is next in order. -/
theorem push (h : ListsBefore objects inputs cmd ret) {inputs' cmd' ret' : ℕ}
    (hin : inputs ≤ inputs') (hcmd : cmd < cmd' ∨ (cmd = cmd' ∧ ret ≤ ret')) (ty : MoveTypeTag)
    (arg : SequenceArgument) (gate : Gate) (hnew : ¬ Before inputs cmd ret arg)
    (hnext : Before inputs' cmd' ret' arg) :
    ListsBefore (ObjectData.pushObject objects ty arg gate) inputs' cmd' ret' := by
  refine ⟨h.once.pushObject ty arg gate fun ty' hl => hnew (h.before ty' arg hl), ?_⟩
  intro ty' arg' hl
  rcases (lists_pushObject objects ty ty' arg arg' gate).mp hl with ⟨_, rfl⟩ | hl
  · exact hnext
  · exact (h.before ty' arg' hl).mono hin hcmd

end ListsBefore

theorem addInputs_lists (st : FuzzState) (self data : ObjectData) (i : ℕ)
    (inputs : List InputArgument) (hlen : i + inputs.length ≤ 2 ^ 16)
    (h : ListsBefore self.existingObjects i 0 0)
    (hrun : ObjectData.addInputs st self i inputs = some data) :
    ListsBefore data.existingObjects (i + inputs.length) 0 0 ∧
      (∀ id ∈ self.usedObjectIds, id ∈ data.usedObjectIds) ∧
      ∀ (k : ℕ) ty obj id, inputs[k]? = some (.object ty obj) → ObjectData.objectId obj = some id →
        id ∈ data.usedObjectIds := by
  induction inputs generalizing self i with
  | nil =>
    obtain rfl := Option.some.inj hrun
    exact ⟨h, fun id hid => hid, fun k ty obj id hk => by simp at hk⟩
  | cons input rest ih =>
    rw [List.length_cons] at hlen
    have hassoc : i + (input :: rest).length = i + 1 + rest.length := by
      rw [List.length_cons]
      omega
    rw [hassoc]
    have hskip : (∀ ty obj, input ≠ .object ty obj) →
        ObjectData.addInputs st self (i + 1) rest = some data →
        ListsBefore data.existingObjects (i + 1 + rest.length) 0 0 ∧
          (∀ id ∈ self.usedObjectIds, id ∈ data.usedObjectIds) ∧
          ∀ (k : ℕ) ty obj id, (input :: rest)[k]? = some (.object ty obj) →
            ObjectData.objectId obj = some id → id ∈ data.usedObjectIds := by
      intro hpure hrun
      obtain ⟨hlists, hused, hids⟩ := ih self (i + 1) (by omega)
        (h.mono (by omega) (.inr ⟨rfl, Nat.le_refl _⟩)) hrun
      refine ⟨hlists, hused, ?_⟩
      intro k ty obj id hk hid
      cases k with
      | zero =>
        rw [List.getElem?_cons_zero, Option.some.injEq] at hk
        exact absurd hk (hpure ty obj)
      | succ k => exact hids k ty obj id hk hid
    cases input with
    | object ty obj =>
      obtain ⟨objId, hobjId, hrun⟩ := Option.bind_eq_some_iff.mp hrun
      obtain ⟨object, _, hrun⟩ := Option.bind_eq_some_iff.mp hrun
      obtain ⟨gate, _, hrun⟩ := Option.bind_eq_some_iff.mp hrun
      have hval := asU16_val i (by omega)
      have hnew : ¬ Before i 0 0 (.input (asU16 i)) := by
        show ¬ (asU16 i).val < i
        omega
      have hnext : Before (i + 1) 0 0 (.input (asU16 i)) := by
        show (asU16 i).val < i + 1
        omega
      have hpush := h.push (Nat.le_succ i) (.inr ⟨rfl, Nat.le_refl 0⟩) object.ty
        (.input (asU16 i)) gate hnew hnext
      obtain ⟨hlists, hused, hids⟩ := ih _ (i + 1) (by omega) hpush hrun
      refine ⟨hlists, fun id hid => hused id (List.mem_append_left _ hid), ?_⟩
      intro k ty' obj' id hk hid
      cases k with
      | zero =>
        rw [List.getElem?_cons_zero, Option.some.injEq, InputArgument.object.injEq] at hk
        obtain ⟨_, rfl⟩ := hk
        obtain rfl := Option.some.inj (hobjId.symm.trans hid)
        exact hused _ (List.mem_append_right _ (List.mem_singleton_self _))
      | succ k => exact hids k ty' obj' id hk hid
    | _ => exact hskip (fun _ _ h => by cases h) hrun

/-- An argument of a call takes away and adds nothing. -/
theorem takeArg_narrows (self next : ObjectData) (tyArgs : MoveAbiSignatureToken.TyArgs)
    (arg : SequenceArgument) (param : MoveAbiSignatureToken)
    (h : ObjectData.takeArg self tyArgs arg param = some next) :
    Narrows next.existingObjects self.existingObjects ∧
      next.usedObjectIds = self.usedObjectIds := by
  unfold ObjectData.takeArg at h
  by_cases hsample : (!param.needsSample) = true
  · rw [if_pos hsample, Option.some.injEq] at h
    subst h
    exact ⟨Narrows.refl _, rfl⟩
  rw [if_neg hsample] at h
  by_cases href : isReference param = true
  · rw [if_pos href, Option.some.injEq] at h
    subst h
    exact ⟨Narrows.refl _, rfl⟩
  rw [if_neg href] at h
  obtain ⟨instantiated, _, h⟩ := Option.bind_eq_some_iff.mp h
  obtain ⟨candidates, hcandidates, h⟩ := Option.bind_eq_some_iff.mp h
  have hnarrows : Narrows
      (if (candidates.filter fun e => decide (e.1 ≠ arg)).isEmpty then
        self.existingObjects.erase instantiated
      else self.existingObjects.insert instantiated (candidates.filter fun e => decide (e.1 ≠ arg)))
      self.existingObjects := by
    split_ifs
    · exact narrows_erase _ _
    · exact narrows_insert _ _ candidates _ hcandidates List.filter_sublist
  dsimp only at h
  generalize (if (candidates.filter fun e => decide (e.1 ≠ arg)).isEmpty then
      self.existingObjects.erase instantiated
    else self.existingObjects.insert instantiated (candidates.filter fun e => decide (e.1 ≠ arg))) =
      objects at h hnarrows
  -- the other fields do not matter here
  have hkeeps : next.existingObjects = objects ∧ next.usedObjectIds = self.usedObjectIds := by
    cases arg with
    | input i =>
      rw [← Option.some.inj h]
      exact ⟨rfl, rfl⟩
    | gasCoin | result i | nestedResult i j =>
      dsimp only at h
      split_ifs at h <;>
      · rw [← Option.some.inj h]
        exact ⟨rfl, rfl⟩
  rw [hkeeps.1]
  exact ⟨hnarrows, hkeeps.2⟩

theorem takeArgs_narrows (self next : ObjectData) (tyArgs : MoveAbiSignatureToken.TyArgs)
    (pairs : List (SequenceArgument × MoveAbiSignatureToken))
    (h : ObjectData.takeArgs self tyArgs pairs = some next) :
    Narrows next.existingObjects self.existingObjects ∧
      next.usedObjectIds = self.usedObjectIds := by
  induction pairs generalizing self with
  | nil =>
    rw [← Option.some.inj h]
    exact ⟨Narrows.refl _, rfl⟩
  | cons e rest ih =>
    obtain ⟨mid, hmid, h⟩ := Option.bind_eq_some_iff.mp h
    obtain ⟨hnarrows, hused⟩ := takeArg_narrows self mid tyArgs e.1 e.2 hmid
    obtain ⟨hrest, husedRest⟩ := ih mid h
    exact ⟨hrest.trans hnarrows, husedRest.trans hused⟩

/-- A result is listed, or it is not a struct. -/
theorem addReturn_lists (st : FuzzState) (self next : ObjectData)
    (tyArgs : MoveAbiSignatureToken.TyArgs) (retTy : MoveAbiSignatureToken) (inputs n i j : ℕ)
    (hi : i < 2 ^ 16) (hj : j < n) (hn : n ≤ 2 ^ 16)
    (h : ListsBefore self.existingObjects inputs i j)
    (hrun : ObjectData.addReturn st self tyArgs retTy (ObjectData.resultArg n i j) = some next) :
    ListsBefore next.existingObjects inputs i (j + 1) ∧
      next.usedObjectIds = self.usedObjectIds := by
  have hmono := h.mono (Nat.le_refl inputs) (.inr ⟨rfl, Nat.le_succ j⟩)
  have hival := asU16_val i hi
  have hjval := asU16_val j (by omega)
  have hnew : ¬ Before inputs i j (ObjectData.resultArg n i j) ∧
      Before inputs i (j + 1) (ObjectData.resultArg n i j) := by
    unfold ObjectData.resultArg
    split_ifs with hone
    · show ¬ (_ < i ∨ (_ = i ∧ 0 < j)) ∧ (_ < i ∨ (_ = i ∧ 0 < j + 1))
      omega
    · show ¬ (_ < i ∨ (_ = i ∧ _ < j)) ∧ (_ < i ∨ (_ = i ∧ _ < j + 1))
      omega
  obtain ⟨instantiated, _, hrun⟩ := Option.bind_eq_some_iff.mp hrun
  have hpush := h.push (Nat.le_refl inputs) (.inr ⟨rfl, Nat.le_succ j⟩) instantiated
    (ObjectData.resultArg n i j) .owned hnew.1 hnew.2
  cases retTy with
  | vector inner =>
    obtain ⟨hot, _, hrun⟩ := Option.bind_eq_some_iff.mp hrun
    rw [← Option.some.inj hrun]
    split_ifs <;> exact ⟨hmono, rfl⟩
  | _ =>
    cases instantiated with
    | struct a m s tys =>
      rw [← Option.some.inj hrun]
      exact ⟨hpush, rfl⟩
    | _ =>
      rw [← Option.some.inj hrun]
      exact ⟨hmono, rfl⟩

theorem addReturns_lists (st : FuzzState) (self next : ObjectData)
    (tyArgs : MoveAbiSignatureToken.TyArgs) (retTys : List MoveAbiSignatureToken)
    (inputs n i j : ℕ) (hi : i < 2 ^ 16) (hj : j + retTys.length = n) (hn : n ≤ 2 ^ 16)
    (h : ListsBefore self.existingObjects inputs i j)
    (hrun : ObjectData.addReturns st n i tyArgs self j retTys = some next) :
    ListsBefore next.existingObjects inputs i n ∧ next.usedObjectIds = self.usedObjectIds := by
  induction retTys generalizing self j with
  | nil =>
    rw [← Option.some.inj hrun]
    rw [List.length_nil, Nat.add_zero] at hj
    exact ⟨hj ▸ h, rfl⟩
  | cons retTy rest ih =>
    rw [List.length_cons] at hj
    obtain ⟨mid, hmid, hrun⟩ := Option.bind_eq_some_iff.mp hrun
    obtain ⟨hlists, hused⟩ := addReturn_lists st self mid tyArgs retTy inputs n i j hi (by omega) hn
      h hmid
    obtain ⟨hrest, husedRest⟩ := ih mid (j + 1) (by omega) hlists hrun
    exact ⟨hrest, husedRest.trans hused⟩

/-- Nothing returns more values than can be numbered. -/
def ReturnsFit (st : FuzzState) : Prop :=
  ∀ address module name function, st.getFunction address module name = some function →
    function.returnParamters.length ≤ 2 ^ 16

theorem returnsFit_of_abis (st : FuzzState)
    (h : ∀ address pkg, st.abis address = some pkg → ∀ m ∈ pkg.modules, ∀ f ∈ m.functions,
      f.returnParamters.length ≤ 2 ^ 16) : ReturnsFit st := by
  intro address module name function hfunction
  obtain ⟨m, hm, hfind⟩ := Option.bind_eq_some_iff.mp hfunction
  obtain ⟨pkg, hpkg, hm⟩ := Option.bind_eq_some_iff.mp hm
  exact h _ pkg hpkg m (List.mem_of_find?_eq_some hm) function (List.mem_of_find?_eq_some hfind)

theorem addCommands_lists (st : FuzzState) (hst : ReturnsFit st) (self data : ObjectData)
    (inputs i : ℕ) (commands : List MoveSequenceCall) (hlen : i + commands.length ≤ 2 ^ 16)
    (h : ListsBefore self.existingObjects inputs i 0)
    (hrun : ObjectData.addCommands st self i commands = some data) :
    ListsBefore data.existingObjects inputs (i + commands.length) 0 ∧
      data.usedObjectIds = self.usedObjectIds := by
  induction commands generalizing self i with
  | nil =>
    rw [← Option.some.inj hrun]
    exact ⟨h, rfl⟩
  | cons command rest ih =>
    rw [List.length_cons] at hlen
    have hassoc : i + (command :: rest).length = i + 1 + rest.length := by
      rw [List.length_cons]
      omega
    rw [hassoc]
    cases command with
    | call call =>
      obtain ⟨function, hfunction, hrun⟩ := Option.bind_eq_some_iff.mp hrun
      obtain ⟨taken, htaken, hrun⟩ := Option.bind_eq_some_iff.mp hrun
      obtain ⟨next, hnext, hrun⟩ := Option.bind_eq_some_iff.mp hrun
      obtain ⟨hnarrows, husedTaken⟩ := takeArgs_narrows self taken _ _ htaken
      obtain ⟨hreturned, husedNext⟩ := addReturns_lists st taken next _ _ inputs _ i 0 (by omega)
        (Nat.zero_add _) (hst _ _ _ _ hfunction) (h.narrows hnarrows) hnext
      obtain ⟨hlists, hused⟩ := ih next (i + 1) (by omega)
        (hreturned.mono (Nat.le_refl inputs) (.inl (Nat.lt_succ_self i))) hrun
      exact ⟨hlists, hused.trans (husedNext.trans husedTaken)⟩
    | _ =>
      exact ih self (i + 1) (by omega)
        (h.mono (Nat.le_refl inputs) (.inl (Nat.lt_succ_self i))) hrun

theorem narrows_removeUsed (self : ObjectData) (arg : SequenceArgument) :
    Narrows (self.removeUsed arg).existingObjects self.existingObjects := by
  intro ty args' h
  simp only [ObjectData.removeUsed, IndexMap.get?_filter, IndexMap.get?_mapValues] at h
  have hmap := (Option.filter_eq_some_iff.mp h).1
  obtain ⟨args, hargs, rfl⟩ := Option.map_eq_some_iff.mp hmap
  exact ⟨args, hargs, List.filter_sublist⟩

theorem foldl_removeUsed (self : ObjectData) (used : List SequenceArgument) :
    Narrows (used.foldl ObjectData.removeUsed self).existingObjects self.existingObjects ∧
      (used.foldl ObjectData.removeUsed self).usedObjectIds = self.usedObjectIds := by
  induction used generalizing self with
  | nil => exact ⟨Narrows.refl _, rfl⟩
  | cons arg rest ih =>
    obtain ⟨hnarrows, hused⟩ := ih (self.removeUsed arg)
    exact ⟨hnarrows.trans (narrows_removeUsed self arg), hused⟩

/-- What is known of the objects of a sequence. -/
structure ObjectsOf (ptb : MoveSequence) (data : ObjectData) : Prop where
  lists : ListsBefore data.existingObjects ptb.inputs.length ptb.commands.length 0
  used : (∀ ty, data.existingObjects.get? ty = none) ∨
    ∀ (i : ℕ) ty obj id, ptb.inputs[i]? = some (.object ty obj) →
      ObjectData.objectId obj = some id → id ∈ data.usedObjectIds

theorem fromPtb_objectsOf (st : FuzzState) (hst : ReturnsFit st) (ptb : MoveSequence)
    (data : ObjectData) (hinputs : ptb.inputs.length ≤ 2 ^ 16)
    (hcommands : ptb.commands.length ≤ 2 ^ 16) (h : ObjectData.fromPtb st ptb = some data) :
    ObjectsOf ptb data := by
  have hnone : ∀ ty, ObjectData.new.existingObjects.get? ty = none := fun ty => rfl
  have hempty : ∀ inputs cmd, ListsBefore ObjectData.new.existingObjects inputs cmd 0 := by
    intro inputs cmd
    have hno : ∀ ty arg, ¬ Lists ObjectData.new.existingObjects ty arg := by
      rintro ty arg ⟨args, hargs, _⟩
      cases hargs
    exact ⟨⟨fun ty args h => (by cases h), fun ty _ arg hl => absurd hl (hno ty arg)⟩,
      fun ty arg hl => absurd hl (hno ty arg)⟩
  unfold ObjectData.fromPtb at h
  split_ifs at h
  · rw [← Option.some.inj h]
    exact ⟨hempty _ _, .inl hnone⟩
  · obtain ⟨mid, hmid, h⟩ := Option.bind_eq_some_iff.mp h
    obtain ⟨hmidLists, _, hids⟩ := addInputs_lists st { ObjectData.new with
      usedObjectIds := [st.gasId] } mid 0 ptb.inputs (by omega) (hempty 0 0) hmid
    rw [Nat.zero_add] at hmidLists
    obtain ⟨hlists, hused⟩ := addCommands_lists st hst mid data ptb.inputs.length 0 ptb.commands
      (by omega) hmidLists h
    rw [Nat.zero_add] at hlists
    refine ⟨hlists, .inr ?_⟩
    rw [hused]
    exact hids

theorem fromPtbAndRemoveUsed_objectsOf (st : FuzzState) (hst : ReturnsFit st) (ptb : MoveSequence)
    (data : ObjectData) (used : List SequenceArgument) (hinputs : ptb.inputs.length ≤ 2 ^ 16)
    (hcommands : ptb.commands.length ≤ 2 ^ 16)
    (h : ObjectData.fromPtbAndRemoveUsed st ptb used = some data) : ObjectsOf ptb data := by
  obtain ⟨all, hall, rfl⟩ := Option.map_eq_some_iff.mp h
  obtain ⟨hlists, hids⟩ := fromPtb_objectsOf st hst ptb all hinputs hcommands hall
  obtain ⟨hnarrows, hused⟩ := foldl_removeUsed all used
  refine ⟨hlists.narrows hnarrows, ?_⟩
  rcases hids with hnone | hids
  · left
    intro ty
    cases hget : (used.foldl ObjectData.removeUsed all).existingObjects.get? ty with
    | none => rfl
    | some args =>
      obtain ⟨_, hargs, _⟩ := hnarrows ty args hget
      rw [hnone ty] at hargs
      cases hargs
  · right
    rw [hused]
    exact hids

end Movy.Fuzz
