import Movy.Fuzz.Embed

/-!
# How a call is finished

While the arguments of a call are put together, new inputs are numbered as if
they followed the inputs at the start. Producers may have added inputs in the
meantime, so the numbers are corrected at the end, and objects that a producer
has brought in as well are shared with it. Then coins and balances are split.
-/

namespace Movy.Fuzz

open Movy.Types Movy.Store MoveAbiSignatureToken

section

variable (ptbInputs inputs : List InputArgument) (inputLen : ℕ)

def sharedPos : SequenceArgument → Option ℕ
  | .input idx =>
    if idx.val < inputLen then none
    else (inputs[idx.val - inputLen]?).bind fun input =>
      ptbInputs.findIdx? fun x => sameObject x input
  | _ => none

def reused (arg : SequenceArgument) : SequenceArgument :=
  match sharedPos ptbInputs inputs inputLen arg with
  | some pos => .input (asU16 pos)
  | none => arg

def renumber (removed : List ℕ) (arg : SequenceArgument) : SequenceArgument :=
  match arg with
  | .input idx =>
    if idx.val < inputLen then .input idx
    else match sharedPos ptbInputs inputs inputLen (.input idx) with
      | some pos => .input (asU16 pos)
      | none => .input (asU16 (ptbInputs.length +
          (idx.val - inputLen - removedBefore removed (idx.val - inputLen))))
  | arg => arg

def sharedIdxs (i : ℕ) (arguments : List SequenceArgument) : List ℕ :=
  ((arguments.zipIdx i).filter fun e => (sharedPos ptbInputs inputs inputLen e.1).isSome).map
    Prod.snd

/- The new input that a shared argument leaves behind. -/
def leftBehind : SequenceArgument → Option ℕ
  | .input idx => (sharedPos ptbInputs inputs inputLen (.input idx)).map fun _ =>
      idx.val - inputLen
  | _ => none

theorem sameObject_eq (v w : InputArgument) (h : sameObject v w = true) : v = w := by
  cases v with
  | object ty obj =>
    cases w with
    | object ty' obj' =>
      simp only [sameObject, Bool.and_eq_true, decide_eq_true_eq] at h
      rw [h.1, h.2]
    | _ => cases h
  | _ => cases w <;> cases h

theorem not_removed_of_unshared (arguments : List SequenceArgument) (idx : U16)
    (hnew : ¬ idx.val < inputLen)
    (hshared : sharedPos ptbInputs inputs inputLen (.input idx) = none) :
    idx.val - inputLen ∉ arguments.filterMap (leftBehind ptbInputs inputs inputLen) := by
  intro hmem
  obtain ⟨arg, _, hleft⟩ := List.mem_filterMap.mp hmem
  cases arg with
  | input idx' =>
    obtain ⟨pos, hpos, hidx⟩ := Option.map_eq_some_iff.mp hleft
    have hnew' : ¬ idx'.val < inputLen := by
      intro hlt
      simp [sharedPos, hlt] at hpos
    obtain rfl : idx' = idx := Fin.ext (by omega)
    rw [hpos] at hshared
    cases hshared
  | _ => cases hleft

/-! ### The first loop -/

/- Everything that one step of the loop can do. -/
theorem reuseInputs_cons (r r' : Reindexed) (i : ℕ) (arg : SequenceArgument)
    (param : MoveAbiSignatureToken) (rest : List (SequenceArgument × MoveAbiSignatureToken))
    (h : reuseInputs ptbInputs inputs inputLen r i ((arg, param) :: rest) = some (some r')) :
    (sharedPos ptbInputs inputs inputLen arg = none ∧
      reuseInputs ptbInputs inputs inputLen { r with arguments := r.arguments ++ [arg] } (i + 1)
        rest = some (some r')) ∨
    ∃ idx pos, arg = .input idx ∧ sharedPos ptbInputs inputs inputLen arg = some pos ∧
      isReference param ∧
      reuseInputs ptbInputs inputs inputLen ⟨r.arguments ++ [.input (asU16 pos)],
        r.fixedIdxs ++ [i], r.removeIdxs ++ [idx.val - inputLen]⟩ (i + 1) rest =
          some (some r') := by
  cases arg with
  | gasCoin => exact .inl ⟨rfl, h⟩
  | result j => exact .inl ⟨rfl, h⟩
  | nestedResult j n => exact .inl ⟨rfl, h⟩
  | input idx =>
    simp only [reuseInputs] at h
    by_cases hold : idx.val < inputLen
    · rw [if_pos hold] at h
      left
      simp only [sharedPos, hold, if_true]
      exact ⟨trivial, h⟩
    · rw [if_neg hold] at h
      obtain ⟨input, hinput, h⟩ := Option.bind_eq_some_iff.mp h
      have hshared : sharedPos ptbInputs inputs inputLen (.input idx) =
          ptbInputs.findIdx? fun x => sameObject x input := by
        simp only [sharedPos, hold, if_false, hinput, Option.bind_some]
      cases hpos : ptbInputs.findIdx? fun x => sameObject x input with
      | none =>
        rw [hpos] at h
        exact .inl ⟨hshared.trans hpos, h⟩
      | some pos =>
        rw [hpos] at h
        by_cases href : isReference param
        · simp only [href, if_true] at h
          exact .inr ⟨idx, pos, rfl, hshared.trans hpos, href, h⟩
        · simp [href] at h

theorem reuseInputs_spec (r r' : Reindexed) (i : ℕ)
    (pairs : List (SequenceArgument × MoveAbiSignatureToken))
    (h : reuseInputs ptbInputs inputs inputLen r i pairs = some (some r')) :
    r' = ⟨r.arguments ++ (pairs.map Prod.fst).map (reused ptbInputs inputs inputLen),
      r.fixedIdxs ++ sharedIdxs ptbInputs inputs inputLen i (pairs.map Prod.fst),
      r.removeIdxs ++ (pairs.map Prod.fst).filterMap (leftBehind ptbInputs inputs inputLen)⟩ ∧
    ∀ e ∈ pairs, (sharedPos ptbInputs inputs inputLen e.1).isSome → isReference e.2 := by
  induction pairs generalizing r i with
  | nil =>
    simp only [reuseInputs, Option.some.injEq] at h
    subst h
    simp [sharedIdxs]
  | cons e rest ih =>
    obtain ⟨arg, param⟩ := e
    rcases reuseInputs_cons ptbInputs inputs inputLen r r' i arg param rest h with
      ⟨hnone, h⟩ | ⟨idx, pos, rfl, hsome, href, h⟩
    · obtain ⟨hr', hrefs⟩ := ih _ _ h
      have hleft : leftBehind ptbInputs inputs inputLen arg = none := by
        cases arg with
        | input idx => simp only [leftBehind, hnone, Option.map_none]
        | _ => rfl
      refine ⟨?_, ?_⟩
      · rw [hr']
        simp [reused, hnone, sharedIdxs, hleft]
      · intro e he hs
        rcases List.mem_cons.mp he with rfl | he
        · simp [hnone] at hs
        · exact hrefs e he hs
    · obtain ⟨hr', hrefs⟩ := ih _ _ h
      refine ⟨?_, ?_⟩
      · rw [hr']
        simp [reused, hsome, sharedIdxs, leftBehind]
      · intro e he hs
        rcases List.mem_cons.mp he with rfl | he
        · exact href
        · exact hrefs e he hs

/- Every new input that is numbered is there. -/
theorem reuseInputs_range (r r' : Reindexed) (i : ℕ)
    (pairs : List (SequenceArgument × MoveAbiSignatureToken))
    (h : reuseInputs ptbInputs inputs inputLen r i pairs = some (some r')) (idx : U16)
    (param : MoveAbiSignatureToken) (hmem : (.input idx, param) ∈ pairs)
    (hnew : ¬ idx.val < inputLen) : idx.val - inputLen < inputs.length := by
  induction pairs generalizing r i with
  | nil => cases hmem
  | cons e rest ih =>
    obtain ⟨arg, param'⟩ := e
    rcases List.mem_cons.mp hmem with heq | hmem
    · obtain ⟨rfl, rfl⟩ := Prod.mk.inj heq
      simp only [reuseInputs, hnew, if_false] at h
      obtain ⟨input, hinput, _⟩ := Option.bind_eq_some_iff.mp h
      exact (List.getElem?_eq_some_iff.mp hinput).1
    · rcases reuseInputs_cons ptbInputs inputs inputLen r r' i arg param' rest h with
        ⟨_, h⟩ | ⟨_, _, _, _, _, h⟩
      · exact ih _ _ h hmem
      · exact ih _ _ h hmem

/-! ### Both loops -/

theorem mem_sharedIdxs (arguments : List SequenceArgument) (k : ℕ) (arg : SequenceArgument)
    (hk : arguments[k]? = some arg) :
    k ∈ sharedIdxs ptbInputs inputs inputLen 0 arguments ↔
      (sharedPos ptbInputs inputs inputLen arg).isSome := by
  simp only [sharedIdxs, List.mem_map, List.mem_filter, Prod.exists,
    exists_eq_right, List.mem_zipIdx_iff_getElem?]
  constructor
  · intro h
    obtain ⟨a, ha, hs⟩ := h
    rw [hk] at ha
    rw [Option.some.inj ha]
    exact hs
  · intro hs
    exact ⟨arg, hk, hs⟩

theorem shiftInput_reused (arguments : List SequenceArgument) (removed : List ℕ) (k : ℕ)
    (arg : SequenceArgument) (hk : arguments[k]? = some arg) (hgrown : inputLen ≤ ptbInputs.length) :
    shiftInput (ptbInputs.length - inputLen) inputLen
      (sharedIdxs ptbInputs inputs inputLen 0 arguments) removed
      (reused ptbInputs inputs inputLen arg, k) =
        renumber ptbInputs inputs inputLen removed arg := by
  have hmem := mem_sharedIdxs ptbInputs inputs inputLen arguments k arg hk
  cases arg with
  | input idx =>
    by_cases hold : idx.val < inputLen
    · have hnone : sharedPos ptbInputs inputs inputLen (.input idx) = none := by
        simp only [sharedPos, hold, if_true]
      simp [reused, renumber, shiftInput, hnone, hold]
    · cases hpos : sharedPos ptbInputs inputs inputLen (.input idx) with
      | none =>
        have hnot : k ∉ sharedIdxs ptbInputs inputs inputLen 0 arguments := by
          rw [hmem, hpos]
          decide
        have hadjust := removedBefore_le removed (idx.val - inputLen)
        have hsum : idx.val - removedBefore removed (idx.val - inputLen) +
            (ptbInputs.length - inputLen) = ptbInputs.length +
              (idx.val - inputLen - removedBefore removed (idx.val - inputLen)) := by omega
        simp only [reused, renumber, shiftInput, hpos, hnot, hold, if_false, hsum]
      | some pos =>
        have hin : k ∈ sharedIdxs ptbInputs inputs inputLen 0 arguments := by
          rw [hmem, hpos]
          rfl
        simp only [reused, renumber, shiftInput, hpos, hin, hold, if_false, if_true]
  | _ => rfl

theorem reindex_spec (arguments : List SequenceArgument)
    (parameters : List MoveAbiSignatureToken) (args' : List SequenceArgument)
    (inputs' : List InputArgument) (hlen : arguments.length ≤ parameters.length)
    (hgrown : inputLen ≤ ptbInputs.length)
    (h : reindex ptbInputs inputs inputLen arguments parameters = some (some (args', inputs'))) :
    ∃ removed, removed = arguments.filterMap (leftBehind ptbInputs inputs inputLen) ∧
      args' = arguments.map (renumber ptbInputs inputs inputLen removed) ∧
      inputs' = withoutIdxs inputs removed ∧
      ∀ (k : ℕ) arg param, arguments[k]? = some arg → parameters[k]? = some param →
        (sharedPos ptbInputs inputs inputLen arg).isSome → isReference param := by
  obtain ⟨r, hr, h⟩ := Option.bind_eq_some_iff.mp h
  cases r with
  | none => simp at h
  | some r =>
    obtain ⟨hspec, hrefs⟩ := reuseInputs_spec ptbInputs inputs inputLen _ r 0 _ hr
    have hfst : (arguments.zip parameters).map Prod.fst = arguments := List.map_fst_zip hlen
    rw [hfst, List.nil_append, List.nil_append, List.nil_append] at hspec
    simp only [Option.some.injEq, Prod.mk.injEq] at h
    obtain ⟨hargs, hinputs⟩ := h
    refine ⟨arguments.filterMap (leftBehind ptbInputs inputs inputLen), rfl, ?_, ?_, ?_⟩
    · rw [← hargs, hspec]
      simp only [List.length_map, List.drop_length, List.append_nil]
      apply List.ext_getElem?
      intro k
      simp only [List.getElem?_map, List.getElem?_zipIdx]
      cases hk : arguments[k]? with
      | none => rfl
      | some arg =>
        simp only [Option.map_some, Nat.zero_add, Option.some.injEq]
        exact shiftInput_reused ptbInputs inputs inputLen arguments _ k arg hk hgrown
    · rw [← hinputs, hspec]
    · intro k arg param harg hparam hs
      have hpair : (arg, param) ∈ arguments.zip parameters := by
        apply List.mem_of_getElem? (i := k)
        simp [List.getElem?_zip_eq_some, harg, hparam]
      exact hrefs _ hpair hs

end

theorem reindex_range (ptbInputs inputs : List InputArgument) (inputLen : ℕ)
    (arguments : List SequenceArgument) (parameters : List MoveAbiSignatureToken)
    (r : List SequenceArgument × List InputArgument) (hlen : arguments.length ≤ parameters.length)
    (h : reindex ptbInputs inputs inputLen arguments parameters = some (some r)) (k : ℕ)
    (idx : U16) (harg : arguments[k]? = some (.input idx)) (hnew : ¬ idx.val < inputLen) :
    idx.val - inputLen < inputs.length := by
  obtain ⟨r, hr, h⟩ := Option.bind_eq_some_iff.mp h
  cases r with
  | none => simp at h
  | some r =>
    have hk := (List.getElem?_eq_some_iff.mp harg).1
    have hparam := List.getElem?_eq_getElem (Nat.lt_of_lt_of_le hk hlen)
    apply reuseInputs_range ptbInputs inputs inputLen _ r 0 _ hr idx _ _ hnew
    · exact parameters[k]
    · apply List.mem_of_getElem? (i := k)
      rw [List.getElem?_zip_eq_some]
      exact ⟨harg, hparam⟩

/-! ### Splits -/

def isSplitParam (param : MoveAbiSignatureToken) : Bool := param.isBalance || param.isCoin

/- The splits for the first `k` parameters. -/
def splitCount (params : List MoveAbiSignatureToken) (k : ℕ) : ℕ :=
  (params.take k).countP isSplitParam

/- What becomes of the argument at `k`: it stays, or the result of a new split
takes its place. -/
def splitArg (start : ℕ) (params : List MoveAbiSignatureToken) (k : ℕ) (arg : SequenceArgument) :
    SequenceArgument :=
  if params[k]?.any isSplitParam then .result (asU16 (start + splitCount params k)) else arg

theorem splitCount_cons (param : MoveAbiSignatureToken) (params : List MoveAbiSignatureToken)
    (k : ℕ) : splitCount (param :: params) (k + 1) =
      splitCount params k + if isSplitParam param then 1 else 0 := by
  rw [splitCount, List.take_succ_cons, List.countP_cons]
  rfl

theorem splitCount_lt (params : List MoveAbiSignatureToken) (k n : ℕ) (hkn : k < n)
    (hk : params[k]?.any isSplitParam) : splitCount params k < splitCount params n := by
  induction params generalizing k n with
  | nil => simp at hk
  | cons param params ih =>
    obtain ⟨n, rfl⟩ : ∃ m, n = m + 1 := ⟨n - 1, by omega⟩
    rw [splitCount_cons]
    cases k with
    | zero =>
      rw [List.getElem?_cons_zero, Option.any_some] at hk
      rw [if_pos hk]
      exact Nat.succ_pos _
    | succ k =>
      rw [splitCount_cons]
      have := ih k n (by omega) (by rwa [List.getElem?_cons_succ] at hk)
      omega

theorem splitArgs_spec (typeArguments : List MoveTypeTag) (ptb ptb' : MoveSequence)
    (inputs inputs' : List InputArgument) (args args' : List SequenceArgument)
    (params : List MoveAbiSignatureToken)
    (h : splitArgs typeArguments ptb inputs args params = some (ptb', inputs', args')) :
    ptb'.inputs = ptb.inputs ∧
      ptb'.commands.length = ptb.commands.length + splitCount params args.length ∧
      inputs <+: inputs' ∧ args'.length = args.length ∧
      ∀ (k : ℕ) arg, args[k]? = some arg →
        args'[k]? = some (splitArg ptb.commands.length params k arg) := by
  induction args generalizing ptb inputs params args' with
  | nil =>
    have h' : some (ptb, inputs, []) = some (ptb', inputs', args') := by
      cases params <;> exact h
    obtain ⟨rfl, rfl, rfl⟩ : ptb = ptb' ∧ inputs = inputs' ∧ [] = args' := by
      simpa only [Option.some.injEq, Prod.mk.injEq] using h'
    exact ⟨rfl, rfl, List.prefix_rfl, rfl, fun k arg hk => by simp at hk⟩
  | cons arg args ih =>
    cases params with
    | nil =>
      simp only [splitArgs, Option.some.injEq, Prod.mk.injEq] at h
      obtain ⟨rfl, rfl, rfl⟩ := h
      refine ⟨rfl, rfl, List.prefix_rfl, rfl, ?_⟩
      intro k a hk
      rw [hk]
      simp [splitArg]
    | cons param params =>
      simp only [splitArgs] at h
      by_cases hp : (param.isBalance || param.isCoin) = true
      · rw [if_pos hp] at h
        have hsplit : isSplitParam param = true := hp
        obtain ⟨ty, _, h⟩ := Option.bind_eq_some_iff.mp h
        split at h
        · obtain ⟨⟨nextPtb, nextInputs, nextArgs⟩, hnext, h⟩ := Option.bind_eq_some_iff.mp h
          simp only [Option.some.injEq, Prod.mk.injEq] at h
          obtain ⟨rfl, rfl, rfl⟩ := h
          obtain ⟨hin, hcount, hpre, hlen, hargs⟩ := ih _ _ _ _ hnext
          simp only [List.length_append, List.length_singleton] at hcount
          refine ⟨hin, ?_, (List.prefix_append ..).trans hpre, by simp [hlen], ?_⟩
          · rw [List.length_cons, splitCount_cons, if_pos hsplit]
            omega
          · intro k a hk
            cases k with
            | zero => simp [splitArg, hsplit, splitCount]
            | succ k =>
              rw [List.getElem?_cons_succ, hargs k a hk]
              have hsum : ptb.commands.length + (splitCount params k + 1) =
                  ptb.commands.length + 1 + splitCount params k := by omega
              simp only [splitArg, List.getElem?_cons_succ, splitCount_cons, hsplit, if_true,
                List.length_append, List.length_singleton, hsum]
        · cases h
      · rw [if_neg hp] at h
        have hsplit : isSplitParam param = false := by simpa [isSplitParam] using hp
        obtain ⟨⟨nextPtb, nextInputs, nextArgs⟩, hnext, h⟩ := Option.bind_eq_some_iff.mp h
        simp only [Option.some.injEq, Prod.mk.injEq] at h
        obtain ⟨rfl, rfl, rfl⟩ := h
        obtain ⟨hin, hcount, hpre, hlen, hargs⟩ := ih _ _ _ _ hnext
        refine ⟨hin, ?_, hpre, by simp [hlen], ?_⟩
        · rw [List.length_cons, splitCount_cons, hsplit, hcount]
          rfl
        · intro k a hk
          cases k with
          | zero =>
            rw [List.getElem?_cons_zero] at hk
            simp [splitArg, hsplit, hk]
          | succ k =>
            rw [List.getElem?_cons_succ, hargs k a hk]
            simp only [splitArg, List.getElem?_cons_succ, splitCount_cons, hsplit,
              Bool.false_eq_true, if_false, Nat.add_zero]

theorem splitArgs_commands (typeArguments : List MoveTypeTag) (ptb ptb' : MoveSequence)
    (inputs inputs' : List InputArgument) (args args' : List SequenceArgument)
    (params : List MoveAbiSignatureToken)
    (h : splitArgs typeArguments ptb inputs args params = some (ptb', inputs', args')) :
    ptb.commands <+: ptb'.commands ∧
      ∀ (k : ℕ) arg param, args[k]? = some arg → params[k]? = some param →
        isSplitParam param = true →
        ∃ address module name tys amount,
          param.subst (tyArgsMap typeArguments) = some (.struct address module name tys) ∧
          ptb'.commands[ptb.commands.length + splitCount params k]? =
            some (splitCall (if param.isBalance then "balance" else "coin") tys arg amount) := by
  induction args generalizing ptb inputs params args' with
  | nil =>
    have h' : some (ptb, inputs, []) = some (ptb', inputs', args') := by
      cases params <;> exact h
    obtain ⟨rfl, _⟩ : ptb = ptb' ∧ inputs = inputs' ∧ [] = args' := by
      simpa only [Option.some.injEq, Prod.mk.injEq] using h'
    exact ⟨List.prefix_rfl, fun k arg param hk => by simp at hk⟩
  | cons arg args ih =>
    cases params with
    | nil =>
      simp only [splitArgs, Option.some.injEq, Prod.mk.injEq] at h
      obtain ⟨rfl, _⟩ := h
      exact ⟨List.prefix_rfl, fun k arg param _ hparam => by simp at hparam⟩
    | cons param params =>
      simp only [splitArgs] at h
      by_cases hp : (param.isBalance || param.isCoin) = true
      · rw [if_pos hp] at h
        have hsplit : isSplitParam param = true := hp
        obtain ⟨ty, hty, h⟩ := Option.bind_eq_some_iff.mp h
        split at h
        · rename_i address module name tys
          obtain ⟨⟨nextPtb, nextInputs, nextArgs⟩, hnext, h⟩ := Option.bind_eq_some_iff.mp h
          simp only [Option.some.injEq, Prod.mk.injEq] at h
          obtain ⟨rfl, rfl, rfl⟩ := h
          obtain ⟨hpre, hcommands⟩ := ih _ _ _ _ hnext
          refine ⟨(List.prefix_append ..).trans hpre, ?_⟩
          intro k arg' param' hk hparam' hsplit'
          cases k with
          | zero =>
            obtain rfl := Option.some.inj hk
            obtain rfl := Option.some.inj hparam'
            obtain ⟨tail, htail⟩ := hpre
            refine ⟨address, module, name, tys,
              .input (asU16 (ptb.inputs.length + (inputs ++ [InputArgument.u64 0]).length - 1)), hty, ?_⟩
            rw [← htail, splitCount, List.take_zero, List.countP_nil, Nat.add_zero,
              List.getElem?_append_left (by simp), List.getElem?_concat_length]
          | succ k =>
            obtain ⟨a, m, n, tys', amount, hty', hget⟩ := hcommands k arg' param' hk hparam' hsplit'
            refine ⟨a, m, n, tys', amount, hty', ?_⟩
            rw [List.length_append, List.length_singleton] at hget
            rw [← hget, splitCount_cons, if_pos hsplit]
            congr 1
            omega
        · cases h
      · rw [if_neg hp] at h
        obtain ⟨⟨nextPtb, nextInputs, nextArgs⟩, hnext, h⟩ := Option.bind_eq_some_iff.mp h
        simp only [Option.some.injEq, Prod.mk.injEq] at h
        obtain ⟨rfl, rfl, rfl⟩ := h
        obtain ⟨hpre, hcommands⟩ := ih _ _ _ _ hnext
        refine ⟨hpre, ?_⟩
        intro k arg' param' hk hparam' hsplit'
        cases k with
        | zero =>
          obtain rfl := Option.some.inj hparam'
          exact absurd hsplit' hp
        | succ k =>
          obtain ⟨a, m, n, tys', amount, hty', hget⟩ := hcommands k arg' param' hk hparam' hsplit'
          refine ⟨a, m, n, tys', amount, hty', ?_⟩
          rw [← hget, splitCount_cons, if_neg (show ¬ isSplitParam param = true from hp),
            Nat.add_zero]

/-! ### The finished call -/

/- The call that is put together from arguments, type arguments and inputs. -/
structure Finished (function : MoveFunctionAbi) (ident : FunctionIdent) (disableSplit : Bool)
    (inputLen : ℕ) (ptb : MoveSequence) (arguments : List SequenceArgument)
    (typeArguments : List MoveTypeTag) (inputs : List InputArgument) (appended : Appended)
    (ptb' : MoveSequence) where
  args : List SequenceArgument
  newInputs : List InputArgument
  splitPtb : MoveSequence
  splitInputs : List InputArgument
  reindexed : reindex ptb.inputs inputs inputLen arguments function.parameters =
    some (some (args, newInputs))
  split : (if disableSplit then some (ptb, newInputs, args)
    else splitArgs typeArguments ptb newInputs args function.parameters) =
      some (splitPtb, splitInputs, appended.1)
  arity : typeArguments.length = function.typeParameters.length
  result : ptb' = ⟨splitPtb.inputs ++ splitInputs, splitPtb.commands ++ [.call
    ⟨ident.moduleId.moduleAddress, ident.moduleId.moduleName, ident.function, typeArguments,
      appended.1⟩]⟩
  returns : appended.2 = (List.range function.returnParamters.length).map fun j =>
    ObjectData.resultArg function.returnParamters.length splitPtb.commands.length j

theorem finishAppend_finished (function : MoveFunctionAbi) (ident : FunctionIdent)
    (disableSplit : Bool) (inputLen : ℕ) (ptb : MoveSequence) (arguments : List SequenceArgument)
    (typeArguments : List MoveTypeTag) (inputs : List InputArgument) :
    Choice.Ensures (finishAppend function ident disableSplit inputLen ptb arguments typeArguments
      inputs) fun r => ∀ appended, r.1 = some appended →
        Nonempty (Finished function ident disableSplit inputLen ptb arguments typeArguments inputs
          appended r.2) := by
  unfold finishAppend
  refine Choice.ensures_bind _ _ (fun reindexed =>
    reindex ptb.inputs inputs inputLen arguments function.parameters = some reindexed) _
    (Choice.ensures_expect _ _ fun _ h => h) ?_
  intro reindexed hreindexed
  cases reindexed with
  | none => exact Choice.ensures_pure _ _ fun _ h => by cases h
  | some reindexed =>
    obtain ⟨args, newInputs⟩ := reindexed
    refine Choice.ensures_bind _ _ (fun split => (if disableSplit then some (ptb, newInputs, args)
      else splitArgs typeArguments ptb newInputs args function.parameters) = some split) _
      (Choice.ensures_expect _ _ fun _ h => h) ?_
    rintro ⟨splitPtb, splitInputs, splitArgs'⟩ hsplit
    show Choice.Ensures (if _ then _ else _) _
    split_ifs with harity
    · exact Choice.ensures_panic _
    · apply Choice.ensures_pure
      intro appended happended
      obtain rfl := Option.some.inj happended
      exact ⟨⟨args, newInputs, splitPtb, splitInputs, hreindexed, hsplit, not_not.mp harity, rfl,
        rfl⟩⟩

/- What a finished call has made of its arguments. -/
structure FinishedArgs (function : MoveFunctionAbi) (disableSplit : Bool) (inputLen : ℕ)
    (ptb : MoveSequence) (arguments : List SequenceArgument) (inputs : List InputArgument)
    (appended : Appended) (ptb' : MoveSequence) (removed : List ℕ)
    (more : List InputArgument) : Prop where
  removed_eq : removed = arguments.filterMap (leftBehind ptb.inputs inputs inputLen)
  inputs_eq : ptb'.inputs = ptb.inputs ++ withoutIdxs inputs removed ++ more
  commands_eq : ptb'.commands.length = ptb.commands.length + 1 +
    if disableSplit then 0 else splitCount function.parameters arguments.length
  length_eq : appended.1.length = arguments.length
  shared_reference : ∀ (k : ℕ) arg param, arguments[k]? = some arg →
    function.parameters[k]? = some param →
    (sharedPos ptb.inputs inputs inputLen arg).isSome → isReference param
  argument : ∀ (k : ℕ) arg, arguments[k]? = some arg → appended.1[k]? = some
    (if disableSplit then renumber ptb.inputs inputs inputLen removed arg
    else splitArg ptb.commands.length function.parameters k
      (renumber ptb.inputs inputs inputLen removed arg))

theorem Finished.args_spec {function : MoveFunctionAbi} {ident : FunctionIdent}
    {disableSplit : Bool} {inputLen : ℕ} {ptb : MoveSequence} {arguments : List SequenceArgument}
    {typeArguments : List MoveTypeTag} {inputs : List InputArgument} {appended : Appended}
    {ptb' : MoveSequence}
    (f : Finished function ident disableSplit inputLen ptb arguments typeArguments inputs appended
      ptb')
    (hlen : arguments.length ≤ function.parameters.length) (hgrown : inputLen ≤ ptb.inputs.length) :
    ∃ removed more, FinishedArgs function disableSplit inputLen ptb arguments inputs appended ptb'
      removed more := by
  obtain ⟨removed, hremoved, hargs, hinputs, hshared⟩ := reindex_spec ptb.inputs inputs inputLen
    arguments function.parameters f.args f.newInputs hlen hgrown f.reindexed
  have hrenumbered : ∀ (k : ℕ) arg, arguments[k]? = some arg →
      f.args[k]? = some (renumber ptb.inputs inputs inputLen removed arg) := by
    intro k arg hk
    rw [hargs, List.getElem?_map, hk, Option.map_some]
  have hsplit := f.split
  have hresult := f.result
  cases disableSplit with
  | true =>
    obtain ⟨hptb, hin, happended⟩ : ptb = f.splitPtb ∧ f.newInputs = f.splitInputs ∧
        f.args = appended.1 := by
      simpa only [if_true, Option.some.injEq, Prod.mk.injEq] using hsplit
    refine ⟨removed, [], hremoved, ?_, ?_, ?_, hshared, ?_⟩
    · rw [hresult, ← hptb, ← hin, hinputs, List.append_nil]
    · rw [hresult, ← hptb]
      simp
    · rw [← happended, hargs, List.length_map]
    · intro k arg hk
      rw [← happended]
      exact hrenumbered k arg hk
  | false =>
    obtain ⟨hsin, hscount, ⟨more, hmore⟩, hslen, hsargs⟩ := splitArgs_spec _ _ _ _ _ _ _ _ hsplit
    rw [hargs, List.length_map] at hscount
    have hcommands : ptb'.commands.length = f.splitPtb.commands.length + 1 := by
      have hlength := congrArg (fun p => p.commands.length) hresult
      simpa using hlength
    refine ⟨removed, more, hremoved, ?_, ?_, ?_, hshared, ?_⟩
    · rw [hresult, hsin, ← hmore, hinputs, List.append_assoc]
    · rw [if_neg Bool.false_ne_true]
      omega
    · rw [hslen, hargs, List.length_map]
    · intro k arg hk
      exact hsargs k _ (hrenumbered k arg hk)

namespace FinishedArgs

variable {function : MoveFunctionAbi} {disableSplit : Bool} {inputLen : ℕ} {ptb : MoveSequence}
  {arguments : List SequenceArgument} {inputs : List InputArgument} {appended : Appended}
  {ptb' : MoveSequence} {removed : List ℕ} {more : List InputArgument}

theorem argument_plain (h : FinishedArgs function disableSplit inputLen ptb arguments inputs
      appended ptb' removed more) (k : ℕ) (arg : SequenceArgument) (param : MoveAbiSignatureToken)
    (hk : arguments[k]? = some arg) (hparam : function.parameters[k]? = some param)
    (hplain : isSplitParam param = false) :
    appended.1[k]? = some (renumber ptb.inputs inputs inputLen removed arg) := by
  rw [h.argument k arg hk, splitArg, hparam, Option.any_some, hplain]
  simp

theorem old_input (h : FinishedArgs function disableSplit inputLen ptb arguments inputs
      appended ptb' removed more) (i : ℕ) (v : InputArgument) (hi : ptb.inputs[i]? = some v) :
    ptb'.inputs[i]? = some v := by
  have hlt := (List.getElem?_eq_some_iff.mp hi).1
  rw [h.inputs_eq, List.append_assoc, List.getElem?_append_left hlt]
  exact hi

theorem new_input (h : FinishedArgs function disableSplit inputLen ptb arguments inputs
      appended ptb' removed more) (j : ℕ) (v : InputArgument) (hj : inputs[j]? = some v)
    (hkept : j ∉ removed) :
    ptb'.inputs[ptb.inputs.length + (j - removedBefore removed j)]? = some v := by
  have hget := getElem?_withoutIdxs inputs removed j v hj hkept
  have hlt := (List.getElem?_eq_some_iff.mp hget).1
  rw [h.inputs_eq, List.append_assoc, List.getElem?_append_right (by omega)]
  rw [Nat.add_sub_cancel_left, List.getElem?_append_left hlt]
  exact hget

/- The value that an argument stands for is where it is renumbered to. -/
theorem renumber_input (h : FinishedArgs function disableSplit inputLen ptb arguments inputs
      appended ptb' removed more) (hlen : ptb'.inputs.length ≤ 2 ^ 16) (idx : U16)
    (v : InputArgument)
    (hv : (if idx.val < inputLen then ptb.inputs[idx.val]? else inputs[idx.val - inputLen]?) =
      some v) :
    ∃ idx', renumber ptb.inputs inputs inputLen removed (.input idx) = .input idx' ∧
      ptb'.inputs[idx'.val]? = some v := by
  have hgrown : ptb.inputs.length ≤ ptb'.inputs.length := by
    rw [h.inputs_eq, List.append_assoc, List.length_append]
    exact Nat.le_add_right ..
  by_cases hold : idx.val < inputLen
  · rw [if_pos hold] at hv
    exact ⟨idx, by simp only [renumber, hold, if_true], h.old_input idx.val v hv⟩
  · rw [if_neg hold] at hv
    cases hshared : sharedPos ptb.inputs inputs inputLen (.input idx) with
    | some pos =>
      have hpos := hshared
      simp only [sharedPos, hold, if_false, hv, Option.bind_some] at hpos
      obtain ⟨hlt, hsame, _⟩ := List.findIdx?_eq_some_iff_getElem.mp hpos
      have hget := h.old_input pos _ (List.getElem?_eq_getElem hlt)
      refine ⟨asU16 pos, by simp only [renumber, hold, if_false, hshared], ?_⟩
      rw [asU16_val pos (by omega), hget, sameObject_eq _ _ hsame]
    | none =>
      have hkept : idx.val - inputLen ∉ removed := by
        rw [h.removed_eq]
        exact not_removed_of_unshared _ _ _ arguments idx hold hshared
      have hget := h.new_input _ v hv hkept
      have hlt := (List.getElem?_eq_some_iff.mp hget).1
      refine ⟨asU16 (ptb.inputs.length + (idx.val - inputLen -
        removedBefore removed (idx.val - inputLen))), by simp only [renumber, hold, if_false, hshared],
        ?_⟩
      rw [asU16_val _ (by omega)]
      exact hget

end FinishedArgs

end Movy.Fuzz
