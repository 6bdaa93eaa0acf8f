import Movy.Fuzz.Embed
import Movy.Fuzz.ObjectMapping
import Movy.Replay.Exec
import Movy.Store.Snapshot

/-!
# Running test functions (`movy-fuzz/src/operations/sui_test.rs`)

`movy sui test` runs every selected function by itself: before each of them the
snapshot of the environment is restored. What came of it is recorded in a
report (`movy-types/src/test_report.rs`), from which the command decides whether
it succeeds.
-/

namespace Movy.Fuzz

open Movy.Types Movy.Store Movy.Replay MoveAbiSignatureToken

/-! ### The report

Functions and sequences stand for their printed form. -/

inductive Outcome where
  | ok
  | sequenceBuildFailure
  | executionFailure (statusDebug : String) (sequence : MoveSequence) (trace : Option String)
  | oracleCrash (reason : Option String) (sequence : MoveSequence) (trace : Option String)

structure FunctionResult where
  function : FunctionIdent
  outcome : Outcome

structure Summary where
  total : ℕ
  ok : ℕ
  sequenceBuildFailure : ℕ
  executionFailure : ℕ
  oracleCrash : ℕ

namespace Summary

def default : Summary := ⟨0, 0, 0, 0, 0⟩

def observe (self : Summary) (outcome : Outcome) : Summary :=
  let self := { self with total := self.total + 1 }
  match outcome with
  | .ok => { self with ok := self.ok + 1 }
  | .sequenceBuildFailure => { self with sequenceBuildFailure := self.sequenceBuildFailure + 1 }
  | .executionFailure _ _ _ => { self with executionFailure := self.executionFailure + 1 }
  | .oracleCrash _ _ _ => { self with oracleCrash := self.oracleCrash + 1 }

def allOk (self : Summary) : Bool := self.total > 0 && self.ok = self.total

def anyOracleCrash (self : Summary) : Bool := self.oracleCrash > 0

end Summary

structure TestRunReport where
  version : ℕ
  functions : List FunctionResult
  summary : Summary

namespace TestRunReport

def SCHEMA_VERSION : ℕ := 2

def empty : TestRunReport := ⟨SCHEMA_VERSION, [], Summary.default⟩

def record (self : TestRunReport) (function : FunctionIdent) (outcome : Outcome) :
    TestRunReport :=
  { self with
    summary := self.summary.observe outcome
    functions := self.functions ++ [⟨function, outcome⟩] }

end TestRunReport

/-! ### One function -/

structure MayKeyedString where
  key : Option String
  value : String

/- The arguments of `test`. The state of the fuzzer is the metadata and what the
database answers. -/
structure TestRun where
  engine : Engine
  fuzzState : FuzzState
  targetFunctions : List FunctionIdent
  objectMapping : IndexMap MoveTypeTag (List MoveAddress)
  typeArgs : IndexMap FunctionIdent TyArgs
  /- The messages in the payload of a crash event. -/
  crashLog : List Byte → Option (List MayKeyedString)
  /- The objects that are read while a sequence is built. The reads are cached,
  which changes no answer. -/
  lookups : CachedStore → FunctionIdent → List ℕ → List ObjectID

inductive TestError where
  | noTargets
  | mapping (error : MappingError ExecError)
  | toPtb
  | exec (error : ExecError)

section

variable (t : TestRun)

def decodeCrashReason (contents : List Byte) : Option String := do
  let msg ← t.crashLog contents
  match msg.find? fun entry => entry.key = some "reason" with
  | some entry => some entry.value
  | none =>
    if msg.isEmpty then none
    else some (", ".intercalate (msg.map fun entry => match entry.key with
      | some key => key ++ "=" ++ entry.value
      | none => entry.value))

def isCrash (event : SuiEvent) : Bool := event.module = "oracle" && event.name = "Crash"

def outcomeOf (sequence : MoveSequence) (results : ExecutionResults) : Outcome :=
  if results.status = false then
    .executionFailure results.statusDebug sequence results.failureViews
  else match results.events.find? isCrash with
    | some crash => .oracleCrash (decodeCrashReason t crash.contents) sequence results.failureViews
    | none => .ok

/- The fuzzer's state on a database. -/
def stateOn (db : CachedStore) : FuzzState :=
  { t.fuzzState with getMoveObjectInfo := fun id =>
      match (getMoveObjectInfo t.engine id db).1 with
      | .ok info => some info
      | .error _ => none }

def fixedTyArgs (function : FunctionIdent) : TyArgs :=
  (t.typeArgs.get? function).getD SortedMap.empty

/- The inputs and arguments that come from the mapping; a function without ABI
gets none. -/
def fixedArgs (db : CachedStore) (function : FunctionIdent) :
    Except (MappingError ExecError) Bindings :=
  match t.fuzzState.getFunction function.moduleId.moduleAddress function.moduleId.moduleName
    function.function with
  | some abi => buildTestFixedArgs (fun id => (getMoveObjectInfo t.engine id db).1)
      (fixedTyArgs t function) abi ⟨[], []⟩ t.objectMapping
  | none => .ok ⟨⟨[], []⟩, t.objectMapping, SortedMap.empty⟩

/- The sequence that calls the function, if one can be built, and the database
after the reads this takes. -/
def buildSequence (db : CachedStore) (function : FunctionIdent) :
    Choice (Except TestError (Option MoveSequence) × CachedStore) := do
  let lookups ← (fun rs => some (t.lookups db function rs, rs) : Choice (List ObjectID))
  let db' := lookups.foldl (fun db id => (db.getObject id).2) db
  match fixedArgs t db function with
  | .error e => pure (.error (.mapping e), db')
  | .ok bound => do
    let (built, sequence) ← appendTop (stateOn t db) bound.sequence function bound.fixed
      (fixedTyArgs t function) [] false
    match built with
    | none => pure (.ok none, db')
    | some _ => do
      let sequence ← applyHooks (stateOn t db) sequence
      pure (.ok (some sequence), db')

def runSequence (db : CachedStore) (sequence : MoveSequence) :
    Except TestError Outcome × CachedStore :=
  match sequence.toPtb t.engine.bcs with
  | none => (.error .toPtb, db)
  | some ptb =>
    let r := runPtbWithMovyTestingTracerGas t.engine ptb t.fuzzState.attacker t.fuzzState.gasId db
    ((r.1.mapError TestError.exec).map (outcomeOf t sequence), r.2)

def testFunction (db : CachedStore) (function : FunctionIdent) :
    Choice (Except TestError Outcome × CachedStore) := do
  let (built, db) ← buildSequence t db function
  match built with
  | .error e => pure (.error e, db)
  | .ok none => pure (.ok .sequenceBuildFailure, db)
  | .ok (some sequence) => pure (runSequence t db sequence)

/-! ### All functions -/

/- The loop over the functions; the caches are thrown away before each. -/
def testLoop (baseline : CachedSnapshot) : List FunctionIdent → TestRunReport → CachedStore →
    Choice (Except TestError TestRunReport × CachedStore)
  | [], report, db => pure (.ok report, db)
  | function :: rest, report, db => do
    let (outcome, db) ← testFunction t (db.reset.restoreSnapshot baseline) function
    match outcome with
    | .error e => pure (.error e, db)
    | .ok outcome => testLoop baseline rest (report.record function outcome) db

def test (db : CachedStore) : Choice (Except TestError TestRunReport × CachedStore) :=
  if t.targetFunctions.isEmpty then pure (.error .noTargets, db)
  else testLoop t db.dumpSnapshot t.targetFunctions TestRunReport.empty db

end

/-! ### Counting -/

namespace Summary

def of (outcomes : List Outcome) : Summary := outcomes.foldl observe default

def isOk : Outcome → Bool
  | .ok => true
  | _ => false

def isSequenceBuildFailure : Outcome → Bool
  | .sequenceBuildFailure => true
  | _ => false

def isExecutionFailure : Outcome → Bool
  | .executionFailure _ _ _ => true
  | _ => false

def isOracleCrash : Outcome → Bool
  | .oracleCrash _ _ _ => true
  | _ => false

/- Every outcome is counted once, under its own heading. -/
theorem foldl_observe (outcomes : List Outcome) (s : Summary) :
    outcomes.foldl observe s =
      ⟨s.total + outcomes.length, s.ok + outcomes.countP isOk,
        s.sequenceBuildFailure + outcomes.countP isSequenceBuildFailure,
        s.executionFailure + outcomes.countP isExecutionFailure,
        s.oracleCrash + outcomes.countP isOracleCrash⟩ := by
  induction outcomes generalizing s with
  | nil => rfl
  | cons outcome rest ih =>
    rw [List.foldl_cons, ih]
    cases outcome <;>
      simp [observe, isOk, isSequenceBuildFailure, isExecutionFailure, isOracleCrash,
        List.countP_cons] <;> omega

theorem allOk_of (outcomes : List Outcome) :
    (of outcomes).allOk = true ↔ outcomes ≠ [] ∧ ∀ outcome ∈ outcomes, outcome = .ok := by
  have hok : ∀ outcome, isOk outcome = true ↔ outcome = .ok := fun outcome => by
    cases outcome <;> simp [isOk]
  rw [of, foldl_observe, allOk, Bool.and_eq_true, decide_eq_true_eq, decide_eq_true_eq]
  simp only [default, Nat.zero_add]
  rw [List.countP_eq_length, gt_iff_lt, List.length_pos_iff]
  simp only [hok]

theorem anyOracleCrash_of (outcomes : List Outcome) :
    (of outcomes).anyOracleCrash = true ↔ ∃ outcome ∈ outcomes, isOracleCrash outcome = true := by
  rw [of, foldl_observe, anyOracleCrash, decide_eq_true_eq]
  simp only [default, Nat.zero_add]
  rw [gt_iff_lt, List.countP_pos_iff]

end Summary

namespace TestRunReport

def of (results : List FunctionResult) : TestRunReport :=
  ⟨SCHEMA_VERSION, results, Summary.of (results.map FunctionResult.outcome)⟩

theorem record_of (results : List FunctionResult) (function : FunctionIdent) (outcome : Outcome) :
    (of results).record function outcome = of (results ++ [⟨function, outcome⟩]) := by
  rw [record, of, of, Summary.of, Summary.of, List.map_append, List.foldl_append]
  rfl

end TestRunReport

/-! ### Every function runs on the database as it was -/

section

variable (t : TestRun)

theorem onlyReads_lookups (ids : List ObjectID) (db : CachedStore) :
    OnlyReads db (ids.foldl (fun db id => (db.getObject id).2) db) :=
  ⟨ids.map Read.getObject, by rw [List.foldl_map]; rfl⟩

theorem store_onlyReads (db db' : CachedStore) (h : OnlyReads db db') : db'.store = db.store := by
  obtain ⟨reads, rfl⟩ := h
  induction reads generalizing db with
  | nil => rfl
  | cons r rest ih =>
    rw [List.foldl_cons, ih]
    exact CachedStore.store_read db r

theorem buildSequence_onlyReads (db : CachedStore) (function : FunctionIdent) :
    Choice.Ensures (buildSequence t db function) fun r => OnlyReads db r.2 := by
  unfold buildSequence
  apply Choice.ensures_then
  intro lookups
  have hreads := onlyReads_lookups lookups db
  show Choice.Ensures (match fixedArgs t db function with
    | .error e => _
    | .ok bound => _) _
  split
  · exact Choice.ensures_pure _ _ hreads
  · apply Choice.ensures_then
    intro built
    obtain ⟨built, sequence⟩ := built
    cases built with
    | none => exact Choice.ensures_pure _ _ hreads
    | some _ =>
      apply Choice.ensures_then
      intro decorated
      exact Choice.ensures_pure _ _ hreads

theorem runSequence_onlyReads (db : CachedStore) (sequence : MoveSequence) :
    OnlyReads db (runSequence t db sequence).2 := by
  unfold runSequence
  split
  · exact Std.Refl.refl db
  · exact within_runPtbWithMovyTestingTracerGas t.engine _ _ _ db

theorem testFunction_onlyReads (db : CachedStore) (function : FunctionIdent) :
    Choice.Ensures (testFunction t db function) fun r => OnlyReads db r.2 := by
  refine Choice.ensures_bind _ _ _ _ (buildSequence_onlyReads t db function) ?_
  intro built hbuilt
  obtain ⟨built, db'⟩ := built
  cases built with
  | error e => exact Choice.ensures_pure _ _ hbuilt
  | ok found =>
    cases found with
    | none => exact Choice.ensures_pure _ _ hbuilt
    | some sequence =>
      have hrun := runSequence_onlyReads t db' sequence
      exact Choice.ensures_pure _ _ (IsTrans.trans _ _ _ hbuilt hrun)

/- What the function gives on the given database, with the random numbers `rs`. -/
def GivesAlone (db : CachedStore) (rs rest : List ℕ) (result : FunctionResult) : Prop :=
  ∃ db', testFunction t db result.function rs = some ((.ok result.outcome, db'), rest)

/- Each function on the same database, with the random numbers that those before
it have left. -/
inductive EachAlone (db : CachedStore) : List ℕ → List FunctionResult → List ℕ → Prop where
  | nil (rs : List ℕ) : EachAlone db rs [] rs
  | cons (rs mid rest : List ℕ) (result : FunctionResult) (results : List FunctionResult) :
      GivesAlone t db rs mid result → EachAlone db mid results rest →
      EachAlone db rs (result :: results) rest

theorem testLoop_iff (db now : CachedStore) (hnow : now.store = db.store)
    (functions : List FunctionIdent) (before : List FunctionResult) (rs rest : List ℕ)
    (report : TestRunReport) :
    (∃ db', testLoop t db.dumpSnapshot functions (.of before) now rs =
        some ((.ok report, db'), rest)) ↔
      ∃ results, EachAlone t db rs results rest ∧
        results.map FunctionResult.function = functions ∧ report = .of (before ++ results) := by
  induction functions generalizing now before rs with
  | nil =>
    constructor
    · intro h
      obtain ⟨db', h⟩ := h
      obtain ⟨hrun, rfl⟩ := Prod.mk.inj ((Choice.pure_eq_some _ _ _).mp h)
      cases hrun
      exact ⟨[], .nil _, rfl, by rw [List.append_nil]⟩
    · intro h
      obtain ⟨results, halone, hnames, rfl⟩ := h
      obtain rfl := List.map_eq_nil_iff.mp hnames
      cases halone
      exact ⟨now, by rw [List.append_nil]; rfl⟩
  | cons function functions ih =>
    have hsame : now.reset.restoreSnapshot db.dumpSnapshot = db := by
      rw [CachedStore.reset, hnow]
      exact CachedStore.restoreSnapshot_dumpSnapshot db
    constructor
    · intro h
      obtain ⟨db', h⟩ := h
      rw [testLoop, hsame] at h
      obtain ⟨⟨outcome, db₁⟩, mid, hfirst, hrest⟩ := (Choice.bind_eq_some _ _ _ _).mp h
      have hstore := store_onlyReads db db₁ (testFunction_onlyReads t db function rs _ mid hfirst)
      cases outcome with
      | error e =>
        obtain ⟨hrun, -⟩ := Prod.mk.inj ((Choice.pure_eq_some _ _ _).mp hrest)
        cases hrun
      | ok outcome =>
        simp only [TestRunReport.record_of] at hrest
        obtain ⟨results, halone, hnames, hreport⟩ := (ih db₁ hstore _ mid).mp ⟨db', hrest⟩
        refine ⟨⟨function, outcome⟩ :: results, .cons rs mid rest _ _ ⟨db₁, hfirst⟩ halone, ?_, ?_⟩
        · rw [List.map_cons, hnames]
        · rw [hreport, List.append_assoc, List.singleton_append]
    · intro h
      obtain ⟨results, halone, hnames, rfl⟩ := h
      cases halone with
      | nil => cases hnames
      | cons _ mid _ result results hfirst hrest =>
        obtain ⟨hfunction, hnames⟩ := List.cons.inj hnames
        obtain ⟨db₁, hfirst⟩ := hfirst
        rw [hfunction] at hfirst
        have hstore := store_onlyReads db db₁ (testFunction_onlyReads t db function rs _ mid hfirst)
        obtain ⟨db', hloop⟩ := (ih db₁ hstore (before ++ [result]) mid).mpr
          ⟨results, hrest, hnames, by rw [List.append_assoc, List.singleton_append]⟩
        refine ⟨db', ?_⟩
        rw [testLoop, hsame]
        refine (Choice.bind_eq_some _ _ _ _).mpr ⟨_, mid, hfirst, ?_⟩
        simp only [TestRunReport.record_of]
        rw [← hfunction]
        exact hloop

/- A run yields a report exactly if every function gives its outcome alone, on
the database as it was before the run; the report lists these in order and
counts them. -/
theorem test_runs_each_alone (db : CachedStore) (rs rest : List ℕ) (report : TestRunReport) :
    (∃ db', test t db rs = some ((.ok report, db'), rest)) ↔
      t.targetFunctions ≠ [] ∧ ∃ results, EachAlone t db rs results rest ∧
        results.map FunctionResult.function = t.targetFunctions ∧ report = .of results := by
  unfold test
  by_cases hempty : t.targetFunctions = []
  · rw [hempty]
    constructor
    · intro h
      obtain ⟨db', h⟩ := h
      obtain ⟨hrun, -⟩ := Prod.mk.inj ((Choice.pure_eq_some _ _ _).mp h)
      cases hrun
    · intro h
      exact absurd rfl h.1
  · rw [if_neg (by simpa using hempty)]
    have hloop := testLoop_iff t db db rfl t.targetFunctions [] rs rest report
    simp only [List.nil_append] at hloop
    exact hloop.trans ⟨fun h => ⟨hempty, h⟩, fun h => h.2⟩

end

/-! ### What an outcome stands for -/

def CallsFunction (function : FunctionIdent) (ptb : MoveSequence) : Prop :=
  ∃ call, .call call ∈ ptb.commands ∧ callIdent call = function

theorem CallsFunction.grows {function : FunctionIdent} {a b : MoveSequence}
    {P : MoveSequenceCall → Prop} (h : CallsFunction function a) (hgrows : Grows P a b) :
    CallsFunction function b := by
  obtain ⟨call, hcall, hident⟩ := h
  obtain ⟨-, added, hcommands, -⟩ := hgrows
  exact ⟨call, hcommands ▸ List.mem_append_left added hcall, hident⟩

theorem appendFunction_calls (st : FuzzState) (fuel : ℕ) (ptb : MoveSequence)
    (ident : FunctionIdent) (fixedArgs : FixedArgs) (fixedTyArgs : TyArgs)
    (usedArguments : List SequenceArgument) (disableSplit : Bool) :
    Choice.Ensures (appendFunction st fuel ptb ident fixedArgs fixedTyArgs usedArguments
      disableSplit) fun r => r.1.isSome = true → CallsFunction ident r.2 := by
  cases fuel with
  | zero => exact Choice.ensures_pure _ _ fun h => by cases h
  | succ fuel =>
    refine appendStep_ensures st _ (fun _ => True) _ ptb ident fixedArgs fixedTyArgs usedArguments
      disableSplit trivial (fun ptb' _ h => by cases h) (fun _ _ _ _ _ _ rs a rest _ => ?_) ?_
    · exact ⟨trivial, fun _ _ => trivial⟩
    · intro function inputLen ptb' arguments typeArguments inputs _
      refine (finishAppend_cases _ _ _ _ _ _ _ _).mono ?_
      intro r hr h
      rcases hr with rfl | ⟨appended, split, added, call, rfl, hcall, -, -⟩
      · cases h
      · exact ⟨call, List.mem_append_right _ (List.mem_singleton_self _), hcall⟩

section

variable (st : FuzzState)
  (append : MoveSequence → FunctionIdent → FixedArgs → TyArgs → List SequenceArgument →
    Choice (Option Appended × MoveSequence))
  (happend : ∀ ptb ident fixedArgs fixedTyArgs used, ident ∈ hookIdents st →
    Choice.Ensures (append ptb ident fixedArgs fixedTyArgs used) fun r =>
      Grows (fun _ => True) ptb r.2)

include happend

/- A command is written behind what is there. -/
theorem decorateCommand_grows (d : Decorated) (cmd : MoveSequenceCall) :
    Choice.Ensures (decorateCommand st append d cmd) fun d' =>
      GrowsFreely d.ptb d'.ptb ∧ ∀ call, cmd = .call call →
        CallsFunction (callIdent call) d'.ptb := by
  unfold decorateCommand
  refine Choice.ensures_bind _ _ (fun remapped => remapCommand cmd d.indexMap = some remapped) _
    (Choice.ensures_expect _ _ fun _ h => h) ?_
  intro remapped hremapped
  -- the command itself is behind `d`, and calls what it has called
  have hplain : ∀ ptb, GrowsFreely d.ptb ptb →
      GrowsFreely d.ptb { ptb with commands := ptb.commands ++ [remapped] } ∧
        ∀ call, cmd = .call call →
          CallsFunction (callIdent call) { ptb with commands := ptb.commands ++ [remapped] } := by
    intro ptb hptb
    refine ⟨hptb.trans (grows_command _ ptb remapped trivial), ?_⟩
    intro call hcmd
    subst hcmd
    obtain ⟨arguments, -, hnew⟩ := Option.bind_eq_some_iff.mp hremapped
    rw [← Option.some.inj hnew]
    exact ⟨_, List.mem_append_right _ (List.mem_singleton_self _), rfl⟩
  split
  · split
    · rename_i call _ abi hooks hhooks
      obtain ⟨hpre, hpost⟩ := callHooks_mem st call abi hooks hhooks
      unfold handleFunctionCallHooks
      refine Choice.ensures_bind _ _ _ _
        (appendContextCreation_grows st append _ happend d.ptb) ?_
      intro created hcreate
      obtain ⟨hookCtx, ptb⟩ := created
      refine Choice.ensures_bind _ _ _ _
        (appendHookCalls_grows st append _ happend _ hookCtx ptb hooks.preHooks hpre) ?_
      intro before hbefore
      obtain ⟨hgrows, hcalls⟩ := hplain before (hcreate.trans hbefore)
      refine Choice.ensures_bind _ _ _ _
        (appendHookCalls_grows st append _ happend _ hookCtx _ hooks.postHooks hpost) ?_
      intro after hafter
      refine Choice.ensures_bind _ _ _ _
        (appendContextDestruction_grows st append _ happend after hookCtx) ?_
      intro last hlast
      apply Choice.ensures_pure
      exact ⟨hgrows.trans (hafter.trans hlast),
        fun call hcall => (hcalls call hcall).grows (hafter.trans hlast)⟩
    · exact Choice.ensures_pure _ _ (hplain d.ptb (Grows.refl _ _))
  · exact Choice.ensures_pure _ _ (hplain d.ptb (Grows.refl _ _))

theorem decorateCommands_calls (function : FunctionIdent) (cmds : List MoveSequenceCall)
    (d : Decorated) (h : CallsFunction function d.ptb ∨
      ∃ call, .call call ∈ cmds ∧ callIdent call = function) :
    Choice.Ensures (decorateCommands st append d cmds) fun d' => CallsFunction function d'.ptb := by
  induction cmds generalizing d with
  | nil =>
    refine Choice.ensures_pure _ _ (h.elim id ?_)
    intro hcall
    obtain ⟨call, hcall, -⟩ := hcall
    cases hcall
  | cons cmd rest ih =>
    refine Choice.ensures_bind _ _ _ _ (decorateCommand_grows st append happend d cmd) ?_
    intro d' hd'
    obtain ⟨hgrows, hown⟩ := hd'
    apply ih
    rcases h with h | ⟨call, hcall, hident⟩
    · exact .inl (h.grows hgrows)
    · rcases List.mem_cons.mp hcall with heq | hcall
      · exact .inl (hident ▸ hown call heq.symm)
      · exact .inr ⟨call, hcall, hident⟩

theorem insertHooks_calls (base : MoveSequence) (function : FunctionIdent)
    (h : CallsFunction function base) :
    Choice.Ensures (insertHooks st append base) fun ptb => CallsFunction function ptb := by
  unfold insertHooks
  apply Choice.ensures_then
  intro created
  obtain ⟨globalCtx, ptb⟩ := created
  apply Choice.ensures_then
  intro before
  refine Choice.ensures_bind _ _ _ _ (decorateCommands_calls st _ happend function base.commands
    ⟨before, []⟩ (.inr h)) ?_
  intro d hd
  have hpost : ∀ hook ∈ st.sequenceHooks.postHooks, hook ∈ hookIdents st := by
    intro hook hhook
    simp [hookIdents, hhook]
  refine Choice.ensures_bind _ _ _ _
    (appendHookCalls_grows st _ _ happend none globalCtx d.ptb _ hpost) ?_
  intro after hafter
  refine (appendContextDestruction_grows st _ _ happend after globalCtx).mono ?_
  intro ptb hptb
  exact hd.grows (hafter.trans hptb)

end

theorem applyHooks_calls (st : FuzzState) (base : MoveSequence) (function : FunctionIdent)
    (h : CallsFunction function base) :
    Choice.Ensures (applyHooks st base) fun ptb => CallsFunction function ptb := by
  have happend : ∀ ptb ident fixedArgs fixedTyArgs used, ident ∈ hookIdents st →
      Choice.Ensures (appendTop st ptb ident fixedArgs fixedTyArgs used true) fun r =>
        Grows (fun _ => True) ptb r.2 := fun ptb ident fixedArgs fixedTyArgs used _ =>
    appendFunction_grows st 11 ptb ident fixedArgs fixedTyArgs used true
  intro rs result rest hrun
  obtain ⟨ptb, mid, hptb, hmid, hresult⟩ := (decorate_eq_some st _ base result rs rest).mp hrun
  have hcalls := insertHooks_calls st _ happend base function h rs ptb rest hptb
  have hbalance := hcalls.grows (processBalance_grows st ptb mid hmid).1
  rcases processKeyStore_cases st mid result hresult with rfl | ⟨objects, rfl⟩
  · exact hbalance
  · obtain ⟨call, hcall, hident⟩ := hbalance
    exact ⟨call, List.mem_append_left _ hcall, hident⟩

section

variable (t : TestRun)

/- The sequence was built with the random numbers `rs` and calls the function, and its
transaction was executed on the database as it was. -/
def Executed (db : CachedStore) (rs rest : List ℕ) (function : FunctionIdent)
    (sequence : MoveSequence) (results : ExecutionResults) : Prop :=
  ∃ (ptb : ProgrammableTransaction) (now db' : CachedStore),
    buildSequence t db function rs = some ((.ok (some sequence), now), rest) ∧
    CallsFunction function sequence ∧ sequence.toPtb t.engine.bcs = some ptb ∧ OnlyReads db now ∧
    runPtbWithMovyTestingTracerGas t.engine ptb t.fuzzState.attacker t.fuzzState.gasId now =
      (.ok results, db')

/- The mapping gives the function its fixed arguments, and `append_function` finds no call of
it with the random numbers `rs`. -/
def NotBuilt (db : CachedStore) (rs rest : List ℕ) (function : FunctionIdent) : Prop :=
  ∃ bound ptb, fixedArgs t db function = .ok bound ∧
    appendTop (stateOn t db) bound.sequence function bound.fixed (fixedTyArgs t function) [] false
      rs = some ((none, ptb), rest)

/- What has happened if this outcome is reported. -/
def Verdict (db : CachedStore) (rs rest : List ℕ) (result : FunctionResult) : Prop :=
  match result.outcome with
  | .ok => ∃ sequence results, Executed t db rs rest result.function sequence results ∧
      results.status = true ∧ ∀ event ∈ results.events, isCrash event = false
  | .sequenceBuildFailure => NotBuilt t db rs rest result.function
  | .executionFailure statusDebug sequence trace =>
      ∃ results, Executed t db rs rest result.function sequence results ∧
        results.status = false ∧ statusDebug = results.statusDebug ∧ trace = results.failureViews
  | .oracleCrash reason sequence trace =>
      ∃ results crash, Executed t db rs rest result.function sequence results ∧
        results.status = true ∧ results.events.find? isCrash = some crash ∧
        reason = decodeCrashReason t crash.contents ∧ trace = results.failureViews

/- Each outcome stands for a run with the random numbers that those before it have left. -/
inductive EachVerdict (db : CachedStore) : List ℕ → List FunctionResult → List ℕ → Prop where
  | nil (rs : List ℕ) : EachVerdict db rs [] rs
  | cons (rs mid rest : List ℕ) (result : FunctionResult) (results : List FunctionResult) :
      Verdict t db rs mid result → EachVerdict db mid results rest →
      EachVerdict db rs (result :: results) rest

theorem EachVerdict.mem {db : CachedStore} {rs rest : List ℕ} {results : List FunctionResult}
    (h : EachVerdict t db rs results rest) (result : FunctionResult) (hresult : result ∈ results) :
    ∃ before after, Verdict t db before after result := by
  induction h with
  | nil rs => cases hresult
  | cons rs mid rest first results hfirst _ ih =>
    rcases List.mem_cons.mp hresult with rfl | hresult
    · exact ⟨rs, mid, hfirst⟩
    · exact ih hresult

theorem buildSequence_calls (db : CachedStore) (function : FunctionIdent) :
    Choice.Ensures (buildSequence t db function) fun r =>
      ∀ sequence, r.1 = .ok (some sequence) → CallsFunction function sequence := by
  unfold buildSequence
  apply Choice.ensures_then
  intro lookups
  show Choice.Ensures (match fixedArgs t db function with
    | .error e => _
    | .ok bound => _) _
  split
  · exact Choice.ensures_pure _ _ fun sequence h => by cases h
  · refine Choice.ensures_bind _ _ _ _ (appendFunction_calls _ 11 _ _ _ _ _ _) ?_
    intro built hbuilt
    obtain ⟨built, sequence⟩ := built
    cases built with
    | none => exact Choice.ensures_pure _ _ fun sequence h => by cases h
    | some appended =>
      refine Choice.ensures_bind _ _ _ _
        (applyHooks_calls (stateOn t db) sequence function (hbuilt rfl)) ?_
      intro decorated hdecorated
      refine Choice.ensures_pure _ _ fun sequence h => ?_
      cases h
      exact hdecorated

/- No sequence is built exactly where `append_function` finds no call. -/
theorem buildSequence_none (db now : CachedStore) (function : FunctionIdent) (rs rest : List ℕ)
    (h : buildSequence t db function rs = some ((.ok none, now), rest)) :
    NotBuilt t db rs rest function := by
  unfold buildSequence at h
  obtain ⟨lookups, rs', hlookups, h⟩ := (Choice.bind_eq_some _ _ _ _).mp h
  obtain ⟨-, rfl⟩ := Prod.mk.inj (Option.some.inj hlookups)
  cases hbound : fixedArgs t db function with
  | error e =>
    simp only [hbound] at h
    obtain ⟨hrun, -⟩ := Prod.mk.inj ((Choice.pure_eq_some _ _ _).mp h)
    cases hrun
  | ok bound =>
    simp only [hbound] at h
    obtain ⟨⟨built, ptb⟩, mid, happend, h⟩ := (Choice.bind_eq_some _ _ _ _).mp h
    cases built with
    | none =>
      obtain ⟨-, rfl⟩ := Prod.mk.inj ((Choice.pure_eq_some _ _ _).mp h)
      exact ⟨bound, ptb, hbound, happend⟩
    | some appended =>
      obtain ⟨decorated, mid', -, h⟩ := (Choice.bind_eq_some _ _ _ _).mp h
      obtain ⟨hrun, -⟩ := Prod.mk.inj ((Choice.pure_eq_some _ _ _).mp h)
      cases hrun

theorem verdict_runSequence (db now : CachedStore) (function : FunctionIdent) (rs rest : List ℕ)
    (sequence : MoveSequence) (outcome : Outcome)
    (hbuilt : buildSequence t db function rs = some ((.ok (some sequence), now), rest))
    (h : (runSequence t now sequence).1 = .ok outcome) :
    Verdict t db rs rest ⟨function, outcome⟩ := by
  have hnow := buildSequence_onlyReads t db function rs _ rest hbuilt
  have hcalls := buildSequence_calls t db function rs _ rest hbuilt sequence rfl
  unfold runSequence at h
  cases hptb : sequence.toPtb t.engine.bcs with
  | none =>
    rw [hptb] at h
    cases h
  | some ptb =>
    rw [hptb] at h
    rcases hrun : runPtbWithMovyTestingTracerGas t.engine ptb t.fuzzState.attacker
      t.fuzzState.gasId now with ⟨r, db'⟩
    cases r with
    | error e =>
      simp only [hrun] at h
      cases h
    | ok results =>
      have hexec : Executed t db rs rest function sequence results :=
        ⟨ptb, now, db', hbuilt, hcalls, hptb, hnow, hrun⟩
      simp only [hrun, Except.mapError, Except.map, Except.ok.injEq] at h
      unfold outcomeOf at h
      subst h
      cases hstatus : results.status with
      | false => exact ⟨results, hexec, hstatus, rfl, rfl⟩
      | true =>
        cases hcrash : results.events.find? isCrash with
        | none =>
          refine ⟨sequence, results, hexec, hstatus, fun event hevent => ?_⟩
          exact Bool.eq_false_iff.mpr (List.find?_eq_none.mp hcrash event hevent)
        | some crash => exact ⟨results, crash, hexec, hstatus, hcrash, rfl, rfl⟩

theorem verdict_testFunction (db db' : CachedStore) (function : FunctionIdent)
    (outcome : Outcome) (rs rest : List ℕ)
    (h : testFunction t db function rs = some ((.ok outcome, db'), rest)) :
    Verdict t db rs rest ⟨function, outcome⟩ := by
  obtain ⟨⟨built, now⟩, mid, hbuilt, h⟩ := (Choice.bind_eq_some _ _ _ _).mp h
  cases built with
  | error e =>
    obtain ⟨hrun, -⟩ := Prod.mk.inj ((Choice.pure_eq_some _ _ _).mp h)
    cases hrun
  | ok found =>
    cases found with
    | none =>
      obtain ⟨hrun, rfl⟩ := Prod.mk.inj ((Choice.pure_eq_some _ _ _).mp h)
      cases hrun
      exact buildSequence_none t db _ function rs _ hbuilt
    | some sequence =>
      obtain ⟨hrun, rfl⟩ := Prod.mk.inj ((Choice.pure_eq_some _ _ _).mp h)
      exact verdict_runSequence t db now function rs rest sequence outcome hbuilt
        (congrArg Prod.fst hrun).symm

theorem verdict_eachAlone (db : CachedStore) (rs rest : List ℕ) (results : List FunctionResult)
    (h : EachAlone t db rs results rest) : EachVerdict t db rs results rest := by
  induction h with
  | nil rs => exact .nil rs
  | cons rs mid rest first results hfirst _ ih =>
    obtain ⟨db', hrun⟩ := hfirst
    exact .cons rs mid rest first results
      (verdict_testFunction t db db' first.function first.outcome rs mid hrun) ih

/- Every outcome in a report stands for what happened to its function on the database as it was
before the run: an execution that went as the outcome says, with the sequence, the status and
the trace that it shows, or an `append_function` that found no call. The two questions that are
asked of the summary are answered as the outcomes say: so a run that is `all_ok` has called
every selected function in a transaction that succeeded and emitted no crash. -/
theorem test_verdicts (db db' : CachedStore) (rs rest : List ℕ) (report : TestRunReport)
    (h : test t db rs = some ((.ok report, db'), rest)) :
    EachVerdict t db rs report.functions rest ∧
      report.functions.map FunctionResult.function = t.targetFunctions ∧
      (report.summary.allOk = true ↔ ∀ result ∈ report.functions, result.outcome = .ok) ∧
      (report.summary.anyOracleCrash = true ↔
        ∃ result ∈ report.functions, Summary.isOracleCrash result.outcome = true) ∧
      (report.summary.allOk = true → ∀ function ∈ t.targetFunctions,
        ∃ before after, Verdict t db before after ⟨function, .ok⟩) := by
  unfold test at h
  split at h
  · obtain ⟨hrun, -⟩ := Prod.mk.inj ((Choice.pure_eq_some _ _ _).mp h)
    cases hrun
  · rename_i hempty
    obtain ⟨results, halone, hnames, hreport⟩ :=
      (testLoop_iff t db db rfl t.targetFunctions [] rs rest report).mp ⟨db', h⟩
    rw [List.nil_append] at hreport
    subst hreport
    have hverdict := verdict_eachAlone t db rs rest results halone
    have hne : results.map FunctionResult.outcome ≠ [] := by
      intro hnil
      rw [List.map_eq_nil_iff] at hnil
      rw [hnil] at hnames
      exact hempty (by rw [← hnames]; rfl)
    have hall : (Summary.of (results.map FunctionResult.outcome)).allOk = true ↔
        ∀ result ∈ results, result.outcome = .ok := by
      rw [Summary.allOk_of, and_iff_right hne, List.forall_mem_map]
    refine ⟨hverdict, hnames, hall, ?_, ?_⟩
    · show (Summary.of (results.map FunctionResult.outcome)).anyOracleCrash = true ↔ _
      simp only [Summary.anyOracleCrash_of, List.mem_map, exists_exists_and_eq_and]
      rfl
    · intro hok function hfunction
      rw [← hnames] at hfunction
      obtain ⟨result, hresult, rfl⟩ := List.mem_map.mp hfunction
      have hown := hverdict.mem t result hresult
      rw [← hall.mp hok result hresult]
      exact hown

end

/- Two functions of the same module; the second emits a crash event. -/
def turnstileModule : MoveModuleId := ⟨ObjectID.ofByte 7, "turnstile"⟩

def callsJam (tx : Transaction) : Bool :=
  match tx.rest.kind with
  | .programmable ptb => ptb.commands.any fun command =>
    match command with
    | .moveCall call => call.function = "jam"
    | _ => false
  | .system => false

def turnstileEngine : Engine where
  inputObjects _ := .ok []
  gasStatus _ := .ok ()
  executeTransactionToEffects _ _ tx _ :=
    (⟨⟨[], [], [], [], List.nodup_nil⟩, true, "Success", [],
      ⟨SortedMap.empty, SortedMap.empty, 1, SortedMap.empty, empty_keyed, empty_keyed⟩,
      if callsJam tx then [⟨"oracle", "Crash", []⟩] else [], none⟩, [])
  owner _ := .immutable
  moveObjectInfo o := some ⟨o.id, .bool, .addressOwner (ObjectID.ofByte 9), o.version, []⟩
  isUpgradeCap _ := false
  digest _ := []
  serialize _ := .ok []
  digestForModulesAndDeps _ _ := []
  bcs _ := []
  bcsBytes := id

def turnstileRun : TestRun where
  engine := turnstileEngine
  fuzzState := FuzzState.ofModule
    ⟨turnstileModule, [⟨"pass", [], [], [], .public_⟩, ⟨"jam", [], [], [], .public_⟩], []⟩
  targetFunctions := [⟨turnstileModule, "pass"⟩, ⟨turnstileModule, "jam"⟩]
  objectMapping := IndexMap.empty
  typeArgs := IndexMap.empty
  crashLog _ := some [⟨some "reason", "stuck"⟩]
  lookups _ _ _ := []

/- A database with the gas coin 8. -/
def turnstileDb : CachedStore :=
  (CachedStore.new EmptyStore).commitSingleObject ⟨ObjectID.ofByte 8, 1, .move []⟩

def turnstileReport : TestRunReport :=
  .of [⟨⟨turnstileModule, "pass"⟩, .ok⟩,
    ⟨⟨turnstileModule, "jam"⟩, .oracleCrash (some "stuck")
      ⟨[], [.call ⟨ObjectID.ofByte 7, "turnstile", "jam", [], []⟩]⟩ none⟩]

theorem test_verdicts_turnstile :
    (∃ result ∈ turnstileReport.functions, Summary.isOracleCrash result.outcome = true) ∧
      EachVerdict turnstileRun turnstileDb [0, 0] turnstileReport.functions [] := by
  have hrun : ∃ db', test turnstileRun turnstileDb [0, 0] = some ((.ok turnstileReport, db'), []) :=
    ⟨_, rfl⟩
  obtain ⟨db', hrun⟩ := hrun
  have h := test_verdicts turnstileRun turnstileDb db' [0, 0] [] turnstileReport hrun
  exact ⟨h.2.2.2.1.mp (by decide), h.1⟩

end Movy.Fuzz
