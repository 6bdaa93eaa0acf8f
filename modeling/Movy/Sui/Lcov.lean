import Movy.Lib.SortedMap
import Movy.Store.Object
import Mathlib.Data.Finset.Sort
import Mathlib.Data.String.Basic

/-!
# Line coverage (`movy-sui/src/lcov.rs`, `movy-replay/src/tracer/lcov.rs`)

A tracer collects the instructions that were executed. `LineCoverageMap` is built
from the compiled units and their source maps and renders the hits, for each source
file, as functions and lines.
-/

namespace Movy.Sui.Lcov

open Movy.Store (ObjectID)

structure ModuleId where
  address : ObjectID
  name : String
  deriving DecidableEq

structure FunctionLocation where
  module : ModuleId
  function : ℕ
  deriving DecidableEq

structure BytecodeLocation where
  module : ModuleId
  function : ℕ
  pc : ℕ
  deriving DecidableEq

def BytecodeLocation.functionLocation (loc : BytecodeLocation) : FunctionLocation :=
  ⟨loc.module, loc.function⟩

/-! ### Compiled units -/

/- `is_valid`, and the line that `start_position_opt` finds. -/
structure Loc where
  valid : Bool
  userLine : Option ℕ

/- Lookups that fail are `none`. -/
structure SourceMap where
  fromFilePath : Option String
  definitionLocations : ℕ → Option Loc
  codeLocations : ℕ → ℕ → Option Loc

/- `code` is the number of instructions, and `none` for a native function. -/
structure FunctionDefinition where
  name : String
  code : Option ℕ

/- A compiled unit with its source file and the package it was published as. A module
has no more than `2 ^ 16` functions, and a function no more instructions, so that the
casts of the indices keep them. -/
structure CompiledUnit where
  moduleName : String
  functionDefs : List FunctionDefinition
  sourceMap : SourceMap
  sourcePath : String
  packageId : ObjectID

def lineForLoc (sourceMap : SourceMap) (loc : Loc) : Option ℕ :=
  if !loc.valid || sourceMap.fromFilePath.isNone then none else loc.userLine

namespace CompiledUnit

def moduleId (unit : CompiledUnit) : ModuleId := ⟨unit.packageId, unit.moduleName⟩

def definitionLine (unit : CompiledUnit) (idx : ℕ) : Option ℕ :=
  (unit.sourceMap.definitionLocations idx).bind (lineForLoc unit.sourceMap)

def codeLine (unit : CompiledUnit) (idx pc : ℕ) : Option ℕ :=
  (unit.sourceMap.codeLocations idx pc).bind (lineForLoc unit.sourceMap)

end CompiledUnit

/-! ### The coverage map -/

structure FileCoverageMap where
  functions : SortedMap String ℕ
  lines : Finset ℕ

structure SourceLine where
  file : String
  line : ℕ
  deriving DecidableEq

structure FunctionSource where
  file : String
  name : String
  deriving DecidableEq

/- The two maps that are only read by key are functions. -/
structure LineCoverageMap where
  files : SortedMap String FileCoverageMap
  functionToSource : FunctionLocation → Option FunctionSource
  pcToLine : BytecodeLocation → Option SourceLine

/- The entry of the unit's file while `add_unit` goes over its functions. -/
structure Adding where
  file : FileCoverageMap
  functionToSource : FunctionLocation → Option FunctionSource
  pcToLine : BytecodeLocation → Option SourceLine

def FileCoverageMap.define (file : FileCoverageMap) (name : String) (line : ℕ) : FileCoverageMap :=
  ⟨if (file.functions.get? name).isSome then file.functions else file.functions.insert name line,
    insert line file.lines⟩

def addLocation (unit : CompiledUnit) (idx : ℕ) (st : Adding) (pc : ℕ) : Adding :=
  match unit.codeLine idx pc with
  | none => st
  | some line => { st with
      file := { st.file with lines := insert line st.file.lines }
      pcToLine := Function.update st.pcToLine ⟨unit.moduleId, idx, pc⟩
        (some ⟨unit.sourcePath, line⟩) }

def addFunction (unit : CompiledUnit) (st : Adding) (e : FunctionDefinition × ℕ) : Adding :=
  let st := { st with
    functionToSource := Function.update st.functionToSource ⟨unit.moduleId, e.2⟩
      (some ⟨unit.sourcePath, e.1.name⟩) }
  let st := match unit.definitionLine e.2 with
    | some line => { st with file := st.file.define e.1.name line }
    | none => st
  match e.1.code with
  | none => st
  | some length => (List.range length).foldl (addLocation unit e.2) st

namespace LineCoverageMap

def new : LineCoverageMap := ⟨SortedMap.empty, fun _ => none, fun _ => none⟩

def addUnit (self : LineCoverageMap) (unit : CompiledUnit) : LineCoverageMap :=
  let file := (self.files.get? unit.sourcePath).getD ⟨SortedMap.empty, ∅⟩
  let st := unit.functionDefs.zipIdx.foldl (addFunction unit)
    ⟨file, self.functionToSource, self.pcToLine⟩
  ⟨self.files.insert unit.sourcePath st.file, st.functionToSource, st.pcToLine⟩

def build (units : List CompiledUnit) : LineCoverageMap := units.foldl addUnit new

end LineCoverageMap

/-! ### Rendering -/

structure Hits where
  lines : String → Option (Finset ℕ)
  functions : String → Option (Finset String)

def Hits.add (map : LineCoverageMap) (hits : Hits) (hit : BytecodeLocation) : Hits :=
  let hits := match map.functionToSource hit.functionLocation with
    | some source => { hits with
        functions := Function.update hits.functions source.file
          (some (insert source.name ((hits.functions source.file).getD ∅))) }
    | none => hits
  match map.pcToLine hit with
  | some line => { hits with
      lines := Function.update hits.lines line.file
        (some (insert line.line ((hits.lines line.file).getD ∅))) }
  | none => hits

def Hits.collect (map : LineCoverageMap) (hits : List BytecodeLocation) : Hits :=
  hits.foldl (Hits.add map) ⟨fun _ => none, fun _ => none⟩

/- What is printed for one file: `SF`, `FN`, `FNDA`, `FNF`, `FNH`, `DA`, `LF` and `LH`. -/
structure Record where
  sf : String
  fn : List (ℕ × String)
  fnda : List (ℕ × String)
  fnf : ℕ
  fnh : ℕ
  da : List (ℕ × ℕ)
  lf : ℕ
  lh : ℕ

def record (hits : Hits) (path : String) (file : FileCoverageMap) : Record :=
  let lines := hits.lines path
  let hitFunctions := hits.functions path
  { sf := path
    fn := file.functions.entries.map fun e => (e.2, e.1)
    fnda := file.functions.entries.map fun e =>
      (if hitFunctions.any (fun hit => decide (e.1 ∈ hit)) then 1 else 0, e.1)
    fnf := file.functions.entries.length
    fnh := (hitFunctions.map Finset.card).getD 0
    da := (file.lines.sort (· ≤ ·)).map fun line =>
      (line, if lines.any (fun hit => decide (line ∈ hit)) then 1 else 0)
    lf := file.lines.card
    lh := (lines.map Finset.card).getD 0 }

def LineCoverageMap.records (map : LineCoverageMap) (hits : List BytecodeLocation) : List Record :=
  map.files.entries.map fun e => record (Hits.collect map hits) e.1 e.2

def Record.text (r : Record) : List String :=
  ["SF:" ++ r.sf] ++ r.fn.map (fun e => "FN:" ++ toString e.1 ++ "," ++ e.2) ++
    r.fnda.map (fun e => "FNDA:" ++ toString e.1 ++ "," ++ e.2) ++
    ["FNF:" ++ toString r.fnf, "FNH:" ++ toString r.fnh] ++
    r.da.map (fun e => "DA:" ++ toString e.1 ++ "," ++ toString e.2) ++
    ["LF:" ++ toString r.lf, "LH:" ++ toString r.lh, "end_of_record"]

def LineCoverageMap.renderLcov (map : LineCoverageMap) (hits : List BytecodeLocation) : String :=
  String.join (((map.records hits).flatMap Record.text).map (· ++ "\n"))

/-! ### The tracer -/

inductive TraceEvent where
  | openFrame (module : ModuleId) (binaryMemberIndex : ℕ)
  | closeFrame
  | beforeInstruction (pc : ℕ)

structure LineCoverageTracer where
  hits : List BytecodeLocation
  frames : List FunctionLocation

def LineCoverageTracer.step (self : LineCoverageTracer) : TraceEvent → LineCoverageTracer
  | .openFrame module idx => { self with frames := ⟨module, idx⟩ :: self.frames }
  | .closeFrame => { self with frames := self.frames.tail }
  | .beforeInstruction pc =>
    match self.frames.head? with
    | none => self
    | some current => { self with hits := self.hits.insert ⟨current.module, current.function, pc⟩ }

def LineCoverageTracer.run (self : LineCoverageTracer) (events : List TraceEvent) :
    LineCoverageTracer := events.foldl step self

/- The frames that are open after some events, the innermost one in front. -/
def openFrames : List TraceEvent → List FunctionLocation → List FunctionLocation
  | [], frames => frames
  | .openFrame module idx :: events, frames => openFrames events (⟨module, idx⟩ :: frames)
  | .closeFrame :: events, frames => openFrames events frames.tail
  | .beforeInstruction _ :: events, frames => openFrames events frames

/- The hits are the instructions that ran in the innermost frame. -/
theorem LineCoverageTracer.mem_hits (self : LineCoverageTracer) (events : List TraceEvent)
    (loc : BytecodeLocation) :
    loc ∈ (self.run events).hits ↔ loc ∈ self.hits ∨ ∃ before after,
      events = before ++ .beforeInstruction loc.pc :: after ∧
      (openFrames before self.frames).head? = some loc.functionLocation := by
  induction events generalizing self with
  | nil => simp [run]
  | cons e events ih =>
    -- the instruction is the first event, or one of the others
    have hsplit : (∃ before after, e :: events = before ++ .beforeInstruction loc.pc :: after ∧
        (openFrames before self.frames).head? = some loc.functionLocation) ↔
        (e = .beforeInstruction loc.pc ∧ self.frames.head? = some loc.functionLocation) ∨
        ∃ before after, events = before ++ .beforeInstruction loc.pc :: after ∧
          (openFrames (e :: before) self.frames).head? = some loc.functionLocation := by
      constructor
      · rintro ⟨before, after, heq, hhead⟩
        cases before with
        | nil =>
          obtain ⟨rfl, rfl⟩ := List.cons_eq_cons.mp heq
          exact Or.inl ⟨rfl, hhead⟩
        | cons b before =>
          obtain ⟨rfl, rfl⟩ := List.cons_eq_cons.mp heq
          exact Or.inr ⟨before, after, rfl, hhead⟩
      · rintro (⟨rfl, hhead⟩ | ⟨before, after, rfl, hhead⟩)
        · exact ⟨[], events, rfl, hhead⟩
        · exact ⟨e :: before, after, rfl, hhead⟩
    have hrun : self.run (e :: events) = (self.step e).run events := rfl
    rw [hrun, ih, hsplit]
    cases e with
    | openFrame module idx => simp [step, openFrames]
    | closeFrame => simp [step, openFrames]
    | beforeInstruction pc =>
      cases hframes : self.frames.head? with
      | none => simp [step, hframes, openFrames]
      | some current =>
        have hloc : loc = ⟨current.module, current.function, pc⟩ ↔
            pc = loc.pc ∧ current = loc.functionLocation := by
          obtain ⟨module, function, pc'⟩ := loc
          obtain ⟨module', function'⟩ := current
          simp only [BytecodeLocation.mk.injEq, BytecodeLocation.functionLocation,
            FunctionLocation.mk.injEq]
          constructor
          · rintro ⟨rfl, rfl, rfl⟩
            exact ⟨rfl, rfl, rfl⟩
          · rintro ⟨rfl, rfl, rfl⟩
            exact ⟨rfl, rfl, rfl⟩
        simp only [step, hframes, openFrames, List.mem_insert_iff, hloc,
          TraceEvent.beforeInstruction.injEq, Option.some.injEq]
        rw [or_assoc, or_left_comm]

/-! ### Functions and lines of the units -/

/- The name of a function, and the line of an instruction, in the functions `l` of a
unit. -/
def CompiledUnit.nameIn (unit : CompiledUnit) (l : List FunctionDefinition)
    (loc : FunctionLocation) : Option String :=
  if loc.module = unit.moduleId then (l[loc.function]?).map FunctionDefinition.name else none

def CompiledUnit.lineIn (unit : CompiledUnit) (l : List FunctionDefinition)
    (loc : BytecodeLocation) : Option ℕ :=
  if loc.module = unit.moduleId then
    (l[loc.function]?).bind fun fdef => fdef.code.bind fun length =>
      if loc.pc < length then unit.codeLine loc.function loc.pc else none
  else none

abbrev CompiledUnit.nameOf (unit : CompiledUnit) : FunctionLocation → Option String :=
  unit.nameIn unit.functionDefs

abbrev CompiledUnit.lineOf (unit : CompiledUnit) : BytecodeLocation → Option ℕ :=
  unit.lineIn unit.functionDefs

def Known (units : List CompiledUnit) (file : String) (loc : FunctionLocation) (name : String) :
    Prop :=
  ∃ u ∈ units, u.sourcePath = file ∧ u.nameOf loc = some name

/- The function has a valid source location, too. -/
def Declared (units : List CompiledUnit) (file : String) (loc : FunctionLocation)
    (name : String) : Prop :=
  ∃ u ∈ units, u.sourcePath = file ∧ u.nameOf loc = some name ∧
    (u.definitionLine loc.function).isSome

/- A unit maps the instruction to the line. -/
def MapsTo (units : List CompiledUnit) (loc : BytecodeLocation) (file : String) (line : ℕ) : Prop :=
  ∃ u ∈ units, u.sourcePath = file ∧ u.lineOf loc = some line

/- The file and the name of a function in the last unit that has it. -/
def lastSource (units : List CompiledUnit) (loc : FunctionLocation) : Option FunctionSource :=
  (units.filterMap fun u => (u.nameOf loc).map fun name => ⟨u.sourcePath, name⟩).getLast?

/- The line of an instruction in the last unit that maps it. -/
def lastLine (units : List CompiledUnit) (loc : BytecodeLocation) : Option SourceLine :=
  (units.filterMap fun u => (u.lineOf loc).map fun line => ⟨u.sourcePath, line⟩).getLast?

/-! ### What `add_unit` records -/

theorem addLocations (unit : CompiledUnit) (idx n : ℕ) (st : Adding) :
    ((List.range n).foldl (addLocation unit idx) st).functionToSource = st.functionToSource ∧
    ((List.range n).foldl (addLocation unit idx) st).file.functions = st.file.functions ∧
    (∀ line, line ∈ ((List.range n).foldl (addLocation unit idx) st).file.lines ↔
      line ∈ st.file.lines ∨ ∃ pc < n, unit.codeLine idx pc = some line) ∧
    ∀ loc, ((List.range n).foldl (addLocation unit idx) st).pcToLine loc =
      ((if loc.module = unit.moduleId ∧ loc.function = idx ∧ loc.pc < n then
        unit.codeLine idx loc.pc else none).map fun line => ⟨unit.sourcePath, line⟩).or
        (st.pcToLine loc) := by
  induction n with
  | zero => simp
  | succ n ih =>
    obtain ⟨hsource, hfunctions, hlines, hpc⟩ := ih
    simp only [List.range_succ, List.foldl_append, List.foldl_cons, List.foldl_nil]
    cases hline : unit.codeLine idx n with
    | none =>
      simp only [addLocation, hline]
      refine ⟨hsource, hfunctions, fun line => ?_, fun loc => ?_⟩
      · rw [hlines]
        refine or_congr_right ⟨fun ⟨pc, hlt, h⟩ => ⟨pc, by omega, h⟩, fun ⟨pc, hlt, h⟩ => ?_⟩
        rcases Nat.lt_succ_iff_lt_or_eq.mp hlt with hlt | rfl
        · exact ⟨pc, hlt, h⟩
        · exact absurd (hline.symm.trans h) (by simp)
      · rw [hpc]
        by_cases hn : loc.pc = n
        · simp [hn, hline]
        · have hlt : loc.pc < n + 1 ↔ loc.pc < n := by omega
          simp only [hlt]
    | some line =>
      simp only [addLocation, hline]
      refine ⟨hsource, hfunctions, fun line' => ?_, fun loc => ?_⟩
      · rw [Finset.mem_insert, hlines]
        constructor
        · rintro (rfl | h | ⟨pc, hlt, h⟩)
          · exact Or.inr ⟨n, Nat.lt_succ_self n, hline⟩
          · exact Or.inl h
          · exact Or.inr ⟨pc, by omega, h⟩
        · rintro (h | ⟨pc, hlt, h⟩)
          · exact Or.inr (Or.inl h)
          · rcases Nat.lt_succ_iff_lt_or_eq.mp hlt with hlt | rfl
            · exact Or.inr (Or.inr ⟨pc, hlt, h⟩)
            · exact Or.inl (Option.some.inj (h.symm.trans hline))
      · by_cases hloc : loc = ⟨unit.moduleId, idx, n⟩
        · subst hloc
          simp [hline]
        · rw [Function.update_of_ne hloc, hpc]
          have hlt : (loc.module = unit.moduleId ∧ loc.function = idx ∧ loc.pc < n + 1) ↔
              (loc.module = unit.moduleId ∧ loc.function = idx ∧ loc.pc < n) := by
            refine and_congr_right fun hm => and_congr_right fun hf => ?_
            have hne : loc.pc ≠ n := fun h => hloc (by rw [← hm, ← hf, ← h])
            omega
          simp only [hlt]

theorem FileCoverageMap.define_functions (file : FileCoverageMap) (name n : String) (line : ℕ) :
    ((file.define name line).functions.get? n).isSome ↔
      (file.functions.get? n).isSome ∨ n = name := by
  simp only [define]
  split_ifs with h
  · exact ⟨Or.inl, fun hn => hn.elim id fun hn => hn ▸ h⟩
  · rw [SortedMap.get?_insert]
    split_ifs with hn
    · simp [hn]
    · simp [hn]

/- What a part of `add_unit` adds to the entry of the file and to the maps. -/
structure Adds (unit : CompiledUnit) (name : FunctionLocation → Option String)
    (listed : String → Prop) (line : BytecodeLocation → Option ℕ) (st st' : Adding) : Prop where
  source : ∀ loc, st'.functionToSource loc =
    ((name loc).map fun n => ⟨unit.sourcePath, n⟩).or (st.functionToSource loc)
  functions : ∀ n, (st'.file.functions.get? n).isSome ↔
    (st.file.functions.get? n).isSome ∨ listed n
  keeps : ∀ l ∈ st.file.lines, l ∈ st'.file.lines
  lines : ∀ loc l, line loc = some l → l ∈ st'.file.lines
  pc : ∀ loc, st'.pcToLine loc =
    ((line loc).map fun l => ⟨unit.sourcePath, l⟩).or (st.pcToLine loc)

theorem addFunction_adds (unit : CompiledUnit) (st : Adding) (fdef : FunctionDefinition)
    (idx : ℕ) :
    Adds unit (fun loc => if loc = ⟨unit.moduleId, idx⟩ then some fdef.name else none)
      (fun n => n = fdef.name ∧ (unit.definitionLine idx).isSome)
      (fun loc => if loc.module = unit.moduleId ∧ loc.function = idx then
        fdef.code.bind fun length =>
          if loc.pc < length then unit.codeLine idx loc.pc else none
        else none)
      st (addFunction unit st (fdef, idx)) := by
  -- the state after the definition
  obtain ⟨st₁, hst₁, hsource, hpc, hfunctions, hlines⟩ : ∃ st₁ : Adding,
      addFunction unit st (fdef, idx) = (match fdef.code with
        | none => st₁
        | some length => (List.range length).foldl (addLocation unit idx) st₁) ∧
      (∀ loc, st₁.functionToSource loc =
        ((if loc = ⟨unit.moduleId, idx⟩ then some fdef.name else none).map fun n =>
          (⟨unit.sourcePath, n⟩ : FunctionSource)).or (st.functionToSource loc)) ∧
      st₁.pcToLine = st.pcToLine ∧
      (∀ n, (st₁.file.functions.get? n).isSome ↔
        (st.file.functions.get? n).isSome ∨ n = fdef.name ∧ (unit.definitionLine idx).isSome) ∧
      ∀ l ∈ st.file.lines, l ∈ st₁.file.lines := by
    have hupdate : ∀ loc, Function.update st.functionToSource ⟨unit.moduleId, idx⟩
        (some ⟨unit.sourcePath, fdef.name⟩) loc =
        ((if loc = ⟨unit.moduleId, idx⟩ then some fdef.name else none).map fun n =>
          (⟨unit.sourcePath, n⟩ : FunctionSource)).or (st.functionToSource loc) := by
      intro loc
      simp only [Function.update_apply]
      split_ifs <;> simp
    cases hline : unit.definitionLine idx with
    | none =>
      exact ⟨⟨st.file, _, st.pcToLine⟩, by simp only [addFunction, hline]; rfl, hupdate, rfl,
        fun n => by simp, fun _ h => h⟩
    | some line =>
      refine ⟨⟨st.file.define fdef.name line, _, st.pcToLine⟩,
        by simp only [addFunction, hline]; rfl, hupdate, rfl, fun n => ?_, fun l hl => ?_⟩
      · simpa using FileCoverageMap.define_functions st.file fdef.name n line
      · exact Finset.mem_insert_of_mem hl
  rw [hst₁]
  cases hcode : fdef.code with
  | none => exact ⟨hsource, hfunctions, hlines, by simp, fun loc => by simp [hpc]⟩
  | some length =>
    obtain ⟨hsource', hfunctions', hlines', hpc'⟩ := addLocations unit idx length st₁
    refine ⟨fun loc => by rw [hsource', hsource], fun n => by rw [hfunctions', hfunctions],
      fun l hl => (hlines' l).mpr (Or.inl (hlines l hl)), fun loc l hl => ?_, fun loc => ?_⟩
    · simp only [Option.bind_some] at hl
      split_ifs at hl with hloc hlt
      exact (hlines' l).mpr (Or.inr ⟨loc.pc, hlt, hl⟩)
    · rw [hpc', hpc]
      simp only [Option.bind_some, ← ite_and, and_assoc]

theorem Adds.trans {unit : CompiledUnit} {name name' : FunctionLocation → Option String}
    {listed listed' : String → Prop} {line line' : BytecodeLocation → Option ℕ}
    {a b c : Adding} (h : Adds unit name listed line a b) (h' : Adds unit name' listed' line' b c) :
    Adds unit (fun loc => (name' loc).or (name loc)) (fun n => listed n ∨ listed' n)
      (fun loc => (line' loc).or (line loc)) a c := by
  constructor
  · intro loc
    rw [h'.source, h.source]
    cases name' loc <;> simp
  · intro n
    rw [h'.functions, h.functions, or_assoc]
  · exact fun l hl => h'.keeps l (h.keeps l hl)
  · intro loc l hl
    cases hline : line' loc with
    | none =>
      rw [hline, Option.none_or] at hl
      exact h'.keeps l (h.lines loc l hl)
    | some l' =>
      rw [hline, Option.some_or] at hl
      exact h'.lines loc l (hline.trans hl)
  · intro loc
    rw [h'.pc, h.pc]
    cases line' loc <;> simp

theorem getElem?_concat_ne {α : Type} (l : List α) (a : α) (i : ℕ) (h : i ≠ l.length) :
    (l ++ [a])[i]? = l[i]? := by
  by_cases hlt : i < l.length
  · rw [List.getElem?_append_left hlt]
  · have hlen : (l ++ [a]).length ≤ i := by
      rw [List.length_append, List.length_singleton]
      omega
    rw [List.getElem?_eq_none hlen, List.getElem?_eq_none (Nat.le_of_not_lt hlt)]

theorem nameIn_append (unit : CompiledUnit) (l : List FunctionDefinition)
    (fdef : FunctionDefinition) (loc : FunctionLocation) :
    unit.nameIn (l ++ [fdef]) loc =
      (if loc = ⟨unit.moduleId, l.length⟩ then some fdef.name else none).or
        (unit.nameIn l loc) := by
  obtain ⟨module, function⟩ := loc
  simp only [CompiledUnit.nameIn, FunctionLocation.mk.injEq]
  by_cases hm : module = unit.moduleId
  · by_cases hf : function = l.length
    · simp [hm, hf]
    · simp only [hm, hf, and_false, if_false, if_true, Option.none_or,
        getElem?_concat_ne l fdef _ hf]
  · simp [hm]

theorem lineIn_append (unit : CompiledUnit) (l : List FunctionDefinition)
    (fdef : FunctionDefinition) (loc : BytecodeLocation) :
    unit.lineIn (l ++ [fdef]) loc =
      (if loc.module = unit.moduleId ∧ loc.function = l.length then
        fdef.code.bind fun length =>
          if loc.pc < length then unit.codeLine l.length loc.pc else none
        else none).or (unit.lineIn l loc) := by
  obtain ⟨module, function, pc⟩ := loc
  simp only [CompiledUnit.lineIn]
  by_cases hm : module = unit.moduleId
  · by_cases hf : function = l.length
    · simp [hm, hf]
    · simp only [hm, hf, and_false, if_false, if_true, Option.none_or,
        getElem?_concat_ne l fdef _ hf]
  · simp [hm]

theorem addFunctions_adds (unit : CompiledUnit) (l : List FunctionDefinition) (st : Adding) :
    Adds unit (unit.nameIn l)
      (fun n => ∃ (idx : ℕ) (fdef : FunctionDefinition), l[idx]? = some fdef ∧ fdef.name = n ∧
        (unit.definitionLine idx).isSome)
      (unit.lineIn l) st (l.zipIdx.foldl (addFunction unit) st) := by
  induction l using List.reverseRecOn with
  | nil => constructor <;> simp [CompiledUnit.nameIn, CompiledUnit.lineIn]
  | append_singleton l fdef ih =>
    have hall := ih.trans (addFunction_adds unit _ fdef l.length)
    have hname : unit.nameIn (l ++ [fdef]) = _ := funext (nameIn_append unit l fdef)
    have hline : unit.lineIn (l ++ [fdef]) = _ := funext (lineIn_append unit l fdef)
    rw [hname, hline]
    simp only [List.zipIdx_append, List.zipIdx_singleton, List.foldl_append, List.foldl_cons,
      List.foldl_nil, Nat.zero_add]
    refine ⟨hall.source, fun n => ?_, hall.keeps, fun loc l hl => ?_, fun loc => ?_⟩
    · rw [hall.functions]
      refine or_congr_right ⟨?_, ?_⟩
      · rintro (⟨idx, f, hf, hn, hsome⟩ | ⟨hn, hsome⟩)
        · have hlt := (List.getElem?_eq_some_iff.mp hf).1
          exact ⟨idx, f, by rw [List.getElem?_append_left hlt, hf], hn, hsome⟩
        · exact ⟨l.length, fdef, by simp, hn.symm, hsome⟩
      · rintro ⟨idx, f, hf, hn, hsome⟩
        by_cases hidx : idx = l.length
        · subst hidx
          rw [List.getElem?_concat_length, Option.some.injEq] at hf
          exact Or.inr ⟨hf ▸ hn.symm, hsome⟩
        · rw [getElem?_concat_ne l fdef idx hidx] at hf
          exact Or.inl ⟨idx, f, hf, hn, hsome⟩
    · exact hall.lines loc l (by simpa using hl)
    · exact hall.pc loc

theorem exists_nameOf (unit : CompiledUnit) (n : String) :
    (∃ (idx : ℕ) (fdef : FunctionDefinition), unit.functionDefs[idx]? = some fdef ∧
      fdef.name = n ∧ (unit.definitionLine idx).isSome) ↔
      ∃ loc, unit.nameOf loc = some n ∧ (unit.definitionLine loc.function).isSome := by
  constructor
  · rintro ⟨idx, fdef, hf, rfl, hsome⟩
    exact ⟨⟨unit.moduleId, idx⟩, by simp [CompiledUnit.nameIn, hf], hsome⟩
  · rintro ⟨loc, hname, hsome⟩
    simp only [CompiledUnit.nameOf, CompiledUnit.nameIn] at hname
    split_ifs at hname
    obtain ⟨fdef, hf, hn⟩ := Option.map_eq_some_iff.mp hname
    exact ⟨loc.function, fdef, hf, hn, hsome⟩

theorem lastSource_append (units : List CompiledUnit) (u : CompiledUnit) (loc : FunctionLocation) :
    lastSource (units ++ [u]) loc =
      ((u.nameOf loc).map fun n => ⟨u.sourcePath, n⟩).or (lastSource units loc) := by
  simp only [lastSource, List.filterMap_append]
  cases hname : u.nameOf loc with
  | none => simp [hname]
  | some n => simp [hname]

theorem lastLine_append (units : List CompiledUnit) (u : CompiledUnit) (loc : BytecodeLocation) :
    lastLine (units ++ [u]) loc =
      ((u.lineOf loc).map fun l => ⟨u.sourcePath, l⟩).or (lastLine units loc) := by
  simp only [lastLine, List.filterMap_append]
  cases hline : u.lineOf loc with
  | none => simp [hline]
  | some l => simp [hline]

/- What a map built from the units holds. -/
structure Describes (units : List CompiledUnit) (map : LineCoverageMap) : Prop where
  source : ∀ loc, map.functionToSource loc = lastSource units loc
  pc : ∀ loc, map.pcToLine loc = lastLine units loc
  files : ∀ path, (map.files.get? path).isSome ↔ ∃ u ∈ units, u.sourcePath = path
  functions : ∀ path file, map.files.get? path = some file → ∀ n,
    (file.functions.get? n).isSome ↔ ∃ loc, Declared units path loc n
  lines : ∀ path file, map.files.get? path = some file → ∀ loc line,
    MapsTo units loc path line → line ∈ file.lines

theorem Describes.addUnit {units : List CompiledUnit} {map : LineCoverageMap}
    (h : Describes units map) (u : CompiledUnit) : Describes (units ++ [u]) (map.addUnit u) := by
  have hadds := addFunctions_adds u u.functionDefs
    ⟨(map.files.get? u.sourcePath).getD ⟨SortedMap.empty, ∅⟩, map.functionToSource, map.pcToLine⟩
  have hget : ∀ path, (map.addUnit u).files.get? path =
      if path = u.sourcePath then some (u.functionDefs.zipIdx.foldl (addFunction u)
        ⟨(map.files.get? u.sourcePath).getD ⟨SortedMap.empty, ∅⟩, map.functionToSource,
          map.pcToLine⟩).file
      else map.files.get? path := fun path => SortedMap.get?_insert _ _ _ _
  constructor
  · intro loc
    rw [lastSource_append, ← h.source]
    exact hadds.source loc
  · intro loc
    rw [lastLine_append, ← h.pc]
    exact hadds.pc loc
  · intro path
    rw [hget]
    simp only [List.mem_append, List.mem_singleton, or_and_right, exists_or, exists_eq_left,
      ← h.files]
    split_ifs with hpath
    · simp [hpath]
    · simp [Ne.symm hpath]
  · intro path file hfile n
    rw [hget] at hfile
    have hsplit : (∃ loc, Declared (units ++ [u]) path loc n) ↔ (∃ loc, Declared units path loc n) ∨
        u.sourcePath = path ∧ ∃ loc, u.nameOf loc = some n ∧
          (u.definitionLine loc.function).isSome := by
      simp only [Declared, List.mem_append, List.mem_singleton, or_and_right, exists_or,
        exists_eq_left, exists_and_left]
    rw [hsplit]
    split_ifs at hfile with hpath
    · obtain rfl := Option.some.inj hfile
      subst hpath
      rw [hadds.functions, exists_nameOf]
      simp only [true_and]
      refine or_congr_left ?_
      cases hold : map.files.get? u.sourcePath with
      | none =>
        refine iff_of_false (by simp) fun hloc => ?_
        obtain ⟨loc, u', hu', hpath', _⟩ := hloc
        exact absurd ((h.files u.sourcePath).mpr ⟨u', hu', hpath'⟩) (by simp [hold])
      | some old => exact h.functions u.sourcePath old hold n
    · rw [h.functions path file hfile]
      simp [Ne.symm hpath]
  · intro path file hfile loc line hmaps
    rw [hget] at hfile
    obtain ⟨u', hu', hpath', hline⟩ := hmaps
    split_ifs at hfile with hpath
    · obtain rfl := Option.some.inj hfile
      subst hpath
      rcases List.mem_append.mp hu' with hu' | hu'
      · refine hadds.keeps line ?_
        obtain ⟨old, hold⟩ := Option.isSome_iff_exists.mp ((h.files u.sourcePath).mpr ⟨u', hu', hpath'⟩)
        simp only [hold, Option.getD_some]
        exact h.lines u.sourcePath old hold loc line ⟨u', hu', hpath', hline⟩
      · obtain rfl := List.mem_singleton.mp hu'
        exact hadds.lines loc line hline
    · rcases List.mem_append.mp hu' with hu' | hu'
      · exact h.lines path file hfile loc line ⟨u', hu', hpath', hline⟩
      · obtain rfl := List.mem_singleton.mp hu'
        exact absurd hpath'.symm hpath

theorem describes_build (units : List CompiledUnit) :
    Describes units (LineCoverageMap.build units) := by
  induction units using List.reverseRecOn with
  | nil =>
    constructor
    · exact fun loc => rfl
    · exact fun loc => rfl
    · intro path
      simp [LineCoverageMap.build, LineCoverageMap.new]
    · exact fun path file hfile => absurd hfile (by simp [LineCoverageMap.build, LineCoverageMap.new])
    · exact fun path file hfile => absurd hfile (by simp [LineCoverageMap.build, LineCoverageMap.new])
  | append_singleton units u ih =>
    have hbuild : LineCoverageMap.build (units ++ [u]) = (LineCoverageMap.build units).addUnit u := by
      simp [LineCoverageMap.build]
    rw [hbuild]
    exact ih.addUnit u

/-! ### What is rendered -/

def Hits.lineSet (hits : Hits) (path : String) : Finset ℕ := (hits.lines path).getD ∅

def Hits.functionSet (hits : Hits) (path : String) : Finset String := (hits.functions path).getD ∅

theorem Hits.add_sets (map : LineCoverageMap) (hits : Hits) (hit : BytecodeLocation)
    (path : String) :
    (∀ n, n ∈ (hits.add map hit).functionSet path ↔
      n ∈ hits.functionSet path ∨ map.functionToSource hit.functionLocation = some ⟨path, n⟩) ∧
    ∀ l, l ∈ (hits.add map hit).lineSet path ↔
      l ∈ hits.lineSet path ∨ map.pcToLine hit = some ⟨path, l⟩ := by
  constructor
  · intro n
    have hline : ∀ hits' : Hits, (match map.pcToLine hit with
        | some line => { hits' with
            lines := Function.update hits'.lines line.file
              (some (insert line.line ((hits'.lines line.file).getD ∅))) }
        | none => hits').functions = hits'.functions := by
      intro hits'
      cases map.pcToLine hit <;> rfl
    simp only [functionSet, add, hline]
    cases hsource : map.functionToSource hit.functionLocation with
    | none => simp
    | some source =>
      obtain ⟨file, name⟩ := source
      by_cases hfile : path = file
      · subst hfile
        simp [eq_comm, or_comm]
      · simp [Function.update_of_ne hfile, Ne.symm hfile]
  · intro l
    have hfun : (match map.functionToSource hit.functionLocation with
        | some source => { hits with
            functions := Function.update hits.functions source.file
              (some (insert source.name ((hits.functions source.file).getD ∅))) }
        | none => hits).lines = hits.lines := by
      cases map.functionToSource hit.functionLocation <;> rfl
    simp only [lineSet, add]
    cases hsource : map.pcToLine hit with
    | none => simp [hfun]
    | some line =>
      obtain ⟨file, line⟩ := line
      simp only [hfun]
      by_cases hfile : path = file
      · subst hfile
        simp [eq_comm, or_comm]
      · simp [Function.update_of_ne hfile, Ne.symm hfile]

theorem Hits.collect_sets (map : LineCoverageMap) (hits : List BytecodeLocation) (path : String) :
    (∀ n, n ∈ (collect map hits).functionSet path ↔
      ∃ h ∈ hits, map.functionToSource h.functionLocation = some ⟨path, n⟩) ∧
    ∀ l, l ∈ (collect map hits).lineSet path ↔ ∃ h ∈ hits, map.pcToLine h = some ⟨path, l⟩ := by
  induction hits using List.reverseRecOn with
  | nil => simp [collect, functionSet, lineSet]
  | append_singleton hits h ih =>
    have hstep : collect map (hits ++ [h]) = (collect map hits).add map h := by simp [collect]
    obtain ⟨hfun, hline⟩ := Hits.add_sets map (collect map hits) h path
    rw [hstep]
    refine ⟨fun n => ?_, fun l => ?_⟩
    · simp only [hfun, ih.1, List.mem_append, List.mem_singleton, or_and_right, exists_or,
        exists_eq_left]
    · simp only [hline, ih.2, List.mem_append, List.mem_singleton, or_and_right, exists_or,
        exists_eq_left]

theorem any_mem_iff {α : Type} [DecidableEq α] (s : Option (Finset α)) (a : α) :
    s.any (fun hit => decide (a ∈ hit)) = true ↔ a ∈ s.getD ∅ := by
  cases s <;> simp

/- The counts of a record are read off the two sets. -/
theorem record_counts (hits : Hits) (path : String) (file : FileCoverageMap) :
    (record hits path file).fnda = file.functions.entries.map (fun e =>
        (if e.1 ∈ hits.functionSet path then 1 else 0, e.1)) ∧
      (record hits path file).da = (file.lines.sort (· ≤ ·)).map (fun line =>
        (line, if line ∈ hits.lineSet path then 1 else 0)) ∧
      (record hits path file).fnh = (hits.functionSet path).card ∧
      (record hits path file).lh = (hits.lineSet path).card := by
  simp only [record, Hits.functionSet, Hits.lineSet]
  refine ⟨?_, ?_, ?_, ?_⟩
  · refine List.map_congr_left fun e _ => ?_
    exact congrArg (·, e.1) (if_congr (any_mem_iff (hits.functions path) e.1) rfl rfl)
  · refine List.map_congr_left fun line _ => ?_
    exact congrArg (line, ·) (if_congr (any_mem_iff (hits.lines path) line) rfl rfl)
  · cases hits.functions path <;> simp
  · cases hits.lines path <;> simp

theorem mem_records (map : LineCoverageMap) (hits : List BytecodeLocation) (r : Record) :
    r ∈ map.records hits ↔ ∃ path file, map.files.get? path = some file ∧
      r = record (Hits.collect map hits) path file := by
  simp only [LineCoverageMap.records, List.mem_map, Prod.exists, SortedMap.mem_entries]
  exact exists_congr fun path => exists_congr fun file => and_congr_right fun _ => eq_comm

end Movy.Sui.Lcov
