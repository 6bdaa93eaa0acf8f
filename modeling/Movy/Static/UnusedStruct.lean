import Movy.Tracer.State

/-!
# Unused types (`movy-static-analysis/src/sui/unused_struct.rs`)

The analysis goes over the functions of a module and marks the definitions that
are in use: a struct is packed, or taken by value as a parameter; a variant of an
enum is packed. An instruction reaches the definition through up to two of the
module's tables, whose entries are positions in other tables. What is left
unmarked is reported.
-/

namespace Movy.Static

open Movy.Store (ObjectID)
open Movy.Tracer (Bytecode)

/-! ### Module tables -/

inductive SignatureToken where
  | bool
  | u8
  | u16
  | u32
  | u64
  | u128
  | u256
  | address
  | signer
  | vector (elem : SignatureToken)
  | datatype (handle : ℕ)
  | datatypeInstantiation (handle : ℕ) (args : List SignatureToken)
  | reference (inner : SignatureToken)
  | mutableReference (inner : SignatureToken)
  | typeParameter (idx : ℕ)

structure StructDefinition where
  structHandle : ℕ

structure EnumDefinition where
  enumHandle : ℕ

structure StructDefInstantiation where
  definition : ℕ

structure EnumDefInstantiation where
  definition : ℕ

structure VariantHandle where
  enumDef : ℕ

/- `enumDef` is a position in the table of the enum instantiations. -/
structure VariantInstantiationHandle where
  enumDef : ℕ

structure FunctionHandle where
  parameters : ℕ

structure FunctionDefinition where
  function : ℕ
  code : Option (List Bytecode)

structure CompiledModule where
  structDefs : List StructDefinition
  enumDefs : List EnumDefinition
  structInstantiations : List StructDefInstantiation
  enumInstantiations : List EnumDefInstantiation
  variantHandles : List VariantHandle
  variantInstantiationHandles : List VariantInstantiationHandle
  functionHandles : List FunctionHandle
  signatures : List (List SignatureToken)
  functionDefs : List FunctionDefinition

inductive DefinitionIndex where
  | struct (idx : ℕ)
  | enum (idx : ℕ)
  deriving DecidableEq

/-! ### The analysis -/

/- `struct_is_visited` and `enum_is_visited`. -/
structure Visited where
  structs : List Bool
  enums : List Bool

def markAt (visited : List Bool) (idx : ℕ) : Option (List Bool) :=
  if idx < visited.length then some (visited.set idx true) else none

def Visited.mark (v : Visited) : DefinitionIndex → Option Visited
  | .struct idx => (markAt v.structs idx).map fun structs => { v with structs }
  | .enum idx => (markAt v.enums idx).map fun enums => { v with enums }

namespace CompiledModule

/- The position that the analysis marks for an instruction, if it is one that packs;
the outer `none` is an index out of range. -/
def packIndex (m : CompiledModule) : Bytecode → Option (Option DefinitionIndex)
  | .pack idx => some (some (.struct idx))
  | .packGeneric idx => (m.structInstantiations[idx]?).map fun i => some (.struct i.definition)
  | .packVariant idx => (m.variantHandles[idx]?).map fun h => some (.enum h.enumDef)
  | .packVariantGeneric idx =>
    (m.variantInstantiationHandles[idx]?).map fun h => some (.enum h.enumDef)
  | _ => some none

/- The struct that the analysis marks for a parameter. -/
def parameterIndex (m : CompiledModule) : SignatureToken → Option DefinitionIndex
  | .datatype idx => (m.structDefs.findIdx? fun s => s.structHandle == idx).map .struct
  | _ => none

def visitParameter (m : CompiledModule) (v : Visited) (sig : SignatureToken) : Option Visited :=
  match m.parameterIndex sig with
  | some d => v.mark d
  | none => some v

def visitInstruction (m : CompiledModule) (v : Visited) (code : Bytecode) : Option Visited :=
  match m.packIndex code with
  | some (some d) => v.mark d
  | some none => some v
  | none => none

def visitFunction (m : CompiledModule) (v : Visited) (function : FunctionDefinition) :
    Option Visited :=
  (m.functionHandles[function.function]?).bind fun handle =>
    (m.signatures[handle.parameters]?).bind fun parameters =>
      (parameters.foldlM m.visitParameter v).bind fun v =>
        match function.code with
        | some codes => codes.foldlM m.visitInstruction v
        | none => some v

def visit (m : CompiledModule) : Option Visited :=
  m.functionDefs.foldlM m.visitFunction
    ⟨List.replicate m.structDefs.length false, List.replicate m.enumDefs.length false⟩

end CompiledModule

def unvisited (visited : List Bool) : List ℕ :=
  visited.zipIdx.filterMap fun e => if e.1 then none else some e.2

inductive Severity where
  | discussion
  | informational
  | minor
  | medium
  | major
  | critical
  deriving DecidableEq

/- The indices are filed under `indicesKey`. -/
structure OracleFinding where
  oracle : String
  severity : Severity
  package : ObjectID
  module : String
  indicesKey : String
  indices : List ℕ
  message : String

def finding (package : ObjectID) (module oracle indicesKey message : String) (indices : List ℕ) :
    List OracleFinding :=
  if indices.isEmpty then []
  else [⟨oracle, .informational, package, module, indicesKey, indices, message⟩]

def analyzeModule (package : ObjectID) (name : String) (m : CompiledModule) :
    Option (List OracleFinding) :=
  m.visit.map fun v =>
    finding package name "StaticUnusedStruct" "struct_indices"
        "Structs are defined but never used" (unvisited v.structs) ++
      finding package name "StaticUnusedEnum" "enum_indices"
        "Enums are defined but never used" (unvisited v.enums)

/- The modules of the target packages; one that does not deserialize is left out. -/
def analyze (packages : List (ObjectID × List (String × Option CompiledModule))) :
    Option (List OracleFinding) :=
  packages.foldlM (fun reports package =>
    package.2.foldlM (fun reports module =>
      match module.2 with
      | some m => (analyzeModule package.1 module.1 m).map (reports ++ ·)
      | none => some reports) reports) []

/-! ### What is in use -/

namespace CompiledModule

def Occurs (m : CompiledModule) (code : Bytecode) : Prop :=
  ∃ f ∈ m.functionDefs, ∃ codes, f.code = some codes ∧ code ∈ codes

def PacksStruct (m : CompiledModule) (s : ℕ) : Prop :=
  m.Occurs (.pack s) ∨ ∃ idx i, m.Occurs (.packGeneric idx) ∧
    m.structInstantiations[idx]? = some i ∧ i.definition = s

def TakesByValue (m : CompiledModule) (s : ℕ) : Prop :=
  ∃ f ∈ m.functionDefs, ∃ handle parameters d, m.functionHandles[f.function]? = some handle ∧
    m.signatures[handle.parameters]? = some parameters ∧ m.structDefs[s]? = some d ∧
    .datatype d.structHandle ∈ parameters

def PacksPlain (m : CompiledModule) (e : ℕ) : Prop :=
  ∃ idx h, m.Occurs (.packVariant idx) ∧ m.variantHandles[idx]? = some h ∧ h.enumDef = e

def PacksInstantiation (m : CompiledModule) (j : ℕ) : Prop :=
  ∃ idx h, m.Occurs (.packVariantGeneric idx) ∧
    m.variantInstantiationHandles[idx]? = some h ∧ h.enumDef = j

/- A variant of the enum is packed with type arguments. -/
def PacksGeneric (m : CompiledModule) (e : ℕ) : Prop :=
  ∃ j i, m.PacksInstantiation j ∧ m.enumInstantiations[j]? = some i ∧ i.definition = e

/- What the verifier checks of the tables. -/
structure Verified (m : CompiledModule) : Prop where
  handles_nodup : (m.structDefs.map StructDefinition.structHandle).Nodup
  struct_instantiations : ∀ i ∈ m.structInstantiations, i.definition < m.structDefs.length
  enum_instantiations : ∀ i ∈ m.enumInstantiations, i.definition < m.enumDefs.length
  variant_handles : ∀ h ∈ m.variantHandles, h.enumDef < m.enumDefs.length
  variant_instantiations : ∀ h ∈ m.variantInstantiationHandles,
    h.enumDef < m.enumInstantiations.length
  function_handles : ∀ f ∈ m.functionDefs, f.function < m.functionHandles.length
  parameters : ∀ h ∈ m.functionHandles, h.parameters < m.signatures.length
  pack : ∀ idx, m.Occurs (.pack idx) → idx < m.structDefs.length
  pack_generic : ∀ idx, m.Occurs (.packGeneric idx) → idx < m.structInstantiations.length
  pack_variant : ∀ idx, m.Occurs (.packVariant idx) → idx < m.variantHandles.length
  pack_variant_generic : ∀ idx, m.Occurs (.packVariantGeneric idx) →
    idx < m.variantInstantiationHandles.length

/- Apart from the enums that plain packs construct, the numbers of the enum
instantiations in use are the numbers of the enums they are instantiations of. -/
def LinesUp (m : CompiledModule) : Prop :=
  ∀ e, m.PacksPlain e ∨ m.PacksInstantiation e ↔ m.PacksPlain e ∨ m.PacksGeneric e

end CompiledModule

def Reported (reports : List OracleFinding) (oracle : String) (idx : ℕ) : Prop :=
  ∃ f ∈ reports, f.oracle = oracle ∧ idx ∈ f.indices

/- No index is out of range, and exactly the unused definitions are reported. -/
def Exact (m : CompiledModule) (reports : Option (List OracleFinding)) : Prop :=
  ∃ fs, reports = some fs ∧
    (∀ s, Reported fs "StaticUnusedStruct" s ↔
      s < m.structDefs.length ∧ ¬m.PacksStruct s ∧ ¬m.TakesByValue s) ∧
    ∀ e, Reported fs "StaticUnusedEnum" e ↔
      e < m.enumDefs.length ∧ ¬m.PacksPlain e ∧ ¬m.PacksGeneric e

/-! ### What is marked -/

def DefinitionIndex.InRange (m : CompiledModule) : DefinitionIndex → Prop
  | .struct idx => idx < m.structDefs.length
  | .enum idx => idx < m.enumDefs.length

def Visited.Has (v : Visited) : DefinitionIndex → Prop
  | .struct idx => v.structs[idx]? = some true
  | .enum idx => v.enums[idx]? = some true

structure Visited.Sized (m : CompiledModule) (v : Visited) : Prop where
  structs : v.structs.length = m.structDefs.length
  enums : v.enums.length = m.enumDefs.length

/- A part of the analysis marks the definitions in `P`, and fails if one of them is
out of range. -/
structure Marks (m : CompiledModule) (f : Visited → Option Visited) (P : DefinitionIndex → Prop) :
    Prop where
  succeeds : ∀ v, v.Sized m → (∀ d, P d → d.InRange m) →
    ∃ v', f v = some v' ∧ v'.Sized m ∧ ∀ d, v'.Has d ↔ v.Has d ∨ P d
  fails : ∀ v, v.Sized m → ∀ d, P d → ¬d.InRange m → f v = none

theorem markAt_of_lt (visited : List Bool) (idx : ℕ) (h : idx < visited.length) :
    ∃ visited', markAt visited idx = some visited' ∧ visited'.length = visited.length ∧
      ∀ i, visited'[i]? = some true ↔ visited[i]? = some true ∨ i = idx := by
  refine ⟨visited.set idx true, by simp only [markAt, h, if_true], List.length_set, ?_⟩
  intro i
  by_cases heq : idx = i
  · subst heq
    simp [h]
  · simp [heq, Ne.symm heq]

theorem markAt_of_ge (visited : List Bool) (idx : ℕ) (h : ¬idx < visited.length) :
    markAt visited idx = none := by
  simp only [markAt, h, if_false]

namespace Marks

variable (m : CompiledModule)

theorem mark (d : DefinitionIndex) : Marks m (fun v => v.mark d) (fun d' => d' = d) := by
  constructor
  · intro v hv hrange
    have hd := hrange d rfl
    cases d with
    | struct idx =>
      obtain ⟨structs, hmark, hlen, hget⟩ := markAt_of_lt v.structs idx (hv.structs ▸ hd)
      refine ⟨{ v with structs }, by simp [Visited.mark, hmark], ⟨hlen.trans hv.structs, hv.enums⟩, ?_⟩
      intro d'
      cases d' with
      | struct i => simpa [Visited.Has] using hget i
      | enum i => simp [Visited.Has]
    | enum idx =>
      obtain ⟨enums, hmark, hlen, hget⟩ := markAt_of_lt v.enums idx (hv.enums ▸ hd)
      refine ⟨{ v with enums }, by simp [Visited.mark, hmark], ⟨hv.structs, hlen.trans hv.enums⟩, ?_⟩
      intro d'
      cases d' with
      | struct i => simp [Visited.Has]
      | enum i => simpa [Visited.Has] using hget i
  · intro v hv d' hd' hout
    subst hd'
    cases d' with
    | struct idx =>
      have hge : ¬idx < v.structs.length := hv.structs ▸ hout
      simp only [Visited.mark, markAt_of_ge v.structs idx hge, Option.map_none]
    | enum idx =>
      have hge : ¬idx < v.enums.length := hv.enums ▸ hout
      simp only [Visited.mark, markAt_of_ge v.enums idx hge, Option.map_none]

theorem skip : Marks m some (fun _ => False) :=
  ⟨fun v hv _ => ⟨v, rfl, hv, fun _ => (or_false _).symm.to_iff⟩, fun _ _ _ h => h.elim⟩

variable {m}

theorem congr {f : Visited → Option Visited} {P Q : DefinitionIndex → Prop} (h : Marks m f P)
    (hPQ : ∀ d, P d ↔ Q d) : Marks m f Q := by
  have : P = Q := funext fun d => propext (hPQ d)
  exact this ▸ h

theorem bind {f g : Visited → Option Visited} {P Q : DefinitionIndex → Prop} (hf : Marks m f P)
    (hg : Marks m g Q) : Marks m (fun v => (f v).bind g) (fun d => P d ∨ Q d) := by
  constructor
  · intro v hv hrange
    obtain ⟨v', hfv, hv', hhas'⟩ := hf.succeeds v hv fun d hd => hrange d (Or.inl hd)
    obtain ⟨v'', hgv, hv'', hhas''⟩ := hg.succeeds v' hv' fun d hd => hrange d (Or.inr hd)
    refine ⟨v'', by rw [hfv, Option.bind_some, hgv], hv'', fun d => ?_⟩
    rw [hhas'', hhas', or_assoc]
  · intro v hv d hd hout
    by_cases hP : ∀ d, P d → d.InRange m
    · obtain ⟨v', hfv, hv', _⟩ := hf.succeeds v hv hP
      rcases hd with hd | hd
      · exact absurd (hP d hd) hout
      · rw [hfv, Option.bind_some, hg.fails v' hv' d hd hout]
    · push Not at hP
      obtain ⟨d', hd', hout'⟩ := hP
      rw [hf.fails v hv d' hd' hout', Option.bind_none]

theorem foldlM {α : Type} (step : Visited → α → Option Visited) (P : α → DefinitionIndex → Prop)
    (l : List α) (h : ∀ a ∈ l, Marks m (fun v => step v a) (P a)) :
    Marks m (fun v => l.foldlM step v) (fun d => ∃ a ∈ l, P a d) := by
  induction l with
  | nil => exact (skip m).congr fun d => by simp
  | cons a l ih =>
    have hall := (h a List.mem_cons_self).bind (ih fun b hb => h b (List.mem_cons_of_mem a hb))
    refine Marks.congr ?_ (fun d => (List.exists_mem_cons_iff _ a l).symm)
    exact hall

end Marks

namespace CompiledModule

/- The definitions that the analysis marks for the parameters, and for the code, of
a function. -/
def ParameterMarks (m : CompiledModule) (f : FunctionDefinition) (d : DefinitionIndex) : Prop :=
  ∃ handle parameters, m.functionHandles[f.function]? = some handle ∧
    m.signatures[handle.parameters]? = some parameters ∧
    ∃ sig ∈ parameters, m.parameterIndex sig = some d

def CodeMarks (m : CompiledModule) (f : FunctionDefinition) (d : DefinitionIndex) : Prop :=
  ∃ codes, f.code = some codes ∧ ∃ c ∈ codes, m.packIndex c = some (some d)

theorem marks_parameter (m : CompiledModule) (sig : SignatureToken) :
    Marks m (fun v => m.visitParameter v sig) (fun d => m.parameterIndex sig = some d) := by
  cases hsig : m.parameterIndex sig with
  | none =>
    simp only [visitParameter, hsig]
    exact (Marks.skip m).congr fun d => by simp
  | some d =>
    simp only [visitParameter, hsig]
    exact (Marks.mark m d).congr fun d' => by simp [eq_comm]

theorem marks_instruction (m : CompiledModule) (c : Bytecode) (hc : m.packIndex c ≠ none) :
    Marks m (fun v => m.visitInstruction v c) (fun d => m.packIndex c = some (some d)) := by
  cases hidx : m.packIndex c with
  | none => exact absurd hidx hc
  | some o =>
    cases o with
    | none =>
      simp only [visitInstruction, hidx]
      exact (Marks.skip m).congr fun d => by simp
    | some d =>
      simp only [visitInstruction, hidx]
      exact (Marks.mark m d).congr fun d' => by simp [eq_comm]

variable {m : CompiledModule}

/- In a verified module every instruction finds its entry. -/
theorem Verified.packIndex_ne_none (h : m.Verified) (c : Bytecode) (hc : m.Occurs c) :
    m.packIndex c ≠ none := by
  cases c with
  | packGeneric idx => simpa [packIndex] using h.pack_generic idx hc
  | packVariant idx => simpa [packIndex] using h.pack_variant idx hc
  | packVariantGeneric idx => simpa [packIndex] using h.pack_variant_generic idx hc
  | _ => simp [packIndex]

theorem Verified.marks_function (h : m.Verified) (f : FunctionDefinition)
    (hf : f ∈ m.functionDefs) :
    Marks m (fun v => m.visitFunction v f) (fun d => m.ParameterMarks f d ∨ m.CodeMarks f d) := by
  obtain ⟨handle, hhandle⟩ : ∃ handle, m.functionHandles[f.function]? = some handle :=
    ⟨_, List.getElem?_eq_getElem (h.function_handles f hf)⟩
  obtain ⟨parameters, hparams⟩ : ∃ parameters, m.signatures[handle.parameters]? = some parameters :=
    ⟨_, List.getElem?_eq_getElem (h.parameters handle (List.mem_of_getElem? hhandle))⟩
  have hfirst : Marks m (fun v => parameters.foldlM m.visitParameter v) (m.ParameterMarks f) := by
    refine (Marks.foldlM _ _ parameters fun sig _ => m.marks_parameter sig).congr fun d => ?_
    simp [ParameterMarks, hhandle, hparams]
  have hsecond : Marks m (fun v => match f.code with
      | some codes => codes.foldlM m.visitInstruction v
      | none => some v) (m.CodeMarks f) := by
    cases hcode : f.code with
    | none => exact (Marks.skip m).congr fun d => by simp [CodeMarks, hcode]
    | some codes =>
      refine (Marks.foldlM _ _ codes fun c hc => m.marks_instruction c ?_).congr fun d => ?_
      · exact h.packIndex_ne_none c ⟨f, hf, codes, hcode, hc⟩
      · simp [CodeMarks, hcode]
  simp only [visitFunction, hhandle, hparams, Option.bind_some]
  exact hfirst.bind hsecond

def Marked (m : CompiledModule) (d : DefinitionIndex) : Prop :=
  ∃ f ∈ m.functionDefs, m.ParameterMarks f d ∨ m.CodeMarks f d

theorem codeMarks_iff (m : CompiledModule) (d : DefinitionIndex) :
    (∃ f ∈ m.functionDefs, m.CodeMarks f d) ↔ ∃ c, m.Occurs c ∧ m.packIndex c = some (some d) := by
  constructor
  · rintro ⟨f, hf, codes, hcodes, c, hc, hidx⟩
    exact ⟨c, ⟨f, hf, codes, hcodes, hc⟩, hidx⟩
  · rintro ⟨c, ⟨f, hf, codes, hcodes, hc⟩, hidx⟩
    exact ⟨f, hf, codes, hcodes, c, hc, hidx⟩

theorem codeMarks_struct (m : CompiledModule) (s : ℕ) :
    (∃ c, m.Occurs c ∧ m.packIndex c = some (some (.struct s))) ↔ m.PacksStruct s := by
  constructor
  · rintro ⟨c, hc, hidx⟩
    cases c <;> simp [packIndex] at hidx
    case pack idx => exact Or.inl (hidx ▸ hc)
    case packGeneric idx =>
      obtain ⟨i, hi, rfl⟩ := hidx
      exact Or.inr ⟨idx, i, hc, hi, rfl⟩
  · rintro (hc | ⟨idx, i, hc, hi, rfl⟩)
    · exact ⟨_, hc, rfl⟩
    · exact ⟨_, hc, by simp [packIndex, hi]⟩

theorem codeMarks_enum (m : CompiledModule) (e : ℕ) :
    (∃ c, m.Occurs c ∧ m.packIndex c = some (some (.enum e))) ↔
      m.PacksPlain e ∨ m.PacksInstantiation e := by
  constructor
  · rintro ⟨c, hc, hidx⟩
    cases c <;> simp [packIndex] at hidx
    case packVariant idx =>
      obtain ⟨h, hh, rfl⟩ := hidx
      exact Or.inl ⟨idx, h, hc, hh, rfl⟩
    case packVariantGeneric idx =>
      obtain ⟨h, hh, rfl⟩ := hidx
      exact Or.inr ⟨idx, h, hc, hh, rfl⟩
  · rintro (⟨idx, h, hc, hh, rfl⟩ | ⟨idx, h, hc, hh, rfl⟩)
    · exact ⟨_, hc, by simp [packIndex, hh]⟩
    · exact ⟨_, hc, by simp [packIndex, hh]⟩

/- Handles are not shared, so the first struct with the handle is the only one. -/
theorem Verified.parameterIndex_struct (h : m.Verified) (handle s : ℕ) :
    m.parameterIndex (.datatype handle) = some (.struct s) ↔
      ∃ d, m.structDefs[s]? = some d ∧ d.structHandle = handle := by
  simp only [parameterIndex, Option.map_eq_some_iff, DefinitionIndex.struct.injEq, exists_eq_right,
    List.findIdx?_eq_some_iff_getElem, beq_iff_eq]
  constructor
  · rintro ⟨hlt, hs, _⟩
    exact ⟨_, List.getElem?_eq_getElem hlt, hs⟩
  · rintro ⟨d, hd, hs⟩
    obtain ⟨hlt, rfl⟩ := List.getElem?_eq_some_iff.mp hd
    refine ⟨hlt, hs, fun j hj heq => ?_⟩
    have hlt' : s < (m.structDefs.map StructDefinition.structHandle).length := by simpa using hlt
    have hsame : (m.structDefs.map StructDefinition.structHandle)[j] =
        (m.structDefs.map StructDefinition.structHandle)[s] := by simpa using heq.trans hs.symm
    have hjs : j = s := h.handles_nodup.getElem_inj_iff.mp hsame
    omega

theorem Verified.marked_struct (h : m.Verified) (s : ℕ) :
    m.Marked (.struct s) ↔ m.PacksStruct s ∨ m.TakesByValue s := by
  have hparam : (∃ f ∈ m.functionDefs, m.ParameterMarks f (.struct s)) ↔ m.TakesByValue s := by
    refine exists_congr fun f => and_congr_right fun _ => exists_congr fun handle => ?_
    constructor
    · rintro ⟨parameters, hh, hp, sig, hsig, hidx⟩
      cases sig with
      | datatype idx =>
        obtain ⟨d, hd, rfl⟩ := (h.parameterIndex_struct idx s).mp hidx
        exact ⟨parameters, d, hh, hp, hd, hsig⟩
      | _ => simp [parameterIndex] at hidx
    · rintro ⟨parameters, d, hh, hp, hd, hsig⟩
      exact ⟨parameters, hh, hp, _, hsig, (h.parameterIndex_struct _ s).mpr ⟨d, hd, rfl⟩⟩
  simp only [Marked, and_or_left, exists_or]
  rw [hparam, codeMarks_iff, codeMarks_struct, or_comm]

theorem marked_enum (m : CompiledModule) (e : ℕ) :
    m.Marked (.enum e) ↔ m.PacksPlain e ∨ m.PacksInstantiation e := by
  have hparam : ¬∃ f ∈ m.functionDefs, m.ParameterMarks f (.enum e) := by
    rintro ⟨f, _, handle, parameters, _, _, sig, _, hidx⟩
    cases sig <;> simp [parameterIndex] at hidx
  simp only [Marked, and_or_left, exists_or]
  rw [codeMarks_iff, codeMarks_enum, or_iff_right hparam]

theorem Verified.marks_visit (h : m.Verified) :
    Marks m (fun v => m.functionDefs.foldlM m.visitFunction v) m.Marked :=
  Marks.foldlM _ _ m.functionDefs fun f hf => h.marks_function f hf

theorem Verified.inRange_struct (h : m.Verified) (s : ℕ) (hs : m.PacksStruct s ∨ m.TakesByValue s) :
    s < m.structDefs.length := by
  rcases hs with (hs | ⟨idx, i, _, hi, rfl⟩) | ⟨f, _, handle, parameters, d, _, _, hd, _⟩
  · exact h.pack s hs
  · exact h.struct_instantiations i (List.mem_of_getElem? hi)
  · exact (List.getElem?_eq_some_iff.mp hd).1

theorem Verified.inRange_enum (h : m.Verified) (e : ℕ) (he : m.PacksPlain e ∨ m.PacksGeneric e) :
    e < m.enumDefs.length := by
  rcases he with ⟨idx, v, _, hv, rfl⟩ | ⟨j, i, _, hi, rfl⟩
  · exact h.variant_handles v (List.mem_of_getElem? hv)
  · exact h.enum_instantiations i (List.mem_of_getElem? hi)

end CompiledModule

/-! ### The reports -/

theorem mem_unvisited (visited : List Bool) (i : ℕ) :
    i ∈ unvisited visited ↔ i < visited.length ∧ visited[i]? ≠ some true := by
  simp only [unvisited, List.mem_filterMap, Prod.exists, List.mem_zipIdx_iff_getElem?,
    Option.ite_none_left_eq_some, Option.some.injEq, Bool.not_eq_true]
  constructor
  · rintro ⟨b, j, hb, rfl, rfl⟩
    exact ⟨(List.getElem?_eq_some_iff.mp hb).1, by simp [hb]⟩
  · rintro ⟨hlt, hne⟩
    refine ⟨visited[i], i, List.getElem?_eq_getElem hlt, ?_, rfl⟩
    simpa [List.getElem?_eq_getElem hlt] using hne

theorem reported_append (fs gs : List OracleFinding) (oracle : String) (idx : ℕ) :
    Reported (fs ++ gs) oracle idx ↔ Reported fs oracle idx ∨ Reported gs oracle idx := by
  simp only [Reported, List.mem_append, or_and_right, exists_or]

theorem reported_finding (package : ObjectID) (module oracle oracle' indicesKey message : String)
    (indices : List ℕ) (idx : ℕ) :
    Reported (finding package module oracle indicesKey message indices) oracle' idx ↔
      oracle = oracle' ∧ idx ∈ indices := by
  cases indices with
  | nil => simp [Reported, finding]
  | cons i rest => simp [Reported, finding]

theorem reported_analyzeModule (package : ObjectID) (name : String) (m : CompiledModule)
    (fs : List OracleFinding) (v : Visited) (hv : m.visit = some v)
    (hfs : analyzeModule package name m = some fs) (idx : ℕ) :
    (Reported fs "StaticUnusedStruct" idx ↔ idx ∈ unvisited v.structs) ∧
      (Reported fs "StaticUnusedEnum" idx ↔ idx ∈ unvisited v.enums) := by
  simp only [analyzeModule, hv, Option.map_some, Option.some.injEq] at hfs
  subst hfs
  simp [reported_append, reported_finding]

theorem visit_start (m : CompiledModule) (d : DefinitionIndex) :
    (⟨List.replicate m.structDefs.length false, List.replicate m.enumDefs.length false⟩ :
      Visited).Sized m ∧
    ¬(⟨List.replicate m.structDefs.length false, List.replicate m.enumDefs.length false⟩ :
      Visited).Has d := by
  refine ⟨⟨List.length_replicate, List.length_replicate⟩, ?_⟩
  cases d <;> simp [Visited.Has, List.getElem?_replicate]

/- A module that is analyzed: what is reported, in terms of the marks. -/
theorem visit_succeeds (m : CompiledModule) (h : m.Verified)
    (hrange : ∀ j, m.PacksInstantiation j → j < m.enumDefs.length) (package : ObjectID)
    (name : String) :
    ∃ fs, analyzeModule package name m = some fs ∧
      (∀ s, Reported fs "StaticUnusedStruct" s ↔
        s < m.structDefs.length ∧ ¬(m.PacksStruct s ∨ m.TakesByValue s)) ∧
      ∀ e, Reported fs "StaticUnusedEnum" e ↔
        e < m.enumDefs.length ∧ ¬(m.PacksPlain e ∨ m.PacksInstantiation e) := by
  have hstart := visit_start m
  have hmarks : ∀ d, m.Marked d → d.InRange m := by
    intro d hd
    cases d with
    | struct s => exact h.inRange_struct s ((h.marked_struct s).mp hd)
    | enum e =>
      rcases (m.marked_enum e).mp hd with he | he
      · exact h.inRange_enum e (Or.inl he)
      · exact hrange e he
  obtain ⟨v, hv, hsized, hhas⟩ := h.marks_visit.succeeds _ (hstart (.struct 0)).1 hmarks
  have hfs : analyzeModule package name m = some _ := congrArg (Option.map _) hv
  refine ⟨_, hfs, fun s => ?_, fun e => ?_⟩
  · rw [(reported_analyzeModule package name m _ v hv hfs s).1, mem_unvisited, hsized.structs,
      ← h.marked_struct s]
    have hs := hhas (.struct s)
    simp only [(hstart (.struct s)).2, false_or] at hs
    exact and_congr_right fun _ => not_congr hs
  · rw [(reported_analyzeModule package name m _ v hv hfs e).2, mem_unvisited, hsized.enums,
      ← m.marked_enum e]
    have he := hhas (.enum e)
    simp only [(hstart (.enum e)).2, false_or] at he
    exact and_congr_right fun _ => not_congr he

/- An instantiation whose number is no enum is an index out of range. -/
theorem visit_fails (m : CompiledModule) (h : m.Verified) (j : ℕ) (hj : m.PacksInstantiation j)
    (hout : ¬j < m.enumDefs.length) (package : ObjectID) (name : String) :
    analyzeModule package name m = none := by
  have hv : m.visit = none := h.marks_visit.fails _ (visit_start m (.enum j)).1 (.enum j)
    ((m.marked_enum j).mpr (Or.inr hj)) hout
  simp only [analyzeModule, hv, Option.map_none]

/- The analysis of a verified module is exact if and only if its enum instantiations in
use line up with the enums. -/
theorem analyzeModule_exact_iff (package : ObjectID) (name : String) (m : CompiledModule)
    (h : m.Verified) : Exact m (analyzeModule package name m) ↔ m.LinesUp := by
  constructor
  · intro hexact
    obtain ⟨fs, hfs, _, henums⟩ := hexact
    have hrange : ∀ j, m.PacksInstantiation j → j < m.enumDefs.length := by
      intro j hj
      by_contra hout
      rw [visit_fails m h j hj hout package name] at hfs
      exact absurd hfs (by simp)
    obtain ⟨fs', hfs', _, henums'⟩ := visit_succeeds m h hrange package name
    obtain rfl := Option.some.inj (hfs.symm.trans hfs')
    intro e
    by_cases hlt : e < m.enumDefs.length
    · have hsame := (henums' e).symm.trans (henums e)
      simp only [hlt, true_and, ← not_or] at hsame
      exact not_iff_not.mp hsame
    · constructor
      · rintro (he | he)
        · exact absurd (h.inRange_enum e (Or.inl he)) hlt
        · exact absurd (hrange e he) hlt
      · exact fun he => absurd (h.inRange_enum e he) hlt
  · intro hlines
    have hrange : ∀ j, m.PacksInstantiation j → j < m.enumDefs.length :=
      fun j hj => h.inRange_enum j ((hlines j).mp (Or.inr hj))
    obtain ⟨fs, hfs, hstructs, henums⟩ := visit_succeeds m h hrange package name
    refine ⟨fs, hfs, fun s => ?_, fun e => ?_⟩
    · rw [hstructs s, not_or]
    · rw [henums e, hlines e, not_or]

/-! ### Modules whose tables line up, and modules whose tables do not -/

/- One function packs a variant of the enum instantiation `j`. -/
def packingModule (enums : List EnumDefinition) (instantiations : List EnumDefInstantiation)
    (j : ℕ) : CompiledModule where
  structDefs := []
  enumDefs := enums
  structInstantiations := []
  enumInstantiations := instantiations
  variantHandles := []
  variantInstantiationHandles := [⟨j⟩]
  functionHandles := [⟨0⟩]
  signatures := [[]]
  functionDefs := [⟨0, some [.packVariantGeneric 0, .ret]⟩]

theorem packingModule_occurs (enums : List EnumDefinition)
    (instantiations : List EnumDefInstantiation) (j : ℕ) (c : Bytecode) :
    (packingModule enums instantiations j).Occurs c ↔ c = .packVariantGeneric 0 ∨ c = .ret := by
  simp [CompiledModule.Occurs, packingModule]

theorem packingModule_verified (enums : List EnumDefinition)
    (instantiations : List EnumDefInstantiation) (j : ℕ)
    (hdefs : ∀ i ∈ instantiations, i.definition < enums.length) (hj : j < instantiations.length) :
    (packingModule enums instantiations j).Verified := by
  constructor
  case enum_instantiations => exact hdefs
  case variant_instantiations => simpa [packingModule] using hj
  case pack_variant_generic =>
    simp only [packingModule_occurs]
    simp [packingModule]
  case pack | pack_generic | pack_variant => simp [packingModule_occurs]
  all_goals simp [packingModule]

theorem packingModule_packs (enums : List EnumDefinition)
    (instantiations : List EnumDefInstantiation) (j e : ℕ) :
    ((packingModule enums instantiations j).PacksInstantiation e ↔ j = e) ∧
      ¬(packingModule enums instantiations j).PacksPlain e ∧
      ((packingModule enums instantiations j).PacksGeneric e ↔
        ∃ i, instantiations[j]? = some i ∧ i.definition = e) := by
  have hinst : ∀ e, (packingModule enums instantiations j).PacksInstantiation e ↔ j = e := by
    intro e
    simp only [CompiledModule.PacksInstantiation, packingModule_occurs]
    simp [packingModule]
  refine ⟨hinst e, ?_, ?_⟩
  · simp [CompiledModule.PacksPlain, packingModule_occurs]
  · simp only [CompiledModule.PacksGeneric, hinst, exists_and_left, exists_eq_left']
    simp only [packingModule]

/- The first instantiation is one of the first enum. -/
theorem analyzeModule_exact_first :
    Exact (packingModule [⟨0⟩, ⟨1⟩] [⟨0⟩] 0)
      (analyzeModule (Movy.Store.ObjectID.ofByte 2) "m" (packingModule [⟨0⟩, ⟨1⟩] [⟨0⟩] 0)) := by
  refine (analyzeModule_exact_iff _ _ _ (packingModule_verified _ _ _ (by decide) (by decide))).mpr ?_
  intro e
  simp [packingModule_packs]

/- It is one of the second enum: the first one passes as used and the second one is
reported. With two instantiations of a single enum, the second one is out of range. -/
theorem analyzeModule_misses :
    (∃ f, analyzeModule (Movy.Store.ObjectID.ofByte 2) "m" (packingModule [⟨0⟩, ⟨1⟩] [⟨1⟩] 0) =
        some [f] ∧ f.oracle = "StaticUnusedEnum" ∧ f.indices = [1]) ∧
    (packingModule [⟨0⟩, ⟨1⟩] [⟨1⟩] 0).PacksGeneric 1 ∧
    ¬Exact (packingModule [⟨0⟩, ⟨1⟩] [⟨1⟩] 0)
      (analyzeModule (Movy.Store.ObjectID.ofByte 2) "m" (packingModule [⟨0⟩, ⟨1⟩] [⟨1⟩] 0)) ∧
    analyzeModule (Movy.Store.ObjectID.ofByte 2) "m" (packingModule [⟨0⟩] [⟨0⟩, ⟨0⟩] 1) = none := by
  have hpacks : (packingModule [⟨0⟩, ⟨1⟩] [⟨1⟩] 0).PacksGeneric 1 :=
    (packingModule_packs [⟨0⟩, ⟨1⟩] [⟨1⟩] 0 1).2.2.mpr ⟨⟨1⟩, rfl, rfl⟩
  refine ⟨⟨_, rfl, rfl, rfl⟩, hpacks, ?_, rfl⟩
  rintro ⟨fs, hfs, _, henums⟩
  obtain rfl := Option.some.inj hfs
  exact ((henums 1).mp ⟨_, List.mem_cons_self, rfl, List.mem_cons_self⟩).2.2 hpacks

end Movy.Static
