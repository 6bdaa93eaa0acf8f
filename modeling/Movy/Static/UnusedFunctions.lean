import Mathlib.Data.List.ReduceOption
import Movy.Analysis.ModuleCalls

/-!
# Unused functions (`movy-static-analysis/src/sui/unused_private_fun.rs`)

The analysis collects the private functions of a module and the friend functions of
all modules of a package, and takes out every function that some instruction calls.
The call graph is made from the same instructions by another way; the functions that
are left are those without an edge to them.
-/

namespace Movy.Static.UnusedFunctions

open Movy.Types Movy.Bytecode
open Movy.Store (ObjectID)
open Movy.Fuzz (FunctionIdent MoveFunctionVisibility MoveFunctionAbi)
open Movy.Analysis.CallGraph (MoveFunctionCall)

/-! ### The analysis -/

abbrev FunctionSet := SortedMap FunctionIdent Unit

def toSet (functions : List FunctionIdent) : FunctionSet :=
  functions.foldl (fun set f => set.insert f ()) SortedMap.empty

section

variable (module : Bytecode.CompiledModule)

/- A function of the visibility that is no entry function, unless it has the name. -/
def candidate (vis : MoveFunctionVisibility) (except : Option String)
    (f : Bytecode.FunctionDefinition) : Option (Option FunctionIdent) :=
  if f.visibility = vis ∧ f.isEntry = false then do
    let handle ← functionHandleAt module f.function
    let name ← module.identifiers[handle.1.name]?
    let own ← module.selfHandle.bind module.resolve
    some (if except = some name then none else some ⟨⟨own.1, own.2⟩, name⟩)
  else some none

def candidates (vis : MoveFunctionVisibility) (except : Option String) :
    Option (List FunctionIdent) :=
  (module.functionDefs.mapM (candidate module vis except)).map List.reduceOption

def named (handle : Sui.MemberHandle × FunctionInfo) : Option FunctionIdent := do
  let name ← module.identifiers[handle.1.name]?
  let id ← calledModule module handle
  some ⟨⟨id.1, id.2⟩, name⟩

/- The function that an instruction calls. -/
def called : Tracer.Bytecode → Option (Option FunctionIdent)
  | .call idx => ((functionHandleAt module idx).bind (named module)).map some
  | .callGeneric idx => ((module.functionInstantiations[idx]?).bind fun inst =>
      (functionHandleAt module inst.handle).bind (named module)).map some
  | _ => some none

/- The functions that are still unused: the private ones of the module, and the
friends of the package. -/
structure Unused where
  unusedPrivate : FunctionSet
  unusedFriend : FunctionSet

def Unused.remove (unused : Unused) : Option FunctionIdent → Unused
  | some f => ⟨unused.unusedPrivate.erase f, unused.unusedFriend.erase f⟩
  | none => unused

def removeCalled (unused : Unused) (code : Tracer.Bytecode) : Option Unused :=
  (called module code).map unused.remove

def codes : List Tracer.Bytecode := module.functionDefs.flatMap fun f => f.code.getD []

def scan (unused : Unused) : Option Unused := (codes module).foldlM (removeCalled module) unused

end

/- `module` is none for the friend functions. -/
structure OracleFinding where
  oracle : String
  severity : Severity
  package : ObjectID
  module : Option String
  functions : List FunctionIdent
  message : String

def finding (package : ObjectID) (module : Option String) (oracle message : String)
    (unused : FunctionSet) : List OracleFinding :=
  if unused.entries.isEmpty then []
  else [⟨oracle, .informational, package, module, unused.entries.map Prod.fst, message⟩]

def analyzeModule (package : ObjectID) (state : FunctionSet × List OracleFinding)
    (e : String × Bytecode.CompiledModule) : Option (FunctionSet × List OracleFinding) := do
  let private_ ← candidates e.2 .private_ (some "init")
  let unused ← scan e.2 ⟨toSet private_, state.1⟩
  some (unused.unusedFriend, state.2 ++ finding package (some e.1) "StaticUnusedPrivateFunction"
    "Private functions are never invoked" unused.unusedPrivate)

def analyzePackage (package : ObjectID) (modules : List (String × Bytecode.CompiledModule)) :
    Option (List OracleFinding) := do
  let friends ← modules.mapM fun e => candidates e.2 .friend none
  let (unusedFriend, reports) ← modules.foldlM (analyzeModule package) (toSet friends.flatten, [])
  some (reports ++ finding package none "StaticUnusedFriendFunction"
    "Friend functions are never invoked" unusedFriend)

def Reported (reports : List OracleFinding) (oracle : String) (f : FunctionIdent) : Prop :=
  ∃ r ∈ reports, r.oracle = oracle ∧ f ∈ r.functions

/-! ### Sets -/

theorem get?_toSet (functions : List FunctionIdent) (f : FunctionIdent) :
    (toSet functions).get? f = if f ∈ functions then some () else none := by
  have hall : ∀ set : FunctionSet, (functions.foldl (fun set f => set.insert f ()) set).get? f =
      if f ∈ functions then some () else set.get? f := by
    induction functions with
    | nil => simp
    | cons g rest ih =>
      intro set
      rw [List.foldl_cons, ih, SortedMap.get?_insert]
      by_cases hrest : f ∈ rest
      · simp [hrest]
      · by_cases hg : f = g <;> simp [hrest, hg]
  simpa [toSet] using hall SortedMap.empty

theorem reported_finding (package : ObjectID) (module : Option String) (oracle message : String)
    (unused : FunctionSet) (o : String) (f : FunctionIdent) :
    Reported (finding package module oracle message unused) o f ↔
      o = oracle ∧ (unused.get? f).isSome := by
  have hmem : f ∈ unused.entries.map Prod.fst ↔ (unused.get? f).isSome := by
    rw [List.mem_map, Option.isSome_iff_exists]
    constructor
    · intro h
      obtain ⟨e, he, rfl⟩ := h
      exact ⟨e.2, (SortedMap.mem_entries _ _ _).mp he⟩
    · intro h
      obtain ⟨u, hu⟩ := h
      exact ⟨(f, u), (SortedMap.mem_entries _ _ _).mpr hu, rfl⟩
  rw [← hmem, Reported, finding]
  split_ifs with hempty
  · simp [List.isEmpty_iff.mp hempty]
  · simp [eq_comm]

theorem reported_append (reports reports' : List OracleFinding) (o : String) (f : FunctionIdent) :
    Reported (reports ++ reports') o f ↔ Reported reports o f ∨ Reported reports' o f := by
  simp only [Reported, List.mem_append, or_and_right, exists_or]

/-! ### The instructions and the calls of the analysis -/

/- The positions in the code are in range, and a generic call is applied to types
over the type parameters of its caller. -/
structure CodeInBounds (module : Bytecode.CompiledModule) : Prop where
  calls : ∀ f ∈ module.functionDefs, ∀ i, Tracer.Bytecode.call i ∈ f.code.getD [] →
    i < module.functionHandles.length
  genericCalls : ∀ f ∈ module.functionDefs, ∀ i, Tracer.Bytecode.callGeneric i ∈ f.code.getD [] →
    ∃ inst tys info, module.functionInstantiations[i]? = some inst ∧
      inst.handle < module.functionHandles.length ∧
      module.signatures[inst.typeParameters]? = some tys ∧
      module.functions[f.function]? = some info ∧
      TokensInBounds module info.typeParameters.length tys

variable {module : Bytecode.CompiledModule}

theorem named_isSome (h : Checked module) (idx : ℕ) (hidx : idx < module.functionHandles.length) :
    ∃ handle f, functionHandleAt module idx = some handle ∧ named module handle = some f ∧
      handle.1 ∈ module.functionHandles ∧ handle.2 ∈ module.functions := by
  obtain ⟨handle, info, hat, hhandle, hinfo⟩ := h.functionHandleAt_isSome idx hidx
  obtain ⟨hmodule, hname⟩ := h.functionHandles handle hhandle
  obtain ⟨id, hid⟩ := Option.isSome_iff_exists.mp (h.resolve_isSome handle.module hmodule)
  refine ⟨(handle, info), ⟨⟨id.1, id.2⟩, module.identifiers[handle.name]⟩, hat, ?_, hhandle, hinfo⟩
  simp only [named, calledModule, List.getElem?_eq_getElem hname, hid, Option.bind_eq_bind,
    Option.bind_some]

theorem findFunctionDefByName_spec (h : Checked module) (name : String)
    (defs : List Bytecode.FunctionDefinition) (hdefs : ∀ f ∈ defs, f ∈ module.functionDefs) :
    ∃ found, findFunctionDefByName module name defs = some found ∧ ∀ fdef, found = some fdef →
      fdef ∈ module.functionDefs ∧ ∃ handle, functionHandleAt module fdef.function = some handle ∧
        module.identifiers[handle.1.name]? = some name := by
  induction defs with
  | nil => exact ⟨none, rfl, fun _ h => nomatch h⟩
  | cons fdef rest ih =>
    have hfdef := hdefs fdef (List.mem_cons_self ..)
    obtain ⟨handle, info, hat, hhandle, -⟩ :=
      h.functionHandleAt_isSome fdef.function (h.functionDefs fdef hfdef)
    obtain ⟨-, hname⟩ := h.functionHandles handle hhandle
    simp only [findFunctionDefByName, hat, List.getElem?_eq_getElem hname, Option.bind_eq_bind,
      Option.bind_some]
    by_cases hfound : module.identifiers[handle.name] = name
    · rw [if_pos hfound]
      refine ⟨some fdef, rfl, fun fdef' hfdef' => ?_⟩
      obtain rfl := Option.some.inj hfdef'
      exact ⟨hfdef, (handle, info), hat, hfound ▸ List.getElem?_eq_getElem hname⟩
    · rw [if_neg hfound]
      exact ih fun f hf => hdefs f (List.mem_cons_of_mem _ hf)

/- The ABI of a handle has its name, whatever the visibility. -/
theorem name_of_fromHandle (handle : Sui.MemberHandle × FunctionInfo) (vis : MoveFunctionVisibility)
    (abi : MoveFunctionAbi)
    (h : fromModuleFunctionHandleVisibility module handle vis = some abi) :
    module.identifiers[handle.1.name]? = some abi.name ∧
      abi.typeParameters = handle.2.typeParameters := by
  simp only [fromModuleFunctionHandleVisibility, Option.bind_eq_bind] at h
  obtain ⟨fname, hname, h⟩ := Option.bind_eq_some_iff.mp h
  obtain ⟨fparameters, -, h⟩ := Option.bind_eq_some_iff.mp h
  obtain ⟨freturns, -, h⟩ := Option.bind_eq_some_iff.mp h
  obtain ⟨parameters, -, h⟩ := Option.bind_eq_some_iff.mp h
  obtain ⟨returns, -, h⟩ := Option.bind_eq_some_iff.mp h
  obtain rfl := Option.some.inj h
  exact ⟨hname, rfl⟩

theorem handleFcall_spec (h : Checked module) (handle : Sui.MemberHandle × FunctionInfo)
    (f : FunctionIdent) (hnamed : named module handle = some f)
    (hhandle : handle.1 ∈ module.functionHandles) (hinfo : handle.2 ∈ module.functions) :
    ∃ abi, handleFcall module handle = some abi ∧ abi.name = f.function := by
  obtain ⟨own, hown⟩ := Option.isSome_iff_exists.mp (h.resolve_isSome _ h.tables.self)
  have hown' : module.selfHandle.bind module.resolve = some own := hown
  obtain ⟨name, hname, hrest⟩ := Option.bind_eq_some_iff.mp hnamed
  obtain ⟨id, hid, hf⟩ := Option.bind_eq_some_iff.mp hrest
  obtain rfl := Option.some.inj hf
  -- A handle of another module, or one without a definition, goes by its own signature.
  have hpublic : ∃ abi, fromModuleFunctionHandleVisibility module handle .public_ = some abi ∧
      abi.name = name := by
    obtain ⟨abi, habi⟩ := Option.isSome_iff_exists.mp
      (h.fromHandle_isSome handle.1 handle.2 hhandle hinfo .public_)
    obtain ⟨hname', -⟩ := name_of_fromHandle handle .public_ abi habi
    exact ⟨abi, habi, Option.some.inj (hname'.symm.trans hname)⟩
  simp only [handleFcall, hname, hid, hown', Option.bind_eq_bind, Option.bind_some]
  by_cases hself : id = own
  · rw [if_pos hself]
    obtain ⟨found, hfound, hspec⟩ :=
      findFunctionDefByName_spec h name module.functionDefs fun _ hf => hf
    rw [hfound, Option.bind_some]
    cases found with
    | none => exact hpublic
    | some fdef =>
      obtain ⟨hmem, handle', hat, hname'⟩ := hspec fdef rfl
      obtain ⟨_, _, hat', hhandle', hinfo'⟩ :=
        h.functionHandleAt_isSome fdef.function (h.functionDefs fdef hmem)
      obtain rfl := Option.some.inj (hat.symm.trans hat')
      obtain ⟨abi, habi⟩ := Option.isSome_iff_exists.mp
        (h.fromHandle_isSome _ _ hhandle' hinfo' fdef.visibility)
      obtain ⟨habiname, -⟩ := name_of_fromHandle _ fdef.visibility abi habi
      refine ⟨abi, ?_, Option.some.inj (habiname.symm.trans hname')⟩
      simp only [MoveFunctionAbi.fromModuleDef, hat, Option.bind_eq_bind, Option.bind_some, habi]
  · rw [if_neg hself]
    exact hpublic

theorem callTo_spec (h : Checked module) (handle : Sui.MemberHandle × FunctionInfo)
    (f : FunctionIdent) (hnamed : named module handle = some f)
    (hhandle : handle.1 ∈ module.functionHandles) (hinfo : handle.2 ∈ module.functions)
    (tys : List MoveAbiSignatureToken) :
    ∃ call, callTo module handle tys = some call ∧ MoveFunctionCall.node call = f := by
  obtain ⟨abi, habi, hname⟩ := handleFcall_spec h handle f hnamed hhandle hinfo
  obtain ⟨name, -, hrest⟩ := Option.bind_eq_some_iff.mp hnamed
  obtain ⟨id, hid, hf⟩ := Option.bind_eq_some_iff.mp hrest
  obtain rfl := Option.some.inj hf
  refine ⟨⟨⟨id.1, id.2⟩, abi, tys⟩, ?_, ?_⟩
  · simp only [callTo, habi, hid, Option.bind_eq_bind, Option.bind_some]
  · rw [MoveFunctionCall.node, hname]

/- Both read the same callee off an instruction. -/
theorem callOf_spec (h : Checked module) (hcode : CodeInBounds module)
    (func : Bytecode.FunctionDefinition) (hfunc : func ∈ module.functionDefs)
    (callerFunc : MoveFunctionAbi) (hcaller : MoveFunctionAbi.fromModuleDef module func =
      some callerFunc) (code : Tracer.Bytecode) (hmem : code ∈ func.code.getD []) :
    ∃ call, callOf module callerFunc code = some call ∧
      called module code = some (call.map MoveFunctionCall.node) := by
  cases code with
  | call idx =>
    obtain ⟨handle, f, hat, hnamed, hhandle, hinfo⟩ :=
      named_isSome h idx (hcode.calls func hfunc idx hmem)
    obtain ⟨call, hcall, hnode⟩ := callTo_spec h handle f hnamed hhandle hinfo []
    refine ⟨some call, ?_, ?_⟩
    · simp only [callOf, hat, hcall, Option.bind_eq_bind, Option.bind_some]
    · simp only [called, hat, hnamed, Option.bind_some, Option.map_some, hnode]
  | callGeneric idx =>
    obtain ⟨inst, tys, info, hinst, hlt, htys, hinfo, hbounds⟩ :=
      hcode.genericCalls func hfunc idx hmem
    obtain ⟨handle, f, hat, hnamed, hhandle, hinfo'⟩ := named_isSome h inst.handle hlt
    obtain ⟨fdecl, hdecl, habi⟩ := Option.bind_eq_some_iff.mp hcaller
    obtain ⟨-, hparams⟩ := name_of_fromHandle fdecl func.visibility callerFunc habi
    obtain ⟨_, hhandleAt, hdecl⟩ := Option.bind_eq_some_iff.mp hdecl
    obtain ⟨info', hinfoAt, hdecl⟩ := Option.bind_eq_some_iff.mp hdecl
    obtain rfl := Option.some.inj hdecl
    obtain rfl := Option.some.inj (hinfo.symm.trans hinfoAt)
    obtain ⟨args, hargs⟩ := Option.isSome_iff_exists.mp
      (fromSuiTokensModule_isSome h callerFunc.typeParameters tys (by rwa [hparams]))
    obtain ⟨call, hcall, hnode⟩ := callTo_spec h handle f hnamed hhandle hinfo' args
    refine ⟨some call, ?_, ?_⟩
    · simp only [callOf, hinst, hat, htys, hargs, hcall, Option.bind_eq_bind, Option.bind_some]
    · simp only [called, hinst, hat, hnamed, Option.bind_some, Option.map_some, hnode]
  | _ => exact ⟨none, rfl, rfl⟩

theorem exists_mem_map_iff {α β : Type} (g : α → β) (l : List α) (P : β → Prop) :
    (∃ b ∈ l.map g, P b) ↔ ∃ a ∈ l, P (g a) := by
  simp only [List.mem_map, exists_exists_and_eq_and]

/- The callees of the calls of a function are those of its instructions. -/
theorem callsOf_spec (h : Checked module) (hcode : CodeInBounds module)
    (func : Bytecode.FunctionDefinition) (hfunc : func ∈ module.functionDefs) :
    ∃ row, callsOf module func = some row ∧ ∀ f, f ∈ row.2.map MoveFunctionCall.node ↔
      ∃ code ∈ func.code.getD [], called module code = some (some f) := by
  obtain ⟨handle, info, hat, hhandle, hinfo⟩ :=
    h.functionHandleAt_isSome func.function (h.functionDefs func hfunc)
  obtain ⟨callerFunc, habi⟩ := Option.isSome_iff_exists.mp
    (h.fromHandle_isSome handle info hhandle hinfo func.visibility)
  have hcaller : MoveFunctionAbi.fromModuleDef module func = some callerFunc := by
    simp only [MoveFunctionAbi.fromModuleDef, hat, Option.bind_eq_bind, Option.bind_some, habi]
  obtain ⟨calls, hcalls, hall⟩ := exists_mapM_forall₂ (callOf module callerFunc)
    (fun code call => called module code = some (call.map MoveFunctionCall.node))
    (func.code.getD []) (callOf_spec h hcode func hfunc callerFunc hcaller)
  refine ⟨(callerFunc, calls.reduceOption), ?_, fun f => ?_⟩
  · simp only [callsOf, hcaller, hcalls, Option.bind_eq_bind, Option.bind_some]
  · rw [List.mem_map]
    constructor
    · intro hf
      obtain ⟨call, hmem, rfl⟩ := hf
      exact exists_of_forall₂ hall.flip _ (List.reduceOption_mem_iff.mp hmem)
    · intro hf
      obtain ⟨code, hmem, hf⟩ := hf
      obtain ⟨call, hcall, hcalled⟩ := exists_of_forall₂ hall code hmem
      cases call with
      | none => simp [hcalled] at hf
      | some call =>
        refine ⟨call, List.reduceOption_mem_iff.mpr hcall, ?_⟩
        exact Option.some.inj (Option.some.inj (hcalled.symm.trans hf))

def Calls (module : Bytecode.CompiledModule) (f : FunctionIdent) : Prop :=
  ∃ code ∈ codes module, called module code = some (some f)

def selfId (module : Bytecode.CompiledModule) : Option MoveModuleId :=
  (module.selfHandle.bind module.resolve).map fun own => ⟨own.1, own.2⟩

/- The rows of a module are its callers; together they call what its code calls. -/
theorem fromSuiModule_spec (h : Checked module) (hcode : CodeInBounds module) :
    ∃ result, MoveModuleBytecodeAnalysis.fromSuiModule module = some result ∧
      selfId module = some result.abi.moduleId ∧
      (∀ row ∈ rowsOf result, row.1.moduleId = result.abi.moduleId) ∧
      ∀ f, (∃ row ∈ rowsOf result, f ∈ row.2.map Prod.fst) ↔ Calls module f := by
  obtain ⟨abi, habi⟩ := Option.isSome_iff_exists.mp h.fromSuiModule_isSome
  obtain ⟨calls, hcalls, hall⟩ := exists_mapM_forall₂ (callsOf module)
    (fun func row => ∀ f, f ∈ row.2.map MoveFunctionCall.node ↔
      ∃ code ∈ func.code.getD [], called module code = some (some f))
    module.functionDefs (callsOf_spec h hcode)
  refine ⟨⟨abi, calls⟩, ?_, ?_, ?_, fun f => ?_⟩
  · simp only [MoveModuleBytecodeAnalysis.fromSuiModule, habi, hcalls, Option.bind_eq_bind,
      Option.bind_some]
  · obtain ⟨own, hown, habi⟩ := Option.bind_eq_some_iff.mp habi
    obtain ⟨structs, -, habi⟩ := Option.bind_eq_some_iff.mp habi
    obtain ⟨functions, -, habi⟩ := Option.bind_eq_some_iff.mp habi
    obtain rfl := Option.some.inj habi
    rw [selfId, hown]
    rfl
  · intro row hrow
    obtain ⟨e, -, rfl⟩ := List.mem_map.mp hrow
    rfl
  · -- Repeated calls of a row count once, which leaves its callees.
    have hcallees : ∀ e : MoveFunctionAbi × List MoveFunctionCall,
        f ∈ (callRow abi.moduleId e).2.map Prod.fst ↔ f ∈ e.2.map MoveFunctionCall.node := by
      intro e
      simp [callRow, mem_firstOccurrences]
    have hrows : (∃ row ∈ rowsOf ⟨abi, calls⟩, f ∈ row.2.map Prod.fst) ↔
        ∃ e ∈ calls, f ∈ e.2.map MoveFunctionCall.node := by
      simp only [rowsOf, exists_mem_map_iff, hcallees]
    rw [hrows, Calls, codes]
    simp only [List.mem_flatMap]
    constructor
    · intro hf
      obtain ⟨e, he, hf⟩ := hf
      obtain ⟨func, hfunc, hiff⟩ := exists_of_forall₂ hall.flip e he
      obtain ⟨code, hmem, hcalled⟩ := (hiff f).mp hf
      exact ⟨code, ⟨func, hfunc, hmem⟩, hcalled⟩
    · intro hf
      obtain ⟨code, ⟨func, hfunc, hmem⟩, hcalled⟩ := hf
      obtain ⟨e, he, hiff⟩ := exists_of_forall₂ hall func hfunc
      exact ⟨e, he, (hiff f).mpr ⟨code, hmem, hcalled⟩⟩

/-! ### The scan -/

def Without (left set : FunctionSet) (P : FunctionIdent → Prop) : Prop :=
  ∀ f, (left.get? f).isSome ↔ (set.get? f).isSome ∧ ¬ P f

theorem without_erase (set : FunctionSet) (f : FunctionIdent) :
    Without (set.erase f) set fun g => g = f := by
  intro g
  rw [SortedMap.get?_erase]
  by_cases hg : g = f <;> simp [hg]

theorem Without.trans {s₁ s₂ s₃ : FunctionSet} {P Q : FunctionIdent → Prop}
    (h : Without s₂ s₁ P) (h' : Without s₃ s₂ Q) : Without s₃ s₁ fun f => P f ∨ Q f := by
  intro f
  rw [h' f, h f, and_assoc, not_or]

theorem removeCalled_spec (unused : Unused) (code : Tracer.Bytecode)
    (hcalled : (called module code).isSome) : ∃ unused',
      removeCalled module unused code = some unused' ∧
      Without unused'.unusedPrivate unused.unusedPrivate
        (fun f => called module code = some (some f)) ∧
      Without unused'.unusedFriend unused.unusedFriend
        (fun f => called module code = some (some f)) := by
  obtain ⟨callee, hcallee⟩ := Option.isSome_iff_exists.mp hcalled
  simp only [removeCalled, hcallee, Option.map_some, Option.some.injEq]
  refine ⟨_, rfl, ?_⟩
  cases callee with
  | none => simp [Unused.remove, Without]
  | some g =>
    simp only [Unused.remove, Option.some.injEq, eq_comm (a := g)]
    exact ⟨without_erase unused.unusedPrivate g, without_erase unused.unusedFriend g⟩

theorem scan_spec (unused : Unused) (hcalled : ∀ code ∈ codes module, (called module code).isSome) :
    ∃ unused', scan module unused = some unused' ∧
      Without unused'.unusedPrivate unused.unusedPrivate (Calls module) ∧
      Without unused'.unusedFriend unused.unusedFriend (Calls module) := by
  unfold scan Calls
  generalize codes module = l at hcalled ⊢
  induction l generalizing unused with
  | nil => exact ⟨unused, rfl, fun f => by simp, fun f => by simp⟩
  | cons code rest ih =>
    obtain ⟨mid, hmid, hp, hf⟩ :=
      removeCalled_spec unused code (hcalled code (List.mem_cons_self ..))
    obtain ⟨last, hlast, hp', hf'⟩ := ih mid fun c hc => hcalled c (List.mem_cons_of_mem _ hc)
    refine ⟨last, ?_, ?_, ?_⟩
    · rw [List.foldlM_cons, hmid]
      exact hlast
    · simpa only [List.exists_mem_cons_iff] using hp.trans hp'
    · simpa only [List.exists_mem_cons_iff] using hf.trans hf'

/-! ### The candidates -/

/- The module defines the function with the visibility, and not as an entry. -/
def Defines (module : Bytecode.CompiledModule) (vis : MoveFunctionVisibility) (f : FunctionIdent) :
    Prop :=
  selfId module = some f.moduleId ∧ ∃ fdef ∈ module.functionDefs, fdef.visibility = vis ∧
    fdef.isEntry = false ∧ ∃ handle, functionHandleAt module fdef.function = some handle ∧
      module.identifiers[handle.1.name]? = some f.function

theorem candidate_spec (h : Checked module) (vis : MoveFunctionVisibility) (except : Option String)
    (own : ObjectID × String) (hown : module.selfHandle.bind module.resolve = some own)
    (fdef : Bytecode.FunctionDefinition) (hfdef : fdef ∈ module.functionDefs) :
    ∃ found, candidate module vis except fdef = some found ∧ ∃ handle name,
      functionHandleAt module fdef.function = some handle ∧
      module.identifiers[handle.1.name]? = some name ∧
      found = if fdef.visibility = vis ∧ fdef.isEntry = false ∧ except ≠ some name
        then some ⟨⟨own.1, own.2⟩, name⟩ else none := by
  obtain ⟨handle, info, hat, hhandle, -⟩ :=
    h.functionHandleAt_isSome fdef.function (h.functionDefs fdef hfdef)
  obtain ⟨-, hname⟩ := h.functionHandles handle hhandle
  refine ⟨_, ?_, (handle, info), _, hat, List.getElem?_eq_getElem hname, rfl⟩
  simp only [candidate, hat, List.getElem?_eq_getElem hname, hown, Option.bind_eq_bind,
    Option.bind_some]
  by_cases hvis : fdef.visibility = vis ∧ fdef.isEntry = false
  · obtain ⟨hvis, hentry⟩ := hvis
    by_cases hexcept : except = some module.identifiers[handle.name] <;>
      simp [hvis, hentry, hexcept]
  · rw [if_neg hvis, if_neg fun hall => hvis ⟨hall.1, hall.2.1⟩]

theorem candidates_spec (h : Checked module) (vis : MoveFunctionVisibility)
    (except : Option String) : ∃ functions, candidates module vis except = some functions ∧
      ∀ f, f ∈ functions ↔ Defines module vis f ∧ except ≠ some f.function := by
  obtain ⟨own, hown⟩ := Option.isSome_iff_exists.mp (h.resolve_isSome _ h.tables.self)
  have hown' : module.selfHandle.bind module.resolve = some own := hown
  have hself : selfId module = some ⟨own.1, own.2⟩ := by rw [selfId, hown']; rfl
  obtain ⟨l, hl, hall⟩ := exists_mapM_forall₂ (candidate module vis except)
    (fun fdef found => ∃ handle name, functionHandleAt module fdef.function = some handle ∧
      module.identifiers[handle.1.name]? = some name ∧
      found = if fdef.visibility = vis ∧ fdef.isEntry = false ∧ except ≠ some name
        then some ⟨⟨own.1, own.2⟩, name⟩ else none) module.functionDefs
    (candidate_spec h vis except own hown')
  refine ⟨l.reduceOption, by rw [candidates, hl]; rfl, fun f => ?_⟩
  rw [List.reduceOption_mem_iff]
  constructor
  · intro hf
    obtain ⟨fdef, hfdef, handle, name, hat, hname, hfound⟩ := exists_of_forall₂ hall.flip _ hf
    obtain ⟨⟨hvis, hentry, hexcept⟩, rfl⟩ : (fdef.visibility = vis ∧ fdef.isEntry = false ∧
        except ≠ some name) ∧ (⟨⟨own.1, own.2⟩, name⟩ : FunctionIdent) = f := by
      simpa using hfound.symm
    exact ⟨⟨hself, fdef, hfdef, hvis, hentry, handle, hat, hname⟩, hexcept⟩
  · intro hf
    obtain ⟨⟨hid, fdef, hfdef, hvis, hentry, handle, hat, hname⟩, hexcept⟩ := hf
    obtain ⟨found, hmem, handle', name', hat', hname', hfound⟩ := exists_of_forall₂ hall fdef hfdef
    obtain rfl := Option.some.inj (hat.symm.trans hat')
    obtain rfl := Option.some.inj (hname.symm.trans hname')
    rw [if_pos ⟨hvis, hentry, hexcept⟩] at hfound
    obtain ⟨id, function⟩ := f
    obtain rfl := Option.some.inj (hself.symm.trans hid)
    exact hfound ▸ hmem

/-! ### The modules of a package -/

theorem called_isSome (h : Checked module) (hcode : CodeInBounds module) :
    ∀ code ∈ codes module, (called module code).isSome := by
  intro code hmem
  obtain ⟨func, hfunc, hmem⟩ := List.mem_flatMap.mp hmem
  cases code with
  | call idx =>
    obtain ⟨handle, f, hat, hnamed, -⟩ := named_isSome h idx (hcode.calls func hfunc idx hmem)
    simp [called, hat, hnamed]
  | callGeneric idx =>
    obtain ⟨inst, -, -, hinst, hlt, -⟩ := hcode.genericCalls func hfunc idx hmem
    obtain ⟨handle, f, hat, hnamed, -⟩ := named_isSome h inst.handle hlt
    simp [called, hinst, hat, hnamed]
  | _ => rfl

/- A private function that the code of its own module never calls. -/
def UnusedPrivate (module : Bytecode.CompiledModule) (f : FunctionIdent) : Prop :=
  Defines module .private_ f ∧ f.function ≠ "init" ∧ ¬ Calls module f

theorem analyzeModule_spec (package : ObjectID) (state : FunctionSet × List OracleFinding)
    (e : String × Bytecode.CompiledModule) (h : Checked e.2) (hcode : CodeInBounds e.2) :
    ∃ state', analyzeModule package state e = some state' ∧
      Without state'.1 state.1 (Calls e.2) ∧ ∀ o f, Reported state'.2 o f ↔
        Reported state.2 o f ∨ o = "StaticUnusedPrivateFunction" ∧ UnusedPrivate e.2 f := by
  obtain ⟨functions, hfunctions, hmem⟩ := candidates_spec h .private_ (some "init")
  obtain ⟨unused, hscan, hprivate, hfriend⟩ :=
    scan_spec ⟨toSet functions, state.1⟩ (called_isSome h hcode)
  refine ⟨(unused.unusedFriend, state.2 ++ finding package (some e.1) "StaticUnusedPrivateFunction"
    "Private functions are never invoked" unused.unusedPrivate), ?_, hfriend, fun o f => ?_⟩
  · simp only [analyzeModule, hfunctions, hscan, Option.bind_eq_bind, Option.bind_some]
  · have hleft := hprivate f
    rw [get?_toSet, Option.isSome_ite, hmem] at hleft
    rw [reported_append, reported_finding, hleft, UnusedPrivate, and_assoc, ne_eq, ne_eq,
      Option.some.injEq, eq_comm (b := f.function)]

theorem analyzeModules_spec (package : ObjectID)
    (modules : List (String × Bytecode.CompiledModule)) (hmodules : ∀ e ∈ modules, Checked e.2 ∧
      CodeInBounds e.2) (state : FunctionSet × List OracleFinding) :
    ∃ state', modules.foldlM (analyzeModule package) state = some state' ∧
      Without state'.1 state.1 (fun f => ∃ e ∈ modules, Calls e.2 f) ∧
      ∀ o f, Reported state'.2 o f ↔ Reported state.2 o f ∨
        o = "StaticUnusedPrivateFunction" ∧ ∃ e ∈ modules, UnusedPrivate e.2 f := by
  induction modules generalizing state with
  | nil => exact ⟨state, rfl, fun f => by simp, fun o f => by simp⟩
  | cons e rest ih =>
    obtain ⟨h, hcode⟩ := hmodules e (List.mem_cons_self ..)
    obtain ⟨mid, hmid, hfriend, hreports⟩ := analyzeModule_spec package state e h hcode
    obtain ⟨last, hlast, hfriend', hreports'⟩ :=
      ih (fun e he => hmodules e (List.mem_cons_of_mem _ he)) mid
    refine ⟨last, ?_, ?_, fun o f => ?_⟩
    · rw [List.foldlM_cons, hmid]
      exact hlast
    · simpa only [List.exists_mem_cons_iff] using hfriend.trans hfriend'
    · rw [hreports', hreports, or_assoc, ← and_or_left, List.exists_mem_cons_iff]

theorem analyzePackage_spec (package : ObjectID)
    (modules : List (String × Bytecode.CompiledModule)) (hmodules : ∀ e ∈ modules, Checked e.2 ∧
      CodeInBounds e.2) : ∃ reports, analyzePackage package modules = some reports ∧ ∀ f,
      (Reported reports "StaticUnusedPrivateFunction" f ↔ ∃ e ∈ modules, UnusedPrivate e.2 f) ∧
      (Reported reports "StaticUnusedFriendFunction" f ↔
        (∃ e ∈ modules, Defines e.2 .friend f) ∧ ¬ ∃ e ∈ modules, Calls e.2 f) := by
  obtain ⟨friends, hfriends, hall⟩ := exists_mapM_forall₂ (fun e => candidates e.2 .friend none)
    (fun (e : String × Bytecode.CompiledModule) functions => ∀ f, f ∈ functions ↔
      Defines e.2 .friend f ∧ none ≠ some f.function) modules
    fun e he => candidates_spec (hmodules e he).1 .friend none
  have hfriend : ∀ f, f ∈ friends.flatten ↔ ∃ e ∈ modules, Defines e.2 .friend f := by
    intro f
    rw [List.mem_flatten]
    constructor
    · intro hf
      obtain ⟨functions, hmem, hf⟩ := hf
      obtain ⟨e, he, hiff⟩ := exists_of_forall₂ hall.flip functions hmem
      exact ⟨e, he, ((hiff f).mp hf).1⟩
    · intro hf
      obtain ⟨e, he, hf⟩ := hf
      obtain ⟨functions, hmem, hiff⟩ := exists_of_forall₂ hall e he
      exact ⟨functions, hmem, (hiff f).mpr ⟨hf, nofun⟩⟩
  obtain ⟨last, hlast, hleft, hreports⟩ :=
    analyzeModules_spec package modules hmodules (toSet friends.flatten, [])
  refine ⟨last.2 ++ finding package none "StaticUnusedFriendFunction"
    "Friend functions are never invoked" last.1, ?_, fun f => ⟨?_, ?_⟩⟩
  · simp only [analyzePackage, hfriends, hlast, Option.bind_eq_bind, Option.bind_some]
  · rw [reported_append, reported_finding, hreports]
    simp [Reported]
  · have hleft := hleft f
    rw [get?_toSet, Option.isSome_ite, hfriend] at hleft
    rw [reported_append, reported_finding, hreports, hleft]
    simp [Reported]

/-! ### Against the call graph -/

theorem firstOfEach_of_nodup (results : List MoveModuleBytecodeAnalysis) :
    ∀ seen : List MoveModuleId, (results.map fun r => r.abi.moduleId).Nodup →
      (∀ r ∈ results, r.abi.moduleId ∉ seen) → firstOfEach seen results = results := by
  induction results with
  | nil => exact fun _ _ _ => rfl
  | cons result rest ih =>
    intro seen hnodup hseen
    obtain ⟨hfirst, hrest⟩ := List.nodup_cons.mp hnodup
    rw [firstOfEach, if_neg (hseen result (List.mem_cons_self ..)), ih _ hrest]
    intro r hr hmem
    rcases List.mem_cons.mp hmem with heq | hmem
    · exact hfirst (List.mem_map.mpr ⟨r, hr, heq⟩)
    · exact hseen r (List.mem_cons_of_mem _ hr) hmem

/- The edges to a function from a module are the calls in the code of the module. -/
theorem edge_iff_calls (modules : List (String × Bytecode.CompiledModule))
    (hmodules : ∀ e ∈ modules, Checked e.2 ∧ CodeInBounds e.2)
    (hids : (modules.map fun e => selfId e.2).Nodup) : ∃ analyses,
      modules.mapM (fun e => MoveModuleBytecodeAnalysis.fromSuiModule e.2) = some analyses ∧
      ∀ id f, (∃ edge ∈ (MoveCallGraph.ofAnalyses analyses).graph.named,
        edge.1.moduleId = id ∧ edge.2.1 = f) ↔
          ∃ e ∈ modules, selfId e.2 = some id ∧ Calls e.2 f := by
  obtain ⟨analyses, hanalyses, hall⟩ := exists_mapM_forall₂
    (fun (e : String × Bytecode.CompiledModule) => MoveModuleBytecodeAnalysis.fromSuiModule e.2)
    (fun e result => selfId e.2 = some result.abi.moduleId ∧
      (∀ row ∈ rowsOf result, row.1.moduleId = result.abi.moduleId) ∧
      ∀ f, (∃ row ∈ rowsOf result, f ∈ row.2.map Prod.fst) ↔ Calls e.2 f) modules
    fun e he => fromSuiModule_spec (hmodules e he).1 (hmodules e he).2
  have hanalysisIds : (analyses.map fun r => r.abi.moduleId).Nodup := by
    have hmap : (modules.map fun e => selfId e.2) =
        (analyses.map fun r => r.abi.moduleId).map some := by
      clear hids hanalyses hmodules
      induction hall with
      | nil => rfl
      | cons hfirst _ ih => rw [List.map_cons, List.map_cons, List.map_cons, ih, hfirst.1]
    rw [hmap] at hids
    exact hids.of_map some
  obtain ⟨-, -, hnamed⟩ := call_graph_exact analyses
  rw [firstOfEach_of_nodup analyses [] hanalysisIds (fun _ _ => List.not_mem_nil)] at hnamed
  refine ⟨analyses, hanalyses, fun id f => ?_⟩
  rw [hnamed]
  constructor
  · intro h
    obtain ⟨edge, hedge, hfrom, hto⟩ := h
    obtain ⟨result, hresult, hedge⟩ := List.mem_flatMap.mp hedge
    obtain ⟨row, hrow, hedge⟩ := List.mem_flatMap.mp hedge
    obtain ⟨target, htarget, rfl⟩ := List.mem_map.mp hedge
    obtain ⟨e, he, hid, hrows, hcalls⟩ := exists_of_forall₂ hall.flip result hresult
    refine ⟨e, he, ?_, (hcalls f).mp ⟨row, hrow, List.mem_map.mpr ⟨target, htarget, hto⟩⟩⟩
    rw [hid, ← hfrom, hrows row hrow]
  · intro h
    obtain ⟨e, he, hid, hcalled⟩ := h
    obtain ⟨result, hresult, hid', hrows, hcalls⟩ := exists_of_forall₂ hall e he
    obtain ⟨row, hrow, hmem⟩ := (hcalls f).mpr hcalled
    obtain ⟨target, htarget, hto⟩ := List.mem_map.mp hmem
    refine ⟨(row.1, target.1, target.2), List.mem_flatMap.mpr ⟨result, hresult,
      List.mem_flatMap.mpr ⟨row, hrow, List.mem_map.mpr ⟨target, htarget, rfl⟩⟩⟩, ?_, hto⟩
    rw [hrows row hrow]
    exact Option.some.inj (hid'.symm.trans hid)

/- On modules that the bounds checker accepts both analyses run to their end. A private
function is reported if the call graph has no edge to it from its own module, a friend
function if the graph has no edge to it at all. -/
theorem unused_functions_uncalled (package : ObjectID)
    (modules : List (String × Bytecode.CompiledModule))
    (hmodules : ∀ e ∈ modules, Checked e.2 ∧ CodeInBounds e.2)
    (hids : (modules.map fun e => selfId e.2).Nodup) : ∃ analyses reports,
      modules.mapM (fun e => MoveModuleBytecodeAnalysis.fromSuiModule e.2) = some analyses ∧
      analyzePackage package modules = some reports ∧ ∀ f,
        (Reported reports "StaticUnusedPrivateFunction" f ↔
          (∃ e ∈ modules, Defines e.2 .private_ f) ∧ f.function ≠ "init" ∧
            ¬ ∃ edge ∈ (MoveCallGraph.ofAnalyses analyses).graph.named,
              edge.1.moduleId = f.moduleId ∧ edge.2.1 = f) ∧
        (Reported reports "StaticUnusedFriendFunction" f ↔
          (∃ e ∈ modules, Defines e.2 .friend f) ∧
            ¬ ∃ edge ∈ (MoveCallGraph.ofAnalyses analyses).graph.named, edge.2.1 = f) := by
  obtain ⟨analyses, hanalyses, hedges⟩ := edge_iff_calls modules hmodules hids
  obtain ⟨reports, hreports, hreported⟩ := analyzePackage_spec package modules hmodules
  refine ⟨analyses, reports, hanalyses, hreports, fun f => ?_⟩
  obtain ⟨hprivate, hfriend⟩ := hreported f
  constructor
  · rw [hprivate, hedges]
    constructor
    · intro h
      obtain ⟨e, he, hdefines, hinit, huncalled⟩ := h
      refine ⟨⟨e, he, hdefines⟩, hinit, ?_⟩
      intro h
      obtain ⟨e', he', hid, hcalls⟩ := h
      -- The ids of the modules differ, so the caller is the module of the function.
      have hsame := List.inj_on_of_nodup_map hids he' he (hid.trans hdefines.1.symm)
      exact huncalled (hsame ▸ hcalls)
    · intro h
      obtain ⟨⟨e, he, hdefines⟩, hinit, huncalled⟩ := h
      exact ⟨e, he, hdefines, hinit, fun hcalls => huncalled ⟨e, he, hdefines.1, hcalls⟩⟩
  · rw [hfriend]
    refine and_congr_right fun _ => not_congr ?_
    constructor
    · intro h
      obtain ⟨e, he, hcalls⟩ := h
      obtain ⟨own, hown⟩ := Option.isSome_iff_exists.mp
        ((hmodules e he).1.resolve_isSome _ (hmodules e he).1.tables.self)
      have hid : selfId e.2 = some ⟨own.1, own.2⟩ := congrArg (Option.map _) hown
      obtain ⟨edge, hedge, -, hto⟩ := (hedges _ f).mpr ⟨e, he, hid, hcalls⟩
      exact ⟨edge, hedge, hto⟩
    · intro h
      obtain ⟨edge, hedge, hto⟩ := h
      obtain ⟨e, he, -, hcalls⟩ := (hedges edge.1.moduleId f).mp ⟨edge, hedge, rfl, hto⟩
      exact ⟨e, he, hcalls⟩

section Sample

def marketModule : Bytecode.CompiledModule where
  selfModuleHandleIdx := 0
  moduleHandles := [⟨0, 0⟩]
  datatypeHandles := []
  functionHandles := [⟨0, 1⟩, ⟨0, 2⟩, ⟨0, 3⟩]
  friendDecls := []
  identifiers := ["market", "sell", "fee", "refund"]
  addressIdentifiers := [Sui.ZERO]
  datatypes := []
  functions := [⟨0, 0, []⟩, ⟨0, 0, []⟩, ⟨0, 0, []⟩]
  functionInstantiations := []
  signatures := [[]]
  structDefs := []
  functionDefs := [⟨0, .public_, false, some [.call 1, .ret]⟩, ⟨1, .private_, false, some [.ret]⟩,
    ⟨2, .private_, false, some [.call 1, .ret]⟩]

theorem marketModule_checked : Checked marketModule where
  tables := ⟨by decide, by decide, by decide, by decide⟩
  datatypes := rfl
  functions := rfl
  datatypeHandles := nofun
  functionHandles := by decide
  signatures := by
    intro info hinfo
    simp only [marketModule, List.mem_cons, List.not_mem_nil, or_false, or_self] at hinfo
    rw [hinfo]
    exact ⟨[], [], rfl, rfl, trivial, trivial⟩
  structDefs := nofun
  functionDefs := by decide

theorem marketModule_code : CodeInBounds marketModule where
  calls := by
    intro f hf i hi
    have hcode : Tracer.Bytecode.call i ∈ codes marketModule := List.mem_flatMap.mpr ⟨f, hf, hi⟩
    have hone : i = 1 := by simpa [codes, marketModule] using hcode
    rw [hone]
    decide
  genericCalls := by
    intro f hf i hi
    have hcode : Tracer.Bytecode.callGeneric i ∈ codes marketModule :=
      List.mem_flatMap.mpr ⟨f, hf, hi⟩
    simp [codes, marketModule] at hcode

/- Nothing calls `refund`. -/
example : (analyzePackage Sui.ZERO [("market", marketModule)]).map
    (List.map OracleFinding.functions) = some [[⟨⟨Sui.ZERO, "market"⟩, "refund"⟩]] := by
  decide +kernel

theorem unused_functions_uncalled_market : ∃ analyses reports,
    [("market", marketModule)].mapM
        (fun e => MoveModuleBytecodeAnalysis.fromSuiModule e.2) = some analyses ∧
      analyzePackage Sui.ZERO [("market", marketModule)] = some reports ∧ ∀ f,
        (Reported reports "StaticUnusedPrivateFunction" f ↔
          (∃ e ∈ [("market", marketModule)], Defines e.2 .private_ f) ∧ f.function ≠ "init" ∧
            ¬ ∃ edge ∈ (MoveCallGraph.ofAnalyses analyses).graph.named,
              edge.1.moduleId = f.moduleId ∧ edge.2.1 = f) ∧
        (Reported reports "StaticUnusedFriendFunction" f ↔
          (∃ e ∈ [("market", marketModule)], Defines e.2 .friend f) ∧
            ¬ ∃ edge ∈ (MoveCallGraph.ofAnalyses analyses).graph.named, edge.2.1 = f) :=
  unused_functions_uncalled Sui.ZERO [("market", marketModule)]
    (fun _ he => List.mem_singleton.mp he ▸ ⟨marketModule_checked, marketModule_code⟩)
    (List.nodup_singleton _)

end Sample

end Movy.Static.UnusedFunctions
