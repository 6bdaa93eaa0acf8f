import Movy.Analysis.ExportCallGraph

/-!
# Numbers of contracts and functions

Each step of the walk opens a contract or adds a function to one. Both keep
the five maps in line: every name has one number, and every number stands for
one place.
-/

namespace Movy.Analysis.CallGraph

def keyOf (contract : Contract) (function : Function) : MoveFunctionKey :=
  ⟨contract.name, function.name⟩

/- The maps agree with the contracts, numbers from the next one on are not in use, and
calls are collected for numbered functions only. -/
structure Numbered (s : Exporter) : Prop where
  contract : ∀ c contract, s.contracts.get? c = some contract →
    contract.id = c ∧ c < s.nextContractId ∧ s.moduleIds.get? contract.name = some c
  module : ∀ m c, s.moduleIds.get? m = some c →
    ∃ contract, s.contracts.get? c = some contract ∧ contract.name = m
  function : ∀ (c : ℕ) (contract : Contract) (i : ℕ) (function : Function),
    s.contracts.get? c = some contract → contract.functions[i]? = some function →
    function.id < s.nextFunctionId ∧
      s.functionIds.get? (keyOf contract function) = some function.id ∧
      s.functionLocations.get? function.id = some (c, i) ∧ function.calls = []
  key : ∀ key functionId, s.functionIds.get? key = some functionId →
    ∃ (c : ℕ) (contract : Contract) (i : ℕ) (function : Function),
      s.contracts.get? c = some contract ∧ contract.functions[i]? = some function ∧
      keyOf contract function = key ∧ function.id = functionId
  pending : ∀ key targets, s.pendingCalls.get? key = some targets →
    (s.functionIds.get? key).isSome

theorem numbered_new : Numbered Exporter.new where
  contract c contract h := by simp [Exporter.new] at h
  module m c h := by simp [Exporter.new] at h
  function c contract i function h := by simp [Exporter.new] at h
  key key functionId h := by simp [Exporter.new] at h
  pending key targets h := by simp [Exporter.new] at h

/-! ### Opening a contract -/

def openContract (s : Exporter) (contract : Contract) : Exporter :=
  { s with
    nextContractId := s.nextContractId + 1
    moduleIds := s.moduleIds.insert contract.name s.nextContractId
    contracts := s.contracts.insert s.nextContractId contract }

theorem Numbered.openContract {s : Exporter} (h : Numbered s) (contract : Contract)
    (hid : contract.id = s.nextContractId) (hempty : contract.functions = [])
    (hnew : s.moduleIds.get? contract.name = none) :
    Numbered (openContract s contract) := by
  have hfree : ∀ c contract', s.contracts.get? c = some contract' →
      c ≠ s.nextContractId ∧ contract'.name ≠ contract.name := by
    intro c contract' hc
    obtain ⟨_, hlt, hmodule⟩ := h.contract c contract' hc
    refine ⟨hlt.ne, fun hname => ?_⟩
    rw [hname, hnew] at hmodule
    exact absurd hmodule (by simp)
  have hkeep : ∀ c contract', s.contracts.get? c = some contract' →
      (CallGraph.openContract s contract).contracts.get? c = some contract' := by
    intro c contract' hc
    rw [CallGraph.openContract, SortedMap.get?_insert, if_neg (hfree c contract' hc).1, hc]
  refine ⟨?_, ?_, ?_, ?_, h.pending⟩
  · intro c contract' hc
    simp only [CallGraph.openContract, SortedMap.get?_insert] at hc ⊢
    split_ifs at hc with hcid
    · obtain rfl := Option.some.inj hc
      exact ⟨hid.trans hcid.symm, by omega, by rw [if_pos rfl, hcid]⟩
    · obtain ⟨hcid', hlt, hmodule⟩ := h.contract c contract' hc
      exact ⟨hcid', by omega, by rw [if_neg (hfree c contract' hc).2, hmodule]⟩
  · intro m c hm
    simp only [CallGraph.openContract, SortedMap.get?_insert] at hm ⊢
    split_ifs at hm with hname
    · obtain rfl := Option.some.inj hm
      exact ⟨contract, if_pos rfl, hname.symm⟩
    · obtain ⟨contract', hc, hm'⟩ := h.module m c hm
      exact ⟨contract', by rw [if_neg (hfree c contract' hc).1, hc], hm'⟩
  · intro c contract' i function hc hi
    simp only [CallGraph.openContract, SortedMap.get?_insert] at hc
    split_ifs at hc with hcid
    · obtain rfl := Option.some.inj hc
      rw [hempty] at hi
      exact absurd hi (by simp)
    · exact h.function c contract' i function hc hi
  · intro key functionId hkey
    obtain ⟨c, contract', i, function, hc, hi, hkey', hid'⟩ := h.key key functionId hkey
    exact ⟨c, contract', i, function, hkeep c contract' hc, hi, hkey', hid'⟩

/-! ### Adding a function -/

def pushFunction (s : Exporter) (c : ℕ) (contract : Contract) (function : Function) : Exporter :=
  { s with
    nextFunctionId := s.nextFunctionId + 1
    contracts := s.contracts.insert c
      { contract with functions := contract.functions ++ [function] }
    functionIds := s.functionIds.insert (keyOf contract function) s.nextFunctionId
    functionLocations :=
      s.functionLocations.insert s.nextFunctionId (c, contract.functions.length) }

theorem Numbered.pushFunction {s : Exporter} (h : Numbered s) (c : ℕ) (contract : Contract)
    (function : Function) (hc : s.contracts.get? c = some contract)
    (hid : function.id = s.nextFunctionId) (hcalls : function.calls = [])
    (hnew : s.functionIds.get? (keyOf contract function) = none) :
    Numbered (pushFunction s c contract function) := by
  have hold : ∀ (c' : ℕ) (contract' : Contract) (i : ℕ) (function' : Function),
      s.contracts.get? c' = some contract' → contract'.functions[i]? = some function' →
      function'.id < s.nextFunctionId ∧ keyOf contract' function' ≠ keyOf contract function := by
    intro c' contract' i function' hc' hi
    obtain ⟨hlt, hkey, _⟩ := h.function c' contract' i function' hc' hi
    refine ⟨hlt, fun heq => ?_⟩
    rw [heq, hnew] at hkey
    exact absurd hkey (by simp)
  have hpushed : ∀ (i : ℕ) (function' : Function),
      (contract.functions ++ [function])[i]? = some function' →
      contract.functions[i]? = some function' ∨
        i = contract.functions.length ∧ function' = function := by
    intro i function' hi
    rcases lt_trichotomy i contract.functions.length with hlt | rfl | hgt
    · rw [List.getElem?_append_left hlt] at hi
      exact Or.inl hi
    · rw [List.getElem?_concat_length] at hi
      exact Or.inr ⟨rfl, (Option.some.inj hi).symm⟩
    · rw [List.getElem?_eq_none (by rw [List.length_append, List.length_singleton]; omega)] at hi
      exact absurd hi (by simp)
  refine ⟨?_, ?_, ?_, ?_, ?_⟩
  · intro c' contract' hc'
    simp only [CallGraph.pushFunction, SortedMap.get?_insert] at hc' ⊢
    split_ifs at hc' with heq
    · obtain rfl := Option.some.inj hc'
      exact heq ▸ h.contract c contract hc
    · exact h.contract c' contract' hc'
  · intro m c' hm
    obtain ⟨contract', hc', hname⟩ := h.module m c' hm
    simp only [CallGraph.pushFunction, SortedMap.get?_insert]
    by_cases heq : c' = c
    · subst heq
      obtain rfl := Option.some.inj (hc.symm.trans hc')
      exact ⟨_, if_pos rfl, hname⟩
    · exact ⟨contract', by rw [if_neg heq, hc'], hname⟩
  · intro c' contract' i function' hc' hi
    simp only [CallGraph.pushFunction, SortedMap.get?_insert] at hc' ⊢
    -- a function that was there before
    have hbefore : ∀ contract'', s.contracts.get? c' = some contract'' →
        contract''.functions[i]? = some function' → keyOf contract' function' =
          keyOf contract'' function' → function'.id < s.nextFunctionId + 1 ∧
        (if keyOf contract' function' = keyOf contract function then some s.nextFunctionId
          else s.functionIds.get? (keyOf contract' function')) = some function'.id ∧
        (if function'.id = s.nextFunctionId then some (c, contract.functions.length)
          else s.functionLocations.get? function'.id) = some (c', i) ∧ function'.calls = [] := by
      intro contract'' hc'' hi'' hkey
      obtain ⟨hlt, hne⟩ := hold c' contract'' i function' hc'' hi''
      obtain ⟨_, hkey', hloc, hcalls'⟩ := h.function c' contract'' i function' hc'' hi''
      rw [hkey, if_neg hne, if_neg hlt.ne]
      exact ⟨by omega, hkey', hloc, hcalls'⟩
    split_ifs at hc' with heq
    · obtain rfl := Option.some.inj hc'
      rcases hpushed i function' hi with hi' | ⟨rfl, rfl⟩
      · exact hbefore contract (heq ▸ hc) hi' rfl
      · rw [hid, heq]
        exact ⟨by omega, if_pos rfl, if_pos rfl, hcalls⟩
    · exact hbefore contract' hc' hi rfl
  · intro key functionId hkey
    simp only [CallGraph.pushFunction, SortedMap.get?_insert] at hkey ⊢
    split_ifs at hkey with heq
    · obtain rfl := Option.some.inj hkey
      exact ⟨c, _, contract.functions.length, function, if_pos rfl, List.getElem?_concat_length,
        heq.symm, hid⟩
    · obtain ⟨c', contract', i, function', hc', hi, hkey', hid'⟩ := h.key key functionId hkey
      by_cases hcc : c' = c
      · subst hcc
        obtain rfl := Option.some.inj (hc.symm.trans hc')
        have hlt := (List.getElem?_eq_some_iff.mp hi).1
        exact ⟨c', _, i, function', if_pos rfl, by rw [List.getElem?_append_left hlt, hi], hkey',
          hid'⟩
      · exact ⟨c', contract', i, function', by rw [if_neg hcc, hc'], hi, hkey', hid'⟩
  · intro key targets hkey
    simp only [CallGraph.pushFunction, SortedMap.get?_insert]
    split_ifs
    · rfl
    · exact h.pending key targets hkey

theorem Numbered.fresh {s : Exporter} (h : Numbered s) (c : ℕ) (contract : Contract)
    (hc : s.contracts.get? c = some contract) (name : String)
    (hname : name ∉ contract.functions.map Function.name) :
    s.functionIds.get? ⟨contract.name, name⟩ = none := by
  cases hid : s.functionIds.get? ⟨contract.name, name⟩ with
  | none => rfl
  | some functionId =>
    obtain ⟨c', contract', i, function, hc', hi, hkey, _⟩ := h.key _ functionId hid
    obtain ⟨hsame, hfname⟩ := MoveFunctionKey.mk.inj hkey
    obtain ⟨_, _, hmodule⟩ := h.contract c contract hc
    obtain ⟨_, _, hmodule'⟩ := h.contract c' contract' hc'
    rw [hsame, hmodule] at hmodule'
    obtain rfl := Option.some.inj hmodule'
    obtain rfl := Option.some.inj (hc.symm.trans hc')
    exact absurd (List.mem_map.mpr ⟨function, List.mem_of_getElem? hi, hfname⟩) hname

/-! ### The walk over the modules -/

/- The functions whose calls have been collected, each under the id of its module. -/
def Declared (s : Exporter) (ds : List (String × FunctionDef)) : Prop :=
  ∀ key targets, s.pendingCalls.get? key = some targets ↔
    ∃ d ∈ ds, (⟨d.1, d.2.abi.name⟩ : MoveFunctionKey) = key ∧
      addPending SortedMap.empty d.2.calls = targets

/- The modules that are not of the framework, each once. -/
def analysed (seen : List String) : List CompiledModule → List CompiledModule
  | [] => []
  | m :: ms =>
    if isSuiStdModule m.addressText || seen.contains m.id then analysed seen ms
    else m :: analysed (m.id :: seen) ms

def declarations (m : CompiledModule) : List (String × FunctionDef) :=
  m.functions.map fun f => (m.id, f)

structure Walked (s : Exporter) (seen : List String) (ds : List (String × FunctionDef)) : Prop where
  numbered : Numbered s
  seenModules : ∀ m, (s.seenModules.get? m).isSome ↔ m ∈ seen
  moduleIds : ∀ m, (s.moduleIds.get? m).isSome ↔ m ∈ seen
  declared : Declared s ds

theorem walked_new : Walked Exporter.new [] [] where
  numbered := numbered_new
  seenModules m := by simp [Exporter.new]
  moduleIds m := by simp [Exporter.new]
  declared key targets := by simp [Exporter.new]

def withContract (moduleId : String) (contractId : ℕ) (path : String)
    (s : Exporter × List Function) : Exporter :=
  { s.1 with contracts := s.1.contracts.insert contractId ⟨contractId, moduleId, path, s.2, none⟩ }

theorem withContract_exportFunction (moduleId : String) (contractId : ℕ) (path : String)
    (s : Exporter × List Function) (f : FunctionDef) :
    withContract moduleId contractId path (exportFunction moduleId contractId path s f) =
      { pushFunction (withContract moduleId contractId path s) contractId
          ⟨contractId, moduleId, path, s.2, none⟩ (functionOf s.1.nextFunctionId path f.abi) with
        pendingCalls := s.1.pendingCalls.insert ⟨moduleId, f.abi.name⟩
          (addPending ((s.1.pendingCalls.get? ⟨moduleId, f.abi.name⟩).getD SortedMap.empty)
            f.calls) } := by
  simp only [withContract, exportFunction, pushFunction, SortedMap.insert_insert]
  rfl

/- What stays the same while the functions of a module are added. -/
theorem exportFunctions_walked (moduleId : String) (contractId : ℕ) (path : String)
    (fs : List FunctionDef) (s : Exporter × List Function) (seen : List String)
    (ds : List (String × FunctionDef))
    (h : Walked (withContract moduleId contractId path s) seen ds)
    (hnodup : (s.2.map Function.name ++ fs.map fun f => f.abi.name).Nodup) :
    Walked (withContract moduleId contractId path
      (fs.foldl (exportFunction moduleId contractId path) s)) seen
      (ds ++ fs.map fun f => (moduleId, f)) := by
  induction fs generalizing s ds with
  | nil => rwa [List.map_nil, List.append_nil]
  | cons f fs ih =>
    have hc : (withContract moduleId contractId path s).contracts.get? contractId =
        some ⟨contractId, moduleId, path, s.2, none⟩ := by
      rw [withContract, SortedMap.get?_insert, if_pos rfl]
    have hname : f.abi.name ∉ s.2.map Function.name := by
      intro hin
      exact (List.nodup_append.mp hnodup).2.2 _ hin _ List.mem_cons_self rfl
    have hfresh := h.numbered.fresh contractId _ hc f.abi.name hname
    have hpush := h.numbered.pushFunction contractId _
      (functionOf s.1.nextFunctionId path f.abi) hc rfl rfl hfresh
    have hnone : s.1.pendingCalls.get? ⟨moduleId, f.abi.name⟩ = none := by
      cases hp : s.1.pendingCalls.get? ⟨moduleId, f.abi.name⟩ with
      | none => rfl
      | some targets =>
        have hsome := h.numbered.pending _ targets hp
        rw [hfresh] at hsome
        exact absurd hsome (by simp)
    have hnext : Walked (withContract moduleId contractId path
        (exportFunction moduleId contractId path s f)) seen (ds ++ [(moduleId, f)]) := by
      rw [withContract_exportFunction, hnone]
      refine ⟨⟨hpush.contract, hpush.module, hpush.function, hpush.key, ?_⟩, h.seenModules,
        h.moduleIds, ?_⟩
      · intro key targets hkey
        simp only [SortedMap.get?_insert] at hkey
        split_ifs at hkey with heq
        · simp only [pushFunction, SortedMap.get?_insert]
          exact (congrArg Option.isSome (if_pos heq)).trans rfl
        · exact hpush.pending key targets hkey
      · intro key targets
        simp only [SortedMap.get?_insert, Option.getD_none]
        split_ifs with heq
        · subst heq
          constructor
          · intro htargets
            exact ⟨(moduleId, f), List.mem_append_right _ (List.mem_singleton.mpr rfl), rfl,
              Option.some.inj htargets⟩
          · rintro ⟨d, hd, hkey, htargets⟩
            rcases List.mem_append.mp hd with hd | hd
            · have hsome := (h.declared _ _).mpr ⟨d, hd, hkey, rfl⟩
              exact absurd (hnone.symm.trans hsome) (by simp)
            · obtain rfl := List.mem_singleton.mp hd
              exact congrArg some htargets
        · refine (h.declared key targets).trans ⟨?_, ?_⟩
          · rintro ⟨d, hd, hkey⟩
            exact ⟨d, List.mem_append_left _ hd, hkey⟩
          · rintro ⟨d, hd, hkey, htargets⟩
            rcases List.mem_append.mp hd with hd | hd
            · exact ⟨d, hd, hkey, htargets⟩
            · obtain rfl := List.mem_singleton.mp hd
              exact absurd hkey.symm heq
    have hrest := ih (exportFunction moduleId contractId path s f) (ds ++ [(moduleId, f)]) hnext (by
      simpa [exportFunction, functionOf] using hnodup)
    rw [List.append_assoc] at hrest
    exact hrest

theorem exportModule_walked (s : Exporter) (seen : List String) (ds : List (String × FunctionDef))
    (h : Walked s seen ds) (m : CompiledModule)
    (hnew : ¬(isSuiStdModule m.addressText || seen.contains m.id) = true) :
    Walked (exportModule s m) (m.id :: seen) (ds ++ declarations m) := by
  simp only [Bool.or_eq_true, not_or, List.contains_iff_mem] at hnew
  have hseen : ¬(s.seenModules.get? m.id).isSome = true := fun hin =>
    hnew.2 ((h.seenModules m.id).mp hin)
  have hmodule : s.moduleIds.get? m.id = none := by
    rw [← Option.not_isSome_iff_eq_none]
    exact fun hin => hnew.2 ((h.moduleIds m.id).mp hin)
  rw [exportModule, if_neg hnew.1, if_neg hseen]
  have hopen := h.numbered.openContract ⟨s.nextContractId, m.id, m.sourcePath, [], none⟩ rfl rfl
    hmodule
  refine exportFunctions_walked m.id s.nextContractId m.sourcePath m.functions
    ({ s with
        nextContractId := s.nextContractId + 1
        seenModules := s.seenModules.insert m.id ()
        moduleIds := s.moduleIds.insert m.id s.nextContractId }, []) (m.id :: seen) ds ?_ m.nodup
  refine ⟨⟨hopen.contract, hopen.module, hopen.function, hopen.key, hopen.pending⟩, ?_, ?_,
    h.declared⟩
  · intro name
    simp only [withContract, SortedMap.get?_insert, List.mem_cons]
    split_ifs with heq
    · simp [heq]
    · simp [heq, h.seenModules name]
  · intro name
    simp only [withContract, SortedMap.get?_insert, List.mem_cons]
    split_ifs with heq
    · simp [heq]
    · simp [heq, h.moduleIds name]

/- After the walk, the analysed modules are numbered and their calls collected. -/
theorem exportModules_walked (modules : List CompiledModule) (s : Exporter) (seen : List String)
    (ds : List (String × FunctionDef)) (h : Walked s seen ds) :
    ∃ seen', Walked (modules.foldl exportModule s) seen'
        (ds ++ (analysed seen modules).flatMap declarations) ∧
      (∀ m ∈ seen, m ∈ seen') ∧ ∀ m ∈ analysed seen modules, m.id ∈ seen' := by
  induction modules generalizing s seen ds with
  | nil =>
    refine ⟨seen, ?_, fun _ h => h, fun m hm => absurd hm List.not_mem_nil⟩
    rwa [analysed, List.flatMap_nil, List.append_nil]
  | cons m ms ih =>
    rw [List.foldl_cons, analysed]
    by_cases hskip : (isSuiStdModule m.addressText || seen.contains m.id) = true
    · have hsame : exportModule s m = s := by
        rw [exportModule]
        split_ifs with hstd hseen
        · rfl
        · rfl
        · rcases Bool.or_eq_true_iff.mp hskip with hstd' | hin
          · exact absurd hstd' hstd
          · exact absurd ((h.seenModules m.id).mpr (List.contains_iff_mem.mp hin)) hseen
      rw [hsame, if_pos hskip]
      exact ih s seen ds h
    · rw [if_neg hskip, List.flatMap_cons, ← List.append_assoc]
      obtain ⟨seen', hwalked, hkeep, hall⟩ := ih _ _ _ (exportModule_walked s seen ds h m hskip)
      exact ⟨seen', hwalked, fun m hm => hkeep m (List.mem_cons_of_mem _ hm),
        List.forall_mem_cons.mpr ⟨hkeep m.id List.mem_cons_self, hall⟩⟩

/-! ### The callees that were not met -/

/- Numbered modules and functions keep their numbers, and the collected calls stay. -/
structure Grows (s s' : Exporter) : Prop where
  moduleIds : ∀ m c, s.moduleIds.get? m = some c → s'.moduleIds.get? m = some c
  functionIds : ∀ key functionId, s.functionIds.get? key = some functionId →
    s'.functionIds.get? key = some functionId
  pendingCalls : s'.pendingCalls = s.pendingCalls

theorem Grows.refl (s : Exporter) : Grows s s := ⟨fun _ _ h => h, fun _ _ h => h, rfl⟩

theorem Grows.trans {s s' s'' : Exporter} (h : Grows s s') (h' : Grows s' s'') : Grows s s'' :=
  ⟨fun m c hm => h'.moduleIds m c (h.moduleIds m c hm),
    fun key functionId hkey => h'.functionIds key functionId (h.functionIds key functionId hkey),
    h'.pendingCalls.trans h.pendingCalls⟩

theorem Numbered.contractFor {s : Exporter} (h : Numbered s) (moduleId : String) :
    Numbered (contractFor s moduleId).1 ∧
      (∀ m c, s.moduleIds.get? m = some c →
        (CallGraph.contractFor s moduleId).1.moduleIds.get? m = some c) ∧
      (CallGraph.contractFor s moduleId).1.functionIds = s.functionIds ∧
      (CallGraph.contractFor s moduleId).1.pendingCalls = s.pendingCalls ∧
      ∃ contract, (CallGraph.contractFor s moduleId).1.contracts.get?
        (CallGraph.contractFor s moduleId).2 = some contract ∧ contract.name = moduleId := by
  cases hm : s.moduleIds.get? moduleId with
  | some contractId =>
    have hsame : CallGraph.contractFor s moduleId = (s, contractId) := by
      simp only [CallGraph.contractFor, hm]
    rw [hsame]
    exact ⟨h, fun _ _ hm => hm, rfl, rfl, h.module moduleId contractId hm⟩
  | none =>
    have hopen : CallGraph.contractFor s moduleId =
        (CallGraph.openContract s ⟨s.nextContractId, moduleId, syntheticRelativePath moduleId, [],
          some "external module referenced from Move call graph"⟩, s.nextContractId) := by
      simp only [CallGraph.contractFor, hm, CallGraph.openContract]
    rw [hopen]
    refine ⟨h.openContract _ rfl rfl hm, fun m c hold => ?_, rfl, rfl, ⟨s.nextContractId, moduleId,
      syntheticRelativePath moduleId, [], some "external module referenced from Move call graph"⟩,
      ?_, rfl⟩
    · rw [CallGraph.openContract, SortedMap.get?_insert, if_neg, hold]
      rintro rfl
      exact absurd (hm.symm.trans hold) (by simp)
    · rw [CallGraph.openContract, SortedMap.get?_insert, if_pos rfl]

theorem Numbered.addCallee {s : Exporter} (h : Numbered s) (call : PendingCall) :
    ∃ s', addCallee s call = some s' ∧ Numbered s' ∧ Grows s s' ∧
      (s'.functionIds.get? call.callee).isSome := by
  rw [CallGraph.addCallee]
  cases hid : s.functionIds.get? call.callee with
  | some functionId => exact ⟨s, rfl, h, Grows.refl s, by rw [hid]; rfl⟩
  | none =>
    obtain ⟨hnum, hmodules, hids, hpending, contract, hcontract, hname⟩ :=
      h.contractFor call.callee.moduleId
    have hkey : keyOf contract ⟨(CallGraph.contractFor s call.callee.moduleId).1.nextFunctionId,
        call.callee.name, call.args, contract.relativeFilePath, [],
        some "external function referenced from Move bytecode"⟩ = call.callee := by
      rw [keyOf, hname]
    have hpush := hnum.pushFunction _ contract
      ⟨(CallGraph.contractFor s call.callee.moduleId).1.nextFunctionId, call.callee.name, call.args,
        contract.relativeFilePath, [], some "external function referenced from Move bytecode"⟩
      hcontract rfl rfl (by rw [hkey, hids, hid])
    refine ⟨_, ?_, hpush, ⟨hmodules, fun key functionId hold => ?_, hpending⟩, ?_⟩
    · simp only [Option.isSome_none, Bool.false_eq_true, if_false, hcontract, Option.map_some,
        CallGraph.pushFunction, hkey]
    · simp only [CallGraph.pushFunction, hkey, SortedMap.get?_insert, hids]
      rw [if_neg, hold]
      rintro rfl
      exact absurd (hid.symm.trans hold) (by simp)
    · simp only [CallGraph.pushFunction, hkey, SortedMap.get?_insert, if_true, Option.isSome_some]

theorem Numbered.addCallees {s : Exporter} (h : Numbered s) (calls : List PendingCall) :
    ∃ s', calls.foldlM CallGraph.addCallee s = some s' ∧ Numbered s' ∧ Grows s s' ∧
      ∀ call ∈ calls, (s'.functionIds.get? call.callee).isSome := by
  induction calls generalizing s with
  | nil => exact ⟨s, rfl, h, Grows.refl s, fun _ hc => absurd hc List.not_mem_nil⟩
  | cons call calls ih =>
    obtain ⟨t, ht, hnum, hgrows, hcall⟩ := h.addCallee call
    obtain ⟨s', hs', hnum', hgrows', hcalls⟩ := ih hnum
    refine ⟨s', by rw [List.foldlM_cons, ht]; exact hs', hnum', hgrows.trans hgrows', ?_⟩
    refine List.forall_mem_cons.mpr ⟨?_, hcalls⟩
    obtain ⟨functionId, hid⟩ := Option.isSome_iff_exists.mp hcall
    rw [hgrows'.functionIds _ _ hid]
    rfl

/- All callees of collected calls have numbers. -/
def Resolved (s : Exporter) : Prop :=
  ∀ key targets, s.pendingCalls.get? key = some targets → ∀ call ∈ targetsOf targets,
    (s.functionIds.get? call.callee).isSome

theorem Numbered.resolved {s : Exporter} (h : Numbered s) :
    ∃ s', CallGraph.addCallees s = some s' ∧ Numbered s' ∧ Grows s s' ∧ Resolved s' := by
  obtain ⟨s', hs', hnum, hgrows, hall⟩ :=
    h.addCallees (s.pendingCalls.entries.flatMap fun e => targetsOf e.2)
  refine ⟨s', hs', hnum, hgrows, fun key targets hkey call hcall => hall call ?_⟩
  rw [hgrows.pendingCalls] at hkey
  exact List.mem_flatMap.mpr ⟨(key, targets), (SortedMap.mem_entries _ _ _).mpr hkey, hcall⟩

end Movy.Analysis.CallGraph
