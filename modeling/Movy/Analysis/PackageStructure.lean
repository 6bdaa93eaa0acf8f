import Movy.Analysis.CallGraph

/-!
# The structure of a package (`movy-analysis/src/export_package_structure.rs`)

A second walk over the same modules collects structs and function metadata, and
looks up the numbers that the call graph gave to contracts and functions. The
two walks write addresses in their own ways.
-/

namespace Movy.Analysis.CallGraph

open Movy.Types
open Movy.Fuzz (MoveFunctionVisibility)

/-! ### The walk -/

inductive AbilityName where
  | copy
  | drop
  | store
  | key

inductive MoveVisibility where
  | public_
  | private_
  | publicPackage

structure MoveGenericParam where
  name : String
  constraints : List AbilityName
  phantom : Bool

structure MoveFunctionMetadata where
  functionId : ℕ
  visibility : MoveVisibility
  isEntry : Bool
  genericParams : List MoveGenericParam

structure MoveField where
  name : String
  typeRepr : String

structure MoveStruct where
  id : ℕ
  contractId : ℕ
  name : String
  abilities : List AbilityName
  genericParams : List MoveGenericParam
  fields : List MoveField

def movyAbilityToVec (ability : MoveAbility) : List AbilityName :=
  (if ability.copy then [.copy] else []) ++ (if ability.drop then [.drop] else []) ++
    (if ability.store then [.store] else []) ++ if ability.key then [.key] else []

def visibilityToKnowdit : MoveFunctionVisibility → MoveVisibility
  | .public_ => .public_
  | .private_ => .private_
  | .friend => .publicPackage

def structFromAbi (id contractId : ℕ) (abi : Published.MoveStructAbi) : MoveStruct where
  id := id
  contractId := contractId
  name := abi.handle.structName
  abilities := movyAbilityToVec abi.handle.abilities
  genericParams := abi.handle.typeParameters.zipIdx.map fun e =>
    ⟨"T" ++ toString e.2, movyAbilityToVec e.1.constraints, e.1.phantom⟩
  fields := abi.fields.map fun field => ⟨field.name, renderToken false field.ty⟩

def metadataOf (functionId : ℕ) (f : FunctionDef) : MoveFunctionMetadata where
  functionId := functionId
  visibility := visibilityToKnowdit f.abi.visibility
  isEntry := f.isEntry
  genericParams := f.abi.typeParameters.zipIdx.map fun e =>
    ⟨"T" ++ toString e.2, movyAbilityToVec e.1, false⟩

structure NameLookup where
  contractIds : SortedMap String ℕ
  functionIds : SortedMap MoveFunctionKey ℕ

def NameLookup.fromCallGraph (graph : SortedMap ℕ Contract) : NameLookup where
  contractIds := (graph.entries.map fun e => (e.2.name, e.2.id)).foldl
    (fun acc e => acc.insert e.1 e.2) SortedMap.empty
  functionIds := (graph.entries.flatMap fun e => e.2.functions.map fun function =>
    (keyOf e.2 function, function.id)).foldl (fun acc e => acc.insert e.1 e.2) SortedMap.empty

/- The id of the module, as this walk writes it. -/
def CompiledModule.canonicalShortId (m : CompiledModule) : String :=
  canonicalShort m.address ++ "::" ++ m.name

structure Collector where
  seenModules : SortedMap String Unit
  nextStructId : ℕ
  structs : List MoveStruct
  structIds : SortedMap MoveFunctionKey ℕ
  functionMetadata : List MoveFunctionMetadata

def Collector.new : Collector := ⟨SortedMap.empty, 1, [], SortedMap.empty, []⟩

inductive CollectError where
  | missingContract (moduleId : String)

def collectStruct (moduleId : String) (contractId : ℕ) (s : Collector)
    (abi : Published.MoveStructAbi) : Collector :=
  { s with
    nextStructId := s.nextStructId + 1
    structIds := s.structIds.insert ⟨moduleId, abi.handle.structName⟩ s.nextStructId
    structs := s.structs ++ [structFromAbi s.nextStructId contractId abi] }

/- A function without a number is passed over. -/
def collectFunction (lookup : NameLookup) (moduleId : String) (s : Collector) (f : FunctionDef) :
    Collector :=
  match lookup.functionIds.get? ⟨moduleId, f.abi.name⟩ with
  | none => s
  | some functionId =>
    { s with functionMetadata := s.functionMetadata ++ [metadataOf functionId f] }

def collectModule (lookup : NameLookup) (s : Collector) (m : CompiledModule) :
    Except CollectError Collector :=
  if Movy.Fuzz.MoveAddress.isSuiStd m.address then .ok s
  else if (s.seenModules.get? m.canonicalShortId).isSome then .ok s
  else match lookup.contractIds.get? m.canonicalShortId with
    | none => .error (.missingContract m.canonicalShortId)
    | some contractId =>
      let s := { s with seenModules := s.seenModules.insert m.canonicalShortId () }
      .ok (m.functions.foldl (collectFunction lookup m.canonicalShortId)
        (m.structs.foldl (collectStruct m.canonicalShortId contractId) s))

def collectPackageStructure (modules : List CompiledModule) (lookup : NameLookup) :
    Except CollectError Collector :=
  modules.foldlM (collectModule lookup) Collector.new

/-! ### The two ways to write an address -/

def lowerHexDigits : List Char :=
  ['0', '1', '2', '3', '4', '5', '6', '7', '8', '9', 'a', 'b', 'c', 'd', 'e', 'f']

theorem mem_lowerHexDigits (c : Char) (h : isLowerHex c = true) : c ∈ lowerHexDigits :=
  of_decide_eq_true h

theorem dropWhile_whiteSpace (l : List Char) (h : ∀ c ∈ l, isWhiteSpace c = false) :
    l.dropWhile isWhiteSpace = l := by
  cases l with
  | nil => rfl
  | cons c l => rw [List.dropWhile_cons, h c List.mem_cons_self]; rfl

theorem trim_eq (l : List Char) (h : ∀ c ∈ l, isWhiteSpace c = false) : trim l = l := by
  rw [trim, dropWhile_whiteSpace l h,
    dropWhile_whiteSpace _ fun c hc => h c (List.mem_reverse.mp hc), List.reverse_reverse]

theorem stripPrefix0x_hexChars (a : MoveAddress) : stripPrefix0x (hexChars a) = hexChars a := by
  unfold stripPrefix0x
  split
  · rename_i rest heq
    have hx := hexChars_lowerHex a 'x' (by rw [heq]; simp)
    exact absurd hx (by decide)
  · rfl

/- With or without a prefix, the normaliser of the call graph gives the short text. -/
theorem canonicalizeAddress_canonicalString (a : MoveAddress) (withPrefix : Bool) :
    canonicalizeAddress (canonicalString a withPrefix) = canonicalShort a := by
  have hspace : lowerHexDigits.all (fun c => !isWhiteSpace c) = true := by decide
  have hlower : lowerHexDigits.all (fun c => c.toLower == c) = true := by decide
  have htext : ∀ c ∈ hexChars a, isWhiteSpace c = false := by
    intro c hc
    simpa using List.all_eq_true.mp hspace c
      (mem_lowerHexDigits c (hexChars_lowerHex a c hc))
  have htrim : trim (canonicalString a withPrefix).toList =
      (if withPrefix then ['0', 'x'] else []) ++ hexChars a := by
    rw [canonicalString, String.toList_ofList]
    refine trim_eq _ fun c hc => ?_
    rcases List.mem_append.mp hc with hc | hc
    · cases withPrefix with
      | false => exact absurd hc List.not_mem_nil
      | true =>
        have hmark : ['0', 'x'].all (fun c => !isWhiteSpace c) = true := by decide
        simpa using List.all_eq_true.mp hmark c hc
    · exact htext c hc
  have hstrip : stripPrefix0x (trim (canonicalString a withPrefix).toList) = hexChars a := by
    rw [htrim]
    cases withPrefix with
    | false => exact stripPrefix0x_hexChars a
    | true => rfl
  have hmap : ∀ l : List Char, (∀ c ∈ l, c ∈ hexChars a) → l.map Char.toLower = l := by
    intro l hl
    refine (List.map_congr_left fun c hc => ?_).trans (List.map_id l)
    exact eq_of_beq (List.all_eq_true.mp hlower c
      (mem_lowerHexDigits c (hexChars_lowerHex a c (hl c hc))))
  rw [canonicalizeAddress, hstrip, canonicalShort_eq]
  split_ifs with hempty
  · rfl
  · rw [hmap _ fun c hc => (List.dropWhile_sublist _).subset hc]

theorem canonicalShort_ofByte : canonicalShort (Movy.Store.ObjectID.ofByte 1) = "0x1" ∧
    canonicalShort (Movy.Store.ObjectID.ofByte 2) = "0x2" ∧
    canonicalShort (Movy.Store.ObjectID.ofByte 3) = "0x3" ∧
    canonicalShort (Movy.Store.ObjectID.ofByte 13) = "0xd" := by
  refine ⟨?_, ?_, ?_, ?_⟩ <;> rfl

theorem isSuiStdModule_eq (a : MoveAddress) (withPrefix : Bool) :
    isSuiStdModule (canonicalString a withPrefix) = Movy.Fuzz.MoveAddress.isSuiStd a := by
  obtain ⟨h1, h2, h3, hd⟩ := canonicalShort_ofByte
  have hbyte : ∀ b : MoveAddress, canonicalShort a = canonicalShort b ↔ a = b := fun b =>
    canonicalShort_injective.eq_iff
  rw [isSuiStdModule, canonicalizeAddress_canonicalString, Bool.eq_iff_iff, List.contains_iff_mem]
  simp only [List.mem_cons, List.not_mem_nil, or_false, ← h1, ← h2, ← h3, ← hd, hbyte,
    Movy.Fuzz.MoveAddress.isSuiStd, Bool.or_eq_true, decide_eq_true_eq, or_assoc]

theorem canonicalShortId_eq (m : CompiledModule) : m.canonicalShortId = m.id := by
  rw [CompiledModule.canonicalShortId, CompiledModule.id, canonicalModuleId,
    CompiledModule.addressText, canonicalizeAddress_canonicalString]

/-! ### What is looked up -/

section

variable {graph : SortedMap ℕ Contract}

theorem contractIds_fromCallGraph (hclosed : Closed graph) (c : ℕ) (contract : Contract)
    (hc : graph.get? c = some contract) :
    (NameLookup.fromCallGraph graph).contractIds.get? contract.name = some c := by
  refine SortedMap.get?_foldl_insert _ _ _ _ ?_ fun w hw => ?_
  · refine List.mem_map.mpr ⟨(c, contract), (SortedMap.mem_entries _ _ _).mpr hc, ?_⟩
    rw [hclosed.contractIds c contract hc]
  · obtain ⟨⟨c', contract'⟩, he, heq⟩ := List.mem_map.mp hw
    obtain ⟨hname, rfl⟩ := Prod.mk.inj heq
    have hc' := (SortedMap.mem_entries _ _ _).mp he
    exact (hclosed.contractIds c' contract' hc').trans
      (hclosed.contractNames c' contract' c contract hc' hc hname)

theorem functionIds_fromCallGraph (hclosed : Closed graph) (key : MoveFunctionKey) (functionId : ℕ)
    (hid : HasId graph key functionId) :
    (NameLookup.fromCallGraph graph).functionIds.get? key = some functionId := by
  obtain ⟨c, i, contract, function, hat, rfl, rfl⟩ := hid
  refine SortedMap.get?_foldl_insert _ _ _ _ ?_ fun w hw => ?_
  · exact List.mem_flatMap.mpr ⟨(c, contract), (SortedMap.mem_entries _ _ _).mpr hat.found,
      List.mem_map.mpr ⟨function, List.mem_of_getElem? hat.there, rfl⟩⟩
  · obtain ⟨⟨c', contract'⟩, he, hw⟩ := List.mem_flatMap.mp hw
    obtain ⟨function', hfunction', heq⟩ := List.mem_map.mp hw
    obtain ⟨hkey, rfl⟩ := Prod.mk.inj heq
    obtain ⟨i', hi'⟩ := List.getElem?_of_mem hfunction'
    have hat' : FunctionAt graph c' i' contract' function' :=
      ⟨(SortedMap.mem_entries _ _ _).mp he, hi'⟩
    obtain ⟨rfl, rfl⟩ := hclosed.functionKeys c' i' contract' function' c i contract function hat' hat
      hkey
    obtain rfl := Option.some.inj (hat'.found.symm.trans hat.found)
    rw [Option.some.inj (hat'.there.symm.trans hat.there)]

/- A metadata row carries the number of the function with its module and name. -/
def MetadataRow (graph : SortedMap ℕ Contract) (d : String × FunctionDef)
    (row : MoveFunctionMetadata) : Prop :=
  ∃ functionId, HasId graph ⟨d.1, d.2.abi.name⟩ functionId ∧ row = metadataOf functionId d.2

/- A struct row carries the number of the contract with its module. -/
def StructRow (graph : SortedMap ℕ Contract) (d : String × Published.MoveStructAbi)
    (row : MoveStruct) : Prop :=
  ∃ contract, graph.get? row.contractId = some contract ∧ contract.name = d.1 ∧
    row = structFromAbi row.id row.contractId d.2

def structDeclarations (m : CompiledModule) : List (String × Published.MoveStructAbi) :=
  m.structs.map fun st => (m.id, st)

structure Collected (graph : SortedMap ℕ Contract) (s : Collector) (seen : List String)
    (ds : List (String × FunctionDef)) (sts : List (String × Published.MoveStructAbi)) : Prop where
  seenModules : ∀ m, (s.seenModules.get? m).isSome ↔ m ∈ seen
  metadata : List.Forall₂ (MetadataRow graph) ds s.functionMetadata
  structs : List.Forall₂ (StructRow graph) sts s.structs

theorem collected_new (graph : SortedMap ℕ Contract) : Collected graph Collector.new [] [] [] where
  seenModules m := by simp [Collector.new]
  metadata := .nil
  structs := .nil

theorem collectStructs_collected (moduleId : String) (contractId : ℕ) (contract : Contract)
    (hc : graph.get? contractId = some contract) (hname : contract.name = moduleId)
    (abis : List Published.MoveStructAbi) (s : Collector) (seen : List String)
    (ds : List (String × FunctionDef)) (sts : List (String × Published.MoveStructAbi))
    (h : Collected graph s seen ds sts) :
    Collected graph (abis.foldl (collectStruct moduleId contractId) s) seen ds
      (sts ++ abis.map fun st => (moduleId, st)) := by
  induction abis generalizing s sts with
  | nil => rwa [List.map_nil, List.append_nil]
  | cons abi abis ih =>
    have hrest := ih (collectStruct moduleId contractId s abi) (sts ++ [(moduleId, abi)])
      ⟨h.seenModules, h.metadata,
        List.rel_append h.structs (.cons ⟨contract, hc, hname, rfl⟩ .nil)⟩
    rwa [List.append_assoc] at hrest

theorem collectFunctions_collected (hclosed : Closed graph) (moduleId : String)
    (fs : List FunctionDef)
    (hids : ∀ f ∈ fs, ∃ functionId, HasId graph ⟨moduleId, f.abi.name⟩ functionId) (s : Collector)
    (seen : List String) (ds : List (String × FunctionDef))
    (sts : List (String × Published.MoveStructAbi)) (h : Collected graph s seen ds sts) :
    Collected graph
      (fs.foldl (collectFunction (NameLookup.fromCallGraph graph) moduleId) s) seen
      (ds ++ fs.map fun f => (moduleId, f)) sts := by
  induction fs generalizing s ds with
  | nil => rwa [List.map_nil, List.append_nil]
  | cons f fs ih =>
    obtain ⟨functionId, hid⟩ := hids f List.mem_cons_self
    have hstep : collectFunction (NameLookup.fromCallGraph graph) moduleId s f =
        { s with functionMetadata := s.functionMetadata ++ [metadataOf functionId f] } := by
      rw [collectFunction, functionIds_fromCallGraph hclosed _ functionId hid]
    have hrest := ih (fun f hf => hids f (List.mem_cons_of_mem _ hf))
      { s with functionMetadata := s.functionMetadata ++ [metadataOf functionId f] }
      (ds ++ [(moduleId, f)])
      ⟨h.seenModules, List.rel_append h.metadata (.cons ⟨functionId, hid, rfl⟩ .nil), h.structs⟩
    rw [List.foldl_cons, hstep]
    rwa [List.append_assoc] at hrest

/- The two walks skip the same modules. -/
theorem collectModules_collected (hclosed : Closed graph) (modules : List CompiledModule)
    (s : Collector) (seen : List String) (ds : List (String × FunctionDef))
    (sts : List (String × Published.MoveStructAbi)) (h : Collected graph s seen ds sts)
    (hall : ∀ m ∈ analysed seen modules,
      (∃ c contract, graph.get? c = some contract ∧ contract.name = m.id) ∧
      ∀ f ∈ m.functions, ∃ functionId, HasId graph ⟨m.id, f.abi.name⟩ functionId) :
    ∃ s' seen', modules.foldlM (collectModule (NameLookup.fromCallGraph graph)) s = .ok s' ∧
      Collected graph s' seen' (ds ++ (analysed seen modules).flatMap declarations)
        (sts ++ (analysed seen modules).flatMap structDeclarations) := by
  induction modules generalizing s seen ds sts with
  | nil =>
    refine ⟨s, seen, rfl, ?_⟩
    rwa [analysed, List.flatMap_nil, List.flatMap_nil, List.append_nil, List.append_nil]
  | cons m ms ih =>
    rw [List.foldlM_cons, collectModule, canonicalShortId_eq,
      ← isSuiStdModule_eq m.address false, ← CompiledModule.addressText]
    rw [analysed] at hall ⊢
    by_cases hskip : (isSuiStdModule m.addressText || seen.contains m.id) = true
    · rw [if_pos hskip] at hall ⊢
      obtain ⟨s', seen', hrun, hcollected⟩ := ih s seen ds sts h hall
      refine ⟨s', seen', ?_, hcollected⟩
      rcases Bool.or_eq_true_iff.mp hskip with hstd | hin
      · rw [if_pos hstd]
        exact hrun
      · have hseen := (h.seenModules m.id).mpr (List.contains_iff_mem.mp hin)
        split_ifs
        · exact hrun
        · exact hrun
    · rw [if_neg hskip] at hall ⊢
      simp only [Bool.or_eq_true, not_or, List.contains_iff_mem] at hskip
      have hunseen : ¬(s.seenModules.get? m.id).isSome = true := fun hin =>
        hskip.2 ((h.seenModules m.id).mp hin)
      obtain ⟨⟨c, contract, hc, hname⟩, hids⟩ := hall m List.mem_cons_self
      have hlookup := contractIds_fromCallGraph hclosed c contract hc
      rw [hname] at hlookup
      rw [if_neg hskip.1, if_neg hunseen, hlookup]
      have hmark : Collected graph { s with seenModules := s.seenModules.insert m.id () }
          (m.id :: seen) ds sts := by
        refine ⟨fun name => ?_, h.metadata, h.structs⟩
        simp only [SortedMap.get?_insert, List.mem_cons]
        split_ifs with heq
        · simp [heq]
        · simp [heq, h.seenModules name]
      have hstructs := collectStructs_collected m.id c contract hc hname m.structs _ _ ds sts hmark
      have hfunctions := collectFunctions_collected hclosed m.id m.functions hids _ _ ds _ hstructs
      obtain ⟨s', seen', hrun, hcollected⟩ := ih _ _ _ _ hfunctions
        fun m' hm' => hall m' (List.mem_cons_of_mem _ hm')
      refine ⟨s', seen', hrun, ?_⟩
      rw [List.flatMap_cons, List.flatMap_cons, ← List.append_assoc, ← List.append_assoc]
      exact hcollected

end

/- Every module that is not of the framework has an analysed one of its id. -/
theorem exists_analysed (modules : List CompiledModule) (seen : List String) (m : CompiledModule)
    (hm : m ∈ modules) (hstd : Movy.Fuzz.MoveAddress.isSuiStd m.address = false)
    (hseen : m.id ∉ seen) : ∃ m' ∈ analysed seen modules, m'.id = m.id := by
  induction modules generalizing seen with
  | nil => exact absurd hm List.not_mem_nil
  | cons x xs ih =>
    rw [analysed]
    have hown : isSuiStdModule m.addressText = false := by
      rw [CompiledModule.addressText, isSuiStdModule_eq, hstd]
    by_cases hskip : (isSuiStdModule x.addressText || seen.contains x.id) = true
    · rw [if_pos hskip]
      refine ih seen ?_ hseen
      rcases List.mem_cons.mp hm with rfl | hm
      · rw [hown, Bool.false_or, List.contains_iff_mem] at hskip
        exact absurd hskip hseen
      · exact hm
    · rw [if_neg hskip]
      by_cases hid : x.id = m.id
      · exact ⟨x, List.mem_cons_self, hid⟩
      · rcases List.mem_cons.mp hm with rfl | hm
        · exact absurd rfl hid
        · obtain ⟨m', hm', hsame⟩ := ih (x.id :: seen) hm (by
            simp only [List.mem_cons, not_or]
            exact ⟨Ne.symm hid, hseen⟩)
          exact ⟨m', List.mem_cons_of_mem _ hm', hsame⟩

/- The call graph of any modules is closed, the calls of the analysed ones are exported,
and the package structure finds its numbers in it: addresses have one short text, whichever
way it is made. -/
theorem callGraph_agrees (modules : List CompiledModule) :
    ∃ graph, loadCallGraph modules = some graph ∧ Closed graph ∧
      (∀ m ∈ analysed [] modules, ∀ f ∈ m.functions, ExportsCalls graph m.id f) ∧
      (∀ c i contract function, FunctionAt graph c i contract function → function.calls ≠ [] →
        ∃ m ∈ analysed [] modules, ∃ f ∈ m.functions,
          keyOf contract function = ⟨m.id, f.abi.name⟩) ∧
      (∀ m ∈ modules, Movy.Fuzz.MoveAddress.isSuiStd m.address = false →
        (∃ m' ∈ analysed [] modules, m'.id = m.id) ∧
        ∃ c contract, graph.get? c = some contract ∧ contract.name = m.canonicalShortId ∧
          (NameLookup.fromCallGraph graph).contractIds.get? m.canonicalShortId = some c) ∧
      (∃ s, collectPackageStructure modules (NameLookup.fromCallGraph graph) = .ok s ∧
        List.Forall₂ (MetadataRow graph) ((analysed [] modules).flatMap declarations)
          s.functionMetadata ∧
        List.Forall₂ (StructRow graph) ((analysed [] modules).flatMap structDeclarations)
          s.structs) ∧
      (∀ a withPrefix, canonicalizeAddress (canonicalString a withPrefix) = canonicalShort a) ∧
      Function.Injective canonicalShort := by
  obtain ⟨graph, hgraph, hclosed, hanalysed, honly⟩ := loadCallGraph_closed modules
  obtain ⟨s, _, hs, hcollected⟩ := collectModules_collected hclosed modules Collector.new [] [] []
    (collected_new graph) fun m hm => ⟨(hanalysed m hm).1, fun f hf => by
      obtain ⟨c, i, contract, function, _, hat, hkey, _⟩ := (hanalysed m hm).2 f hf
      exact ⟨function.id, c, i, contract, function, hat, hkey, rfl⟩⟩
  refine ⟨graph, hgraph, hclosed, fun m hm => (hanalysed m hm).2, honly, fun m hm hstd => ?_,
    ⟨s, hs, hcollected.metadata, hcollected.structs⟩, canonicalizeAddress_canonicalString,
    canonicalShort_injective⟩
  obtain ⟨m', hm', hid⟩ := exists_analysed modules [] m hm hstd List.not_mem_nil
  obtain ⟨⟨c, contract, hc, hname⟩, _⟩ := hanalysed m' hm'
  have hshort : contract.name = m.canonicalShortId := by
    rw [hname, hid, canonicalShortId_eq]
  refine ⟨⟨m', hm', hid⟩, c, contract, hc, hshort, ?_⟩
  rw [← hshort]
  exact contractIds_fromCallGraph hclosed c contract hc

end Movy.Analysis.CallGraph
