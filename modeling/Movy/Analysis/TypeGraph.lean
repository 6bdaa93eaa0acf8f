import Movy.Fuzz.MutateSequence

/-!
# The type graph (`movy-analysis/src/type_graph.rs`)

Functions and types are the nodes. An edge leads from the type of a parameter to the
function, and from the function to the type of a result; the types of the nodes are
dereferenced, and every type has one node, found through `tys`.
-/

namespace Movy.Analysis

open Movy.Types Movy.Fuzz

inductive TypeGraphNode where
  | function (moduleId : MoveModuleId) (abi : MoveFunctionAbi)
  | type (ty : MoveAbiSignatureToken)

def TypeGraphNode.asFunction : TypeGraphNode → Option (MoveModuleId × MoveFunctionAbi)
  | .function m f => some (m, f)
  | .type _ => none

inductive TypeGraphEdge where
  | functionReturn
  | mutableReference
  | reference
  | value

structure Edge where
  source : ℕ
  target : ℕ
  weight : TypeGraphEdge

/- The map `tys` is kept in the order of insertion: what is found through it is drawn
at random. -/
structure MoveTypeGraph where
  nodes : List TypeGraphNode
  edges : List Edge
  tys : List (MoveAbiSignatureToken × ℕ)
  modules : List MoveModuleId

/- The type without the reference. -/
def bare (ty : MoveAbiSignatureToken) : MoveAbiSignatureToken := ty.dereference.getD ty

@[simp] theorem bare_reference (ty : MoveAbiSignatureToken) : bare (.reference ty) = ty := rfl

@[simp] theorem bare_mutableReference (ty : MoveAbiSignatureToken) :
    bare (.mutableReference ty) = ty := rfl

def paramEdge : MoveAbiSignatureToken → MoveAbiSignatureToken × TypeGraphEdge
  | .reference v => (v, .reference)
  | .mutableReference v => (v, .mutableReference)
  | param => (param, .value)

theorem paramEdge_bare (param : MoveAbiSignatureToken) : (paramEdge param).1 = bare param := by
  cases param <;> rfl

namespace MoveTypeGraph

def new : MoveTypeGraph := ⟨[], [], [], []⟩

def addNode (self : MoveTypeGraph) (node : TypeGraphNode) : ℕ × MoveTypeGraph :=
  (self.nodes.length, { self with nodes := self.nodes ++ [node] })

def addEdge (self : MoveTypeGraph) (source target : ℕ) (weight : TypeGraphEdge) : MoveTypeGraph :=
  { self with edges := self.edges ++ [⟨source, target, weight⟩] }

def mayAddTy (self : MoveTypeGraph) (ty : MoveAbiSignatureToken) : ℕ × MoveTypeGraph :=
  match self.tys.lookup ty with
  | some idx => (idx, self)
  | none =>
    let (idx, graph) := self.addNode (.type ty)
    (idx, { graph with tys := graph.tys ++ [(ty, idx)] })

def addParam (fidx : ℕ) (self : MoveTypeGraph) (param : MoveAbiSignatureToken) : MoveTypeGraph :=
  let (tyNodeIdx, graph) := self.mayAddTy (paramEdge param).1
  graph.addEdge tyNodeIdx fidx (paramEdge param).2

def addReturn (fidx : ℕ) (self : MoveTypeGraph) (rt : MoveAbiSignatureToken) : MoveTypeGraph :=
  let (nodeIdx, graph) := self.mayAddTy (bare rt)
  graph.addEdge fidx nodeIdx .functionReturn

def addFunction (self : MoveTypeGraph) (function : MoveFunctionAbi) (moduleId : MoveModuleId) :
    MoveTypeGraph :=
  let (fidx, graph) := self.addNode (.function moduleId function)
  function.returnParamters.foldl (addReturn fidx) (function.parameters.foldl (addParam fidx) graph)

/- A module that was added before is left out. -/
def addModule (self : MoveTypeGraph) (module : MoveModuleAbi) : MoveTypeGraph :=
  if module.moduleId ∈ self.modules then self
  else module.functions.foldl (fun graph func => graph.addFunction func module.moduleId)
    { self with modules := module.moduleId :: self.modules }

def addPackage (self : MoveTypeGraph) (abi : MovePackageAbi) : MoveTypeGraph :=
  abi.modules.foldl addModule self

/- The graph of some packages, added one after the other. -/
def ofPackages (abis : List MovePackageAbi) : MoveTypeGraph := abis.foldl addPackage new

def functionAt (self : MoveTypeGraph) (idx : ℕ) : Option (MoveModuleId × MoveFunctionAbi) :=
  (self.nodes[idx]?).bind TypeGraphNode.asFunction

def findConsumers (self : MoveTypeGraph) (ty : MoveAbiSignatureToken) (publicOnly : Bool) :
    List (MoveModuleId × MoveFunctionAbi) :=
  self.tys.flatMap fun (t, node) =>
    if (t.partialExtractTyArgs ty).isSome then
      (self.edges.filter fun e => e.source = node).filterMap fun e =>
        (self.functionAt e.target).filter fun mf => !publicOnly || mf.2.visibility = .public_
    else []

/- What `find_producers` asks of a function apart from its results. -/
def offered (publicOnly : Bool) (excluded : Option (MoveAddress × String × String))
    (m : MoveModuleId) (f : MoveFunctionAbi) : Bool :=
  (!publicOnly || f.visibility = .public_) &&
    !(excluded = some (m.moduleAddress, m.moduleName, f.name)) && producerAllowed m f

def findProducers (self : MoveTypeGraph) (ty : MoveAbiSignatureToken) (publicOnly : Bool)
    (excluded : Option (MoveAddress × String × String)) : List (MoveModuleId × MoveFunctionAbi) :=
  let ty := bare ty
  self.tys.flatMap fun (t, node) =>
    if (t.partialExtractTyArgs ty).isSome then
      (self.edges.filter fun e => e.target = node).filterMap fun e =>
        (self.functionAt e.source).filter fun mf => offered publicOnly excluded mf.1 mf.2
    else []

/- The functions that were added. -/
def functions (self : MoveTypeGraph) : List (MoveModuleId × MoveFunctionAbi) :=
  self.nodes.filterMap TypeGraphNode.asFunction

theorem functionAt_eq_some (self : MoveTypeGraph) (idx : ℕ) (m : MoveModuleId)
    (f : MoveFunctionAbi) :
    self.functionAt idx = some (m, f) ↔ self.nodes[idx]? = some (.function m f) := by
  rw [functionAt, Option.bind_eq_some_iff]
  constructor
  · intro hall
    obtain ⟨node, hnode, heq⟩ := hall
    cases node with
    | function m' f' =>
      obtain ⟨rfl, rfl⟩ := Prod.mk.inj (Option.some.inj heq)
      exact hnode
    | type ty => cases heq
  · exact fun h => ⟨_, h, rfl⟩

theorem functionAt_mem (self : MoveTypeGraph) (idx : ℕ) (mf : MoveModuleId × MoveFunctionAbi)
    (h : self.functionAt idx = some mf) : mf ∈ self.functions := by
  obtain ⟨node, hnode, heq⟩ := Option.bind_eq_some_iff.mp h
  exact List.mem_filterMap.mpr ⟨node, List.mem_of_getElem? hnode, heq⟩

/-! ### Growing -/

/- Nothing of the graph is lost. -/
structure Extends (g g' : MoveTypeGraph) : Prop where
  nodes : g.nodes <+: g'.nodes
  edges : ∀ e ∈ g.edges, e ∈ g'.edges
  tys : ∀ e ∈ g.tys, e ∈ g'.tys

theorem Extends.refl (g : MoveTypeGraph) : Extends g g :=
  ⟨List.prefix_refl _, fun _ h => h, fun _ h => h⟩

theorem Extends.trans {g g' g'' : MoveTypeGraph} (h : Extends g g') (h' : Extends g' g'') :
    Extends g g'' :=
  ⟨h.nodes.trans h'.nodes, fun e he => h'.edges e (h.edges e he),
    fun e he => h'.tys e (h.tys e he)⟩

theorem Extends.node {g g' : MoveTypeGraph} (h : Extends g g') (i : ℕ) (node : TypeGraphNode)
    (hi : g.nodes[i]? = some node) : g'.nodes[i]? = some node := by
  obtain ⟨rest, hrest⟩ := h.nodes
  rw [← hrest, List.getElem?_append_left (List.getElem?_eq_some_iff.mp hi).1]
  exact hi

theorem extends_addNode (g : MoveTypeGraph) (node : TypeGraphNode) :
    Extends g (g.addNode node).2 :=
  ⟨List.prefix_append _ _, fun _ h => h, fun _ h => h⟩

theorem extends_addEdge (g : MoveTypeGraph) (source target : ℕ) (weight : TypeGraphEdge) :
    Extends g (g.addEdge source target weight) :=
  ⟨List.prefix_refl _, fun _ h => List.mem_append_left _ h, fun _ h => h⟩

theorem extends_mayAddTy (g : MoveTypeGraph) (ty : MoveAbiSignatureToken) :
    Extends g (g.mayAddTy ty).2 := by
  unfold mayAddTy
  cases g.tys.lookup ty with
  | some idx => exact Extends.refl g
  | none => exact ⟨List.prefix_append _ _, fun _ h => h, fun _ h => List.mem_append_left _ h⟩

theorem extends_addParam (fidx : ℕ) (g : MoveTypeGraph) (param : MoveAbiSignatureToken) :
    Extends g (addParam fidx g param) :=
  (extends_mayAddTy g _).trans (extends_addEdge _ _ _ _)

theorem extends_addReturn (fidx : ℕ) (g : MoveTypeGraph) (rt : MoveAbiSignatureToken) :
    Extends g (addReturn fidx g rt) :=
  (extends_mayAddTy g _).trans (extends_addEdge _ _ _ _)

theorem Extends.functionAt {g g' : MoveTypeGraph} (h : Extends g g') (i : ℕ)
    (mf : MoveModuleId × MoveFunctionAbi) (hi : g.functionAt i = some mf) :
    g'.functionAt i = some mf := by
  obtain ⟨node, hnode, heq⟩ := Option.bind_eq_some_iff.mp hi
  rw [MoveTypeGraph.functionAt, h.node i node hnode, Option.bind_some, heq]

/-! ### What the edges say -/

/- Edges of types lead to functions with such a parameter, and come from functions with
such a result. -/
structure Sound (g : MoveTypeGraph) : Prop where
  types : ∀ e ∈ g.tys, g.nodes[e.2]? = some (.type e.1)
  ends : ∀ e ∈ g.edges, e.source < g.nodes.length ∧ e.target < g.nodes.length
  incoming : ∀ e ∈ g.edges, ∀ t, g.nodes[e.target]? = some (.type t) →
    ∃ mf, g.functionAt e.source = some mf ∧ ∃ rt ∈ mf.2.returnParamters, bare rt = t
  outgoing : ∀ e ∈ g.edges, ∀ t, g.nodes[e.source]? = some (.type t) →
    ∃ mf, g.functionAt e.target = some mf ∧ ∃ param ∈ mf.2.parameters, bare param = t

theorem sound_new : Sound new :=
  ⟨fun _ h => absurd h List.not_mem_nil, fun _ h => absurd h List.not_mem_nil,
    fun _ h => absurd h List.not_mem_nil, fun _ h => absurd h List.not_mem_nil⟩

theorem sound_addNode (g : MoveTypeGraph) (hg : Sound g) (node : TypeGraphNode) :
    Sound (g.addNode node).2 := by
  have hgrow := extends_addNode g node
  have hold : ∀ i < g.nodes.length, (g.addNode node).2.nodes[i]? = g.nodes[i]? :=
    fun i hi => List.getElem?_append_left hi
  constructor
  · exact fun e he => hgrow.node _ _ (hg.types e he)
  · intro e he
    obtain ⟨hsource, htarget⟩ := hg.ends e he
    simp only [addNode, List.length_append, List.length_singleton]
    omega
  · intro e he t ht
    rw [hold _ (hg.ends e he).2] at ht
    obtain ⟨mf, hmf, hret⟩ := hg.incoming e he t ht
    exact ⟨mf, hgrow.functionAt _ _ hmf, hret⟩
  · intro e he t ht
    rw [hold _ (hg.ends e he).1] at ht
    obtain ⟨mf, hmf, hparam⟩ := hg.outgoing e he t ht
    exact ⟨mf, hgrow.functionAt _ _ hmf, hparam⟩

theorem mem_of_lookup (tys : List (MoveAbiSignatureToken × ℕ)) (ty : MoveAbiSignatureToken)
    (idx : ℕ) (h : tys.lookup ty = some idx) : (ty, idx) ∈ tys := by
  obtain ⟨l, r, rfl, _⟩ := List.lookup_eq_some_iff.mp h
  exact List.mem_append_right _ (List.mem_cons_self ..)

/- The node of the type, which may be there already. -/
theorem mayAddTy_spec (g : MoveTypeGraph) (hg : Sound g) (ty : MoveAbiSignatureToken) :
    Sound (g.mayAddTy ty).2 ∧ (ty, (g.mayAddTy ty).1) ∈ (g.mayAddTy ty).2.tys := by
  unfold mayAddTy
  cases h : g.tys.lookup ty with
  | some idx => exact ⟨hg, mem_of_lookup _ _ _ h⟩
  | none =>
    obtain ⟨htypes, hends, hin, hout⟩ := sound_addNode g hg (.type ty)
    refine ⟨⟨?_, hends, hin, hout⟩, List.mem_append_right _ (List.mem_singleton_self _)⟩
    intro e he
    rcases List.mem_append.mp he with he | he
    · exact htypes e he
    · rw [List.mem_singleton.mp he]
      exact List.getElem?_concat_length

theorem sound_addEdge (g : MoveTypeGraph) (hg : Sound g) (source target : ℕ)
    (weight : TypeGraphEdge) (hsource : source < g.nodes.length)
    (htarget : target < g.nodes.length)
    (hin : ∀ t, g.nodes[target]? = some (.type t) → ∃ mf, g.functionAt source = some mf ∧
      ∃ rt ∈ mf.2.returnParamters, bare rt = t)
    (hout : ∀ t, g.nodes[source]? = some (.type t) → ∃ mf, g.functionAt target = some mf ∧
      ∃ param ∈ mf.2.parameters, bare param = t) :
    Sound (g.addEdge source target weight) := by
  refine ⟨hg.types, ?_, ?_, ?_⟩
  · intro e he
    rcases List.mem_append.mp he with he | he
    · exact hg.ends e he
    · rw [List.mem_singleton.mp he]
      exact ⟨hsource, htarget⟩
  · intro e he
    rcases List.mem_append.mp he with he | he
    · exact hg.incoming e he
    · rw [List.mem_singleton.mp he]
      exact hin
  · intro e he
    rcases List.mem_append.mp he with he | he
    · exact hg.outgoing e he
    · rw [List.mem_singleton.mp he]
      exact hout

/-! ### What the functions left -/

/- The graph leads from the function to the result. -/
def Produced (mf : MoveModuleId × MoveFunctionAbi) (g : MoveTypeGraph)
    (rt : MoveAbiSignatureToken) : Prop :=
  ∃ e ∈ g.edges, g.functionAt e.source = some mf ∧ (bare rt, e.target) ∈ g.tys

def Consumed (mf : MoveModuleId × MoveFunctionAbi) (g : MoveTypeGraph)
    (param : MoveAbiSignatureToken) : Prop :=
  ∃ e ∈ g.edges, g.functionAt e.target = some mf ∧ (bare param, e.source) ∈ g.tys

theorem Extends.produced {g g' : MoveTypeGraph} (h : Extends g g')
    (mf : MoveModuleId × MoveFunctionAbi) (rt : MoveAbiSignatureToken)
    (hrt : Produced mf g rt) : Produced mf g' rt := by
  obtain ⟨e, he, hsource, htarget⟩ := hrt
  exact ⟨e, h.edges e he, h.functionAt _ _ hsource, h.tys _ htarget⟩

theorem Extends.consumed {g g' : MoveTypeGraph} (h : Extends g g')
    (mf : MoveModuleId × MoveFunctionAbi) (param : MoveAbiSignatureToken)
    (hparam : Consumed mf g param) : Consumed mf g' param := by
  obtain ⟨e, he, htarget, hsource⟩ := hparam
  exact ⟨e, h.edges e he, h.functionAt _ _ htarget, h.tys _ hsource⟩

theorem functions_mayAddTy (g : MoveTypeGraph) (ty : MoveAbiSignatureToken) :
    (g.mayAddTy ty).2.functions = g.functions := by
  unfold mayAddTy
  cases g.tys.lookup ty with
  | some idx => rfl
  | none =>
    show (g.nodes ++ [TypeGraphNode.type ty]).filterMap _ = _
    rw [List.filterMap_append]
    exact List.append_nil _

/- What one step of a loop over the parameters or the results does. -/
structure Links (mf : MoveModuleId × MoveFunctionAbi)
    (Linked : MoveTypeGraph → MoveAbiSignatureToken → Prop) (g g' : MoveTypeGraph)
    (tys : List MoveAbiSignatureToken) : Prop where
  grown : Extends g g'
  sound : Sound g'
  functions : g'.functions = g.functions
  linked : ∀ ty ∈ tys, Linked g' ty

theorem addReturn_links (g : MoveTypeGraph) (hg : Sound g) (fidx : ℕ)
    (mf : MoveModuleId × MoveFunctionAbi) (hf : g.functionAt fidx = some mf)
    (rt : MoveAbiSignatureToken) (hrt : rt ∈ mf.2.returnParamters) :
    Links mf (Produced mf) g (addReturn fidx g rt) [rt] := by
  obtain ⟨hsound, hmem⟩ := mayAddTy_spec g hg (bare rt)
  have hf' := (extends_mayAddTy g (bare rt)).functionAt _ _ hf
  have hnode := (functionAt_eq_some _ fidx mf.1 mf.2).mp hf'
  have htype := hsound.types _ hmem
  refine ⟨extends_addReturn fidx g rt, ?_, functions_mayAddTy g (bare rt), ?_⟩
  · refine sound_addEdge _ hsound _ _ _ (List.getElem?_eq_some_iff.mp hnode).1
      (List.getElem?_eq_some_iff.mp htype).1 ?_ ?_
    · intro t ht
      obtain rfl := TypeGraphNode.type.inj (Option.some.inj (htype.symm.trans ht))
      exact ⟨mf, hf', rt, hrt, rfl⟩
    · intro t ht
      cases hnode.symm.trans ht
  · rw [List.forall_mem_singleton]
    exact ⟨_, List.mem_append_right _ (List.mem_singleton_self _), hf', hmem⟩

theorem addParam_links (g : MoveTypeGraph) (hg : Sound g) (fidx : ℕ)
    (mf : MoveModuleId × MoveFunctionAbi) (hf : g.functionAt fidx = some mf)
    (param : MoveAbiSignatureToken) (hparam : param ∈ mf.2.parameters) :
    Links mf (Consumed mf) g (addParam fidx g param) [param] := by
  obtain ⟨hsound, hmem⟩ := mayAddTy_spec g hg (paramEdge param).1
  have hf' := (extends_mayAddTy g (paramEdge param).1).functionAt _ _ hf
  have hnode := (functionAt_eq_some _ fidx mf.1 mf.2).mp hf'
  have htype := hsound.types _ hmem
  refine ⟨extends_addParam fidx g param, ?_, functions_mayAddTy g (paramEdge param).1, ?_⟩
  · refine sound_addEdge _ hsound _ _ _ (List.getElem?_eq_some_iff.mp htype).1
      (List.getElem?_eq_some_iff.mp hnode).1 ?_ ?_
    · intro t ht
      cases hnode.symm.trans ht
    · intro t ht
      obtain rfl := TypeGraphNode.type.inj (Option.some.inj (htype.symm.trans ht))
      exact ⟨mf, hf', param, hparam, (paramEdge_bare param).symm⟩
  · rw [List.forall_mem_singleton]
    have hbare : (bare param, (g.mayAddTy (paramEdge param).1).1) ∈
        (g.mayAddTy (paramEdge param).1).2.tys := by
      rw [← paramEdge_bare]
      exact hmem
    exact ⟨_, List.mem_append_right _ (List.mem_singleton_self _), hf', hbare⟩

/- A loop over the types of a function. -/
theorem foldl_links (mf : MoveModuleId × MoveFunctionAbi)
    (Linked : MoveTypeGraph → MoveAbiSignatureToken → Prop)
    (hmono : ∀ g g', Extends g g' → ∀ ty, Linked g ty → Linked g' ty)
    (fidx : ℕ) (step : MoveTypeGraph → MoveAbiSignatureToken → MoveTypeGraph)
    (tys : List MoveAbiSignatureToken)
    (hstep : ∀ g, Sound g → g.functionAt fidx = some mf → ∀ ty ∈ tys,
      Links mf Linked g (step g ty) [ty])
    (g : MoveTypeGraph) (hg : Sound g) (hf : g.functionAt fidx = some mf) :
    Links mf Linked g (tys.foldl step g) tys := by
  induction tys generalizing g with
  | nil => exact ⟨Extends.refl g, hg, rfl, fun _ h => absurd h List.not_mem_nil⟩
  | cons ty tys ih =>
    obtain ⟨hgrown, hsound, hfunctions, hlinked⟩ := hstep g hg hf ty (List.mem_cons_self ..)
    obtain ⟨hgrown', hsound', hfunctions', hlinked'⟩ :=
      ih (fun g hg hf ty hty => hstep g hg hf ty (List.mem_cons_of_mem _ hty)) (step g ty) hsound
        (hgrown.functionAt _ _ hf)
    refine ⟨hgrown.trans hgrown', hsound', hfunctions'.trans hfunctions, ?_⟩
    rw [List.forall_mem_cons]
    exact ⟨hmono _ _ hgrown' ty (hlinked ty (List.mem_singleton_self _)), hlinked'⟩

/- Every function of the graph is linked to all its types. -/
structure Indexed (g : MoveTypeGraph) : Prop where
  sound : Sound g
  produced : ∀ mf ∈ g.functions, ∀ rt ∈ mf.2.returnParamters, Produced mf g rt
  consumed : ∀ mf ∈ g.functions, ∀ param ∈ mf.2.parameters, Consumed mf g param

theorem indexed_new : Indexed new :=
  ⟨sound_new, fun _ h => absurd h List.not_mem_nil, fun _ h => absurd h List.not_mem_nil⟩

theorem addFunction_indexed (g : MoveTypeGraph) (hg : Indexed g) (function : MoveFunctionAbi)
    (moduleId : MoveModuleId) :
    Indexed (g.addFunction function moduleId) ∧
      (g.addFunction function moduleId).functions = g.functions ++ [(moduleId, function)] := by
  have hadd := extends_addNode g (.function moduleId function)
  have hf : (g.addNode (.function moduleId function)).2.functionAt g.nodes.length =
      some (moduleId, function) :=
    (functionAt_eq_some _ _ _ _).mpr List.getElem?_concat_length
  have hparams := foldl_links (moduleId, function) (Consumed (moduleId, function))
    (fun g g' h => h.consumed _) g.nodes.length (addParam g.nodes.length) function.parameters
    (fun g hg hf param hparam => addParam_links g hg _ _ hf param hparam) _
    (sound_addNode g hg.sound _) hf
  have hreturns := foldl_links (moduleId, function) (Produced (moduleId, function))
    (fun g g' h => h.produced _) g.nodes.length (addReturn g.nodes.length)
    function.returnParamters (fun g hg hf rt hrt => addReturn_links g hg _ _ hf rt hrt) _
    hparams.sound (hparams.grown.functionAt _ _ hf)
  have hgrown := hadd.trans (hparams.grown.trans hreturns.grown)
  have hfunctions : (g.addFunction function moduleId).functions =
      g.functions ++ [(moduleId, function)] :=
    hreturns.functions.trans (hparams.functions.trans List.filterMap_append)
  refine ⟨⟨hreturns.sound, ?_, ?_⟩, hfunctions⟩
  · intro mf hmf
    rw [hfunctions] at hmf
    rcases List.mem_append.mp hmf with hmf | hmf
    · exact fun rt hrt => hgrown.produced mf rt (hg.produced mf hmf rt hrt)
    · rw [List.mem_singleton.mp hmf]
      exact hreturns.linked
  · intro mf hmf
    rw [hfunctions] at hmf
    rcases List.mem_append.mp hmf with hmf | hmf
    · exact fun param hparam => hgrown.consumed mf param (hg.consumed mf hmf param hparam)
    · rw [List.mem_singleton.mp hmf]
      exact fun param hparam =>
        hreturns.grown.consumed _ param (hparams.linked param hparam)

theorem addModule_indexed (g : MoveTypeGraph) (hg : Indexed g) (module : MoveModuleAbi) :
    Indexed (g.addModule module) := by
  unfold addModule
  split_ifs
  · exact hg
  · have hnext : Indexed { g with modules := module.moduleId :: g.modules } :=
      ⟨⟨hg.sound.types, hg.sound.ends, hg.sound.incoming, hg.sound.outgoing⟩, hg.produced,
        hg.consumed⟩
    exact List.foldlRecOn (motive := Indexed) module.functions _ hnext
      fun graph hgraph func _ => (addFunction_indexed graph hgraph func module.moduleId).1

theorem addPackage_indexed (g : MoveTypeGraph) (hg : Indexed g) (abi : MovePackageAbi) :
    Indexed (g.addPackage abi) :=
  List.foldlRecOn (motive := Indexed) abi.modules addModule hg
    fun graph hgraph module _ => addModule_indexed graph hgraph module

theorem ofPackages_indexed (abis : List MovePackageAbi) : Indexed (ofPackages abis) :=
  List.foldlRecOn (motive := Indexed) abis addPackage indexed_new
    fun graph hgraph abi _ => addPackage_indexed graph hgraph abi

/-! ### Lookup -/

/- Both lookups: every function that has a matching type at one of its positions is at the far
end of an edge from that type. -/
theorem mem_functionsAt (g : MoveTypeGraph) (near far : Edge → ℕ)
    (positions : MoveModuleId × MoveFunctionAbi → List MoveAbiSignatureToken)
    (hedge : ∀ e ∈ g.edges, ∀ t, (t, near e) ∈ g.tys →
      ∃ mf, g.functionAt (far e) = some mf ∧ ∃ ty ∈ positions mf, bare ty = t)
    (hfunction : ∀ mf ∈ g.functions, ∀ ty ∈ positions mf,
      ∃ e ∈ g.edges, g.functionAt (far e) = some mf ∧ (bare ty, near e) ∈ g.tys)
    (matching : MoveAbiSignatureToken → Bool) (keep : MoveModuleId × MoveFunctionAbi → Bool)
    (mf : MoveModuleId × MoveFunctionAbi) :
    (mf ∈ g.tys.flatMap fun (t, node) =>
      if matching t then (g.edges.filter fun e => near e = node).filterMap fun e =>
        (g.functionAt (far e)).filter keep
      else []) ↔
      mf ∈ g.functions ∧ keep mf = true ∧ ∃ ty ∈ positions mf, matching (bare ty) = true := by
  rw [List.mem_flatMap]
  constructor
  · intro hall
    obtain ⟨⟨t, node⟩, htys, h⟩ := hall
    simp only at h
    split_ifs at h with hmatch
    · obtain ⟨e, he, hmf⟩ := List.mem_filterMap.mp h
      obtain ⟨he, hnear⟩ := List.mem_filter.mp he
      obtain ⟨hmf, hkeep⟩ := Option.filter_eq_some_iff.mp hmf
      rw [← of_decide_eq_true hnear] at htys
      obtain ⟨mf', hmf', ty, hty, rfl⟩ := hedge e he t htys
      obtain rfl : mf' = mf := Option.some.inj (hmf'.symm.trans hmf)
      exact ⟨functionAt_mem g _ _ hmf, hkeep, ty, hty, hmatch⟩
    · cases h
  · intro hall
    obtain ⟨hmf, hkeep, ty, hty, hmatch⟩ := hall
    obtain ⟨e, he, hfar, htys⟩ := hfunction mf hmf ty hty
    refine ⟨(bare ty, near e), htys, ?_⟩
    simp only [hmatch, if_true]
    refine List.mem_filterMap.mpr ⟨e, List.mem_filter.mpr ⟨he, decide_eq_true rfl⟩, ?_⟩
    exact Option.filter_eq_some_iff.mpr ⟨hfar, hkeep⟩

theorem mem_findProducers (g : MoveTypeGraph) (hg : Indexed g) (ty : MoveAbiSignatureToken)
    (publicOnly : Bool) (excluded : Option (MoveAddress × String × String))
    (mf : MoveModuleId × MoveFunctionAbi) :
    mf ∈ g.findProducers ty publicOnly excluded ↔
      mf ∈ g.functions ∧ offered publicOnly excluded mf.1 mf.2 = true ∧
        ∃ rt ∈ mf.2.returnParamters, ((bare rt).partialExtractTyArgs (bare ty)).isSome = true :=
  mem_functionsAt g Edge.target Edge.source (fun mf => mf.2.returnParamters)
    (fun e he t htys => hg.sound.incoming e he t (hg.sound.types _ htys)) hg.produced
    (fun t => (t.partialExtractTyArgs (bare ty)).isSome)
    (fun mf => offered publicOnly excluded mf.1 mf.2) mf

end MoveTypeGraph

end Movy.Analysis
