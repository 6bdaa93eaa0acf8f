import Movy.Lib.PostOrder
import Movy.Store.Object
import Mathlib.Data.List.Basic

/-!
# Modules for the stackless generator (`movy-static-analysis/src/sui/common.rs`)

A module is analysed together with the modules it depends on, which a walk collects
from the store. The generator wants them in the order of their dependencies. Before
the list is handed on, `0x1::vector` is put in front of it.
-/

namespace Movy.Static.Common

open Movy.Store (ObjectID)

structure ModuleId where
  address : ObjectID
  name : String
  deriving DecidableEq

structure CompiledModule where
  selfId : ModuleId
  immediateDependencies : List ModuleId

inductive Data where
  | move
  | package (modules : List (String × Option CompiledModule))

abbrev ObjectStore := List (ObjectID × Data)

def fetchCompiledModule (store : ObjectStore) (moduleId : ModuleId) : Option CompiledModule :=
  match store.lookup moduleId.address with
  | some (.package modules) => (modules.lookup moduleId.name).join
  | _ => none

/- The visited modules are kept by their rendered address and name. -/
abbrev Walk := PostOrder.State CompiledModule ModuleId

/- `none` is out of fuel. -/
def collectModulesRec (store : ObjectStore) : ℕ → CompiledModule → Walk → Option Walk
  | 0, _, _ => none
  | fuel + 1, module, st =>
    if st.visited.contains module.selfId then some st
    else
      (module.immediateDependencies.foldlM (fun (st : Walk) dep =>
        if st.visited.contains dep then some st
        else match fetchCompiledModule store dep with
          | some depModule => collectModulesRec store fuel depModule st
          | none => some st) ⟨st.visited ++ [module.selfId], st.ordered⟩).map
        fun (st : Walk) => ⟨st.visited, st.ordered ++ [module]⟩

def collectModules (store : ObjectStore) (fuel : ℕ) (root : CompiledModule) :
    Option (List CompiledModule) :=
  (collectModulesRec store fuel root ⟨[], []⟩).map PostOrder.State.ordered

/- The modules that `analyze_module` hands on, and the one it hands on as the root. -/
def withStdDependency (modules : List CompiledModule) (stdDependency : Option CompiledModule) :
    Option (List CompiledModule × CompiledModule) :=
  if modules.isEmpty then none
  else
    let modules := match stdDependency with
      | some stdDep => stdDep :: modules
      | none => modules
    modules.getLast?.map fun rootModule => (modules.dropLast, rootModule)

/- `generate_stackless_bytecode_for_module` puts the root back behind the others. -/
def generatorModules (dependencies : List CompiledModule) (module : CompiledModule) :
    List CompiledModule := dependencies ++ [module]

def vectorId : ModuleId := ⟨ObjectID.ofByte 1, "vector"⟩

def passedModules (store : ObjectStore) (fuel : ℕ) (root : CompiledModule) :
    Option (List CompiledModule) :=
  (collectModules store fuel root).bind fun modules =>
    (withStdDependency modules (fetchCompiledModule store vectorId)).map fun r =>
      generatorModules r.1 r.2

/-! ### Dependencies that are present -/

def presentDependencies (store : ObjectStore) (module : CompiledModule) : List CompiledModule :=
  module.immediateDependencies.filterMap (fetchCompiledModule store)

abbrev Dependency (store : ObjectStore) (m d : CompiledModule) : Prop :=
  PostOrder.Next (presentDependencies store) m d

abbrev DependsOn (store : ObjectStore) : CompiledModule → CompiledModule → Prop :=
  Relation.TransGen (Dependency store)

abbrev InClosure (store : ObjectStore) (root m : CompiledModule) : Prop :=
  Relation.ReflTransGen (Dependency store) root m

/- A module refers to another one by the id that the other one bears. -/
def ReferByOwnId (store : ObjectStore) (root : CompiledModule) : Prop :=
  ∀ m, InClosure store root m → ∀ dep ∈ m.immediateDependencies, ∀ d,
    fetchCompiledModule store dep = some d → d.selfId = dep

def Acyclic (store : ObjectStore) (root : CompiledModule) : Prop :=
  ∀ m, InClosure store root m → ∀ d, DependsOn store m d → m.selfId ≠ d.selfId

/- What the generator asks for: no module twice, and dependencies first. -/
def WellOrdered (store : ObjectStore) (modules : List CompiledModule) : Prop :=
  (modules.map CompiledModule.selfId).Nodup ∧
    PostOrder.Sorted (presentDependencies store) modules

/-! ### The walk -/

def Data.moduleIds : Data → List ModuleId
  | .move => []
  | .package modules => modules.filterMap fun e => e.2.map CompiledModule.selfId

def moduleIds (store : ObjectStore) : List ModuleId := store.flatMap fun o => o.2.moduleIds

theorem fetch_moduleIds (store : ObjectStore) (dep : ModuleId) (m : CompiledModule)
    (h : fetchCompiledModule store dep = some m) : m.selfId ∈ moduleIds store := by
  simp only [fetchCompiledModule] at h
  split at h
  · rename_i modules hobj
    obtain ⟨left, right, hstore, _⟩ := List.lookup_eq_some_iff.mp hobj
    obtain ⟨left', right', hmodules, _⟩ :=
      List.lookup_eq_some_iff.mp (Option.join_eq_some_iff.mp h)
    refine List.mem_flatMap.mpr ⟨(dep.address, .package modules), by simp [hstore], ?_⟩
    exact List.mem_filterMap.mpr ⟨(dep.name, some m), by simp [hmodules], rfl⟩
  · exact absurd h (by simp)

section

variable (store : ObjectStore)

abbrev Walks := PostOrder.Walks CompiledModule.selfId (presentDependencies store)

theorem walk_dependencies (fuel : ℕ) (S : CompiledModule → Prop) (deps : List ModuleId)
    (hdeps : ∀ dep ∈ deps, ∀ d, fetchCompiledModule store dep = some d → d.selfId = dep ∧ S d)
    (ih : ∀ module st, S module → PostOrder.remaining (moduleIds store) st.visited < fuel →
      ∃ st', collectModulesRec store fuel module st = some st' ∧ Walks store [module] st st')
    (st : Walk) (hfuel : PostOrder.remaining (moduleIds store) st.visited < fuel) :
    ∃ st', deps.foldlM (fun (st : Walk) dep =>
        if st.visited.contains dep then some st
        else match fetchCompiledModule store dep with
          | some depModule => collectModulesRec store fuel depModule st
          | none => some st) st = some st' ∧
      Walks store (deps.filterMap (fetchCompiledModule store)) st st' := by
  induction deps generalizing st with
  | nil => exact ⟨st, rfl, .done st⟩
  | cons dep rest ihrest =>
    have hrest := ihrest fun d hd => hdeps d (List.mem_cons_of_mem dep hd)
    simp only [List.foldlM_cons, Option.bind_eq_bind]
    cases hfetch : fetchCompiledModule store dep with
    | none =>
      obtain ⟨st', hst', hwalk⟩ := hrest st hfuel
      refine ⟨st', by simpa using hst', ?_⟩
      rw [List.filterMap_cons_none hfetch]
      exact hwalk
    | some d =>
      obtain ⟨hid, hS⟩ := hdeps dep List.mem_cons_self d hfetch
      rw [List.filterMap_cons_some hfetch]
      by_cases hvis : dep ∈ st.visited
      · obtain ⟨st', hst', hwalk⟩ := hrest st hfuel
        exact ⟨st', by simpa [hvis] using hst', .skip d _ st st' (hid ▸ hvis) hwalk⟩
      · obtain ⟨mid, hmid, hwalk⟩ := ih d st hS hfuel
        have hle := PostOrder.remaining_le (moduleIds store) st.visited mid.visited
          fun k hk => hwalk.mem_visited k hk
        obtain ⟨st', hst', hwalk'⟩ := hrest mid (hle.trans_lt hfuel)
        exact ⟨st', by simpa [hvis, hmid] using hst', hwalk.append hwalk'⟩

/- A module that was not yet visited uses up one of the ids of the store. The root may
have an id that is not among them. -/
theorem walk_module (S : CompiledModule → Prop)
    (hS : ∀ m, S m → ∀ dep ∈ m.immediateDependencies, ∀ d,
      fetchCompiledModule store dep = some d → d.selfId = dep ∧ S d ∧ d.selfId ∈ moduleIds store)
    (fuel : ℕ) (module : CompiledModule) (st : Walk) (hmodule : S module)
    (hid : module.selfId ∈ moduleIds store)
    (hfuel : PostOrder.remaining (moduleIds store) st.visited < fuel) :
    ∃ st', collectModulesRec store fuel module st = some st' ∧ Walks store [module] st st' := by
  induction fuel generalizing module st with
  | zero => exact absurd hfuel (Nat.not_lt_zero _)
  | succ fuel ih =>
    simp only [collectModulesRec, List.contains_eq_mem, decide_eq_true_eq]
    by_cases hvis : module.selfId ∈ st.visited
    · exact ⟨st, by simp [hvis], .skip module [] st st hvis (.done st)⟩
    · have hlt := PostOrder.remaining_lt (moduleIds store) st.visited module.selfId hid hvis
      obtain ⟨mid, hmid, hwalk⟩ := walk_dependencies store fuel
        (fun d => S d ∧ d.selfId ∈ moduleIds store) module.immediateDependencies
        (hS module hmodule) (fun m st hm => ih m st hm.1 hm.2)
        ⟨st.visited ++ [module.selfId], st.ordered⟩ (by simpa using by omega)
      refine ⟨⟨mid.visited, mid.ordered ++ [module]⟩, ?_, ?_⟩
      · simp only [List.contains_eq_mem, decide_eq_true_eq] at hmid
        simp [hvis, hmid]
      · exact .enter module [] st mid _ hvis hwalk (.done _)

theorem collectModules_walks (root : CompiledModule) (hnamed : ReferByOwnId store root)
    (fuel : ℕ) (hfuel : (moduleIds store).length + 1 < fuel) :
    ∃ st, collectModules store fuel root = some st.ordered ∧
      Walks store [root] ⟨[], []⟩ st := by
  cases fuel with
  | zero => exact absurd hfuel (Nat.not_lt_zero _)
  | succ fuel =>
    have hclosure : ∀ m, InClosure store root m → ∀ dep ∈ m.immediateDependencies, ∀ d,
        fetchCompiledModule store dep = some d →
          d.selfId = dep ∧ InClosure store root d ∧ d.selfId ∈ moduleIds store := by
      intro m hm dep hdep d hd
      refine ⟨hnamed m hm dep hdep d hd, hm.tail ?_, fetch_moduleIds store dep d hd⟩
      exact List.mem_filterMap.mpr ⟨dep, hdep, hd⟩
    have hremaining : PostOrder.remaining (moduleIds store) [root.selfId] ≤
        (moduleIds store).length := List.length_filter_le _ _
    obtain ⟨mid, hmid, hwalk⟩ := walk_dependencies store fuel
      (fun d => InClosure store root d ∧ d.selfId ∈ moduleIds store) root.immediateDependencies
      (hclosure root Relation.ReflTransGen.refl)
      (fun m st hm => walk_module store _ hclosure fuel m st hm.1 hm.2)
      ⟨[root.selfId], []⟩ (by simpa using by omega)
    refine ⟨⟨mid.visited, mid.ordered ++ [root]⟩, ?_, ?_⟩
    · simp only [collectModules, collectModulesRec, List.contains_nil, Bool.false_eq_true, if_false,
        List.nil_append, hmid, Option.map_some]
    · exact .enter root [] _ mid _ List.not_mem_nil hwalk (.done _)

theorem collectModules_wellOrdered (root : CompiledModule) (hnamed : ReferByOwnId store root)
    (hacyclic : Acyclic store root) :
    ∃ modules, (∀ fuel, (moduleIds store).length + 1 < fuel →
        collectModules store fuel root = some modules) ∧
      modules.getLast? = some root ∧ WellOrdered store modules ∧
      ∀ m, m ∈ modules ↔ InClosure store root m := by
  obtain ⟨st, hst, hwalk⟩ := collectModules_walks store root hnamed _ (Nat.lt_succ_self _)
  obtain ⟨hnodup, hlast, hclosure, htop⟩ := hwalk.from_root fun m d hm => hacyclic m hm d
  have hsorted : PostOrder.Sorted (presentDependencies store) st.ordered := by
    refine htop.sorted fun x hx b hb y hy heq => ?_
    have hxb := hclosure x hx
    obtain ⟨dep, hdep, hfetch⟩ := List.mem_filterMap.mp hb
    have hdepb := hnamed x hxb dep hdep b hfetch
    rcases Relation.ReflTransGen.cases_tail (hclosure y hy) with rfl | ⟨z, hz, hzy⟩
    · exact absurd heq.symm (hacyclic _ Relation.ReflTransGen.refl b (.tail' hxb hb))
    · obtain ⟨dep', hdep', hfetch'⟩ := List.mem_filterMap.mp hzy
      have hdepy := hnamed z hz dep' hdep' y hfetch'
      have hsame : dep = dep' := hdepb.symm.trans (heq.trans hdepy)
      exact Option.some.inj (hfetch.symm.trans (hsame ▸ hfetch'))
  refine ⟨st.ordered, fun fuel hfuel => ?_, hlast, ⟨hnodup, hsorted⟩, fun m => ⟨hclosure m, ?_⟩⟩
  · obtain ⟨st', hst', hwalk'⟩ := collectModules_walks store root hnamed fuel hfuel
    rw [hst', hwalk.deterministic hwalk']
  · intro hm
    have hroot : st.ordered = st.ordered.dropLast ++ [root] :=
      (List.dropLast_append_getLast? root hlast).symm
    rcases Relation.reflTransGen_iff_eq_or_transGen.mp hm with rfl | hm
    · exact List.mem_of_getLast? hlast
    · rw [hroot]
      exact List.mem_append_left _ (hsorted _ root [] hroot m hm)

end

/-! ### The list that is handed on -/

/- Well ordered, if `0x1::vector` is not in the store, or is not collected by the walk
and has no dependencies of its own there. -/
def VectorApart (store : ObjectStore) (root : CompiledModule) : Prop :=
  ∀ vector, fetchCompiledModule store vectorId = some vector →
    (∀ m, InClosure store root m → m.selfId ≠ vector.selfId) ∧
    presentDependencies store vector = []

theorem passedModules_eq (store : ObjectStore) (fuel : ℕ) (root : CompiledModule)
    (modules : List CompiledModule) (h : collectModules store fuel root = some modules)
    (hlast : modules.getLast? = some root) :
    passedModules store fuel root =
      some ((fetchCompiledModule store vectorId).toList ++ modules) := by
  have hne : modules ≠ [] := by
    rintro rfl
    simp at hlast
  have hroot := List.dropLast_append_getLast? root hlast
  simp only [passedModules, h, Option.bind_some, withStdDependency, List.isEmpty_iff, hne, if_false]
  cases fetchCompiledModule store vectorId with
  | none => simp [hlast, generatorModules, hroot]
  | some vector =>
    have hcons : (vector :: modules).getLast? = some root := by
      rw [List.getLast?_cons_of_ne_nil hne, hlast]
    simp only [hcons, Option.map_some, generatorModules, List.dropLast_append_getLast? root hcons]
    rfl

theorem wellOrdered_cons_iff (store : ObjectStore) (vector : CompiledModule)
    (modules : List CompiledModule) (h : WellOrdered store modules) :
    WellOrdered store (vector :: modules) ↔
      (∀ m ∈ modules, m.selfId ≠ vector.selfId) ∧ presentDependencies store vector = [] := by
  constructor
  · rintro ⟨hnodup, hsorted⟩
    refine ⟨fun m hm heq => ?_, ?_⟩
    · exact (List.nodup_cons.mp hnodup).1 (heq ▸ List.mem_map_of_mem hm)
    · refine List.eq_nil_iff_forall_not_mem.mpr fun d hd => ?_
      exact List.not_mem_nil (hsorted [] vector modules rfl d (.single hd))
  · rintro ⟨hnew, hdeps⟩
    refine ⟨List.nodup_cons.mpr ⟨fun hmem => ?_, h.1⟩, fun before x after heq d hd => ?_⟩
    · obtain ⟨m, hm, heq⟩ := List.mem_map.mp hmem
      exact hnew m hm heq
    · cases before with
      | nil =>
        obtain ⟨rfl, rfl⟩ := List.cons_eq_cons.mp heq
        obtain ⟨c, hc, _⟩ := Relation.TransGen.head'_iff.mp hd
        exact absurd (hdeps ▸ hc : c ∈ []) List.not_mem_nil
      | cons v before =>
        obtain ⟨rfl, rfl⟩ := List.cons_eq_cons.mp heq
        exact List.mem_cons_of_mem _ (h.2 before x after rfl d hd)

/- The walk ends with the root in the last place. With `0x1::vector` in front, the list
is well ordered if and only if the vector module is apart from the others. -/
theorem passedModules_wellOrdered_iff (store : ObjectStore) (root : CompiledModule)
    (hnamed : ReferByOwnId store root) (hacyclic : Acyclic store root) :
    ∃ collected passed, (∀ fuel, (moduleIds store).length + 1 < fuel →
        collectModules store fuel root = some collected ∧
        passedModules store fuel root = some passed) ∧
      collected.getLast? = some root ∧
      (WellOrdered store passed ↔ VectorApart store root) := by
  obtain ⟨modules, hmodules, hlast, hordered, hmem⟩ :=
    collectModules_wellOrdered store root hnamed hacyclic
  refine ⟨modules, (fetchCompiledModule store vectorId).toList ++ modules, fun fuel hfuel => ?_,
    hlast, ?_⟩
  · exact ⟨hmodules fuel hfuel,
      passedModules_eq store fuel root modules (hmodules fuel hfuel) hlast⟩
  · cases hvector : fetchCompiledModule store vectorId with
    | none =>
      refine iff_of_true hordered fun vector hv => ?_
      exact absurd (hvector.symm.trans hv) (by simp)
    | some vector =>
      simp only [Option.toList_some, List.singleton_append,
        wellOrdered_cons_iff store vector modules hordered, hmem, VectorApart, hvector,
        Option.some.injEq, forall_eq']

/-! ### A coin and the vector module -/

def vectorModule : CompiledModule := ⟨vectorId, []⟩

def coinModule : CompiledModule := ⟨⟨ObjectID.ofByte 2, "coin"⟩, []⟩

def framework : ObjectStore :=
  [(ObjectID.ofByte 1, .package [("vector", some vectorModule)]),
    (ObjectID.ofByte 2, .package [("coin", some coinModule)])]

def importing (dep : ModuleId) : CompiledModule := ⟨⟨ObjectID.ofByte 7, "m"⟩, [dep]⟩

theorem importing_closure (dep : ModuleId) (d m : CompiledModule)
    (hdep : fetchCompiledModule framework dep = some d) (hd : d.immediateDependencies = [])
    (hm : InClosure framework (importing dep) m) : m = importing dep ∨ m = d := by
  induction hm with
  | refl => exact Or.inl rfl
  | tail _ hstep ih =>
    rcases ih with rfl | rfl
    · right
      simpa [PostOrder.Next, presentDependencies, importing, hdep] using hstep
    · simp [PostOrder.Next, presentDependencies, hd] at hstep

theorem importing_acyclic (dep : ModuleId) (d : CompiledModule)
    (hdep : fetchCompiledModule framework dep = some d) (hd : d.immediateDependencies = [])
    (hne : d.selfId ≠ (importing dep).selfId) : Acyclic framework (importing dep) := by
  have hstop : ∀ c, ¬Dependency framework d c := by
    intro c hc
    simp [PostOrder.Next, presentDependencies, hd] at hc
  intro m hm c hmc heq
  obtain ⟨e, hme, hec⟩ := Relation.TransGen.head'_iff.mp hmc
  rcases importing_closure dep d m hdep hd hm with rfl | rfl
  · obtain rfl : e = d := by
      simpa [PostOrder.Next, presentDependencies, importing, hdep] using hme
    rcases Relation.ReflTransGen.cases_head hec with rfl | ⟨_, hnext, _⟩
    · exact hne heq.symm
    · exact hstop _ hnext
  · exact hstop e hme

theorem importing_coin :
    ∃ collected passed, (∀ fuel, (moduleIds framework).length + 1 < fuel →
        collectModules framework fuel (importing coinModule.selfId) = some collected ∧
        passedModules framework fuel (importing coinModule.selfId) = some passed) ∧
      collected.getLast? = some (importing coinModule.selfId) ∧
      (WellOrdered framework passed ↔ VectorApart framework (importing coinModule.selfId)) := by
  have hfetch : fetchCompiledModule framework coinModule.selfId = some coinModule := rfl
  refine passedModules_wellOrdered_iff framework _ ?_ ?_
  · intro m hm dep hdep d hd
    rcases importing_closure coinModule.selfId coinModule m hfetch rfl hm with rfl | rfl
    · obtain rfl := List.mem_singleton.mp hdep
      exact congrArg _ (Option.some.inj (hd.symm.trans hfetch))
    · exact absurd hdep List.not_mem_nil
  · exact importing_acyclic coinModule.selfId coinModule hfetch rfl (by decide)

/- A module that imports `0x1::vector` is passed on with the vector module twice. -/
theorem importing_vector_twice :
    Acyclic framework (importing vectorId) ∧
      passedModules framework 4 (importing vectorId) =
        some [vectorModule, vectorModule, importing vectorId] ∧
      ¬WellOrdered framework [vectorModule, vectorModule, importing vectorId] := by
  refine ⟨importing_acyclic vectorId vectorModule rfl rfl (by decide), rfl, fun h => ?_⟩
  exact absurd h.1 (by decide)

end Movy.Static.Common
