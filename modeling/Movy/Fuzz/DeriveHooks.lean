import Movy.Fuzz.Meta
import Mathlib.Data.List.Induction

/-!
# The hooks of functions (`movy-fuzz/src/meta.rs`, `movy-types/src/abi.rs`)

A function `movy_pre_f` or `movy_post_f` of a testing module is a hook of the
function `f`. If several functions have that name, the module of the hook
decides between them: `movy_m` mirrors `m`. `none` is a panic.
-/

namespace Movy.Fuzz

open Movy.Types Movy.Store

inductive HookKind where
  | pre
  | post
  deriving DecidableEq

def HookKind.tag : HookKind → String
  | .pre => "movy_pre"
  | .post => "movy_post"

def movySequence : String := "ptb"

/- The name after the tag and one more character; a name that ends with the tag
is sliced beyond its end. -/
def MoveFunctionAbi.tryDerive (self : MoveFunctionAbi) (kind : HookKind) : Option (Option String) :=
  if kind.tag.toList.isPrefixOf self.name.toList = true then
    if self.name.toList.length ≤ kind.tag.toList.length then none
    else some (some (String.ofList (self.name.toList.drop (kind.tag.toList.length + 1))))
  else some none

/- `try_derive_movy_pre` and `try_derive_movy_post`. -/
def MoveFunctionAbi.tryDeriveMovyPre (self : MoveFunctionAbi) : Option (Option String) :=
  self.tryDerive .pre

def MoveFunctionAbi.tryDeriveMovyPost (self : MoveFunctionAbi) : Option (Option String) :=
  self.tryDerive .post

/- One of several functions of a name is the target of a pre hook if the module
of the hook mirrors its module, and of a post hook if it has its name. -/
def HookKind.picks (kind : HookKind) (packageAddr : MoveAddress) (module : MoveModuleAbi)
    (ident : FunctionIdent) : Bool :=
  ident.moduleId.moduleAddress = packageAddr && match kind with
    | .pre => "movy_" ++ ident.moduleId.moduleName = module.moduleId.moduleName
    | .post => ident.moduleId.moduleName = module.moduleId.moduleName

/- `target_ident`. -/
def HookKind.target (kind : HookKind) (functionNameToIdents : String → Option (List FunctionIdent))
    (packageAddr : MoveAddress) (module : MoveModuleAbi) (name : String) : Option FunctionIdent :=
  match functionNameToIdents name with
  | none => none
  | some [ident] => some ident
  | some idents => idents.find? (kind.picks packageAddr module)

def FunctionHook.hooks (self : FunctionHook) : HookKind → List FunctionIdent
  | .pre => self.preHooks
  | .post => self.postHooks

abbrev FunctionHooks := IndexMap FunctionIdent FunctionHook

namespace FunctionHooks

def entryOf (hooks : FunctionHooks) (target : FunctionIdent) : FunctionHook :=
  (hooks.get? target).getD ⟨[], []⟩

def push (hooks : FunctionHooks) (kind : HookKind) (target hook : FunctionIdent) : FunctionHooks :=
  let entry := hooks.entryOf target
  hooks.insert target (match kind with
    | .pre => { entry with preHooks := entry.preHooks ++ [hook] }
    | .post => { entry with postHooks := entry.postHooks ++ [hook] })

end FunctionHooks

structure HookSite where
  packageAddr : MoveAddress
  module : MoveModuleAbi
  func : MoveFunctionAbi

def HookSite.ident (s : HookSite) : FunctionIdent :=
  .new s.packageAddr s.module.moduleId.moduleName s.func.name

/- The part of the loop for one kind of hook. The name of a sequence hook is left
alone. -/
def addHook (functionNameToIdents : String → Option (List FunctionIdent)) (kind : HookKind)
    (hooks : FunctionHooks) (s : HookSite) : Option FunctionHooks :=
  (s.func.tryDerive kind).bind fun name => match name with
    | none => some hooks
    | some name =>
      if name = movySequence then some hooks
      else (kind.target functionNameToIdents s.packageAddr s.module name).map fun target =>
        hooks.push kind target s.ident

def addHooks (functionNameToIdents : String → Option (List FunctionIdent)) (hooks : FunctionHooks)
    (s : HookSite) : Option FunctionHooks :=
  (addHook functionNameToIdents .pre hooks s).bind fun hooks =>
    addHook functionNameToIdents .post hooks s

def hookSites (abis : List (MoveAddress × MovePackageAbi)) : List HookSite :=
  abis.flatMap fun e => e.2.modules.flatMap fun module => module.functions.map fun func =>
    ⟨e.1, module, func⟩

def deriveFunctionHooks (abis : List (MoveAddress × MovePackageAbi))
    (functionNameToIdents : String → Option (List FunctionIdent)) : Option FunctionHooks :=
  (hookSites abis).foldlM (addHooks functionNameToIdents) IndexMap.empty

/-! ### Hooks of sequences -/

def MoveFunctionAbi.isMovyPtb (self : MoveFunctionAbi) (kind : HookKind) : Option Bool :=
  (self.tryDerive kind).map fun name => decide (name = some movySequence)

def FunctionHook.push (self : FunctionHook) (kind : HookKind) (hook : FunctionIdent) :
    FunctionHook :=
  match kind with
  | .pre => { self with preHooks := self.preHooks ++ [hook] }
  | .post => { self with postHooks := self.postHooks ++ [hook] }

def addSequenceHook (kind : HookKind) (hooks : FunctionHook) (s : HookSite) :
    Option FunctionHook :=
  (s.func.isMovyPtb kind).map fun isPtb => if isPtb then hooks.push kind s.ident else hooks

def addSequenceHooks (hooks : FunctionHook) (s : HookSite) : Option FunctionHook :=
  (addSequenceHook .pre hooks s).bind fun hooks => addSequenceHook .post hooks s

def deriveSequenceHooks (abis : List (MoveAddress × MovePackageAbi)) : Option FunctionHook :=
  (hookSites abis).foldlM addSequenceHooks ⟨[], []⟩

def functionNameToIdents (testingAbis : List (MoveAddress × MovePackageAbi)) (name : String) :
    Option (List FunctionIdent) :=
  match testingAbis.flatMap fun e => e.2.modules.flatMap fun module =>
      (module.functions.filter fun f => f.name = name).map fun f =>
        (⟨module.moduleId, f.name⟩ : FunctionIdent) with
  | [] => none
  | idents => some idents

/-! ### Names -/

/- The hook of a kind for a function. -/
def HookKind.hookName (kind : HookKind) (name : String) : String := kind.tag ++ "_" ++ name

theorem hookName_toList (kind : HookKind) (name : String) :
    (kind.hookName name).toList = kind.tag.toList ++ '_' :: name.toList := by
  simp only [HookKind.hookName, String.toList_append, List.append_assoc]
  rfl

theorem tryDerive_hookName (kind : HookKind) (name : String) (func : MoveFunctionAbi)
    (h : func.name = kind.hookName name) : func.tryDerive kind = some (some name) := by
  have hprefix : kind.tag.toList.isPrefixOf func.name.toList = true := by
    rw [h, hookName_toList, List.isPrefixOf_iff_prefix]
    exact List.prefix_append ..
  have hlong : ¬func.name.toList.length ≤ kind.tag.toList.length := by
    rw [h, hookName_toList]
    simp
  have hrest : func.name.toList.drop (kind.tag.toList.length + 1) = name.toList := by
    rw [h, hookName_toList, ← List.drop_drop, List.drop_left]
    rfl
  rw [MoveFunctionAbi.tryDerive, if_pos hprefix, if_neg hlong, hrest, String.ofList_toList]

/-! ### What is attached -/

theorem entryOf_push (hooks : FunctionHooks) (kind k : HookKind) (target t hook : FunctionIdent) :
    ((hooks.push kind target hook).entryOf t).hooks k =
      (hooks.entryOf t).hooks k ++ if k = kind ∧ t = target then [hook] else [] := by
  simp only [FunctionHooks.push, FunctionHooks.entryOf, IndexMap.get?_insert]
  by_cases ht : t = target
  · subst ht
    cases kind <;> cases k <;> simp [FunctionHook.hooks]
  · simp [ht]

def HookSite.target (functionNameToIdents : String → Option (List FunctionIdent)) (kind : HookKind)
    (s : HookSite) : Option FunctionIdent :=
  match s.func.tryDerive kind with
  | some (some name) =>
    if name = movySequence then none
    else kind.target functionNameToIdents s.packageAddr s.module name
  | _ => none

section Derive

variable {index : String → Option (List FunctionIdent)}

theorem addHook_hooks (kind k : HookKind) (hooks hooks' : FunctionHooks) (s : HookSite)
    (h : addHook index kind hooks s = some hooks') (t : FunctionIdent) :
    (hooks'.entryOf t).hooks k = (hooks.entryOf t).hooks k ++
      if k = kind ∧ s.target index kind = some t then [s.ident] else [] := by
  obtain ⟨name, hname, h⟩ := Option.bind_eq_some_iff.mp h
  cases name with
  | none =>
    cases h
    simp [HookSite.target, hname]
  | some name =>
    dsimp only at h
    split_ifs at h with hseq
    · cases h
      simp [HookSite.target, hname, hseq]
    · obtain ⟨target, htarget, rfl⟩ := Option.map_eq_some_iff.mp h
      rw [entryOf_push]
      simp only [HookSite.target, hname, if_neg hseq, htarget, Option.some.injEq, eq_comm]

theorem addHook_target (kind : HookKind) (hooks hooks' : FunctionHooks) (s : HookSite)
    (h : addHook index kind hooks s = some hooks') (name : String)
    (hname : s.func.tryDerive kind = some (some name)) (hseq : name ≠ movySequence) :
    ∃ t, s.target index kind = some t := by
  simp only [addHook, hname, Option.bind_some, if_neg hseq] at h
  obtain ⟨t, ht, -⟩ := Option.map_eq_some_iff.mp h
  exact ⟨t, by simp only [HookSite.target, hname, if_neg hseq, ht]⟩

theorem addHooks_cases (hooks out : FunctionHooks) (s : HookSite)
    (h : addHooks index hooks s = some out) :
    (∀ k t ident, ident ∈ (out.entryOf t).hooks k ↔
      ident ∈ (hooks.entryOf t).hooks k ∨ s.ident = ident ∧ s.target index k = some t) ∧
    ∀ k name, s.func.tryDerive k = some (some name) → name ≠ movySequence →
      ∃ t, s.target index k = some t := by
  obtain ⟨mid, hpre, hpost⟩ := Option.bind_eq_some_iff.mp h
  refine ⟨fun k t ident => ?_, fun k name hname hseq => ?_⟩
  · rw [addHook_hooks .post k mid out s hpost, addHook_hooks .pre k hooks mid s hpre]
    cases k with
    | pre =>
      by_cases ht : s.target index .pre = some t <;> simp [ht, eq_comm]
    | post =>
      by_cases ht : s.target index .post = some t <;> simp [ht, eq_comm]
  · cases k with
    | pre => exact addHook_target .pre hooks mid s hpre name hname hseq
    | post => exact addHook_target .post mid out s hpost name hname hseq

theorem foldlM_addHooks (sites : List HookSite) (hooks out : FunctionHooks)
    (h : sites.foldlM (addHooks index) hooks = some out) :
    (∀ k t ident, ident ∈ (out.entryOf t).hooks k ↔
      ident ∈ (hooks.entryOf t).hooks k ∨
        ∃ s ∈ sites, s.ident = ident ∧ s.target index k = some t) ∧
    ∀ s ∈ sites, ∀ k name, s.func.tryDerive k = some (some name) → name ≠ movySequence →
      ∃ t, s.target index k = some t := by
  induction sites generalizing hooks with
  | nil =>
    cases h
    simp
  | cons s sites ih =>
    rw [List.foldlM_cons] at h
    obtain ⟨mid, hs, hrest⟩ := Option.bind_eq_some_iff.mp h
    obtain ⟨hmem, htarget⟩ := addHooks_cases hooks mid s hs
    obtain ⟨hmem', htarget'⟩ := ih mid hrest
    refine ⟨fun k t ident => ?_, fun s' hs' => ?_⟩
    · rw [hmem', hmem]
      simp only [List.exists_mem_cons_iff, or_assoc]
    · rcases List.mem_cons.mp hs' with rfl | hs'
      · exact htarget
      · exact htarget' s' hs'

theorem mem_deriveFunctionHooks (abis : List (MoveAddress × MovePackageAbi)) (hooks : FunctionHooks)
    (h : deriveFunctionHooks abis index = some hooks) (k : HookKind) (t ident : FunctionIdent) :
    ident ∈ (hooks.entryOf t).hooks k ↔
      ∃ s ∈ hookSites abis, s.ident = ident ∧ s.target index k = some t := by
  rw [(foldlM_addHooks (hookSites abis) IndexMap.empty hooks h).1 k t ident]
  have hempty : ident ∉ (FunctionHooks.entryOf IndexMap.empty t).hooks k := by
    cases k <;> exact List.not_mem_nil
  simp only [hempty, false_or]

/-! ### Both hooks of a function -/

/- The two hooks are attached to one function and no other; if there was a
choice it is the one in the module that the hook module mirrors. -/
def HookedTogether (hooks : FunctionHooks) (index : String → Option (List FunctionIdent))
    (packageAddr : MoveAddress) (module : MoveModuleAbi) (name : String) : Prop :=
  ∃ target : FunctionIdent,
    (∀ kind t, FunctionIdent.new packageAddr module.moduleId.moduleName
        (HookKind.hookName kind name) ∈ (hooks.entryOf t).hooks kind ↔ t = target) ∧
    ∀ idents, index name = some idents → 2 ≤ idents.length →
      target.moduleId.moduleAddress = packageAddr ∧
        "movy_" ++ target.moduleId.moduleName = module.moduleId.moduleName

theorem target_congr (kind : HookKind) (packageAddr : MoveAddress) (module module' : MoveModuleAbi)
    (name : String) (h : module'.moduleId.moduleName = module.moduleId.moduleName) :
    kind.target index packageAddr module' name = kind.target index packageAddr module name := by
  have hpicks : kind.picks packageAddr module' = kind.picks packageAddr module := by
    funext ident
    cases kind <;> simp only [HookKind.picks, h]
  simp only [HookKind.target, hpicks]

theorem HookSite.target_eq_some (kind : HookKind) (s : HookSite) (name : String)
    (hname : s.func.name = kind.hookName name) (t : FunctionIdent) :
    s.target index kind = some t ↔
      name ≠ movySequence ∧ kind.target index s.packageAddr s.module name = some t := by
  simp only [HookSite.target, tryDerive_hookName kind name s.func hname]
  by_cases hseq : name = movySequence <;> simp [hseq]

theorem mem_hooks_iff (abis : List (MoveAddress × MovePackageAbi)) (hooks : FunctionHooks)
    (h : deriveFunctionHooks abis index = some hooks) (s : HookSite) (hs : s ∈ hookSites abis)
    (kind : HookKind) (name : String) (hname : s.func.name = kind.hookName name)
    (t : FunctionIdent) :
    FunctionIdent.new s.packageAddr s.module.moduleId.moduleName (kind.hookName name) ∈
        (hooks.entryOf t).hooks kind ↔
      name ≠ movySequence ∧ kind.target index s.packageAddr s.module name = some t := by
  rw [mem_deriveFunctionHooks abis hooks h, ← s.target_eq_some kind name hname]
  constructor
  · intro hall
    obtain ⟨s', -, hident, ht⟩ := hall
    obtain ⟨⟨haddr, hmodule⟩, hfunc⟩ : (s'.packageAddr = s.packageAddr ∧
        s'.module.moduleId.moduleName = s.module.moduleId.moduleName) ∧
        s'.func.name = kind.hookName name := by
      simpa [HookSite.ident, FunctionIdent.new] using hident
    rw [s'.target_eq_some kind name hfunc, haddr, target_congr kind _ _ _ name hmodule] at ht
    exact (s.target_eq_some kind name hname t).mpr ht
  · intro ht
    exact ⟨s, hs, by rw [HookSite.ident, hname], ht⟩

/- With one function of the name both hooks go there. With several, a post hook
goes to the module of the hook itself. -/
theorem target_cases (packageAddr : MoveAddress) (module : MoveModuleAbi) (name : String)
    (target : FunctionIdent) (hpre : HookKind.pre.target index packageAddr module name = some target)
    (hpost : HookKind.post.target index packageAddr module name = some target) :
    index name = some [target] := by
  have hpick : ∀ idents : List FunctionIdent,
      idents.find? (HookKind.pre.picks packageAddr module) = some target →
      idents.find? (HookKind.post.picks packageAddr module) = some target → False := by
    intro idents h₁ h₂
    have hp := List.find?_some h₁
    have hq := List.find?_some h₂
    simp only [HookKind.picks, Bool.and_eq_true, decide_eq_true_eq] at hp hq
    -- `movy_m` would have to be the name `m`
    have hlen := congrArg (fun s => s.toList.length) (hp.2.trans hq.2.symm)
    simp at hlen
    omega
  unfold HookKind.target at hpre hpost
  cases hidx : index name with
  | none => simp [hidx] at hpre
  | some idents =>
    cases idents with
    | nil => simp [hidx] at hpre
    | cons ident rest =>
      cases rest with
      | nil => simpa [hidx] using hpre
      | cons other rest =>
        rw [hidx] at hpre hpost
        exact (hpick _ hpre hpost).elim

end Derive

/- Both hooks of a function go to the same function if and only if the index
knows one function of the name, and it is not the name of sequence hooks. -/
theorem hookedTogether_iff (abis : List (MoveAddress × MovePackageAbi))
    (index : String → Option (List FunctionIdent)) (hooks : FunctionHooks)
    (h : deriveFunctionHooks abis index = some hooks) (packageAddr : MoveAddress)
    (package : MovePackageAbi) (module : MoveModuleAbi) (pre post : MoveFunctionAbi) (name : String)
    (hpackage : (packageAddr, package) ∈ abis) (hmodule : module ∈ package.modules)
    (hpre : pre ∈ module.functions) (hpost : post ∈ module.functions)
    (hprename : pre.name = HookKind.pre.hookName name)
    (hpostname : post.name = HookKind.post.hookName name) :
    HookedTogether hooks index packageAddr module name ↔
      name ≠ movySequence ∧ ∃ ident, index name = some [ident] := by
  have hmem : ∀ func ∈ module.functions,
      (⟨packageAddr, module, func⟩ : HookSite) ∈ hookSites abis := by
    intro func hfunc
    exact List.mem_flatMap.mpr ⟨_, hpackage, List.mem_flatMap.mpr
      ⟨module, hmodule, List.mem_map.mpr ⟨func, hfunc, rfl⟩⟩⟩
  have hattached : ∀ kind t, FunctionIdent.new packageAddr module.moduleId.moduleName
      (HookKind.hookName kind name) ∈ (hooks.entryOf t).hooks kind ↔
      name ≠ movySequence ∧ kind.target index packageAddr module name = some t := by
    intro kind t
    cases kind with
    | pre =>
      exact mem_hooks_iff abis hooks h ⟨packageAddr, module, pre⟩ (hmem pre hpre) .pre name hprename t
    | post =>
      exact mem_hooks_iff abis hooks h ⟨packageAddr, module, post⟩ (hmem post hpost) .post name
        hpostname t
  constructor
  · intro hall
    obtain ⟨target, htarget, -⟩ := hall
    obtain ⟨hseq, ht⟩ := (hattached .pre target).mp ((htarget .pre target).mpr rfl)
    obtain ⟨-, ht'⟩ := (hattached .post target).mp ((htarget .post target).mpr rfl)
    exact ⟨hseq, target, target_cases packageAddr module name target ht ht'⟩
  · intro hall
    obtain ⟨hseq, ident, hidx⟩ := hall
    refine ⟨ident, fun kind t => ?_, fun idents hidents hlen => ?_⟩
    · rw [hattached, HookKind.target, hidx]
      simp [hseq, eq_comm]
    · rw [hidx] at hidents
      cases hidents
      simp at hlen

section Sample

def sampleFunction (name : String) : MoveFunctionAbi := ⟨name, [], [], [], .public_⟩

/- A testing module with a function of the same name as one that it tests. -/
def mirrorModule : MoveModuleAbi where
  moduleId := ⟨ObjectID.ofByte 5, "movy_m"⟩
  functions := [sampleFunction "f", sampleFunction "movy_pre_f", sampleFunction "movy_post_f",
    sampleFunction "movy_pre_g", sampleFunction "movy_post_g"]
  structs := []

def mirrorPackage : MovePackageAbi :=
  ⟨[⟨⟨ObjectID.ofByte 5, "m"⟩, [sampleFunction "f", sampleFunction "g"], []⟩, mirrorModule]⟩

def mirrorAbis : List (MoveAddress × MovePackageAbi) := [(ObjectID.ofByte 5, mirrorPackage)]

/- The hooks of `g` go to `m::g`. -/
theorem hookedTogether_iff_mirror :
    ∃ hooks, deriveFunctionHooks mirrorAbis (functionNameToIdents mirrorAbis) = some hooks ∧
      HookedTogether hooks (functionNameToIdents mirrorAbis) (ObjectID.ofByte 5) mirrorModule "g" := by
  obtain ⟨hooks, h⟩ := Option.isSome_iff_exists.mp (show
    (deriveFunctionHooks mirrorAbis (functionNameToIdents mirrorAbis)).isSome = true by decide)
  refine ⟨hooks, h, ?_⟩
  exact (hookedTogether_iff mirrorAbis _ hooks h (ObjectID.ofByte 5) mirrorPackage mirrorModule
    (sampleFunction "movy_pre_g") (sampleFunction "movy_post_g") "g" (List.mem_singleton.mpr rfl)
    (by simp [mirrorPackage]) (by simp [mirrorModule]) (by simp [mirrorModule])
    (by decide) (by decide)).mpr ⟨by decide, .new (ObjectID.ofByte 5) "m" "g", by decide⟩

/- The pre hook of `f` goes to `m::f`, the post hook to `movy_m::f`. -/
theorem hookedTogether_fails :
    ¬∀ (abis : List (MoveAddress × MovePackageAbi)) (index : String → Option (List FunctionIdent))
      (hooks : FunctionHooks) (packageAddr : MoveAddress) (package : MovePackageAbi)
      (module : MoveModuleAbi) (pre post : MoveFunctionAbi) (name : String),
      deriveFunctionHooks abis index = some hooks → (packageAddr, package) ∈ abis →
      module ∈ package.modules → pre ∈ module.functions → post ∈ module.functions →
      pre.name = HookKind.pre.hookName name → post.name = HookKind.post.hookName name →
      name ≠ movySequence → HookedTogether hooks index packageAddr module name := by
  intro hall
  obtain ⟨hooks, h⟩ := Option.isSome_iff_exists.mp (show
    (deriveFunctionHooks mirrorAbis (functionNameToIdents mirrorAbis)).isSome = true by decide)
  obtain ⟨target, htarget, -⟩ := hall mirrorAbis (functionNameToIdents mirrorAbis) hooks
    (ObjectID.ofByte 5) mirrorPackage mirrorModule (sampleFunction "movy_pre_f")
    (sampleFunction "movy_post_f") "f" h (List.mem_singleton.mpr rfl) (by simp [mirrorPackage])
    (by simp [mirrorModule]) (by simp [mirrorModule]) (by decide) (by decide) (by decide)
  have hsite : ∀ func ∈ mirrorModule.functions,
      (⟨ObjectID.ofByte 5, mirrorModule, func⟩ : HookSite) ∈ hookSites mirrorAbis := by
    intro func hfunc
    simp only [hookSites, mirrorAbis, mirrorPackage, List.flatMap_cons, List.flatMap_nil,
      List.append_nil, List.mem_append, List.mem_map]
    exact .inr ⟨func, hfunc, rfl⟩
  have hpre := ((mem_hooks_iff mirrorAbis hooks h _ (hsite (sampleFunction "movy_pre_f")
    (by simp [mirrorModule])) .pre "f" (by decide) target).mp ((htarget .pre target).mpr rfl)).2
  have hpost := ((mem_hooks_iff mirrorAbis hooks h _ (hsite (sampleFunction "movy_post_f")
    (by simp [mirrorModule])) .post "f" (by decide) target).mp ((htarget .post target).mpr rfl)).2
  have hone := congrArg (Option.map List.length) (target_cases _ _ _ target hpre hpost)
  rw [Option.map_some, List.length_singleton] at hone
  exact absurd hone (by decide)

end Sample

end Movy.Fuzz
