import Movy.Fuzz.DeriveHooks

/-!
# Names that start like a hook

A hook is called `movy_pre_f` or `movy_post_f`, but any name that starts with
`movy_pre` or `movy_post` is cut after the tag and one more character, whatever that
is. Identifiers are ASCII, so that characters are bytes.
-/

namespace Movy.Fuzz

open Movy.Types Movy.Store

/- A loop that panics on a member whatever came before it. -/
theorem foldlM_isSome {α β : Type} (step : β → α → Option β) (ok : α → Prop)
    (hstep : ∀ b a, (step b a).isSome = true ↔ ok a) (l : List α) (b : β) :
    (l.foldlM step b).isSome = true ↔ ∀ a ∈ l, ok a := by
  induction l generalizing b with
  | nil => exact ⟨fun _ _ h => absurd h List.not_mem_nil, fun _ => rfl⟩
  | cons a l ih =>
    rw [List.foldlM_cons, List.forall_mem_cons]
    cases h : step b a with
    | none =>
      have hbad : ¬ ok a := by
        rw [← hstep b a, h]
        simp
      exact ⟨fun hsome => absurd hsome (by simp), fun hok => absurd hok.1 hbad⟩
    | some next =>
      have hok : ok a := by
        rw [← hstep b a, h]
        rfl
      exact (ih next).trans ⟨fun hall => ⟨hok, hall⟩, fun hall => hall.2⟩

def StartsLike (kind : HookKind) (func : MoveFunctionAbi) : Prop :=
  kind.tag.toList <+: func.name.toList

theorem tryDerive_cases (func : MoveFunctionAbi) (kind : HookKind) :
    (func.tryDerive kind = none ∧ StartsLike kind func) ∨
      (func.tryDerive kind = some none ∧ ¬ StartsLike kind func) ∨
      ∃ name, func.tryDerive kind = some (some name) ∧ StartsLike kind func := by
  unfold MoveFunctionAbi.tryDerive StartsLike
  split_ifs with hprefix hshort
  · exact .inl ⟨rfl, List.isPrefixOf_iff_prefix.mp hprefix⟩
  · exact .inr (.inr ⟨_, rfl, List.isPrefixOf_iff_prefix.mp hprefix⟩)
  · exact .inr (.inl ⟨rfl, fun h => hprefix (List.isPrefixOf_iff_prefix.mpr h)⟩)

/- One function does not stop the loop for the hooks of functions. -/
def Resolved (index : String → Option (List FunctionIdent)) (s : HookSite) (kind : HookKind) :
    Prop :=
  StartsLike kind s.func → ∃ name, s.func.tryDerive kind = some (some name) ∧
    (name = movySequence ∨ ∃ t, kind.target index s.packageAddr s.module name = some t)

section

variable (index : String → Option (List FunctionIdent))

theorem addHook_isSome (kind : HookKind) (hooks : FunctionHooks) (s : HookSite) :
    (addHook index kind hooks s).isSome = true ↔ Resolved index s kind := by
  unfold addHook Resolved
  rcases tryDerive_cases s.func kind with ⟨h, hlike⟩ | ⟨h, hlike⟩ | ⟨name, h, hlike⟩
  · simp [h, hlike]
  · simp [h, hlike]
  · simp only [h, hlike, Option.bind_some, true_implies, Option.some.injEq, exists_eq_left']
    split_ifs with hseq
    · simp [hseq]
    · simp [hseq, Option.isSome_iff_exists]

theorem deriveFunctionHooks_isSome (abis : List (MoveAddress × MovePackageAbi)) :
    (deriveFunctionHooks abis index).isSome = true ↔
      ∀ s ∈ hookSites abis, ∀ kind, Resolved index s kind := by
  apply foldlM_isSome
  intro hooks s
  have hkinds : (∀ kind, Resolved index s kind) ↔ Resolved index s .pre ∧ Resolved index s .post :=
    ⟨fun h => ⟨h .pre, h .post⟩, fun h kind => by cases kind <;> [exact h.1; exact h.2]⟩
  rw [hkinds, ← addHook_isSome index .pre hooks s, addHooks]
  cases h : addHook index .pre hooks s with
  | none => simp
  | some mid => simp [addHook_isSome index .post mid s]

end

/-! ### Hooks of sequences -/

theorem addSequenceHook_spec (kind : HookKind) (hooks : FunctionHook) (s : HookSite) :
    (addSequenceHook kind hooks s).isSome = true ↔
      (StartsLike kind s.func → ∃ name, s.func.tryDerive kind = some (some name)) := by
  unfold addSequenceHook MoveFunctionAbi.isMovyPtb
  rcases tryDerive_cases s.func kind with ⟨h, hlike⟩ | ⟨h, hlike⟩ | ⟨name, h, hlike⟩
  · simp [h, hlike]
  · simp [h, hlike]
  · simp [h, hlike]

theorem addSequenceHook_hooks (kind k : HookKind) (hooks hooks' : FunctionHook) (s : HookSite)
    (h : addSequenceHook kind hooks s = some hooks') :
    hooks'.hooks k = hooks.hooks k ++
      if k = kind ∧ s.func.tryDerive kind = some (some movySequence) then [s.ident] else [] := by
  obtain ⟨isPtb, hptb, rfl⟩ := Option.map_eq_some_iff.mp h
  obtain ⟨name, hname, rfl⟩ := Option.map_eq_some_iff.mp hptb
  by_cases hseq : name = some movySequence
  · cases kind <;> cases k <;> simp [hname, hseq, FunctionHook.push, FunctionHook.hooks]
  · simp [hname, hseq]

theorem addSequenceHooks_hooks (hooks hooks' : FunctionHook) (s : HookSite)
    (h : addSequenceHooks hooks s = some hooks') (k : HookKind) (ident : FunctionIdent) :
    ident ∈ hooks'.hooks k ↔ ident ∈ hooks.hooks k ∨
      s.ident = ident ∧ s.func.tryDerive k = some (some movySequence) := by
  obtain ⟨mid, hpre, hpost⟩ := Option.bind_eq_some_iff.mp h
  rw [addSequenceHook_hooks .post k mid hooks' s hpost,
    addSequenceHook_hooks .pre k hooks mid s hpre]
  cases k with
  | pre => by_cases hseq : s.func.tryDerive .pre = some (some movySequence) <;> simp [hseq, eq_comm]
  | post =>
    by_cases hseq : s.func.tryDerive .post = some (some movySequence) <;> simp [hseq, eq_comm]

theorem mem_deriveSequenceHooks (abis : List (MoveAddress × MovePackageAbi)) (hooks : FunctionHook)
    (h : deriveSequenceHooks abis = some hooks) (k : HookKind) (ident : FunctionIdent) :
    ident ∈ hooks.hooks k ↔ ∃ s ∈ hookSites abis, s.ident = ident ∧
      s.func.tryDerive k = some (some movySequence) := by
  have hloop : ∀ (sites : List HookSite) (start : FunctionHook),
      sites.foldlM addSequenceHooks start = some hooks → (ident ∈ hooks.hooks k ↔
        ident ∈ start.hooks k ∨ ∃ s ∈ sites, s.ident = ident ∧
          s.func.tryDerive k = some (some movySequence)) := by
    intro sites
    induction sites with
    | nil =>
      intro start h
      cases h
      simp
    | cons s sites ih =>
      intro start h
      rw [List.foldlM_cons] at h
      obtain ⟨mid, hs, hrest⟩ := Option.bind_eq_some_iff.mp h
      rw [ih mid hrest, addSequenceHooks_hooks start mid s hs k ident, List.exists_mem_cons_iff,
        or_assoc]
  rw [hloop (hookSites abis) ⟨[], []⟩ h]
  have hempty : ident ∉ FunctionHook.hooks ⟨[], []⟩ k := by
    cases k <;> exact List.not_mem_nil
  simp only [hempty, false_or]

theorem deriveSequenceHooks_isSome (abis : List (MoveAddress × MovePackageAbi)) :
    (deriveSequenceHooks abis).isSome = true ↔ ∀ s ∈ hookSites abis, ∀ kind,
      StartsLike kind s.func → ∃ name, s.func.tryDerive kind = some (some name) := by
  apply foldlM_isSome
  intro hooks s
  have hpost := addSequenceHook_spec .post
  constructor
  · intro h kind
    obtain ⟨out, hout⟩ := Option.isSome_iff_exists.mp h
    obtain ⟨mid, hpre, hlast⟩ := Option.bind_eq_some_iff.mp hout
    cases kind with
    | pre => exact (addSequenceHook_spec .pre hooks s).mp (by rw [hpre]; rfl)
    | post => exact (hpost mid s).mp (by rw [hlast]; rfl)
  · intro h
    obtain ⟨mid, hpre⟩ := Option.isSome_iff_exists.mp
      ((addSequenceHook_spec .pre hooks s).mpr (h .pre))
    rw [addSequenceHooks, hpre]
    exact (hpost mid s).mpr (h .post)

/-! ### What becomes a hook -/

theorem target_mem (index : String → Option (List FunctionIdent)) (kind : HookKind)
    (packageAddr : MoveAddress) (module : MoveModuleAbi) (name : String) (t : FunctionIdent)
    (h : kind.target index packageAddr module name = some t) :
    ∃ idents, index name = some idents ∧ t ∈ idents := by
  unfold HookKind.target at h
  split at h
  · cases h
  · rename_i ident hidents
    rw [← Option.some.inj h]
    exact ⟨[ident], hidents, List.mem_singleton_self _⟩
  · rename_i idents _ hidents
    exact ⟨idents, hidents, List.mem_of_find?_eq_some h⟩

theorem site_target (index : String → Option (List FunctionIdent)) (kind : HookKind)
    (s : HookSite) (t : FunctionIdent) (h : s.target index kind = some t) :
    ∃ name, s.func.tryDerive kind = some (some name) ∧ name ≠ movySequence ∧
      kind.target index s.packageAddr s.module name = some t := by
  unfold HookSite.target at h
  split at h
  · rename_i name hname
    split_ifs at h with hseq
    exact ⟨name, hname, hseq, h⟩
  · cases h

/- Neither loop panics, and a hook has the name of one for a function that the index
knows, or for sequences. -/
structure DerivesSafely (abis : List (MoveAddress × MovePackageAbi))
    (index : String → Option (List FunctionIdent)) : Prop where
  functionHooks : ∃ hooks, deriveFunctionHooks abis index = some hooks
  sequenceHooks : ∃ hooks, deriveSequenceHooks abis = some hooks
  targets : ∀ hooks, deriveFunctionHooks abis index = some hooks → ∀ kind t ident,
    ident ∈ (hooks.entryOf t).hooks kind → ∃ name idents,
      ident.function = kind.hookName name ∧ index name = some idents ∧ t ∈ idents
  sequences : ∀ hooks, deriveSequenceHooks abis = some hooks → ∀ kind,
    ∀ ident ∈ hooks.hooks kind, ident.function = kind.hookName movySequence

/- What starts like a hook is one, for sequences or for a function that is found. -/
def HooksNamed (abis : List (MoveAddress × MovePackageAbi))
    (index : String → Option (List FunctionIdent)) : Prop :=
  ∀ s ∈ hookSites abis, ∀ kind, StartsLike kind s.func → ∃ name,
    s.func.name = kind.hookName name ∧
      (name = movySequence ∨ ∃ t, kind.target index s.packageAddr s.module name = some t)

theorem hooksNamed_resolved (abis : List (MoveAddress × MovePackageAbi))
    (index : String → Option (List FunctionIdent)) (h : HooksNamed abis index) (s : HookSite)
    (hs : s ∈ hookSites abis) (kind : HookKind) : Resolved index s kind := by
  intro hlike
  obtain ⟨name, hname, htarget⟩ := h s hs kind hlike
  exact ⟨name, tryDerive_hookName kind name s.func hname, htarget⟩

/- A name that was cut is one of a hook. -/
theorem hooksNamed_name (abis : List (MoveAddress × MovePackageAbi))
    (index : String → Option (List FunctionIdent)) (h : HooksNamed abis index) (s : HookSite)
    (hs : s ∈ hookSites abis) (kind : HookKind) (name : String)
    (hderive : s.func.tryDerive kind = some (some name)) : s.func.name = kind.hookName name := by
  have hlike : StartsLike kind s.func := by
    rcases tryDerive_cases s.func kind with ⟨_, hlike⟩ | ⟨hnone, _⟩ | ⟨_, _, hlike⟩
    · exact hlike
    · rw [hnone] at hderive
      cases hderive
    · exact hlike
  obtain ⟨name', hname', _⟩ := h s hs kind hlike
  rw [tryDerive_hookName kind name' s.func hname'] at hderive
  rw [hname', Option.some.inj (Option.some.inj hderive)]

theorem derivesSafely_of_named (abis : List (MoveAddress × MovePackageAbi))
    (index : String → Option (List FunctionIdent)) (h : HooksNamed abis index) :
    DerivesSafely abis index := by
  have hresolved := hooksNamed_resolved abis index h
  refine ⟨?_, ?_, ?_, ?_⟩
  · exact Option.isSome_iff_exists.mp ((deriveFunctionHooks_isSome index abis).mpr hresolved)
  · refine Option.isSome_iff_exists.mp ((deriveSequenceHooks_isSome abis).mpr ?_)
    intro s hs kind hlike
    obtain ⟨name, hname, _⟩ := hresolved s hs kind hlike
    exact ⟨name, hname⟩
  · intro hooks hhooks kind t ident hident
    obtain ⟨s, hs, rfl, ht⟩ := (mem_deriveFunctionHooks abis hooks hhooks kind t ident).mp hident
    obtain ⟨name, hderive, _, htarget⟩ := site_target index kind s t ht
    obtain ⟨idents, hidents, hmem⟩ := target_mem index kind _ _ name t htarget
    exact ⟨name, idents, hooksNamed_name abis index h s hs kind name hderive, hidents, hmem⟩
  · intro hooks hhooks kind ident hident
    obtain ⟨s, hs, rfl, hderive⟩ := (mem_deriveSequenceHooks abis hooks hhooks kind ident).mp hident
    exact hooksNamed_name abis index h s hs kind movySequence hderive

theorem derivesSafely_iff (abis : List (MoveAddress × MovePackageAbi))
    (index : String → Option (List FunctionIdent)) :
    DerivesSafely abis index ↔ HooksNamed abis index := by
  refine ⟨?_, derivesSafely_of_named abis index⟩
  rintro ⟨⟨hooks, hhooks⟩, ⟨seq, hseq⟩, htargets, hsequences⟩ s hs kind hlike
  have hresolved := (deriveFunctionHooks_isSome index abis).mp (by rw [hhooks]; rfl)
  obtain ⟨name, hderive, hname⟩ := hresolved s hs kind hlike
  by_cases hptb : name = movySequence
  · subst hptb
    have hmem := (mem_deriveSequenceHooks abis seq hseq kind s.ident).mpr ⟨s, hs, rfl, hderive⟩
    exact ⟨movySequence, hsequences seq hseq kind s.ident hmem, .inl rfl⟩
  · obtain ⟨t, htarget⟩ := hname.resolve_left hptb
    have hfound : s.target index kind = some t := by
      simp only [HookSite.target, hderive, if_neg hptb, htarget]
    have hmem := (mem_deriveFunctionHooks abis hooks hhooks kind t s.ident).mpr
      ⟨s, hs, rfl, hfound⟩
    obtain ⟨name', _, hform, _⟩ := htargets hooks hhooks kind t s.ident hmem
    -- the name of the hook tells what it was cut to
    have hcut := tryDerive_hookName kind name' s.func hform
    obtain rfl : name' = name := Option.some.inj (Option.some.inj (hcut.symm.trans hderive))
    exact ⟨name', hform, .inr ⟨t, htarget⟩⟩

def prepareModule : MoveModuleAbi where
  moduleId := ⟨ObjectID.ofByte 5, "movy_m"⟩
  functions := [sampleFunction "movy_prepare"]
  structs := []

def prepareAbis : List (MoveAddress × MovePackageAbi) := [(ObjectID.ofByte 5, ⟨[prepareModule]⟩)]

/- It is taken for a hook of `are`. -/
theorem prepare_not_safe : ¬ DerivesSafely prepareAbis (functionNameToIdents prepareAbis) := by
  intro h
  obtain ⟨hooks, hhooks⟩ := h.functionHooks
  have hnone :
      (deriveFunctionHooks prepareAbis (functionNameToIdents prepareAbis)).isSome = false := by
    decide
  rw [hhooks] at hnone
  cases hnone

end Movy.Fuzz
