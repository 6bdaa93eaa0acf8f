import Movy.Fuzz.FromMetadata

/-!
# What the target functions are

Whichever way they are found, the target functions pass the filters and stand in
target packages, and they are the functions with a score. The last way reads the
ABIs and the testing ABIs one after the other, and a function of both is listed
twice.
-/

namespace Movy.Fuzz

open Movy.Types Movy.Store

/-! ### Sorted lists without repetitions -/

section Sorted

variable {α : Type} [LinearOrder α]

theorem sortAndDedup_eq (l : List α) :
    sortAndDedup l = (l.insertionSort (· ≤ ·)).dedup :=
  (List.pairwise_insertionSort (· ≤ ·) l).destutter_eq_dedup

theorem mem_sortAndDedup (l : List α) (a : α) : a ∈ sortAndDedup l ↔ a ∈ l := by
  rw [sortAndDedup_eq, List.mem_dedup, List.mem_insertionSort]

theorem nodup_sortAndDedup (l : List α) : (sortAndDedup l).Nodup := by
  rw [sortAndDedup_eq]
  exact List.nodup_dedup _

theorem sortAndDedup_eq_nil (l : List α) : sortAndDedup l = [] ↔ l = [] := by
  simp only [List.eq_nil_iff_forall_not_mem, mem_sortAndDedup]

end Sorted

/-! ### The filters -/

/- A function satisfies the filters for its package, its module and itself. -/
structure TargetFilters.Satisfied (filters : TargetFilters) (func : FunctionIdent) : Prop where
  includePackages : ∀ l, filters.includePackages = some l → func.moduleId.moduleAddress ∈ l
  excludePackages : ∀ l, filters.excludePackages = some l → func.moduleId.moduleAddress ∉ l
  includeModules : ∀ l, filters.includeModules = some l → func.moduleId ∈ l
  excludeModules : ∀ l, filters.excludeModules = some l → func.moduleId ∉ l
  includeFunctions : ∀ l, filters.includeFunctions = some l → func ∈ l
  excludeFunctions : ∀ l, filters.excludeFunctions = some l → func ∉ l

section Lists

variable {α : Type} [DecidableEq α]

theorem included_iff (include_ : Option (List α)) (a : α) :
    included include_ a = true ↔ ∀ l, include_ = some l → a ∈ l := by
  cases include_ <;> simp [included]

theorem excluded_iff (exclude : Option (List α)) (a : α) :
    excluded exclude a = false ↔ ∀ l, exclude = some l → a ∉ l := by
  cases exclude <;> simp [excluded]

end Lists

theorem allows_iff (filters : TargetFilters) (func : FunctionIdent) :
    filters.allows func = true ↔ filters.Satisfied func := by
  have hsplit : filters.allows func = true ↔
      included filters.includePackages func.moduleId.moduleAddress = true ∧
      excluded filters.excludePackages func.moduleId.moduleAddress = false ∧
      included filters.includeFunctions func = true ∧
      excluded filters.excludeFunctions func = false ∧
      included filters.includeModules func.moduleId = true ∧
      excluded filters.excludeModules func.moduleId = false := by
    unfold TargetFilters.allows
    split_ifs <;> simp_all
  rw [hsplit]
  simp only [included_iff, excluded_iff]
  constructor
  · intro h
    obtain ⟨h₁, h₂, h₃, h₄, h₅, h₆⟩ := h
    exact ⟨h₁, h₂, h₅, h₆, h₃, h₄⟩
  · intro h
    obtain ⟨h₁, h₂, h₅, h₆, h₃, h₄⟩ := h
    exact ⟨h₁, h₂, h₃, h₄, h₅, h₆⟩

theorem mem_normalizePackages (targetPackages : List MoveAddress) (filters : TargetFilters)
    (p : MoveAddress) :
    p ∈ normalizePackages targetPackages filters ↔ p ∈ targetPackages ∧
      included filters.includePackages p = true ∧ excluded filters.excludePackages p = false := by
  simp only [normalizePackages, mem_sortAndDedup, List.mem_filter, Bool.not_eq_true', and_assoc]

/- The package filters are applied twice, to the packages and to the functions. -/
theorem mem_normalizePackages_of (targetPackages : List MoveAddress) (filters : TargetFilters)
    (func : FunctionIdent) (h : filters.Satisfied func) :
    func.moduleId.moduleAddress ∈ normalizePackages targetPackages filters ↔
      func.moduleId.moduleAddress ∈ targetPackages := by
  rw [mem_normalizePackages]
  exact and_iff_left
    ⟨(included_iff _ _).mpr h.includePackages, (excluded_iff _ _).mpr h.excludePackages⟩

/-! ### Functions of packages -/

theorem functionsAt_address (p : MoveAddress) (package : MovePackageAbi) (s : HookSite)
    (h : s ∈ functionsAt p package) : s.ident.moduleId.moduleAddress = p := by
  obtain ⟨module, -, h⟩ := List.mem_flatMap.mp h
  obtain ⟨func, -, rfl⟩ := List.mem_map.mp h
  rfl

theorem mem_collectFunctions (metadata : MoveAddress → Option MovePackageAbi)
    (keep : MoveFunctionAbi → Bool) (targetPackages : List MoveAddress) (func : FunctionIdent) :
    func ∈ collectFunctions metadata keep targetPackages ↔ ∃ p ∈ targetPackages,
      ∃ package, metadata p = some package ∧
        ∃ s ∈ functionsAt p package, keep s.func = true ∧ s.ident = func := by
  rw [collectFunctions, List.mem_flatMap]
  refine exists_congr fun p => and_congr_right fun _ => ?_
  cases metadata p with
  | none => simp
  | some package => simp [List.mem_filter, and_assoc]

theorem mem_fallback (base : Metadata) (targetPackages : List MoveAddress)
    (func : FunctionIdent) :
    func ∈ fallbackTargetFunctions base targetPackages ↔ ∃ p ∈ targetPackages, ∃ package,
      (base.abis.get? p = some package ∨ base.testingAbis.get? p = some package) ∧
        ∃ s ∈ functionsAt p package, s.ident = func := by
  simp only [fallbackTargetFunctions, List.mem_flatMap, List.mem_filter, List.mem_append,
    List.mem_map, List.contains_iff_mem, Prod.exists, SortedMap.mem_entries]
  constructor
  · intro h
    obtain ⟨p, package, ⟨hpackage, hp⟩, hs⟩ := h
    exact ⟨p, hp, package, hpackage, hs⟩
  · intro h
    obtain ⟨p, hp, package, hpackage, hs⟩ := h
    exact ⟨p, package, ⟨hpackage, hp⟩, hs⟩

def Offers (metadata : MoveAddress → Option MovePackageAbi) (keep : MoveFunctionAbi → Bool)
    (targetPackages : List MoveAddress) (filters : TargetFilters) : Prop :=
  ∃ p ∈ targetPackages, ∃ package, metadata p = some package ∧
    ∃ s ∈ functionsAt p package, keep s.func = true ∧ filters.Satisfied s.ident

theorem filtered_eq_nil_iff (metadata : MoveAddress → Option MovePackageAbi)
    (keep : MoveFunctionAbi → Bool) (targetPackages : List MoveAddress) (filters : TargetFilters) :
    applyFunctionFilters (collectFunctions metadata keep
        (normalizePackages targetPackages filters)) filters = [] ↔
      ¬Offers metadata keep targetPackages filters := by
  rw [applyFunctionFilters, List.filter_eq_nil_iff]
  constructor
  · rintro h ⟨p, hp, package, hpackage, s, hs, hkeep, hok⟩
    have haddr := functionsAt_address p package s hs
    have hnorm := (mem_normalizePackages_of targetPackages filters s.ident hok).mpr (haddr ▸ hp)
    exact h s.ident ((mem_collectFunctions _ _ _ _).mpr
      ⟨p, haddr ▸ hnorm, package, hpackage, s, hs, hkeep, rfl⟩) ((allows_iff _ _).mpr hok)
  · intro h func hfunc hallows
    obtain ⟨p, hp, package, hpackage, s, hs, hkeep, rfl⟩ := (mem_collectFunctions _ _ _ _).mp hfunc
    exact h ⟨p, ((mem_normalizePackages _ _ _).mp hp).1, package, hpackage, s, hs, hkeep,
      (allows_iff _ _).mp hallows⟩

/-! ### The last way -/

def passing (filters : TargetFilters) (p : MoveAddress) (package : MovePackageAbi) :
    List FunctionIdent :=
  ((functionsAt p package).map HookSite.ident).filter filters.allows

/- No function of a target package passes the filters at two places. -/
structure ListedOnce (base : Metadata) (targetPackages : List MoveAddress)
    (filters : TargetFilters) : Prop where
  abis : ∀ p ∈ targetPackages, ∀ package, base.abis.get? p = some package →
    (passing filters p package).Nodup
  testingAbis : ∀ p ∈ targetPackages, ∀ package, base.testingAbis.get? p = some package →
    (passing filters p package).Nodup
  apart : ∀ p ∈ targetPackages, ∀ package testing, base.abis.get? p = some package →
    base.testingAbis.get? p = some testing →
    (passing filters p package).Disjoint (passing filters p testing)

def targetEntries (m : SortedMap MoveAddress MovePackageAbi) (packages : List MoveAddress) :
    List (MoveAddress × MovePackageAbi) :=
  m.entries.filter fun e => packages.contains e.1

theorem mem_targetEntries (m : SortedMap MoveAddress MovePackageAbi) (packages : List MoveAddress)
    (p : MoveAddress) (package : MovePackageAbi) :
    (p, package) ∈ targetEntries m packages ↔ m.get? p = some package ∧ p ∈ packages := by
  rw [targetEntries, List.mem_filter, SortedMap.mem_entries, List.contains_iff_mem]

theorem fallback_filtered (base : Metadata) (packages : List MoveAddress)
    (filters : TargetFilters) :
    applyFunctionFilters (fallbackTargetFunctions base packages) filters =
      (targetEntries base.abis packages).flatMap (fun e => passing filters e.1 e.2) ++
      (targetEntries base.testingAbis packages).flatMap fun e => passing filters e.1 e.2 := by
  rw [applyFunctionFilters, fallbackTargetFunctions, List.filter_flatMap, List.filter_append,
    List.flatMap_append]
  rfl

theorem passing_address (filters : TargetFilters) (p : MoveAddress) (package : MovePackageAbi)
    (func : FunctionIdent) (h : func ∈ passing filters p package) :
    func.moduleId.moduleAddress = p := by
  obtain ⟨s, hs, rfl⟩ := List.mem_map.mp (List.mem_filter.mp h).1
  exact functionsAt_address p package s hs

theorem nodup_targetEntries (filters : TargetFilters) (m : SortedMap MoveAddress MovePackageAbi)
    (packages : List MoveAddress) :
    ((targetEntries m packages).flatMap fun e => passing filters e.1 e.2).Nodup ↔
      ∀ p ∈ packages, ∀ package, m.get? p = some package → (passing filters p package).Nodup := by
  rw [List.nodup_flatMap]
  have hapart : (targetEntries m packages).Pairwise
      (Function.onFun List.Disjoint fun e => passing filters e.1 e.2) := by
    refine (m.sorted.filter _).imp fun {a b} hlt func ha hb => ?_
    rw [← passing_address filters _ _ func ha, passing_address filters _ _ func hb] at hlt
    exact lt_irrefl _ hlt
  rw [and_iff_left hapart]
  constructor
  · exact fun h p hp package hpackage => h _ ((mem_targetEntries _ _ _ _).mpr ⟨hpackage, hp⟩)
  · rintro h ⟨p, package⟩ he
    obtain ⟨hpackage, hp⟩ := (mem_targetEntries _ _ _ _).mp he
    exact h p hp package hpackage

/- Packages that the filters exclude list nothing, so they need not be asked. -/
theorem passing_normalize (filters : TargetFilters) (targetPackages : List MoveAddress)
    (p : MoveAddress) (package : MovePackageAbi) (func : FunctionIdent) (hp : p ∈ targetPackages)
    (h : func ∈ passing filters p package) : p ∈ normalizePackages targetPackages filters := by
  have haddr := passing_address filters p package func h
  have hok := (allows_iff _ _).mp (List.mem_filter.mp h).2
  have hmem := (mem_normalizePackages_of targetPackages filters func hok).mpr (haddr ▸ hp)
  exact haddr ▸ hmem

theorem nodup_normalize_iff (filters : TargetFilters) (targetPackages : List MoveAddress)
    (m : SortedMap MoveAddress MovePackageAbi) :
    (∀ p ∈ normalizePackages targetPackages filters, ∀ package, m.get? p = some package →
        (passing filters p package).Nodup) ↔
      ∀ p ∈ targetPackages, ∀ package, m.get? p = some package →
        (passing filters p package).Nodup := by
  constructor
  · intro h p hp package hpackage
    by_cases hnorm : p ∈ normalizePackages targetPackages filters
    · exact h p hnorm package hpackage
    · have hnone : passing filters p package = [] :=
        List.eq_nil_iff_forall_not_mem.mpr fun func hfunc =>
          hnorm (passing_normalize filters targetPackages p package func hp hfunc)
      rw [hnone]
      exact List.nodup_nil
  · exact fun h p hp => h p ((mem_normalizePackages _ _ _).mp hp).1

theorem disjoint_targetEntries (filters : TargetFilters) (targetPackages : List MoveAddress)
    (m m' : SortedMap MoveAddress MovePackageAbi) :
    ((targetEntries m (normalizePackages targetPackages filters)).flatMap
        fun e => passing filters e.1 e.2).Disjoint
      ((targetEntries m' (normalizePackages targetPackages filters)).flatMap
        fun e => passing filters e.1 e.2) ↔
      ∀ p ∈ targetPackages, ∀ package testing, m.get? p = some package →
        m'.get? p = some testing →
        (passing filters p package).Disjoint (passing filters p testing) := by
  constructor
  · intro hdisjoint p hp package testing hpackage htest func h h'
    have hnorm := passing_normalize filters targetPackages p package func hp h
    exact hdisjoint
      (List.mem_flatMap.mpr ⟨_, (mem_targetEntries _ _ _ _).mpr ⟨hpackage, hnorm⟩, h⟩)
      (List.mem_flatMap.mpr ⟨_, (mem_targetEntries _ _ _ _).mpr ⟨htest, hnorm⟩, h'⟩)
  · intro hapart func h h'
    obtain ⟨⟨p, package⟩, he, hpass⟩ := List.mem_flatMap.mp h
    obtain ⟨⟨p', testing⟩, he', hpass'⟩ := List.mem_flatMap.mp h'
    obtain ⟨hpackage, hp⟩ := (mem_targetEntries _ _ _ _).mp he
    obtain ⟨htest, -⟩ := (mem_targetEntries _ _ _ _).mp he'
    -- a function tells the package that it is of
    obtain rfl := (passing_address filters p package func hpass).symm.trans
      (passing_address filters p' testing func hpass')
    exact hapart p ((mem_normalizePackages _ _ _).mp hp).1 package testing hpackage htest hpass
      hpass'

theorem nodup_fallback_iff (base : Metadata) (targetPackages : List MoveAddress)
    (filters : TargetFilters) :
    (applyFunctionFilters (fallbackTargetFunctions base
        (normalizePackages targetPackages filters)) filters).Nodup ↔
      ListedOnce base targetPackages filters := by
  rw [fallback_filtered, List.nodup_append', nodup_targetEntries, nodup_targetEntries,
    nodup_normalize_iff, nodup_normalize_iff, disjoint_targetEntries]
  exact ⟨fun h => ⟨h.1, h.2.1, h.2.2⟩, fun h => ⟨h.abis, h.testingAbis, h.apart⟩⟩

/-! ### Target functions -/

/- The metadata has this ABI for a package. -/
def Metadata.Knows (self : Metadata) (p : MoveAddress) (package : MovePackageAbi) : Prop :=
  self.getOriginalPackageMetadata p = some package ∨ self.getPackageMetadata p = some package ∨
    self.abis.get? p = some package ∨ self.testingAbis.get? p = some package

/- A function of a target package. -/
def Metadata.Owns (base : Metadata) (targetPackages : List MoveAddress) (func : FunctionIdent) :
    Prop :=
  ∃ p ∈ targetPackages, ∃ package, base.Knows p package ∧
    ∃ s ∈ functionsAt p package, s.ident = func ∧ func.moduleId.moduleAddress = p

/- One of the first two ways finds a function. -/
def Found (base : Metadata) (targetPackages : List MoveAddress) (filters : TargetFilters) : Prop :=
  Offers base.getOriginalPackageMetadata (isTarget base) targetPackages filters ∨
    Offers base.getPackageMetadata (isTarget base) targetPackages filters ∨
    Offers base.getPackageMetadata isValidation targetPackages filters

section Select

variable (base : Metadata) (targetPackages : List MoveAddress) (filters : TargetFilters)

def selected (metadata : MoveAddress → Option MovePackageAbi) : List FunctionIdent :=
  let filteredPackages := normalizePackages targetPackages filters
  sortAndDedup (applyFunctionFilters (collectFunctions metadata (isTarget base) filteredPackages ++
    collectValidationTargetFunctions base filteredPackages) filters)

theorem selected_isEmpty (metadata : MoveAddress → Option MovePackageAbi) :
    (selected base targetPackages filters metadata).isEmpty = true ↔
      ¬(Offers metadata (isTarget base) targetPackages filters ∨
        Offers base.getPackageMetadata isValidation targetPackages filters) := by
  rw [List.isEmpty_iff, selected, sortAndDedup_eq_nil, not_or, ← filtered_eq_nil_iff,
    ← filtered_eq_nil_iff]
  simp only [applyFunctionFilters, List.filter_append, List.append_eq_nil_iff,
    collectValidationTargetFunctions]

theorem selectTargetFunctions_eq :
    selectTargetFunctions base targetPackages filters =
      if (selected base targetPackages filters base.getOriginalPackageMetadata).isEmpty then
        if (selected base targetPackages filters base.getPackageMetadata).isEmpty then
          applyFunctionFilters (fallbackTargetFunctions base
            (normalizePackages targetPackages filters)) filters
        else selected base targetPackages filters base.getPackageMetadata
      else selected base targetPackages filters base.getOriginalPackageMetadata := by
  have hnest : ∀ primary testing last : List FunctionIdent,
      (if (if primary.isEmpty then testing else primary).isEmpty then last
        else if primary.isEmpty then testing else primary) =
      if primary.isEmpty then if testing.isEmpty then last else testing else primary := by
    intro primary testing last
    cases h : primary.isEmpty <;> simp [h]
  exact hnest _ _ _

theorem selectTargetFunctions_cases :
    (Found base targetPackages filters ∧
      (selectTargetFunctions base targetPackages filters).Nodup) ∨
    (¬Found base targetPackages filters ∧ selectTargetFunctions base targetPackages filters =
      applyFunctionFilters (fallbackTargetFunctions base
        (normalizePackages targetPackages filters)) filters) := by
  have hprimary := selected_isEmpty base targetPackages filters base.getOriginalPackageMetadata
  have htesting := selected_isEmpty base targetPackages filters base.getPackageMetadata
  rw [selectTargetFunctions_eq]
  split_ifs with h₁ h₂
  · refine Or.inr ⟨fun hfound => ?_, rfl⟩
    exact hfound.elim (fun h => hprimary.mp h₁ (Or.inl h)) (htesting.mp h₂)
  · exact Or.inl ⟨Or.inr (not_not.mp (mt htesting.mpr h₂)), nodup_sortAndDedup _⟩
  · exact Or.inl ⟨(not_not.mp (mt hprimary.mpr h₁)).imp_right Or.inr, nodup_sortAndDedup _⟩

theorem mem_selectTargetFunctions (func : FunctionIdent)
    (h : func ∈ selectTargetFunctions base targetPackages filters) :
    filters.Satisfied func ∧ base.Owns targetPackages func := by
  have hof : ∀ p ∈ normalizePackages targetPackages filters, ∀ package, base.Knows p package →
      ∀ s ∈ functionsAt p package, base.Owns targetPackages s.ident := by
    intro p hp package hpackage s hs
    exact ⟨p, ((mem_normalizePackages _ _ _).mp hp).1, package, hpackage, s, hs, rfl,
      functionsAt_address p package s hs⟩
  have hcollect : ∀ metadata keep, (∀ p package, metadata p = some package →
        base.Knows p package) →
      func ∈ collectFunctions metadata keep (normalizePackages targetPackages filters) →
      base.Owns targetPackages func := by
    intro metadata keep hmeta hfunc
    obtain ⟨p, hp, package, hpackage, s, hs, -, rfl⟩ := (mem_collectFunctions _ _ _ _).mp hfunc
    exact hof p hp package (hmeta p package hpackage) s hs
  have htesting : ∀ p package, base.getPackageMetadata p = some package →
      base.Knows p package := fun _ _ hp => Or.inr (Or.inl hp)
  have hselected : ∀ metadata, (∀ p package, metadata p = some package → base.Knows p package) →
      func ∈ selected base targetPackages filters metadata →
      filters.Satisfied func ∧ base.Owns targetPackages func := by
    intro metadata hmeta hfunc
    obtain ⟨hfunc, hallows⟩ := List.mem_filter.mp ((mem_sortAndDedup _ _).mp hfunc)
    refine ⟨(allows_iff _ _).mp hallows, ?_⟩
    exact (List.mem_append.mp hfunc).elim (hcollect _ _ hmeta) (hcollect _ _ htesting)
  rw [selectTargetFunctions_eq] at h
  split_ifs at h
  · obtain ⟨hfunc, hallows⟩ := List.mem_filter.mp h
    obtain ⟨p, hp, package, hpackage, s, hs, rfl⟩ := (mem_fallback _ _ _).mp hfunc
    exact ⟨(allows_iff _ _).mp hallows, hof p hp package (Or.inr (Or.inr hpackage)) s hs⟩
  · exact hselected _ htesting h
  · exact hselected _ (fun _ _ hp => Or.inl hp) h

end Select

/-! ### Scores -/

theorem get?_orInsert (scores : SortedMap FunctionIdent U64) (func f : FunctionIdent)
    (score : U64) :
    (orInsert scores func score).get? f =
      if f = func then some ((scores.get? func).getD score) else scores.get? f := by
  unfold orInsert
  cases h : scores.get? func with
  | none =>
    rw [SortedMap.get?_insert]
    split_ifs <;> rfl
  | some old =>
    split_ifs with hf
    · rw [hf]
      exact h
    · rfl

/- The loop over the target functions leaves scores alone that are right already. -/
theorem get?_foldl_orInsert (score : FunctionIdent → U64) (targetFunctions : List FunctionIdent)
    (scores : SortedMap FunctionIdent U64) (f : FunctionIdent)
    (hscores : ∀ old, scores.get? f = some old → old = score f) :
    (targetFunctions.foldl (fun scores func => orInsert scores func (score func)) scores).get? f =
      if f ∈ targetFunctions then some (score f) else scores.get? f := by
  induction targetFunctions generalizing scores with
  | nil => simp
  | cons func rest ih =>
    have hget := get?_orInsert scores func f (score func)
    have hsame : (scores.get? f).getD (score f) = score f := by
      cases h : scores.get? f with
      | none => rfl
      | some old => exact hscores old h
    rw [List.foldl_cons, ih]
    · by_cases hf : f = func
      · subst hf
        rw [hget, if_pos rfl, hsame]
        simp
      · simp [hget, hf]
    · intro old hold
      rw [hget] at hold
      split_ifs at hold with hf
      · subst hf
        rw [hsame] at hold
        exact (Option.some.inj hold).symm
      · exact hscores old hold

/- Every target function gets its score, once. -/
theorem get?_deriveFunctionScores (targetFunctions : List FunctionIdent)
    (specific : SortedMap FunctionIdent U64) (f : FunctionIdent) :
    (deriveFunctionScores targetFunctions specific).get? f =
      if f ∈ targetFunctions then some ((specific.get? f).getD INIT_FUNCTION_SCORE) else none :=
  get?_foldl_orInsert (fun func => (specific.get? func).getD INIT_FUNCTION_SCORE) targetFunctions
    SortedMap.empty f nofun

namespace FuzzMetadata

variable {base : Metadata} {functionScores : List (FunctionIdent × U64)}
  {targetPackages : List MoveAddress} {attacker admin gasId : MoveAddress}
  {localTestingAbis : SortedMap MoveAddress MovePackageAbi} {checkpoint epoch epochMs : U64}
  {filters : TargetFilters} {out : FuzzMetadata}

theorem fromMetadata_spec
    (h : fromMetadata base functionScores targetPackages attacker admin gasId localTestingAbis
      checkpoint epoch epochMs filters = some out) :
    out.targetFunctions = selectTargetFunctions base targetPackages filters ∧
      out.functionScores = deriveFunctionScores out.targetFunctions out.specificFunctionScores := by
  obtain ⟨functionHooks, -, h⟩ := Option.bind_eq_some_iff.mp h
  obtain ⟨sequenceHooks, -, rfl⟩ := Option.map_eq_some_iff.mp h
  exact ⟨rfl, rfl⟩

end FuzzMetadata

/- The target functions pass the filters, stand in target packages, each once, and
they are the functions with a score. -/
structure HonoursFilters (base : Metadata) (targetPackages : List MoveAddress)
    (filters : TargetFilters) (out : FuzzMetadata) : Prop where
  filtered : ∀ func ∈ out.targetFunctions, filters.Satisfied func
  owned : ∀ func ∈ out.targetFunctions, base.Owns targetPackages func
  once : out.targetFunctions.Nodup
  scored : ∀ func, (out.functionScores.get? func).isSome = true ↔ func ∈ out.targetFunctions

/- All but `once` holds always. -/
theorem honoursFilters_iff (base : Metadata) (functionScores : List (FunctionIdent × U64))
    (targetPackages : List MoveAddress) (attacker admin gasId : MoveAddress)
    (localTestingAbis : SortedMap MoveAddress MovePackageAbi) (checkpoint epoch epochMs : U64)
    (filters : TargetFilters) (out : FuzzMetadata)
    (h : FuzzMetadata.fromMetadata base functionScores targetPackages attacker admin gasId
      localTestingAbis checkpoint epoch epochMs filters = some out) :
    HonoursFilters base targetPackages filters out ↔
      Found base targetPackages filters ∨ ListedOnce base targetPackages filters := by
  obtain ⟨htargets, hscores⟩ := FuzzMetadata.fromMetadata_spec h
  have honce : out.targetFunctions.Nodup ↔
      Found base targetPackages filters ∨ ListedOnce base targetPackages filters := by
    rw [htargets]
    rcases selectTargetFunctions_cases base targetPackages filters with ⟨hfound, hnodup⟩ |
      ⟨hnone, hlast⟩
    · exact iff_of_true hnodup (Or.inl hfound)
    · rw [hlast, nodup_fallback_iff]
      exact (or_iff_right hnone).symm
  constructor
  · exact fun hhonours => honce.mp hhonours.once
  · intro hcond
    refine ⟨fun func hfunc => ?_, fun func hfunc => ?_, honce.mpr hcond, fun func => ?_⟩
    · exact (mem_selectTargetFunctions base targetPackages filters func (htargets ▸ hfunc)).1
    · exact (mem_selectTargetFunctions base targetPackages filters func (htargets ▸ hfunc)).2
    · rw [hscores, get?_deriveFunctionScores]
      split_ifs with hmem <;> simp [hmem]

section Sample

def vaultHandle : MoveStructHandle :=
  ⟨⟨ObjectID.ofByte 7, "vault"⟩, "Vault", ⟨false, false, true, true⟩, []⟩

def vaultAbi (visibility : MoveFunctionVisibility) : MovePackageAbi :=
  ⟨[⟨⟨ObjectID.ofByte 7, "vault"⟩,
    [⟨"close", [.struct vaultHandle], [], [], visibility⟩], [vaultHandle]⟩]⟩

def vaultMetadata (visibility : MoveFunctionVisibility) : Metadata where
  typeGraph := Analysis.MoveTypeGraph.new
  abis := SortedMap.empty.insert (ObjectID.ofByte 7) (vaultAbi visibility)
  testingAbis := SortedMap.empty.insert (ObjectID.ofByte 7) (vaultAbi visibility)
  moduleAddressToPackage := SortedMap.empty
  functionNameToIdents := fun _ => none

def noFilters : TargetFilters := ⟨none, none, none, none, none, none⟩

def vaultFuzz (visibility : MoveFunctionVisibility) : Option FuzzMetadata :=
  FuzzMetadata.fromMetadata (vaultMetadata visibility) [] [ObjectID.ofByte 7] (ObjectID.ofByte 9)
    (ObjectID.ofByte 8) (ObjectID.ofByte 6) SortedMap.empty 0 0 0 noFilters

theorem vaultMetadata_get? (visibility : MoveFunctionVisibility) :
    (vaultMetadata visibility).abis.get? (ObjectID.ofByte 7) = some (vaultAbi visibility) := by
  rw [vaultMetadata, SortedMap.get?_insert, if_pos rfl]

theorem honoursFilters_vault :
    ∃ out, vaultFuzz .public_ = some out ∧
      HonoursFilters (vaultMetadata .public_) [ObjectID.ofByte 7] noFilters out := by
  obtain ⟨out, h⟩ := Option.isSome_iff_exists.mp (show (vaultFuzz .public_).isSome = true from rfl)
  refine ⟨out, h, (honoursFilters_iff (vaultMetadata .public_) [] [ObjectID.ofByte 7] _ _ _ _ _ _ _
    noFilters out h).mpr (Or.inl (Or.inl ?_))⟩
  refine ⟨_, List.mem_singleton.mpr rfl, _, vaultMetadata_get? .public_, _,
    List.mem_singleton.mpr rfl, by decide, ?_⟩
  exact ⟨nofun, nofun, nofun, nofun, nofun, nofun⟩

/- A vault that only its module closes: the function is found twice by the last way. -/
theorem honoursFilters_fails :
    ¬∀ (base : Metadata) (functionScores : List (FunctionIdent × U64))
      (targetPackages : List MoveAddress) (attacker admin gasId : MoveAddress)
      (localTestingAbis : SortedMap MoveAddress MovePackageAbi) (checkpoint epoch epochMs : U64)
      (filters : TargetFilters) (out : FuzzMetadata),
      FuzzMetadata.fromMetadata base functionScores targetPackages attacker admin gasId
        localTestingAbis checkpoint epoch epochMs filters = some out →
      HonoursFilters base targetPackages filters out := by
  intro hall
  obtain ⟨out, h⟩ := Option.isSome_iff_exists.mp (show (vaultFuzz .private_).isSome = true from rfl)
  have honce := (hall (vaultMetadata .private_) [] [ObjectID.ofByte 7] _ _ _ _ _ _ _ noFilters
    out h).once
  rw [(FuzzMetadata.fromMetadata_spec h).1] at honce
  exact absurd honce (by decide)

end Sample

end Movy.Fuzz
