import Movy.Fuzz.Align
import Movy.Fuzz.ByteViews
import Movy.Fuzz.FromMetadata
import Movy.Fuzz.SolveArg
import Movy.Types.AddressText

/-!
# Magic numbers (`movy-fuzz/src/input.rs`)

After an execution an input keeps the operands of the comparisons that were
logged, under the texts of the function that the transaction called. The mutators
read them back under the package that stands for the address of the module.
-/

namespace Movy.Fuzz

open Movy.Types Movy.Store
open Movy.Tracer (Log Magic)

abbrev NumberSet := SortedMap (List Byte) Unit

abbrev MagicPool := SortedMap String (SortedMap String (SortedMap String NumberSet))

/-! ### `update_magic_number` -/

/- The little-endian bytes of a number; no bytes are no magic. -/
def magicBytes : Magic → Option (List Byte)
  | .int w n => some (leBytes (w.bits / 8) n)
  | .bytes b => if b.isEmpty then none else some b

def addMagic (functionPool : NumberSet) (magic : Magic) : NumberSet :=
  match magicBytes magic with
  | some bytes => functionPool.insert bytes ()
  | none => functionPool

def addLog (functionPool : NumberSet) : Log → NumberSet
  | .cmpLog lhs rhs op _ =>
    if op = .eq ∨ op = .ge ∨ op = .le then [lhs, rhs].foldl addMagic functionPool
    else functionPool
  | _ => functionPool

def addFunction (pool : MagicPool) (func : Tracer.FunctionIdent) (cmps : List Log) : MagicPool :=
  let pkg := canonicalString func.moduleId.moduleAddress true
  let modules := (pool.get? pkg).getD SortedMap.empty
  let funcs := (modules.get? func.moduleId.moduleName).getD SortedMap.empty
  let functionPool := (funcs.get? func.name).getD SortedMap.empty
  pool.insert pkg (modules.insert func.moduleId.moduleName
    (funcs.insert func.name (cmps.foldl addLog functionPool)))

def updateMagicNumber (functions : List Tracer.FunctionIdent)
    (logs : Tracer.FunctionIdent → List Log) : MagicPool :=
  functions.foldl (fun pool func => addFunction pool func (logs func)) SortedMap.empty

/-! ### `magic_number_pool` -/

section

variable (parse : String → Option MoveAddress)
  (moduleAddressToPackage : SortedMap MoveAddress MoveAddress)

def packageOf (a : MoveAddress) : MoveAddress := (moduleAddressToPackage.get? a).getD a

def readFunctions (pkg : MoveAddress) (module : String) (res : SortedMap FunctionIdent NumberSet)
    (funcs : List (String × NumberSet)) : SortedMap FunctionIdent NumberSet :=
  funcs.foldl (fun res e => res.insert (.new pkg module e.1) e.2) res

def readModules (pkg : MoveAddress) (res : SortedMap FunctionIdent NumberSet)
    (modules : List (String × SortedMap String NumberSet)) : SortedMap FunctionIdent NumberSet :=
  modules.foldl (fun res e => readFunctions pkg e.1 res e.2.entries) res

/- `none` is the `unwrap` of a text that is no address. -/
def magicNumberPool (pool : MagicPool) : Option (SortedMap FunctionIdent NumberSet) :=
  pool.entries.foldlM (fun res e => (parse e.1).map fun pkg =>
    readModules (packageOf moduleAddressToPackage pkg) res e.2.entries) SortedMap.empty

end

/-! ### What an update leaves -/

def compared : Log → List (List Byte)
  | .cmpLog lhs rhs op _ =>
    if op = .eq ∨ op = .ge ∨ op = .le then [lhs, rhs].filterMap magicBytes else []
  | _ => []

theorem get?_addMagic (s : NumberSet) (magic : Magic) (b : List Byte) :
    (addMagic s magic).get? b = if magicBytes magic = some b then some () else s.get? b := by
  unfold addMagic
  cases magicBytes magic with
  | none => simp
  | some bytes => simp [SortedMap.get?_insert, eq_comm]

theorem get?_addMagics (s : NumberSet) (magics : List Magic) (b : List Byte) :
    (magics.foldl addMagic s).get? b =
      if b ∈ magics.filterMap magicBytes then some () else s.get? b := by
  induction magics generalizing s with
  | nil => simp
  | cons magic rest ih =>
    rw [List.foldl_cons, ih, get?_addMagic]
    cases hm : magicBytes magic with
    | none => simp [hm]
    | some bytes =>
      by_cases hb : bytes = b
      · simp [hm, hb]
      · simp [hm, hb, Ne.symm hb]

theorem get?_addLog (s : NumberSet) (log : Log) (b : List Byte) :
    (addLog s log).get? b = if b ∈ compared log then some () else s.get? b := by
  cases log with
  | cmpLog lhs rhs op constraint =>
    rw [addLog, compared]
    by_cases hop : op = .eq ∨ op = .ge ∨ op = .le
    · rw [if_pos hop, if_pos hop]
      exact get?_addMagics s [lhs, rhs] b
    · rw [if_neg hop, if_neg hop, if_neg List.not_mem_nil]
  | shlLog | castLog => simp [addLog, compared]

theorem get?_addLogs (s : NumberSet) (cmps : List Log) (b : List Byte) :
    (cmps.foldl addLog s).get? b =
      if ∃ log ∈ cmps, b ∈ compared log then some () else s.get? b := by
  induction cmps generalizing s with
  | nil => simp
  | cons log rest ih =>
    rw [List.foldl_cons, ih, get?_addLog]
    by_cases hlog : b ∈ compared log
    · simp [hlog]
    · simp [hlog]

def numbersAt (pool : MagicPool) (pkg module func : String) : Option NumberSet :=
  ((pool.get? pkg).bind fun modules => modules.get? module).bind fun funcs => funcs.get? func

def textOf (f : Tracer.FunctionIdent) : String := canonicalString f.moduleId.moduleAddress true

def FiledAt (f : Tracer.FunctionIdent) (pkg module func : String) : Prop :=
  pkg = textOf f ∧ module = f.moduleId.moduleName ∧ func = f.name

instance (f : Tracer.FunctionIdent) (pkg module func : String) :
    Decidable (FiledAt f pkg module func) := by
  unfold FiledAt
  infer_instance

theorem get?_getD_empty {κ ν : Type} [LinearOrder κ] (m : Option (SortedMap κ ν)) (k : κ) :
    (m.getD SortedMap.empty).get? k = m.bind fun m => m.get? k := by
  cases m <;> rfl

theorem numbersAt_addFunction (pool : MagicPool) (f : Tracer.FunctionIdent) (cmps : List Log)
    (pkg module func : String) : numbersAt (addFunction pool f cmps) pkg module func =
      if FiledAt f pkg module func then
        some (cmps.foldl addLog ((numbersAt pool pkg module func).getD SortedMap.empty))
      else numbersAt pool pkg module func := by
  simp only [numbersAt, addFunction, FiledAt, textOf, get?_getD_empty,
    SortedMap.get?_insert]
  by_cases hpkg : pkg = canonicalString f.moduleId.moduleAddress true
  · by_cases hmodule : module = f.moduleId.moduleName
    · by_cases hfunc : func = f.name
      · simp [hpkg, hmodule, hfunc, SortedMap.get?_insert]
      · simp [hpkg, hmodule, hfunc, SortedMap.get?_insert, get?_getD_empty]
    · simp [hpkg, hmodule, SortedMap.get?_insert, get?_getD_empty]
  · simp [hpkg]

theorem numbersAt_update (functions : List Tracer.FunctionIdent)
    (logs : Tracer.FunctionIdent → List Log) (pool : MagicPool) (pkg module func : String)
    (b : List Byte) :
    ((numbersAt (functions.foldl (fun pool f => addFunction pool f (logs f)) pool) pkg module
        func).isSome ↔
      (numbersAt pool pkg module func).isSome ∨ ∃ f ∈ functions, FiledAt f pkg module func) ∧
    ((((numbersAt (functions.foldl (fun pool f => addFunction pool f (logs f)) pool) pkg module
        func).getD SortedMap.empty).get? b).isSome ↔
      (((numbersAt pool pkg module func).getD SortedMap.empty).get? b).isSome ∨
        ∃ f ∈ functions, FiledAt f pkg module func ∧ ∃ log ∈ logs f, b ∈ compared log) := by
  induction functions generalizing pool with
  | nil => simp
  | cons f rest ih =>
    obtain ⟨ihsome, ihmem⟩ := ih (addFunction pool f (logs f))
    rw [List.foldl_cons, ihsome, ihmem, numbersAt_addFunction]
    by_cases hf : FiledAt f pkg module func
    · simp only [hf, if_true, Option.isSome_some, Option.getD_some, get?_addLogs, List.mem_cons,
        exists_eq_or_imp, true_or, or_true, true_and]
      by_cases hlog : ∃ log ∈ logs f, b ∈ compared log
      · simp [hlog]
      · simp [hlog]
    · simp [hf]

/-! ### What is read back -/

/- A fold over the groups of a sorted map, of which only one group has the key. -/
theorem get?_foldl_group {ι κ ν ω : Type} [LinearOrder ι] [LinearOrder κ] (l : List (ι × ω))
    (hl : l.Pairwise fun a b => a.1 < b.1) (step : SortedMap κ ν → ι × ω → SortedMap κ ν) (k : κ)
    (j : ι) (value : ω → Option ν) (hstep : ∀ res, ∀ e ∈ l, (step res e).get? k =
      if e.1 = j then (value e.2).or (res.get? k) else res.get? k) (res : SortedMap κ ν) :
    (l.foldl step res).get? k = ((rawLookup j l).bind value).or (res.get? k) := by
  induction l generalizing res with
  | nil => rfl
  | cons e rest ih =>
    obtain ⟨he, hrest⟩ := List.pairwise_cons.mp hl
    rw [List.foldl_cons, ih hrest (fun res e he => hstep res e (List.mem_cons_of_mem _ he)),
      hstep res e List.mem_cons_self, rawLookup]
    by_cases hj : e.1 = j
    · subst hj
      rw [lookup_eq_none rest e.1 he, if_pos rfl, if_pos rfl]
      rfl
    · rw [if_neg hj, if_neg (Ne.symm hj)]

theorem get?_readFunctions (pkg : MoveAddress) (module : String)
    (funcs : SortedMap String NumberSet) (res : SortedMap FunctionIdent NumberSet)
    (ident : FunctionIdent) : (readFunctions pkg module res funcs.entries).get? ident =
      (if ident.moduleId = ⟨pkg, module⟩ then funcs.get? ident.function else none).or
        (res.get? ident) := by
  have hfold := get?_foldl_group funcs.entries funcs.sorted
    (fun res e => res.insert (FunctionIdent.new pkg module e.1) e.2) ident ident.function
    (fun numbers => if ident.moduleId = ⟨pkg, module⟩ then some numbers else none) ?_ res
  · rw [readFunctions, hfold]
    by_cases hm : ident.moduleId = ⟨pkg, module⟩
    · simp [hm, SortedMap.get?]
    · simp [hm]
  · intro res e _
    obtain ⟨m, func⟩ := ident
    rw [SortedMap.get?_insert, FunctionIdent.new]
    by_cases hm : m = ⟨pkg, module⟩
    · by_cases he : e.1 = func
      · simp [hm, he]
      · simp [hm, he, Ne.symm he]
    · simp [hm]

theorem get?_readModules (pkg : MoveAddress)
    (modules : SortedMap String (SortedMap String NumberSet))
    (res : SortedMap FunctionIdent NumberSet) (ident : FunctionIdent) :
    (readModules pkg res modules.entries).get? ident =
      (if ident.moduleId.moduleAddress = pkg then
        (modules.get? ident.moduleId.moduleName).bind fun funcs => funcs.get? ident.function
      else none).or (res.get? ident) := by
  have hfold := get?_foldl_group modules.entries modules.sorted
    (fun res e => readFunctions pkg e.1 res e.2.entries) ident ident.moduleId.moduleName
    (fun funcs => if ident.moduleId.moduleAddress = pkg then funcs.get? ident.function else none)
    ?_ res
  · rw [readModules, hfold]
    by_cases hm : ident.moduleId.moduleAddress = pkg
    · simp [hm, SortedMap.get?]
    · simp [hm]
  · intro res e _
    obtain ⟨⟨a, m⟩, func⟩ := ident
    rw [get?_readFunctions]
    by_cases hm : e.1 = m
    · by_cases ha : a = pkg
      · simp [hm, ha]
      · simp [hm, ha]
    · simp [hm, Ne.symm hm]

/- What a package text contributes to a function. -/
def contribution (parse : String → Option MoveAddress)
    (moduleAddressToPackage : SortedMap MoveAddress MoveAddress) (ident : FunctionIdent)
    (e : String × SortedMap String (SortedMap String NumberSet)) : Option NumberSet :=
  if (parse e.1).map (packageOf moduleAddressToPackage) = some ident.moduleId.moduleAddress then
    (e.2.get? ident.moduleId.moduleName).bind fun funcs => funcs.get? ident.function
  else none

/- The last package that has the function counts. -/
theorem get?_magicNumberPool (parse : String → Option MoveAddress)
    (moduleAddressToPackage : SortedMap MoveAddress MoveAddress)
    (l : List (String × SortedMap String (SortedMap String NumberSet)))
    (hparse : ∀ e ∈ l, (parse e.1).isSome) :
    ∃ res, l.foldlM (fun res e => (parse e.1).map fun pkg =>
        readModules (packageOf moduleAddressToPackage pkg) res e.2.entries) SortedMap.empty =
          some res ∧ ∀ ident, res.get? ident =
        (l.filterMap (contribution parse moduleAddressToPackage ident)).getLast? := by
  induction l using List.reverseRecOn with
  | nil => exact ⟨SortedMap.empty, rfl, fun _ => rfl⟩
  | append_singleton rest e ih =>
    obtain ⟨res, hres, hget⟩ := ih fun e he => hparse e (List.mem_append_left _ he)
    obtain ⟨pkg, hpkg⟩ := Option.isSome_iff_exists.mp
      (hparse e (List.mem_append_right _ List.mem_cons_self))
    refine ⟨readModules (packageOf moduleAddressToPackage pkg) res e.2.entries, ?_, fun ident => ?_⟩
    · simp [List.foldlM_append, hres, hpkg]
    · rw [get?_readModules, hget, List.filterMap_append, List.getLast?_append]
      congr 1
      rw [List.filterMap_cons, List.filterMap_nil, contribution, hpkg, Option.map_some]
      by_cases ha : ident.moduleId.moduleAddress = packageOf moduleAddressToPackage pkg
      · rw [if_pos ha, if_pos (congrArg some ha.symm)]
        cases (e.2.get? ident.moduleId.moduleName).bind fun funcs => funcs.get? ident.function with
        | none => rfl
        | some numbers => rfl
      · rw [if_neg ha, if_neg fun h => ha (Option.some.inj h).symm]
        rfl

theorem getLast?_filterMap {ι ω ν : Type} [LinearOrder ι] (l : List (ι × ω))
    (hl : l.Pairwise fun a b => a.1 < b.1) (f : ι × ω → Option ν) (v : ν) :
    (l.filterMap f).getLast? = some v ↔
      ∃ e ∈ l, f e = some v ∧ ∀ e' ∈ l, (f e').isSome → e'.1 ≤ e.1 := by
  induction l using List.reverseRecOn with
  | nil => simp
  | append_singleton rest e ih =>
    obtain ⟨hrest, -, hlt⟩ := List.pairwise_append.mp hl
    have hlt : ∀ a ∈ rest, a.1 < e.1 := fun a ha => hlt a ha e List.mem_cons_self
    rw [List.filterMap_append, List.getLast?_append, List.filterMap_cons, List.filterMap_nil]
    cases he : f e with
    | none =>
      rw [List.getLast?_nil, Option.none_or, ih hrest]
      constructor
      · intro h
        obtain ⟨a, ha, hv, hmax⟩ := h
        refine ⟨a, List.mem_append_left _ ha, hv, fun b hb hsome => ?_⟩
        rcases List.mem_append.mp hb with hb | hb
        · exact hmax b hb hsome
        · rw [List.mem_singleton.mp hb, he] at hsome
          cases hsome
      · intro h
        obtain ⟨a, ha, hv, hmax⟩ := h
        rcases List.mem_append.mp ha with ha | ha
        · exact ⟨a, ha, hv, fun b hb => hmax b (List.mem_append_left _ hb)⟩
        · rw [List.mem_singleton.mp ha, he] at hv
          cases hv
    | some w =>
      rw [List.getLast?_singleton, Option.some_or]
      constructor
      · intro h
        refine ⟨e, List.mem_append_right _ List.mem_cons_self, he.trans h, fun b hb _ => ?_⟩
        rcases List.mem_append.mp hb with hb | hb
        · exact le_of_lt (hlt b hb)
        · rw [List.mem_singleton.mp hb]
      · intro h
        obtain ⟨a, ha, hv, hmax⟩ := h
        rcases List.mem_append.mp ha with ha | ha
        · have hle := hmax e (List.mem_append_right _ List.mem_cons_self) (by rw [he]; rfl)
          exact absurd (hlt a ha) (not_lt.mpr hle)
        · rw [← he, ← List.mem_singleton.mp ha, hv]

/-! ### The numbers of a function -/

/- Of the functions that were logged and read back as this one, the one whose
package has the greatest text. -/
structure Stands (moduleAddressToPackage : SortedMap MoveAddress MoveAddress)
    (functions : List Tracer.FunctionIdent) (ident : FunctionIdent) (f : Tracer.FunctionIdent) :
    Prop where
  logged : f ∈ functions
  readAs : ident = .new (packageOf moduleAddressToPackage f.moduleId.moduleAddress)
    f.moduleId.moduleName f.name
  last : ∀ g ∈ functions, ident = .new (packageOf moduleAddressToPackage g.moduleId.moduleAddress)
    g.moduleId.moduleName g.name → textOf g ≤ textOf f

theorem textOf_injective (f g : Tracer.FunctionIdent) (h : textOf f = textOf g) :
    f.moduleId.moduleAddress = g.moduleId.moduleAddress := by
  have hchars := List.append_cancel_left (String.ofList_injective h)
  exact hexChars_injective hchars

theorem filedAt_unique (f g : Tracer.FunctionIdent) (pkg module func : String)
    (hf : FiledAt f pkg module func) (hg : FiledAt g pkg module func) : f = g := by
  obtain ⟨⟨a, m⟩, n⟩ := f
  obtain ⟨⟨b, m'⟩, n'⟩ := g
  obtain ⟨hfa, rfl, rfl⟩ := hf
  obtain ⟨hga, rfl, rfl⟩ := hg
  obtain rfl := textOf_injective _ _ (hfa.symm.trans hga)
  rfl

theorem get?_updateMagicNumber (functions : List Tracer.FunctionIdent)
    (logs : Tracer.FunctionIdent → List Log) (pool : MagicPool) (pkg : String)
    (h : ((functions.foldl (fun pool f => addFunction pool f (logs f)) pool).get? pkg).isSome) :
    (pool.get? pkg).isSome ∨ ∃ f ∈ functions, pkg = textOf f := by
  induction functions generalizing pool with
  | nil => exact .inl h
  | cons f rest ih =>
    rcases ih _ h with h | ⟨g, hg, hpkg⟩
    · simp only [addFunction, SortedMap.get?_insert] at h
      split_ifs at h with hpkg
      · exact .inr ⟨f, List.mem_cons_self, hpkg⟩
      · exact .inl h
    · exact .inr ⟨g, List.mem_cons_of_mem _ hg, hpkg⟩

theorem filed_entry (functions : List Tracer.FunctionIdent)
    (logs : Tracer.FunctionIdent → List Log) (f : Tracer.FunctionIdent) (hf : f ∈ functions) :
    ∃ modules numbers, (textOf f, modules) ∈ (updateMagicNumber functions logs).entries ∧
      numbersAt (updateMagicNumber functions logs) (textOf f) f.moduleId.moduleName f.name =
        some numbers := by
  obtain ⟨hsome, -⟩ := numbersAt_update functions logs SortedMap.empty (textOf f)
    f.moduleId.moduleName f.name []
  obtain ⟨numbers, hnumbers⟩ := Option.isSome_iff_exists.mp
    (hsome.mpr (.inr ⟨f, hf, rfl, rfl, rfl⟩))
  obtain ⟨funcs, hfuncs, -⟩ := Option.bind_eq_some_iff.mp hnumbers
  obtain ⟨modules, hmodules, -⟩ := Option.bind_eq_some_iff.mp hfuncs
  exact ⟨modules, numbers, (SortedMap.mem_entries _ _ _).mpr hmodules, hnumbers⟩

theorem numbers_iff (functions : List Tracer.FunctionIdent)
    (logs : Tracer.FunctionIdent → List Log) (f : Tracer.FunctionIdent) (hf : f ∈ functions)
    (numbers : NumberSet) (h : numbersAt (updateMagicNumber functions logs) (textOf f)
      f.moduleId.moduleName f.name = some numbers) (bytes : List Byte) :
    (numbers.get? bytes).isSome ↔ ∃ log ∈ logs f, bytes ∈ compared log := by
  obtain ⟨-, hmem⟩ := numbersAt_update functions logs SortedMap.empty (textOf f)
    f.moduleId.moduleName f.name bytes
  rw [← updateMagicNumber, h, Option.getD_some] at hmem
  rw [hmem]
  constructor
  · intro h
    rcases h with h | ⟨g, -, hg, hlogs⟩
    · cases h
    · rw [filedAt_unique f g _ _ _ ⟨rfl, rfl, rfl⟩ hg]
      exact hlogs
  · exact fun h => .inr ⟨f, hf, ⟨rfl, rfl, rfl⟩, h⟩

section

variable (parse : String → Option MoveAddress)
  (hparse : ∀ a, parse (canonicalString a true) = some a)
  (moduleAddressToPackage : SortedMap MoveAddress MoveAddress)
  (functions : List Tracer.FunctionIdent) (logs : Tracer.FunctionIdent → List Log)

include hparse

theorem contribution_eq_some (ident : FunctionIdent) (pkg : String)
    (modules : SortedMap String (SortedMap String NumberSet)) (numbers : NumberSet)
    (he : (pkg, modules) ∈ (updateMagicNumber functions logs).entries) :
    contribution parse moduleAddressToPackage ident (pkg, modules) = some numbers ↔
      ∃ f ∈ functions, pkg = textOf f ∧
        ident = .new (packageOf moduleAddressToPackage f.moduleId.moduleAddress)
          f.moduleId.moduleName f.name ∧
        numbersAt (updateMagicNumber functions logs) pkg f.moduleId.moduleName f.name =
          some numbers := by
  have hget := (SortedMap.mem_entries _ _ _).mp he
  have hat : ∀ m n, numbersAt (updateMagicNumber functions logs) pkg m n =
      (modules.get? m).bind fun funcs => funcs.get? n := fun m n => by
    rw [numbersAt, hget, Option.bind_some]
  obtain ⟨⟨a, m⟩, n⟩ := ident
  simp only [contribution, hat]
  constructor
  · intro h
    split_ifs at h with ha
    rw [← hat] at h
    obtain ⟨hsome, -⟩ := numbersAt_update functions logs SortedMap.empty pkg m n []
    rcases hsome.mp (Option.isSome_iff_exists.mpr ⟨numbers, h⟩) with hempty | ⟨f, hf, hfiled⟩
    · cases hempty
    · obtain ⟨rfl, rfl, rfl⟩ := hfiled
      rw [textOf, hparse, Option.map_some] at ha
      obtain rfl := Option.some.inj ha
      exact ⟨f, hf, rfl, rfl, (hat _ _).symm.trans h⟩
  · intro h
    obtain ⟨f, -, rfl, hident, hnumbers⟩ := h
    cases hident
    rw [textOf, hparse, Option.map_some, if_pos rfl]
    exact hnumbers

/- The numbers that are read back for a function are the operands of all
comparisons by `==`, `>=` and `<=` that the execution has logged for it, at the
address of its module. The texts of the pool always parse. -/
theorem magic_numbers_exact : ∃ pool,
    magicNumberPool parse moduleAddressToPackage (updateMagicNumber functions logs) = some pool ∧
      ∀ ident bytes, (((pool.get? ident).getD SortedMap.empty).get? bytes).isSome ↔
        ∃ f, Stands moduleAddressToPackage functions ident f ∧
          ∃ log ∈ logs f, bytes ∈ compared log := by
  have hkeys : ∀ e ∈ (updateMagicNumber functions logs).entries, (parse e.1).isSome := by
    intro e he
    have hget := (SortedMap.mem_entries _ e.1 e.2).mp he
    rcases get?_updateMagicNumber functions logs SortedMap.empty e.1
      (Option.isSome_iff_exists.mpr ⟨e.2, hget⟩) with h | ⟨f, -, hf⟩
    · cases h
    · rw [hf, textOf, hparse]
      rfl
  obtain ⟨pool, hpool, hget⟩ := get?_magicNumberPool parse moduleAddressToPackage
    (updateMagicNumber functions logs).entries hkeys
  refine ⟨pool, hpool, fun ident bytes => ?_⟩
  have hlast := getLast?_filterMap _ (updateMagicNumber functions logs).sorted
    (contribution parse moduleAddressToPackage ident)
  have hcontribution := fun pkg modules numbers he => contribution_eq_some parse hparse
    moduleAddressToPackage functions logs ident pkg modules numbers he
  constructor
  · intro h
    cases hnumbers : pool.get? ident with
    | none =>
      rw [hnumbers] at h
      cases h
    | some numbers =>
      rw [hnumbers, Option.getD_some] at h
      rw [hget] at hnumbers
      obtain ⟨⟨pkg, modules⟩, he, hvalue, hmax⟩ := (hlast numbers).mp hnumbers
      obtain ⟨f, hf, rfl, hident, hat⟩ := (hcontribution pkg modules numbers he).mp hvalue
      refine ⟨f, ⟨hf, hident, fun g hg hgident => ?_⟩, (numbers_iff _ _ f hf numbers hat bytes).mp h⟩
      obtain ⟨modules', numbers', he', hat'⟩ := filed_entry functions logs g hg
      refine hmax (textOf g, modules') he' (Option.isSome_iff_exists.mpr ⟨numbers', ?_⟩)
      exact (hcontribution _ modules' numbers' he').mpr ⟨g, hg, rfl, hgident, hat'⟩
  · intro h
    obtain ⟨f, hstands, hlogs⟩ := h
    obtain ⟨modules, numbers, he, hat⟩ := filed_entry functions logs f hstands.logged
    have hvalue := (hcontribution _ modules numbers he).mpr
      ⟨f, hstands.logged, rfl, hstands.readAs, hat⟩
    have hfound : pool.get? ident = some numbers := by
      rw [hget]
      refine (hlast numbers).mpr ⟨(textOf f, modules), he, hvalue, fun e' he' hsome => ?_⟩
      obtain ⟨numbers', hvalue'⟩ := Option.isSome_iff_exists.mp hsome
      obtain ⟨g, hg, hpkg, hgident, -⟩ := (hcontribution e'.1 e'.2 numbers' he').mp hvalue'
      rw [hpkg]
      exact hstands.last g hg hgident
    rw [hfound, Option.getD_some]
    exact (numbers_iff _ _ f hstands.logged numbers hat bytes).mpr hlogs

omit hparse

/-! ### What is written -/

/- The pool as the mutators are given it. -/
def numbersOf (pool : SortedMap FunctionIdent NumberSet) (ident : FunctionIdent) :
    List (List Byte) :=
  ((pool.get? ident).getD SortedMap.empty).entries.map Prod.fst

theorem mem_numbersOf (pool : SortedMap FunctionIdent NumberSet) (ident : FunctionIdent)
    (bytes : List Byte) : bytes ∈ numbersOf pool ident ↔
      (((pool.get? ident).getD SortedMap.empty).get? bytes).isSome := by
  rw [numbersOf, List.mem_map, Option.isSome_iff_exists]
  constructor
  · intro h
    obtain ⟨e, he, rfl⟩ := h
    exact ⟨e.2, (SortedMap.mem_entries _ _ _).mp he⟩
  · intro h
    obtain ⟨u, hu⟩ := h
    exact ⟨(bytes, u), (SortedMap.mem_entries _ _ _).mpr hu, rfl⟩

theorem yields_sampleMagicNumber (numbers : List (List Byte)) (v : InputArgument)
    (r : MutationResult × InputArgument) (h : Choice.Yields (sampleMagicNumber numbers v) r) :
    r.2 = v ∨ ∃ bytes ∈ numbers, ∃ old, sync v = some old ∧ bytes.length = old.length ∧
      commit bytes v = some r.2 := by
  have hfits : ∀ old : List Byte, Choice.Yields
      (if (numbers.filter fun num => num.length = old.length).isEmpty
      then pure (.skipped, v) else do
        let bytes ← Choice.pick (numbers.filter fun num => num.length = old.length)
        let value ← Choice.expect (commit bytes v)
        pure (MutationResult.mutated, value) : Choice (MutationResult × InputArgument)) r →
      r.2 = v ∨ ∃ bytes ∈ numbers, bytes.length = old.length ∧ commit bytes v = some r.2 := by
    intro old h
    split_ifs at h
    · rw [(Choice.yields_pure _ _).mp h]
      exact .inl rfl
    · obtain ⟨bytes, hbytes, h⟩ := Choice.yields_bind _ _ _ h
      obtain ⟨value, hvalue, h⟩ := Choice.yields_bind _ _ _ h
      obtain ⟨hmem, hlen⟩ := List.mem_filter.mp (Choice.yields_pick _ _ hbytes)
      rw [(Choice.yields_pure _ _).mp h]
      exact .inr ⟨bytes, hmem, of_decide_eq_true hlen, Choice.yields_expect _ _ hvalue⟩
  have hsome : ∀ x : Choice (MutationResult × InputArgument), x = (do
      let old ← Choice.expect (sync v)
      if (numbers.filter fun num => num.length = old.length).isEmpty then pure (.skipped, v) else do
        let bytes ← Choice.pick (numbers.filter fun num => num.length = old.length)
        let value ← Choice.expect (commit bytes v)
        pure (MutationResult.mutated, value)) → Choice.Yields x r →
      r.2 = v ∨ ∃ bytes ∈ numbers, ∃ old, sync v = some old ∧ bytes.length = old.length ∧
        commit bytes v = some r.2 := by
    rintro x rfl h
    obtain ⟨old, hold, h⟩ := Choice.yields_bind _ _ _ h
    rcases hfits old h with h | ⟨bytes, hmem, hlen, hcommit⟩
    · exact .inl h
    · exact .inr ⟨bytes, hmem, old, Choice.yields_expect _ _ hold, hlen, hcommit⟩
  unfold sampleMagicNumber at h
  split at h
  case' h_13 => exact .inl (by rw [(Choice.yields_pure _ _).mp h])
  all_goals exact hsome _ rfl h

/- An input of the sequence that is left as it is, or is overwritten with an
operand that the execution has compared in the function of the call, or for a
split in the next call that is none. -/
def ComparedWrite (ptb ptb' : MoveSequence) (cmdIdx : ℕ) (call : MoveCall) : Prop :=
  ∃ (j : ℕ) (v v' : InputArgument), ptb.inputs[j]? = some v ∧
    ptb' = { ptb with inputs := ptb.inputs.set j v' } ∧ (v' = v ∨
      ∃ f log bytes, Stands moduleAddressToPackage functions
          (magicFunctionIdent ptb.commands cmdIdx call) f ∧
        log ∈ logs f ∧ bytes ∈ compared log ∧ commit bytes v = some v' ∧
        (IntegerData v → sync v' = some bytes))

theorem comparedWrite_of_yields (pool : SortedMap FunctionIdent NumberSet)
    (hparse : ∀ a, parse (canonicalString a true) = some a)
    (hpool : magicNumberPool parse moduleAddressToPackage (updateMagicNumber functions logs) =
      some pool) (st : FuzzState) (inputLimit : ℕ) (ptb ptb' : MoveSequence) (cmdIdx : ℕ)
    (function : MoveFunctionAbi) (call : MoveCall)
    (h : Choice.Yields (mutateCallArg st true (numbersOf pool) inputLimit ptb cmdIdx function call)
      (some ptb')) :
    ComparedWrite moduleAddressToPackage functions logs ptb ptb' cmdIdx call := by
  obtain ⟨k, param, inputIdx, old, new, -, -, -, hold, hnew, rfl⟩ :=
    overwriteArg_writes _ _ _ _ _ _ h
  refine ⟨inputIdx.val, old, new, hold, rfl, ?_⟩
  obtain ⟨pool', hpool', hexact⟩ := magic_numbers_exact parse hparse moduleAddressToPackage
    functions logs
  rw [hpool] at hpool'
  obtain rfl := Option.some.inj hpool'
  dsimp only at hnew
  rw [if_pos rfl] at hnew
  obtain ⟨v, hv, hnew⟩ := Choice.yields_bind _ _ _ hnew
  rw [Choice.yields_pure, Option.some.injEq] at hnew
  subst hnew
  obtain ⟨r, hr, hv⟩ := Choice.yields_bind _ _ _ hv
  obtain rfl := (Choice.yields_pure _ _).mp hv
  rcases yields_sampleMagicNumber _ _ _ hr with hkept | ⟨bytes, hmem, oldBytes, hsync, hlen, hcommit⟩
  · exact .inl hkept
  · obtain ⟨f, hstands, log, hlog, hcompared⟩ :=
      (hexact _ bytes).mp ((mem_numbersOf _ _ _).mp hmem)
    refine .inr ⟨f, log, bytes, hstands, hlog, hcompared, hcommit, fun hinteger => ?_⟩
    obtain ⟨b, hb, -, hinverse⟩ := sync_commit_inverse old hinteger
    rw [hsync] at hb
    obtain rfl := Option.some.inj hb
    obtain ⟨w, hw, hsyncw, -⟩ := hinverse bytes hlen
    rw [hcommit] at hw
    obtain rfl := Option.some.inj hw
    exact hsyncw

/- With magic numbers asked for, an argument mutation that succeeds has replaced a
type argument, or has written an input of one of its candidates, and then only an
operand that the last execution compared in the function that the input goes to. -/
theorem sampled_compared (pool : SortedMap FunctionIdent NumberSet)
    (hparse : ∀ a, parse (canonicalString a true) = some a)
    (hpool : magicNumberPool parse moduleAddressToPackage (updateMagicNumber functions logs) =
      some pool) (st : FuzzState) (flash : Option FlashProvider) (stageIdx : Option ℕ)
    (ptb ptb' : MoveSequence)
    (h : Choice.Yields (mutateArg st flash true (numbersOf pool) stageIdx ptb) (some ptb')) :
    Choice.Yields (mutateTyArg st flash ptb stageIdx) (some ptb') ∨
      ∃ cmdIdx call, (∃ candidates, candidateMoveCallIndices st flash ptb stageIdx =
          some candidates ∧ cmdIdx ∈ candidates) ∧
        ptb.commands[cmdIdx]? = some (.call call) ∧
        ComparedWrite moduleAddressToPackage functions logs ptb ptb' cmdIdx call := by
  unfold mutateArg at h
  split_ifs at h
  · cases (Choice.yields_pure _ _).mp h
  obtain ⟨c, -, h⟩ := Choice.yields_bind _ _ _ h
  obtain ⟨r, hr, h⟩ := Choice.yields_ite_bind _ _ _ _ _ h
  cases r with
  | some ptb'' =>
    -- the type argument that is tried first in one of ten
    obtain rfl := Option.some.inj ((Choice.yields_pure _ _).mp h)
    rcases hr with hr | hr
    · exact .inl hr
    · cases hr
  | none =>
    obtain ⟨candidates, hcandidates, h⟩ := Choice.yields_bind _ _ _ h
    split_ifs at h
    · cases (Choice.yields_pure _ _).mp h
    obtain ⟨cmdIdx, hcmdIdx, h⟩ := Choice.yields_bind _ _ _ h
    split at h
    · rename_i call hcall
      obtain ⟨function, -, h⟩ := Choice.yields_bind _ _ _ h
      exact .inr ⟨cmdIdx, call, ⟨candidates, Choice.yields_expect _ _ hcandidates,
          Choice.yields_pick _ _ hcmdIdx⟩, hcall,
        comparedWrite_of_yields parse moduleAddressToPackage functions logs pool hparse hpool st _
          ptb ptb' cmdIdx function call h⟩
    · cases (Choice.yields_pure _ _).mp h

end

section Sample

open ArgMutator (oneSequence pairModule)

def loggedFunction : Tracer.FunctionIdent := ⟨⟨ObjectID.ofByte 2, "m"⟩, "one"⟩

/- A comparison of the argument 3 with 10. -/
def loggedComparison : Log := .cmpLog (.int .w64 3) (.int .w64 10) .le none

/- The operand 10 is read back. -/
theorem magic_numbers_exact_one : ∃ pool,
    magicNumberPool parseAddress SortedMap.empty
        (updateMagicNumber [loggedFunction] fun _ => [loggedComparison]) = some pool ∧
      (((pool.get? (.new (ObjectID.ofByte 2) "m" "one")).getD SortedMap.empty).get?
        (leBytes 8 10)).isSome := by
  obtain ⟨pool, hpool, hexact⟩ := magic_numbers_exact parseAddress parseAddress_canonicalString
    SortedMap.empty [loggedFunction] fun _ => [loggedComparison]
  refine ⟨pool, hpool, (hexact _ _).mpr ⟨loggedFunction, ⟨List.mem_singleton.mpr rfl, rfl, ?_⟩,
    loggedComparison, List.mem_singleton.mpr rfl, by decide⟩⟩
  intro g hg _
  rw [List.mem_singleton.mp hg]

def loggedPool : SortedMap FunctionIdent NumberSet :=
  SortedMap.empty.insert (.new (ObjectID.ofByte 2) "m" "one")
    ((SortedMap.empty.insert (leBytes 8 3) ()).insert (leBytes 8 10) ())

theorem loggedPool_eq : magicNumberPool parseAddress SortedMap.empty
    (updateMagicNumber [loggedFunction] fun _ => [loggedComparison]) = some loggedPool := by
  have hentries : (updateMagicNumber [loggedFunction] fun _ => [loggedComparison]).entries =
      [(canonicalString (ObjectID.ofByte 2) true, SortedMap.empty.insert "m"
        (SortedMap.empty.insert "one"
          ((SortedMap.empty.insert (leBytes 8 3) ()).insert (leBytes 8 10) ())))] := rfl
  rw [magicNumberPool, hentries]
  simp only [List.foldlM_cons, List.foldlM_nil, parseAddress_canonicalString, Option.map_some]
  rfl

/- A sequence whose argument is replaced by the operand 10. -/
theorem sampled_compared_one :
    Choice.Yields (mutateTyArg (FuzzState.ofModule pairModule) none oneSequence none)
        (some { oneSequence with inputs := [.u64 10] }) ∨
      ∃ cmdIdx call, (∃ candidates, candidateMoveCallIndices (FuzzState.ofModule pairModule) none
          oneSequence none = some candidates ∧ cmdIdx ∈ candidates) ∧
        oneSequence.commands[cmdIdx]? = some (.call call) ∧
        ComparedWrite SortedMap.empty [loggedFunction] (fun _ => [loggedComparison]) oneSequence
          { oneSequence with inputs := [.u64 10] } cmdIdx call :=
  sampled_compared parseAddress SortedMap.empty [loggedFunction] (fun _ => [loggedComparison])
    loggedPool parseAddress_canonicalString loggedPool_eq (FuzzState.ofModule pairModule) none none
    oneSequence _ ⟨[1, 0, 0, 1], [], rfl⟩

end Sample

end Movy.Fuzz
