import Movy.Fuzz.Meta
import Movy.Lib.Splitting
import Movy.Types.AddressText

/-!
# Identifiers as texts (`movy-types/src/input.rs`, `movy-types/src/abi.rs`)

A module is written as `address::name`, a function as `address::name::function`; the
texts are read back by cutting at `::`. Names are any texts.
-/

namespace Movy.Types

open Movy.Fuzz (FunctionIdent)
open Movy.Splitting

/-- `s.split("::")`. -/
def splitColons (s : String) : List String := (splitMarks ':' s.toList).map String.ofList

namespace MoveModuleId

def display (self : MoveModuleId) : String :=
  canonicalString self.moduleAddress true ++ "::" ++ self.moduleName

/-- `address` is `MoveAddress::from_str`. -/
def fromStr (address : String → Option MoveAddress) (s : String) : Option MoveModuleId :=
  match splitColons s with
  | [moduleAddress, moduleName] => (address moduleAddress).map fun a => ⟨a, moduleName⟩
  | _ => none

end MoveModuleId

def FunctionIdent.display (self : FunctionIdent) : String :=
  self.moduleId.display ++ "::" ++ self.function

def FunctionIdent.fromStr (address : String → Option MoveAddress) (s : String) :
    Option FunctionIdent :=
  match splitColons s with
  | [moduleAddress, moduleName, functionName] =>
    (address moduleAddress).map fun a => ⟨⟨a, moduleName⟩, functionName⟩
  | _ => none

/-! ### Cutting -/

theorem splitColons_eq_iff (s : String) (parts : List String) :
    splitColons s = parts ↔ joinMarks ':' (parts.map String.toList) = s.toList ∧
      WellCut ':' (parts.map String.toList) := by
  rw [← splitMarks_eq_iff, splitColons]
  constructor
  · intro h
    rw [← h, List.map_map]
    simp [Function.comp_def]
  · intro h
    rw [h, List.map_map]
    simp [Function.comp_def]

theorem clean_canonicalString (a : MoveAddress) :
    Clean ':' ((canonicalString a true).toList ++ [':']) := by
  have hchars : (canonicalString a true).toList = '0' :: 'x' :: hexChars a := String.toList_ofList
  refine clean_of_not_mem _ fun h => ?_
  rw [hchars] at h
  rcases List.mem_cons.mp h with h | h
  · exact absurd h (by decide)
  · rcases List.mem_cons.mp h with h | h
    · exact absurd h (by decide)
    · exact absurd (hexChars_lowerHex a ':' h) (by decide)

/-! ### Modules -/

namespace MoveModuleId

/-- The name has no `::`. -/
def Plain (self : MoveModuleId) : Prop := Clean ':' self.moduleName.toList

variable (address : String → Option MoveAddress)

theorem fromStr_eq_some (s : String) (id : MoveModuleId) : fromStr address s = some id ↔
    ∃ a, address a = some id.moduleAddress ∧ splitColons s = [a, id.moduleName] := by
  rw [fromStr]
  split
  · rename_i moduleAddress moduleName hsplit
    rw [hsplit, Option.map_eq_some_iff]
    constructor
    · intro h
      obtain ⟨a, ha, rfl⟩ := h
      exact ⟨moduleAddress, ha, rfl⟩
    · intro h
      obtain ⟨a, ha, hparts⟩ := h
      obtain ⟨rfl, hname⟩ := List.cons.inj hparts
      obtain ⟨rfl, -⟩ := List.cons.inj hname
      exact ⟨id.moduleAddress, ha, rfl⟩
  · rename_i hother
    constructor
    · intro h
      cases h
    · intro h
      obtain ⟨a, -, hparts⟩ := h
      exact (hother a id.moduleName hparts).elim

theorem split_display_iff (id : MoveModuleId) :
    splitColons id.display = [canonicalString id.moduleAddress true, id.moduleName] ↔ id.Plain := by
  have hjoin : joinMarks ':' [(canonicalString id.moduleAddress true).toList,
      id.moduleName.toList] = id.display.toList := by
    simp [display, joinMarks]
  rw [splitColons_eq_iff]
  exact ⟨fun h => h.2.2, fun h => ⟨hjoin, clean_canonicalString id.moduleAddress, h⟩⟩

theorem plain_of_fromStr (s : String) (id : MoveModuleId) (h : fromStr address s = some id) :
    id.Plain := by
  obtain ⟨a, -, hsplit⟩ := (fromStr_eq_some address s id).mp h
  obtain ⟨-, -, hname⟩ := (splitColons_eq_iff _ _).mp hsplit
  exact hname

theorem fromStr_display (haddress : ∀ a, address (canonicalString a true) = some a)
    (id : MoveModuleId) (h : id.Plain) : fromStr address id.display = some id :=
  (fromStr_eq_some address _ id).mpr
    ⟨_, haddress id.moduleAddress, (split_display_iff id).mpr h⟩

end MoveModuleId

/-! ### Functions -/

namespace FunctionIdent

/-- No name has `::`, and that of the module does not end in a colon. -/
def Plain (self : FunctionIdent) : Prop :=
  Clean ':' (self.moduleId.moduleName.toList ++ [':']) ∧ Clean ':' self.function.toList

variable (address : String → Option MoveAddress)

theorem fromStr_eq_some (s : String) (f : FunctionIdent) : fromStr address s = some f ↔
    ∃ a, address a = some f.moduleId.moduleAddress ∧
      splitColons s = [a, f.moduleId.moduleName, f.function] := by
  rw [fromStr]
  split
  · rename_i moduleAddress moduleName functionName hsplit
    rw [hsplit, Option.map_eq_some_iff]
    constructor
    · intro h
      obtain ⟨a, ha, rfl⟩ := h
      exact ⟨moduleAddress, ha, rfl⟩
    · intro h
      obtain ⟨a, ha, hparts⟩ := h
      obtain ⟨rfl, hmodule⟩ := List.cons.inj hparts
      obtain ⟨rfl, hfunction⟩ := List.cons.inj hmodule
      obtain ⟨rfl, -⟩ := List.cons.inj hfunction
      exact ⟨f.moduleId.moduleAddress, ha, rfl⟩
  · rename_i hother
    constructor
    · intro h
      cases h
    · intro h
      obtain ⟨a, -, hparts⟩ := h
      exact (hother a f.moduleId.moduleName f.function hparts).elim

theorem split_display_iff (f : FunctionIdent) :
    splitColons (display f) = [canonicalString f.moduleId.moduleAddress true,
      f.moduleId.moduleName, f.function] ↔ Plain f := by
  have hjoin : joinMarks ':' [(canonicalString f.moduleId.moduleAddress true).toList,
      f.moduleId.moduleName.toList, f.function.toList] = (display f).toList := by
    simp [display, MoveModuleId.display, joinMarks]
  rw [splitColons_eq_iff]
  exact ⟨fun h => h.2.2, fun h => ⟨hjoin, clean_canonicalString f.moduleId.moduleAddress, h⟩⟩

theorem plain_of_fromStr (s : String) (f : FunctionIdent) (h : fromStr address s = some f) :
    Plain f := by
  obtain ⟨a, -, hsplit⟩ := (fromStr_eq_some address s f).mp h
  obtain ⟨-, -, hnames⟩ := (splitColons_eq_iff _ _).mp hsplit
  exact hnames

theorem fromStr_display (haddress : ∀ a, address (canonicalString a true) = some a)
    (f : FunctionIdent) (h : Plain f) : fromStr address (display f) = some f :=
  (fromStr_eq_some address _ f).mpr
    ⟨_, haddress f.moduleId.moduleAddress, (split_display_iff f).mpr h⟩

end FunctionIdent

/-- The text of an identifier is read back as the identifier exactly if no name has
`::` and that of the module of a function does not end in a colon. Whatever text an
identifier was read from, its own text is read back. -/
theorem ident_text_round_trip (address : String → Option MoveAddress)
    (haddress : ∀ a, address (canonicalString a true) = some a) :
    (∀ id : MoveModuleId, MoveModuleId.fromStr address id.display = some id ↔ id.Plain) ∧
      (∀ s id, MoveModuleId.fromStr address s = some id →
        MoveModuleId.fromStr address id.display = some id) ∧
      (∀ f, FunctionIdent.fromStr address (FunctionIdent.display f) = some f ↔
        FunctionIdent.Plain f) ∧
      ∀ s f, FunctionIdent.fromStr address s = some f →
        FunctionIdent.fromStr address (FunctionIdent.display f) = some f := by
  refine ⟨fun id => ⟨?_, ?_⟩, fun s id h => ?_, fun f => ⟨?_, ?_⟩, fun s f h => ?_⟩
  · exact MoveModuleId.plain_of_fromStr address id.display id
  · exact MoveModuleId.fromStr_display address haddress id
  · exact MoveModuleId.fromStr_display address haddress id
      (MoveModuleId.plain_of_fromStr address s id h)
  · exact FunctionIdent.plain_of_fromStr address (FunctionIdent.display f) f
  · exact FunctionIdent.fromStr_display address haddress f
  · exact FunctionIdent.fromStr_display address haddress f
      (FunctionIdent.plain_of_fromStr address s f h)

/-- With the module name `a:` the cut comes too early. -/
theorem ident_text_round_trip_colon :
    MoveModuleId.fromStr parseAddress (MoveModuleId.display ⟨MoveAddress.two, "a:"⟩) =
        some ⟨MoveAddress.two, "a:"⟩ ∧
      FunctionIdent.fromStr parseAddress
          (FunctionIdent.display ⟨⟨MoveAddress.two, "coin"⟩, "mint"⟩) =
        some ⟨⟨MoveAddress.two, "coin"⟩, "mint"⟩ ∧
      FunctionIdent.fromStr parseAddress (FunctionIdent.display ⟨⟨MoveAddress.two, "a:"⟩, "b"⟩) ≠
        some ⟨⟨MoveAddress.two, "a:"⟩, "b"⟩ := by
  obtain ⟨hmodule, -, hfunction, -⟩ :=
    ident_text_round_trip parseAddress parseAddress_canonicalString
  refine ⟨(hmodule _).mpr ?_, (hfunction _).mpr ?_, fun h => ?_⟩
  · simp [MoveModuleId.Plain, Clean]
  · simp [FunctionIdent.Plain, Clean]
  · obtain ⟨hname, -⟩ := (hfunction _).mp h
    simp [Clean] at hname

end Movy.Types
