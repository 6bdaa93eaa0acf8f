import Movy.Types.Layout
import Mathlib.Order.WellFounded

/-!
# Layouts of events (`movy-replay/src/meta.rs`)

`decode_sui_event` lays out an event with the layouts of its type arguments,
and leaves out the arguments that have none. The parameters after such an
argument then stand for the wrong types.
-/

namespace Movy.Types.Layout

open MoveAbiSignatureToken (fromTypeTagLossy)
open Published (MoveStructAbi MoveStructField MoveModuleAbi MovePackageAbi)
open Movy.Store (Byte ObjectID)

/-! ### The code -/

structure Metadata where
  testingAbis : SortedMap MoveAddress MovePackageAbi
  moduleAddressToPackage : SortedMap MoveAddress MoveAddress
  structsMapping : StructDefs

structure StructTag where
  address : MoveAddress
  module : String
  name : String
  typeParams : List MoveTypeTag

structure Event where
  type : StructTag
  contents : List Byte

namespace Metadata

def getPackageMetadata (self : Metadata) (packageId : MoveAddress) : Option MovePackageAbi :=
  self.testingAbis.get? ((self.moduleAddressToPackage.get? packageId).getD packageId)

def getStruct (self : Metadata) (packageId : MoveAddress) (module structName : String) :
    Option MoveStructAbi := do
  let pkg ← self.getPackageMetadata packageId
  let m ← pkg.modules.find? fun m => m.moduleId.moduleName = module
  m.structs.find? fun s => s.handle.structName = structName

def typeLayouts (isIdentifier : String → Bool) (self : Metadata) (fuel : ℕ) :
    List MoveTypeTag → Option (List MoveTypeLayout)
  | [] => some []
  | ty :: rest =>
    match toMoveTypeLayout isIdentifier self.structsMapping fuel [] (fromTypeTagLossy ty) with
    | none => none
    | some none => typeLayouts isIdentifier self fuel rest
    | some (some typ) => (typeLayouts isIdentifier self fuel rest).map (typ :: ·)

/-- The layout with which an event of the type is decoded. -/
def eventLayout (isIdentifier : String → Bool) (self : Metadata) (fuel : ℕ) (type : StructTag) :
    Option (Option MoveStructLayout) :=
  match self.getStruct type.address type.module type.name with
  | none => some none
  | some st => match self.typeLayouts isIdentifier fuel type.typeParams with
    | none => none
    | some typs => toMoveStructLayout isIdentifier
      (toMoveTypeLayout isIdentifier self.structsMapping fuel typs) st

def decodeSuiEvent {ε ν : Type} (isIdentifier : String → Bool)
    (decode : List Byte → MoveStructLayout → Except ε ν) (self : Metadata) (fuel : ℕ)
    (event : Event) : Option (Except ε (Option ν)) :=
  (self.eventLayout isIdentifier fuel event.type).map fun layout => match layout with
    | some layout => (decode event.contents layout).map some
    | none => .ok none

end Metadata

/-! ### Struct definitions that do not contain themselves -/

mutual

/-- The structs that a type names. -/
def structKeys : MoveAbiSignatureToken → List (MoveModuleId × String)
  | .struct st => [(st.moduleId, st.structName)]
  | .structInstantiation st insts => (st.moduleId, st.structName) :: structKeysList insts
  | .vector v => structKeys v
  | .reference rf => structKeys rf
  | .mutableReference rf => structKeys rf
  | _ => []

def structKeysList : List MoveAbiSignatureToken → List (MoveModuleId × String)
  | [] => []
  | t :: ts => structKeys t ++ structKeysList ts

end

theorem mem_structKeysList (ts : List MoveAbiSignatureToken) (k : MoveModuleId × String) :
    k ∈ structKeysList ts ↔ ∃ t ∈ ts, k ∈ structKeys t := by
  induction ts with
  | nil => simp [structKeysList]
  | cons t ts ih => simp [structKeysList, ih]

def FieldOf (structDefs : StructDefs) (inner outer : MoveModuleId × String) : Prop :=
  ∃ st, structDefs outer.1 outer.2 = some st ∧ ∃ fd ∈ st.fields, inner ∈ structKeys fd.ty

/-- There is no infinite descent into fields. -/
def NonRecursive (structDefs : StructDefs) : Prop := WellFounded (FieldOf structDefs)

section

variable {isIdentifier : String → Bool} {structDefs : StructDefs}

theorem toMoveStructLayout_isSome
    (toLayout : MoveAbiSignatureToken → Option (Option MoveTypeLayout)) (st : MoveStructAbi)
    (h : ∀ fd ∈ st.fields, (toLayout fd.ty).isSome) :
    (toMoveStructLayout isIdentifier toLayout st).isSome := by
  have hcollect := collect_isSome (toMoveFieldLayout isIdentifier toLayout) st.fields
    fun fd hfd => by
      have hty := h fd hfd
      rw [toMoveFieldLayout]
      rcases hl : toLayout fd.ty with _ | _ | ty
      · rw [hl] at hty
        exact absurd hty (by simp)
      · rfl
      · rfl
  rw [toMoveStructLayout]
  rcases hc : collect (toMoveFieldLayout isIdentifier toLayout) st.fields with _ | _ | fields
  · rw [hc] at hcollect
    exact absurd hcollect (by simp)
  · rfl
  · rfl

/-- Fuel that is enough for the type in every environment. -/
def EnoughFor (isIdentifier : String → Bool) (structDefs : StructDefs) (t : MoveAbiSignatureToken)
    (fuel : ℕ) : Prop :=
  ∀ typs, (toMoveTypeLayout isIdentifier structDefs fuel typs t).isSome

theorem exists_positive (t : MoveAbiSignatureToken) (bound : ℕ)
    (h : ∀ fuel, bound ≤ fuel → EnoughFor isIdentifier structDefs t (fuel + 1)) :
    ∃ bound, ∀ fuel, bound ≤ fuel → EnoughFor isIdentifier structDefs t fuel := by
  refine ⟨bound + 1, fun fuel hfuel => ?_⟩
  obtain ⟨n, rfl⟩ : ∃ n, fuel = n + 1 := ⟨fuel - 1, by omega⟩
  exact h n (by omega)

theorem enoughFor_of_fields (t : MoveAbiSignatureToken)
    (h : ∀ k ∈ structKeys t, ∀ st, structDefs k.1 k.2 = some st → ∃ bound, ∀ fuel, bound ≤ fuel →
      ∀ fd ∈ st.fields, EnoughFor isIdentifier structDefs fd.ty fuel) :
    ∃ bound, ∀ fuel, bound ≤ fuel → EnoughFor isIdentifier structDefs t fuel := by
  induction t using MoveAbiSignatureToken.induct with
  | hvector t ih =>
    obtain ⟨bound, hbound⟩ := ih h
    refine exists_positive _ bound fun fuel hfuel typs => ?_
    rw [toMoveTypeLayout, Option.isSome_map]
    exact hbound fuel hfuel typs
  | href t ih =>
    obtain ⟨bound, hbound⟩ := ih h
    exact exists_positive _ bound fun fuel hfuel typs => hbound fuel hfuel typs
  | hmut t ih =>
    obtain ⟨bound, hbound⟩ := ih h
    exact exists_positive _ bound fun fuel hfuel typs => hbound fuel hfuel typs
  | hstruct handle =>
    cases hst : structDefs handle.moduleId handle.structName with
    | none =>
      refine exists_positive _ 0 fun fuel _ typs => ?_
      simp only [toMoveTypeLayout, hst, Option.isSome_some]
    | some st =>
      obtain ⟨bound, hbound⟩ := h _ (List.mem_singleton.mpr rfl) st hst
      refine exists_positive _ bound fun fuel hfuel typs => ?_
      simp only [toMoveTypeLayout, hst, Option.isSome_map]
      exact toMoveStructLayout_isSome _ st fun fd hfd => hbound fuel hfuel fd hfd typs
  | hinst handle insts ih =>
    cases hst : structDefs handle.moduleId handle.structName with
    | none =>
      refine exists_positive _ 0 fun fuel _ typs => ?_
      simp only [toMoveTypeLayout, hst, Option.isSome_some]
    | some st =>
      obtain ⟨bound, hbound⟩ := h _ List.mem_cons_self st hst
      obtain ⟨bound', hbound'⟩ := exists_bound
        (fun t fuel => EnoughFor isIdentifier structDefs t fuel) insts fun t ht => ih t ht
          fun k hk => h k (List.mem_cons_of_mem _ ((mem_structKeysList insts k).mpr ⟨t, ht, hk⟩))
      refine exists_positive _ (bound + bound') fun fuel hfuel typs => ?_
      have hinsts := collect_isSome (toMoveTypeLayout isIdentifier structDefs fuel typs) insts
        fun t ht => hbound' fuel (by omega) t ht typs
      simp only [toMoveTypeLayout, hst]
      rcases hc : collect (toMoveTypeLayout isIdentifier structDefs fuel typs) insts with
        _ | _ | newTyps
      · rw [hc] at hinsts
        exact absurd hinsts (by simp)
      · rfl
      · simp only [Option.isSome_map]
        exact toMoveStructLayout_isSome _ st fun fd hfd => hbound fuel (by omega) fd hfd newTyps
  | _ => exact exists_positive _ 0 fun fuel _ typs => rfl

theorem exists_enough (hrec : NonRecursive structDefs) (t : MoveAbiSignatureToken) :
    ∃ bound, ∀ fuel, bound ≤ fuel → EnoughFor isIdentifier structDefs t fuel := by
  have hkey : ∀ k : MoveModuleId × String, ∀ st, structDefs k.1 k.2 = some st →
      ∃ bound, ∀ fuel, bound ≤ fuel →
        ∀ fd ∈ st.fields, EnoughFor isIdentifier structDefs fd.ty fuel := by
    intro k
    induction k using hrec.induction with
    | _ k ih =>
      intro st hst
      refine exists_bound (fun fd fuel => EnoughFor isIdentifier structDefs fd.ty fuel) st.fields
        fun fd hfd => enoughFor_of_fields fd.ty fun inner hinner st' hst' => ?_
      exact ih inner ⟨st, hst, fd, hfd, hinner⟩ st' hst'
  exact enoughFor_of_fields t fun k _ st hst => hkey k st hst

/-! ### Only the number of type arguments decides whether there is a layout -/

theorem toMoveStructLayout_shape
    (toLayout toLayout' : MoveAbiSignatureToken → Option (Option MoveTypeLayout))
    (st : MoveStructAbi)
    (h : ∀ t, shape (toLayout t) = shape (toLayout' t)) :
    shape (toMoveStructLayout isIdentifier toLayout st) =
      shape (toMoveStructLayout isIdentifier toLayout' st) := by
  have hfield : ∀ fd ∈ st.fields, shape (toMoveFieldLayout isIdentifier toLayout fd) =
      shape (toMoveFieldLayout isIdentifier toLayout' fd) := by
    intro fd _
    have hty := h fd.ty
    rw [toMoveFieldLayout, toMoveFieldLayout]
    rcases hl : toLayout fd.ty with _ | _ | ty <;> rcases hl' : toLayout' fd.ty with _ | _ | ty' <;>
      simp only [hl, hl', shape, Option.map_none, Option.map_some, Option.isSome_none,
        Option.isSome_some, Option.some.injEq, reduceCtorEq, Bool.false_eq_true,
        Bool.true_eq_false] at hty ⊢
    split_ifs <;> rfl
  have hcollect := collect_shape _ _ st.fields hfield
  rw [toMoveStructLayout, toMoveStructLayout]
  rcases hc : collect (toMoveFieldLayout isIdentifier toLayout) st.fields with _ | _ | fields <;>
    rcases hc' : collect (toMoveFieldLayout isIdentifier toLayout') st.fields with
      _ | _ | fields' <;>
    simp only [hc, hc', shape, Option.map_none, Option.map_some, Option.isSome_none,
      Option.isSome_some, Option.some.injEq, reduceCtorEq, Bool.false_eq_true,
      Bool.true_eq_false] at hcollect ⊢
  split_ifs <;> rfl

theorem shape_map {α β : Type} (f : α → β) (r : Option (Option α)) :
    shape (r.map (Option.map f)) = shape r := by
  rcases r with _ | _ | a <;> rfl

theorem toMoveTypeLayout_shape (fuel : ℕ) (typs typs' : List MoveTypeLayout)
    (hlen : typs.length = typs'.length) (t : MoveAbiSignatureToken) :
    shape (toMoveTypeLayout isIdentifier structDefs fuel typs t) =
      shape (toMoveTypeLayout isIdentifier structDefs fuel typs' t) := by
  induction fuel generalizing typs typs' t with
  | zero => rfl
  | succ fuel ih =>
    cases t with
    | vector v =>
      rw [toMoveTypeLayout, toMoveTypeLayout, shape_map, shape_map]
      exact ih typs typs' hlen v
    | reference rf => exact ih typs typs' hlen rf
    | mutableReference rf => exact ih typs typs' hlen rf
    | struct handle =>
      rw [toMoveTypeLayout, toMoveTypeLayout]
      cases structDefs handle.moduleId handle.structName with
      | none => rfl
      | some st =>
        simp only [shape_map]
        exact toMoveStructLayout_shape _ _ st (ih typs typs' hlen)
    | structInstantiation handle insts =>
      rw [toMoveTypeLayout, toMoveTypeLayout]
      cases structDefs handle.moduleId handle.structName with
      | none => rfl
      | some st =>
        have hcollect := collect_shape _ _ insts fun t _ => ih typs typs' hlen t
        rcases hc : collect (toMoveTypeLayout isIdentifier structDefs fuel typs) insts with
          _ | _ | news <;>
          rcases hc' : collect (toMoveTypeLayout isIdentifier structDefs fuel typs') insts with
            _ | _ | news' <;>
          simp only [hc, hc', shape, Option.map_none, Option.map_some, Option.isSome_none,
            Option.isSome_some, Option.some.injEq, reduceCtorEq, Bool.false_eq_true,
            Bool.true_eq_false] at hcollect ⊢
        -- both environments have one layout for each argument
        have hnews : news.length = news'.length :=
          ((collect_eq_some _ _ _).mp hc).length_eq.symm.trans
            ((collect_eq_some _ _ _).mp hc').length_eq
        have hst : shape (toMoveStructLayout isIdentifier
              (toMoveTypeLayout isIdentifier structDefs fuel news) st) =
            shape (toMoveStructLayout isIdentifier
              (toMoveTypeLayout isIdentifier structDefs fuel news') st) :=
          toMoveStructLayout_shape _ _ st (ih news news' hnews)
        rw [← shape_map MoveTypeLayout.ofStruct, ← shape_map MoveTypeLayout.ofStruct] at hst
        exact hst
    | typeParameter idx ability =>
      simp only [toMoveTypeLayout, shape, Option.map_some, Option.some.injEq]
      rw [Bool.eq_iff_iff, Option.isSome_iff_exists, Option.isSome_iff_exists]
      simp only [List.getElem?_eq_some_iff, hlen]
      constructor
      · rintro ⟨_, hlt, _⟩
        exact ⟨_, hlt, rfl⟩
      · rintro ⟨_, hlt, _⟩
        exact ⟨_, hlen ▸ hlt, rfl⟩
    | _ => rfl

end

/-! ### The layout of an event -/

section

variable {isIdentifier : String → Bool} {structDefs : StructDefs}

theorem toMoveStructLayout_eq (args : List MoveAbiSignatureToken) (typs : List MoveTypeLayout)
    (hargs : List.Forall₂ (LayoutOf isIdentifier structDefs) args typs) (st : MoveStructAbi)
    (fuel : ℕ) (henough : ∀ fd ∈ st.fields, EnoughFor isIdentifier structDefs fd.ty fuel) :
    ∃ r, toMoveStructLayout isIdentifier (toMoveTypeLayout isIdentifier structDefs fuel typs) st =
        some r ∧
      ∀ layout, r = some layout ↔ StructLayoutOf isIdentifier structDefs st args layout := by
  obtain ⟨r, hr⟩ := Option.isSome_iff_exists.mp (toMoveStructLayout_isSome _ st
    fun fd hfd => henough fd hfd typs)
  refine ⟨r, hr, fun layout => ⟨?_, fun h => ?_⟩⟩
  · rintro rfl
    obtain ⟨htype, hnamed, hfields⟩ := (toMoveStructLayout_eq_some _ _ _).mp hr
    exact ⟨htype, hnamed, hfields.imp fun fd f hf =>
      ⟨hf.1, toMoveTypeLayout_sound fuel args typs hargs fd.ty f.2 hf.2⟩⟩
  · obtain ⟨hnames, hfields⟩ := (fields_iff (fun fd l =>
      LayoutOf isIdentifier structDefs (instantiate args fd.ty) l) _ _).mp h.fields
    obtain ⟨fuel', hfuel'⟩ := toMoveStructLayout_complete typs st layout.fields h.named hnames
      fun i fd f hfd hf =>
        toMoveTypeLayout_complete _ f.2 (hfields i fd f hfd hf) args typs hargs fd.ty rfl
    rw [← h.type] at hfuel'
    -- both are answers with the same, larger fuel
    have hleft := toMoveStructLayout_mono _
      (toMoveTypeLayout isIdentifier structDefs (fuel + fuel') typs)
      (fun t => toMoveTypeLayout_mono fuel (fuel + fuel') (by omega) typs t) st r hr
    have hright := toMoveStructLayout_mono _
      (toMoveTypeLayout isIdentifier structDefs (fuel + fuel') typs)
      (fun t => toMoveTypeLayout_mono fuel' (fuel + fuel') (by omega) typs t) st _ hfuel'
    exact Option.some.inj (hleft.symm.trans hright)

/-- Whether a definition has a layout depends on the number of arguments only. -/
theorem exists_structLayoutOf_iff (hrec : NonRecursive structDefs) (st : MoveStructAbi)
    (args args' : List MoveAbiSignatureToken) (typs typs' : List MoveTypeLayout)
    (hargs : List.Forall₂ (LayoutOf isIdentifier structDefs) args typs)
    (hargs' : List.Forall₂ (LayoutOf isIdentifier structDefs) args' typs')
    (hlen : args.length = args'.length) :
    (∃ layout, StructLayoutOf isIdentifier structDefs st args layout) ↔
      ∃ layout, StructLayoutOf isIdentifier structDefs st args' layout := by
  obtain ⟨fuel, hfuel⟩ := exists_bound (fun fd fuel => EnoughFor isIdentifier structDefs fd.ty fuel)
    st.fields fun fd _ => exists_enough hrec fd.ty
  obtain ⟨r, hr, hiff⟩ := toMoveStructLayout_eq args typs hargs st fuel (hfuel fuel le_rfl)
  obtain ⟨r', hr', hiff'⟩ := toMoveStructLayout_eq args' typs' hargs' st fuel (hfuel fuel le_rfl)
  have htyps : typs.length = typs'.length := by
    rw [← hargs.length_eq, ← hargs'.length_eq, hlen]
  have hshape : shape (toMoveStructLayout isIdentifier
        (toMoveTypeLayout isIdentifier structDefs fuel typs) st) =
      shape (toMoveStructLayout isIdentifier
        (toMoveTypeLayout isIdentifier structDefs fuel typs') st) :=
    toMoveStructLayout_shape _ _ st (toMoveTypeLayout_shape fuel typs typs' htyps)
  have hsome : r.isSome = r'.isSome := by
    rw [hr, hr'] at hshape
    exact Option.some.inj hshape
  simp only [← hiff, ← hiff', ← Option.isSome_iff_exists, hsome]

theorem bools_layoutOf (n : ℕ) : List.Forall₂ (LayoutOf isIdentifier structDefs)
    (List.replicate n .bool) (List.replicate n .bool) := by
  induction n with
  | zero => exact .nil
  | succ n ih => exact .cons (.primitive _ _ rfl) ih

end

namespace Metadata

section

variable (isIdentifier : String → Bool) (self : Metadata)

def HasLayout (ty : MoveTypeTag) : Prop :=
  ∃ l, LayoutOf isIdentifier self.structsMapping (fromTypeTagLossy ty) l

/-- The layout of the event's definition with its type arguments, all of which have one. -/
def EventLayoutOf (type : StructTag) (layout : MoveStructLayout) : Prop :=
  ∃ st, self.getStruct type.address type.module type.name = some st ∧
    (∀ ty ∈ type.typeParams, self.HasLayout isIdentifier ty) ∧
    StructLayoutOf isIdentifier self.structsMapping st (type.typeParams.map fromTypeTagLossy) layout

open Classical in
noncomputable def laidOut (tys : List MoveTypeTag) : List MoveTypeTag :=
  tys.filter fun ty => self.HasLayout isIdentifier ty

/-- All type arguments of the event have a layout, or its definition has none even with
as many arguments as have one. -/
def NoneMissed (type : StructTag) : Prop :=
  ∀ st, self.getStruct type.address type.module type.name = some st →
    (∀ ty ∈ type.typeParams, self.HasLayout isIdentifier ty) ∨
    ¬∃ layout, StructLayoutOf isIdentifier self.structsMapping st
      (List.replicate (self.laidOut isIdentifier type.typeParams).length .bool) layout

theorem typeLayouts_eq (fuel : ℕ) (tys : List MoveTypeTag)
    (henough : ∀ ty ∈ tys,
      EnoughFor isIdentifier self.structsMapping (fromTypeTagLossy ty) fuel) :
    ∃ typs, self.typeLayouts isIdentifier fuel tys = some typs ∧
      List.Forall₂ (LayoutOf isIdentifier self.structsMapping)
        ((self.laidOut isIdentifier tys).map fromTypeTagLossy) typs := by
  induction tys with
  | nil => exact ⟨[], rfl, .nil⟩
  | cons ty tys ih =>
    obtain ⟨typs, htyps, hlaid⟩ := ih fun ty hty => henough ty (List.mem_cons_of_mem _ hty)
    have hsome := henough ty List.mem_cons_self []
    rcases hl : toMoveTypeLayout isIdentifier self.structsMapping fuel []
      (fromTypeTagLossy ty) with _ | _ | typ
    · rw [hl] at hsome
      exact absurd hsome (by simp)
    · -- there is no layout, with any fuel
      have hnone : ¬self.HasLayout isIdentifier ty := by
        rintro ⟨l, h⟩
        obtain ⟨fuel', hfuel'⟩ :=
          toMoveTypeLayout_complete _ l h [] [] .nil (fromTypeTagLossy ty) (instantiate_nil _)
        have hleft := toMoveTypeLayout_mono fuel (fuel + fuel') (by omega) [] _ _ hl
        have hright := toMoveTypeLayout_mono fuel' (fuel + fuel') (by omega) [] _ _ hfuel'
        exact absurd (hleft.symm.trans hright) (by simp)
      refine ⟨typs, by simp only [typeLayouts, hl, htyps], ?_⟩
      rwa [laidOut, List.filter_cons_of_neg (by simpa using hnone), ← laidOut]
    · have hlayout : LayoutOf isIdentifier self.structsMapping (fromTypeTagLossy ty) typ := by
        have h := toMoveTypeLayout_sound fuel [] [] .nil (fromTypeTagLossy ty) typ hl
        rwa [instantiate_nil] at h
      refine ⟨typ :: typs, by simp only [typeLayouts, hl, htyps, Option.map_some], ?_⟩
      rw [laidOut, List.filter_cons_of_pos (by simpa using ⟨typ, hlayout⟩), ← laidOut,
        List.map_cons]
      exact .cons hlayout hlaid

/-- The code lays the definition out with those type arguments that have a layout. -/
theorem eventLayout_eq (hrec : NonRecursive self.structsMapping) (type : StructTag)
    (st : MoveStructAbi) (hst : self.getStruct type.address type.module type.name = some st) :
    ∃ bound r, (∀ fuel, bound ≤ fuel → self.eventLayout isIdentifier fuel type = some r) ∧
      ∀ layout, r = some layout ↔ StructLayoutOf isIdentifier self.structsMapping st
        ((self.laidOut isIdentifier type.typeParams).map fromTypeTagLossy) layout := by
  obtain ⟨bound, hbound⟩ := exists_bound (fun ty fuel =>
    EnoughFor isIdentifier self.structsMapping (fromTypeTagLossy ty) fuel) type.typeParams
    fun ty _ => exists_enough hrec (fromTypeTagLossy ty)
  obtain ⟨bound', hbound'⟩ := exists_bound (fun fd fuel =>
    EnoughFor isIdentifier self.structsMapping fd.ty fuel) st.fields
    fun fd _ => exists_enough hrec fd.ty
  have hall : ∀ fuel, bound + bound' ≤ fuel →
      ∃ r, self.eventLayout isIdentifier fuel type = some r ∧
        ∀ layout, r = some layout ↔ StructLayoutOf isIdentifier self.structsMapping st
          ((self.laidOut isIdentifier type.typeParams).map fromTypeTagLossy) layout := by
    intro fuel hfuel
    obtain ⟨typs, htyps, hargs⟩ :=
      self.typeLayouts_eq isIdentifier fuel type.typeParams (hbound fuel (by omega))
    obtain ⟨r, hr, hiff⟩ := toMoveStructLayout_eq _ typs hargs st fuel (hbound' fuel (by omega))
    exact ⟨r, by simp only [eventLayout, hst, htyps, hr], hiff⟩
  obtain ⟨r, _, hiff⟩ := hall (bound + bound') le_rfl
  refine ⟨bound + bound', r, fun fuel hfuel => ?_, hiff⟩
  obtain ⟨r', hr', hiff'⟩ := hall fuel hfuel
  rw [hr', Option.ext fun layout => (hiff' layout).trans (hiff layout).symm]

/-- An event is laid out as its type says if and only if no type argument is missed. -/
theorem eventLayout_instantiated_iff (hrec : NonRecursive self.structsMapping) (type : StructTag) :
    ∃ bound result, (∀ fuel, bound ≤ fuel →
        self.eventLayout isIdentifier fuel type = some result) ∧
      ((∀ layout, result = some layout ↔ self.EventLayoutOf isIdentifier type layout) ↔
        self.NoneMissed isIdentifier type) := by
  cases hst : self.getStruct type.address type.module type.name with
  | none =>
    refine ⟨0, none, fun fuel _ => by simp only [eventLayout, hst], iff_of_true ?_ ?_⟩
    · intro layout
      refine iff_of_false (by simp) ?_
      rintro ⟨st, hst', _⟩
      exact absurd (hst.symm.trans hst') (by simp)
    · intro st hst'
      exact absurd (hst.symm.trans hst') (by simp)
  | some st =>
    obtain ⟨bound, r, hr, hiff⟩ := self.eventLayout_eq isIdentifier hrec type st hst
    refine ⟨bound, r, hr, ?_⟩
    have hmissed : self.NoneMissed isIdentifier type ↔
        (∀ ty ∈ type.typeParams, self.HasLayout isIdentifier ty) ∨
        ¬∃ layout, StructLayoutOf isIdentifier self.structsMapping st
          ((self.laidOut isIdentifier type.typeParams).map fromTypeTagLossy) layout := by
      obtain ⟨fuel, hfuel⟩ := exists_bound (fun ty fuel =>
        EnoughFor isIdentifier self.structsMapping (fromTypeTagLossy ty) fuel) type.typeParams
        fun ty _ => exists_enough hrec (fromTypeTagLossy ty)
      obtain ⟨typs, _, htyps⟩ :=
        self.typeLayouts_eq isIdentifier fuel type.typeParams (hfuel fuel le_rfl)
      have hsame := exists_structLayoutOf_iff hrec st _ _ _ _ htyps
        (bools_layoutOf (self.laidOut isIdentifier type.typeParams).length) (by simp)
      rw [hsame]
      constructor
      · intro h
        exact h st hst
      · intro h st' hst'
        obtain rfl := Option.some.inj (hst.symm.trans hst')
        exact h
    rw [hmissed]
    by_cases hargs : ∀ ty ∈ type.typeParams, self.HasLayout isIdentifier ty
    · -- nothing is left out
      have hlaid : self.laidOut isIdentifier type.typeParams = type.typeParams :=
        List.filter_eq_self.mpr fun ty hty => by simpa using hargs ty hty
      rw [hlaid] at hiff
      refine iff_of_true (fun layout => (hiff layout).trans ⟨fun h => ⟨st, hst, hargs, h⟩, ?_⟩)
        (Or.inl hargs)
      rintro ⟨st', hst', _, h⟩
      obtain rfl := Option.some.inj (hst.symm.trans hst')
      exact h
    · -- there is no layout as the type says
      have hnone : ∀ layout, ¬self.EventLayoutOf isIdentifier type layout :=
        fun layout h => hargs h.choose_spec.2.1
      simp only [hargs, false_or, hnone, iff_false, hiff, not_exists]

end

def oneField (name : String) (typeParameters : ℕ) : MoveStructAbi where
  handle := ⟨⟨MoveAddress.two, "m"⟩, name, .empty,
    List.replicate typeParameters ⟨.empty, false⟩⟩
  fields := [⟨"value", .typeParameter 0 .empty⟩]

def sent : Metadata where
  testingAbis := SortedMap.empty.insert MoveAddress.two
    ⟨MoveAddress.two, [⟨⟨MoveAddress.two, "m"⟩, [oneField "Sent" 2], []⟩]⟩
  moduleAddressToPackage := SortedMap.empty
  structsMapping module name :=
    if module = ⟨MoveAddress.two, "m"⟩ ∧ name = "Box" then some (oneField "Box" 1) else none

def boxOf (ty : MoveTypeTag) : MoveTypeTag := .struct MoveAddress.two "m" "Box" [ty]

theorem sent_nonRecursive : NonRecursive sent.structsMapping := by
  have hempty : ∀ inner outer, ¬FieldOf sent.structsMapping inner outer := by
    rintro inner outer ⟨st, hst, fd, hfd, hinner⟩
    simp only [sent] at hst
    split_ifs at hst
    obtain rfl := Option.some.inj hst
    obtain rfl := List.mem_singleton.mp hfd
    exact absurd hinner List.not_mem_nil
  exact ⟨fun k => ⟨k, fun inner h => absurd h (hempty inner k)⟩⟩

theorem eventLayout_instantiated_box :
    ∃ bound result, (∀ fuel, bound ≤ fuel →
        sent.eventLayout (fun _ => true) fuel ⟨MoveAddress.two, "m", "Sent", [boxOf .u64, .u64]⟩ =
          some result) ∧
      ((∀ layout, result = some layout ↔ sent.EventLayoutOf (fun _ => true)
          ⟨MoveAddress.two, "m", "Sent", [boxOf .u64, .u64]⟩ layout) ↔
        sent.NoneMissed (fun _ => true) ⟨MoveAddress.two, "m", "Sent", [boxOf .u64, .u64]⟩) :=
  eventLayout_instantiated_iff (fun _ => true) sent sent_nonRecursive _

/-- The first argument is not known, and the field of its type is decoded as the second. -/
theorem unknown_argument_shifts :
    (∀ fuel, sent.eventLayout (fun _ => true) (fuel + 2)
      ⟨MoveAddress.two, "m", "Sent", [.struct MoveAddress.two "m" "Unknown" [], .u64]⟩ =
        some (some ⟨.struct MoveAddress.two "m" "Sent" [], [("value", .u64)]⟩)) ∧
    ∀ layout, ¬sent.EventLayoutOf (fun _ => true)
      ⟨MoveAddress.two, "m", "Sent", [.struct MoveAddress.two "m" "Unknown" [], .u64]⟩ layout := by
  refine ⟨fun fuel => rfl, ?_⟩
  rintro layout ⟨_, _, hargs, _⟩
  obtain ⟨l, hl⟩ := hargs _ List.mem_cons_self
  obtain ⟨st, _, hst, _⟩ := (LayoutOf.struct_iff _ l).mp hl
  simp [sent] at hst

end Metadata

end Movy.Types.Layout
