import Movy.Lib.Fuel
import Movy.Types.Published

/-!
# Layouts of types (`movy-types/src/abi.rs`)

The layout of a type is what is needed to decode its values: the primitive
types as they are, a struct as the layouts of its fields. The code carries the
layouts of the type arguments along and looks up type parameters in them. Here
it is compared with substitution: a type parameter is replaced by the argument
first, and types without parameters are laid out.
-/

namespace Movy.Types

open MoveAbiSignatureToken (fromTypeTagLossy)

inductive MoveTypeLayout where
  | bool
  | u8
  | u16
  | u32
  | u64
  | u128
  | u256
  | address
  | signer
  | vector (elem : MoveTypeLayout)
  | struct (type : MoveTypeTag) (fields : List (String × MoveTypeLayout))

/-- The type is that of the struct without its type arguments. -/
structure MoveStructLayout where
  type : MoveTypeTag
  fields : List (String × MoveTypeLayout)

def MoveTypeLayout.ofStruct (st : MoveStructLayout) : MoveTypeLayout := .struct st.type st.fields

abbrev StructDefs := MoveModuleId → String → Option Published.MoveStructAbi

namespace Layout

open Published (MoveStructAbi MoveStructField)

/-! ### The code -/

section

variable (isIdentifier : String → Bool)

def toMoveFieldLayout (toLayout : MoveAbiSignatureToken → Option (Option MoveTypeLayout))
    (fd : MoveStructField) : Option (Option (String × MoveTypeLayout)) :=
  match toLayout fd.ty with
  | none => none
  | some none => some none
  | some (some ty) => some (if isIdentifier fd.name then some (fd.name, ty) else none)

def toMoveStructLayout (toLayout : MoveAbiSignatureToken → Option (Option MoveTypeLayout))
    (st : MoveStructAbi) : Option (Option MoveStructLayout) :=
  match collect (toMoveFieldLayout isIdentifier toLayout) st.fields with
  | none => none
  | some none => some none
  | some (some fields) =>
    some (if isIdentifier st.handle.moduleId.moduleName && isIdentifier st.handle.structName then
      some ⟨.struct st.handle.moduleId.moduleAddress st.handle.moduleId.moduleName
        st.handle.structName [], fields⟩
    else none)

variable (structDefs : StructDefs)

def toMoveTypeLayout : ℕ → List MoveTypeLayout → MoveAbiSignatureToken →
    Option (Option MoveTypeLayout)
  | 0, _, _ => none
  | _ + 1, _, .address => some (some .address)
  | _ + 1, _, .signer => some (some .signer)
  | _ + 1, _, .bool => some (some .bool)
  | _ + 1, _, .u8 => some (some .u8)
  | _ + 1, _, .u16 => some (some .u16)
  | _ + 1, _, .u32 => some (some .u32)
  | _ + 1, _, .u64 => some (some .u64)
  | _ + 1, _, .u128 => some (some .u128)
  | _ + 1, _, .u256 => some (some .u256)
  | fuel + 1, typs, .struct st => match structDefs st.moduleId st.structName with
    | none => some none
    | some st =>
      (toMoveStructLayout isIdentifier (toMoveTypeLayout fuel typs) st).map
        (Option.map MoveTypeLayout.ofStruct)
  | fuel + 1, typs, .structInstantiation st insts => match structDefs st.moduleId st.structName with
    | none => some none
    | some st => match collect (toMoveTypeLayout fuel typs) insts with
      | none => none
      | some none => some none
      | some (some newTyps) =>
        (toMoveStructLayout isIdentifier (toMoveTypeLayout fuel newTyps) st).map
          (Option.map MoveTypeLayout.ofStruct)
  | _ + 1, typs, .typeParameter idx _ => some typs[idx.val]?
  | fuel + 1, typs, .vector v => (toMoveTypeLayout fuel typs v).map (Option.map .vector)
  | fuel + 1, typs, .reference rf => toMoveTypeLayout fuel typs rf
  | fuel + 1, typs, .mutableReference rf => toMoveTypeLayout fuel typs rf

end

/-! ### Substitution -/

mutual

/-- Every type parameter is replaced by the argument of its number. A struct without
arguments of its own stands in the instantiation around it; as its definition has no
type parameters, the arguments do not matter to it. -/
def instantiate (args : List MoveAbiSignatureToken) : MoveAbiSignatureToken → MoveAbiSignatureToken
  | .typeParameter idx ability => (args[idx.val]?).getD (.typeParameter idx ability)
  | .struct st => if args.isEmpty then .struct st else .structInstantiation st args
  | .structInstantiation st insts => .structInstantiation st (instantiateList args insts)
  | .vector v => .vector (instantiate args v)
  | .reference rf => .reference (instantiate args rf)
  | .mutableReference rf => .mutableReference (instantiate args rf)
  | self => self

def instantiateList (args : List MoveAbiSignatureToken) :
    List MoveAbiSignatureToken → List MoveAbiSignatureToken
  | [] => []
  | t :: ts => instantiate args t :: instantiateList args ts

end

theorem instantiateList_eq (args ts : List MoveAbiSignatureToken) :
    instantiateList args ts = ts.map (instantiate args) := by
  induction ts with
  | nil => rfl
  | cons t ts ih => rw [instantiateList, ih, List.map_cons]

theorem instantiate_nil (t : MoveAbiSignatureToken) : instantiate [] t = t := by
  induction t using MoveAbiSignatureToken.induct with
  | hvector t ih => rw [instantiate, ih]
  | href t ih => rw [instantiate, ih]
  | hmut t ih => rw [instantiate, ih]
  | hinst st insts ih =>
    have hsame : insts.map (instantiate []) = insts := by
      rw [List.map_congr_left ih, List.map_id']
    rw [instantiate, instantiateList_eq, hsame]
  | _ => rfl

/-! ### Layouts of types without parameters -/

def primitiveLayout : MoveAbiSignatureToken → Option MoveTypeLayout
  | .bool => some .bool
  | .u8 => some .u8
  | .u16 => some .u16
  | .u32 => some .u32
  | .u64 => some .u64
  | .u128 => some .u128
  | .u256 => some .u256
  | .address => some .address
  | .signer => some .signer
  | _ => none

/-! ### What becomes of which token -/

section

variable (args : List MoveAbiSignatureToken) (token : MoveAbiSignatureToken)

/-- A type parameter can become anything, every other token keeps its kind. -/
theorem instantiate_eq_vector (t : MoveAbiSignatureToken) (h : instantiate args token = .vector t) :
    (∃ idx ability, token = .typeParameter idx ability) ∨
      ∃ v, token = .vector v ∧ instantiate args v = t := by
  cases token with
  | typeParameter idx ability => exact .inl ⟨idx, ability, rfl⟩
  | vector v => exact .inr ⟨v, rfl, MoveAbiSignatureToken.vector.inj h⟩
  | struct handle => cases args <;> cases h
  | _ => cases h

theorem instantiate_eq_reference (t : MoveAbiSignatureToken)
    (h : instantiate args token = .reference t) :
    (∃ idx ability, token = .typeParameter idx ability) ∨
      ∃ rf, token = .reference rf ∧ instantiate args rf = t := by
  cases token with
  | typeParameter idx ability => exact .inl ⟨idx, ability, rfl⟩
  | reference rf => exact .inr ⟨rf, rfl, MoveAbiSignatureToken.reference.inj h⟩
  | struct handle => cases args <;> cases h
  | _ => cases h

theorem instantiate_eq_mutableReference (t : MoveAbiSignatureToken)
    (h : instantiate args token = .mutableReference t) :
    (∃ idx ability, token = .typeParameter idx ability) ∨
      ∃ rf, token = .mutableReference rf ∧ instantiate args rf = t := by
  cases token with
  | typeParameter idx ability => exact .inl ⟨idx, ability, rfl⟩
  | mutableReference rf => exact .inr ⟨rf, rfl, MoveAbiSignatureToken.mutableReference.inj h⟩
  | struct handle => cases args <;> cases h
  | _ => cases h

theorem instantiate_eq_struct (handle : MoveStructHandle)
    (h : instantiate args token = .struct handle) :
    (∃ idx ability, token = .typeParameter idx ability) ∨ token = .struct handle ∧ args = [] := by
  cases token with
  | typeParameter idx ability => exact .inl ⟨idx, ability, rfl⟩
  | struct handle' =>
    cases args with
    | nil => exact .inr ⟨h, rfl⟩
    | cons a args => cases h
  | _ => cases h

theorem instantiate_eq_structInstantiation (handle : MoveStructHandle)
    (insts : List MoveAbiSignatureToken)
    (h : instantiate args token = .structInstantiation handle insts) :
    (∃ idx ability, token = .typeParameter idx ability) ∨
      token = .struct handle ∧ args = insts ∨
      ∃ insts', token = .structInstantiation handle insts' ∧
        insts'.map (instantiate args) = insts := by
  cases token with
  | typeParameter idx ability => exact .inl ⟨idx, ability, rfl⟩
  | struct handle' =>
    cases args with
    | nil => cases h
    | cons a args =>
      obtain ⟨rfl, rfl⟩ := MoveAbiSignatureToken.structInstantiation.inj h
      exact .inr (.inl ⟨rfl, rfl⟩)
  | structInstantiation handle' insts' =>
    obtain ⟨rfl, hinsts⟩ := MoveAbiSignatureToken.structInstantiation.inj h
    rw [instantiateList_eq] at hinsts
    exact .inr (.inr ⟨insts', rfl, hinsts⟩)
  | _ => cases h

theorem instantiate_eq_primitive (l : MoveTypeLayout)
    (h : primitiveLayout (instantiate args token) = some l) :
    (∃ idx ability, token = .typeParameter idx ability) ∨ primitiveLayout token = some l := by
  cases token with
  | typeParameter idx ability => exact .inl ⟨idx, ability, rfl⟩
  | struct handle => cases args <;> cases h
  | vector | structInstantiation | reference | mutableReference => cases h
  | _ => exact .inr h

end

section

variable (isIdentifier : String → Bool) (structDefs : StructDefs)

def Named (st : MoveStructAbi) : Prop :=
  isIdentifier st.handle.moduleId.moduleName = true ∧ isIdentifier st.handle.structName = true ∧
    ∀ fd ∈ st.fields, isIdentifier fd.name = true

def structTag (st : MoveStructAbi) : MoveTypeTag :=
  .struct st.handle.moduleId.moduleAddress st.handle.moduleId.moduleName st.handle.structName []

/-- A struct is laid out field by field, with its arguments put in, and all of its
arguments have a layout. A type parameter has none. -/
inductive LayoutOf : MoveAbiSignatureToken → MoveTypeLayout → Prop
  | primitive (t : MoveAbiSignatureToken) (l : MoveTypeLayout) (h : primitiveLayout t = some l) :
      LayoutOf t l
  | vector (t : MoveAbiSignatureToken) (l : MoveTypeLayout) (h : LayoutOf t l) :
      LayoutOf (.vector t) (.vector l)
  | reference (t : MoveAbiSignatureToken) (l : MoveTypeLayout) (h : LayoutOf t l) :
      LayoutOf (.reference t) l
  | mutableReference (t : MoveAbiSignatureToken) (l : MoveTypeLayout) (h : LayoutOf t l) :
      LayoutOf (.mutableReference t) l
  | struct (handle : MoveStructHandle) (st : MoveStructAbi)
      (fields : List (String × MoveTypeLayout))
      (hst : structDefs handle.moduleId handle.structName = some st)
      (hnamed : Named isIdentifier st)
      (hnames : fields.map Prod.fst = st.fields.map MoveStructField.name)
      (hfields : ∀ (i : ℕ) (fd : MoveStructField) (f : String × MoveTypeLayout),
        st.fields[i]? = some fd → fields[i]? = some f → LayoutOf fd.ty f.2) :
      LayoutOf (.struct handle) (.struct (structTag st) fields)
  | structInstantiation (handle : MoveStructHandle) (insts : List MoveAbiSignatureToken)
      (st : MoveStructAbi) (typs : List MoveTypeLayout) (fields : List (String × MoveTypeLayout))
      (hst : structDefs handle.moduleId handle.structName = some st)
      (hlen : insts.length = typs.length)
      (htyps : ∀ (i : ℕ) (t : MoveAbiSignatureToken) (l : MoveTypeLayout),
        insts[i]? = some t → typs[i]? = some l → LayoutOf t l)
      (hnamed : Named isIdentifier st)
      (hnames : fields.map Prod.fst = st.fields.map MoveStructField.name)
      (hfields : ∀ (i : ℕ) (fd : MoveStructField) (f : String × MoveTypeLayout),
        st.fields[i]? = some fd → fields[i]? = some f → LayoutOf (instantiate insts fd.ty) f.2) :
      LayoutOf (.structInstantiation handle insts) (.struct (structTag st) fields)

structure StructLayoutOf (st : MoveStructAbi) (args : List MoveAbiSignatureToken)
    (layout : MoveStructLayout) : Prop where
  type : layout.type = structTag st
  named : Named isIdentifier st
  fields : List.Forall₂ (fun (fd : MoveStructField) (f : String × MoveTypeLayout) => f.1 = fd.name ∧
    LayoutOf isIdentifier structDefs (instantiate args fd.ty) f.2) st.fields layout.fields

/-! ### The code against substitution -/

variable {isIdentifier structDefs}

theorem fields_iff (R : MoveStructField → MoveTypeLayout → Prop) (fds : List MoveStructField)
    (fields : List (String × MoveTypeLayout)) :
    List.Forall₂ (fun fd f => f.1 = fd.name ∧ R fd f.2) fds fields ↔
      fields.map Prod.fst = fds.map MoveStructField.name ∧
      ∀ (i : ℕ) (fd : MoveStructField) (f : String × MoveTypeLayout), fds[i]? = some fd →
        fields[i]? = some f → R fd f.2 := by
  induction fds generalizing fields with
  | nil => simp
  | cons fd fds ih =>
    cases fields with
    | nil => simp
    | cons f fields =>
      rw [List.forall₂_cons, ih, List.map_cons, List.map_cons, List.cons_eq_cons]
      constructor
      · rintro ⟨⟨hname, hR⟩, hnames, hrest⟩
        refine ⟨⟨hname, hnames⟩, fun i a b ha hb => ?_⟩
        cases i with
        | zero =>
          obtain rfl := Option.some.inj ha
          obtain rfl := Option.some.inj hb
          exact hR
        | succ i => exact hrest i a b ha hb
      · rintro ⟨⟨hname, hnames⟩, hall⟩
        exact ⟨⟨hname, hall 0 fd f rfl rfl⟩, hnames, fun i a b ha hb => hall (i + 1) a b ha hb⟩

theorem toMoveFieldLayout_eq_some
    (toLayout : MoveAbiSignatureToken → Option (Option MoveTypeLayout)) (fd : MoveStructField)
    (f : String × MoveTypeLayout) :
    toMoveFieldLayout isIdentifier toLayout fd = some (some f) ↔
      isIdentifier fd.name = true ∧ f.1 = fd.name ∧ toLayout fd.ty = some (some f.2) := by
  rw [toMoveFieldLayout]
  rcases toLayout fd.ty with _ | _ | ty
  · simp
  · simp
  · cases hid : isIdentifier fd.name with
    | false => simp
    | true =>
      simp only [if_true, Option.some.injEq, true_and, Prod.ext_iff]
      exact and_congr eq_comm Iff.rfl

/-- A struct has a layout if and only if each of its fields has one and the names are
identifiers. -/
theorem toMoveStructLayout_eq_some
    (toLayout : MoveAbiSignatureToken → Option (Option MoveTypeLayout)) (st : MoveStructAbi)
    (layout : MoveStructLayout) :
    toMoveStructLayout isIdentifier toLayout st = some (some layout) ↔
      layout.type = structTag st ∧ Named isIdentifier st ∧
      List.Forall₂ (fun fd f => f.1 = fd.name ∧ toLayout fd.ty = some (some f.2))
        st.fields layout.fields := by
  have hcollect : ∀ fields, collect (toMoveFieldLayout isIdentifier toLayout) st.fields =
      some (some fields) ↔ (∀ fd ∈ st.fields, isIdentifier fd.name = true) ∧
        List.Forall₂ (fun fd f => f.1 = fd.name ∧ toLayout fd.ty = some (some f.2))
          st.fields fields := by
    intro fields
    simp only [collect_eq_some, toMoveFieldLayout_eq_some]
    exact List.forall₂_and_left _ _
  have hnamed : Named isIdentifier st ↔ (isIdentifier st.handle.moduleId.moduleName &&
      isIdentifier st.handle.structName) = true ∧
      ∀ fd ∈ st.fields, isIdentifier fd.name = true := by
    rw [Named, Bool.and_eq_true, and_assoc]
  rw [toMoveStructLayout, hnamed]
  rcases hc : collect (toMoveFieldLayout isIdentifier toLayout) st.fields with _ | _ | fields
  · refine iff_of_false (by simp) fun h => ?_
    exact absurd ((hcollect _).mpr ⟨h.2.1.2, h.2.2⟩) (by rw [hc]; simp)
  · refine iff_of_false (by simp) fun h => ?_
    exact absurd ((hcollect _).mpr ⟨h.2.1.2, h.2.2⟩) (by rw [hc]; simp)
  · obtain ⟨hids, hfields⟩ := (hcollect fields).mp hc
    cases hid : isIdentifier st.handle.moduleId.moduleName && isIdentifier st.handle.structName with
    | false => simp
    | true =>
      simp only [if_true, Option.some.injEq, true_and]
      constructor
      · rintro rfl
        exact ⟨rfl, hids, hfields⟩
      · rintro ⟨htype, _, hfields'⟩
        have hsame := hc.symm.trans ((hcollect layout.fields).mpr ⟨hids, hfields'⟩)
        rw [Option.some.injEq, Option.some.injEq] at hsame
        subst hsame
        rw [← structTag, ← htype]

theorem LayoutOf.struct_iff (handle : MoveStructHandle) (l : MoveTypeLayout) :
    LayoutOf isIdentifier structDefs (.struct handle) l ↔
      ∃ st layout, structDefs handle.moduleId handle.structName = some st ∧
        StructLayoutOf isIdentifier structDefs st [] layout ∧ l = .ofStruct layout := by
  constructor
  · intro h
    cases h with
    | primitive _ _ h => exact absurd h (by simp [primitiveLayout])
    | struct _ st fields hst hnamed hnames hfields =>
      refine ⟨st, ⟨structTag st, fields⟩, hst, ⟨rfl, hnamed, ?_⟩, rfl⟩
      simp only [instantiate_nil]
      exact (fields_iff _ _ _).mpr ⟨hnames, hfields⟩
  · rintro ⟨st, layout, hst, hlayout, rfl⟩
    have hfields := hlayout.fields
    simp only [instantiate_nil] at hfields
    obtain ⟨hnames, hall⟩ := (fields_iff _ _ _).mp hfields
    rw [MoveTypeLayout.ofStruct, hlayout.type]
    exact .struct handle st layout.fields hst hlayout.named hnames hall

theorem LayoutOf.structInstantiation_iff (handle : MoveStructHandle)
    (insts : List MoveAbiSignatureToken) (l : MoveTypeLayout) :
    LayoutOf isIdentifier structDefs (.structInstantiation handle insts) l ↔
      ∃ st typs layout, structDefs handle.moduleId handle.structName = some st ∧
        List.Forall₂ (LayoutOf isIdentifier structDefs) insts typs ∧
        StructLayoutOf isIdentifier structDefs st insts layout ∧ l = .ofStruct layout := by
  constructor
  · intro h
    cases h with
    | primitive _ _ h => exact absurd h (by simp [primitiveLayout])
    | structInstantiation _ _ st typs fields hst hlen htyps hnamed hnames hfields =>
      exact ⟨st, typs, ⟨structTag st, fields⟩, hst,
        (forall₂_iff_getElem? _ _ _).mpr ⟨hlen, htyps⟩,
        ⟨rfl, hnamed, (fields_iff _ _ _).mpr ⟨hnames, hfields⟩⟩, rfl⟩
  · rintro ⟨st, typs, layout, hst, htyps, hlayout, rfl⟩
    obtain ⟨hlen, hall⟩ := (forall₂_iff_getElem? _ _ _).mp htyps
    obtain ⟨hnames, hfields⟩ := (fields_iff _ _ _).mp hlayout.fields
    rw [MoveTypeLayout.ofStruct, hlayout.type]
    exact .structInstantiation handle insts st typs layout.fields hst hlen hall hlayout.named
      hnames hfields

/-- A struct in an instantiation is one with the arguments around it. -/
theorem LayoutOf.instantiate_struct_iff (args : List MoveAbiSignatureToken)
    (handle : MoveStructHandle) (typs : List MoveTypeLayout)
    (hargs : List.Forall₂ (LayoutOf isIdentifier structDefs) args typs) (l : MoveTypeLayout) :
    LayoutOf isIdentifier structDefs (instantiate args (.struct handle)) l ↔
      ∃ st layout, structDefs handle.moduleId handle.structName = some st ∧
        StructLayoutOf isIdentifier structDefs st args layout ∧ l = .ofStruct layout := by
  cases args with
  | nil => exact struct_iff handle l
  | cons a args =>
    rw [instantiate, List.isEmpty_cons, if_neg (by simp), structInstantiation_iff]
    constructor
    · rintro ⟨st, _, layout, hst, _, hlayout, hl⟩
      exact ⟨st, layout, hst, hlayout, hl⟩
    · rintro ⟨st, layout, hst, hlayout, hl⟩
      exact ⟨st, typs, layout, hst, hargs, hlayout, hl⟩

/-- What the code returns is the layout of the type with the arguments put in. -/
theorem toMoveTypeLayout_sound (fuel : ℕ) (args : List MoveAbiSignatureToken)
    (typs : List MoveTypeLayout)
    (hargs : List.Forall₂ (LayoutOf isIdentifier structDefs) args typs)
    (t : MoveAbiSignatureToken) (l : MoveTypeLayout)
    (h : toMoveTypeLayout isIdentifier structDefs fuel typs t = some (some l)) :
    LayoutOf isIdentifier structDefs (instantiate args t) l := by
  induction fuel generalizing args typs t l with
  | zero => simp [toMoveTypeLayout] at h
  | succ fuel ih =>
    have hstruct : ∀ (args : List MoveAbiSignatureToken) (typs : List MoveTypeLayout)
        (st : MoveStructAbi) (layout : MoveStructLayout),
        List.Forall₂ (LayoutOf isIdentifier structDefs) args typs →
        toMoveStructLayout isIdentifier (toMoveTypeLayout isIdentifier structDefs fuel typs) st =
          some (some layout) → StructLayoutOf isIdentifier structDefs st args layout := by
      intro args typs st layout hargs hlayout
      obtain ⟨htype, hnamed, hfields⟩ := (toMoveStructLayout_eq_some _ _ _).mp hlayout
      refine ⟨htype, hnamed, hfields.imp fun fd f hf => ⟨hf.1, ih args typs hargs fd.ty f.2 hf.2⟩⟩
    cases t with
    | vector v =>
      simp only [toMoveTypeLayout] at h
      obtain ⟨r, hr, hl⟩ := Option.map_eq_some_iff.mp h
      obtain ⟨elem, rfl, rfl⟩ := Option.map_eq_some_iff.mp hl
      exact .vector _ _ (ih args typs hargs v elem hr)
    | reference rf => exact .reference _ _ (ih args typs hargs rf l h)
    | mutableReference rf => exact .mutableReference _ _ (ih args typs hargs rf l h)
    | struct handle =>
      rw [LayoutOf.instantiate_struct_iff args handle typs hargs]
      simp only [toMoveTypeLayout] at h
      cases hst : structDefs handle.moduleId handle.structName with
      | none => simp [hst] at h
      | some st =>
        simp only [hst] at h
        obtain ⟨r, hr, hl⟩ := Option.map_eq_some_iff.mp h
        obtain ⟨layout, rfl, rfl⟩ := Option.map_eq_some_iff.mp hl
        exact ⟨st, layout, rfl, hstruct args typs st layout hargs hr, rfl⟩
    | structInstantiation handle insts =>
      rw [instantiate, instantiateList_eq, LayoutOf.structInstantiation_iff]
      simp only [toMoveTypeLayout] at h
      cases hst : structDefs handle.moduleId handle.structName with
      | none => simp [hst] at h
      | some st =>
        simp only [hst] at h
        rcases hc : collect (toMoveTypeLayout isIdentifier structDefs fuel typs) insts with
          _ | _ | newTyps
        · simp [hc] at h
        · simp [hc] at h
        · simp only [hc] at h
          obtain ⟨r, hr, hl⟩ := Option.map_eq_some_iff.mp h
          obtain ⟨layout, rfl, rfl⟩ := Option.map_eq_some_iff.mp hl
          have hnew : List.Forall₂ (LayoutOf isIdentifier structDefs)
              (insts.map (instantiate args)) newTyps := by
            rw [List.forall₂_map_left_iff]
            exact ((collect_eq_some _ _ _).mp hc).imp fun t l ht => ih args typs hargs t l ht
          exact ⟨st, newTyps, layout, rfl, hnew, hstruct _ newTyps st layout hnew hr, rfl⟩
    | typeParameter idx ability =>
      simp only [toMoveTypeLayout, Option.some.injEq] at h
      obtain ⟨hlen, hall⟩ := (forall₂_iff_getElem? _ _ _).mp hargs
      have hlt : idx.val < args.length := by
        rw [hlen]
        exact (List.getElem?_eq_some_iff.mp h).1
      rw [instantiate, List.getElem?_eq_getElem hlt, Option.getD_some]
      exact hall idx.val _ l (List.getElem?_eq_getElem hlt) h
    | _ => exact .primitive _ _ (Option.some.inj h)

/-! ### Fuel -/

theorem toMoveStructLayout_mono
    (toLayout toLayout' : MoveAbiSignatureToken → Option (Option MoveTypeLayout))
    (h : ∀ t r, toLayout t = some r → toLayout' t = some r) (st : MoveStructAbi)
    (r : Option MoveStructLayout) (hr : toMoveStructLayout isIdentifier toLayout st = some r) :
    toMoveStructLayout isIdentifier toLayout' st = some r := by
  have hfield : ∀ fd ∈ st.fields, ∀ r, toMoveFieldLayout isIdentifier toLayout fd = some r →
      toMoveFieldLayout isIdentifier toLayout' fd = some r := by
    intro fd _ r hr
    rw [toMoveFieldLayout] at hr ⊢
    rcases hf : toLayout fd.ty with _ | x
    · simp [hf] at hr
    · rw [h fd.ty x hf, ← hr, hf]
  rw [toMoveStructLayout] at hr ⊢
  rcases hc : collect (toMoveFieldLayout isIdentifier toLayout) st.fields with _ | x
  · simp [hc] at hr
  · rw [collect_mono _ _ st.fields hfield x hc, ← hr, hc]

theorem toMoveTypeLayout_succ (fuel : ℕ) (typs : List MoveTypeLayout) (t : MoveAbiSignatureToken)
    (r : Option MoveTypeLayout)
    (h : toMoveTypeLayout isIdentifier structDefs fuel typs t = some r) :
    toMoveTypeLayout isIdentifier structDefs (fuel + 1) typs t = some r := by
  induction fuel generalizing typs t r with
  | zero => simp [toMoveTypeLayout] at h
  | succ fuel ih =>
    cases t with
    | vector v =>
      rw [toMoveTypeLayout] at h ⊢
      obtain ⟨x, hx, rfl⟩ := Option.map_eq_some_iff.mp h
      rw [ih typs v x hx, Option.map_some]
    | reference rf =>
      rw [toMoveTypeLayout] at h ⊢
      exact ih typs rf r h
    | mutableReference rf =>
      rw [toMoveTypeLayout] at h ⊢
      exact ih typs rf r h
    | struct handle =>
      rw [toMoveTypeLayout] at h ⊢
      cases hst : structDefs handle.moduleId handle.structName with
      | none => simpa only [hst] using h
      | some st =>
        simp only [hst] at h ⊢
        obtain ⟨x, hx, rfl⟩ := Option.map_eq_some_iff.mp h
        rw [toMoveStructLayout_mono _ _ (ih typs) st x hx, Option.map_some]
    | structInstantiation handle insts =>
      rw [toMoveTypeLayout] at h ⊢
      cases hst : structDefs handle.moduleId handle.structName with
      | none => simpa only [hst] using h
      | some st =>
        simp only [hst] at h ⊢
        rcases hc : collect (toMoveTypeLayout isIdentifier structDefs fuel typs) insts with _ | x
        · simp [hc] at h
        · rw [collect_mono _ _ insts (fun t _ => ih typs t) x hc]
          rw [hc] at h
          cases x with
          | none => exact h
          | some newTyps =>
            obtain ⟨y, hy, rfl⟩ := Option.map_eq_some_iff.mp h
            simp only [toMoveStructLayout_mono _ _ (ih newTyps) st y hy, Option.map_some]
    | _ => exact h

theorem toMoveTypeLayout_mono (fuel fuel' : ℕ) (hle : fuel ≤ fuel') (typs : List MoveTypeLayout)
    (t : MoveAbiSignatureToken) (r : Option MoveTypeLayout)
    (h : toMoveTypeLayout isIdentifier structDefs fuel typs t = some r) :
    toMoveTypeLayout isIdentifier structDefs fuel' typs t = some r := by
  induction hle with
  | refl => exact h
  | step _ ih => exact toMoveTypeLayout_succ _ typs t r ih

/-! ### Completeness -/

theorem LayoutOf.unique (t : MoveAbiSignatureToken) (l l' : MoveTypeLayout)
    (h : LayoutOf isIdentifier structDefs t l) (h' : LayoutOf isIdentifier structDefs t l') :
    l = l' := by
  have hfields : ∀ (ty : MoveStructField → MoveAbiSignatureToken) (fds : List MoveStructField)
      (fields fields' : List (String × MoveTypeLayout)),
      fields.map Prod.fst = fds.map MoveStructField.name →
      (∀ (i : ℕ) (fd : MoveStructField) (f : String × MoveTypeLayout), fds[i]? = some fd →
        fields[i]? = some f → ∀ l', LayoutOf isIdentifier structDefs (ty fd) l' → f.2 = l') →
      List.Forall₂ (fun fd f => f.1 = fd.name ∧ LayoutOf isIdentifier structDefs (ty fd) f.2)
        fds fields' → fields = fields' := by
    intro ty fds fields fields' hnames hall hfields'
    have hboth := (fields_iff (fun fd l => ∀ l', LayoutOf isIdentifier structDefs (ty fd) l' →
      l = l') fds fields).mpr ⟨hnames, hall⟩
    clear hnames hall
    induction hboth generalizing fields' with
    | nil =>
      rw [List.forall₂_nil_left_iff.mp hfields']
    | cons hhead _ ih =>
      obtain ⟨f', rest', hf', hrest', rfl⟩ := List.forall₂_cons_left_iff.mp hfields'
      rw [ih rest' hrest']
      congr 1
      exact Prod.ext (hhead.1.trans hf'.1.symm) (hhead.2 f'.2 hf'.2)
  induction h generalizing l' with
  | primitive t l hl =>
    cases t <;> first
      | (cases h' with
        | primitive _ _ hl' => exact Option.some.inj (hl.symm.trans hl'))
      | exact absurd hl (by simp [primitiveLayout])
  | vector t l _ ih =>
    cases h' with
    | primitive _ _ hl' => exact absurd hl' (by simp [primitiveLayout])
    | vector _ m hm => rw [ih m hm]
  | reference t l _ ih =>
    cases h' with
    | primitive _ _ hl' => exact absurd hl' (by simp [primitiveLayout])
    | reference _ _ hm => exact ih l' hm
  | mutableReference t l _ ih =>
    cases h' with
    | primitive _ _ hl' => exact absurd hl' (by simp [primitiveLayout])
    | mutableReference _ _ hm => exact ih l' hm
  | struct handle st fields hst _ hnames _ ih =>
    obtain ⟨st', layout, hst', hlayout, rfl⟩ := (struct_iff handle l').mp h'
    obtain rfl := Option.some.inj (hst.symm.trans hst')
    have hfs := hlayout.fields
    simp only [instantiate_nil] at hfs
    rw [MoveTypeLayout.ofStruct, hlayout.type,
      hfields MoveStructField.ty st.fields fields layout.fields hnames
        (fun i fd f hfd hf l' => ih i fd f hfd hf l') hfs]
  | structInstantiation handle insts st typs fields hst _ _ _ hnames _ _ ih =>
    obtain ⟨st', _, layout, hst', _, hlayout, rfl⟩ :=
      (structInstantiation_iff handle insts l').mp h'
    obtain rfl := Option.some.inj (hst.symm.trans hst')
    rw [MoveTypeLayout.ofStruct, hlayout.type,
      hfields (fun fd => instantiate insts fd.ty) st.fields fields layout.fields hnames
        (fun i fd f hfd hf l' => ih i fd f hfd hf l') hlayout.fields]

theorem typeParameter_complete (args : List MoveAbiSignatureToken) (typs : List MoveTypeLayout)
    (hargs : List.Forall₂ (LayoutOf isIdentifier structDefs) args typs) (idx : U16)
    (ability : MoveAbility) (l : MoveTypeLayout)
    (h : LayoutOf isIdentifier structDefs (instantiate args (.typeParameter idx ability)) l) :
    ∃ fuel, toMoveTypeLayout isIdentifier structDefs fuel typs (.typeParameter idx ability) =
      some (some l) := by
  obtain ⟨hlen, hall⟩ := (forall₂_iff_getElem? _ _ _).mp hargs
  refine ⟨1, ?_⟩
  rw [instantiate] at h
  rw [toMoveTypeLayout]
  cases ha : args[idx.val]? with
  | none =>
    rw [ha] at h
    cases h with
    | primitive _ _ hl => exact absurd hl (by simp [primitiveLayout])
  | some a =>
    rw [ha, Option.getD_some] at h
    have hlt : idx.val < typs.length := hlen ▸ (List.getElem?_eq_some_iff.mp ha).1
    have hget : typs[idx.val]? = some typs[idx.val] := List.getElem?_eq_getElem hlt
    rw [hget, LayoutOf.unique a _ l (hall idx.val a _ ha hget) h]

theorem toMoveStructLayout_complete (typs : List MoveTypeLayout) (st : MoveStructAbi)
    (fields : List (String × MoveTypeLayout)) (hnamed : Named isIdentifier st)
    (hnames : fields.map Prod.fst = st.fields.map MoveStructField.name)
    (h : ∀ (i : ℕ) (fd : MoveStructField) (f : String × MoveTypeLayout), st.fields[i]? = some fd →
      fields[i]? = some f →
      ∃ fuel, toMoveTypeLayout isIdentifier structDefs fuel typs fd.ty = some (some f.2)) :
    ∃ fuel, toMoveStructLayout isIdentifier (toMoveTypeLayout isIdentifier structDefs fuel typs) st =
      some (some ⟨structTag st, fields⟩) := by
  have hfields := (fields_iff (fun fd l => ∃ fuel, toMoveTypeLayout isIdentifier structDefs fuel
    typs fd.ty = some (some l)) st.fields fields).mpr ⟨hnames, h⟩
  obtain ⟨fuel, hfuel⟩ := forall₂_fuel
    (fun fuel (fd : MoveStructField) (f : String × MoveTypeLayout) => f.1 = fd.name ∧
      toMoveTypeLayout isIdentifier structDefs fuel typs fd.ty = some (some f.2))
    (fun _ _ fd _ hle hf => ⟨hf.1, toMoveTypeLayout_mono _ _ hle typs fd.ty _ hf.2⟩)
    st.fields fields (hfields.imp fun fd f hf => hf.2.imp fun _ hl => ⟨hf.1, hl⟩)
  exact ⟨fuel, (toMoveStructLayout_eq_some _ _ _).mpr ⟨rfl, hnamed, hfuel⟩⟩

theorem struct_complete (typs : List MoveTypeLayout) (handle : MoveStructHandle)
    (st : MoveStructAbi) (fields : List (String × MoveTypeLayout))
    (hst : structDefs handle.moduleId handle.structName = some st)
    (hbody : ∃ fuel, toMoveStructLayout isIdentifier
      (toMoveTypeLayout isIdentifier structDefs fuel typs) st = some (some ⟨structTag st, fields⟩)) :
    ∃ fuel, toMoveTypeLayout isIdentifier structDefs fuel typs (.struct handle) =
      some (some (.struct (structTag st) fields)) := by
  obtain ⟨fuel, hfuel⟩ := hbody
  refine ⟨fuel + 1, ?_⟩
  simp only [toMoveTypeLayout, hst, hfuel]
  rfl

/-- The arguments are laid out in the environment around, the fields in that of the arguments. -/
theorem structInstantiation_complete (typs newTyps : List MoveTypeLayout)
    (handle : MoveStructHandle) (insts : List MoveAbiSignatureToken) (st : MoveStructAbi)
    (fields : List (String × MoveTypeLayout))
    (hst : structDefs handle.moduleId handle.structName = some st)
    (hinsts : List.Forall₂ (fun t l => ∃ fuel,
      toMoveTypeLayout isIdentifier structDefs fuel typs t = some (some l)) insts newTyps)
    (hbody : ∃ fuel, toMoveStructLayout isIdentifier
      (toMoveTypeLayout isIdentifier structDefs fuel newTyps) st =
        some (some ⟨structTag st, fields⟩)) :
    ∃ fuel, toMoveTypeLayout isIdentifier structDefs fuel typs (.structInstantiation handle insts) =
      some (some (.struct (structTag st) fields)) := by
  obtain ⟨fuel, hfuel⟩ := hbody
  obtain ⟨fuel', hfuel'⟩ := forall₂_fuel
    (fun fuel t l => toMoveTypeLayout isIdentifier structDefs fuel typs t = some (some l))
    (fun _ _ t _ hle hl => toMoveTypeLayout_mono _ _ hle typs t _ hl) insts newTyps hinsts
  have hcollect := collect_mono _ (toMoveTypeLayout isIdentifier structDefs (fuel + fuel') typs)
    insts (fun t _ => toMoveTypeLayout_mono fuel' (fuel + fuel') (by omega) typs t) _
    ((collect_eq_some _ _ _).mpr hfuel')
  have hst' := toMoveStructLayout_mono _
    (toMoveTypeLayout isIdentifier structDefs (fuel + fuel') newTyps)
    (fun t => toMoveTypeLayout_mono fuel (fuel + fuel') (by omega) newTyps t) st _ hfuel
  refine ⟨fuel + fuel' + 1, ?_⟩
  simp only [toMoveTypeLayout, hst, hcollect, hst']
  rfl

/-- Every layout of the type with the arguments put in is returned, given enough fuel.
By induction on the layout; a type parameter can stand for any type. -/
theorem toMoveTypeLayout_complete (t : MoveAbiSignatureToken) (l : MoveTypeLayout)
    (h : LayoutOf isIdentifier structDefs t l) (args : List MoveAbiSignatureToken)
    (typs : List MoveTypeLayout)
    (hargs : List.Forall₂ (LayoutOf isIdentifier structDefs) args typs)
    (token : MoveAbiSignatureToken) (heq : instantiate args token = t) :
    ∃ fuel, toMoveTypeLayout isIdentifier structDefs fuel typs token = some (some l) := by
  induction h generalizing args typs token with
  | primitive t l hl =>
    rcases instantiate_eq_primitive args token l (heq ▸ hl) with ⟨idx, ability, rfl⟩ | hprim
    · exact typeParameter_complete args typs hargs idx ability l (heq ▸ .primitive t l hl)
    · cases token <;> first
        | exact ⟨1, congrArg some hprim⟩
        | exact absurd hprim (by simp [primitiveLayout])
  | vector t l h ih =>
    rcases instantiate_eq_vector args token t heq with ⟨idx, ability, rfl⟩ | ⟨v, rfl, hv⟩
    · exact typeParameter_complete args typs hargs idx ability _ (heq ▸ .vector t l h)
    · obtain ⟨fuel, hfuel⟩ := ih args typs hargs v hv
      exact ⟨fuel + 1, by rw [toMoveTypeLayout, hfuel]; rfl⟩
  | reference t l h ih =>
    rcases instantiate_eq_reference args token t heq with ⟨idx, ability, rfl⟩ | ⟨rf, rfl, hrf⟩
    · exact typeParameter_complete args typs hargs idx ability l (heq ▸ .reference t l h)
    · obtain ⟨fuel, hfuel⟩ := ih args typs hargs rf hrf
      exact ⟨fuel + 1, hfuel⟩
  | mutableReference t l h ih =>
    rcases instantiate_eq_mutableReference args token t heq with
      ⟨idx, ability, rfl⟩ | ⟨rf, rfl, hrf⟩
    · exact typeParameter_complete args typs hargs idx ability l (heq ▸ .mutableReference t l h)
    · obtain ⟨fuel, hfuel⟩ := ih args typs hargs rf hrf
      exact ⟨fuel + 1, hfuel⟩
  | struct handle st fields hst hnamed hnames hfields ih =>
    rcases instantiate_eq_struct args token handle heq with ⟨idx, ability, rfl⟩ | ⟨rfl, rfl⟩
    · exact typeParameter_complete args typs hargs idx ability _
        (heq ▸ .struct handle st fields hst hnamed hnames hfields)
    · refine struct_complete typs handle st fields hst ?_
      exact toMoveStructLayout_complete typs st fields hnamed hnames
        fun i fd f hfd hf => ih i fd f hfd hf [] typs hargs fd.ty (instantiate_nil _)
  | structInstantiation handle insts st newTyps fields hst hlen htyps hnamed hnames hfields iht ih =>
    -- the fields, in the environment of the arguments that the struct is given
    have hbody : ∀ typs, List.Forall₂ (LayoutOf isIdentifier structDefs) insts typs →
        ∃ fuel, toMoveStructLayout isIdentifier
          (toMoveTypeLayout isIdentifier structDefs fuel typs) st =
            some (some ⟨structTag st, fields⟩) := fun typs htyps =>
      toMoveStructLayout_complete typs st fields hnamed hnames
        fun i fd f hfd hf => ih i fd f hfd hf insts typs htyps fd.ty rfl
    rcases instantiate_eq_structInstantiation args token handle insts heq with
      ⟨idx, ability, rfl⟩ | ⟨rfl, rfl⟩ | ⟨insts', rfl, rfl⟩
    · exact typeParameter_complete args typs hargs idx ability _
        (heq ▸ .structInstantiation handle insts st newTyps fields hst hlen htyps hnamed hnames
          hfields)
    · exact struct_complete typs handle st fields hst (hbody typs hargs)
    · refine structInstantiation_complete typs newTyps handle insts' st fields hst ?_
        (hbody newTyps ((forall₂_iff_getElem? _ _ _).mpr ⟨hlen, htyps⟩))
      refine (forall₂_iff_getElem? _ _ _).mpr ⟨by simpa using hlen, fun i t l ht hl => ?_⟩
      have hi : (insts'.map (instantiate args))[i]? = some (instantiate args t) := by
        rw [List.getElem?_map, ht, Option.map_some]
      exact iht i _ l hi hl args typs hargs t rfl

end

end Layout

end Movy.Types
