import Movy.Fuzz.Accounts

/-!
# Mutated type arguments

A type argument is only replaced where its type parameter occurs in no parameter and
no result of the function, and by a type that the table of the metadata lists under
the abilities of the type parameter. The types of all values stay what they are.
-/

namespace Movy.Fuzz

open Movy.Types Movy.Store MoveAbiSignatureToken

/-! ### Declared abilities -/

/- The type has these abilities by the structs that the packages declare. -/
inductive HasAbilities (abis : List MovePackageAbi) : MoveTypeTag → MoveAbility → Prop where
  | bool : HasAbilities abis .bool MoveAbility.PRIMITIVES
  | u8 : HasAbilities abis .u8 MoveAbility.PRIMITIVES
  | u16 : HasAbilities abis .u16 MoveAbility.PRIMITIVES
  | u32 : HasAbilities abis .u32 MoveAbility.PRIMITIVES
  | u64 : HasAbilities abis .u64 MoveAbility.PRIMITIVES
  | u128 : HasAbilities abis .u128 MoveAbility.PRIMITIVES
  | u256 : HasAbilities abis .u256 MoveAbility.PRIMITIVES
  | address : HasAbilities abis .address MoveAbility.PRIMITIVES
  | signer : HasAbilities abis .signer ⟨false, true, false, false⟩
  | vector (ty : MoveTypeTag) (a : MoveAbility) (element : HasAbilities abis ty a) :
      HasAbilities abis (.vector ty) { a with key := false }
  | struct (package : MovePackageAbi) (module : MoveModuleAbi) (handle : MoveStructHandle)
      (tys : List MoveTypeTag) (abilities : List MoveAbility) (known : package ∈ abis)
      (member : module ∈ package.modules) (declared : handle ∈ module.structs)
      (arity : tys.length = handle.typeParameters.length) (count : abilities.length = tys.length)
      (args : ∀ (k : ℕ) ty a, tys[k]? = some ty → abilities[k]? = some a → HasAbilities abis ty a) :
      HasAbilities abis (.struct handle.moduleId.moduleAddress handle.moduleId.moduleName
        handle.structName tys) (instanceAbilities handle abilities)

def HasAll (abis : List MovePackageAbi) (wanted : MoveAbility) (ty : MoveTypeTag) : Prop :=
  ∃ a, HasAbilities abis ty a ∧ wanted.isSubsetOf a = true

theorem instanceAbilities_nil (handle : MoveStructHandle) :
    instanceAbilities handle [] = handle.abilities := by
  simp [instanceAbilities]

/-! ### The table of types (`from_env_filtered` of `movy-replay/src/meta.rs`) -/

abbrev AbilityTable := IndexMap MoveAbility (List MoveTypeTag)

/- `entry(ability).or_default().insert(ty)`; one of the types is drawn at random, so
their order does not matter. -/
def AbilityTable.add (table : AbilityTable) (ability : MoveAbility) (ty : MoveTypeTag) :
    AbilityTable :=
  table.insert ability (pushNew ((table.get? ability).getD []) ty)

def primitiveTable : AbilityTable :=
  (IndexMap.empty.insert MoveAbility.PRIMITIVES [.bool, .address, .u8, .u16, .u32, .u64, .u128,
    .u256, .vector .u8]).insert ⟨false, true, false, false⟩ [.signer]

/- Only monomorphic structs are considered. -/
def addStruct (table : AbilityTable) (s : MoveStructHandle) : AbilityTable :=
  if s.typeParameters.isEmpty then
    table.add s.abilities (.struct s.moduleId.moduleAddress s.moduleId.moduleName s.structName [])
  else table

def abilityToTypeTag (abis : List MovePackageAbi) : AbilityTable :=
  (abis.flatMap fun pkg => pkg.modules.flatMap fun module => module.structs).foldl addStruct
    primitiveTable

def TableSound (abis : List MovePackageAbi) (table : AbilityTable) : Prop :=
  ∀ ability tys, table.get? ability = some tys → ∀ ty ∈ tys, HasAbilities abis ty ability

section Table

variable {abis : List MovePackageAbi} {table : AbilityTable}

theorem tableSound_primitive : TableSound abis primitiveTable := by
  intro ability tys h ty hty
  simp only [primitiveTable, IndexMap.get?_insert] at h
  split_ifs at h with hsigner hprimitive
  · cases h
    rw [List.mem_singleton.mp hty, hsigner]
    exact .signer
  · cases h
    subst hprimitive
    simp only [List.mem_cons, List.not_mem_nil, or_false] at hty
    rcases hty with rfl | rfl | rfl | rfl | rfl | rfl | rfl | rfl | rfl
    · exact .bool
    · exact .address
    · exact .u8
    · exact .u16
    · exact .u32
    · exact .u64
    · exact .u128
    · exact .u256
    · exact .vector .u8 _ .u8
  · cases h

theorem TableSound.add (h : TableSound abis table) (ability : MoveAbility) (ty : MoveTypeTag)
    (hty : HasAbilities abis ty ability) : TableSound abis (table.add ability ty) := by
  intro ability' tys hget ty' hty'
  rw [AbilityTable.add, IndexMap.get?_insert] at hget
  split_ifs at hget with heq
  · subst heq
    obtain rfl := Option.some.inj hget
    rcases (mem_pushNew _ _ _).mp hty' with hold | rfl
    · cases hlisted : table.get? ability' with
      | none => simp [hlisted] at hold
      | some listed =>
        rw [hlisted] at hold
        exact h ability' listed hlisted ty' hold
    · exact hty
  · exact h ability' tys hget ty' hty'

theorem TableSound.addStruct (h : TableSound abis table) (package : MovePackageAbi)
    (module : MoveModuleAbi) (s : MoveStructHandle) (hpackage : package ∈ abis)
    (hmodule : module ∈ package.modules) (hs : s ∈ module.structs) :
    TableSound abis (addStruct table s) := by
  unfold Fuzz.addStruct
  split_ifs with hmono
  · refine h.add _ _ ?_
    have harity : s.typeParameters.length = 0 := by rw [List.isEmpty_iff.mp hmono, List.length_nil]
    rw [← instanceAbilities_nil s]
    exact .struct package module s [] [] hpackage hmodule hs harity.symm rfl nofun
  · exact h

theorem tableSound (abis : List MovePackageAbi) : TableSound abis (abilityToTypeTag abis) := by
  have hrun : ∀ (structs : List MoveStructHandle) (table : AbilityTable), TableSound abis table →
      (∀ s ∈ structs, ∃ package ∈ abis, ∃ module ∈ package.modules, s ∈ module.structs) →
      TableSound abis (structs.foldl addStruct table) := by
    intro structs
    induction structs with
    | nil => exact fun table h _ => h
    | cons s structs ih =>
      intro table h hfrom
      obtain ⟨package, hpackage, module, hmodule, hs⟩ := hfrom s (List.mem_cons_self ..)
      exact ih _ (h.addStruct package module s hpackage hmodule hs) fun s' hs' =>
        hfrom s' (List.mem_cons_of_mem _ hs')
  refine hrun _ _ tableSound_primitive fun s hs => ?_
  obtain ⟨package, hpackage, hs⟩ := List.mem_flatMap.mp hs
  obtain ⟨module, hmodule, hs⟩ := List.mem_flatMap.mp hs
  exact ⟨package, hpackage, module, hmodule, hs⟩

end Table

/-! ### Type parameters -/

/- The type parameter occurs in the token. -/
inductive Occurs (i : ℕ) : MoveAbiSignatureToken → Prop where
  | typeParameter (index : U16) (ability : MoveAbility) (same : index.val = i) :
      Occurs i (.typeParameter index ability)
  | vector (inner : MoveAbiSignatureToken) (h : Occurs i inner) : Occurs i (.vector inner)
  | reference (inner : MoveAbiSignatureToken) (h : Occurs i inner) : Occurs i (.reference inner)
  | mutableReference (inner : MoveAbiSignatureToken) (h : Occurs i inner) :
      Occurs i (.mutableReference inner)
  | structInstantiation (handle : MoveStructHandle) (args : List MoveAbiSignatureToken)
      (arg : MoveAbiSignatureToken) (member : arg ∈ args) (h : Occurs i arg) :
      Occurs i (.structInstantiation handle args)

theorem anyContainsTypeParam_iff (index : U16) (args : List MoveAbiSignatureToken) :
    anyContainsTypeParam index args = true ↔ ∃ arg ∈ args, arg.containsTypeParam index = true := by
  induction args with
  | nil => simp [anyContainsTypeParam]
  | cons arg args ih => rw [anyContainsTypeParam, Bool.or_eq_true, ih, List.exists_mem_cons_iff]

theorem containsTypeParam_iff (t : MoveAbiSignatureToken) (index : U16) :
    t.containsTypeParam index = true ↔ Occurs index.val t := by
  induction t using MoveAbiSignatureToken.induct with
  | hparam i a =>
    rw [containsTypeParam, decide_eq_true_eq]
    constructor
    · rintro rfl
      exact .typeParameter i a rfl
    · rintro ⟨⟩
      exact Fin.ext ‹_›
  | hvector t ih =>
    rw [containsTypeParam, ih]
    exact ⟨.vector t, fun h => by cases h; assumption⟩
  | href t ih =>
    rw [containsTypeParam, ih]
    exact ⟨.reference t, fun h => by cases h; assumption⟩
  | hmut t ih =>
    rw [containsTypeParam, ih]
    exact ⟨.mutableReference t, fun h => by cases h; assumption⟩
  | hinst handle args ih =>
    rw [containsTypeParam, anyContainsTypeParam_iff]
    constructor
    · intro hall
      obtain ⟨arg, harg, h⟩ := hall
      exact .structInstantiation handle args arg harg ((ih arg harg).mp h)
    · rintro ⟨⟩
      exact ⟨_, ‹_›, (ih _ ‹_›).mpr ‹_›⟩
  | _ =>
    constructor
    · intro h
      cases h
    · intro h
      cases h

theorem subst_set (t : MoveAbiSignatureToken) (tys : List MoveTypeTag) (hlen : tys.length ≤ 2 ^ 16)
    (i : ℕ) (ty : MoveTypeTag) (h : ¬Occurs i t) :
    t.subst (tyArgsMap (tys.set i ty)) = t.subst (tyArgsMap tys) := by
  apply subst_congr
  intro index hindex
  have hne : i ≠ index.val := by
    rintro rfl
    exact h ((containsTypeParam_iff t index).mp hindex)
  rw [tyArgsMap_get? _ (by rwa [List.length_set]), tyArgsMap_get? _ hlen, List.getElem?_set_ne hne]

/-! ### Well-typed sequences -/

/- The type of an argument, by the types of what the commands before have returned. -/
def valueType (inputs : List InputArgument) (results : List (List MoveTypeTag)) :
    SequenceArgument → Option MoveTypeTag
  | .gasCoin => some suiCoinTag
  | .input i => (inputs[i.val]?).map InputArgument.typeTag
  | .result i => (results[i.val]?).bind fun tys => if tys.length = 1 then tys[0]? else none
  | .nestedResult i j => (results[i.val]?).bind fun tys => tys[j.val]?

/- The call is well typed and returns values of these types. -/
structure CallHasTypes (st : FuzzState) (abis : List MovePackageAbi)
    (value : SequenceArgument → Option MoveTypeTag) (function : MoveFunctionAbi) (call : MoveCall)
    (returned : List MoveTypeTag) : Prop where
  called : st.getCalled call = some function
  count : call.arguments.length = (passedParams function).length
  typed : ∀ (k : ℕ) param arg, (passedParams function)[k]? = some param →
    call.arguments[k]? = some arg → ∃ ty, value arg = some ty ∧
      param.subst (tyArgsMap call.typeArguments) = some ty
  arity : call.typeArguments.length = function.typeParameters.length
  parameters : function.typeParameters.length ≤ 2 ^ 16
  able : ∀ (i : ℕ) ty wanted, call.typeArguments[i]? = some ty →
    function.typeParameters[i]? = some wanted → HasAll abis wanted ty
  returns : function.returnParamters.map (fun ret => ret.subst (tyArgsMap call.typeArguments)) =
    returned.map some

/- How a command that is no call is typed: by the types of its arguments. -/
abbrev BuiltinRule :=
  (SequenceArgument → Option MoveTypeTag) → MoveSequenceCall → List MoveTypeTag → Prop

def CommandTyped (st : FuzzState) (abis : List MovePackageAbi) (builtin : BuiltinRule)
    (value : SequenceArgument → Option MoveTypeTag) :
    MoveSequenceCall → List MoveTypeTag → Prop
  | .call call, returned => ∃ function, CallHasTypes st abis value function call returned
  | cmd, returned => builtin value cmd returned

/- Every command is well typed behind those before it; the results have these types. -/
structure SequenceHasTypes (st : FuzzState) (abis : List MovePackageAbi) (builtin : BuiltinRule)
    (ptb : MoveSequence) (results : List (List MoveTypeTag)) : Prop where
  length : results.length = ptb.commands.length
  commands : ∀ (k : ℕ) cmd returned, ptb.commands[k]? = some cmd → results[k]? = some returned →
    CommandTyped st abis builtin (valueType ptb.inputs (results.take k)) cmd returned

def argTypes (ptb : MoveSequence) (results : List (List MoveTypeTag)) :
    List (List (Option MoveTypeTag)) :=
  ptb.commands.mapIdx fun k cmd => (commandArgs cmd).map (valueType ptb.inputs (results.take k))

/-! ### The mutation -/

/- One type argument is replaced, where its type parameter does not occur and by a type
with its abilities. -/
def TyArgReplaced (st : FuzzState) (abis : List MovePackageAbi) (ptb ptb' : MoveSequence) : Prop :=
  ∃ (k i : ℕ) (call : MoveCall) (function : MoveFunctionAbi) (wanted : MoveAbility)
    (ty : MoveTypeTag),
    ptb.commands[k]? = some (.call call) ∧ st.getCalled call = some function ∧
    i < call.typeArguments.length ∧ function.typeParameters[i]? = some wanted ∧
    (∀ t ∈ function.parameters ++ function.returnParamters, ¬Occurs i t) ∧
    HasAll abis wanted ty ∧
    ptb' = ⟨ptb.inputs, ptb.commands.set k
      (.call { call with typeArguments := call.typeArguments.set i ty })⟩

section Mutation

variable {st : FuzzState} {abis : List MovePackageAbi} {builtin : BuiltinRule}
  {ptb : MoveSequence} {results : List (List MoveTypeTag)}

theorem CallHasTypes.set {value : SequenceArgument → Option MoveTypeTag}
    {function : MoveFunctionAbi} {call : MoveCall} {returned : List MoveTypeTag}
    (h : CallHasTypes st abis value function call returned) (i : ℕ) (wanted : MoveAbility)
    (ty : MoveTypeTag) (hwanted : function.typeParameters[i]? = some wanted)
    (hfree : ∀ t ∈ function.parameters ++ function.returnParamters, ¬Occurs i t)
    (hty : HasAll abis wanted ty) :
    CallHasTypes st abis value function { call with typeArguments := call.typeArguments.set i ty }
      returned where
  called := h.called
  count := h.count
  typed := by
    intro k param arg hparam harg
    have hmem : param ∈ function.parameters :=
      List.mem_of_mem_filter (List.mem_of_getElem? hparam)
    obtain ⟨ty', hvalue, hsubst⟩ := h.typed k param arg hparam harg
    refine ⟨ty', hvalue, ?_⟩
    rw [subst_set param _ (h.arity ▸ h.parameters) i ty
      (hfree param (List.mem_append_left _ hmem)), hsubst]
  arity := by rw [List.length_set, h.arity]
  parameters := h.parameters
  able := by
    intro j ty' wanted' hty' hwanted'
    by_cases hij : i = j
    · subst hij
      have hlt : i < call.typeArguments.length :=
        h.arity ▸ (List.getElem?_eq_some_iff.mp hwanted).1
      rw [List.getElem?_set_self hlt] at hty'
      rw [← Option.some.inj hty', ← Option.some.inj (hwanted.symm.trans hwanted')]
      exact hty
    · rw [List.getElem?_set_ne hij] at hty'
      exact h.able j ty' wanted' hty' hwanted'
  returns := by
    rw [← h.returns]
    refine List.map_congr_left fun ret hret => ?_
    exact subst_set ret _ (h.arity ▸ h.parameters) i ty (hfree ret (List.mem_append_right _ hret))

theorem SequenceHasTypes.replaced (h : SequenceHasTypes st abis builtin ptb results)
    (ptb' : MoveSequence) (hreplaced : TyArgReplaced st abis ptb ptb') :
    SequenceHasTypes st abis builtin ptb' results := by
  obtain ⟨k, i, call, function, wanted, ty, hcall, hcalled, -, hwanted, hfree, hty, rfl⟩ :=
    hreplaced
  refine ⟨by rw [List.length_set, h.length], fun j cmd returned hcmd hreturned => ?_⟩
  by_cases hkj : k = j
  · subst hkj
    have hlt := (List.getElem?_eq_some_iff.mp hcall).1
    rw [List.getElem?_set_self hlt] at hcmd
    obtain rfl := Option.some.inj hcmd
    obtain ⟨function', htyped⟩ := h.commands k _ returned hcall hreturned
    obtain rfl := Option.some.inj (htyped.called.symm.trans hcalled)
    exact ⟨function', htyped.set i wanted ty hwanted hfree hty⟩
  · rw [List.getElem?_set_ne hkj] at hcmd
    exact h.commands j cmd returned hcmd hreturned

theorem TyArgReplaced.argTypes_eq (ptb' : MoveSequence) (h : TyArgReplaced st abis ptb ptb')
    (results : List (List MoveTypeTag)) : argTypes ptb' results = argTypes ptb results := by
  obtain ⟨k, i, call, function, wanted, ty, hcall, -, -, -, -, -, rfl⟩ := h
  refine List.ext_getElem? fun j => ?_
  simp only [argTypes, List.getElem?_mapIdx]
  by_cases hkj : k = j
  · subst hkj
    rw [List.getElem?_set_self (List.getElem?_eq_some_iff.mp hcall).1, hcall]
    rfl
  · rw [List.getElem?_set_ne hkj]

/-! ### The candidates -/

theorem mem_freeTyArgs {function : MoveFunctionAbi} {call : MoveCall} {staged : Bool}
    {free : List (ℕ × MoveAbility)} (h : freeTyArgs function call staged = some free)
    (hlen : call.typeArguments.length ≤ 2 ^ 16) (i : ℕ) (wanted : MoveAbility)
    (hmem : (i, wanted) ∈ free) :
    i < call.typeArguments.length ∧ function.typeParameters[i]? = some wanted ∧
      ∀ t ∈ function.parameters ++ function.returnParamters, ¬Occurs i t := by
  obtain ⟨j, hj, hwanted⟩ := mem_of_mapM h (i, wanted) hmem
  obtain ⟨ability, hability, heq⟩ := Option.map_eq_some_iff.mp hwanted
  obtain ⟨rfl, rfl⟩ := Prod.mk.inj heq
  obtain ⟨hrange, hfree⟩ := List.mem_filter.mp hj
  have hi := List.mem_range.mp hrange
  have hval : (asU16 j).val = j := asU16_val j (by omega)
  have hnone : ∀ t ∈ function.parameters ++ function.returnParamters,
      t.containsTypeParam (asU16 j) = false := by
    intro t ht
    have hboth : (∀ p ∈ function.parameters, p.containsTypeParam (asU16 j) = false) ∧
        ∀ p ∈ function.returnParamters, p.containsTypeParam (asU16 j) = false := by
      cases staged <;> simpa using hfree
    exact (List.mem_append.mp ht).elim (hboth.1 t) (hboth.2 t)
  refine ⟨hi, hability, fun t ht hoccurs => ?_⟩
  have htrue := (containsTypeParam_iff t (asU16 j)).mpr (hval.symm ▸ hoccurs)
  exact Bool.false_ne_true ((hnone t ht).symm.trans htrue)

theorem freeTyArgs_isSome (function : MoveFunctionAbi) (call : MoveCall) (staged : Bool)
    (h : call.typeArguments.length = function.typeParameters.length) :
    (freeTyArgs function call staged).isSome = true := by
  refine (mapM_isSome_iff _ _).mpr fun i hi => ?_
  have hlt := List.mem_range.mp (List.mem_filter.mp hi).1
  rw [Option.isSome_map, List.getElem?_eq_getElem (h ▸ hlt)]
  rfl

/- A call of a known function with as many type arguments as it wants. -/
def Callable (st : FuzzState) (call : MoveCall) : Prop :=
  ∃ function, st.getCalled call = some function ∧
    call.typeArguments.length = function.typeParameters.length ∧
    call.typeArguments.length ≤ 2 ^ 16

theorem tyArgCandidates_isSome (staged : Bool) (commands : List (MoveSequenceCall × ℕ))
    (h : ∀ call idx, (.call call, idx) ∈ commands → Callable st call) :
    (tyArgCandidates st staged commands).isSome = true := by
  induction commands with
  | nil => rfl
  | cons e rest ih =>
    have hrest := ih fun call idx hmem => h call idx (List.mem_cons_of_mem _ hmem)
    obtain ⟨cmd, idx⟩ := e
    cases cmd with
    | call call =>
      obtain ⟨function, hcalled, harity, -⟩ := h call idx (List.mem_cons_self ..)
      obtain ⟨here, hhere⟩ := Option.isSome_iff_exists.mp
        (freeTyArgs_isSome function call staged harity)
      obtain ⟨others, hothers⟩ := Option.isSome_iff_exists.mp hrest
      simp only [tyArgCandidates, hcalled, hhere, hothers, Option.bind_eq_bind, Option.bind_some,
        Option.isSome_some]
    | _ => exact hrest

theorem mem_tyArgCandidates (staged : Bool) (commands : List (MoveSequenceCall × ℕ))
    (out : List (ℕ × ℕ × MoveAbility)) (hout : tyArgCandidates st staged commands = some out)
    (k i : ℕ) (wanted : MoveAbility) (hmem : (k, i, wanted) ∈ out) :
    ∃ call function free, (.call call, k) ∈ commands ∧ st.getCalled call = some function ∧
      freeTyArgs function call staged = some free ∧ (i, wanted) ∈ free := by
  induction commands generalizing out with
  | nil =>
    obtain rfl := Option.some.inj hout
    cases hmem
  | cons e rest ih =>
    have hlater : ∀ others, tyArgCandidates st staged rest = some others →
        (k, i, wanted) ∈ others → ∃ call function free, (.call call, k) ∈ e :: rest ∧
          st.getCalled call = some function ∧ freeTyArgs function call staged = some free ∧
          (i, wanted) ∈ free := by
      intro others hothers hmem
      obtain ⟨call, function, free, hcall, hfound⟩ := ih others hothers hmem
      exact ⟨call, function, free, List.mem_cons_of_mem _ hcall, hfound⟩
    obtain ⟨cmd, idx⟩ := e
    cases cmd with
    | call call =>
      obtain ⟨function, hcalled, hout⟩ := Option.bind_eq_some_iff.mp hout
      obtain ⟨here, hhere, hout⟩ := Option.bind_eq_some_iff.mp hout
      obtain ⟨others, hothers, hout⟩ := Option.bind_eq_some_iff.mp hout
      obtain rfl := Option.some.inj hout
      rcases List.mem_append.mp hmem with hmem | hmem
      · obtain ⟨⟨j, ability⟩, hj, heq⟩ := List.mem_map.mp hmem
        cases heq
        exact ⟨call, function, here, List.mem_cons_self .., hcalled, hhere, hj⟩
      · exact hlater others hothers hmem
    | _ => exact hlater out hout hmem

def scanned (flash : Option FlashProvider) (ptb : MoveSequence) :
    Option ℕ → List (MoveSequenceCall × ℕ)
  | some stageIdx => (ptb.commands.zipIdx.drop stageIdx).take 1
  | none => ptb.commands.zipIdx.drop (flashCommandLimits flash).1

theorem getElem?_of_scanned (flash : Option FlashProvider) (ptb : MoveSequence)
    (stageIdx : Option ℕ) (cmd : MoveSequenceCall) (k : ℕ)
    (h : (cmd, k) ∈ scanned flash ptb stageIdx) : ptb.commands[k]? = some cmd := by
  apply List.mk_mem_zipIdx_iff_getElem?.mp
  cases stageIdx with
  | some stageIdx => exact List.mem_of_mem_drop (List.mem_of_mem_take h)
  | none => exact List.mem_of_mem_drop h

theorem SequenceHasTypes.callable (h : SequenceHasTypes st abis builtin ptb results) (k : ℕ)
    (call : MoveCall) (hcall : ptb.commands[k]? = some (.call call)) : Callable st call := by
  have hlt : k < results.length := h.length ▸ (List.getElem?_eq_some_iff.mp hcall).1
  obtain ⟨function, htyped⟩ := h.commands k _ _ hcall (List.getElem?_eq_getElem hlt)
  exact ⟨function, htyped.called, htyped.arity, htyped.arity ▸ htyped.parameters⟩

theorem SequenceHasTypes.candidate (h : SequenceHasTypes st abis builtin ptb results)
    (flash : Option FlashProvider) (stageIdx : Option ℕ) (out : List (ℕ × ℕ × MoveAbility))
    (hout : tyArgCandidates st stageIdx.isSome (scanned flash ptb stageIdx) = some out) (k i : ℕ)
    (wanted : MoveAbility) (hmem : (k, i, wanted) ∈ out) (tys : List MoveTypeTag)
    (htys : (abilityToTypeTag abis).get? wanted = some tys) (ty : MoveTypeTag) (hty : ty ∈ tys) :
    TyArgReplaced st abis ptb (setTyArg ptb k i ty) := by
  obtain ⟨call, function, free, hcall, hcalled, hfree, hi⟩ :=
    mem_tyArgCandidates _ _ out hout k i wanted hmem
  have hcmd := getElem?_of_scanned flash ptb stageIdx _ k hcall
  obtain ⟨function', hcalled', -, hlen⟩ := h.callable k call hcmd
  obtain ⟨hlt, hwanted, hnowhere⟩ := mem_freeTyArgs hfree hlen i wanted hi
  refine ⟨k, i, call, function, wanted, ty, hcmd, hcalled, hlt, hwanted, hnowhere, ?_, ?_⟩
  · exact ⟨wanted, tableSound abis wanted tys htys ty hty, MoveAbility.isSubsetOf_refl wanted⟩
  · rw [setTyArg, hcmd]

theorem SequenceHasTypes.mutateTyArg_draws (h : SequenceHasTypes st abis builtin ptb results)
    (flash : Option FlashProvider) (stageIdx : Option ℕ) :
    Choice.Draws 2 (mutateTyArg st flash ptb stageIdx) := by
  have hcandidates := tyArgCandidates_isSome stageIdx.isSome (scanned flash ptb stageIdx)
    fun call k hmem => h.callable k call (getElem?_of_scanned flash ptb stageIdx _ k hmem)
  refine Choice.draws_bind 0 (1 + 1) _ _ ?_ fun out _ => ?_
  · cases stageIdx <;> exact Choice.draws_expect _ hcandidates
  · split_ifs with hempty
    · exact (Choice.draws_pure _).mono (Nat.zero_le _)
    · refine Choice.draws_bind 1 1 _ _ (Choice.draws_pick _ fun h => hempty (h ▸ rfl)) fun e _ => ?_
      dsimp only
      split
      · exact (Choice.draws_pure _).mono (Nat.zero_le 1)
      · exact (Choice.draws_pure _).mono (Nat.zero_le 1)
      · next tags hne _ =>
        exact Choice.draws_bind 1 0 _ _ (Choice.draws_pick _ fun h => hne (h ▸ rfl))
          fun ty _ => Choice.draws_pure _

theorem SequenceHasTypes.mutateTyArg_replaces (h : SequenceHasTypes st abis builtin ptb results)
    (htable : st.abilityToTypeTag = (abilityToTypeTag abis).get?) (flash : Option FlashProvider)
    (stageIdx : Option ℕ) :
    Choice.Ensures (mutateTyArg st flash ptb stageIdx) fun out => ∀ ptb', out = some ptb' →
      TyArgReplaced st abis ptb ptb' := by
  refine Choice.ensures_bind _ _
    (fun out => tyArgCandidates st stageIdx.isSome (scanned flash ptb stageIdx) = some out) _ ?_
    fun out hout => ?_
  · cases stageIdx <;> exact Choice.ensures_expect _ _ fun _ hout => hout
  · split_ifs
    · exact Choice.ensures_pure _ _ fun _ h => by cases h
    · refine Choice.ensures_bind _ _ (fun e => e ∈ out) _ (Choice.ensures_pick _ _ fun _ he => he)
        fun e he => ?_
      dsimp only
      split
      · exact Choice.ensures_pure _ _ fun _ h => by cases h
      · exact Choice.ensures_pure _ _ fun _ h => by cases h
      · next tags _ htags =>
        refine Choice.ensures_bind _ _ (fun ty => ty ∈ tags) _
          (Choice.ensures_pick _ _ fun _ hty => hty) fun ty hty => ?_
        refine Choice.ensures_pure _ _ fun ptb' hptb => ?_
        obtain rfl := Option.some.inj hptb
        exact h.candidate flash stageIdx out hout e.1 e.2.1 e.2.2 he tags (htable ▸ htags) ty hty

end Mutation

/- Whatever is drawn: no panic, and the sequence is left alone or one type argument is
replaced. The types of all results stay, and with them those of all arguments. -/
theorem mutateTyArg_keeps_types (st : FuzzState) (abis : List MovePackageAbi)
    (builtin : BuiltinRule) (ptb : MoveSequence) (results : List (List MoveTypeTag))
    (flash : Option FlashProvider) (stageIdx : Option ℕ)
    (htable : st.abilityToTypeTag = (abilityToTypeTag abis).get?)
    (htypes : SequenceHasTypes st abis builtin ptb results) :
    Choice.Safe (mutateTyArg st flash ptb stageIdx) ∧
      Choice.Ensures (mutateTyArg st flash ptb stageIdx) fun out => ∀ ptb', out = some ptb' →
        TyArgReplaced st abis ptb ptb' ∧ SequenceHasTypes st abis builtin ptb' results ∧
          argTypes ptb' results = argTypes ptb results := by
  refine ⟨(htypes.mutateTyArg_draws flash stageIdx).safe, ?_⟩
  refine (htypes.mutateTyArg_replaces htable flash stageIdx).mono fun out hout ptb' hptb => ?_
  have hreplaced := hout ptb' hptb
  exact ⟨hreplaced, htypes.replaced ptb' hreplaced, hreplaced.argTypes_eq ptb' results⟩

section Sample

def stampHandle : MoveStructHandle :=
  ⟨⟨ObjectID.ofByte 7, "registry"⟩, "Stamp", MoveAbility.PRIMITIVES, []⟩

def stampTag : MoveTypeTag := .struct (ObjectID.ofByte 7) "registry" "Stamp" []

def registerAbi : MoveFunctionAbi :=
  ⟨"register", [], [], [MoveAbility.PRIMITIVES], .public_⟩

def registryModule : MoveModuleAbi :=
  ⟨⟨ObjectID.ofByte 7, "registry"⟩, [registerAbi], [stampHandle]⟩

def registryAbis : List MovePackageAbi := [⟨[registryModule]⟩]

def registryState : FuzzState :=
  { FuzzState.ofModule registryModule with
    abilityToTypeTag := (abilityToTypeTag registryAbis).get? }

def registerCalls (ty : MoveTypeTag) : MoveSequence :=
  ⟨[], [.call ⟨ObjectID.ofByte 7, "registry", "register", [ty], []⟩]⟩

theorem registerCalls_typed :
    SequenceHasTypes registryState registryAbis (fun _ _ _ => False) (registerCalls .u64) [[]] where
  length := rfl
  commands := by
    rintro (_ | k) cmd returned hcmd hreturned
    · obtain rfl := Option.some.inj hcmd
      obtain rfl := Option.some.inj hreturned
      refine ⟨registerAbi, rfl, rfl, nofun, rfl, by decide, ?_, rfl⟩
      rintro (_ | i) ty wanted hty hwanted
      · obtain rfl := Option.some.inj hty
        obtain rfl := Option.some.inj hwanted
        exact ⟨MoveAbility.PRIMITIVES, .u64, rfl⟩
      · cases hty
    · cases hcmd

/- The last of the types with these abilities is the struct. -/
theorem mutateTyArg_keeps_types_register :
    TyArgReplaced registryState registryAbis (registerCalls .u64) (registerCalls stampTag) ∧
      SequenceHasTypes registryState registryAbis (fun _ _ _ => False) (registerCalls stampTag)
        [[]] ∧
      argTypes (registerCalls stampTag) [[]] = argTypes (registerCalls .u64) [[]] := by
  have hrun : mutateTyArg registryState none (registerCalls .u64) none [0, 9] =
      some (some (registerCalls stampTag), []) := rfl
  exact (mutateTyArg_keeps_types registryState registryAbis (fun _ _ _ => False)
    (registerCalls .u64) [[]] none none rfl registerCalls_typed).2 _ _ _ hrun _ rfl

end Sample

end Movy.Fuzz
