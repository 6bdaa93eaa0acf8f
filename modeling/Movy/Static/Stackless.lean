import Mathlib.Algebra.Group.Nat.Defs
import Mathlib.Data.List.Sort
import Movy.Lib.Reaching

/-!
# Detectors on stackless bytecode (`movy-static-analysis/src/sui`)

Stackless code moves values between temporaries. The generator notes for each
temporary where it is defined; the detectors look up the definition of an operand
in these notes, textually, without following the control flow.
-/

namespace Movy.Static.Stackless

/-! ### Code -/

abbrev TempIndex := ℕ

abbrev Label := ℕ

inductive Constant where
  | bool (b : Bool)
  | other
  deriving DecidableEq

/- A function is given by its symbol. -/
inductive Operation where
  | function (fid : String)
  | eq
  | neq
  | mul
  | div
  | other
  deriving DecidableEq

/- Attributes are left out. -/
inductive Bytecode where
  | assign (dst src : TempIndex)
  | call (dsts : List TempIndex) (op : Operation) (srcs : List TempIndex)
      (abortAction : Option (Label × TempIndex))
  | ret (srcs : List TempIndex)
  | load (dst : TempIndex) (c : Constant)
  | branch (thenLabel elseLabel : Label) (src : TempIndex)
  | variantSwitch (discr : TempIndex) (labels : List Label)
  | jump (label : Label)
  | label (label : Label)
  | abort (src : TempIndex)
  | nop
  deriving DecidableEq

inductive Ty where
  | bool
  | other
  deriving DecidableEq

structure FunctionInfo where
  name : String
  code : List Bytecode
  localTypes : List Ty
  defAttrid : List (List ℕ)

/-! ### Definitions -/

namespace Bytecode

def defines : Bytecode → List TempIndex
  | .assign dst _ => [dst]
  | .call dsts _ _ abortAction => dsts ++ (abortAction.map Prod.snd).toList
  | .load dst _ => [dst]
  | _ => []

end Bytecode

/- A temporary out of range is not recorded. -/
def record (slots : List (List ℕ)) (idx offset : ℕ) : List (List ℕ) :=
  slots.modify idx (· ++ [offset])

def recordAll (temps : Bytecode → List TempIndex) (slots : List (List ℕ)) (e : Bytecode × ℕ) :
    List (List ℕ) :=
  (temps e.1).foldl (fun slots idx => record slots idx e.2) slots

/- The uses are noted in the same way, and read by nothing. -/
def computeDefUse (localsLen : ℕ) (code : List Bytecode) : List (List ℕ) :=
  code.zipIdx.foldl (recordAll Bytecode.defines) (List.replicate localsLen [])

/- A function as `generate_stackless_bytecode` describes it. -/
def generate (name : String) (code : List Bytecode) (localTypes : List Ty) : FunctionInfo :=
  ⟨name, code, localTypes, computeDefUse localTypes.length code⟩

/- The last definition before the offset, or else the first one. -/
def getDefBytecode (function : FunctionInfo) (temp codeOffset : ℕ) : Option Bytecode :=
  match function.defAttrid[temp]? with
  | none => none
  | some [] => none
  | some [d] => function.code[d]?
  | some (first :: others) =>
    let candidates := ((first :: others).filter fun idx => idx < codeOffset).mergeSort
    match candidates.getLast? with
    | some idx => function.code[idx]?
    | none => function.code[first]?

/-! ### The detectors -/

/- `Bytecode::label_offsets`, of the crate of the generator: where the labels stand. -/
abbrev LabelOffsets := List Bytecode → Label → Option ℕ

/- Labels are found where they stand, as far as offsets have sixteen bits. -/
def FindsLabels (labelOffsets : LabelOffsets) : Prop :=
  ∀ code label offset, code.length ≤ 2 ^ 16 → labelOffsets code label = some offset →
    code[offset]? = some (.label label)

def loopsAt (labelOffsets : LabelOffsets) (function : FunctionInfo) (e : Bytecode × ℕ) : Bool :=
  match e.1 with
  | .branch thenLabel elseLabel cond =>
    match getDefBytecode function cond e.2, labelOffsets function.code thenLabel,
      labelOffsets function.code elseLabel with
    | some (.load _ (.bool value)), some thenOffset, some elseOffset =>
      if value then thenOffset ≤ e.2 % 2 ^ 16 else elseOffset ≤ e.2 % 2 ^ 16
    | _, _, _ => false
  | _ => false

def detectInfiniteLoop (labelOffsets : LabelOffsets) (function : FunctionInfo) : Bool :=
  function.code.zipIdx.any (loopsAt labelOffsets function)

def isLdBool : Bytecode → Bool
  | .load _ (.bool _) => true
  | _ => false

def retIsBool (localTypes : List Ty) : Bytecode → Bool
  | .call dsts _ _ _ => dsts.head?.bind (localTypes[·]?) = some .bool
  | .assign dst _ => localTypes[dst]? = some .bool
  | .load dst _ => localTypes[dst]? = some .bool
  | _ => false

def operandsAt (function : FunctionInfo) (op : Operation → Bool) (test : Bytecode → Bytecode → Bool)
    (e : Bytecode × ℕ) : Bool :=
  match e.1 with
  | .call _ o [left, right] _ =>
    op o && match getDefBytecode function left e.2, getDefBytecode function right e.2 with
      | some l, some r => test l r
      | _, _ => false
  | _ => false

def comparesBool (localTypes : List Ty) (left right : Bytecode) : Bool :=
  (isLdBool left && retIsBool localTypes right) || (isLdBool right && retIsBool localTypes left)

def detectBoolJudgement (function : FunctionInfo) : Bool :=
  function.code.zipIdx.any (operandsAt function (fun o => o = .eq || o = .neq)
    (comparesBool function.localTypes))

def isDiv : Bytecode → Bool
  | .call _ .div _ _ => true
  | _ => false

def isSqrt : Bytecode → Bool
  | .call _ (.function fid) _ _ => fid = "sqrt"
  | _ => false

def losesPrecision (op1 op2 : Bytecode) : Bool := isDiv op1 || isDiv op2 || isSqrt op1 || isSqrt op2

def detectPrecisionLoss (function : FunctionInfo) : Bool :=
  function.code.zipIdx.any (operandsAt function (fun o => o = .mul) losesPrecision)

/-! ### Control flow -/

namespace Bytecode

/- Control may go on to the next instruction. -/
def falls : Bytecode → Bool
  | .ret _ | .branch _ _ _ | .variantSwitch _ _ | .jump _ | .abort _ => false
  | _ => true

def targets : Bytecode → List Label
  | .call _ _ _ abortAction => (abortAction.map Prod.fst).toList
  | .branch thenLabel elseLabel _ => [thenLabel, elseLabel]
  | .variantSwitch _ labels => labels
  | .jump l => [l]
  | _ => []

end Bytecode

def Next (code : List Bytecode) (p q : ℕ) : Prop :=
  ∃ instr, code[p]? = some instr ∧
    ((instr.falls = true ∧ q = p + 1) ∨ ∃ l ∈ instr.targets, code[q]? = some (.label l))

def isLabelAt (code : List Bytecode) (q : ℕ) : Prop := ∃ l, code[q]? = some (.label l)

theorem next_cases (code : List Bytecode) (p q : ℕ) (h : Next code p q) :
    q = p + 1 ∨ isLabelAt code q := by
  obtain ⟨instr, -, h⟩ := h
  rcases h with ⟨-, hq⟩ | ⟨l, -, hq⟩
  · exact .inl hq
  · exact .inr ⟨l, hq⟩

def definesAt (code : List Bytecode) (temp : TempIndex) (d : ℕ) : Bool :=
  match code[d]? with
  | some instr => temp ∈ instr.defines
  | none => false

/-! ### The notes -/

/- The offsets of the instructions that mention a temporary, in order. -/
def recorded (temps : Bytecode → List TempIndex) (l : List (Bytecode × ℕ)) (t : TempIndex) :
    List ℕ :=
  l.flatMap fun e => ((temps e.1).filter fun idx => idx = t).map fun _ => e.2

theorem getElem?_record (slots : List (List ℕ)) (idx offset t : ℕ) :
    (record slots idx offset)[t]? =
      slots[t]?.map fun s => s ++ if idx = t then [offset] else [] := by
  rw [record, List.getElem?_modify]
  by_cases h : idx = t
  · simp [h]
  · simp [h]

theorem getElem?_recordAll (temps : Bytecode → List TempIndex) (slots : List (List ℕ))
    (e : Bytecode × ℕ) (t : ℕ) :
    (recordAll temps slots e)[t]? =
      slots[t]?.map fun s => s ++ ((temps e.1).filter fun idx => idx = t).map fun _ => e.2 := by
  rw [recordAll]
  induction temps e.1 generalizing slots with
  | nil => simp
  | cons idx rest ih =>
    rw [List.foldl_cons, ih, getElem?_record, Option.map_map]
    congr 1
    funext s
    by_cases h : idx = t <;> simp [h]

theorem getElem?_foldl_recordAll (temps : Bytecode → List TempIndex) (l : List (Bytecode × ℕ))
    (slots : List (List ℕ)) (t : ℕ) :
    (l.foldl (recordAll temps) slots)[t]? = slots[t]?.map fun s => s ++ recorded temps l t := by
  induction l generalizing slots with
  | nil => simp [recorded]
  | cons e rest ih =>
    rw [List.foldl_cons, ih, getElem?_recordAll, Option.map_map]
    congr 1
    funext s
    simp [recorded]

theorem generate_defAttrid (name : String) (code : List Bytecode) (localTypes : List Ty) (t : ℕ) :
    (generate name code localTypes).defAttrid[t]? =
      if t < localTypes.length then some (recorded Bytecode.defines code.zipIdx t) else none := by
  have h := getElem?_foldl_recordAll Bytecode.defines code.zipIdx
    (List.replicate localTypes.length []) t
  rw [List.getElem?_replicate] at h
  refine Eq.trans h ?_
  by_cases ht : t < localTypes.length
  · simp [ht]
  · simp [ht]

theorem mem_recorded_iff (code : List Bytecode) (t o : ℕ) :
    o ∈ recorded Bytecode.defines code.zipIdx t ↔ definesAt code t o = true := by
  unfold definesAt
  simp only [recorded, List.mem_flatMap, List.mem_map, List.mem_filter, Prod.exists,
    List.mem_zipIdx_iff_getElem?]
  constructor
  · intro h
    obtain ⟨instr, offset, hinstr, idx, ⟨hidx, heq⟩, rfl⟩ := h
    obtain rfl := of_decide_eq_true heq
    rw [hinstr]
    exact decide_eq_true hidx
  · intro h
    cases hinstr : code[o]? with
    | none =>
      rw [hinstr] at h
      cases h
    | some instr =>
      rw [hinstr] at h
      exact ⟨instr, o, hinstr, t, ⟨of_decide_eq_true h, decide_eq_true rfl⟩, rfl⟩

theorem recorded_sorted (temps : Bytecode → List TempIndex) (code : List Bytecode) (n t : ℕ) :
    (recorded temps (code.zipIdx n) t).Pairwise (· ≤ ·) := by
  induction code generalizing n with
  | nil => exact List.Pairwise.nil
  | cons instr rest ih =>
    rw [List.zipIdx_cons]
    refine List.pairwise_append.mpr ⟨?_, ih (n + 1), ?_⟩
    · exact List.pairwise_map.mpr (List.pairwise_of_forall fun _ _ => Nat.le_refl n)
    · intro a ha b hb
      obtain ⟨_, -, rfl⟩ := List.mem_map.mp ha
      obtain ⟨e, he, hb⟩ := List.mem_flatMap.mp hb
      obtain ⟨_, -, rfl⟩ := List.mem_map.mp hb
      have hle := List.le_snd_of_mem_zipIdx he
      omega

/-! ### The definition that is looked up -/

theorem getLast?_before (l : List ℕ) (hsorted : l.Pairwise (· ≤ ·)) (o d : ℕ) (hd : d ∈ l)
    (hlt : d < o) (hlast : ∀ k ∈ l, k < o → k ≤ d) :
    ((l.filter fun idx => idx < o).mergeSort).getLast? = some d := by
  have hfiltered : (l.filter fun idx => idx < o).Pairwise fun a b => decide (a ≤ b) = true :=
    (hsorted.sublist List.filter_sublist).imp fun h => decide_eq_true h
  rw [List.mergeSort_of_pairwise hfiltered]
  have hmem : d ∈ l.filter fun idx => idx < o := List.mem_filter.mpr ⟨hd, decide_eq_true hlt⟩
  cases hl : (l.filter fun idx => idx < o).getLast? with
  | none =>
    rw [List.getLast?_eq_none_iff.mp hl] at hmem
    cases hmem
  | some last =>
    obtain ⟨front, hfront⟩ := List.getLast?_eq_some_iff.mp hl
    have hlastmem : last ∈ l.filter fun idx => idx < o := List.mem_of_getLast? hl
    obtain ⟨hin, hbefore⟩ := List.mem_filter.mp hlastmem
    have hle := hlast last hin (of_decide_eq_true hbefore)
    rw [hfront] at hmem
    rcases List.mem_append.mp hmem with hd' | hd'
    · have hsplit := hsorted.sublist (List.filter_sublist (p := fun idx => decide (idx < o)))
      rw [hfront] at hsplit
      have hge := (List.pairwise_append.mp hsplit).2.2 d hd' last List.mem_cons_self
      rw [Nat.le_antisymm hle hge]
    · rw [List.mem_singleton.mp hd']

theorem getDefBytecode_eq (function : FunctionInfo) (t o : ℕ) (l : List ℕ)
    (hl : function.defAttrid[t]? = some l) (hsorted : l.Pairwise (· ≤ ·)) (d : ℕ) (hd : d ∈ l)
    (h : (∀ k ∈ l, k = d) ∨ (d < o ∧ ∀ k ∈ l, k < o → k ≤ d)) :
    getDefBytecode function t o = function.code[d]? := by
  unfold getDefBytecode
  rw [hl]
  match l, hd, h, hsorted with
  | [d'], hd, _, _ => rw [List.mem_singleton.mp hd]
  | first :: second :: rest, hd, h, hsorted =>
    rcases h with hall | ⟨hlt, hlast⟩
    · have hfirst := hall first List.mem_cons_self
      by_cases hlt : d < o
      · simp only [getLast?_before _ hsorted o d hd hlt fun k hk _ => le_of_eq (hall k hk)]
      · have hnone : ((first :: second :: rest).filter fun idx => idx < o) = [] := by
          refine List.filter_eq_nil_iff.mpr fun k hk => ?_
          rw [hall k hk, decide_eq_true_iff]
          exact hlt
        simp only [hnone, List.mergeSort_nil, List.getLast?_nil]
        rw [hfirst]
    · simp only [getLast?_before _ hsorted o d hd hlt hlast]

/- The temporary has one definition, or one before `o` with neither another nor a
label behind it. -/
def Settled (code : List Bytecode) (t : TempIndex) (o : ℕ) : Prop :=
  (∃ d, ∀ k, definesAt code t k = true ↔ k = d) ∨
    ∃ d, d < o ∧ definesAt code t d = true ∧
      (∀ k, d < k → k < o → definesAt code t k = false) ∧
      ∀ k, d < k → k ≤ o → ¬isLabelAt code k

/- On every path to `o` on which the temporary is defined, this instruction has
defined it last. -/
def DefinedBy (code : List Bytecode) (t : TempIndex) (o : ℕ) (instr : Bytecode) : Prop :=
  ∀ earlier d, Reaching.Path (Next code) o earlier →
    Reaching.reaching (definesAt code t) earlier = some d → code[d]? = some instr

theorem settled_reaching (code : List Bytecode) (t : TempIndex) (o : ℕ)
    (hsettled : Settled code t o) : ∃ d, definesAt code t d = true ∧
      ((∀ k, definesAt code t k = true → k = d) ∨
        (d < o ∧ ∀ k, definesAt code t k = true → k < o → k ≤ d)) ∧
      ∀ earlier d', Reaching.Path (Next code) o earlier →
        Reaching.reaching (definesAt code t) earlier = some d' → d' = d := by
  rcases hsettled with ⟨d, honly⟩ | ⟨d, hlt, hdef, hlast, hlabel⟩
  · refine ⟨d, (honly d).mpr rfl, .inl fun k hk => (honly k).mp hk, fun earlier d' _ hreach => ?_⟩
    exact (honly d').mp (Reaching.reaching_isDef _ earlier d' hreach)
  · refine ⟨d, hdef, .inr ⟨hlt, fun k hk hko => ?_⟩, fun earlier d' hpath hreach => ?_⟩
    · by_contra hgt
      rw [hlast k (not_le.mp hgt) hko] at hk
      cases hk
    · rw [Reaching.reaching_straight (isLabelAt code) (next_cases code) _ d o earlier hpath hlt hdef
        hlast hlabel] at hreach
      exact (Option.some.inj hreach).symm

/- What `get_def_bytecode` looks up in the text is the definition that reaches the
offset on every path, for a settled temporary. -/
theorem looked_up_reaches (name : String) (code : List Bytecode) (localTypes : List Ty)
    (t : TempIndex) (o : ℕ) (ht : t < localTypes.length) (hsettled : Settled code t o) :
    ∃ instr, getDefBytecode (generate name code localTypes) t o = some instr ∧
      t ∈ instr.defines ∧ DefinedBy code t o instr := by
  obtain ⟨d, hdef, hcases, hreach⟩ := settled_reaching code t o hsettled
  have hl := generate_defAttrid name code localTypes t
  rw [if_pos ht] at hl
  have hlookup := getDefBytecode_eq _ t o _ hl (recorded_sorted Bytecode.defines code 0 t) d
    ((mem_recorded_iff code t d).mpr hdef) (by
      rcases hcases with hall | ⟨hlt, hlast⟩
      · exact .inl fun k hk => hall k ((mem_recorded_iff code t k).mp hk)
      · exact .inr ⟨hlt, fun k hk => hlast k ((mem_recorded_iff code t k).mp hk)⟩)
  cases hinstr : code[d]? with
  | none =>
    rw [definesAt, hinstr] at hdef
    cases hdef
  | some instr =>
    rw [definesAt, hinstr] at hdef
    refine ⟨instr, hlookup.trans hinstr, of_decide_eq_true hdef, ?_⟩
    intro earlier d' hpath hd'
    rw [hreach earlier d' hpath hd', hinstr]

def spinning : List Bytecode := [.label 0, .load 0 (.bool true), .branch 0 1 0, .label 1, .ret []]

theorem looked_up_reaches_spinning : ∃ instr,
    getDefBytecode (generate "spin" spinning [.bool]) 0 2 = some instr ∧ 0 ∈ instr.defines ∧
      DefinedBy spinning 0 2 instr := by
  refine looked_up_reaches "spin" spinning [.bool] 0 2 (by decide) (.inl ⟨1, fun k => ?_⟩)
  match k with
  | 0 | 1 | 2 | 3 | 4 => decide
  | k + 5 => simp [definesAt, spinning]

/-! ### What a finding says -/

theorem getDefBytecode_range (name : String) (code : List Bytecode) (localTypes : List Ty)
    (t o : ℕ) (instr : Bytecode)
    (h : getDefBytecode (generate name code localTypes) t o = some instr) :
    t < localTypes.length := by
  by_contra hge
  rw [getDefBytecode, generate_defAttrid, if_neg hge] at h
  cases h

theorem definedBy_of_lookup (name : String) (code : List Bytecode) (localTypes : List Ty)
    (t o : ℕ) (instr : Bytecode)
    (h : getDefBytecode (generate name code localTypes) t o = some instr)
    (hsettled : Settled code t o) : DefinedBy code t o instr := by
  obtain ⟨instr', hlookup, -, hdefined⟩ := looked_up_reaches name code localTypes t o
    (getDefBytecode_range name code localTypes t o instr h) hsettled
  rw [h] at hlookup
  obtain rfl := Option.some.inj hlookup
  exact hdefined

theorem operands_of_any (name : String) (code : List Bytecode) (localTypes : List Ty)
    (op : Operation → Bool) (test : Bytecode → Bytecode → Bool)
    (h : code.zipIdx.any (operandsAt (generate name code localTypes) op test) = true) :
    ∃ o dsts f left right abortAction l r,
      code[o]? = some (.call dsts f [left, right] abortAction) ∧ op f = true ∧ test l r = true ∧
      (Settled code left o → DefinedBy code left o l) ∧
      (Settled code right o → DefinedBy code right o r) := by
  obtain ⟨⟨instr, o⟩, hmem, hat⟩ := List.any_eq_true.mp h
  have hinstr := List.mem_zipIdx_iff_getElem?.mp hmem
  unfold operandsAt at hat
  split at hat
  · rename_i dsts f left right abortAction hcall
    obtain ⟨hop, hat⟩ := (Bool.and_eq_true _ _).mp hat
    split at hat
    · rename_i l r hl hr
      refine ⟨o, dsts, f, left, right, abortAction, l, r, hcall ▸ hinstr, hop, hat, ?_, ?_⟩
      · exact definedBy_of_lookup name code localTypes left o l hl
      · exact definedBy_of_lookup name code localTypes right o r hr
    · cases hat
  · cases hat

/- A reported loop has a branch whose condition is a constant on every path, and
which then always jumps back. A reported comparison has a literal on one side and
a boolean on the other, and a reported product has a quotient or a square root as
an operand, on every path. Each of this for operands that are settled. -/
theorem static_findings_hold (labelOffsets : LabelOffsets) (hlabels : FindsLabels labelOffsets)
    (name : String) (code : List Bytecode) (localTypes : List Ty) (hsize : code.length ≤ 2 ^ 16) :
    (detectInfiniteLoop labelOffsets (generate name code localTypes) = true →
      ∃ o thenLabel elseLabel cond dst value back,
        code[o]? = some (.branch thenLabel elseLabel cond) ∧
        (Settled code cond o → DefinedBy code cond o (.load dst (.bool value))) ∧
        code[back]? = some (.label (if value then thenLabel else elseLabel)) ∧ back < o) ∧
    (detectBoolJudgement (generate name code localTypes) = true →
      ∃ o dsts f left right abortAction l r,
        code[o]? = some (.call dsts f [left, right] abortAction) ∧ (f = .eq ∨ f = .neq) ∧
        comparesBool localTypes l r = true ∧
        (Settled code left o → DefinedBy code left o l) ∧
        (Settled code right o → DefinedBy code right o r)) ∧
    (detectPrecisionLoss (generate name code localTypes) = true →
      ∃ o dsts left right abortAction l r,
        code[o]? = some (.call dsts .mul [left, right] abortAction) ∧
        losesPrecision l r = true ∧
        (Settled code left o → DefinedBy code left o l) ∧
        (Settled code right o → DefinedBy code right o r)) := by
  refine ⟨fun h => ?_, fun h => ?_, fun h => ?_⟩
  · obtain ⟨⟨instr, o⟩, hmem, hat⟩ := List.any_eq_true.mp h
    have hinstr := List.mem_zipIdx_iff_getElem?.mp hmem
    have ho : o < code.length := (List.getElem?_eq_some_iff.mp hinstr).1
    unfold loopsAt at hat
    split at hat
    · rename_i thenLabel elseLabel cond hbranch
      split at hat
      · rename_i dst value thenOffset elseOffset hdef hthen helse
        have hthenAt := hlabels code thenLabel thenOffset hsize hthen
        have helseAt := hlabels code elseLabel elseOffset hsize helse
        have hbranchAt : code[o]? = some (.branch thenLabel elseLabel cond) := hbranch ▸ hinstr
        have hne : ∀ back l, code[back]? = some (.label l) → back ≤ o → back < o := by
          intro back l hback hle
          refine lt_of_le_of_ne hle ?_
          rintro rfl
          rw [hbranchAt] at hback
          cases hback
        have hmod : o % 2 ^ 16 = o := Nat.mod_eq_of_lt (by omega)
        have hdefined := definedBy_of_lookup name code localTypes cond o _ hdef
        simp only [hmod] at hat
        cases value with
        | true =>
          exact ⟨o, thenLabel, elseLabel, cond, dst, true, thenOffset, hbranchAt, hdefined, hthenAt,
            hne thenOffset thenLabel hthenAt (of_decide_eq_true hat)⟩
        | false =>
          exact ⟨o, thenLabel, elseLabel, cond, dst, false, elseOffset, hbranchAt, hdefined, helseAt,
            hne elseOffset elseLabel helseAt (of_decide_eq_true hat)⟩
      · cases hat
    · cases hat
  · obtain ⟨o, dsts, f, left, right, abortAction, l, r, hcall, hop, htest, hl, hr⟩ :=
      operands_of_any name code localTypes _ _ h
    refine ⟨o, dsts, f, left, right, abortAction, l, r, hcall, ?_, htest, hl, hr⟩
    rcases (Bool.or_eq_true _ _).mp hop with hf | hf
    · exact .inl (of_decide_eq_true hf)
    · exact .inr (of_decide_eq_true hf)
  · obtain ⟨o, dsts, f, left, right, abortAction, l, r, hcall, hop, htest, hl, hr⟩ :=
      operands_of_any name code localTypes _ _ h
    obtain rfl := of_decide_eq_true hop
    exact ⟨o, dsts, left, right, abortAction, l, r, hcall, htest, hl, hr⟩

def lastLabel (code : List Bytecode) (label : Label) : Option ℕ :=
  ((code.zipIdx.filter fun e => e.1 = .label label).getLast?).map fun e => e.2 % 2 ^ 16

theorem lastLabel_finds : FindsLabels lastLabel := by
  intro code label offset hsize h
  obtain ⟨e, he, rfl⟩ := Option.map_eq_some_iff.mp h
  obtain ⟨hmem, hlabel⟩ := List.mem_filter.mp (List.mem_of_getLast? he)
  have hat := List.mem_zipIdx_iff_getElem?.mp hmem
  have hlt := (List.getElem?_eq_some_iff.mp hat).1
  rw [Nat.mod_eq_of_lt (by omega), hat, of_decide_eq_true hlabel]

theorem static_findings_hold_spinning : ∃ o thenLabel elseLabel cond dst value back,
    spinning[o]? = some (.branch thenLabel elseLabel cond) ∧
      (Settled spinning cond o → DefinedBy spinning cond o (.load dst (.bool value))) ∧
      spinning[back]? = some (.label (if value then thenLabel else elseLabel)) ∧ back < o :=
  (static_findings_hold lastLabel lastLabel_finds "spin" spinning [.bool] (by decide)).1
    (by decide)

end Movy.Static.Stackless
