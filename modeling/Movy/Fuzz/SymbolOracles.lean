import Movy.Fuzz.InfiniteLoop
import Movy.Lib.BoundedSearch

/-!
# Oracles that look into symbols (`bool_judgement.rs`, `precision_loss.rs`)

Two oracles search the symbolic operands of an instruction: one for a variable,
to report a comparison of two constants, the other for a division, to report a
product that has lost precision before. Either search looks at 10000 nodes at
most; the nodes of a shared term count as often as it occurs.
-/

namespace Movy.Fuzz

open Movy.Tracer Movy.BoundedSearch

/-! ### Terms as trees -/

inductive Dynamic (V : Type) where
  | int (e : IntTerm V)
  | bool (c : BoolTerm V)

namespace Dynamic

variable {V : Type}

def children : Dynamic V → List (Dynamic V)
  | .int (.const _) | .int (.var _) => []
  | .int (.add a b) | .int (.sub a b) | .int (.mul a b) | .int (.div a b) | .int (.rem a b)
  | .int (.modulo a b) => [.int a, .int b]
  | .int (.ite c a b) => [.bool c, .int a, .int b]
  | .bool (.eq a b) | .bool (.lt a b) | .bool (.le a b) | .bool (.gt a b) | .bool (.ge a b) =>
    [.int a, .int b]
  | .bool (.not c) => [.bool c]

/- A constant with an uninterpreted declaration; numerals are interpreted. -/
def isUninterpreted : Dynamic V → Bool
  | .int (.var _) => true
  | _ => false

/- `DeclKind::Div` or `DeclKind::Idiv`. -/
def isDivision : Dynamic V → Bool
  | .int (.div _ _) => true
  | _ => false

end Dynamic

mutual

def intNodes {V : Type} : IntTerm V → ℕ
  | .const _ => 1
  | .var _ => 1
  | .add a b => 1 + (intNodes a + intNodes b)
  | .sub a b => 1 + (intNodes a + intNodes b)
  | .mul a b => 1 + (intNodes a + intNodes b)
  | .div a b => 1 + (intNodes a + intNodes b)
  | .rem a b => 1 + (intNodes a + intNodes b)
  | .modulo a b => 1 + (intNodes a + intNodes b)
  | .ite c a b => 1 + (boolNodes c + (intNodes a + intNodes b))

def boolNodes {V : Type} : BoolTerm V → ℕ
  | .eq a b => 1 + (intNodes a + intNodes b)
  | .lt a b => 1 + (intNodes a + intNodes b)
  | .le a b => 1 + (intNodes a + intNodes b)
  | .gt a b => 1 + (intNodes a + intNodes b)
  | .ge a b => 1 + (intNodes a + intNodes b)
  | .not c => 1 + boolNodes c

end

/-! ### The oracles -/

def searchLimit : ℕ := 10000

def intHasVariable (expr : ZInt) : Option Bool :=
  search Dynamic.children Dynamic.isUninterpreted searchLimit [.int expr]

/- A search that is broken off has found nothing. -/
def containsDivision (expr : ZInt) : Bool :=
  search Dynamic.children Dynamic.isDivision searchLimit [.int expr] = some true

namespace BoolJudgementOracle

def compares : Bytecode → Bool
  | .eq | .neq | .lt | .le | .gt | .ge => true
  | _ => false

def finding (func : Tracer.FunctionIdent) (pc : ℕ) : OracleFinding :=
  ⟨"BoolJudgementOracle", .minor, func, pc⟩

def loss (instruction : Bytecode) (symbolStack : ConcolicState) : Bool :=
  compares instruction &&
    match symbolStack.stack with
    | .value r :: .value l :: _ => intHasVariable l = some false && intHasVariable r = some false
    | _ => false

def beforeInstruction (pc : ℕ) (instruction : Bytecode) (symbolStack : ConcolicState)
    (currentFunction : Tracer.FunctionIdent) : List OracleFinding :=
  if loss instruction symbolStack then [finding currentFunction pc] else []

end BoolJudgementOracle

namespace PrecisionLossOracle

def finding (func : Tracer.FunctionIdent) (pc : ℕ) : OracleFinding :=
  ⟨"PrecisionLossOracle", .medium, func, pc⟩

/- The right operand is looked at only if the left one is not known. -/
def loss (instruction : Bytecode) (symbolStack : ConcolicState) : Bool :=
  match instruction with
  | .mul => match symbolStack.stack with
    | _ :: .value l :: _ => containsDivision l
    | .value r :: .unknown :: _ => containsDivision r
    | _ => false
  | _ => false

def beforeInstruction (pc : ℕ) (instruction : Bytecode) (symbolStack : ConcolicState)
    (currentFunction : Tracer.FunctionIdent) : List OracleFinding :=
  if loss instruction symbolStack then [finding currentFunction pc] else []

end PrecisionLossOracle

/-! ### What a search says about a term -/

section

variable {V : Type}

def Dynamic.nodes : Dynamic V → ℕ
  | .int e => intNodes e
  | .bool c => boolNodes c

theorem nodes_children (a : Dynamic V) : a.nodes = 1 + (a.children.map Dynamic.nodes).sum := by
  cases a with
  | int e => cases e <;> simp [Dynamic.nodes, Dynamic.children, intNodes]
  | bool c => cases c <;> simp [Dynamic.nodes, Dynamic.children, boolNodes]

def Closed (a : Dynamic V) : Prop :=
  ∀ c, Below Dynamic.children a c → c.isUninterpreted = false

theorem closed_iff (a : Dynamic V) :
    Closed a ↔ a.isUninterpreted = false ∧ ∀ b ∈ a.children, Closed b :=
  forall_below_iff Dynamic.children (fun c => c.isUninterpreted = false) a

def DivisionIn (e : IntTerm V) : Prop :=
  ∃ c, Below Dynamic.children (.int e) c ∧ c.isDivision = true

/- Two interpretations that agree on division by zero. -/
structure SameAtZero (I J : Interp V) : Prop where
  div0 : I.div0 = J.div0
  rem0 : I.rem0 = J.rem0
  mod0 : I.mod0 = J.mod0

theorem closed_binary (a : Dynamic V) (l r : IntTerm V) (hchildren : a.children = [.int l, .int r])
    (h : Closed a) : Closed (.int l) ∧ Closed (.int r) := by
  have hall := ((closed_iff a).mp h).2
  rw [hchildren] at hall
  exact ⟨hall _ List.mem_cons_self, hall _ (List.mem_cons_of_mem _ List.mem_cons_self)⟩

mutual

/- A term without variables has one value. -/
theorem eval_closed_int (I J : Interp V) (h : SameAtZero I J) :
    (e : IntTerm V) → Closed (.int e) → e.eval I = e.eval J
  | .const n, _ => rfl
  | .var v, hc => by
    have hv := ((closed_iff _).mp hc).1
    cases hv
  | .add a b, hc => by
    obtain ⟨ha, hb⟩ := closed_binary (.int (.add a b)) a b rfl hc
    rw [IntTerm.eval, IntTerm.eval, eval_closed_int I J h a ha, eval_closed_int I J h b hb]
  | .sub a b, hc => by
    obtain ⟨ha, hb⟩ := closed_binary (.int (.sub a b)) a b rfl hc
    rw [IntTerm.eval, IntTerm.eval, eval_closed_int I J h a ha, eval_closed_int I J h b hb]
  | .mul a b, hc => by
    obtain ⟨ha, hb⟩ := closed_binary (.int (.mul a b)) a b rfl hc
    rw [IntTerm.eval, IntTerm.eval, eval_closed_int I J h a ha, eval_closed_int I J h b hb]
  | .div a b, hc => by
    obtain ⟨ha, hb⟩ := closed_binary (.int (.div a b)) a b rfl hc
    rw [IntTerm.eval, IntTerm.eval, eval_closed_int I J h a ha, eval_closed_int I J h b hb, h.div0]
  | .rem a b, hc => by
    obtain ⟨ha, hb⟩ := closed_binary (.int (.rem a b)) a b rfl hc
    rw [IntTerm.eval, IntTerm.eval, eval_closed_int I J h a ha, eval_closed_int I J h b hb, h.rem0]
  | .modulo a b, hc => by
    obtain ⟨ha, hb⟩ := closed_binary (.int (.modulo a b)) a b rfl hc
    rw [IntTerm.eval, IntTerm.eval, eval_closed_int I J h a ha, eval_closed_int I J h b hb, h.mod0]
  | .ite c a b, hc => by
    have hall := ((closed_iff _).mp hc).2
    have hcond := eval_closed_bool I J h c (hall (.bool c) (by simp [Dynamic.children]))
    have hthen := eval_closed_int I J h a (hall (.int a) (by simp [Dynamic.children]))
    have helse := eval_closed_int I J h b (hall (.int b) (by simp [Dynamic.children]))
    rw [IntTerm.eval, IntTerm.eval, hcond, hthen, helse]

theorem eval_closed_bool (I J : Interp V) (h : SameAtZero I J) :
    (c : BoolTerm V) → Closed (.bool c) → c.eval I = c.eval J
  | .eq a b, hc => by
    obtain ⟨ha, hb⟩ := closed_binary (.bool (.eq a b)) a b rfl hc
    rw [BoolTerm.eval, BoolTerm.eval, eval_closed_int I J h a ha, eval_closed_int I J h b hb]
  | .lt a b, hc => by
    obtain ⟨ha, hb⟩ := closed_binary (.bool (.lt a b)) a b rfl hc
    rw [BoolTerm.eval, BoolTerm.eval, eval_closed_int I J h a ha, eval_closed_int I J h b hb]
  | .le a b, hc => by
    obtain ⟨ha, hb⟩ := closed_binary (.bool (.le a b)) a b rfl hc
    rw [BoolTerm.eval, BoolTerm.eval, eval_closed_int I J h a ha, eval_closed_int I J h b hb]
  | .gt a b, hc => by
    obtain ⟨ha, hb⟩ := closed_binary (.bool (.gt a b)) a b rfl hc
    rw [BoolTerm.eval, BoolTerm.eval, eval_closed_int I J h a ha, eval_closed_int I J h b hb]
  | .ge a b, hc => by
    obtain ⟨ha, hb⟩ := closed_binary (.bool (.ge a b)) a b rfl hc
    rw [BoolTerm.eval, BoolTerm.eval, eval_closed_int I J h a ha, eval_closed_int I J h b hb]
  | .not c, hc => by
    have hall := ((closed_iff _).mp hc).2
    rw [BoolTerm.eval, BoolTerm.eval, eval_closed_bool I J h c (hall _ List.mem_cons_self)]

end

end

theorem closed_of_intHasVariable (e : ZInt) (h : intHasVariable e = some false) :
    Closed (.int e) := search_false _ _ _ _ h _ List.mem_cons_self

theorem intHasVariable_iff (e : ZInt) (hsize : intNodes e ≤ searchLimit) :
    intHasVariable e = some false ↔ Closed (.int e) := by
  have hsum : (([.int e] : List (Dynamic ArgVar)).map Dynamic.nodes).sum ≤ searchLimit := by
    simpa [Dynamic.nodes] using hsize
  refine ⟨closed_of_intHasVariable e, fun h => ?_⟩
  have hiff := search_eq_true_iff Dynamic.children Dynamic.nodes nodes_children
    Dynamic.isUninterpreted searchLimit [.int e] hsum
  cases hs : intHasVariable e with
  | none => exact absurd hs (search_ne_none _ _ nodes_children _ _ _ hsum)
  | some found =>
    cases found with
    | false => rfl
    | true =>
      obtain ⟨a, ha, c, hc, hp⟩ := hiff.mp hs
      obtain rfl := List.mem_singleton.mp ha
      rw [h c hc] at hp
      cases hp

theorem divisionIn_of_containsDivision (e : ZInt) (h : containsDivision e = true) :
    DivisionIn e := by
  obtain ⟨a, ha, c, hc, hp⟩ := search_true _ _ _ _ (of_decide_eq_true h)
  obtain rfl := List.mem_singleton.mp ha
  exact ⟨c, hc, hp⟩

theorem containsDivision_iff (e : ZInt) (hsize : intNodes e ≤ searchLimit) :
    containsDivision e = true ↔ DivisionIn e := by
  refine ⟨divisionIn_of_containsDivision e, fun h => decide_eq_true ?_⟩
  obtain ⟨c, hc, hp⟩ := h
  exact (search_eq_true_iff Dynamic.children Dynamic.nodes nodes_children Dynamic.isDivision
    searchLimit [.int e] (by simpa [Dynamic.nodes] using hsize)).mpr
    ⟨.int e, List.mem_cons_self, c, hc, hp⟩

/-! ### What the oracles report -/

/- A reported comparison has one outcome, whatever the arguments of the
transaction are; of operands that are not too large, all such are reported. -/
theorem bool_judgement_exact (pc : ℕ) (instruction : Bytecode) (c : ConcolicState)
    (func : Tracer.FunctionIdent) :
    (BoolJudgementOracle.beforeInstruction pc instruction c func ≠ [] →
      BoolJudgementOracle.compares instruction = true ∧ ∃ l r rest,
        c.stack = .value r :: .value l :: rest ∧ ∀ I J : Interp ArgVar, SameAtZero I J →
          l.eval I = l.eval J ∧ r.eval I = r.eval J) ∧
    ∀ l r rest, c.stack = .value r :: .value l :: rest →
      BoolJudgementOracle.compares instruction = true →
      intNodes l ≤ searchLimit → intNodes r ≤ searchLimit →
      (BoolJudgementOracle.beforeInstruction pc instruction c func =
        [BoolJudgementOracle.finding func pc] ↔ Closed (.int l) ∧ Closed (.int r)) := by
  rw [BoolJudgementOracle.beforeInstruction]
  refine ⟨?_, ?_⟩
  · intro h
    have hloss : BoolJudgementOracle.loss instruction c = true := by
      by_contra hno
      exact h (if_neg hno)
    obtain ⟨hcompares, hstack⟩ := (Bool.and_eq_true _ _).mp hloss
    refine ⟨hcompares, ?_⟩
    split at hstack
    · rename_i r l rest heq
      obtain ⟨hl, hr⟩ := (Bool.and_eq_true _ _).mp hstack
      refine ⟨l, r, rest, heq, fun I J hsame => ⟨?_, ?_⟩⟩
      · exact eval_closed_int I J hsame l (closed_of_intHasVariable l (of_decide_eq_true hl))
      · exact eval_closed_int I J hsame r (closed_of_intHasVariable r (of_decide_eq_true hr))
    · cases hstack
  · intro l r rest hstack hcompares hl hr
    have hloss : BoolJudgementOracle.loss instruction c = true ↔
        Closed (.int l) ∧ Closed (.int r) := by
      rw [← intHasVariable_iff l hl, ← intHasVariable_iff r hr]
      simp [BoolJudgementOracle.loss, hstack, hcompares]
    rw [← hloss]
    by_cases h : BoolJudgementOracle.loss instruction c = true <;> simp [h]

/- A product that is reported has an operand that was divided before. Of operands
that are not too large, exactly these are reported: a known left operand with a
division in it, and a right one if the left one is not known. -/
theorem precision_loss_exact (pc : ℕ) (c : ConcolicState) (func : Tracer.FunctionIdent)
    (lhs rhs : SymbolValue) (rest : List SymbolValue) (hstack : c.stack = rhs :: lhs :: rest) :
    (PrecisionLossOracle.beforeInstruction pc .mul c func ≠ [] →
      ∃ e, (lhs = .value e ∨ rhs = .value e) ∧ DivisionIn e) ∧
    ((∀ e, lhs = .value e ∨ rhs = .value e → intNodes e ≤ searchLimit) →
      (PrecisionLossOracle.beforeInstruction pc .mul c func =
        [PrecisionLossOracle.finding func pc] ↔
        (∃ l, lhs = .value l ∧ DivisionIn l) ∨
          (lhs = .unknown ∧ ∃ r, rhs = .value r ∧ DivisionIn r))) := by
  rw [PrecisionLossOracle.beforeInstruction]
  have hiff : ∀ loss : Bool, (if loss then [PrecisionLossOracle.finding func pc] else []) =
      [PrecisionLossOracle.finding func pc] ↔ loss = true := fun loss => by cases loss <;> simp
  have hne : ∀ loss : Bool, (if loss then [PrecisionLossOracle.finding func pc] else []) ≠ [] →
      loss = true := fun loss => by cases loss <;> simp
  refine ⟨fun h => ?_, fun hsize => ?_⟩
  · have hloss := hne _ h
    rw [PrecisionLossOracle.loss, hstack] at hloss
    cases lhs with
    | value l => exact ⟨l, .inl rfl, divisionIn_of_containsDivision l hloss⟩
    | unknown =>
      cases rhs with
      | value r => exact ⟨r, .inr rfl, divisionIn_of_containsDivision r hloss⟩
      | unknown => cases hloss
  · rw [hiff, PrecisionLossOracle.loss, hstack]
    cases lhs with
    | value l =>
      simp [containsDivision_iff l (hsize l (.inl rfl))]
    | unknown =>
      cases rhs with
      | value r =>
        simp [containsDivision_iff r (hsize r (.inr rfl))]
      | unknown => simp

/- An argument is divided by 100 and multiplied by 5. -/
def scaledStack : ConcolicState :=
  { ConcolicState.new with
    stack := [.value (.const 5), .value (.div (.var (0, 0)) (.const 100))] }

theorem precision_loss_exact_scaled :
    PrecisionLossOracle.beforeInstruction 7 .mul scaledStack loopFunction =
      [PrecisionLossOracle.finding loopFunction 7] := by
  have hsize : ∀ e : ZInt, SymbolValue.value (.div (.var (0, 0)) (.const 100)) = .value e ∨
      SymbolValue.value (.const 5) = .value e → intNodes e ≤ searchLimit := by
    intro e he
    rcases he with he | he
    · cases he
      decide
    · cases he
      decide
  exact ((precision_loss_exact 7 scaledStack loopFunction _ _ [] rfl).2 hsize).mpr
    (.inl ⟨_, rfl, _, .refl _, rfl⟩)

end Movy.Fuzz
