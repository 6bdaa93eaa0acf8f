import Movy.Lib.Pointwise
import Movy.Types.Input

/-!
# Renaming command indices (`movy-fuzz/src/mutators/sequence/remap.rs`)

When commands are put into a sequence or taken out of it, the results that the
other commands refer to move.
-/

namespace Movy.Fuzz

open Movy.Types

/- The traversal that both renamings share; `none` if an argument has no image. -/
def remapArgs (f : SequenceArgument → Option SequenceArgument) :
    MoveSequenceCall → Option MoveSequenceCall
  | .call call => do
    let arguments ← call.arguments.mapM f
    some (.call { call with arguments := arguments })
  | .transferObjects args dst => do
    let args ← args.mapM f
    let dst ← f dst
    some (.transferObjects args dst)
  | .splitCoins src amounts => do
    let src ← f src
    let amounts ← amounts.mapM f
    some (.splitCoins src amounts)
  | .mergeCoins dst srcs => do
    let dst ← f dst
    let srcs ← srcs.mapM f
    some (.mergeCoins dst srcs)
  | .makeMoveVec ty args => do
    let args ← args.mapM f
    some (.makeMoveVec ty args)
  | .publish modules deps => some (.publish modules deps)
  | .upgrade modules deps package ticket => do
    let ticket ← f ticket
    some (.upgrade modules deps package ticket)

def remapArgWithMap (mapping : List (Option U16)) : SequenceArgument → Option SequenceArgument
  | .result i => (mapping[i.val]?).bind fun new => new.map .result
  | .nestedResult i j => (mapping[i.val]?).bind fun new => new.map fun n => .nestedResult n j
  | arg => some arg

/- `none` is the panic on a missing index. -/
def remapArg (mapping : List U16) : SequenceArgument → Option SequenceArgument
  | .result i => (mapping[i.val]?).map .result
  | .nestedResult i j => (mapping[i.val]?).map fun n => .nestedResult n j
  | arg => some arg

def remapCommandWithMap (cmd : MoveSequenceCall) (mapping : List (Option U16)) :
    Option MoveSequenceCall := remapArgs (remapArgWithMap mapping) cmd

def remapCommand (cmd : MoveSequenceCall) (mapping : List U16) : Option MoveSequenceCall :=
  remapArgs (remapArg mapping) cmd

/-! ### Renamings as functions -/

def renameArg (f : ℕ → ℕ) : SequenceArgument → SequenceArgument
  | .result i => .result (asU16 (f i.val))
  | .nestedResult i j => .nestedResult (asU16 (f i.val)) j
  | arg => arg

/- The traversal for a renaming that is defined everywhere. -/
def mapCommand (f : SequenceArgument → SequenceArgument) : MoveSequenceCall → MoveSequenceCall
  | .call call => .call { call with arguments := call.arguments.map f }
  | .transferObjects args dst => .transferObjects (args.map f) (f dst)
  | .splitCoins src amounts => .splitCoins (f src) (amounts.map f)
  | .mergeCoins dst srcs => .mergeCoins (f dst) (srcs.map f)
  | .makeMoveVec ty args => .makeMoveVec ty (args.map f)
  | .publish modules deps => .publish modules deps
  | .upgrade modules deps package ticket => .upgrade modules deps package (f ticket)

def renameCommand (f : ℕ → ℕ) : MoveSequenceCall → MoveSequenceCall := mapCommand (renameArg f)

def commandArgs : MoveSequenceCall → List SequenceArgument
  | .call call => call.arguments
  | .transferObjects args dst => args ++ [dst]
  | .splitCoins src amounts => src :: amounts
  | .mergeCoins dst srcs => dst :: srcs
  | .makeMoveVec _ args => args
  | .publish _ _ => []
  | .upgrade _ _ _ ticket => [ticket]

def argCommand : SequenceArgument → Option ℕ
  | .result i => some i.val
  | .nestedResult i _ => some i.val
  | _ => none

/- Every result that the argument refers to belongs to one of the first `n` commands. -/
def RefersBelow (n : ℕ) (arg : SequenceArgument) : Prop := ∀ i, argCommand arg = some i → i < n

/- References point backwards. -/
def BackwardRefs (commands : List MoveSequenceCall) : Prop :=
  ∀ k cmd, commands[k]? = some cmd → ∀ arg ∈ commandArgs cmd, RefersBelow k arg

/- Command `k` uses a result of command `i`. -/
def Refers (commands : List MoveSequenceCall) (k i : ℕ) : Prop :=
  ∃ cmd, commands[k]? = some cmd ∧ ∃ arg ∈ commandArgs cmd, argCommand arg = some i

theorem BackwardRefs.lt {commands : List MoveSequenceCall} (h : BackwardRefs commands) {k i : ℕ}
    (hrefers : Refers commands k i) : i < k := by
  obtain ⟨cmd, hcmd, arg, harg, hi⟩ := hrefers
  exact h k cmd hcmd arg harg i hi

theorem mapM_eq_map {α β : Type} (f : α → Option β) (g : α → β) (l : List α)
    (h : ∀ a ∈ l, f a = some (g a)) : l.mapM f = some (l.map g) := by
  induction l with
  | nil => rfl
  | cons a l ih =>
    have ha := h a (List.mem_cons_self ..)
    have hl := ih fun b hb => h b (List.mem_cons_of_mem _ hb)
    simp only [List.mapM_cons, ha, hl, Option.bind_eq_bind, Option.bind_some, Option.pure_def,
      List.map_cons]

theorem remapArgs_eq (f : SequenceArgument → Option SequenceArgument)
    (g : SequenceArgument → SequenceArgument) (cmd : MoveSequenceCall)
    (h : ∀ arg ∈ commandArgs cmd, f arg = some (g arg)) :
    remapArgs f cmd = some (mapCommand g cmd) := by
  cases cmd with
  | call call =>
    have hargs := mapM_eq_map f g call.arguments h
    simp only [remapArgs, hargs, Option.bind_eq_bind, Option.bind_some, mapCommand]
  | transferObjects args dst =>
    have hargs := mapM_eq_map f g args fun a ha => h a (List.mem_append_left _ ha)
    have hdst := h dst (List.mem_append_right _ (List.mem_singleton_self dst))
    simp only [remapArgs, hargs, hdst, Option.bind_eq_bind, Option.bind_some, mapCommand]
  | splitCoins src amounts =>
    have hsrc := h src (List.mem_cons_self ..)
    have hargs := mapM_eq_map f g amounts fun a ha => h a (List.mem_cons_of_mem _ ha)
    simp only [remapArgs, hargs, hsrc, Option.bind_eq_bind, Option.bind_some, mapCommand]
  | mergeCoins dst srcs =>
    have hdst := h dst (List.mem_cons_self ..)
    have hargs := mapM_eq_map f g srcs fun a ha => h a (List.mem_cons_of_mem _ ha)
    simp only [remapArgs, hargs, hdst, Option.bind_eq_bind, Option.bind_some, mapCommand]
  | publish modules deps => rfl
  | makeMoveVec ty args =>
    have hargs := mapM_eq_map f g args h
    simp only [remapArgs, hargs, Option.bind_eq_bind, Option.bind_some, mapCommand]
  | upgrade modules deps package ticket =>
    have hticket := h ticket (List.mem_singleton_self ticket)
    simp only [remapArgs, hticket, Option.bind_eq_bind, Option.bind_some, mapCommand]

theorem remapArgs_isSome_iff (f : SequenceArgument → Option SequenceArgument)
    (cmd : MoveSequenceCall) :
    (remapArgs f cmd).isSome = true ↔ ∀ arg ∈ commandArgs cmd, (f arg).isSome = true := by
  have hall : (remapArgs f cmd).isSome = true ↔ ((commandArgs cmd).mapM f).isSome = true := by
    cases cmd with
    | call call => cases h : call.arguments.mapM f <;> simp [remapArgs, commandArgs, h]
    | transferObjects args dst =>
      cases h : args.mapM f <;> cases hdst : f dst <;> simp [remapArgs, commandArgs, h, hdst]
    | splitCoins src amounts =>
      cases h : amounts.mapM f <;> cases hsrc : f src <;> simp [remapArgs, commandArgs, h, hsrc]
    | mergeCoins dst srcs =>
      cases h : srcs.mapM f <;> cases hdst : f dst <;> simp [remapArgs, commandArgs, h, hdst]
    | makeMoveVec ty args => cases h : args.mapM f <;> simp [remapArgs, commandArgs, h]
    | publish modules deps => simp [remapArgs, commandArgs]
    | upgrade modules deps package ticket =>
      cases h : f ticket <;> simp [remapArgs, commandArgs, h]
  rw [hall, mapM_isSome_iff]

theorem remapArgs_shape (f : SequenceArgument → Option SequenceArgument)
    (cmd cmd' : MoveSequenceCall) (h : remapArgs f cmd = some cmd') :
    ∃ g, cmd' = mapCommand g cmd ∧ ∀ arg ∈ commandArgs cmd, f arg = some (g arg) := by
  have hsome : ∀ arg ∈ commandArgs cmd, f arg = some ((f arg).getD arg) := by
    intro arg harg
    obtain ⟨a, ha⟩ := Option.isSome_iff_exists.mp
      ((remapArgs_isSome_iff f cmd).mp (by rw [h]; rfl) arg harg)
    rw [ha, Option.getD_some]
  exact ⟨_, Option.some.inj (h.symm.trans (remapArgs_eq f _ cmd hsome)), hsome⟩

theorem remapArgs_mapCommand (f : SequenceArgument → Option SequenceArgument)
    (g : SequenceArgument → SequenceArgument) (cmd : MoveSequenceCall) :
    remapArgs f (mapCommand g cmd) = remapArgs (f ∘ g) cmd := by
  cases cmd <;> simp [remapArgs, mapCommand, List.mapM_map, Function.comp_def]

theorem mapCommand_congr (f g : SequenceArgument → SequenceArgument) (cmd : MoveSequenceCall)
    (h : ∀ arg ∈ commandArgs cmd, f arg = g arg) : mapCommand f cmd = mapCommand g cmd := by
  have hf := remapArgs_eq (fun arg => some (f arg)) f cmd fun _ _ => rfl
  have hg := remapArgs_eq (fun arg => some (f arg)) g cmd fun arg harg => congrArg some (h arg harg)
  exact Option.some.inj (hf.symm.trans hg)

theorem mapCommand_id (cmd : MoveSequenceCall) : mapCommand id cmd = cmd := by
  cases cmd <;> simp [mapCommand]

theorem remapCommand_eq (mapping : List U16) (g : ℕ → ℕ) (cmd : MoveSequenceCall)
    (hmap : ∀ i, i < mapping.length → mapping[i]? = some (asU16 (g i)))
    (hrefs : ∀ arg ∈ commandArgs cmd, RefersBelow mapping.length arg) :
    remapCommand cmd mapping = some (renameCommand g cmd) := by
  apply remapArgs_eq
  intro arg harg
  have hbelow := hrefs arg harg
  cases arg with
  | gasCoin => rfl
  | input i => rfl
  | result i =>
    have hi := hmap i.val (hbelow i.val rfl)
    simp only [remapArg, hi, Option.map_some, renameArg]
  | nestedResult i j =>
    have hi := hmap i.val (hbelow i.val rfl)
    simp only [remapArg, hi, Option.map_some, renameArg]

/-! ### References at their new place -/

/- The argument of a command at `p` with the result it refers to at its new place;
`pos` says where the commands stood. -/
def Relocated (pos : List ℕ) (p : ℕ) (arg arg' : SequenceArgument) : Prop :=
  match argCommand arg with
  | none => arg' = arg
  | some i => ∃ q, q < p ∧ pos[q]? = some i ∧ argCommand arg' = some q ∧
      arg' = renameArg (fun _ => q) arg

theorem argCommand_renameArg (f : ℕ → ℕ) (arg : SequenceArgument) (i : ℕ)
    (h : argCommand arg = some i) (hle : f i ≤ i) : argCommand (renameArg f arg) = some (f i) := by
  have hfit : ∀ j : U16, f j.val ≤ j.val → (asU16 (f j.val)).val = f j.val := by
    intro j hj
    exact Nat.mod_eq_of_lt (Nat.lt_of_le_of_lt hj j.isLt)
  cases arg with
  | gasCoin => cases h
  | input j => cases h
  | result j => cases h; exact congrArg some (hfit j hle)
  | nestedResult j l => cases h; exact congrArg some (hfit j hle)

theorem renameArg_none (f : ℕ → ℕ) (arg : SequenceArgument) (h : argCommand arg = none) :
    renameArg f arg = arg := by
  cases arg with
  | gasCoin => rfl
  | input j => rfl
  | result j => cases h
  | nestedResult j l => cases h

theorem renameArg_at (f g : ℕ → ℕ) (arg : SequenceArgument) (i : ℕ) (h : argCommand arg = some i)
    (hfg : f i = g i) : renameArg f arg = renameArg g arg := by
  cases arg with
  | gasCoin => cases h
  | input j => cases h
  | result j => cases h; exact congrArg (fun n => SequenceArgument.result (asU16 n)) hfg
  | nestedResult j l => cases h; exact congrArg (fun n => SequenceArgument.nestedResult (asU16 n) l) hfg

theorem commandArgs_mapCommand (f : SequenceArgument → SequenceArgument) (cmd : MoveSequenceCall) :
    commandArgs (mapCommand f cmd) = (commandArgs cmd).map f := by
  cases cmd <;> simp [mapCommand, commandArgs]

theorem mapCommand_injOn (f g : SequenceArgument → SequenceArgument) (cmd : MoveSequenceCall)
    (h : mapCommand f cmd = mapCommand g cmd) : ∀ arg ∈ commandArgs cmd, f arg = g arg := by
  have hargs := congrArg commandArgs h
  rw [commandArgs_mapCommand, commandArgs_mapCommand] at hargs
  exact List.map_inj_left.mp hargs

end Movy.Fuzz
