import Movy.Analysis.Numbering
import Movy.Lib.Fuel

/-!
# The exported call graph is closed

The calls are entered caller by caller. Each step fills in the calls of one
function and takes the next numbers for them; the contracts and functions stay
where they are.
-/

namespace Movy.Analysis.CallGraph

structure FunctionAt (graph : SortedMap ℕ Contract) (c i : ℕ) (contract : Contract)
    (function : Function) : Prop where
  found : graph.get? c = some contract
  there : contract.functions[i]? = some function

/-! ### The calls of one function -/

/- The call is exported with the numbers of both ends. -/
structure Entered (functionIds : SortedMap MoveFunctionKey ℕ) (callerId : ℕ) (pending : PendingCall)
    (call : FunctionCall) : Prop where
  fromId : call.fromId = callerId
  toId : functionIds.get? pending.callee = some call.toId
  description : call.description = pending.description

theorem addCall_run (functionIds : SortedMap MoveFunctionKey ℕ) (callerId : ℕ)
    (targets : List PendingCall) (next : ℕ) (calls : List FunctionCall)
    (h : ∀ p ∈ targets, (functionIds.get? p.callee).isSome) :
    ∃ entered, targets.foldlM (addCall functionIds callerId) (next, calls) =
        some (next + targets.length, calls ++ entered) ∧
      List.Forall₂ (Entered functionIds callerId) targets entered ∧
      ∀ (j : ℕ) (call : FunctionCall), entered[j]? = some call → call.id = next + j := by
  induction targets generalizing next calls with
  | nil => exact ⟨[], by simp, .nil, fun j call hj => by simp at hj⟩
  | cons p targets ih =>
    obtain ⟨calleeId, hid⟩ := Option.isSome_iff_exists.mp (h p List.mem_cons_self)
    obtain ⟨entered, hrun, hall, hids⟩ := ih (next + 1)
      (calls ++ [⟨next, callerId, calleeId, p.description⟩])
      fun q hq => h q (List.mem_cons_of_mem _ hq)
    refine ⟨⟨next, callerId, calleeId, p.description⟩ :: entered, ?_,
      .cons ⟨rfl, hid, rfl⟩ hall, fun j call hj => ?_⟩
    · have hstep : addCall functionIds callerId (next, calls) p =
          some (next + 1, calls ++ [⟨next, callerId, calleeId, p.description⟩]) := by
        rw [addCall, hid]
        rfl
      rw [List.foldlM_cons, hstep]
      refine hrun.trans ?_
      rw [List.append_assoc, List.length_cons, Nat.add_assoc, Nat.add_comm 1]
      rfl
    · cases j with
      | zero =>
        obtain rfl := Option.some.inj hj
        rfl
      | succ j =>
        have hnext := hids j call hj
        omega

/-! ### All calls -/

def bare (contract : Contract) : Contract :=
  { contract with functions := contract.functions.map fun f => { f with calls := [] } }

/- Where a function stands in the list of collected calls that are still to come, it has
no calls yet; otherwise it has its own. -/
structure Linked (s : Exporter) (rest : List (MoveFunctionKey × SortedMap PendingCall Unit))
    (next : ℕ) (graph : SortedMap ℕ Contract) : Prop where
  contracts : ∀ c, (graph.get? c).map bare = s.contracts.get? c
  waiting : ∀ c i contract function, FunctionAt graph c i contract function →
    (rawLookup (keyOf contract function) rest).isSome → function.calls = []
  calls : ∀ c i contract function, FunctionAt graph c i contract function →
    rawLookup (keyOf contract function) rest = none →
    List.Forall₂ (Entered s.functionIds function.id)
      (targetsOf ((s.pendingCalls.get? (keyOf contract function)).getD SortedMap.empty))
      function.calls
  used : ∀ c i contract function, FunctionAt graph c i contract function →
    ∀ (j : ℕ) (call : FunctionCall), function.calls[j]? = some call → call.id < next
  unique : ∀ c i contract function c' i' contract' function',
    FunctionAt graph c i contract function → FunctionAt graph c' i' contract' function' →
    ∀ (j j' : ℕ) (call call' : FunctionCall), function.calls[j]? = some call →
      function'.calls[j']? = some call' → call.id = call'.id → c = c' ∧ i = i' ∧ j = j'

section

variable {s : Exporter} {rest : List (MoveFunctionKey × SortedMap PendingCall Unit)} {next : ℕ}
  {graph : SortedMap ℕ Contract}

theorem Linked.functionAt (h : Linked s rest next graph) (c i : ℕ) (contract : Contract)
    (function : Function) (hat : FunctionAt graph c i contract function) :
    FunctionAt s.contracts c i (bare contract) { function with calls := [] } := by
  have hc := h.contracts c
  rw [hat.found, Option.map_some] at hc
  refine ⟨hc.symm, ?_⟩
  rw [bare, List.getElem?_map, hat.there, Option.map_some]

theorem Linked.located (h : Linked s rest next graph) (hnum : Numbered s) (c i : ℕ)
    (contract : Contract) (function : Function) (hat : FunctionAt graph c i contract function) :
    contract.id = c ∧ s.moduleIds.get? contract.name = some c ∧
      s.functionIds.get? (keyOf contract function) = some function.id ∧
      s.functionLocations.get? function.id = some (c, i) := by
  have hbare := h.functionAt c i contract function hat
  obtain ⟨hid, _, hmodule⟩ := hnum.contract c _ hbare.found
  obtain ⟨_, hkey, hloc, _⟩ := hnum.function c _ i _ hbare.found hbare.there
  exact ⟨hid, hmodule, hkey, hloc⟩

theorem Linked.numbered (h : Linked s rest next graph) (hnum : Numbered s)
    (key : MoveFunctionKey) (functionId : ℕ) (hid : s.functionIds.get? key = some functionId) :
    ∃ c i contract function, FunctionAt graph c i contract function ∧
      keyOf contract function = key ∧ function.id = functionId := by
  obtain ⟨c, contract', i, function', hc, hi, hkey, hfid⟩ := hnum.key key functionId hid
  have hsame := h.contracts c
  rw [hc] at hsame
  obtain ⟨contract, hcontract, rfl⟩ := Option.map_eq_some_iff.mp hsame
  rw [bare, List.getElem?_map] at hi
  obtain ⟨function, hfunction, rfl⟩ := Option.map_eq_some_iff.mp hi
  exact ⟨c, i, contract, function, ⟨hcontract, hfunction⟩, hkey, hfid⟩

theorem Linked.place_unique (h : Linked s rest next graph) (hnum : Numbered s)
    (c i : ℕ) (contract : Contract) (function : Function) (c' i' : ℕ) (contract' : Contract)
    (function' : Function) (hat : FunctionAt graph c i contract function)
    (hat' : FunctionAt graph c' i' contract' function') (hid : function.id = function'.id) :
    c = c' ∧ i = i' := by
  obtain ⟨_, _, _, hloc⟩ := h.located hnum c i contract function hat
  obtain ⟨_, _, _, hloc'⟩ := h.located hnum c' i' contract' function' hat'
  rw [hid, hloc'] at hloc
  exact ⟨(Prod.mk.inj (Option.some.inj hloc)).1.symm, (Prod.mk.inj (Option.some.inj hloc)).2.symm⟩

end

theorem linked_start (s : Exporter) (hnum : Numbered s) :
    Linked s s.pendingCalls.entries 1 s.contracts := by
  have hempty : ∀ c i contract function, FunctionAt s.contracts c i contract function →
      function.calls = [] := by
    intro c i contract function hat
    exact (hnum.function c contract i function hat.found hat.there).2.2.2
  have hnocall : ∀ c i contract function, FunctionAt s.contracts c i contract function →
      ∀ (j : ℕ) (call : FunctionCall), function.calls[j]? ≠ some call := by
    intro c i contract function hat j call hj
    rw [hempty c i contract function hat] at hj
    exact absurd hj (by simp)
  refine ⟨fun c => ?_, fun c i contract function hat _ => hempty c i contract function hat, ?_,
    fun c i contract function hat j call hj =>
      absurd hj (hnocall c i contract function hat j call),
    fun c i contract function _ _ _ _ hat _ j _ call _ hj =>
      absurd hj (hnocall c i contract function hat j call)⟩
  · cases hc : s.contracts.get? c with
    | none => rfl
    | some contract =>
      have hsame : contract.functions.map (fun f => { f with calls := [] }) =
          contract.functions := by
        refine List.ext_getElem? fun i => ?_
        rw [List.getElem?_map]
        cases hi : contract.functions[i]? with
        | none => rfl
        | some function =>
          have hcalls := hempty c i contract function ⟨hc, hi⟩
          simp only [Option.map_some, ← hcalls]
      rw [Option.map_some, bare, hsame]
  · intro c i contract function hat hnone
    have hget : s.pendingCalls.get? (keyOf contract function) = none := hnone
    rw [hget, hempty c i contract function hat]
    exact .nil

/- The graph with the calls of one function filled in. -/
def setCalls (graph : SortedMap ℕ Contract) (c i : ℕ) (contract : Contract) (function : Function)
    (calls : List FunctionCall) : SortedMap ℕ Contract :=
  graph.insert c { contract with
    functions := contract.functions.set i { function with calls := calls } }

theorem functionAt_setCalls (graph : SortedMap ℕ Contract) (c i : ℕ) (contract : Contract)
    (function : Function) (hat : FunctionAt graph c i contract function)
    (calls : List FunctionCall) (c' i' : ℕ) (contract' : Contract) (function' : Function)
    (hat' : FunctionAt (setCalls graph c i contract function calls) c' i' contract' function') :
    (c' = c ∧ i' = i ∧ keyOf contract' function' = keyOf contract function ∧
        function' = { function with calls := calls }) ∨
      (¬(c' = c ∧ i' = i) ∧ ∃ contract'', FunctionAt graph c' i' contract'' function' ∧
        keyOf contract'' function' = keyOf contract' function') := by
  have hfound := hat'.found
  rw [setCalls, SortedMap.get?_insert] at hfound
  split_ifs at hfound with hc
  · subst hc
    obtain rfl := Option.some.inj hfound
    have hthere := hat'.there
    have hlt : i < contract.functions.length := (List.getElem?_eq_some_iff.mp hat.there).1
    simp only [List.getElem?_set] at hthere
    split_ifs at hthere with hi
    · obtain rfl := Option.some.inj hthere
      exact Or.inl ⟨rfl, hi.symm, rfl, rfl⟩
    · exact Or.inr ⟨fun h => hi h.2.symm, contract, ⟨hat.found, hthere⟩, rfl⟩
  · exact Or.inr ⟨fun h => hc h.1, contract', ⟨hfound, hat'.there⟩, rfl⟩

theorem bare_set (contract : Contract) (i : ℕ) (function : Function)
    (h : contract.functions[i]? = some function) (calls : List FunctionCall) :
    bare { contract with functions := contract.functions.set i { function with calls := calls } } =
      bare contract := by
  have hsame : (contract.functions.set i { function with calls := calls }).map
      (fun f => { f with calls := [] }) =
        contract.functions.map fun f => { f with calls := [] } := by
    refine List.ext_getElem? fun j => ?_
    rw [List.getElem?_map, List.getElem?_map, List.getElem?_set]
    split_ifs with hij hlt
    · rw [← hij, h]
      rfl
    · exact absurd (List.getElem?_eq_some_iff.mp h).1 hlt
    · rfl
  rw [bare, bare, hsame]

theorem Linked.setCalls {s : Exporter} (hnum : Numbered s)
    (e : MoveFunctionKey × SortedMap PendingCall Unit)
    (rest : List (MoveFunctionKey × SortedMap PendingCall Unit))
    (hsorted : (e :: rest).Pairwise fun a b => a.1 < b.1)
    (hpending : s.pendingCalls.get? e.1 = some e.2) (next : ℕ) (graph : SortedMap ℕ Contract)
    (h : Linked s (e :: rest) next graph) (c i : ℕ) (contract : Contract) (function : Function)
    (hat : FunctionAt graph c i contract function) (hkey : keyOf contract function = e.1)
    (entered : List FunctionCall)
    (hall : List.Forall₂ (Entered s.functionIds function.id) (targetsOf e.2) entered)
    (hids : ∀ (j : ℕ) (call : FunctionCall), entered[j]? = some call → call.id = next + j) :
    Linked s rest (next + (targetsOf e.2).length)
      (CallGraph.setCalls graph c i contract function entered) := by
  have hlast : rawLookup e.1 rest = none :=
    lookup_eq_none rest e.1 (List.pairwise_cons.mp hsorted).1
  -- the key of a function at another place is another one
  have hother : ∀ c' i' contract' function', FunctionAt graph c' i' contract' function' →
      ¬(c' = c ∧ i' = i) → keyOf contract' function' ≠ e.1 := by
    intro c' i' contract' function' hat' hne heq
    obtain ⟨_, _, hid, _⟩ := h.located hnum c i contract function hat
    obtain ⟨_, _, hid', _⟩ := h.located hnum c' i' contract' function' hat'
    rw [hkey, ← heq, hid'] at hid
    exact hne (h.place_unique hnum c' i' contract' function' c i contract function hat' hat
      (Option.some.inj hid))
  have hcons : ∀ key, key ≠ e.1 → rawLookup key (e :: rest) = rawLookup key rest := by
    intro key hne
    rw [rawLookup, if_neg hne]
  have hlen : (targetsOf e.2).length = entered.length := hall.length_eq
  have hnew : ∀ (j : ℕ) (call : FunctionCall), entered[j]? = some call →
      next ≤ call.id ∧ call.id < next + (targetsOf e.2).length := by
    intro j call hj
    have hlt := (List.getElem?_eq_some_iff.mp hj).1
    have hid := hids j call hj
    omega
  refine ⟨fun c' => ?_, ?_, ?_, ?_, ?_⟩
  · rw [← h.contracts c', CallGraph.setCalls, SortedMap.get?_insert]
    split_ifs with hc
    · rw [hc, hat.found, Option.map_some, Option.map_some, bare_set contract i function hat.there]
    · rfl
  · intro c' i' contract' function' hat' hwaiting
    rcases functionAt_setCalls graph c i contract function hat entered c' i' contract' function' hat'
      with ⟨_, _, hsame, rfl⟩ | ⟨hne, contract'', hat'', hsame⟩
    · rw [hsame, hkey, hlast] at hwaiting
      exact absurd hwaiting (by simp)
    · refine h.waiting c' i' contract'' function' hat'' ?_
      rwa [hcons _ (hother c' i' contract'' function' hat'' hne), hsame]
  · intro c' i' contract' function' hat' hnone
    rcases functionAt_setCalls graph c i contract function hat entered c' i' contract' function' hat'
      with ⟨_, _, hsame, rfl⟩ | ⟨hne, contract'', hat'', hsame⟩
    · rw [hsame, hkey, hpending, Option.getD_some]
      exact hall
    · rw [← hsame] at hnone ⊢
      refine h.calls c' i' contract'' function' hat'' ?_
      rwa [hcons _ (hother c' i' contract'' function' hat'' hne)]
  · intro c' i' contract' function' hat' j call hj
    rcases functionAt_setCalls graph c i contract function hat entered c' i' contract' function' hat'
      with ⟨_, _, _, rfl⟩ | ⟨_, contract'', hat'', _⟩
    · exact (hnew j call hj).2
    · have hused := h.used c' i' contract'' function' hat'' j call hj
      omega
  · intro c₁ i₁ contract₁ function₁ c₂ i₂ contract₂ function₂ hat₁ hat₂ j₁ j₂ call₁ call₂ hj₁ hj₂ hid
    rcases functionAt_setCalls graph c i contract function hat entered c₁ i₁ contract₁ function₁ hat₁
      with ⟨rfl, rfl, _, rfl⟩ | ⟨_, contract₁', hat₁', _⟩ <;>
      rcases functionAt_setCalls graph _ _ contract function hat entered c₂ i₂ contract₂ function₂
        hat₂ with ⟨rfl, rfl, _, rfl⟩ | ⟨_, contract₂', hat₂', _⟩
    · have hid₁ := hids j₁ call₁ hj₁
      have hid₂ := hids j₂ call₂ hj₂
      exact ⟨rfl, rfl, by omega⟩
    · have hlow := (hnew j₁ call₁ hj₁).1
      have hused := h.used c₂ i₂ contract₂' function₂ hat₂' j₂ call₂ hj₂
      omega
    · have hlow := (hnew j₂ call₂ hj₂).1
      have hused := h.used c₁ i₁ contract₁' function₁ hat₁' j₁ call₁ hj₁
      omega
    · exact h.unique c₁ i₁ contract₁' function₁ c₂ i₂ contract₂' function₂ hat₁' hat₂' j₁ j₂ call₁
        call₂ hj₁ hj₂ hid

theorem Linked.step {s : Exporter} (hnum : Numbered s) (hres : Resolved s)
    (e : MoveFunctionKey × SortedMap PendingCall Unit)
    (rest : List (MoveFunctionKey × SortedMap PendingCall Unit))
    (hsorted : (e :: rest).Pairwise fun a b => a.1 < b.1)
    (hpending : s.pendingCalls.get? e.1 = some e.2) (next : ℕ) (graph : SortedMap ℕ Contract)
    (h : Linked s (e :: rest) next graph) :
    ∃ next' graph', addCalls s (next, graph) e = some (next', graph') ∧
      Linked s rest next' graph' := by
  obtain ⟨callerId, hcaller⟩ := Option.isSome_iff_exists.mp (hnum.pending e.1 e.2 hpending)
  obtain ⟨c, i, contract, function, hat, hkey, rfl⟩ := h.numbered hnum e.1 callerId hcaller
  obtain ⟨_, _, _, hloc⟩ := h.located hnum c i contract function hat
  have hnocalls : function.calls = [] := by
    refine h.waiting c i contract function hat ?_
    rw [hkey, rawLookup, if_pos rfl]
    rfl
  obtain ⟨entered, hrun, hall, hids⟩ := addCall_run s.functionIds function.id (targetsOf e.2) next
    function.calls (hres e.1 e.2 hpending)
  rw [hnocalls, List.nil_append] at hrun
  refine ⟨next + (targetsOf e.2).length, CallGraph.setCalls graph c i contract function entered, ?_,
    h.setCalls hnum e rest hsorted hpending next graph c i contract function hat hkey entered hall
      hids⟩
  simp only [addCalls, hcaller, hloc, hat.found, hat.there, hnocalls, hrun, CallGraph.setCalls,
    Option.bind_eq_bind, Option.bind_some]

theorem linked_run {s : Exporter} (hnum : Numbered s) (hres : Resolved s)
    (rest : List (MoveFunctionKey × SortedMap PendingCall Unit))
    (hsorted : rest.Pairwise fun a b => a.1 < b.1)
    (hpending : ∀ e ∈ rest, s.pendingCalls.get? e.1 = some e.2) (next : ℕ)
    (graph : SortedMap ℕ Contract) (h : Linked s rest next graph) :
    ∃ next' graph', rest.foldlM (addCalls s) (next, graph) = some (next', graph') ∧
      Linked s [] next' graph' := by
  induction rest generalizing next graph with
  | nil => exact ⟨next, graph, rfl, h⟩
  | cons e rest ih =>
    obtain ⟨next₁, graph₁, hstep, hlinked⟩ := Linked.step hnum hres e rest hsorted
      (hpending e List.mem_cons_self) next graph h
    obtain ⟨next₂, graph₂, hrun, hdone⟩ := ih (List.pairwise_cons.mp hsorted).2
      (fun e he => hpending e (List.mem_cons_of_mem _ he)) next₁ graph₁ hlinked
    exact ⟨next₂, graph₂, by rw [List.foldlM_cons, hstep]; exact hrun, hdone⟩

/-! ### The exported graph -/

/- A function of that key has the number. -/
def HasId (graph : SortedMap ℕ Contract) (key : MoveFunctionKey) (functionId : ℕ) : Prop :=
  ∃ c i contract function, FunctionAt graph c i contract function ∧
    keyOf contract function = key ∧ function.id = functionId

/- The numbers of contracts, functions and calls are unique, no name stands for two
contracts or functions, and both ends of a call are functions of the graph. -/
structure Closed (graph : SortedMap ℕ Contract) : Prop where
  contractIds : ∀ c contract, graph.get? c = some contract → contract.id = c
  contractNames : ∀ c contract c' contract', graph.get? c = some contract →
    graph.get? c' = some contract' → contract.name = contract'.name → c = c'
  functionIds : ∀ c i contract function c' i' contract' function',
    FunctionAt graph c i contract function → FunctionAt graph c' i' contract' function' →
    function.id = function'.id → c = c' ∧ i = i'
  functionKeys : ∀ c i contract function c' i' contract' function',
    FunctionAt graph c i contract function → FunctionAt graph c' i' contract' function' →
    keyOf contract function = keyOf contract' function' → c = c' ∧ i = i'
  callIds : ∀ c i contract function c' i' contract' function',
    FunctionAt graph c i contract function → FunctionAt graph c' i' contract' function' →
    ∀ (j j' : ℕ) (call call' : FunctionCall), function.calls[j]? = some call →
      function'.calls[j']? = some call' → call.id = call'.id → c = c' ∧ i = i' ∧ j = j'
  ends : ∀ c i contract function, FunctionAt graph c i contract function →
    ∀ call ∈ function.calls, call.fromId = function.id ∧ ∃ key, HasId graph key call.toId

/- The calls of the function are exported: one for each callee with its parameters and
type arguments, as they are rendered. -/
def ExportsCalls (graph : SortedMap ℕ Contract) (moduleId : String) (f : FunctionDef) : Prop :=
  ∃ c i contract function targets, FunctionAt graph c i contract function ∧
    keyOf contract function = ⟨moduleId, f.abi.name⟩ ∧ targets.Nodup ∧
    (∀ p, p ∈ targets ↔ ∃ call ∈ f.calls, pendingCall call = p) ∧
    List.Forall₂ (fun (p : PendingCall) (call : FunctionCall) => call.fromId = function.id ∧
      HasId graph p.callee call.toId ∧ call.description = p.description) targets function.calls

theorem get?_addPending (targets : SortedMap PendingCall Unit) (calls : List MoveFunctionCall)
    (p : PendingCall) : ((addPending targets calls).get? p).isSome ↔
      (targets.get? p).isSome ∨ ∃ call ∈ calls, pendingCall call = p := by
  induction calls generalizing targets with
  | nil => simp [addPending]
  | cons call calls ih =>
    have hcons : addPending targets (call :: calls) =
        addPending (targets.insert (pendingCall call) ()) calls := rfl
    rw [hcons, ih, SortedMap.get?_insert]
    by_cases hp : p = pendingCall call
    · simp [hp]
    · simp [hp, Ne.symm hp]

theorem mem_targetsOf (targets : SortedMap PendingCall Unit) (p : PendingCall) :
    p ∈ targetsOf targets ↔ (targets.get? p).isSome := by
  simp only [targetsOf, List.mem_map, Prod.exists, exists_and_right, exists_eq_right]
  rw [Option.isSome_iff_exists]
  simp only [SortedMap.mem_entries]

theorem targetsOf_nodup (targets : SortedMap PendingCall Unit) : (targetsOf targets).Nodup :=
  List.pairwise_map.mpr (targets.sorted.imp fun hlt => ne_of_lt hlt)

theorem Linked.closed {s : Exporter} (hnum : Numbered s) (next : ℕ) (graph : SortedMap ℕ Contract)
    (h : Linked s [] next graph) : Closed graph where
  contractIds c contract hc := by
    have hbare := h.contracts c
    rw [hc, Option.map_some] at hbare
    exact (hnum.contract c _ hbare.symm).1
  contractNames c contract c' contract' hc hc' hname := by
    have hbare := h.contracts c
    have hbare' := h.contracts c'
    rw [hc, Option.map_some] at hbare
    rw [hc', Option.map_some] at hbare'
    obtain ⟨_, _, hmodule⟩ := hnum.contract c _ hbare.symm
    obtain ⟨_, _, hmodule'⟩ := hnum.contract c' _ hbare'.symm
    have hsame : (bare contract).name = (bare contract').name := hname
    rw [hsame, hmodule'] at hmodule
    exact (Option.some.inj hmodule).symm
  functionIds c i contract function c' i' contract' function' hat hat' hid :=
    h.place_unique hnum c i contract function c' i' contract' function' hat hat' hid
  functionKeys c i contract function c' i' contract' function' hat hat' hkey := by
    obtain ⟨_, _, hid, _⟩ := h.located hnum c i contract function hat
    obtain ⟨_, _, hid', _⟩ := h.located hnum c' i' contract' function' hat'
    rw [hkey, hid'] at hid
    exact h.place_unique hnum c i contract function c' i' contract' function' hat hat'
      (Option.some.inj hid).symm
  callIds := h.unique
  ends c i contract function hat call hcall := by
    have hentered := h.calls c i contract function hat rfl
    obtain ⟨j, hj⟩ := List.getElem?_of_mem hcall
    obtain ⟨hlen, hall⟩ := (forall₂_iff_getElem? _ _ _).mp hentered
    have hlt := (List.getElem?_eq_some_iff.mp hj).1
    have hp := hall j _ call (List.getElem?_eq_getElem (hlen ▸ hlt)) hj
    exact ⟨hp.fromId, _, h.numbered hnum _ _ hp.toId⟩

theorem Linked.exportsCalls {s : Exporter} (hnum : Numbered s) (next : ℕ)
    (graph : SortedMap ℕ Contract) (h : Linked s [] next graph) (moduleId : String)
    (f : FunctionDef) (hpending : s.pendingCalls.get? ⟨moduleId, f.abi.name⟩ =
      some (addPending SortedMap.empty f.calls)) : ExportsCalls graph moduleId f := by
  obtain ⟨callerId, hcaller⟩ := Option.isSome_iff_exists.mp (hnum.pending _ _ hpending)
  obtain ⟨c, i, contract, function, hat, hkey, _⟩ := h.numbered hnum _ callerId hcaller
  have hentered := h.calls c i contract function hat rfl
  rw [hkey, hpending, Option.getD_some] at hentered
  refine ⟨c, i, contract, function, _, hat, hkey, targetsOf_nodup _, fun p => ?_,
    hentered.imp fun p call hp =>
      ⟨hp.fromId, h.numbered hnum _ _ hp.toId, hp.description⟩⟩
  rw [mem_targetsOf, get?_addPending]
  simp

/- The call graph is closed, and the calls of every analysed module are exported. A
function that is not of one has no calls. -/
theorem loadCallGraph_closed (modules : List CompiledModule) :
    ∃ graph, loadCallGraph modules = some graph ∧ Closed graph ∧
      (∀ m ∈ analysed [] modules,
        (∃ c contract, graph.get? c = some contract ∧ contract.name = m.id) ∧
        ∀ f ∈ m.functions, ExportsCalls graph m.id f) ∧
      ∀ c i contract function, FunctionAt graph c i contract function → function.calls ≠ [] →
        ∃ m ∈ analysed [] modules, ∃ f ∈ m.functions,
          keyOf contract function = ⟨m.id, f.abi.name⟩ := by
  obtain ⟨seen, hwalked, _, hseen⟩ := exportModules_walked modules Exporter.new [] [] walked_new
  rw [List.nil_append] at hwalked
  obtain ⟨s, hs, hnum, hgrows, hres⟩ := hwalked.numbered.resolved
  obtain ⟨next, graph, hrun, hlinked⟩ := linked_run hnum hres s.pendingCalls.entries
    s.pendingCalls.sorted (fun e he => (SortedMap.mem_entries _ _ _).mp he) 1 s.contracts
    (linked_start s hnum)
  have hdeclared : ∀ key targets, s.pendingCalls.get? key = some targets ↔
      ∃ m ∈ analysed [] modules, ∃ f ∈ m.functions,
        (⟨m.id, f.abi.name⟩ : MoveFunctionKey) = key ∧
          addPending SortedMap.empty f.calls = targets := by
    intro key targets
    rw [hgrows.pendingCalls, hwalked.declared key targets]
    constructor
    · rintro ⟨d, hd, hkey⟩
      obtain ⟨m, hm, hdm⟩ := List.mem_flatMap.mp hd
      obtain ⟨f, hf, rfl⟩ := List.mem_map.mp hdm
      exact ⟨m, hm, f, hf, hkey⟩
    · rintro ⟨m, hm, f, hf, hkey⟩
      exact ⟨(m.id, f), List.mem_flatMap.mpr ⟨m, hm, List.mem_map.mpr ⟨f, hf, rfl⟩⟩, hkey⟩
  refine ⟨graph, ?_, hlinked.closed hnum next graph, fun m hm => ⟨?_, fun f hf => ?_⟩, ?_⟩
  · simp only [loadCallGraph, hs, hrun, Option.bind_eq_bind, Option.bind_some]
  · obtain ⟨c, hc⟩ := Option.isSome_iff_exists.mp ((hwalked.moduleIds m.id).mpr (hseen m hm))
    obtain ⟨contract', hcontract', hname⟩ := hnum.module m.id c (hgrows.moduleIds m.id c hc)
    have hbare := hlinked.contracts c
    rw [hcontract'] at hbare
    obtain ⟨contract, hcontract, rfl⟩ := Option.map_eq_some_iff.mp hbare
    exact ⟨c, contract, hcontract, hname⟩
  · exact hlinked.exportsCalls hnum next graph m.id f
      ((hdeclared _ _).mpr ⟨m, hm, f, hf, rfl, rfl⟩)
  · intro c i contract function hat hcalls
    have hentered := hlinked.calls c i contract function hat rfl
    cases hp : s.pendingCalls.get? (keyOf contract function) with
    | none =>
      rw [hp] at hentered
      exact absurd (List.forall₂_nil_left_iff.mp hentered) hcalls
    | some targets =>
      obtain ⟨m, hm, f, hf, hkey, _⟩ := (hdeclared _ _).mp hp
      exact ⟨m, hm, f, hf, hkey.symm⟩

end Movy.Analysis.CallGraph
