import Movy.Lib.SortedMap

/-!
# Graphs with an index of their nodes

Nodes are added by name, once each, and edges between the positions they were given.
By names, a graph is the list of its edges in the order in which they were added.
-/

namespace Movy

structure IndexedEdge (ε : Type) where
  source : ℕ
  target : ℕ
  weight : ε

/-- The map says where a node is. -/
structure IndexedGraph (ν ε : Type) [LinearOrder ν] where
  nodes : List ν
  edges : List (IndexedEdge ε)
  index : SortedMap ν ℕ

namespace IndexedGraph

variable {ν ε : Type} [LinearOrder ν]

def empty : IndexedGraph ν ε := ⟨[], [], SortedMap.empty⟩

def mayAdd (g : IndexedGraph ν ε) (n : ν) : ℕ × IndexedGraph ν ε :=
  match g.index.get? n with
  | some i => (i, g)
  | none => (g.nodes.length,
      { g with nodes := g.nodes ++ [n], index := g.index.insert n g.nodes.length })

def addEdge (g : IndexedGraph ν ε) (source target : ℕ) (weight : ε) : IndexedGraph ν ε :=
  { g with edges := g.edges ++ [⟨source, target, weight⟩] }

def link (source : ℕ) (g : IndexedGraph ν ε) (e : ν × ε) : IndexedGraph ν ε :=
  (g.mayAdd e.1).2.addEdge source (g.mayAdd e.1).1 e.2

def addRow (g : IndexedGraph ν ε) (row : ν × List (ν × ε)) : IndexedGraph ν ε :=
  row.2.foldl (link (g.mayAdd row.1).1) (g.mayAdd row.1).2

/-! ### By names -/

def nameEdge (nodes : List ν) (e : IndexedEdge ε) : Option (ν × ν × ε) :=
  (nodes[e.source]?).bind fun s => (nodes[e.target]?).map fun t => (s, t, e.weight)

def named (g : IndexedGraph ν ε) : List (ν × ν × ε) := g.edges.filterMap (nameEdge g.nodes)

/-- Every node is found where it is, and edges are between nodes. -/
structure Indexed (g : IndexedGraph ν ε) : Prop where
  found : ∀ n i, g.index.get? n = some i ↔ g.nodes[i]? = some n
  source : ∀ e ∈ g.edges, e.source < g.nodes.length
  target : ∀ e ∈ g.edges, e.target < g.nodes.length

/-- The nodes of `g` where they were, the edges of `g` and then the edges of `l`. -/
structure Extends (g g' : IndexedGraph ν ε) (nodes : List ν) (l : List (ν × ν × ε)) : Prop where
  indexed : g'.Indexed
  kept : ∀ (i : ℕ) n, g.nodes[i]? = some n → g'.nodes[i]? = some n
  members : ∀ n, n ∈ g'.nodes ↔ n ∈ g.nodes ∨ n ∈ nodes
  edges : g'.named = g.named ++ l

theorem indexed_empty : (empty : IndexedGraph ν ε).Indexed :=
  ⟨fun n i => by simp [empty], fun _ h => absurd h List.not_mem_nil,
    fun _ h => absurd h List.not_mem_nil⟩

theorem Extends.refl {g : IndexedGraph ν ε} (h : g.Indexed) : Extends g g [] [] :=
  ⟨h, fun _ _ h => h, fun _ => by simp, (List.append_nil _).symm⟩

theorem Extends.trans {g g' g'' : IndexedGraph ν ε} {ns ns' : List ν} {l l' : List (ν × ν × ε)}
    (h : Extends g g' ns l) (h' : Extends g' g'' ns' l') : Extends g g'' (ns ++ ns') (l ++ l') := by
  refine ⟨h'.indexed, fun i n hi => h'.kept i n (h.kept i n hi), fun n => ?_, ?_⟩
  · rw [h'.members, h.members, List.mem_append, or_assoc]
  · rw [h'.edges, h.edges, List.append_assoc]

/-- Edges between old nodes keep their names when nodes are added. -/
theorem Indexed.named_append {g : IndexedGraph ν ε} (h : g.Indexed) (ns : List ν) :
    g.edges.filterMap (nameEdge (g.nodes ++ ns)) = g.named := by
  refine List.filterMap_congr fun e he => ?_
  rw [nameEdge, nameEdge, List.getElem?_append_left (h.source e he),
    List.getElem?_append_left (h.target e he)]

theorem extends_mayAdd {g : IndexedGraph ν ε} (h : g.Indexed) (n : ν) :
    Extends g (g.mayAdd n).2 [n] [] ∧ (g.mayAdd n).2.nodes[(g.mayAdd n).1]? = some n := by
  unfold mayAdd
  cases hn : g.index.get? n with
  | some i =>
    have hi := (h.found n i).mp hn
    refine ⟨⟨h, fun _ _ h => h, fun m => ?_, (List.append_nil _).symm⟩, hi⟩
    have hmem := List.mem_of_getElem? hi
    simp only [List.mem_singleton]
    exact ⟨.inl, fun hm => hm.elim id fun heq => heq ▸ hmem⟩
  | none =>
    have hnew : n ∉ g.nodes := by
      intro hmem
      obtain ⟨i, hi⟩ := List.mem_iff_getElem?.mp hmem
      rw [(h.found n i).mpr hi] at hn
      cases hn
    refine ⟨⟨⟨fun m i => ?_, fun e he => ?_, fun e he => ?_⟩, fun i m hi => ?_, fun m => ?_, ?_⟩,
      List.getElem?_concat_length⟩
    · rw [SortedMap.get?_insert, List.getElem?_append]
      by_cases hm : m = n
      · subst hm
        simp only [if_true, Option.some.injEq]
        split_ifs with hlt
        · constructor
          · intro heq
            exact absurd hlt (heq ▸ lt_irrefl _)
          · intro hi
            exact absurd (List.mem_of_getElem? hi) hnew
        · constructor
          · intro heq
            rw [← heq, Nat.sub_self]
            rfl
          · intro hi
            have hzero : i - g.nodes.length = 0 := by
              by_contra hne
              rw [List.getElem?_singleton, if_neg hne] at hi
              cases hi
            omega
      · rw [if_neg hm, h.found]
        split_ifs with hlt
        · rfl
        · constructor
          · intro hi
            obtain ⟨hlt', -⟩ := List.getElem?_eq_some_iff.mp hi
            exact absurd hlt' hlt
          · intro hi
            exact absurd (List.mem_singleton.mp (List.mem_of_getElem? hi)) hm
    · have := h.source e he
      rw [List.length_append]
      omega
    · have := h.target e he
      rw [List.length_append]
      omega
    · obtain ⟨hlt, -⟩ := List.getElem?_eq_some_iff.mp hi
      rw [List.getElem?_append_left hlt]
      exact hi
    · rw [List.mem_append]
    · rw [List.append_nil]
      exact h.named_append [n]

theorem extends_link {g : IndexedGraph ν ε} (h : g.Indexed) (source : ℕ) (s : ν)
    (hs : g.nodes[source]? = some s) (e : ν × ε) :
    Extends g (link source g e) [e.1] [(s, e.1, e.2)] := by
  obtain ⟨hadd, htarget⟩ := extends_mayAdd h e.1
  have hsource := hadd.kept source s hs
  obtain ⟨hslt, -⟩ := List.getElem?_eq_some_iff.mp hsource
  obtain ⟨htlt, -⟩ := List.getElem?_eq_some_iff.mp htarget
  refine ⟨⟨hadd.indexed.found, fun e' he' => ?_, fun e' he' => ?_⟩, hadd.kept, hadd.members, ?_⟩
  · rcases List.mem_append.mp he' with he' | he'
    · exact hadd.indexed.source e' he'
    · rw [List.mem_singleton.mp he']
      exact hslt
  · rcases List.mem_append.mp he' with he' | he'
    · exact hadd.indexed.target e' he'
    · rw [List.mem_singleton.mp he']
      exact htlt
  · have hedges := hadd.edges
    rw [List.append_nil] at hedges
    rw [← hedges, named, named, link, addEdge, List.filterMap_append]
    congr 1
    simp only [List.filterMap_cons, List.filterMap_nil, nameEdge, hsource, htarget,
      Option.bind_some, Option.map_some]

theorem extends_links {g : IndexedGraph ν ε} (h : g.Indexed) (source : ℕ) (s : ν)
    (hs : g.nodes[source]? = some s) (es : List (ν × ε)) :
    Extends g (es.foldl (link source) g) (es.map Prod.fst) (es.map fun e => (s, e.1, e.2)) := by
  induction es generalizing g with
  | nil => exact .refl h
  | cons e rest ih =>
    have hlink := extends_link h source s hs e
    exact hlink.trans (ih hlink.indexed (hlink.kept source s hs))

theorem extends_addRow {g : IndexedGraph ν ε} (h : g.Indexed) (row : ν × List (ν × ε)) :
    Extends g (g.addRow row) (row.1 :: row.2.map Prod.fst)
      (row.2.map fun e => (row.1, e.1, e.2)) := by
  obtain ⟨hadd, hat⟩ := extends_mayAdd h row.1
  exact hadd.trans (extends_links hadd.indexed _ row.1 hat row.2)

theorem extends_addRows {g : IndexedGraph ν ε} (h : g.Indexed) (rows : List (ν × List (ν × ε))) :
    Extends g (rows.foldl addRow g) (rows.flatMap fun row => row.1 :: row.2.map Prod.fst)
      (rows.flatMap fun row => row.2.map fun e => (row.1, e.1, e.2)) := by
  induction rows generalizing g with
  | nil => exact .refl h
  | cons row rest ih =>
    have hrow := extends_addRow h row
    exact hrow.trans (ih hrow.indexed)

end IndexedGraph

end Movy
