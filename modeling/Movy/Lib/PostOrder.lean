import Mathlib.Data.List.Nodup
import Mathlib.Data.List.Perm.Basic
import Mathlib.Logic.Relation

/-!
# Depth-first walks that list a node after its successors

A walk keeps the keys of the nodes it has entered and appends a node to a list when
it leaves it. If no node reaches its own key, every node of the list comes after
its successors.
-/

namespace Movy.PostOrder

variable {α κ : Type}

structure State (α κ : Type) where
  visited : List κ
  ordered : List α

variable (key : α → κ) (next : α → List α)

/-- The walk from the nodes of a list, one after the other. -/
inductive Walks : List α → State α κ → State α κ → Prop
  | done (st : State α κ) : Walks [] st st
  | skip (a : α) (rest : List α) (st st' : State α κ) (ha : key a ∈ st.visited)
      (hrest : Walks rest st st') : Walks (a :: rest) st st'
  | enter (a : α) (rest : List α) (st mid st' : State α κ) (ha : key a ∉ st.visited)
      (hbelow : Walks (next a) ⟨st.visited ++ [key a], st.ordered⟩ mid)
      (hrest : Walks rest ⟨mid.visited, mid.ordered ++ [a]⟩ st') : Walks (a :: rest) st st'

def Next (a b : α) : Prop := b ∈ next a

/-- No node that can be reached from `S` has the key of a node before it. -/
def AcyclicOn (S : α → Prop) : Prop :=
  ∀ a b, S a → Relation.TransGen (Next next) a b → key a ≠ key b

def Topological : List κ → List α → Prop
  | _, [] => True
  | seen, a :: rest => (∀ b ∈ next a, key b ∈ seen) ∧ Topological (seen ++ [key a]) rest

variable {key next}

namespace Walks

theorem deterministic {l : List α} {st st₁ st₂ : State α κ} (h₁ : Walks key next l st st₁)
    (h₂ : Walks key next l st st₂) : st₁ = st₂ := by
  induction h₁ generalizing st₂ with
  | done st =>
    cases h₂
    rfl
  | skip a rest st st' ha hrest ih =>
    cases h₂ with
    | skip _ _ _ _ _ hrest₂ => exact ih hrest₂
    | enter _ _ _ _ _ ha₂ _ _ => exact absurd ha ha₂
  | enter a rest st mid st' ha hbelow hrest ihb ihr =>
    cases h₂ with
    | skip _ _ _ _ ha₂ _ => exact absurd ha₂ ha
    | enter _ _ _ mid₂ _ _ hbelow₂ hrest₂ =>
      obtain rfl := ihb hbelow₂
      exact ihr hrest₂

/-- What a walk from `l` adds: nodes that `l` reaches, and their keys. -/
structure Adds (key : α → κ) (next : α → List α) (l : List α) (st st' : State α κ)
    (keys : List κ) (nodes : List α) : Prop where
  visited : st'.visited = st.visited ++ keys
  ordered : st'.ordered = st.ordered ++ nodes
  perm : keys.Perm (nodes.map key)
  reached : ∀ x ∈ nodes, ∃ a ∈ l, Relation.ReflTransGen (Next next) a x

theorem adds {l : List α} {st st' : State α κ} (h : Walks key next l st st') :
    ∃ keys nodes, Adds key next l st st' keys nodes := by
  induction h with
  | done st => exact ⟨[], [], by simp, by simp, List.Perm.nil, by simp⟩
  | skip a rest st st' ha hrest ih =>
    obtain ⟨keys, nodes, hr⟩ := ih
    refine ⟨keys, nodes, hr.visited, hr.ordered, hr.perm, fun x hx => ?_⟩
    obtain ⟨b, hb, hreach⟩ := hr.reached x hx
    exact ⟨b, List.mem_cons_of_mem a hb, hreach⟩
  | enter a rest st mid st' ha hbelow hrest ihb ihr =>
    obtain ⟨keys, nodes, hb⟩ := ihb
    obtain ⟨keys', nodes', hr⟩ := ihr
    refine ⟨key a :: (keys ++ keys'), nodes ++ a :: nodes', ?_, ?_, ?_, ?_⟩
    · rw [hr.visited, hb.visited]
      simp
    · rw [hr.ordered, hb.ordered]
      simp
    · rw [List.map_append, List.map_cons]
      refine List.Perm.trans ?_ List.perm_middle.symm
      exact (hb.perm.append hr.perm).cons (key a)
    · intro x hx
      rcases List.mem_append.mp hx with hx | hx
      · obtain ⟨b, hmem, hreach⟩ := hb.reached x hx
        exact ⟨a, List.mem_cons_self, Relation.ReflTransGen.head hmem hreach⟩
      · rcases List.mem_cons.mp hx with rfl | hx
        · exact ⟨x, List.mem_cons_self, Relation.ReflTransGen.refl⟩
        · obtain ⟨b, hmem, hreach⟩ := hr.reached x hx
          exact ⟨b, List.mem_cons_of_mem a hmem, hreach⟩

theorem mem_visited {l : List α} {st st' : State α κ} (h : Walks key next l st st') (k : κ)
    (hk : k ∈ st.visited) : k ∈ st'.visited := by
  obtain ⟨keys, nodes, hadds⟩ := h.adds
  rw [hadds.visited]
  exact List.mem_append_left keys hk

theorem visits {l : List α} {st st' : State α κ} (h : Walks key next l st st') :
    ∀ a ∈ l, key a ∈ st'.visited := by
  induction h with
  | done st => exact fun a ha => absurd ha List.not_mem_nil
  | skip a rest st st' ha hrest ih =>
    intro b hb
    rcases List.mem_cons.mp hb with rfl | hb
    · exact hrest.mem_visited (key b) ha
    · exact ih b hb
  | enter a rest st mid st' ha hbelow hrest ihb ihr =>
    intro b hb
    rcases List.mem_cons.mp hb with rfl | hb
    · refine hrest.mem_visited (key b) (hbelow.mem_visited (key b) ?_)
      exact List.mem_append_right _ (List.mem_singleton_self _)
    · exact ihr b hb

theorem nodup {l : List α} {st st' : State α κ} (h : Walks key next l st st')
    (hst : st.visited.Nodup) : st'.visited.Nodup := by
  induction h with
  | done st => exact hst
  | skip a rest st st' ha hrest ih => exact ih hst
  | enter a rest st mid st' ha hbelow hrest ihb ihr =>
    refine ihr (ihb ?_)
    exact List.nodup_append.mpr ⟨hst, List.nodup_singleton _, fun k hk k' hk' heq =>
      ha (List.mem_singleton.mp hk' ▸ heq ▸ hk)⟩

end Walks

theorem Walks.append {l l' : List α} {st mid st' : State α κ} (h : Walks key next l st mid)
    (h' : Walks key next l' mid st') : Walks key next (l ++ l') st st' := by
  induction h with
  | done st => exact h'
  | skip a rest st mid ha hrest ih => exact .skip a (rest ++ l') st st' ha (ih h')
  | enter a rest st below mid ha hbelow hrest ihb ihr =>
    exact .enter a (rest ++ l') st below st' ha hbelow (ihr h')

/-! ### What is left to enter -/

section

variable [DecidableEq κ]

def remaining (keys visited : List κ) : ℕ := (keys.filter fun k => !visited.contains k).length

theorem remaining_le (keys visited visited' : List κ) (h : ∀ k ∈ visited, k ∈ visited') :
    remaining keys visited' ≤ remaining keys visited := by
  refine (List.monotone_filter_right keys fun k hk => ?_).length_le
  simp only [Bool.not_eq_true', List.contains_eq_mem, decide_eq_false_iff_not] at hk ⊢
  exact fun hmem => hk (h k hmem)

theorem remaining_lt (keys visited : List κ) (k : κ) (hk : k ∈ keys) (hnew : k ∉ visited) :
    remaining keys (visited ++ [k]) < remaining keys visited := by
  obtain ⟨left, right, rfl⟩ := List.append_of_mem hk
  have hsub : ∀ x ∈ visited, x ∈ visited ++ [k] := fun x hx => List.mem_append_left [k] hx
  have hl := remaining_le left visited (visited ++ [k]) hsub
  have hr := remaining_le right visited (visited ++ [k]) hsub
  have hk : (visited ++ [k]).contains k = true := by simp
  have hk' : visited.contains k = false := by simpa using hnew
  simp only [remaining, List.filter_append, List.filter_cons, List.length_append, hk, hk',
    Bool.not_true, Bool.not_false, if_true, Bool.false_eq_true, if_false,
    List.length_cons] at hl hr ⊢
  omega

end

/-! ### Topological lists -/

theorem Topological.mono {seen seen' : List κ} {l : List α} (h : Topological key next seen l)
    (hsub : ∀ x ∈ l, ∀ b ∈ next x, key b ∈ seen → key b ∈ seen') :
    Topological key next seen' l := by
  induction l generalizing seen seen' with
  | nil => trivial
  | cons a l ih =>
    refine ⟨fun b hb => hsub a List.mem_cons_self b hb (h.1 b hb), ih h.2 fun x hx b hb hseen => ?_⟩
    rcases List.mem_append.mp hseen with hseen | hseen
    · exact List.mem_append_left _ (hsub x (List.mem_cons_of_mem a hx) b hb hseen)
    · exact List.mem_append_right _ hseen

theorem topological_append (seen : List κ) (l l' : List α) :
    Topological key next seen (l ++ l') ↔
      Topological key next seen l ∧ Topological key next (seen ++ l.map key) l' := by
  induction l generalizing seen with
  | nil => simp [Topological]
  | cons a l ih => simp [Topological, ih, and_assoc]

theorem Walks.topological {l : List α} {st st' : State α κ} (h : Walks key next l st st')
    (S : α → Prop) (hS : ∀ a b, S a → Next next a b → S b) (hacyclic : AcyclicOn key next S)
    (hl : ∀ a ∈ l, S a) :
    ∃ nodes, st'.ordered = st.ordered ++ nodes ∧ Topological key next st.visited nodes := by
  induction h with
  | done st => exact ⟨[], by simp, trivial⟩
  | skip a rest st st' ha hrest ih => exact ih fun b hb => hl b (List.mem_cons_of_mem a hb)
  | enter a rest st mid st' ha hbelow hrest ihb ihr =>
    have hSa := hl a List.mem_cons_self
    obtain ⟨keys, added, hadds⟩ := hbelow.adds
    obtain ⟨nodes, hnodes, htop⟩ := ihb fun b hb => hS a b hSa hb
    obtain ⟨nodes', hnodes', htop'⟩ := ihr fun b hb => hl b (List.mem_cons_of_mem a hb)
    obtain rfl : added = nodes := List.append_cancel_left (hadds.ordered.symm.trans hnodes)
    -- a node below `a` has no successor with the key of `a`
    have hbelow' : Topological key next st.visited added := by
      refine htop.mono fun x hx b hb hseen => ?_
      rcases List.mem_append.mp hseen with hseen | hseen
      · exact hseen
      · obtain ⟨c, hc, hreach⟩ := hadds.reached x hx
        have hab : Relation.TransGen (Next next) a b :=
          (Relation.TransGen.head' hc hreach).tail hb
        exact absurd (List.mem_singleton.mp hseen).symm (hacyclic a b hSa hab)
    refine ⟨added ++ a :: nodes', by rw [hnodes', hnodes]; simp, ?_⟩
    rw [topological_append]
    refine ⟨hbelow', fun b hb => ?_, ?_⟩
    · have hvis := hbelow.visits b hb
      rw [hadds.visited, List.append_assoc] at hvis
      rcases List.mem_append.mp hvis with hvis | hvis
      · exact List.mem_append_left _ hvis
      · rcases List.mem_append.mp hvis with hvis | hvis
        · exact absurd (List.mem_singleton.mp hvis).symm
            (hacyclic a b hSa (Relation.TransGen.single hb))
        · exact List.mem_append_right _ (hadds.perm.mem_iff.mp hvis)
    · refine htop'.mono fun x _ b _ hseen => ?_
      rw [hadds.visited] at hseen
      simp only [List.mem_append, List.mem_singleton] at hseen ⊢
      rcases hseen with (hseen | hseen) | hseen
      · exact Or.inl (Or.inl hseen)
      · exact Or.inr hseen
      · exact Or.inl (Or.inr (hadds.perm.mem_iff.mp hseen))

/-! ### A walk from one node -/

/-- Every node that `x` reaches stands before it. -/
def Sorted (next : α → List α) (l : List α) : Prop :=
  ∀ before x after, l = before ++ x :: after → ∀ d, Relation.TransGen (Next next) x d → d ∈ before

/-- In a topological list where a key stands for one node, all that a node reaches
comes before it. -/
theorem Topological.sorted {l : List α} (h : Topological key next [] l)
    (hkey : ∀ x ∈ l, ∀ b ∈ next x, ∀ y ∈ l, key b = key y → b = y) : Sorted next l := by
  have hnext : ∀ before x after, l = before ++ x :: after → ∀ b ∈ next x, b ∈ before := by
    intro before x after heq b hb
    rw [heq, topological_append] at h
    have hseen := h.2.1 b hb
    rw [List.nil_append] at hseen
    obtain ⟨y, hy, hyb⟩ := List.mem_map.mp hseen
    have hx : x ∈ l := by simp [heq]
    have hyl : y ∈ l := by simp [heq, hy]
    rw [hkey x hx b hb y hyl hyb.symm]
    exact hy
  intro before x after heq d hd
  induction hd using Relation.TransGen.head_induction_on generalizing before after with
  | single hxd => exact hnext before _ after heq d hxd
  | head hxb hbd ih =>
    obtain ⟨left, right, rfl⟩ := List.append_of_mem (hnext before _ after heq _ hxb)
    have hmem := ih left (right ++ _ :: after) (by simpa using heq)
    exact List.mem_append_left _ hmem

/-- The walk from one node lists what the node reaches, each once and the node last. -/
theorem Walks.from_root {a : α} {st : State α κ} (h : Walks key next [a] ⟨[], []⟩ st)
    (hacyclic : AcyclicOn key next fun x => Relation.ReflTransGen (Next next) a x) :
    (st.ordered.map key).Nodup ∧ st.ordered.getLast? = some a ∧
      (∀ x ∈ st.ordered, Relation.ReflTransGen (Next next) a x) ∧
      Topological key next [] st.ordered := by
  obtain ⟨keys, nodes, hadds⟩ := h.adds
  have hordered : st.ordered = nodes := by simpa using hadds.ordered
  have hnodup := h.nodup List.nodup_nil
  rw [hadds.visited, List.nil_append] at hnodup
  obtain ⟨nodes', hnodes', htop⟩ := h.topological _ (fun x y hx hxy => hx.tail hxy) hacyclic
    (fun x hx => List.mem_singleton.mp hx ▸ Relation.ReflTransGen.refl)
  refine ⟨hordered ▸ hadds.perm.nodup_iff.mp hnodup, ?_, fun x hx => ?_, ?_⟩
  · cases h with
    | skip _ _ _ _ ha _ => exact absurd ha List.not_mem_nil
    | enter _ _ _ mid _ _ _ hrest =>
      cases hrest
      simp
  · obtain ⟨b, hb, hreach⟩ := hadds.reached x (hordered ▸ hx)
    exact List.mem_singleton.mp hb ▸ hreach
  · rw [hnodes']
    exact htop

end Movy.PostOrder
