import Mathlib.Data.Finset.Card
import Mathlib.Order.Basic

/-!
# Reading a collection page by page

A loop fetches one page after the other, each behind the cursor that the page
before ended with. The collection may change in the meantime. If every page is
an interval of what is there at its time, then the loop ends, lists nothing
twice and leaves out nothing that was there throughout.
-/

namespace Movy.Pages

variable {κ ε α : Type}

/-- A turn gives what the page adds and the cursor of the next page, if any. The
`t`-th request is answered at time `t`; `none` is a loop out of fuel. -/
def gather (fetch : ℕ → Option κ → Except ε (List α × Option κ)) :
    ℕ → ℕ → Option κ → Option (Except ε (List α))
  | 0, _, _ => none
  | fuel + 1, t, after => match fetch t after with
    | .error e => some (.error e)
    | .ok (out, none) => some (.ok out)
    | .ok (out, some c) => (gather fetch fuel (t + 1) (some c)).map fun r => r.map (out ++ ·)

section

variable [LinearOrder κ]

def Behind (after : Option κ) (k : κ) : Prop := ∀ a ∈ after, a < k

instance (after : Option κ) (k : κ) : Decidable (Behind after k) :=
  inferInstanceAs (Decidable (∀ a ∈ after, a < k))

/-- The page behind `after`, up to the next cursor if there is one. -/
structure Honest (present : Finset κ) (after : Option κ) (keys : List κ) (next : Option κ) :
    Prop where
  sorted : keys.Pairwise (· < ·)
  mem_iff : ∀ k, k ∈ keys ↔ k ∈ present ∧ Behind after k ∧ ∀ c ∈ next, k ≤ c
  advances : ∀ c ∈ next, Behind after c

theorem behind_trans (after : Option κ) (c k : κ) (hc : Behind after c) (hk : c < k) :
    Behind after k := fun a ha => (hc a ha).trans hk

/-- The cursors that may still come. -/
def ahead (cursors : Finset κ) (after : Option κ) : Finset κ := cursors.filter (Behind after)

theorem ahead_card_lt (cursors : Finset κ) (after : Option κ) (c : κ) (hc : c ∈ cursors)
    (hadvances : Behind after c) :
    (ahead cursors (some c)).card < (ahead cursors after).card := by
  apply Finset.card_lt_card
  refine Finset.ssubset_iff_subset_ne.mpr ⟨?_, ?_⟩
  · intro k hk
    obtain ⟨hmem, hbehind⟩ := Finset.mem_filter.mp hk
    exact Finset.mem_filter.mpr ⟨hmem, behind_trans after c k hadvances (hbehind c rfl)⟩
  · intro heq
    have hin : c ∈ ahead cursors (some c) := heq ▸ Finset.mem_filter.mpr ⟨hc, hadvances⟩
    exact lt_irrefl c ((Finset.mem_filter.mp hin).2 c rfl)

/-- What a loop has listed from a time and a cursor on: keys, each with the time at
which it was listed. -/
structure Listing (present : ℕ → Finset κ) (t : ℕ) (after : Option κ) (listed : List (ℕ × κ)) :
    Prop where
  sorted : (listed.map Prod.snd).Pairwise (· < ·)
  sound : ∀ p ∈ listed, t ≤ p.1 ∧ p.2 ∈ present p.1 ∧ Behind after p.2
  complete : ∀ k, Behind after k → (∀ s, t ≤ s → k ∈ present s) → k ∈ listed.map Prod.snd

theorem Listing.last (present : ℕ → Finset κ) (t : ℕ) (after : Option κ) (keys : List κ)
    (h : Honest (present t) after keys none) :
    Listing present t after (keys.map fun k => (t, k)) := by
  have hkeys : (keys.map fun k => (t, k)).map Prod.snd = keys := by simp
  refine ⟨hkeys.symm ▸ h.sorted, ?_, ?_⟩
  · intro p hp
    obtain ⟨k, hk, rfl⟩ := List.mem_map.mp hp
    obtain ⟨hpresent, hbehind, -⟩ := (h.mem_iff k).mp hk
    exact ⟨le_rfl, hpresent, hbehind⟩
  · intro k hbehind hpresent
    rw [hkeys]
    exact (h.mem_iff k).mpr ⟨hpresent t le_rfl, hbehind, fun c hc => (by cases hc)⟩

theorem Listing.cons (present : ℕ → Finset κ) (t : ℕ) (after : Option κ) (keys : List κ) (c : κ)
    (listed : List (ℕ × κ)) (h : Honest (present t) after keys (some c))
    (hrest : Listing present (t + 1) (some c) listed) :
    Listing present t after ((keys.map fun k => (t, k)) ++ listed) := by
  have hkeys : ((keys.map fun k => (t, k)) ++ listed).map Prod.snd =
      keys ++ listed.map Prod.snd := by simp
  refine ⟨?_, ?_, ?_⟩
  · rw [hkeys, List.pairwise_append]
    refine ⟨h.sorted, hrest.sorted, fun k hk k' hk' => ?_⟩
    obtain ⟨p, hp, rfl⟩ := List.mem_map.mp hk'
    exact lt_of_le_of_lt (((h.mem_iff k).mp hk).2.2 c rfl) ((hrest.sound p hp).2.2 c rfl)
  · intro p hp
    rcases List.mem_append.mp hp with hp | hp
    · obtain ⟨k, hk, rfl⟩ := List.mem_map.mp hp
      obtain ⟨hpresent, hbehind, -⟩ := (h.mem_iff k).mp hk
      exact ⟨le_rfl, hpresent, hbehind⟩
    · obtain ⟨ht, hpresent, hbehind⟩ := hrest.sound p hp
      exact ⟨by omega, hpresent, behind_trans after c p.2 (h.advances c rfl) (hbehind c rfl)⟩
  · intro k hbehind hpresent
    rw [hkeys]
    rcases le_or_gt k c with hle | hlt
    · refine List.mem_append_left _ ((h.mem_iff k).mpr ⟨hpresent t le_rfl, hbehind, ?_⟩)
      intro c' hc'
      cases hc'
      exact hle
    · refine List.mem_append_right _ (hrest.complete k ?_ fun s hs => hpresent s (by omega))
      intro c' hc'
      cases hc'
      exact hlt

/-- One page of a collection, with what each of its keys adds. -/
def Serves (present : Finset κ) (value : κ → Option α) (after : Option κ)
    (page : Except ε (List α × Option κ)) (cursors : Finset κ) : Prop :=
  ∃ keys next, page = .ok (keys.filterMap value, next) ∧ Honest present after keys next ∧
    ∀ c ∈ next, c ∈ cursors

theorem gather_lists (fetch : ℕ → Option κ → Except ε (List α × Option κ))
    (present : ℕ → Finset κ) (value : ℕ → κ → Option α) (cursors : Finset κ)
    (hserves : ∀ t after, Serves (present t) (value t) after (fetch t after) cursors)
    (fuel t : ℕ) (after : Option κ) (hfuel : (ahead cursors after).card < fuel) :
    ∃ listed, gather fetch fuel t after = some (.ok (listed.filterMap fun p => value p.1 p.2)) ∧
      Listing present t after listed := by
  induction fuel generalizing t after with
  | zero => omega
  | succ fuel ih =>
    obtain ⟨keys, next, hpage, hhonest, hcursor⟩ := hserves t after
    have hvalues : ((keys.map fun k => (t, k)).filterMap fun p => value p.1 p.2) =
        keys.filterMap (value t) := by rw [List.filterMap_map]; rfl
    rw [gather, hpage]
    cases next with
    | none =>
      refine ⟨keys.map fun k => (t, k), ?_, Listing.last present t after keys hhonest⟩
      rw [hvalues]
    | some c =>
      have hless := ahead_card_lt cursors after c (hcursor c rfl) (hhonest.advances c rfl)
      obtain ⟨listed, hrest, hlisting⟩ := ih (t + 1) (some c) (by omega)
      refine ⟨(keys.map fun k => (t, k)) ++ listed, ?_,
        Listing.cons present t after keys c listed hhonest hlisting⟩
      simp only [hrest, Option.map_some, Except.map, List.filterMap_append, hvalues]

end

end Movy.Pages
