import Mathlib.Data.List.Basic

/-!
# Reaching definitions

A path through numbered instructions goes on to the next one or jumps, and it
jumps to targets only. The definition that reaches its end is the last position
before the end that defines. If one is found textually before the end, with no
other behind it and no target in between, then every path comes through it.
-/

namespace Movy.Reaching

variable (next : ℕ → ℕ → Prop)

/-- The path from position 0, its last position in front. -/
inductive Path : ℕ → List ℕ → Prop where
  | start : Path 0 []
  | step (p q : ℕ) (earlier : List ℕ) : Path p earlier → next p q → Path q (p :: earlier)

/-- The last position before the end of the path that defines. -/
def reaching (isDef : ℕ → Bool) (earlier : List ℕ) : Option ℕ := earlier.find? isDef

theorem reaching_isDef (isDef : ℕ → Bool) (earlier : List ℕ) (d : ℕ)
    (h : reaching isDef earlier = some d) : isDef d = true := List.find?_some h

variable {next} (target : ℕ → Prop) (hnext : ∀ p q, next p q → q = p + 1 ∨ target q)

include hnext

theorem reaching_straight (isDef : ℕ → Bool) (d q : ℕ) (earlier : List ℕ) (hpath : Path next q earlier)
    (hlt : d < q) (hdef : isDef d = true) (hlast : ∀ k, d < k → k < q → isDef k = false)
    (hstraight : ∀ k, d < k → k ≤ q → ¬target k) : reaching isDef earlier = some d := by
  induction hpath with
  | start => exact absurd hlt (Nat.not_lt_zero d)
  | step p q earlier _ hstep ih =>
    -- the end is no target, so the path fell through from the position before
    obtain rfl := (hnext p q hstep).resolve_right (hstraight q hlt (Nat.le_refl q))
    rw [reaching, List.find?_cons]
    rcases Nat.lt_or_ge d p with hdp | hpd
    · rw [hlast p hdp (Nat.lt_succ_self p)]
      exact ih hdp (fun k hk hkp => hlast k hk (by omega)) fun k hk hkp => hstraight k hk (by omega)
    · obtain rfl : d = p := by omega
      rw [hdef]

end Movy.Reaching
