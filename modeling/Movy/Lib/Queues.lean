import Mathlib.Data.List.Basic
import Mathlib.Logic.Function.Basic

/-!
# Queues by key

There is a queue for every key. Requests are served in order, each with the head of
the queue of its key; a request may also ask for nothing. The `k`-th request for a
key gets the `k`-th member of its queue.
-/

namespace Movy

variable {κ α : Type} [DecidableEq κ]

def popQueue (queues : κ → List α) (k : κ) : κ → List α :=
  Function.update queues k (queues k).tail

/-- What every request is served with. -/
def serve : (κ → List α) → List (Option κ) → List (Option α)
  | _, [] => []
  | queues, none :: rest => none :: serve queues rest
  | queues, some k :: rest => (queues k).head? :: serve (popQueue queues k) rest

def requestsBefore (requests : List (Option κ)) (i : ℕ) (k : κ) : ℕ :=
  (requests.take i).count (some k)

theorem popQueue_empty (queues : κ → List α) (k : κ) (h : (queues k).head? = none) :
    popQueue queues k = queues := by
  have hempty : queues k = [] := List.head?_eq_none_iff.mp h
  rw [popQueue, hempty, List.tail_nil, ← hempty, Function.update_eq_self]

theorem serve_idle (queues : κ → List α) (r : Option κ) (rest : List (Option κ))
    (h : ∀ k, r = some k → queues k = []) :
    serve queues (r :: rest) = none :: serve queues rest := by
  cases r with
  | none => rfl
  | some k =>
    have hhead : (queues k).head? = none := List.head?_eq_none_iff.mpr (h k rfl)
    rw [serve, hhead, popQueue_empty queues k hhead]

theorem getElem?_popQueue (queues : κ → List α) (k j : κ) (n : ℕ) :
    (popQueue queues k j)[n]? = (queues j)[n + if j = k then 1 else 0]? := by
  unfold popQueue
  by_cases hj : j = k
  · subst hj
    rw [Function.update_self, if_pos rfl, List.getElem?_tail]
  · rw [Function.update_of_ne hj, if_neg hj, Nat.add_zero]

/-- Requests for a key are served in the order of its queue. -/
theorem getElem?_serve (queues : κ → List α) (requests : List (Option κ)) (i : ℕ) :
    (serve queues requests)[i]? = requests[i]?.map fun r =>
      r.bind fun k => (queues k)[requestsBefore requests i k]? := by
  induction requests generalizing queues i with
  | nil => rfl
  | cons r rest ih =>
    cases i with
    | zero =>
      cases r with
      | none => rfl
      | some k => simp [serve, requestsBefore, List.head?_eq_getElem?]
    | succ i =>
      cases r with
      | none =>
        rw [serve, List.getElem?_cons_succ, List.getElem?_cons_succ, ih]
        simp [requestsBefore]
      | some k =>
        rw [serve, List.getElem?_cons_succ, List.getElem?_cons_succ, ih]
        congr 1
        funext r
        congr 1
        funext j
        rw [getElem?_popQueue, requestsBefore, requestsBefore, List.take_succ_cons,
          List.count_cons]
        simp only [beq_iff_eq, Option.some.injEq, @eq_comm κ j k]

end Movy
