import Mathlib.Data.List.Perm.Subperm
import Mathlib.Order.Lattice

/-!
# Dropping the smallest

A list that is sorted by a measure is cut to a given length by dropping elements from its front.
What is dropped is not above what is kept, and an element with enough others below it is kept,
however the list was sorted.
-/

namespace Pruning

variable {α τ : Type*} [LinearOrder τ] {f : α → τ} {l : List α} {a b : α} {n : ℕ}

theorem length_kept_le (n : ℕ) (l : List α) : (l.drop (l.length - n)).length ≤ n := by
  rw [List.length_drop]
  omega

theorem dropped_le_kept (hsorted : l.Pairwise fun a b => f a ≤ f b) (ha : a ∈ l.take n)
    (hb : b ∈ l.drop n) : f a ≤ f b := by
  rw [← List.take_append_drop n l] at hsorted
  exact (List.pairwise_append.1 hsorted).2.2 a ha b hb

/-- The elements below a dropped one are dropped too, so there are not many of them. -/
theorem countP_lt_of_dropped (hsorted : l.Pairwise fun a b => f a ≤ f b) (ha : a ∈ l.take n) :
    l.countP (fun b => f b < f a) < n := by
  have hkept : (l.drop n).countP (fun b => f b < f a) = 0 := by
    rw [List.countP_eq_zero]
    intro b hb
    simpa using dropped_le_kept hsorted ha hb
  have hdropped : (l.take n).countP (fun b => f b < f a) < (l.take n).length := by
    refine Nat.lt_of_le_of_ne List.countP_le_length fun heq => ?_
    exact lt_irrefl (f a) (of_decide_eq_true (List.countP_eq_length.1 heq a ha))
  rw [← List.take_append_drop n l, List.countP_append, hkept, Nat.add_zero]
  exact Nat.lt_of_lt_of_le hdropped (List.length_take_le n l)

end Pruning
