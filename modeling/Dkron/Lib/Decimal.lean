import Mathlib.Algebra.Group.Nat.Hom
import Mathlib.Data.List.Basic

/-!
# Decimal digits

The digits of a number, with zeros in front or not, give the number back.
-/

namespace Decimal

/-- The value of the digits does not depend on zeros in front of them. -/
theorem value_zeros_append (k n : ℕ) :
    Nat.ofDigitChars 10 (List.replicate k '0' ++ (Nat.repr n).toList) 0 = n := by
  rw [Nat.ofDigitChars_append, Nat.ofDigitChars_replicate_zero, Nat.mul_zero, Nat.toList_repr,
    Nat.ofDigitChars_ten_toDigits]

theorem repr_toList_inj {m n : ℕ} (h : (Nat.repr m).toList = (Nat.repr n).toList) : m = n := by
  have hm := value_zeros_append 0 m
  have hn := value_zeros_append 0 n
  rw [List.replicate_zero, List.nil_append] at hm hn
  rw [← hm, ← hn, h]

theorem isDigit_of_mem_repr {n : ℕ} {c : Char} (h : c ∈ (Nat.repr n).toList) : c.isDigit := by
  rw [Nat.toList_repr] at h
  exact Nat.isDigit_of_mem_toDigits (by decide) (by decide) h

theorem repr_toList_ne_nil (n : ℕ) : (Nat.repr n).toList ≠ [] := by
  intro h
  have hpos : 0 < (Nat.repr n).length := Nat.length_repr_pos
  have hlen := congrArg List.length h
  simp at hlen

/-- A number below the power has that many digits at most. -/
theorem length_repr_le {n k : ℕ} (hk : 0 < k) (h : n < 10 ^ k) :
    (Nat.repr n).toList.length ≤ k := by
  rw [String.length_toList]
  exact (Nat.length_repr_le_iff hk).2 h

end Decimal
