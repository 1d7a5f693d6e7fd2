import Mathlib.Tactic.LinearCombination
import QueryTree.Decimal.Basic

/-! # Equal decimals

Two decimals are equal when they are the same number. `lowest` drops the zeros at the end of a
coefficient together with as many places, which leaves the same form of equal decimals.
-/

namespace QueryTree.Decimal

/-- Powers of ten multiply by adding their exponents. -/
theorem tenTo_add (m n : Nat) : tenTo (m + n) = tenTo m * tenTo n :=
  Nat.pow_add 10 m n

/-- A power of ten is never zero, so it can be cancelled. -/
theorem tenTo_ne_zero (n : Nat) : (tenTo n : Int) ≠ 0 := by
  have hpos : 0 < tenTo n := Nat.pow_pos (by omega)
  omega

/-- Decimals are equal if their coefficients are, brought to a common scale. -/
theorem beq_iff {a b : Decimal} :
    a == b ↔ a.coefficient * tenTo b.scale = b.coefficient * tenTo a.scale := by
  change (a.coefficient * (tenTo b.scale : Int) == b.coefficient * tenTo a.scale) = true ↔ _
  rw [beq_iff_eq]

/-- Equality of decimals is transitive, although the scales differ from step to step. -/
theorem beq_trans {a b c : Decimal} (hab : a == b) (hbc : b == c) : a == c := by
  rw [beq_iff] at hab hbc ⊢
  -- the power of ten of the middle one cancels
  have hproduct : (a.coefficient * tenTo c.scale - c.coefficient * tenTo a.scale)
      * (tenTo b.scale : Int) = 0 := by
    linear_combination (tenTo c.scale : Int) * hab + (tenTo a.scale : Int) * hbc
  have hzero := (mul_eq_zero.1 hproduct).resolve_right (tenTo_ne_zero b.scale)
  omega

/-- Zeros at the end of a coefficient are dropped with as many places. -/
theorem dropZeros_mul_tenTo (c : Int) (scale k : Nat) :
    dropZeros (c * tenTo k) (scale + k) = dropZeros c scale := by
  induction k with
  | zero =>
    have hone : ((tenTo 0 : Nat) : Int) = 1 := rfl
    rw [hone, mul_one, Nat.add_zero]
  | succ k ih =>
    have hten : c * tenTo (k + 1) = c * tenTo k * 10 := by
      rw [tenTo_add, Nat.cast_mul, show ((tenTo 1 : Nat) : Int) = 10 from rfl, mul_assoc]
    rw [← Nat.add_assoc, dropZeros, hten, if_pos (Int.mul_emod_left _ 10),
      Int.mul_ediv_cancel _ (by omega), ih]

/-- Of two equal decimals, the one with more places has as many zeros more. -/
theorem lowest_eq_of_le {a b : Decimal} (hscale : a.scale ≤ b.scale)
    (h : a.coefficient * tenTo b.scale = b.coefficient * tenTo a.scale) : a.lowest = b.lowest := by
  obtain ⟨k, hk⟩ := Nat.exists_eq_add_of_le hscale
  have hcoefficient : b.coefficient = a.coefficient * tenTo k := by
    rw [hk, tenTo_add, Nat.cast_mul] at h
    have hproduct : (b.coefficient - a.coefficient * tenTo k) * (tenTo a.scale : Int) = 0 := by
      linear_combination -h
    have hzero := (mul_eq_zero.1 hproduct).resolve_right (tenTo_ne_zero a.scale)
    omega
  rw [lowest, lowest, hcoefficient, hk, dropZeros_mul_tenTo]

/-- Equal decimals have the same lowest terms, which is what their hash depends on. -/
theorem lowest_eq_of_beq {a b : Decimal} (h : a == b) : a.lowest = b.lowest := by
  rw [beq_iff] at h
  rcases Nat.le_total a.scale b.scale with hle | hle
  · exact lowest_eq_of_le hle h
  · exact (lowest_eq_of_le hle h.symm).symm

end QueryTree.Decimal
