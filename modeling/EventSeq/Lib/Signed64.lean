import Mathlib

/-!
# 64-bit signed arithmetic without overflow

Where the exact result of an operation is in the range of the type, the operation yields it.
-/

namespace EventSeq.Lib

def InInt64 (x : Int) : Prop := -2 ^ 63 ≤ x ∧ x < 2 ^ 63

instance (x : Int) : Decidable (InInt64 x) := inferInstanceAs (Decidable (_ ∧ _))

theorem InInt64.bmod_eq {x : Int} (h : InInt64 x) : x.bmod (2 ^ 64) = x := by
  obtain ⟨hlow, hhigh⟩ := h
  apply Int.bmod_eq_of_le
  · omega
  · omega

/-- A truncated division leaves a remainder below the divisor, whatever the signs are. -/
theorem abs_tmod_lt {x y : Int} (hy : y ≠ 0) : |x.tmod y| < |y| := by
  rw [Int.abs_eq_natAbs, Int.abs_eq_natAbs, Int.natAbs_tmod]
  exact_mod_cast Nat.mod_lt _ (Int.natAbs_pos.mpr hy)

/-- A remainder below the divisor keeps a quotient less than one away from the exact one. -/
theorem abs_sub_div_lt_one {total divisor quotient remainder : Int} (hdivisor : divisor ≠ 0)
    (h : total = divisor * quotient + remainder) (hsmall : |remainder| < |divisor|) :
    |(quotient : ℚ) - total / divisor| < 1 := by
  have hdivisorQ : (divisor : ℚ) ≠ 0 := Int.cast_ne_zero.mpr hdivisor
  have hdistance : (quotient : ℚ) - total / divisor = -(remainder / divisor) := by
    rw [h]
    push_cast
    field_simp
    ring
  rw [hdistance, abs_neg, abs_div, div_lt_one (abs_pos.mpr hdivisorQ)]
  exact_mod_cast hsmall

section

variable {a b : Int64}

theorem InInt64.toInt_add (h : InInt64 (a.toInt + b.toInt)) : (a + b).toInt = a.toInt + b.toInt := by
  rw [Int64.toInt_add, h.bmod_eq]

theorem InInt64.toInt_sub (h : InInt64 (a.toInt - b.toInt)) : (a - b).toInt = a.toInt - b.toInt := by
  rw [Int64.toInt_sub, h.bmod_eq]

theorem InInt64.toInt_mul (h : InInt64 (a.toInt * b.toInt)) : (a * b).toInt = a.toInt * b.toInt := by
  rw [Int64.toInt_mul, h.bmod_eq]

theorem InInt64.toInt_div (h : InInt64 (a.toInt.tdiv b.toInt)) :
    (a / b).toInt = a.toInt.tdiv b.toInt := by
  rw [Int64.toInt_div, h.bmod_eq]

/-- The remainder of a truncated division is in range, and so is what is computed for it, whether or
not the product is. -/
theorem toInt_sub_mul_div (hb : b.toInt ≠ 0) (h : InInt64 (a.toInt.tdiv b.toInt)) :
    (a - a / b * b).toInt = a.toInt.tmod b.toInt := by
  have hrange : InInt64 (a.toInt.tmod b.toInt) := by
    have hbound : |b.toInt| ≤ 2 ^ 63 := abs_le.mpr ⟨b.le_toInt, b.toInt_lt.le⟩
    obtain ⟨hneg, hpos⟩ := abs_lt.mp ((abs_tmod_lt hb).trans_le hbound)
    exact ⟨hneg.le, hpos⟩
  rw [Int64.toInt_sub, Int64.toInt_mul, Int.sub_bmod_bmod, h.toInt_div, mul_comm, ← Int.tmod_def,
    hrange.bmod_eq]

end

end EventSeq.Lib
