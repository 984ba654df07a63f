import Mathlib

/-!
# The bits of bytes

What the bitwise operations on bytes do to single bits, and byte arrays read with zeros beyond their
end, so that arrays of different lengths can be compared.
-/

namespace EventSeq.Lib

/-! ## One byte -/

theorem toNat_one_shiftLeft {k : Nat} (hk : k < 8) :
    (1 <<< UInt8.ofNat k : UInt8).toNat = 2 ^ k := by
  interval_cases k <;> rfl

theorem and_mask_ne_zero (byte : UInt8) {k : Nat} (hk : k < 8) :
    (byte &&& (1 <<< UInt8.ofNat k) != 0) = byte.toNat.testBit k := by
  have hmask := toNat_one_shiftLeft hk
  rw [Bool.eq_iff_iff, bne_iff_ne, ne_eq, ← UInt8.toNat_inj, UInt8.toNat_and, hmask,
    Nat.and_two_pow]
  cases byte.toNat.testBit k <;> simp

theorem testBit_mask {k j : Nat} (hk : k < 8) :
    (1 <<< UInt8.ofNat k : UInt8).toNat.testBit j = decide (k = j) := by
  rw [toNat_one_shiftLeft hk, Nat.testBit_two_pow]

theorem testBit_not (byte : UInt8) {k : Nat} (hk : k < 8) :
    (~~~byte).toNat.testBit k = !byte.toNat.testBit k := by
  have hlt : byte.toNat < 2 ^ 8 := byte.toNat_lt
  have hnot := Nat.testBit_two_pow_sub_succ hlt k
  have hsub : 2 ^ 8 - (byte.toNat + 1) = (~~~byte).toNat := by
    rw [UInt8.toNat_not, UInt8.size]
    omega
  rw [hsub] at hnot
  simpa [hk] using hnot

/-! ## Arrays -/

/-- The byte at an index, zero beyond the end. -/
def byteAt (bytes : List UInt8) (i : Nat) : UInt8 := bytes[i]?.getD 0

theorem byteAt_of_le {bytes : List UInt8} {i : Nat} (h : bytes.length ≤ i) : byteAt bytes i = 0 := by
  rw [byteAt, List.getElem?_eq_none h, Option.getD_none]

/-- Padding with zeros does not show. -/
theorem byteAt_append_replicate (bytes : List UInt8) (n i : Nat) :
    byteAt (bytes ++ List.replicate n 0) i = byteAt bytes i := by
  unfold byteAt
  by_cases hi : i < bytes.length
  · rw [List.getElem?_append_left hi]
  · rw [List.getElem?_append_right (not_lt.mp hi), List.getElem?_eq_none (not_lt.mp hi)]
    by_cases hpad : i - bytes.length < n
    · rw [List.getElem?_replicate_of_lt hpad, Option.getD_some, Option.getD_none]
    · rw [List.getElem?_eq_none (by simpa using not_lt.mp hpad)]

theorem byteAt_modify (bytes : List UInt8) (f : UInt8 → UInt8) {j : Nat} (hj : j < bytes.length)
    (i : Nat) : byteAt (bytes.modify j f) i = if i = j then f (byteAt bytes i) else byteAt bytes i := by
  unfold byteAt
  rw [List.getElem?_modify]
  by_cases hij : i = j
  · subst hij
    simp [List.getElem?_eq_getElem hj]
  · rw [if_neg hij]
    simp only [Ne.symm hij, if_false]
    cases bytes[i]? <;> rfl

end EventSeq.Lib
