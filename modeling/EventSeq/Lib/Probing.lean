import Mathlib

/-!
# Linear probing

The positions a linear probe visits in a table of `c` slots, starting at the base `b`.
-/

namespace EventSeq.Lib

/-- The slot `o` steps behind `b`. -/
def probe (c b o : Nat) : Nat := (b + o) % c

variable {c b o o' j : Nat}

theorem probe_zero (hb : b < c) : probe c b 0 = b := Nat.mod_eq_of_lt hb

theorem probe_lt (hc : 0 < c) : probe c b o < c := Nat.mod_lt _ hc

theorem probe_succ : probe c b (o + 1) = (probe c b o + 1) % c := by
  rw [probe, probe, Nat.mod_add_mod, Nat.add_assoc]

/-- How many steps `j` lies behind `b`: `(j - b) mod c`. -/
def distance (c b j : Nat) : Nat := (j + (c - b)) % c

theorem distance_lt (hc : 0 < c) : distance c b j < c := Nat.mod_lt _ hc

theorem probe_distance (hb : b < c) (hj : j < c) : probe c b (distance c b j) = j := by
  rw [probe, distance, Nat.add_mod_mod, show b + (j + (c - b)) = j + c by omega, Nat.add_mod_right,
    Nat.mod_eq_of_lt hj]

theorem distance_probe_le (hb : b < c) : distance c b (probe c b o) ≤ o := by
  rw [probe, distance, Nat.mod_add_mod, show b + o + (c - b) = o + c by omega, Nat.add_mod_right]
  exact Nat.mod_le o c

/-- Within `c` steps a probe visits every slot. -/
theorem exists_probe_eq (hb : b < c) (hj : j < c) : ∃ o < c, probe c b o = j :=
  ⟨distance c b j, distance_lt (Nat.zero_lt_of_lt hj), probe_distance hb hj⟩

/-- Within `c` steps a probe visits no slot twice. -/
theorem probe_injective (ho : o < c) (ho' : o' < c) (h : probe c b o = probe c b o') : o = o' := by
  have hmod : o ≡ o' [MOD c] := Nat.ModEq.add_left_cancel' b h
  rwa [Nat.ModEq, Nat.mod_eq_of_lt ho, Nat.mod_eq_of_lt ho'] at hmod

end EventSeq.Lib
