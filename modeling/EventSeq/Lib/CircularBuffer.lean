import Mathlib

/-!
# Circular buffers

A list of values read from an index on, past the end of the list and on from its start.  The list
that is read has at most one turn, so an index wraps at most once.
-/

namespace EventSeq.Lib.CircularBuffer

variable {α : Type*} {values : List α} {l : List α} {capacity head i j : Nat}

/-- The index `i` places behind `head`. -/
def index (capacity head i : Nat) : Nat :=
  if head + i < capacity then head + i else head + i - capacity

theorem index_lt (hhead : head < capacity) (hi : i ≤ capacity) : index capacity head i < capacity := by
  unfold index
  split <;> omega

theorem index_zero (hhead : head < capacity) : index capacity head 0 = head := by
  unfold index
  rw [if_pos (by omega), Nat.add_zero]

/-- One turn meets no place twice. -/
theorem index_injective (hi : i < capacity) (hj : j < capacity)
    (h : index capacity head i = index capacity head j) : i = j := by
  unfold index at h
  split at h <;> split at h <;> omega

theorem index_index_one (hhead : head < capacity) (hi : i + 1 ≤ capacity) :
    index capacity (index capacity head 1) i = index capacity head (i + 1) := by
  unfold index
  split_ifs <;> omega

theorem index_one_index (hhead : head < capacity) (hi : i < capacity) :
    index capacity (index capacity head i) 1 = index capacity head (i + 1) := by
  unfold index
  split_ifs <;> omega

/-- The next place by a remainder, as programs compute it. -/
theorem succ_mod (hi : i < capacity) : (i + 1) % capacity = index capacity i 1 := by
  unfold index
  split
  · rename_i h
    exact Nat.mod_eq_of_lt h
  · have heq : i + 1 = capacity := by omega
    rw [heq, Nat.mod_self, Nat.sub_self]

/-- The values from `head` on are those of `l`. -/
structure Holds (values : List α) (head : Nat) (l : List α) : Prop where
  length_le : l.length ≤ values.length
  get : ∀ i < l.length, values[index values.length head i]? = l[i]?

theorem Holds.nil (values : List α) (head : Nat) : Holds values head [] :=
  ⟨Nat.zero_le _, by simp⟩

theorem Holds.front {v : α} (h : Holds values head (v :: l)) (hhead : head < values.length) :
    values[head]? = some v := by
  have hget := h.get 0 (Nat.succ_pos _)
  rwa [index_zero hhead] at hget

/-- A value written behind the last one is appended. -/
theorem Holds.push (h : Holds values head l) (hhead : head < values.length)
    (hroom : l.length < values.length) (v : α) :
    Holds (values.set (index values.length head l.length) v) head (l ++ [v]) := by
  refine ⟨by simpa using hroom, fun i hi => ?_⟩
  rw [List.length_append, List.length_singleton] at hi
  rw [List.length_set]
  by_cases hlast : i = l.length
  · subst hlast
    rw [List.getElem?_set_self (index_lt hhead hroom.le), List.getElem?_concat_length]
  · have hi' : i < l.length := by omega
    have hne : index values.length head l.length ≠ index values.length head i := fun heq =>
      hlast (index_injective (by omega) hroom heq.symm)
    rw [List.getElem?_set_ne hne, h.get i hi', List.getElem?_append_left hi']

/-- Without its first value the list is read from the next place on. -/
theorem Holds.pop {v : α} (h : Holds values head (v :: l)) (hhead : head < values.length) :
    Holds values (index values.length head 1) l := by
  have hle := h.length_le
  rw [List.length_cons] at hle
  refine ⟨by omega, fun i hi => ?_⟩
  have hget := h.get (i + 1) (by rw [List.length_cons]; omega)
  rw [index_index_one hhead (by omega), hget, List.getElem?_cons_succ]

/-- Two buffers with the same values at the places that are read hold the same list. -/
theorem Holds.transfer {values' : List α} {head' : Nat} (h : Holds values head l)
    (hle : l.length ≤ values'.length)
    (hsame : ∀ i < l.length,
      values'[index values'.length head' i]? = values[index values.length head i]?) :
    Holds values' head' l :=
  ⟨hle, fun i hi => (hsame i hi).trans (h.get i hi)⟩

/-- From any place on, some list of every length up to a full turn is held. -/
theorem exists_holds (hhead : head < values.length) {n : Nat} (hn : n ≤ values.length) :
    ∃ l : List α, l.length = n ∧ Holds values head l := by
  have hlt : ∀ i : Fin n, index values.length head i < values.length := fun i =>
    index_lt hhead (by omega)
  refine ⟨List.ofFn fun i : Fin n => values.get ⟨_, hlt i⟩, List.length_ofFn, ?_, fun i hi => ?_⟩
  · rw [List.length_ofFn]
    exact hn
  · rw [List.length_ofFn] at hi
    rw [List.getElem?_ofFn, dif_pos hi, List.getElem?_eq_getElem (hlt ⟨i, hi⟩), List.get_eq_getElem]

end EventSeq.Lib.CircularBuffer
