import Mathlib

/-!
# Arrays in memory

An array that `realloc` has made longer has cells which nothing was written to.  What has been
written so far, one cell after the other from the first one on, is kept by all further operations.
-/

namespace EventSeq.Lib

variable {α : Type*}

/-- The cells of an array; `none` is one that is not initialised. -/
abbrev Cells (α : Type*) := List (Option α)

namespace Cells

/-- `realloc` to `n` cells. -/
def realloc (cells : Cells α) (n : Nat) : Cells α :=
  cells.take n ++ List.replicate (n - cells.length) none

def write (cells : Cells α) (i : Nat) (a : α) : Cells α := cells.set i (some a)

/-- The first cells hold `l`. -/
def Holds (cells : Cells α) (l : List α) : Prop := l.map some <+: cells

instance [DecidableEq α] (cells : Cells α) (l : List α) : Decidable (cells.Holds l) :=
  inferInstanceAs (Decidable (l.map some <+: cells))

variable {cells : Cells α} {l : List α} {n i : Nat} {a : α}

@[simp] theorem length_write (cells : Cells α) (i : Nat) (a : α) :
    (cells.write i a).length = cells.length :=
  List.length_set

@[simp] theorem length_realloc (cells : Cells α) (n : Nat) : (cells.realloc n).length = n := by
  rw [realloc, List.length_append, List.length_take, List.length_replicate]
  omega

theorem holds_nil (cells : Cells α) : cells.Holds [] := List.nil_prefix

theorem Holds.getElem? (h : cells.Holds l) (hi : i < l.length) : cells[i]? = some l[i]? := by
  obtain ⟨rest, rfl⟩ := h
  rw [List.getElem?_append_left (by simpa using hi), List.getElem?_map, List.getElem?_eq_getElem hi]
  rfl

theorem Holds.realloc (h : cells.Holds l) (hn : l.length ≤ n) : (cells.realloc n).Holds l := by
  obtain ⟨rest, rfl⟩ := h
  unfold Cells.realloc
  rw [List.take_append, List.take_of_length_le (by simpa using hn), List.append_assoc]
  exact List.prefix_append _ _

/-- Writing the cell behind the last one that was written. -/
theorem Holds.push (h : cells.Holds l) (hlt : l.length < cells.length) (a : α) :
    (cells.write l.length a).Holds (l ++ [a]) := by
  obtain ⟨rest, rfl⟩ := h
  cases rest with
  | nil => simp at hlt
  | cons cell rest =>
      have hset : (l.map some ++ cell :: rest).set l.length (some a) = l.map some ++ some a :: rest := by
        rw [List.set_append_right _ _ (by simp), List.length_map, Nat.sub_self, List.set_cons_zero]
      unfold Holds write
      rw [hset, List.map_append, List.map_singleton]
      exact ⟨rest, by simp⟩

end Cells

end EventSeq.Lib
