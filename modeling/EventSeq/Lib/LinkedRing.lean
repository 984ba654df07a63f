import Mathlib

/-!
# Doubly linked rings

Cells of a type `R` linked by `next` and `prev`; `none` is the null pointer.  `Chain` reads the
links from one cell to another, `IsRing` closes the chain at a root cell that is never removed.
The two link operations are the assignments a C program makes; they fail on a null pointer.
-/

namespace EventSeq.Lib

structure Links (R : Type*) where
  next : R → Option R
  prev : R → Option R

namespace Links

variable {R : Type*}

/-- Following `next` from `a` passes the cells of the list in order and then reaches `b`, and
`prev` leads back the same way. -/
def Chain (k : Links R) : R → List R → R → Prop
  | a, [], b => k.next a = some b ∧ k.prev b = some a
  | a, x :: xs, b => k.next a = some x ∧ k.prev x = some a ∧ k.Chain x xs b

def IsRing (k : Links R) (root : R) (xs : List R) : Prop :=
  (root :: xs).Nodup ∧ k.Chain root xs root

variable {k k' : Links R} {a b p n x new root : R} {xs ys pre post : List R}

theorem chain_append : k.Chain a (xs ++ x :: ys) b ↔ k.Chain a xs x ∧ k.Chain x ys b := by
  induction xs generalizing a with
  | nil => simp [Chain, and_assoc]
  | cons y xs ih => simp [Chain, ih, and_assoc]

/-- A chain depends on the `next` of its sources and the `prev` of its targets only. -/
theorem Chain.frame (h : k.Chain a xs b) (hnext : ∀ y ∈ a :: xs, k'.next y = k.next y)
    (hprev : ∀ y ∈ xs ++ [b], k'.prev y = k.prev y) : k'.Chain a xs b := by
  induction xs generalizing a with
  | nil =>
      refine ⟨?_, ?_⟩
      · rw [hnext a (by simp), h.1]
      · rw [hprev b (by simp), h.2]
  | cons y xs ih =>
      refine ⟨?_, ?_, ih h.2.2 ?_ ?_⟩
      · rw [hnext a (by simp), h.1]
      · rw [hprev y (by simp), h.2.1]
      · exact fun z hz => hnext z (List.mem_cons_of_mem _ hz)
      · exact fun z hz => hprev z (List.mem_cons_of_mem _ hz)

theorem Chain.next_head (h : k.Chain a xs b) : k.next a = some ((xs ++ [b]).head (by simp)) := by
  cases xs with
  | nil => exact h.1
  | cons y xs => exact h.1

theorem Chain.prev_head (h : k.Chain a xs b) : k.prev ((xs ++ [b]).head (by simp)) = some a := by
  cases xs with
  | nil => exact h.2
  | cons y xs => exact h.2.1

theorem Chain.prev_getLast (h : k.Chain a xs b) :
    k.prev b = some ((a :: xs).getLast (List.cons_ne_nil a xs)) := by
  induction xs generalizing a with
  | nil => exact h.2
  | cons y xs ih => rw [ih h.2.2, List.getLast_cons_cons]

/-- Every cell of a chain has a next one, which leads back to it. -/
theorem Chain.exists_next (h : k.Chain a xs b) :
    ∀ x ∈ a :: xs, ∃ y, k.next x = some y ∧ k.prev y = some x := by
  induction xs generalizing a with
  | nil =>
      intro x hx
      obtain rfl := List.mem_singleton.mp hx
      exact ⟨b, h.1, h.2⟩
  | cons y xs ih =>
      intro x hx
      rcases List.mem_cons.mp hx with rfl | hx
      · exact ⟨y, h.1, h.2.1⟩
      · exact ih h.2.2 x hx

theorem Chain.exists_prev (h : k.Chain a xs b) :
    ∀ y ∈ xs ++ [b], ∃ x, k.prev y = some x ∧ k.next x = some y := by
  induction xs generalizing a with
  | nil =>
      intro y hy
      obtain rfl := List.mem_singleton.mp hy
      exact ⟨a, h.2, h.1⟩
  | cons z xs ih =>
      intro y hy
      rcases List.mem_cons.mp hy with rfl | hy
      · exact ⟨a, h.2.1, h.1⟩
      · exact ih h.2.2 y hy

/-- On a ring `next` and `prev` are inverse to each other. -/
theorem IsRing.next_eq_iff (h : k.IsRing root xs) (ha : a ∈ root :: xs) (hb : b ∈ root :: xs) :
    k.next a = some b ↔ k.prev b = some a := by
  constructor
  · intro hnext
    obtain ⟨y, hy, hback⟩ := h.2.exists_next a ha
    cases hnext.symm.trans hy
    exact hback
  · intro hprev
    have hb' : b ∈ xs ++ [root] := by
      rw [List.mem_append, List.mem_singleton]
      exact (List.mem_cons.mp hb).symm
    obtain ⟨x, hx, hforth⟩ := h.2.exists_prev b hb'
    cases hprev.symm.trans hx
    exact hforth

/-! ## The link operations -/

variable [DecidableEq R]

def setNext (k : Links R) (a : R) (b : Option R) : Links R :=
  { k with next := Function.update k.next a b }

def setPrev (k : Links R) (a : R) (b : Option R) : Links R :=
  { k with prev := Function.update k.prev a b }

/-- Put `new` between `p` and `n`. -/
def splice (k : Links R) (p n new : R) : Links R :=
  (((k.setNext new (some n)).setPrev new (some p)).setPrev n (some new)).setNext p (some new)

/-- Join `p` and `n` and clear the links of `x`. -/
def bypass (k : Links R) (p n x : R) : Links R :=
  (((k.setPrev n (some p)).setNext p (some n)).setPrev x none).setNext x none

def insertAfter (k : Links R) (p new : R) : Option (Links R) :=
  (k.next p).map fun n => k.splice p n new

def unlink (k : Links R) (x : R) : Option (Links R) :=
  (k.next x).bind fun n => (k.prev x).map fun p => k.bypass p n x

@[grind =] theorem splice_next (z : R) :
    (k.splice p n new).next z =
      if z = p then some new else if z = new then some n else k.next z := by
  simp [splice, setNext, setPrev, Function.update_apply]

@[grind =] theorem splice_prev (z : R) :
    (k.splice p n new).prev z =
      if z = n then some new else if z = new then some p else k.prev z := by
  simp [splice, setNext, setPrev, Function.update_apply]

@[grind =] theorem bypass_next (z : R) :
    (k.bypass p n x).next z = if z = x then none else if z = p then some n else k.next z := by
  simp [bypass, setNext, setPrev, Function.update_apply]

@[grind =] theorem bypass_prev (z : R) :
    (k.bypass p n x).prev z = if z = x then none else if z = n then some p else k.prev z := by
  simp [bypass, setNext, setPrev, Function.update_apply]

/-- Inserting behind the source of a chain. -/
theorem Chain.splice (hnodup : (p :: ys).Nodup) (hb : b ∉ ys) (hnew : new ∉ p :: ys ++ [b])
    (h : k.Chain p ys b) :
    (k.splice p ((ys ++ [b]).head (by simp)) new).Chain p (new :: ys) b := by
  cases ys with
  | nil =>
      simp only [Chain, List.nil_append, List.head_cons]
      grind
  | cons y ys =>
      simp only [Chain, List.cons_append, List.head_cons]
      refine ⟨by grind, by grind, by grind, by grind, h.2.2.frame ?_ ?_⟩
      · intro z hz
        grind
      · intro z hz
        grind

/-- Inserting behind the last cell of a prefix of the ring. -/
theorem IsRing.insertAfter (h : k.IsRing root (pre ++ post)) (hnew : new ∉ root :: (pre ++ post))
    (hp : p = (root :: pre).getLast (List.cons_ne_nil root pre)) :
    ∃ k', k.insertAfter p new = some k' ∧ k'.IsRing root (pre ++ new :: post) := by
  obtain ⟨hnodup, hchain⟩ := h
  have hnodup' : (root :: (pre ++ new :: post)).Nodup := by grind
  rcases List.eq_nil_or_concat pre with rfl | ⟨pre, q, rfl⟩
  · obtain rfl : p = root := by simpa using hp
    refine ⟨_, by rw [Links.insertAfter, hchain.next_head]; rfl, hnodup', ?_⟩
    exact hchain.splice (by grind) (by grind) (by grind)
  · obtain rfl : p = q := by simpa using hp
    simp only [List.concat_eq_append, List.append_assoc, List.cons_append,
      List.nil_append] at hchain hnodup hnodup' hnew ⊢
    obtain ⟨hpre, hpost⟩ := chain_append.mp hchain
    refine ⟨_, by rw [Links.insertAfter, hpost.next_head]; rfl, hnodup', chain_append.mpr ⟨?_, ?_⟩⟩
    · -- The prefix keeps its links: `p` is no source in it, the cell behind `p` no target.
      apply hpre.frame
      · intro z hz
        grind
      · intro z hz
        cases post <;> grind
    · exact hpost.splice (by grind) (by grind) (by grind)

/-- Joining `p` to what is behind `x`. -/
theorem Chain.bypass (hnodup : (x :: ys).Nodup) (hb : b ∉ x :: ys) (hp : p ∉ x :: ys)
    (h : k.Chain x ys b) : (k.bypass p ((ys ++ [b]).head (by simp)) x).Chain p ys b := by
  cases ys with
  | nil =>
      simp only [Chain, List.nil_append, List.head_cons]
      grind
  | cons y ys =>
      simp only [Chain, List.cons_append, List.head_cons]
      refine ⟨by grind, by grind, h.2.2.frame ?_ ?_⟩
      · intro z hz
        grind
      · intro z hz
        grind

/-- Unlinking a cell of the ring. -/
theorem IsRing.unlink (h : k.IsRing root (pre ++ x :: post)) :
    ∃ k', k.unlink x = some k' ∧ k'.IsRing root (pre ++ post) := by
  obtain ⟨hnodup, hchain⟩ := h
  obtain ⟨hpre, hpost⟩ := chain_append.mp hchain
  refine ⟨_, by rw [Links.unlink, hpost.next_head, hpre.prev_getLast]; rfl, by grind, ?_⟩
  rcases List.eq_nil_or_concat pre with rfl | ⟨pre, q, rfl⟩
  · exact hpost.bypass (by grind) (by grind) (by grind)
  · simp only [List.concat_eq_append, List.append_assoc, ← List.cons_append,
      List.getLast_append_singleton] at hpre hnodup ⊢
    refine chain_append.mpr ⟨?_, hpost.bypass (by grind) (by grind) (by grind)⟩
    apply (chain_append.mp hpre).1.frame
    · intro z hz
      grind
    · intro z hz
      cases post <;> grind

end Links

end EventSeq.Lib
