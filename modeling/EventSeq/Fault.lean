import Mathlib

/-!
# Calls that do not return normally

A C function that may loop for ever, run through an array bound, follow a pointer to freed memory
or abort is modelled in `Except Fault`.
-/

namespace EventSeq

inductive Fault where
  /-- The call does not return within the given bound. -/
  | diverges
  /-- A call of the system waits for ever. -/
  | blocks
  /-- An array is read or written outside its bounds. -/
  | outOfRange
  /-- A remainder by zero is taken. -/
  | divisionByZero
  /-- A division has the one quotient that is too large, on which the processor traps. -/
  | overflow
  /-- A null pointer or a pointer to a destroyed event is followed. -/
  | dangling
  /-- The program ends itself: by `abort()`, an assertion, or `exit` after a message. -/
  | aborts
deriving DecidableEq, Repr

universe u v

theorem bind_eq_ok_iff {ε : Type v} {α β : Type u} (x : Except ε α) (f : α → Except ε β) (b : β) :
    (x >>= f) = .ok b ↔ ∃ a, x = .ok a ∧ f a = .ok b := by
  cases x with
  | error e => simp [bind, Except.bind]
  | ok a => simp [bind, Except.bind]

theorem map_eq_ok_iff {α β : Type u} {x : Except Fault α} {f : α → β} {b : β} :
    x.map f = .ok b ↔ ∃ a, x = .ok a ∧ f a = b := by
  cases x with
  | error e => simp [Except.map]
  | ok a => simp [Except.map]

/-- Reading a list index by index. -/
theorem mapM_range_eq {α : Type} {f : Nat → Except Fault α} {l : List α}
    (hget : ∀ i (hi : i < l.length), f i = .ok l[i]) : (List.range l.length).mapM f = .ok l := by
  have hinit : ∀ n ≤ l.length, (List.range n).mapM f = .ok (l.take n) := by
    intro n hn
    induction n with
    | zero => rfl
    | succ n ih =>
        rw [List.range_succ, List.mapM_append, ih (Nat.le_of_succ_le hn),
          List.take_succ_eq_append_getElem hn]
        simp only [List.mapM_cons, List.mapM_nil, hget n hn]
        rfl
  rw [hinit _ le_rfl, List.take_length]

/-- A mapping that does not fail has a result for each element. -/
theorem mapM_eq_ok {α β : Type} {f : α → Except Fault β} {l : List α} {l' : List β}
    (h : l.mapM f = .ok l') : List.Forall₂ (fun x y => f x = .ok y) l l' := by
  induction l generalizing l' with
  | nil =>
      cases h
      exact .nil
  | cons x l ih =>
      rw [List.mapM_cons] at h
      obtain ⟨y, hy, h⟩ := (bind_eq_ok_iff _ _ _).mp h
      obtain ⟨ys, hys, ⟨⟩⟩ := (bind_eq_ok_iff _ _ _).mp h
      exact .cons hy (ih hys)

/-- A loop that may fail follows one that cannot, if each of its rounds does. -/
theorem foldlM_simulates {ε α σ τ : Type} {f : σ → α → Except ε σ} {g : τ → α → τ} {R : τ → σ → Prop}
    (hstep : ∀ a s x s', R a s → f s x = .ok s' → R (g a x) s') {l : List α} {a : τ} {s s' : σ}
    (hrel : R a s) (h : l.foldlM f s = .ok s') : R (l.foldl g a) s' := by
  induction l generalizing a s with
  | nil =>
      cases h
      exact hrel
  | cons x l ih =>
      rw [List.foldlM_cons] at h
      obtain ⟨s₁, hfirst, hrest⟩ := (bind_eq_ok_iff _ _ _).mp h
      exact ih (hstep a s x s₁ hrel hfirst) hrest

/-- What every round of a loop keeps holds after the loop. -/
theorem foldlM_invariant {ε α σ : Type} {f : σ → α → Except ε σ} {inv : σ → Prop}
    (hkeep : ∀ s x s', inv s → f s x = .ok s' → inv s') {l : List α} {s s' : σ} (hs : inv s)
    (h : l.foldlM f s = .ok s') : inv s' :=
  foldlM_simulates (g := fun a _ => a) (R := fun (_ : Unit) s => inv s) (a := ())
    (fun _ s x s' => hkeep s x s') hs h

/-- A loop that does not fail fails in none of its rounds. -/
theorem foldlM_round {ε α σ : Type} {f : σ → α → Except ε σ} {l : List α} {s s' : σ}
    (h : l.foldlM f s = .ok s') {x : α} (hx : x ∈ l) : ∃ s₁ s₂, f s₁ x = .ok s₂ := by
  induction l generalizing s with
  | nil => cases hx
  | cons y l ih =>
      rw [List.foldlM_cons] at h
      obtain ⟨s₁, hfirst, hrest⟩ := (bind_eq_ok_iff _ _ _).mp h
      rcases List.mem_cons.mp hx with rfl | hx
      · exact ⟨s, s₁, hfirst⟩
      · exact ih hrest hx

theorem foldlM_range_succ {ε σ : Type} (f : σ → Nat → Except ε σ) (n : Nat) (s : σ) :
    (List.range (n + 1)).foldlM f s = (List.range n).foldlM f s >>= fun s => f s n := by
  rw [List.range_succ, List.foldlM_append]
  simp only [List.foldlM_cons, List.foldlM_nil, bind_pure]

/-- The rule for a loop over the numbers below `n` none of the rounds of which fails. -/
theorem foldlM_range {ε σ : Type} {f : σ → Nat → Except ε σ} {inv : Nat → σ → Prop} {n : Nat}
    (hround : ∀ i < n, ∀ s, inv i s → ∃ s', f s i = .ok s' ∧ inv (i + 1) s') {s : σ} (hs : inv 0 s) :
    ∃ s', (List.range n).foldlM f s = .ok s' ∧ inv n s' := by
  induction n with
  | zero => exact ⟨s, rfl, hs⟩
  | succ n ih =>
      obtain ⟨s₁, hbefore, hinv⟩ := ih fun i hi => hround i (Nat.lt_succ_of_lt hi)
      obtain ⟨s₂, hlast, hinv'⟩ := hround n (Nat.lt_succ_self n) s₁ hinv
      refine ⟨s₂, ?_, hinv'⟩
      rw [foldlM_range_succ, hbefore]
      exact hlast

/-! ## Calls that commit no fault -/

section

variable {α β : Type}

/-- The call returns a result that meets `post` or does not return; it makes no other fault. -/
def Safe (post : α → Prop) : Except Fault α → Prop
  | .ok a => post a
  | .error f => f = .diverges

theorem Safe.bind {P : α → Prop} {Q : β → Prop} {x : Except Fault α} {f : α → Except Fault β}
    (hx : Safe P x) (hf : ∀ a, P a → Safe Q (f a)) : Safe Q (x >>= f) := by
  cases x with
  | error e => exact hx
  | ok a => exact hf a hx

end

end EventSeq
