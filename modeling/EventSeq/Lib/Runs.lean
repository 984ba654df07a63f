import Mathlib

/-!
# Runs of a labelled transition system

A run records every transition it makes, so that a statement about runs can speak of the state
before a step, of its label and of the state after it.
-/

namespace EventSeq.Lib

variable {σ ℓ : Type*}

structure Transition (σ ℓ : Type*) where
  before : σ
  label : ℓ
  after : σ

inductive Run (step : σ → ℓ → σ → Prop) : σ → List (Transition σ ℓ) → σ → Prop where
  | nil (s : σ) : Run step s [] s
  | cons {s s' t : σ} {l : ℓ} {τ : List (Transition σ ℓ)} :
      step s l s' → Run step s' τ t → Run step s (⟨s, l, s'⟩ :: τ) t

variable {step : σ → ℓ → σ → Prop} {s t u : σ} {τ υ : List (Transition σ ℓ)}

theorem Run.single {l : ℓ} (h : step s l t) : Run step s [⟨s, l, t⟩] t :=
  .cons h (.nil t)

theorem Run.append (h : Run step s τ t) (h' : Run step t υ u) : Run step s (τ ++ υ) u := by
  induction h with
  | nil _ => exact h'
  | cons hstep _ ih => exact .cons hstep (ih h')

theorem Run.step_of_mem (h : Run step s τ t) {x : Transition σ ℓ} (hx : x ∈ τ) :
    step x.before x.label x.after := by
  induction h with
  | nil _ => simp at hx
  | cons hstep _ ih =>
      rcases List.mem_cons.mp hx with rfl | hx
      · exact hstep
      · exact ih hx

theorem Run.mono {step' : σ → ℓ → σ → Prop} (hstep : ∀ s l t, step s l t → step' s l t)
    (h : Run step s τ t) : Run step' s τ t := by
  induction h with
  | nil s => exact .nil s
  | cons hhead _ ih => exact .cons (hstep _ _ _ hhead) ih

/-- A transition of a run splits it into the run that reaches it and the run that follows. -/
theorem Run.split (h : Run step s (τ ++ υ) u) : ∃ t, Run step s τ t ∧ Run step t υ u := by
  induction τ generalizing s with
  | nil => exact ⟨s, .nil s, h⟩
  | cons x τ ih =>
      cases h with
      | cons hstep hrest =>
          obtain ⟨t, h₁, h₂⟩ := ih hrest
          exact ⟨t, .cons hstep h₁, h₂⟩

/-- The invariant rule: what every transition that meets `cond` keeps holds at the end of a run
all of whose transitions meet it. -/
theorem Run.invariant_of {cond : Transition σ ℓ → Prop} {inv : σ → Prop}
    (hkeep : ∀ x : Transition σ ℓ, step x.before x.label x.after → cond x → inv x.before →
      inv x.after)
    (h : Run step s τ t) (hcond : ∀ x ∈ τ, cond x) (hs : inv s) : inv t := by
  induction h with
  | nil _ => exact hs
  | cons hstep _ ih =>
      apply ih (fun x hx => hcond x (List.mem_cons_of_mem _ hx))
      exact hkeep _ hstep (hcond _ List.mem_cons_self) hs

/-- The same rule, for every state the run goes through. -/
theorem Run.invariant_of_mem {cond : Transition σ ℓ → Prop} {inv : σ → Prop}
    (hkeep : ∀ x : Transition σ ℓ, step x.before x.label x.after → cond x → inv x.before →
      inv x.after)
    (h : Run step s τ t) (hcond : ∀ x ∈ τ, cond x) (hs : inv s) :
    ∀ x ∈ τ, inv x.before ∧ inv x.after := by
  induction h with
  | nil _ => simp
  | cons hstep _ ih =>
      have hafter := hkeep _ hstep (hcond _ List.mem_cons_self) hs
      rintro x (_ | ⟨_, hx⟩)
      · exact ⟨hs, hafter⟩
      · exact ih (fun x hx => hcond x (List.mem_cons_of_mem _ hx)) hafter x hx

theorem Run.invariant {inv : σ → Prop} (hkeep : ∀ s l t, step s l t → inv s → inv t)
    (h : Run step s τ t) (hs : inv s) : inv t := by
  have hcond : ∀ x ∈ τ, (fun _ => True : Transition σ ℓ → Prop) x := fun _ _ => trivial
  exact h.invariant_of (fun x hstep _ => hkeep _ x.label _ hstep) hcond hs

theorem Run.invariant_mem {inv : σ → Prop} (hkeep : ∀ s l t, step s l t → inv s → inv t)
    (h : Run step s τ t) (hs : inv s) : ∀ x ∈ τ, inv x.before ∧ inv x.after := by
  have hcond : ∀ x ∈ τ, (fun _ => True : Transition σ ℓ → Prop) x := fun _ _ => trivial
  exact h.invariant_of_mem (fun x hstep _ => hkeep _ x.label _ hstep) hcond hs

/-- The rule for an invariant that speaks of the labels so far. -/
theorem Run.invariant_labels {inv : List ℓ → σ → Prop}
    (hkeep : ∀ ls s l t, step s l t → inv ls s → inv (ls ++ [l]) t)
    (h : Run step s τ t) (hs : inv [] s) : inv (τ.map Transition.label) t := by
  have hfrom : ∀ ls, inv ls s → inv (ls ++ τ.map Transition.label) t := by
    clear hs
    induction h with
    | nil _ =>
        intro ls hs
        rw [List.map_nil, List.append_nil]
        exact hs
    | cons hstep _ ih =>
        intro ls hs
        rw [List.map_cons, List.append_cons]
        exact ih _ (hkeep _ _ _ _ hstep hs)
  exact hfrom [] hs

/-- The rule for two runs side by side, the labels of which are linked: a relation between the two
states that linked steps keep yields a relation between their labels. -/
theorem Run.coupled {σ' ℓ' : Type*} {step' : σ' → ℓ' → σ' → Prop} {s' t' : σ'}
    {τ' : List (Transition σ' ℓ')} (R : σ → σ' → Prop) (link Q : ℓ → ℓ' → Prop)
    (hstep : ∀ s l t s' l' t', step s l t → step' s' l' t' → R s s' → link l l' → R t t' ∧ Q l l')
    (h : Run step s τ t) (h' : Run step' s' τ' t') (hR : R s s')
    (hlink : List.Forall₂ (fun x x' => link x.label x'.label) τ τ') :
    List.Forall₂ (fun x x' => Q x.label x'.label) τ τ' := by
  induction hlink generalizing s s' with
  | nil => exact .nil
  | cons hhead _ ih =>
      cases h with
      | cons hfirst hrest =>
          cases h' with
          | cons hfirst' hrest' =>
              obtain ⟨hR', hQ⟩ := hstep _ _ _ _ _ _ hfirst hfirst' hR hhead
              exact .cons hQ (ih hrest hrest' hR')

/-- The run that makes the given calls, as far as they return. -/
def transitions {α ρ ε : Type*} (call : σ → α → Except ε (ρ × σ)) :
    σ → List α → List (Transition σ (α × ρ))
  | _, [] => []
  | s, a :: as =>
      match call s a with
      | .error _ => []
      | .ok (res, s') => ⟨s, (a, res), s'⟩ :: transitions call s' as

theorem transitions_run {α ρ ε : Type*} (call : σ → α → Except ε (ρ × σ)) (s : σ) (as : List α) :
    ∃ t, Run (fun s l t => call s l.1 = .ok (l.2, t)) s (transitions call s as) t := by
  induction as generalizing s with
  | nil => exact ⟨s, .nil s⟩
  | cons a as ih =>
      rw [transitions]
      split
      · exact ⟨s, .nil s⟩
      · rename_i res s' hcall
        obtain ⟨t, hrun⟩ := ih s'
        exact ⟨t, .cons hcall hrun⟩

/-- Splitting a list that was extended at its end. -/
theorem append_singleton_eq_append_cons {α : Type} {l before after : List α} {x y : α}
    (h : l ++ [x] = before ++ y :: after) :
    (after = [] ∧ y = x ∧ before = l) ∨ ∃ rest, after = rest ++ [x] ∧ l = before ++ y :: rest := by
  rcases List.eq_nil_or_concat after with rfl | ⟨rest, z, rfl⟩
  · obtain ⟨hl, hx⟩ := List.append_inj' h rfl
    cases hx
    exact .inl ⟨rfl, rfl, hl.symm⟩
  · rw [List.concat_eq_append, ← List.cons_append, ← List.append_assoc] at h
    obtain ⟨hl, hx⟩ := List.append_inj' h rfl
    cases hx
    exact .inr ⟨rest, by simp, hl⟩

/-- A potential that every step lowers bounds the length of every run. -/
theorem Run.length_le {inv : σ → Prop} {potential : σ → Nat}
    (hkeep : ∀ s l t, step s l t → inv s → inv t)
    (hlower : ∀ s l t, step s l t → inv s → potential t < potential s)
    (h : Run step s τ t) (hs : inv s) : τ.length + potential t ≤ potential s := by
  induction h with
  | nil _ => simp
  | cons hstep _ ih =>
      have hlt := hlower _ _ _ hstep hs
      have hrest := ih (hkeep _ _ _ hstep hs)
      rw [List.length_cons]
      omega

end EventSeq.Lib
