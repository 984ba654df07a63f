import EventSeq.Lib.DepthFirst
import EventSeq.Lib.Runs

/-!
# Runs of the rewriting machine

The machine step by step.  What stands behind the tokens that it works on may be added at any time, so
that a machine whose tokens arrive one after the other does the same as one that has them all from the
beginning.
-/

namespace EventSeq.Lib.DepthFirst

variable {τ γ ε : Type*}

/-- The first token that does not stay is replaced. -/
inductive RewriteStep (R : Rules τ γ ε) : List τ × γ → τ → List τ × γ → Prop where
  | replace {pre ts post : List τ} {t : τ} {g g' : γ} :
      (∀ t ∈ pre, R.stays t) → R.stays t = false → R.step t g = .ok (g', ts) →
      RewriteStep R (pre ++ t :: post, g) t (pre ++ (ts ++ post), g')

/-- The tokens that a run visits, each with the state before. -/
def visitsOf (υ : List (Transition (List τ × γ) τ)) : List (τ × γ) :=
  υ.map fun x => (x.label, x.before.2)

section

variable {R : Rules τ γ ε} {ts ts' : List τ} {t : τ} {g g' : γ} {s s' : List τ × γ}
  {υ : List (Transition (List τ × γ) τ)} {fuel : Nat} {visits : List (τ × γ)}
  {out : Except ε (γ × List τ)}

/-- More tokens at the end change nothing. -/
theorem RewriteStep.more (more : List τ) (h : RewriteStep R s t s') :
    RewriteStep R (s.1 ++ more, s.2) t (s'.1 ++ more, s'.2) := by
  cases h with
  | @replace pre ts post _ g g' hpre ht hstep =>
      have hreplace : RewriteStep R (pre ++ t :: (post ++ more), g) t (pre ++ (ts ++ (post ++ more)), g') :=
        .replace hpre ht hstep
      simpa using hreplace

theorem rewriteRun_more (more : List τ) (h : Run (RewriteStep R) s υ s') :
    ∃ υ', Run (RewriteStep R) (s.1 ++ more, s.2) υ' (s'.1 ++ more, s'.2) ∧
      visitsOf υ' = visitsOf υ := by
  induction h with
  | nil s => exact ⟨[], .nil _, rfl⟩
  | @cons s _ _ t _ hstep _ ih =>
      obtain ⟨υ', hrun, hvisits⟩ := ih
      exact ⟨_, .cons (hstep.more more) hrun, congrArg (List.cons (t, s.2)) hvisits⟩

/-- The machine goes on from where a run has come to. -/
theorem rewrite_of_step (h : RewriteStep R s t s') :
    rewrite R (fuel + 1) s.1 s.2 = (rewrite R fuel s'.1 s'.2).map (Outcome.visit t s.2) := by
  cases h with
  | replace hpre ht hstep => exact rewrite_step hpre ht hstep

/-- What a run visits is the beginning of what the machine visits, and the machine goes on from its
end. -/
theorem rewrite_of_run (h : Run (RewriteStep R) s υ s')
    (hrewrite : rewrite R fuel s.1 s.2 = some (visits, out)) :
    ∃ rest fuel', visits = visitsOf υ ++ rest ∧ rewrite R fuel' s'.1 s'.2 = some (rest, out) := by
  induction h generalizing fuel visits with
  | nil s => exact ⟨visits, fuel, rfl, hrewrite⟩
  | @cons s s₁ _ t _ hstep _ ih =>
      cases fuel with
      | zero => cases hrewrite
      | succ fuel =>
          rw [rewrite_of_step hstep] at hrewrite
          obtain ⟨⟨visits₁, out₁⟩, hrest, heq⟩ := Option.map_eq_some_iff.mp hrewrite
          cases heq
          obtain ⟨rest, fuel', rfl, hrest'⟩ := ih hrest
          exact ⟨rest, fuel', rfl, hrest'⟩

/-- A run whose last tokens all stay has visited all that the machine visits. -/
theorem rewrite_of_run_stays (h : Run (RewriteStep R) s υ s') (hstays : ∀ t ∈ s'.1, R.stays t)
    (hrewrite : rewrite R fuel s.1 s.2 = some (visits, out)) :
    visits = visitsOf υ ∧ out = .ok (s'.2, s'.1) := by
  obtain ⟨rest, fuel', rfl, hrest⟩ := rewrite_of_run h hrewrite
  cases fuel' with
  | zero => cases hrest
  | succ fuel' =>
      rw [rewrite_stays hstays] at hrest
      cases hrest
      exact ⟨List.append_nil _, rfl⟩

end

end EventSeq.Lib.DepthFirst
