import Mathlib

/-!
# Depth-first interpretation of tokens

A token is replaced by a list of tokens, and the replacement updates a state.  The recursive
interpreter takes the tokens of a list in order and finishes all that comes of one before it goes on
to the next.  The rewriting machine has no recursion: it always replaces the first token of its list
that does not stay.  Both visit the same tokens in the same states.
-/

namespace EventSeq.Lib.DepthFirst

variable {τ γ ε : Type*}

structure Rules (τ γ ε : Type*) where
  /-- Nothing is done with the token. -/
  stays : τ → Bool
  step : τ → γ → Except ε (γ × List τ)

/-- The visited tokens, each with the state before the visit, and the state and the tokens that are
left. -/
abbrev Outcome (τ γ ε : Type*) := List (τ × γ) × Except ε (γ × List τ)

def Outcome.visit (t : τ) (g : γ) (o : Outcome τ γ ε) : Outcome τ γ ε := ((t, g) :: o.1, o.2)

/-- The outcome `o` that follows the given visits and stayed tokens. -/
def Outcome.after (visits : List (τ × γ)) (stayed : List τ) (o : Outcome τ γ ε) : Outcome τ γ ε :=
  (visits ++ o.1, o.2.map fun r => (r.1, stayed ++ r.2))

/-! ## The recursive interpreter -/

/-- One token after the other; `none` when one of them cannot be interpreted. -/
def interpretAll (run : τ → γ → Option (Outcome τ γ ε)) : List τ → γ → Option (Outcome τ γ ε)
  | [], g => some ([], .ok (g, []))
  | t :: ts, g =>
      match run t g with
      | none => none
      | some (visits, .error e) => some (visits, .error e)
      | some (visits, .ok (g, stayed)) => (interpretAll run ts g).map (Outcome.after visits stayed)

/-- A token and all that comes of it, with at most `depth` nested calls. -/
def interpret (R : Rules τ γ ε) : Nat → τ → γ → Option (Outcome τ γ ε)
  | 0, _, _ => none
  | depth + 1, t, g =>
      if R.stays t then some ([], .ok (g, [t]))
      else
        match R.step t g with
        | .error e => some ([(t, g)], .error e)
        | .ok (g', ts) => (interpretAll (interpret R depth) ts g').map (Outcome.visit t g)

section

variable {R : Rules τ γ ε} {run : τ → γ → Option (Outcome τ γ ε)} {ts : List τ} {g : γ}

theorem interpretAll_isSome (h : ∀ t ∈ ts, ∀ g, (run t g).isSome) :
    (interpretAll run ts g).isSome := by
  induction ts generalizing g with
  | nil => rfl
  | cons t ts ih =>
      have hfirst := h t List.mem_cons_self g
      rw [interpretAll]
      rcases hrun : run t g with _ | ⟨visits, _ | ⟨g', stayed⟩⟩
      · rw [hrun] at hfirst
        cases hfirst
      · rfl
      · rw [Option.isSome_map]
        exact ih fun t ht => h t (List.mem_cons_of_mem _ ht)

/-- A measure that every replacement lowers bounds the nesting. -/
theorem interpret_isSome {μ : τ → Nat}
    (hμ : ∀ t g g' ts, R.step t g = .ok (g', ts) → ∀ t' ∈ ts, μ t' < μ t) {depth : Nat} {t : τ}
    (hdepth : μ t < depth) : (interpret R depth t g).isSome := by
  induction depth generalizing t g with
  | zero => exact absurd hdepth (Nat.not_lt_zero _)
  | succ depth ih =>
      rw [interpret]
      split
      · rfl
      · rcases hstep : R.step t g with _ | ⟨g', ts⟩
        · rfl
        · rw [Option.isSome_map]
          refine interpretAll_isSome fun t' ht' g₁ => ih ?_
          have hlt := hμ t g g' ts hstep t' ht'
          omega

/-- The interpretation succeeds with the invariant if every token that is met does. -/
theorem interpretAll_ok {inv : γ → Prop}
    (h : ∀ t ∈ ts, ∀ g, inv g → ∃ visits g' stayed, run t g = some (visits, .ok (g', stayed)) ∧ inv g')
    (hg : inv g) :
    ∃ visits g' stayed, interpretAll run ts g = some (visits, .ok (g', stayed)) ∧ inv g' := by
  induction ts generalizing g with
  | nil => exact ⟨[], g, [], rfl, hg⟩
  | cons t ts ih =>
      obtain ⟨visits, g₁, stayed, hrun, hg₁⟩ := h t List.mem_cons_self g hg
      obtain ⟨visits', g₂, stayed', hrest, hg₂⟩ := ih (fun t ht => h t (List.mem_cons_of_mem _ ht)) hg₁
      refine ⟨visits ++ visits', g₂, stayed ++ stayed', ?_, hg₂⟩
      simp only [interpretAll, hrun, hrest]
      rfl

theorem interpret_ok {inv : γ → Prop} {good : τ → Prop} {μ : τ → Nat}
    (hstep : ∀ t g, good t → inv g → R.stays t = false →
      ∃ g' ts, R.step t g = .ok (g', ts) ∧ inv g' ∧ ∀ t' ∈ ts, good t' ∧ μ t' < μ t)
    {depth : Nat} {t : τ} (ht : good t) (hdepth : μ t < depth) (hg : inv g) :
    ∃ visits g' stayed, interpret R depth t g = some (visits, .ok (g', stayed)) ∧ inv g' := by
  induction depth generalizing t g with
  | zero => exact absurd hdepth (Nat.not_lt_zero _)
  | succ depth ih =>
      rw [interpret]
      cases hstays : R.stays t with
      | true => exact ⟨[], g, [t], rfl, hg⟩
      | false =>
          obtain ⟨g₁, ts, hrun, hg₁, hts⟩ := hstep t g ht hg hstays
          obtain ⟨visits, g₂, stayed, hall, hg₂⟩ := interpretAll_ok (fun t' ht' g hg =>
            ih (hts t' ht').1 (lt_of_lt_of_le (hts t' ht').2 (Nat.le_of_lt_succ hdepth)) hg) hg₁
          refine ⟨(t, g) :: visits, g₂, stayed, ?_, hg₂⟩
          simp only [hrun, hall]
          rfl

end

/-! ## The rewriting machine -/

def rewrite (R : Rules τ γ ε) : Nat → List τ → γ → Option (Outcome τ γ ε)
  | 0, _, _ => none
  | fuel + 1, ts, g =>
      match ts.dropWhile R.stays with
      | [] => some ([], .ok (g, ts))
      | t :: rest =>
          match R.step t g with
          | .error e => some ([(t, g)], .error e)
          | .ok (g', ts') =>
              (rewrite R fuel (ts.takeWhile R.stays ++ (ts' ++ rest)) g').map (Outcome.visit t g)

section

variable {R : Rules τ γ ε} {ts pre post : List τ} {t : τ} {g g' : γ} {fuel : Nat} {e : ε}

theorem rewrite_stays (h : ∀ t ∈ ts, R.stays t) :
    rewrite R (fuel + 1) ts g = some ([], .ok (g, ts)) := by
  rw [rewrite, List.dropWhile_eq_nil_iff.mpr h]

theorem rewrite_error (hpre : ∀ t ∈ pre, R.stays t) (ht : R.stays t = false)
    (hstep : R.step t g = .error e) :
    rewrite R (fuel + 1) (pre ++ t :: post) g = some ([(t, g)], .error e) := by
  have hdrop : (pre ++ t :: post).dropWhile R.stays = t :: post := by
    rw [List.dropWhile_append_of_pos hpre, List.dropWhile_cons_of_neg (by simp [ht])]
  simp only [rewrite, hdrop, hstep]

theorem rewrite_step (hpre : ∀ t ∈ pre, R.stays t) (ht : R.stays t = false)
    (hstep : R.step t g = .ok (g', ts)) :
    rewrite R (fuel + 1) (pre ++ t :: post) g =
      (rewrite R fuel (pre ++ (ts ++ post)) g').map (Outcome.visit t g) := by
  have hdrop : (pre ++ t :: post).dropWhile R.stays = t :: post := by
    rw [List.dropWhile_append_of_pos hpre, List.dropWhile_cons_of_neg (by simp [ht])]
  have htake : (pre ++ t :: post).takeWhile R.stays = pre := by
    rw [List.takeWhile_append_of_pos hpre, List.takeWhile_cons_of_neg (by simp [ht]),
      List.append_nil]
  simp only [rewrite, hdrop, htake, hstep]

/-- The machine goes through `o` when it works on `ts`, wherever they stand in its list. -/
def Simulates (R : Rules τ γ ε) (ts : List τ) (g : γ) (o : Outcome τ γ ε) : Prop :=
  ∀ pre post fuel, (∀ t ∈ pre, R.stays t) →
    match o with
    | (visits, .error e) =>
        rewrite R (fuel + visits.length) (pre ++ (ts ++ post)) g = some (visits, .error e)
    | (visits, .ok (g', stayed)) =>
        (∀ t ∈ stayed, R.stays t) ∧
        rewrite R (fuel + visits.length) (pre ++ (ts ++ post)) g =
          (rewrite R fuel (pre ++ (stayed ++ post)) g').map fun o => (visits ++ o.1, o.2)

theorem simulates_all {run : τ → γ → Option (Outcome τ γ ε)}
    (hrun : ∀ t g o, run t g = some o → Simulates R [t] g o) {o : Outcome τ γ ε}
    (h : interpretAll run ts g = some o) : Simulates R ts g o := by
  induction ts generalizing g o with
  | nil =>
      cases h
      intro pre post fuel _
      exact ⟨by simp, by simp⟩
  | cons t ts ih =>
      rw [interpretAll] at h
      rcases hfirst : run t g with _ | ⟨visits, _ | ⟨g₁, stayed⟩⟩ <;> rw [hfirst] at h
      · cases h
      · cases h
        intro pre post fuel hpre
        exact hrun t g _ hfirst pre (ts ++ post) fuel hpre
      · obtain ⟨⟨visits', out⟩, hrest, rfl⟩ := Option.map_eq_some_iff.mp h
        intro pre post fuel hpre
        obtain ⟨hstayed, hvisits⟩ := hrun t g _ hfirst pre (ts ++ post) (fuel + visits'.length) hpre
        have hpre' : ∀ x ∈ pre ++ stayed, R.stays x := by
          intro x hx
          exact (List.mem_append.mp hx).elim (hpre x) (hstayed x)
        have hfuel : fuel + (visits ++ visits').length = fuel + visits'.length + visits.length := by
          rw [List.length_append]
          omega
        have hlist : pre ++ ((t :: ts) ++ post) = pre ++ ([t] ++ (ts ++ post)) := by simp
        have hmiddle : pre ++ (stayed ++ (ts ++ post)) = pre ++ stayed ++ (ts ++ post) := by simp
        -- the rest of the tokens is rewritten behind what has stayed of the first one
        cases out with
        | error e =>
            have hrest' : rewrite R (fuel + visits'.length) (pre ++ stayed ++ (ts ++ post)) g₁ =
                some (visits', .error e) := ih hrest (pre ++ stayed) post fuel hpre'
            show rewrite R (fuel + (visits ++ visits').length) _ g = _
            rw [hfuel, hlist, hvisits, hmiddle, hrest']
            rfl
        | ok left =>
            obtain ⟨g₂, stayed'⟩ := left
            obtain ⟨hstayed', hrest'⟩ := ih hrest (pre ++ stayed) post fuel hpre'
            refine ⟨fun x hx => (List.mem_append.mp hx).elim (hstayed x) (hstayed' x), ?_⟩
            show rewrite R (fuel + (visits ++ visits').length) _ g = _
            rw [hfuel, hlist, hvisits, hmiddle, hrest', Option.map_map]
            simp [Function.comp_def]

theorem simulates_interpret {depth : Nat} {o : Outcome τ γ ε}
    (h : interpret R depth t g = some o) : Simulates R [t] g o := by
  induction depth generalizing t g o with
  | zero => cases h
  | succ depth ih =>
      rw [interpret] at h
      split at h
      · rename_i hstays
        cases h
        intro pre post fuel _
        exact ⟨by simp [hstays], by simp⟩
      · rename_i hstays
        have ht := Bool.eq_false_of_not_eq_true hstays
        rcases hstep : R.step t g with e | ⟨g₁, ts⟩ <;> rw [hstep] at h
        · cases h
          intro pre post fuel hpre
          exact rewrite_error hpre ht hstep
        · obtain ⟨⟨visits, out⟩, hall, rfl⟩ := Option.map_eq_some_iff.mp h
          intro pre post fuel hpre
          -- the machine visits `t` and then works on what has taken its place
          have hfirst := @rewrite_step _ _ _ R ts pre post t g g₁ (fuel + visits.length) hpre ht hstep
          have hrest := simulates_all (fun t g o => ih) hall pre post fuel hpre
          cases out with
          | error e =>
              dsimp only at hrest
              show rewrite R (fuel + visits.length + 1) _ g = _
              rw [List.singleton_append, hfirst, hrest]
              rfl
          | ok left =>
              obtain ⟨g₂, stayed⟩ := left
              refine ⟨hrest.1, ?_⟩
              show rewrite R (fuel + visits.length + 1) _ g = _
              rw [List.singleton_append, hfirst, hrest.2, Option.map_map]
              congr 1

/-- The machine visits what the recursive interpreter visits. -/
theorem rewrite_of_interpretAll {depth : τ → Nat} {visits : List (τ × γ)}
    {out : Except ε (γ × List τ)}
    (h : interpretAll (fun t => interpret R (depth t) t) ts g = some (visits, out)) :
    rewrite R (visits.length + 1) ts g = some (visits, out) := by
  have hsim := simulates_all (fun t g o => simulates_interpret) h [] [] 1 (by simp)
  have hts : ts = [] ++ (ts ++ []) := by simp
  rw [Nat.add_comm, hts]
  cases out with
  | error e => exact hsim
  | ok left =>
      obtain ⟨g', stayed⟩ := left
      obtain ⟨hstayed, hrun⟩ := hsim
      rw [hrun, List.nil_append, List.append_nil, rewrite_stays hstayed]
      simp

end

end EventSeq.Lib.DepthFirst
