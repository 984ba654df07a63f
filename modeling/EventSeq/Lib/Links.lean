import Mathlib

/-!
# Links between two kinds of things

Each thing of one kind is linked with at most one of the other kind, and knows it, which is a partial
equivalence.  A new link takes the place of the ones its ends had.
-/

namespace EventSeq.Lib

variable {α β : Type*}

/-- `a` and `b` are linked, and give up the partners they had. -/
def link [DecidableEq α] [DecidableEq β] (f : α ≃. β) (a : α) (b : β) : α ≃. β where
  toFun x := if x = a then some b else if f x = some b then none else f x
  invFun y := if y = b then some a else if f.symm y = some a then none else f.symm y
  inv x y := by
    have hinv : f.symm y = some x ↔ f x = some y := f.eq_some_iff
    by_cases hx : x = a <;> by_cases hy : y = b
    · simp [hx, hy]
    · subst hx
      simp only [if_neg hy, if_true, Option.some.injEq, Ne.symm hy, iff_false]
      split
      · exact (Option.some_ne_none x).symm
      · rename_i hne
        exact hne
    · subst hy
      simp only [if_neg hx, if_true, Option.some.injEq, Ne.symm hx, false_iff]
      split
      · exact (Option.some_ne_none y).symm
      · rename_i hne
        exact hne
    · simp only [if_neg hx, if_neg hy]
      constructor
      · intro h
        split at h
        · cases h
        · have hfx := hinv.mp h
          rw [hfx, if_neg (fun heq => hy (Option.some.inj heq))]
      · intro h
        split at h
        · cases h
        · have hfy := hinv.mpr h
          rw [hfy, if_neg (fun heq => hx (Option.some.inj heq))]

/-- The things that meet `p` give up their partners. -/
def unlink (f : α ≃. β) (p : α → Prop) [DecidablePred p] : α ≃. β where
  toFun x := if p x then none else f x
  invFun y := (f.symm y).filter fun x => ¬p x
  inv x y := by
    rw [Option.filter_eq_some_iff, f.eq_some_iff, decide_eq_true_iff]
    by_cases hx : p x <;> simp [hx]

variable {f : α ≃. β} {a x : α} {b y : β} {p : α → Prop} [DecidablePred p]

section

variable [DecidableEq α] [DecidableEq β]

theorem link_apply (hb : f.symm b = none) : link f a b x = if x = a then some b else f x := by
  show (if x = a then some b else if f x = some b then none else f x) = _
  have hne : f x ≠ some b := fun h => by
    rw [← f.eq_some_iff, hb] at h
    cases h
  rw [if_neg hne]

theorem link_symm_apply : (link f a b).symm y =
    if y = b then some a else if f a = some y then none else f.symm y := by
  show (if y = b then some a else if f.symm y = some a then none else f.symm y) = _
  simp only [f.eq_some_iff]

end

theorem unlink_apply : unlink f p x = if p x then none else f x := rfl

theorem unlink_symm_apply : (unlink f p).symm y = (f.symm y).filter fun x => ¬p x := rfl

end EventSeq.Lib
