import Mathlib

/-!
# Times (`time.h`)

`struct timespec` with unbounded seconds and nanoseconds, and the arithmetic the event list, the
scheduler and the window node use.  `timespec_cmp` compares seconds first and nanoseconds second,
so the order it decides is the lexicographic one; that order is put on the two wrapper types and
everything else speaks of `≤` and `<`.
-/

namespace EventSeq

def nanosecondsInSecond : Int := 1000000000

def millisecondsInSecond : Int := 1000

structure Timespec where
  tvSec : Int
  tvNsec : Int
deriving DecidableEq, Repr, Inhabited

structure AbsoluteTime where
  absolute : Timespec
deriving DecidableEq, Repr, Inhabited

structure RelativeTime where
  relative : Timespec
deriving DecidableEq, Repr, Inhabited

/-! ## Construction and arithmetic -/

def timespecAssignNanosecond (ns : Int) : Timespec :=
  let sec := ns.tdiv nanosecondsInSecond
  let sec := if ns < 0 then sec - 1 else sec
  ⟨sec, ns - sec * nanosecondsInSecond⟩

def timespecAssignMillisecond (ms : Int) : Timespec :=
  let sec := ms.tdiv millisecondsInSecond
  let sec := if ms < 0 then sec - 1 else sec
  let ms := ms - sec * millisecondsInSecond
  ⟨sec, ms * (nanosecondsInSecond.tdiv millisecondsInSecond)⟩

/-- The carry loop of `timespec_add`, with an explicit bound on its iterations. -/
def timespecCarry : Nat → Timespec → Timespec
  | 0, t => t
  | fuel + 1, t =>
      if t.tvNsec ≥ nanosecondsInSecond then
        timespecCarry fuel ⟨t.tvSec + 1, t.tvNsec - nanosecondsInSecond⟩
      else t

def timespecAdd (accum item : Timespec) : Timespec :=
  let t : Timespec := ⟨accum.tvSec + item.tvSec, accum.tvNsec + item.tvNsec⟩
  timespecCarry t.tvNsec.toNat t

/-- The bound `timespecAdd` passes is never what stops the loop. -/
theorem timespecCarry_lt (fuel : Nat) (t : Timespec) (hfuel : t.tvNsec.toNat ≤ fuel) :
    (timespecCarry fuel t).tvNsec < nanosecondsInSecond := by
  induction fuel generalizing t with
  | zero =>
      rw [timespecCarry, nanosecondsInSecond]
      omega
  | succ fuel ih =>
      rw [timespecCarry]
      split
      · apply ih
        simp only [nanosecondsInSecond] at *
        omega
      · omega

/-- The borrow loop of `timespec_sub`, with an explicit bound on its iterations. -/
def timespecBorrow : Nat → Timespec → Timespec
  | 0, t => t
  | fuel + 1, t =>
      if t.tvNsec < 0 then
        timespecBorrow fuel ⟨t.tvSec - 1, t.tvNsec + nanosecondsInSecond⟩
      else t

def timespecSub (accum item : Timespec) : Timespec :=
  let t : Timespec := ⟨accum.tvSec - item.tvSec, accum.tvNsec - item.tvNsec⟩
  timespecBorrow (-t.tvNsec).toNat t

/-- The bound `timespecSub` passes is never what stops the loop. -/
theorem timespecBorrow_nonneg (fuel : Nat) (t : Timespec) (hfuel : (-t.tvNsec).toNat ≤ fuel) :
    0 ≤ (timespecBorrow fuel t).tvNsec := by
  induction fuel generalizing t with
  | zero =>
      rw [timespecBorrow]
      omega
  | succ fuel ih =>
      rw [timespecBorrow]
      split
      · apply ih
        simp only [nanosecondsInSecond]
        omega
      · omega

def absoluteTimeAddRelative (lhs : AbsoluteTime) (rhs : RelativeTime) : AbsoluteTime :=
  ⟨timespecAdd lhs.absolute rhs.relative⟩

def absoluteTimeSubRelative (lhs : AbsoluteTime) (rhs : RelativeTime) : AbsoluteTime :=
  ⟨timespecSub lhs.absolute rhs.relative⟩

def absoluteTimeSubAbsolute (lhs rhs : AbsoluteTime) : RelativeTime :=
  ⟨timespecSub lhs.absolute rhs.absolute⟩

def relativeTimeFromNanosecond (ns : Int) : RelativeTime :=
  ⟨timespecAssignNanosecond ns⟩

def relativeTimeFromMillisecond (ms : Int) : RelativeTime :=
  ⟨timespecAssignMillisecond ms⟩

/-! ## Comparison -/

def timespecCmp (lhs rhs : Timespec) : Int :=
  if lhs.tvSec > rhs.tvSec then 1
  else if lhs.tvSec < rhs.tvSec then -1
  else if lhs.tvNsec > rhs.tvNsec then 1
  else if lhs.tvNsec < rhs.tvNsec then -1
  else 0

def absoluteTimeCmp (lhs rhs : AbsoluteTime) : Int := timespecCmp lhs.absolute rhs.absolute

def relativeTimeCmp (lhs rhs : RelativeTime) : Int := timespecCmp lhs.relative rhs.relative

/-- The pair `timespec_cmp` compares lexicographically. -/
def Timespec.key (t : Timespec) : Int ×ₗ Int := toLex (t.tvSec, t.tvNsec)

theorem Timespec.key_injective : Function.Injective Timespec.key := by
  rintro ⟨s, n⟩ ⟨s', n'⟩ h
  have hpair : (s, n) = (s', n') := toLex_inj.mp h
  simpa using hpair

def AbsoluteTime.key (t : AbsoluteTime) : Int ×ₗ Int := t.absolute.key

theorem AbsoluteTime.key_injective : Function.Injective AbsoluteTime.key := by
  intro t t' h
  cases t; cases t'
  exact congrArg AbsoluteTime.mk (Timespec.key_injective h)

instance : LinearOrder AbsoluteTime :=
  LinearOrder.lift' AbsoluteTime.key AbsoluteTime.key_injective

theorem timespecCmp_pos_iff (a b : Timespec) : timespecCmp a b > 0 ↔ b.key < a.key := by
  simp only [timespecCmp, Timespec.key, Prod.Lex.toLex_lt_toLex]
  split_ifs <;> omega

theorem absoluteTimeCmp_pos_iff (a b : AbsoluteTime) : absoluteTimeCmp a b > 0 ↔ b < a :=
  timespecCmp_pos_iff a.absolute b.absolute

theorem timespecCmp_nonneg_iff (a b : Timespec) : timespecCmp a b ≥ 0 ↔ b.key ≤ a.key := by
  simp only [timespecCmp, Timespec.key, Prod.Lex.toLex_le_toLex]
  split_ifs <;> omega

theorem absoluteTimeCmp_nonneg_iff (a b : AbsoluteTime) : absoluteTimeCmp a b ≥ 0 ↔ b ≤ a :=
  timespecCmp_nonneg_iff a.absolute b.absolute

/-! ## Normalized times -/

structure Timespec.Normalized (t : Timespec) : Prop where
  nonneg : 0 ≤ t.tvNsec
  lt : t.tvNsec < nanosecondsInSecond

instance (t : Timespec) : Decidable t.Normalized :=
  decidable_of_iff (0 ≤ t.tvNsec ∧ t.tvNsec < nanosecondsInSecond)
    ⟨fun h => ⟨h.1, h.2⟩, fun h => ⟨h.nonneg, h.lt⟩⟩

def AbsoluteTime.Normalized (t : AbsoluteTime) : Prop := t.absolute.Normalized

instance (t : AbsoluteTime) : Decidable t.Normalized :=
  inferInstanceAs (Decidable t.absolute.Normalized)

/-- The difference of normalized times borrows at most one second. -/
theorem timespecSub_normalized {a b : Timespec} (ha : a.Normalized) (hb : b.Normalized) :
    timespecSub a b =
      if a.tvNsec < b.tvNsec then
        ⟨a.tvSec - b.tvSec - 1, a.tvNsec - b.tvNsec + nanosecondsInSecond⟩
      else ⟨a.tvSec - b.tvSec, a.tvNsec - b.tvNsec⟩ := by
  have hnone : ∀ fuel (t : Timespec), 0 ≤ t.tvNsec → timespecBorrow fuel t = t := by
    intro fuel t ht
    cases fuel with
    | zero => rfl
    | succ fuel => rw [timespecBorrow, if_neg (by omega)]
  obtain ⟨ha₀, ha₁⟩ := ha
  obtain ⟨hb₀, hb₁⟩ := hb
  unfold timespecSub
  dsimp only
  split
  · obtain ⟨fuel, hfuel⟩ : ∃ fuel, (-(a.tvNsec - b.tvNsec)).toNat = fuel + 1 :=
      ⟨(-(a.tvNsec - b.tvNsec)).toNat - 1, by omega⟩
    rw [hfuel, timespecBorrow, if_pos (by dsimp only; omega)]
    apply hnone
    dsimp only
    omega
  · exact hnone _ _ (by dsimp only; omega)

theorem relativeTimeCmp_nonpos_iff (a b : RelativeTime) :
    relativeTimeCmp a b ≤ 0 ↔ a.relative.key ≤ b.relative.key := by
  rw [← not_lt, ← not_lt]
  exact not_congr (timespecCmp_pos_iff a.relative b.relative)

/-- An interval inside another one is not longer. -/
theorem absoluteTimeSubAbsolute_mono {x x' y y' : AbsoluteTime} (hx : x.Normalized)
    (hx' : x'.Normalized) (hy : y.Normalized) (hy' : y'.Normalized) (hfrom : x ≤ x')
    (hto : y' ≤ y) :
    (absoluteTimeSubAbsolute y' x').relative.key ≤ (absoluteTimeSubAbsolute y x).relative.key := by
  have hfrom' : x.key ≤ x'.key := hfrom
  have hto' : y'.key ≤ y.key := hto
  unfold absoluteTimeSubAbsolute
  rw [timespecSub_normalized hy' hx', timespecSub_normalized hy hx]
  obtain ⟨hx₀, hx₁⟩ := hx
  obtain ⟨hx'₀, hx'₁⟩ := hx'
  obtain ⟨hy₀, hy₁⟩ := hy
  obtain ⟨hy'₀, hy'₁⟩ := hy'
  simp only [AbsoluteTime.key, Timespec.key, Prod.Lex.toLex_le_toLex] at hfrom' hto' ⊢
  split_ifs <;> dsimp only <;> omega

theorem absoluteTimeSubAbsolute_self {x : AbsoluteTime} (hx : x.Normalized) :
    absoluteTimeSubAbsolute x x = ⟨⟨0, 0⟩⟩ := by
  unfold absoluteTimeSubAbsolute
  rw [timespecSub_normalized hx hx, if_neg (lt_irrefl _), Int.sub_self, Int.sub_self]

/-- A time made from a number of milliseconds that is not negative is not negative. -/
theorem relativeTimeFromMillisecond_nonneg {ms : Int} (h : 0 ≤ ms) :
    relativeTimeCmp ⟨⟨0, 0⟩⟩ (relativeTimeFromMillisecond ms) ≤ 0 := by
  rw [relativeTimeCmp_nonpos_iff]
  unfold relativeTimeFromMillisecond timespecAssignMillisecond
  simp only [if_neg (not_lt.mpr h), Timespec.key, Prod.Lex.toLex_le_toLex, millisecondsInSecond,
    nanosecondsInSecond]
  have hratio : Int.tdiv 1000000000 1000 = 1000000 := by decide
  rw [Int.tdiv_eq_ediv_of_nonneg h, hratio]
  omega

end EventSeq
