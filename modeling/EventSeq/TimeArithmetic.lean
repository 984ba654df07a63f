import EventSeq.Lib.Signed64
import EventSeq.Time

/-!
# Times as numbers of nanoseconds

Addition, subtraction and comparison of normalized times are those of their totals in nanoseconds.
The conversions from nanoseconds and from milliseconds are exact, but a negative number of whole
seconds gets a `tv_nsec` of a full second.
-/

namespace EventSeq

open Lib

/-- The nanoseconds a time stands for. -/
def Timespec.total (t : Timespec) : Int := t.tvSec * nanosecondsInSecond + t.tvNsec

def RelativeTime.Normalized (t : RelativeTime) : Prop := t.relative.Normalized

/-! ## Conversions -/

/-- The quotient that both conversions compute: truncated, and one less for negative numbers. -/
def secondsOf (x unit : Int) : Int :=
  let sec := x.tdiv unit
  if x < 0 then sec - 1 else sec

/-- The intermediate values of `timespec_assign_nanosecond`. -/
def nanosecondSteps (ns : Int) : List Int :=
  let sec := secondsOf ns nanosecondsInSecond
  [ns.tdiv nanosecondsInSecond, sec, sec * nanosecondsInSecond, ns - sec * nanosecondsInSecond]

/-- The intermediate values of `timespec_assign_millisecond`. -/
def millisecondSteps (ms : Int) : List Int :=
  let sec := secondsOf ms millisecondsInSecond
  let rest := ms - sec * millisecondsInSecond
  [ms.tdiv millisecondsInSecond, sec, sec * millisecondsInSecond, rest,
    rest * (nanosecondsInSecond.tdiv millisecondsInSecond)]

/-- The time is normalized and stands for the number, and nothing overflowed on the way to it. -/
structure Converts (t : Timespec) (steps : List Int) (total : Int) : Prop where
  normalized : t.Normalized
  exact : t.total = total
  inRange : ∀ x ∈ steps, InInt64 x

/-- Rounded down, except that a negative multiple is rounded to the number below. -/
theorem secondsOf_eq (x : Int) {unit : Int} (hunit : 0 < unit) :
    secondsOf x unit = if x < 0 ∧ x % unit = 0 then x / unit - 1 else x / unit := by
  unfold secondsOf
  by_cases hneg : x < 0
  · have hquotient : x.tdiv unit = -((-x) / unit) := by
      rw [← Int.tdiv_eq_ediv_of_nonneg (by omega), Int.neg_tdiv, neg_neg]
    rw [hquotient, Int.neg_ediv, Int.sign_eq_one_of_pos hunit, if_pos hneg]
    by_cases hdvd : unit ∣ x
    · rw [if_pos hdvd, if_pos ⟨hneg, Int.emod_eq_zero_of_dvd hdvd⟩]
      omega
    · rw [if_neg hdvd, if_neg fun h => hdvd (Int.dvd_of_emod_eq_zero h.2)]
      omega
  · rw [Int.tdiv_eq_ediv_of_nonneg (not_lt.mp hneg), if_neg hneg, if_neg fun h => hneg h.1]

theorem tdiv_eq_secondsOf (x unit : Int) :
    x.tdiv unit = if x < 0 then secondsOf x unit + 1 else secondsOf x unit := by
  unfold secondsOf
  dsimp only
  split
  · omega
  · rfl

/-- A number of nanoseconds that is converted well. -/
def NanosecondsConvert (ns : Int) : Prop :=
  0 ≤ ns ∨ (ns % nanosecondsInSecond ≠ 0 ∧ -9223372036 * nanosecondsInSecond < ns)

/-- A number of milliseconds that is converted well. -/
def MillisecondsConvert (ms : Int) : Prop :=
  0 ≤ ms ∨ (ms % millisecondsInSecond ≠ 0 ∧ -9223372036854775 * millisecondsInSecond < ms)

theorem timespecAssignNanosecond_eq (ns : Int) :
    timespecAssignNanosecond ns =
      ⟨secondsOf ns 1000000000, ns - secondsOf ns 1000000000 * 1000000000⟩ := rfl

theorem timespecAssignMillisecond_eq (ms : Int) :
    timespecAssignMillisecond ms =
      ⟨secondsOf ms 1000, (ms - secondsOf ms 1000 * 1000) * 1000000⟩ := rfl

/-- The rest lies within a unit, and fills it for a negative whole number of units. -/
theorem rest_lt_iff (x : Int) {unit : Int} (hunit : 0 < unit) :
    x - secondsOf x unit * unit < unit ↔ ¬(x < 0 ∧ x % unit = 0) := by
  have hdivision := Int.ediv_mul_add_emod x unit
  have hrest := Int.emod_lt_of_pos x hunit
  rw [secondsOf_eq x hunit]
  split
  · rename_i hwhole
    rw [Int.sub_mul, Int.one_mul]
    simp only [hwhole, and_self, not_true, iff_false, not_lt]
    omega
  · rename_i hother
    simp only [hother, not_false_iff, iff_true]
    omega

theorem secondsOf_floor {x unit : Int} (hunit : 0 < unit) (hother : ¬(x < 0 ∧ x % unit = 0)) :
    secondsOf x unit = x / unit := by
  rw [secondsOf_eq x hunit, if_neg hother]

/-- Where the number is rounded down, all values of a conversion are in range if the product is. -/
theorem conversion_inRange {x unit scale : Int} (hunit : 1 < unit) (hscale : 0 < scale)
    (hone : unit * scale = 1000000000) (hx : InInt64 x) (hother : ¬(x < 0 ∧ x % unit = 0))
    (hproduct : -2 ^ 63 ≤ x / unit * unit) :
    ∀ y ∈ [x.tdiv unit, secondsOf x unit, secondsOf x unit * unit, x - secondsOf x unit * unit,
      (x - secondsOf x unit * unit) * scale], InInt64 y := by
  have hpos : 0 < unit := by omega
  have hquotient := tdiv_eq_secondsOf x unit
  rw [secondsOf_floor hpos hother] at hquotient ⊢
  obtain ⟨-, hhigh⟩ := hx
  have hdivision := Int.ediv_mul_add_emod x unit
  have hnonneg := Int.emod_nonneg x hpos.ne'
  have hlt := Int.emod_lt_of_pos x hpos
  have hunit_le : unit ≤ unit * scale := le_mul_of_one_le_right hpos.le hscale
  -- the quotient is not farther from zero than the product
  have hfloor : -2 ^ 63 ≤ x / unit ∧ x / unit < 2 ^ 63 := by
    by_cases hsign : 0 ≤ x / unit
    · have hle : x / unit ≤ x / unit * unit := le_mul_of_one_le_right hsign hpos
      omega
    · have hle : x / unit * unit ≤ x / unit := mul_le_of_one_le_right (by omega) hpos
      omega
  have hrest : x - x / unit * unit = x % unit := by omega
  have hscaled : 0 ≤ x % unit * scale := mul_nonneg hnonneg hscale.le
  have hbound : x % unit * scale < unit * scale := mul_lt_mul_of_pos_right hlt hscale
  rw [hrest, hquotient]
  simp only [List.forall_mem_cons, InInt64]
  refine ⟨?_, ?_, ?_, ?_, ?_, List.forall_mem_nil _⟩
  · split
    · rename_i hneg
      have hbelow : x / unit < 0 := Int.ediv_neg_of_neg_of_pos hneg hpos
      omega
    · exact hfloor
  · exact hfloor
  all_goals omega

/-- A conversion of `x` units of which `scale` nanoseconds make one. -/
theorem converts_iff {x unit scale : Int} {steps : List Int} (hunit : 1 < unit) (hscale : 0 < scale)
    (hone : unit * scale = 1000000000) (hx : InInt64 x) (hmem : secondsOf x unit * unit ∈ steps)
    (hsub : steps ⊆ [x.tdiv unit, secondsOf x unit, secondsOf x unit * unit,
      x - secondsOf x unit * unit, (x - secondsOf x unit * unit) * scale]) :
    Converts ⟨secondsOf x unit, (x - secondsOf x unit * unit) * scale⟩ steps (x * scale) ↔
      ¬(x < 0 ∧ x % unit = 0) ∧ -2 ^ 63 ≤ x / unit * unit := by
  have hpos : 0 < unit := by omega
  -- the nanoseconds are in range just when the rest is less than a unit
  have hrest : (x - secondsOf x unit * unit) * scale < nanosecondsInSecond ↔
      x - secondsOf x unit * unit < unit := by
    rw [nanosecondsInSecond, ← hone]
    exact mul_lt_mul_iff_left₀ hscale
  constructor
  · intro h
    have hother := (rest_lt_iff x hpos).mp (hrest.mp h.normalized.lt)
    refine ⟨hother, ?_⟩
    rw [← secondsOf_floor hpos hother]
    exact (h.inRange _ hmem).1
  · rintro ⟨hother, hproduct⟩
    refine ⟨⟨?_, ?_⟩, ?_, ?_⟩
    · show 0 ≤ (x - secondsOf x unit * unit) * scale
      apply mul_nonneg _ hscale.le
      rw [secondsOf_floor hpos hother]
      have hfloor := Int.ediv_mul_le x hpos.ne'
      omega
    · exact hrest.mpr ((rest_lt_iff x hpos).mpr hother)
    · show secondsOf x unit * nanosecondsInSecond + (x - secondsOf x unit * unit) * scale = x * scale
      rw [nanosecondsInSecond, ← hone]
      ring
    · exact fun y hy => conversion_inRange hunit hscale hone hx hother hproduct y (hsub hy)

theorem timespecAssignNanosecond_converts_iff {ns : Int} (hns : InInt64 ns) :
    Converts (timespecAssignNanosecond ns) (nanosecondSteps ns) ns ↔ NanosecondsConvert ns := by
  have hiff := @converts_iff ns 1000000000 1 (nanosecondSteps ns) (by decide) one_pos (by decide) hns
    (by simp [nanosecondSteps, nanosecondsInSecond]) (by simp [nanosecondSteps, nanosecondsInSecond])
  rw [mul_one, mul_one] at hiff
  rw [timespecAssignNanosecond_eq, hiff]
  unfold NanosecondsConvert nanosecondsInSecond
  obtain ⟨hlow, hhigh⟩ := hns
  omega

theorem timespecAssignMillisecond_converts_iff {ms : Int} (hms : InInt64 ms) :
    Converts (timespecAssignMillisecond ms) (millisecondSteps ms) (ms * 1000000) ↔
      MillisecondsConvert ms := by
  have hiff := @converts_iff ms 1000 1000000 (millisecondSteps ms) (by decide) (by decide) (by decide)
    hms (by simp [millisecondSteps, millisecondsInSecond]) (List.Subset.refl _)
  rw [timespecAssignMillisecond_eq, hiff]
  unfold MillisecondsConvert millisecondsInSecond
  obtain ⟨hlow, hhigh⟩ := hms
  omega

/-- The quotient grows with the number, and by at least one past a whole unit. -/
theorem secondsOf_lt_or_eq {a b unit : Int} (hunit : 0 < unit) (h : a < b) :
    secondsOf a unit < secondsOf b unit ∨ secondsOf a unit = secondsOf b unit := by
  have hle : a / unit ≤ b / unit := Int.ediv_le_ediv hunit h.le
  rw [secondsOf_eq a hunit, secondsOf_eq b hunit]
  split_ifs with ha hb hb
  · omega
  · omega
  · -- `b` is a whole number of units above `a`, so the quotient of `a` is smaller already.
    have hstrict : a / unit < b / unit := by
      apply Int.ediv_lt_of_lt_mul hunit
      rwa [Int.ediv_mul_cancel (Int.dvd_of_emod_eq_zero hb.2)]
    omega
  · omega

theorem timespecCmp_self (t : Timespec) : timespecCmp t t = 0 := by
  simp [timespecCmp]

theorem timespecCmp_swap (a b : Timespec) : timespecCmp a b = -timespecCmp b a := by
  unfold timespecCmp
  split_ifs <;> omega

theorem timespecCmp_conversion_lt {a b unit scale : Int} (hunit : 0 < unit) (hscale : 0 < scale)
    (h : a < b) :
    timespecCmp ⟨secondsOf a unit, (a - secondsOf a unit * unit) * scale⟩
      ⟨secondsOf b unit, (b - secondsOf b unit * unit) * scale⟩ = -1 := by
  unfold timespecCmp
  rcases secondsOf_lt_or_eq hunit h with hsec | hsec
  · rw [if_neg hsec.not_gt, if_pos hsec]
  · have hrest : (a - secondsOf b unit * unit) * scale < (b - secondsOf b unit * unit) * scale := by
      apply mul_lt_mul_of_pos_right _ hscale
      exact Int.sub_lt_sub_right h _
    simp only [hsec, gt_iff_lt, lt_irrefl, if_false, if_neg hrest.not_gt, if_pos hrest]

/-- Seconds and the rest, at any scale of the rest, are ordered as the numbers they come from. -/
theorem timespecCmp_conversion {unit scale : Int} (hunit : 0 < unit) (hscale : 0 < scale)
    (a b : Int) :
    timespecCmp ⟨secondsOf a unit, (a - secondsOf a unit * unit) * scale⟩
      ⟨secondsOf b unit, (b - secondsOf b unit * unit) * scale⟩ = (a - b).sign := by
  rcases lt_trichotomy a b with h | rfl | h
  · rw [timespecCmp_conversion_lt hunit hscale h, Int.sign_eq_neg_one_of_neg (sub_neg.mpr h)]
  · rw [timespecCmp_self, Int.sub_self, Int.sign_zero]
  · rw [timespecCmp_swap, timespecCmp_conversion_lt hunit hscale h, neg_neg,
      Int.sign_eq_one_of_pos (sub_pos.mpr h)]

theorem timespecAssignNanosecond_cmp (a b : Int) :
    timespecCmp (timespecAssignNanosecond a) (timespecAssignNanosecond b) = (a - b).sign := by
  have h := timespecCmp_conversion (by decide : (0 : Int) < 1000000000) one_pos a b
  rwa [mul_one, mul_one] at h

theorem timespecAssignMillisecond_cmp (a b : Int) :
    timespecCmp (timespecAssignMillisecond a) (timespecAssignMillisecond b) = (a - b).sign :=
  timespecCmp_conversion (by decide : (0 : Int) < 1000) (by decide : (0 : Int) < 1000000) a b

/-- A conversion is exact and normalized, without overflow, just for the numbers that are not
negative, and for the negative ones that are not whole seconds and not within the last second of
the type; the order is kept for all of them. -/
theorem conversions_exact {x : Int} (hx : InInt64 x) (y : Int) :
    (Converts (relativeTimeFromNanosecond x).relative (nanosecondSteps x) x ↔
      NanosecondsConvert x) ∧
    (Converts (relativeTimeFromMillisecond x).relative (millisecondSteps x) (x * 1000000) ↔
      MillisecondsConvert x) ∧
    relativeTimeCmp (relativeTimeFromNanosecond x) (relativeTimeFromNanosecond y) =
      (x - y).sign ∧
    relativeTimeCmp (relativeTimeFromMillisecond x) (relativeTimeFromMillisecond y) =
      (x - y).sign := by
  refine ⟨?_, ?_, ?_, ?_⟩
  · exact timespecAssignNanosecond_converts_iff hx
  · exact timespecAssignMillisecond_converts_iff hx
  · exact timespecAssignNanosecond_cmp x y
  · exact timespecAssignMillisecond_cmp x y

theorem conversions_exact_negative :
    NanosecondsConvert (-1500000001) ∧ MillisecondsConvert (-1500000001) ∧
      Converts ⟨-2, 499999999⟩ (nanosecondSteps (-1500000001)) (-1500000001) ∧
      Converts ⟨-1500001, 999000000⟩ (millisecondSteps (-1500000001)) (-1500000001000000) ∧
      timespecCmp ⟨-2, 499999999⟩ ⟨-1, 500000000⟩ = -1 := by
  have hns : NanosecondsConvert (-1500000001) := by
    right
    decide
  have hms : MillisecondsConvert (-1500000001) := by
    right
    decide
  obtain ⟨hnanoseconds, hmilliseconds, hcmp, -⟩ :=
    @conversions_exact (-1500000001) (by decide) (-500000000)
  exact ⟨hns, hms, hnanoseconds.mpr hns, hmilliseconds.mpr hms, hcmp⟩

/-- Whole negative seconds get a full second of nanoseconds, and the least number overflows. -/
theorem conversions_not_normalized :
    (¬ ∀ ns, InInt64 ns → Converts (timespecAssignNanosecond ns) (nanosecondSteps ns) ns) ∧
      (¬ ∀ ms, InInt64 ms →
        Converts (timespecAssignMillisecond ms) (millisecondSteps ms) (ms * 1000000)) ∧
      timespecAssignNanosecond (-1000000000) = ⟨-2, 1000000000⟩ ∧
      timespecAssignMillisecond (-1000) = ⟨-2, 1000000000⟩ ∧
      InInt64 (-2 ^ 63) ∧ ¬ ∀ x ∈ nanosecondSteps (-2 ^ 63), InInt64 x := by
  have hns : timespecAssignNanosecond (-1000000000) = ⟨-2, 1000000000⟩ := by decide
  have hms : timespecAssignMillisecond (-1000) = ⟨-2, 1000000000⟩ := by decide
  have hfull : ¬ Timespec.Normalized ⟨-2, 1000000000⟩ := by decide
  refine ⟨fun h => ?_, fun h => ?_, hns, hms, by decide, by decide⟩
  · have hnormalized := (h (-1000000000) (by decide)).normalized
    rw [hns] at hnormalized
    exact hfull hnormalized
  · have hnormalized := (h (-1000) (by decide)).normalized
    rw [hms] at hnormalized
    exact hfull hnormalized

/-! ## Normalized times -/

theorem Timespec.eq_of_total_eq {a b : Timespec} (ha : a.Normalized) (hb : b.Normalized)
    (h : a.total = b.total) : a = b := by
  obtain ⟨ha₀, ha₁⟩ := ha
  obtain ⟨hb₀, hb₁⟩ := hb
  obtain ⟨s, n⟩ := a
  obtain ⟨s', n'⟩ := b
  simp only [Timespec.total, nanosecondsInSecond] at *
  have hsec : s = s' := by omega
  subst hsec
  have hnsec : n = n' := by omega
  rw [hnsec]

/-- The borrow loop keeps the total and never makes a full second of `tv_nsec`. -/
theorem timespecBorrow_spec (fuel : Nat) {t : Timespec} (ht : t.tvNsec < nanosecondsInSecond) :
    (timespecBorrow fuel t).tvNsec < nanosecondsInSecond ∧
      (timespecBorrow fuel t).total = t.total := by
  induction fuel generalizing t with
  | zero => exact ⟨ht, rfl⟩
  | succ fuel ih =>
      rw [timespecBorrow]
      split
      · rename_i hborrow
        have hless : t.tvNsec + nanosecondsInSecond < nanosecondsInSecond := by omega
        obtain ⟨hlt, htotal⟩ := @ih ⟨t.tvSec - 1, t.tvNsec + nanosecondsInSecond⟩ hless
        refine ⟨hlt, htotal.trans ?_⟩
        simp only [Timespec.total, nanosecondsInSecond]
        omega
      · exact ⟨ht, rfl⟩

theorem timespecSub_spec {a b : Timespec} (ha : a.Normalized) (hb : b.Normalized) :
    (timespecSub a b).Normalized ∧ (timespecSub a b).total = a.total - b.total := by
  have hdifference : a.tvNsec - b.tvNsec < nanosecondsInSecond :=
    lt_of_le_of_lt (Int.sub_le_self _ hb.nonneg) ha.lt
  obtain ⟨hlt, htotal⟩ := timespecBorrow_spec (-(a.tvNsec - b.tvNsec)).toNat
    (t := ⟨a.tvSec - b.tvSec, a.tvNsec - b.tvNsec⟩) hdifference
  refine ⟨⟨timespecBorrow_nonneg _ _ le_rfl, hlt⟩, htotal.trans ?_⟩
  simp only [Timespec.total]
  ring

/-- The carry loop keeps the total and never makes `tv_nsec` negative. -/
theorem timespecCarry_spec (fuel : Nat) {t : Timespec} (ht : 0 ≤ t.tvNsec) :
    0 ≤ (timespecCarry fuel t).tvNsec ∧ (timespecCarry fuel t).total = t.total := by
  induction fuel generalizing t with
  | zero => exact ⟨ht, rfl⟩
  | succ fuel ih =>
      rw [timespecCarry]
      split
      · rename_i hcarry
        obtain ⟨hnonneg, htotal⟩ :=
          @ih ⟨t.tvSec + 1, t.tvNsec - nanosecondsInSecond⟩ (sub_nonneg.mpr hcarry)
        refine ⟨hnonneg, htotal.trans ?_⟩
        simp only [Timespec.total, nanosecondsInSecond]
        omega
      · exact ⟨ht, rfl⟩

theorem timespecAdd_spec {a b : Timespec} (ha : a.Normalized) (hb : b.Normalized) :
    (timespecAdd a b).Normalized ∧ (timespecAdd a b).total = a.total + b.total := by
  have hsum : 0 ≤ a.tvNsec + b.tvNsec := Int.add_nonneg ha.nonneg hb.nonneg
  obtain ⟨hnonneg, htotal⟩ := timespecCarry_spec (a.tvNsec + b.tvNsec).toNat
    (t := ⟨a.tvSec + b.tvSec, a.tvNsec + b.tvNsec⟩) hsum
  refine ⟨⟨hnonneg, timespecCarry_lt _ _ le_rfl⟩, htotal.trans ?_⟩
  simp only [Timespec.total]
  ring

/-- The lexicographic comparison of normalized times is that of their totals. -/
theorem timespecCmp_eq_sign {a b : Timespec} (ha : a.Normalized) (hb : b.Normalized) :
    timespecCmp a b = (a.total - b.total).sign := by
  obtain ⟨ha₀, ha₁⟩ := ha
  obtain ⟨hb₀, hb₁⟩ := hb
  simp only [Timespec.total, nanosecondsInSecond] at *
  unfold timespecCmp
  split_ifs with h₁ h₂ h₃ h₄
  · rw [Int.sign_eq_one_of_pos]
    omega
  · rw [Int.sign_eq_neg_one_of_neg]
    omega
  · rw [Int.sign_eq_one_of_pos]
    omega
  · rw [Int.sign_eq_neg_one_of_neg]
    omega
  · have hzero : a.tvSec * 1000000000 + a.tvNsec - (b.tvSec * 1000000000 + b.tvNsec) = 0 := by omega
    rw [hzero, Int.sign_zero]

/-- More iterations than the bound allows would change nothing. -/
theorem timespecCarry_of_le {fuel more : Nat} (t : Timespec) (hfuel : t.tvNsec.toNat ≤ fuel)
    (hmore : fuel ≤ more) : timespecCarry more t = timespecCarry fuel t := by
  induction fuel generalizing t more with
  | zero =>
      cases more with
      | zero => rfl
      | succ more =>
          rw [timespecCarry, timespecCarry, if_neg]
          simp only [nanosecondsInSecond]
          omega
  | succ fuel ih =>
      obtain ⟨more, rfl⟩ : ∃ n, more = n + 1 := ⟨more - 1, by omega⟩
      rw [timespecCarry, timespecCarry]
      split
      · apply ih
        · simp only [nanosecondsInSecond] at *
          omega
        · omega
      · rfl

theorem timespecBorrow_of_le {fuel more : Nat} (t : Timespec) (hfuel : (-t.tvNsec).toNat ≤ fuel)
    (hmore : fuel ≤ more) : timespecBorrow more t = timespecBorrow fuel t := by
  induction fuel generalizing t more with
  | zero =>
      cases more with
      | zero => rfl
      | succ more =>
          rw [timespecBorrow, timespecBorrow, if_neg]
          omega
  | succ fuel ih =>
      obtain ⟨more, rfl⟩ : ∃ n, more = n + 1 := ⟨more - 1, by omega⟩
      rw [timespecBorrow, timespecBorrow]
      split
      · apply ih
        · simp only [nanosecondsInSecond] at *
          omega
        · omega
      · rfl

/-- What `timespec_add` and `timespec_sub` do: their loops end, and the result is the normalized
time of the sum and of the difference. -/
structure Exact (a b : Timespec) : Prop where
  addEnds : ∀ fuel, (a.tvNsec + b.tvNsec).toNat ≤ fuel →
    timespecCarry fuel ⟨a.tvSec + b.tvSec, a.tvNsec + b.tvNsec⟩ = timespecAdd a b
  addNormalized : (timespecAdd a b).Normalized
  addTotal : (timespecAdd a b).total = a.total + b.total
  subEnds : ∀ fuel, (-(a.tvNsec - b.tvNsec)).toNat ≤ fuel →
    timespecBorrow fuel ⟨a.tvSec - b.tvSec, a.tvNsec - b.tvNsec⟩ = timespecSub a b
  subNormalized : (timespecSub a b).Normalized
  subTotal : (timespecSub a b).total = a.total - b.total
  cmp : timespecCmp a b = (a.total - b.total).sign

theorem Timespec.Normalized.arithmetic {a b : Timespec} (ha : a.Normalized) (hb : b.Normalized) :
    Exact a b where
  addEnds _ hfuel := timespecCarry_of_le _ le_rfl hfuel
  addNormalized := (timespecAdd_spec ha hb).1
  addTotal := (timespecAdd_spec ha hb).2
  subEnds _ hfuel := timespecBorrow_of_le _ le_rfl hfuel
  subNormalized := (timespecSub_spec ha hb).1
  subTotal := (timespecSub_spec ha hb).2
  cmp := timespecCmp_eq_sign ha hb

section

variable {t s : AbsoluteTime} {r : RelativeTime}

theorem absoluteTime_sub_add (ht : t.Normalized) (hr : r.Normalized) :
    absoluteTimeAddRelative (absoluteTimeSubRelative t r) r = t := by
  have hsub := Timespec.Normalized.arithmetic ht hr
  have hadd := Timespec.Normalized.arithmetic hsub.subNormalized hr
  apply congrArg AbsoluteTime.mk
  apply Timespec.eq_of_total_eq hadd.addNormalized ht
  rw [hadd.addTotal, hsub.subTotal, sub_add_cancel]

theorem absoluteTime_add_sub (ht : t.Normalized) (hr : r.Normalized) :
    absoluteTimeSubAbsolute (absoluteTimeAddRelative t r) t = r := by
  have hadd := Timespec.Normalized.arithmetic ht hr
  have hsub := Timespec.Normalized.arithmetic hadd.addNormalized ht
  apply congrArg RelativeTime.mk
  apply Timespec.eq_of_total_eq hsub.subNormalized hr
  rw [hsub.subTotal, hadd.addTotal, add_sub_cancel_left]

/-- The delta against a threshold, as the window node compares them, is the later time against the
earlier one moved by the threshold. -/
theorem relativeTimeCmp_delta (ht : t.Normalized) (hs : s.Normalized) (hr : r.Normalized) :
    relativeTimeCmp (absoluteTimeSubAbsolute t s) r =
      absoluteTimeCmp t (absoluteTimeAddRelative s r) := by
  have hsub := Timespec.Normalized.arithmetic ht hs
  have hadd := Timespec.Normalized.arithmetic hs hr
  have hdelta := timespecCmp_eq_sign hsub.subNormalized hr
  have hmoved := timespecCmp_eq_sign ht hadd.addNormalized
  rw [hsub.subTotal] at hdelta
  rw [hadd.addTotal] at hmoved
  show timespecCmp (timespecSub t.absolute s.absolute) r.relative =
    timespecCmp t.absolute (timespecAdd s.absolute r.relative)
  rw [hdelta, hmoved, sub_sub]

end

theorem time_arithmetic_exact :
    (∀ a b : Timespec, a.Normalized → b.Normalized → Exact a b) ∧
      ∀ (t s : AbsoluteTime) (r : RelativeTime), t.Normalized → s.Normalized → r.Normalized →
        absoluteTimeAddRelative (absoluteTimeSubRelative t r) r = t ∧
          absoluteTimeSubAbsolute (absoluteTimeAddRelative t r) t = r ∧
          relativeTimeCmp (absoluteTimeSubAbsolute t s) r =
            absoluteTimeCmp t (absoluteTimeAddRelative s r) :=
  ⟨fun _ _ => Timespec.Normalized.arithmetic, fun _ _ _ ht hs hr =>
    ⟨absoluteTime_sub_add ht hr, absoluteTime_add_sub ht hr, relativeTimeCmp_delta ht hs hr⟩⟩

/-- Times before the clock's zero, with a carry and a borrow. -/
theorem time_arithmetic_exact_negative :
    Exact ⟨-3, 700000000⟩ ⟨1, 900000000⟩ ∧
      timespecAdd ⟨-3, 700000000⟩ ⟨1, 900000000⟩ = ⟨-1, 600000000⟩ ∧
      timespecSub ⟨-3, 700000000⟩ ⟨1, 900000000⟩ = ⟨-5, 800000000⟩ ∧
      absoluteTimeAddRelative (absoluteTimeSubRelative ⟨⟨-3, 700000000⟩⟩ ⟨⟨1, 900000000⟩⟩)
        ⟨⟨1, 900000000⟩⟩ = ⟨⟨-3, 700000000⟩⟩ ∧
      relativeTimeCmp (absoluteTimeSubAbsolute ⟨⟨-3, 700000000⟩⟩ ⟨⟨-5, 0⟩⟩) ⟨⟨1, 900000000⟩⟩ =
        absoluteTimeCmp ⟨⟨-3, 700000000⟩⟩
          (absoluteTimeAddRelative ⟨⟨-5, 0⟩⟩ ⟨⟨1, 900000000⟩⟩) := by
  have ha : Timespec.Normalized ⟨-3, 700000000⟩ := by decide
  have hb : Timespec.Normalized ⟨1, 900000000⟩ := by decide
  have hc : Timespec.Normalized ⟨-5, 0⟩ := by decide
  have hexact := time_arithmetic_exact.1 _ _ ha hb
  have htimes := time_arithmetic_exact.2 ⟨⟨-3, 700000000⟩⟩ ⟨⟨-5, 0⟩⟩ ⟨⟨1, 900000000⟩⟩ ha hc hb
  refine ⟨hexact, ?_, ?_, htimes.1, htimes.2.2⟩
  · apply Timespec.eq_of_total_eq hexact.addNormalized (by decide)
    rw [hexact.addTotal]
    decide
  · apply Timespec.eq_of_total_eq hexact.subNormalized (by decide)
    rw [hexact.subTotal]
    decide

end EventSeq
