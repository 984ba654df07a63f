import EventSeq.SchedulerRuns

/-!
# Draining the list

`process_events_until` repeated until it returns `false`, and what one call does when all events have
one priority: it makes a single pass, which ends at the first ready event if the handler returns
`true`.
-/

namespace EventSeq

open Lib

variable {σ κ : Type} {D : Dispatch σ} {maxTime : AbsoluteTime} {s s' : σ} {n : Int}
  {pre rest : List EventNode} {ev : EventNode} {fuel : Nat} {p : Position}

/-- `process_events_until` until it returns `false`. -/
def drain (D : Dispatch σ) (maxTime : AbsoluteTime) :
    Nat → ProcessingState κ → σ → List (Invocation σ) × Except Fault σ
  | 0, _, _ => ([], .error .diverges)
  | fuel + 1, proc, s =>
      match processEventsUntil D fuel maxTime proc s with
      | (trace, .error f) => (trace, .error f)
      | (trace, .ok (hadEvents, proc, s)) =>
          if hadEvents then
            let (trace', result) := drain D maxTime fuel proc s
            (trace ++ trace', result)
          else (trace, .ok s)

/-! ## One priority -/

/-- All events have the priority `n` and are not later than `maxTime`. -/
def AllAt (maxTime : AbsoluteTime) (n : Int) (l : List EventNode) : Prop :=
  ∀ e ∈ l, e.priority = n ∧ e.time ≤ maxTime

theorem scanEvents_allAt {l : List EventNode} (h : AllAt maxTime n l) {m : Int} (hm : m < n) :
    scanEvents maxTime l m = (if l = [] then m else n, false) := by
  induction l generalizing m with
  | nil => rfl
  | cons ev rest ih =>
      obtain ⟨hpriority, htime⟩ := h ev List.mem_cons_self
      have hrest : AllAt maxTime n rest := fun e he => h e (List.mem_cons_of_mem _ he)
      have hnot : ¬absoluteTimeCmp ev.time maxTime > 0 :=
        fun hlate => not_lt.mpr htime ((absoluteTimeCmp_pos_iff _ _).mp hlate)
      rw [scanEvents, if_neg hnot, hpriority, if_pos hm]
      -- from `n` on the maximum does not change
      have hfixed : ∀ l, AllAt maxTime n l → scanEvents maxTime l n = (n, false) := by
        intro l hl
        induction l with
        | nil => rfl
        | cons x l ihl =>
            obtain ⟨hx, hxtime⟩ := hl x List.mem_cons_self
            have hxnot : ¬absoluteTimeCmp x.time maxTime > 0 :=
              fun hlate => not_lt.mpr hxtime ((absoluteTimeCmp_pos_iff _ _).mp hlate)
            rw [scanEvents, if_neg hxnot, hx, if_neg (lt_irrefl n)]
            exact ihl fun e he => hl e (List.mem_cons_of_mem _ he)
      rw [hfixed rest hrest, if_neg (List.cons_ne_nil ev rest)]

/-- A pass at the one priority goes over what is not ready. -/
theorem runPass_unready_before {done : List EventNode} {q : PassState σ}
    (hsplit : D.events q.state = done ++ (pre ++ rest))
    (hnodup : ((D.events q.state).map EventNode.addr).Nodup)
    (hpre : ∀ e ∈ pre, e.priority = n ∧ D.readyPosition q.state e = none) :
    runPass D maxTime n (fuel + pre.length) ((pre ++ rest).head?.map EventNode.addr) q =
      runPass D maxTime n fuel (rest.head?.map EventNode.addr) q := by
  induction pre generalizing done with
  | nil => rfl
  | cons ev pre ih =>
      obtain ⟨hpriority, hready⟩ := hpre ev List.mem_cons_self
      have hnote : q.note n ev = q := if_neg fun h => not_lt.mpr hpriority.ge h.1
      have hstep := @runPass_unready _ D maxTime n done (pre ++ rest) ev q (fuel + pre.length)
        hsplit hnodup hpriority.le hready
      rw [hnote] at hstep
      refine Eq.trans hstep (@ih (done ++ [ev]) ?_ fun e he => hpre e (List.mem_cons_of_mem _ he))
      rw [hsplit]
      simp

/-- What a call is made of when all events have one priority: a pass over the whole list. -/
theorem processEventsUntil_allAt (hn : int32Min < n) (hall : AllAt maxTime n (D.events s))
    (hne : D.events s ≠ []) {trace : List (Invocation σ)} {out : Except Fault (PassState σ)}
    (hpass : runPass D maxTime n fuel ((D.events s).head?.map EventNode.addr)
      ⟨s, int32Min, true, false⟩ = (trace, out))
    (hdone : ∀ q, out = .ok q → q.nextPriority = int32Min ∧ 0 < fuel) (proc : ProcessingState κ) :
    ∃ proc', processEventsUntil D (fuel + 1) maxTime proc s =
      (trace, out.map fun q => (!q.stable, proc', q.state)) := by
  have hscan := scanEvents_allAt hall hn
  rw [if_neg hne] at hscan
  -- the scan finds the one priority, and the pass at it leaves no other
  cases out with
  | error f =>
      have hpasses := @runPasses_error _ D maxTime proc.passPriority ⟨s, n, true, false⟩ fuel trace f
        hn hpass
      refine ⟨proc, ?_⟩
      simp only [processEventsUntil, hscan, hpasses]
      rfl
  | ok q =>
      obtain ⟨hnext, hfuel⟩ := hdone q rfl
      obtain ⟨fuel, rfl⟩ := Nat.exists_eq_succ_of_ne_zero hfuel.ne'
      have hpasses := @runPasses_succ _ D maxTime proc.passPriority ⟨s, n, true, false⟩ (fuel + 1)
        trace q hn hpass
      rw [runPasses_done hnext.le, List.append_nil] at hpasses
      refine ⟨{ proc with
        reachedTime := ((D.events q.state).head?.map EventNode.time).getD maxTime
        passPriority := n
        hasFutureEvents := q.hasFutureEvents }, ?_⟩
      simp only [processEventsUntil, hscan, hpasses]
      rfl

/-- With one priority and nothing ready a call returns `false`. -/
theorem processEventsUntil_unready (hn : int32Min < n) (hall : AllAt maxTime n (D.events s))
    (hnodup : ((D.events s).map EventNode.addr).Nodup)
    (hunready : ∀ e ∈ D.events s, D.readyPosition s e = none)
    (hfuel : (D.events s).length + 2 ≤ fuel) (proc : ProcessingState κ) :
    ∃ proc', processEventsUntil D fuel maxTime proc s = ([], .ok (false, proc', s)) := by
  obtain ⟨k, rfl⟩ := Nat.exists_eq_add_of_le' hfuel
  by_cases hne : D.events s = []
  · refine ⟨⟨proc.waitDelay, maxTime, proc.passPriority, false⟩, ?_⟩
    simp only [processEventsUntil, hne, scanEvents, ← Nat.add_assoc,
      @runPasses_done _ D maxTime proc.passPriority ⟨s, int32Min, true, false⟩ _ le_rfl]
    rfl
  · have hskip := @runPass_unready_before _ D maxTime n (D.events s) [] (k + 1) []
      ⟨s, int32Min, true, false⟩ (by simp) hnodup fun e he => ⟨(hall e he).1, hunready e he⟩
    rw [List.append_nil] at hskip
    obtain ⟨proc', hcall⟩ := processEventsUntil_allAt hn hall hne (hskip.trans rfl)
      (fun q hq => by cases hq; exact ⟨rfl, by omega⟩) proc
    refine ⟨proc', ?_⟩
    have hfuel' : k + ((D.events s).length + 2) = k + 1 + (D.events s).length + 1 := by omega
    rw [hfuel', hcall]
    rfl

/-- With one priority a call is of the first ready event, and ends with it when the handler returns
`true`. -/
theorem processEventsUntil_first (hn : int32Min < n) (hall : AllAt maxTime n (D.events s))
    (hnodup : ((D.events s).map EventNode.addr).Nodup) (hsplit : D.events s = pre ++ ev :: rest)
    (hunready : ∀ e ∈ pre, D.readyPosition s e = none) (hready : D.readyPosition s ev = some p)
    (hfuel : (D.events s).length + 2 ≤ fuel) (proc : ProcessingState κ) :
    (∀ f, D.handleEvent p ev s = .error f →
      processEventsUntil D fuel maxTime proc s = ([⟨s, ev, p, .error f⟩], .error f)) ∧
    ∀ s', D.handleEvent p ev s = .ok (true, s') → ∃ proc',
      processEventsUntil D fuel maxTime proc s =
        ([⟨s, ev, p, .ok (true, s')⟩], .ok (true, proc', s')) := by
  have hne : D.events s ≠ [] := by simp [hsplit]
  have hev := hall ev (by simp [hsplit])
  have hlength : (D.events s).length = pre.length + rest.length + 1 := by
    rw [hsplit]
    simp
    omega
  obtain ⟨k, rfl⟩ := Nat.exists_eq_add_of_le' hfuel
  have hfuel' : k + ((D.events s).length + 2) = k + rest.length + 1 + 1 + pre.length + 1 := by omega
  let q : PassState σ := ⟨s, int32Min, true, false⟩
  -- the pass goes over the events that are not ready and stops behind the first call
  have hskip := @runPass_unready_before _ D maxTime n pre (ev :: rest) (k + rest.length + 1 + 1) []
    q hsplit hnodup fun e he => ⟨(hall e (by simp [hsplit, he])).1, hunready e he⟩
  rw [← hsplit] at hskip
  have hcall := @runPass_call _ D maxTime n pre rest ev q (k + rest.length + 1) hsplit hnodup
    hev.1.le p hready hev.2
  have hpass := hskip.trans hcall
  rw [hfuel']
  constructor
  · intro f hrun
    have hrun' : D.handleEvent p ev q.state = .error f := hrun
    simp only [hrun'] at hpass
    obtain ⟨proc', hresult⟩ := processEventsUntil_allAt hn hall hne hpass (fun _ hq => by cases hq) proc
    exact hresult
  · intro s' hrun
    have hrun' : D.handleEvent p ev q.state = .ok (true, s') := hrun
    simp only [hrun'] at hpass
    obtain ⟨proc', hresult⟩ := processEventsUntil_allAt hn hall hne hpass
      (fun _ hq => by cases hq; exact ⟨rfl, by omega⟩) proc
    exact ⟨proc', hresult⟩

end EventSeq
