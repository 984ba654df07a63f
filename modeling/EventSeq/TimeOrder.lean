import EventSeq.Handlers
import EventSeq.SchedulerRuns

/-!
# Callbacks and events in the order of their times

The bound that an iteration sets for the event times is the later of the clock reading and the first
pending callback.  An event between the two is handled too early: before its time has come, or
before a callback that is due earlier.
-/

namespace EventSeq

variable {σ κ : Type} {D : Dispatch σ} {externTime : AbsoluteTime} {waitDelay : DelayList κ} {s : σ}

/-- The time of the event has come, and no callback is pending that is due earlier. -/
def Timely (externTime : AbsoluteTime) (waitDelay : DelayList κ) (e : EventNode) : Prop :=
  e.time ≤ externTime ∧ ∀ d ∈ waitDelay.entries, e.time ≤ d.time

/-- No event that can be handled lies between the clock reading and the first pending callback. -/
def GapClear (D : Dispatch σ) (externTime : AbsoluteTime) (waitDelay : DelayList κ) (s : σ) : Prop :=
  ∀ d, waitDelay.entries.head? = some d → ∀ e ∈ D.events s, (D.readyPosition s e).isSome →
    ¬(min d.time externTime < e.time ∧ e.time ≤ max d.time externTime)

theorem maxEventTime_eq (externTime : AbsoluteTime) (waitDelay : DelayList κ) :
    maxEventTime externTime waitDelay =
      match waitDelay.entries.head? with
      | none => externTime
      | some d => max d.time externTime := by
  rw [maxEventTime]
  cases waitDelay.entries with
  | nil => rfl
  | cons d rest =>
      show (if _ then d.time else externTime) = max d.time externTime
      split
      · rename_i hlater
        rw [max_eq_left ((absoluteTimeCmp_pos_iff _ _).mp hlater).le]
      · rename_i hnot
        rw [max_eq_right (not_lt.mp fun hlt => hnot ((absoluteTimeCmp_pos_iff _ _).mpr hlt))]

/-- The first entry of the delay list is the earliest. -/
theorem DelayList.head_le {d : DelayEntry κ} (hd : waitDelay.entries.head? = some d) :
    ∀ d' ∈ waitDelay.entries, d.time ≤ d'.time := by
  intro d' hd'
  have hsorted := waitDelay.sorted
  cases hentries : waitDelay.entries with
  | nil =>
      rw [hentries] at hd'
      cases hd'
  | cons first rest =>
      rw [hentries] at hd hd' hsorted
      cases hd
      rcases List.mem_cons.mp hd' with rfl | hrest
      · exact le_rfl
      · exact (List.pairwise_cons.mp hsorted).1 d' hrest

/-- An event within the bound of the iteration is timely unless it lies in the gap. -/
theorem timely_iff {e : EventNode} (hle : e.time ≤ maxEventTime externTime waitDelay) :
    Timely externTime waitDelay e ↔ ∀ d, waitDelay.entries.head? = some d →
      ¬(min d.time externTime < e.time ∧ e.time ≤ max d.time externTime) := by
  rw [maxEventTime_eq] at hle
  constructor
  · rintro ⟨hinput, hdelays⟩ d hd ⟨hlt, -⟩
    have hpending := hdelays d (List.mem_of_mem_head? hd)
    exact absurd hlt (not_lt.mpr (le_min hpending hinput))
  · intro hgap
    cases hd : waitDelay.entries.head? with
    | none =>
        rw [hd] at hle
        rw [List.head?_eq_none_iff] at hd
        exact ⟨hle, by simp [hd]⟩
    | some d =>
        rw [hd] at hle
        have hmin := not_lt.mp fun hlt => hgap d hd ⟨hlt, hle⟩
        exact ⟨hmin.trans (min_le_right _ _), fun d' hd' =>
          (hmin.trans (min_le_left _ _)).trans (DelayList.head_le hd d' hd')⟩

/-! ## Rounds -/

/-- Every round is a call of `process_events_until` with the bound for its delay list. -/
theorem iterationLoop_rounds {C : Callbacks σ κ} {fuel : Nat} {io : IoCall σ}
    {it : IterationState σ κ} {r : Round σ κ} (hr : r ∈ (iterationLoop D C externTime fuel io it).1) :
    ∃ fuel' proc s, r.invocations =
      (processEventsUntil D fuel' (maxEventTime externTime r.waitDelay) (proc : ProcessingState κ)
        s).1 := by
  induction fuel generalizing io it with
  | zero => cases hr
  | succ fuel ih =>
      rw [iterationLoop] at hr
      generalize processSingleScheduled C externTime it = scheduled at hr
      obtain ⟨hadScheduled, it'⟩ := scheduled
      dsimp only at hr
      generalize hrun : processEventsUntil D fuel (maxEventTime externTime it'.proc.waitDelay)
        it'.proc it'.state = result at hr
      -- each branch records the trace of this one call
      have hround : ∀ trace out, result = (trace, out) →
          trace = (processEventsUntil D fuel (maxEventTime externTime it'.proc.waitDelay) it'.proc
            it'.state).1 := by
        rintro trace out rfl
        rw [hrun]
      obtain ⟨trace, _ | ⟨hadEvents, proc, state⟩⟩ := result
      · obtain rfl := List.mem_singleton.mp hr
        exact ⟨fuel, it'.proc, it'.state, hround _ _ rfl⟩
      · dsimp only at hr
        split at hr
        · obtain rfl := List.mem_singleton.mp hr
          exact ⟨fuel, it'.proc, it'.state, hround _ _ rfl⟩
        · split at hr
          · obtain rfl := List.mem_singleton.mp hr
            exact ⟨fuel, it'.proc, it'.state, hround _ _ rfl⟩
          · rcases List.mem_cons.mp hr with rfl | hr
            · exact ⟨fuel, it'.proc, it'.state, hround _ _ rfl⟩
            · exact ih hr

theorem processIteration_rounds {C : Callbacks σ κ} {fuel : Nat} {it : IterationState σ κ}
    {r : Round σ κ} (hr : r ∈ (processIteration D C fuel externTime it).1) :
    ∃ fuel' proc s, r.invocations =
      (processEventsUntil D fuel' (maxEventTime externTime r.waitDelay) (proc : ProcessingState κ)
        s).1 := by
  unfold processIteration at hr
  split at hr
  · cases hr
  · exact iterationLoop_rounds hr

theorem timely_of_gapClear {fuel : Nat} {proc : ProcessingState κ} {i : Invocation σ}
    (hi : i ∈ (processEventsUntil D fuel (maxEventTime externTime waitDelay) proc s).1)
    (hgap : GapClear D externTime waitDelay i.before) : Timely externTime waitDelay i.event := by
  obtain ⟨⟨hmem, hready, hle⟩, -⟩ := (processEventsUntil_trace D fuel _ proc s).canHandle hi
  rw [timely_iff hle]
  exact fun d hd => hgap d hd i.event hmem (by rw [hready]; rfl)

/-- With idle handlers every event of the gap is handled. -/
theorem gapClear_of_timely (hidle : D.Idle) (hnodup : ((D.events s).map EventNode.addr).Nodup)
    (hsorted : (D.events s).Pairwise fun a b => a.time ≤ b.time)
    (hpriority : ∀ e ∈ D.events s, int32Min < e.priority) {proc : ProcessingState κ} {fuel : Nat}
    (hfuel : (D.events s).length ≤ fuel)
    (htimely : ∀ i ∈ (processEventsUntil D (fuel + 1) (maxEventTime externTime waitDelay) proc s).1,
      Timely externTime waitDelay i.event) : GapClear D externTime waitDelay s := by
  intro d hd e he hready hgap
  have hle : e.time ≤ maxEventTime externTime waitDelay := by
    rw [maxEventTime_eq, hd]
    exact hgap.2
  have hisReady : D.isReady (maxEventTime externTime waitDelay) s e := by
    simp [Dispatch.isReady, hready, hle]
  obtain ⟨first, q, hcalls, -, -, hevents, -⟩ :=
    processEventsUntil_idle hidle hnodup hsorted hfuel proc he hisReady (hpriority e he)
  have hmem : e ∈ first.map Invocation.event := by
    rw [hevents]
    exact List.mem_filter.mpr ⟨he, hisReady⟩
  obtain ⟨i, hi, rfl⟩ := List.mem_map.mp hmem
  have hcall := htimely i (by rw [hcalls]; exact List.mem_append_left _ hi)
  exact (timely_iff hle).mp hcall d hd hgap

/-- If no handler call of an iteration finds an event in the gap, every event is handled in time.
If a call of `process_events_until` finds one, then idle handlers are called on it. -/
theorem iteration_keeps_time_order (D : Dispatch σ) (C : Callbacks σ κ) (externTime : AbsoluteTime) :
    (∀ fuel (it : IterationState σ κ),
      (∀ r ∈ (processIteration D C fuel externTime it).1, ∀ i ∈ r.invocations,
        GapClear D externTime r.waitDelay i.before) →
      ∀ r ∈ (processIteration D C fuel externTime it).1, ∀ i ∈ r.invocations,
        Timely externTime r.waitDelay i.event) ∧
    ∀ (waitDelay : DelayList κ) s, ((D.events s).map EventNode.addr).Nodup →
      (D.events s).Pairwise (fun a b => a.time ≤ b.time) →
      (∀ e ∈ D.events s, int32Min < e.priority) → ∀ proc fuel, (D.events s).length ≤ fuel →
      ((∀ i ∈ (processEventsUntil D.idle (fuel + 1) (maxEventTime externTime waitDelay)
          (proc : ProcessingState κ) s).1, Timely externTime waitDelay i.event) ↔
        GapClear D externTime waitDelay s) := by
  constructor
  · intro fuel it hgap r hr i hi
    have hclear := hgap r hr i hi
    obtain ⟨fuel', proc, s, hinvocations⟩ := processIteration_rounds hr
    rw [hinvocations] at hi
    exact timely_of_gapClear hi hclear
  · intro waitDelay s hnodup hsorted hpriority proc fuel hfuel
    constructor
    · exact gapClear_of_timely D.idle_idle hnodup hsorted hpriority hfuel
    · intro hclear i hi
      refine timely_of_gapClear hi ?_
      rw [(processEventsUntil_trace D.idle (fuel + 1) _ proc s).before_eq D.idle_idle hi]
      exact hclear

/-! ## An event in the future -/

/-- A `print` node with one event at it. -/
def printAt (sec : Int) : World where
  events := ⟨[⟨1, some (.node 0), 0, { (default : EventData) with time := ⟨⟨sec, 0⟩⟩ }⟩], 1⟩
  nodes := [⟨false, [none], [], .print⟩]
  channels := []
  predicates := []
  deliveries := []
  draws := 0
  log := []

/-- Callbacks that do nothing, at the given times. -/
def delaysAt (secs : List Int) (hsorted : secs.Pairwise (· ≤ ·)) : DelayList Unit where
  entries := secs.map fun sec => ⟨none, ⟨⟨sec, 0⟩⟩⟩
  sorted := by
    refine List.pairwise_map.mpr (hsorted.imp fun {a b} hle => ?_)
    show toLex (a, (0 : Int)) ≤ toLex (b, 0)
    rw [Prod.Lex.toLex_le_toLex]
    omega

def quietCallbacks : Callbacks World Unit where
  callback _ _ s := (s, [])
  processIo _ _ s := .ok (s, [])

def iterationAt (w : World) (waitDelay : DelayList Unit) : IterationState World Unit where
  state := w
  proc := ⟨waitDelay, ⟨⟨0, 0⟩⟩, int32Min, false⟩
  ios := 0

/-- At second 5 an event of second 4 is handled, with a callback pending for second 10. -/
theorem iteration_keeps_time_order_printed :
    ∀ r ∈ (processIteration (World.dispatch simplePlatform) quietCallbacks 4 ⟨⟨5, 0⟩⟩
        (iterationAt (printAt 4) (delaysAt [10] (by decide)))).1,
      ∀ i ∈ r.invocations, Timely ⟨⟨5, 0⟩⟩ r.waitDelay i.event := by
  apply (iteration_keeps_time_order (World.dispatch simplePlatform) quietCallbacks ⟨⟨5, 0⟩⟩).1
  obtain ⟨e, out, io, io', hrounds⟩ : ∃ e out io io',
      (processIteration (World.dispatch simplePlatform) quietCallbacks 4 ⟨⟨5, 0⟩⟩
        (iterationAt (printAt 4) (delaysAt [10] (by decide)))).1 =
      [⟨io, delaysAt [10] (by decide), [⟨printAt 4, e, .node 0, out⟩]⟩,
        ⟨io', delaysAt [10] (by decide), []⟩] := ⟨_, _, _, _, rfl⟩
  rw [hrounds]
  intro r hr i hi d hd e' he' _ hgap
  have hr' : r.waitDelay = delaysAt [10] (by decide) ∧ i.before = printAt 4 := by
    rcases List.mem_cons.mp hr with rfl | hr
    · exact ⟨rfl, congrArg Invocation.before (List.mem_singleton.mp hi)⟩
    · obtain rfl := List.mem_singleton.mp hr
      cases hi
  rw [hr'.1] at hd
  rw [hr'.2] at he'
  cases hd
  obtain rfl := List.mem_singleton.mp he'
  -- the event of second 4 is before both bounds of the gap
  refine absurd hgap.1 (not_lt.mpr (le_min ?_ ?_)) <;>
    exact le_of_lt ((absoluteTimeCmp_pos_iff _ _).mp (by decide))

/-- At second 5 an event of second 7 is handled because a callback is pending for second 10, and an
event of second 4 before a callback that is due since second 2. -/
theorem events_handled_too_early :
    (∃ r ∈ (processIteration (World.dispatch simplePlatform) quietCallbacks 4 ⟨⟨5, 0⟩⟩
        (iterationAt (printAt 7) (delaysAt [10] (by decide)))).1,
      ∃ i ∈ r.invocations, i.event.time = ⟨⟨7, 0⟩⟩ ∧ ¬Timely ⟨⟨5, 0⟩⟩ r.waitDelay i.event) ∧
    ∃ r ∈ (processIteration (World.dispatch simplePlatform) quietCallbacks 4 ⟨⟨5, 0⟩⟩
        (iterationAt (printAt 4) (delaysAt [1, 2] (by decide)))).1,
      ∃ i ∈ r.invocations, i.event.time = ⟨⟨4, 0⟩⟩ ∧ ¬Timely ⟨⟨5, 0⟩⟩ r.waitDelay i.event := by
  constructor
  · refine ⟨_, List.mem_cons_self, _, List.mem_cons_self, rfl, fun htimely => ?_⟩
    have hfuture : (⟨⟨5, 0⟩⟩ : AbsoluteTime) < ⟨⟨7, 0⟩⟩ :=
      (absoluteTimeCmp_pos_iff _ _).mp (by decide)
    exact absurd htimely.1 (not_le.mpr hfuture)
  · refine ⟨_, List.mem_cons_self, _, List.mem_cons_self, rfl, fun htimely => ?_⟩
    have hdue : (⟨⟨2, 0⟩⟩ : AbsoluteTime) < ⟨⟨4, 0⟩⟩ :=
      (absoluteTimeCmp_pos_iff _ _).mp (by decide)
    exact absurd (htimely.2 ⟨none, ⟨⟨2, 0⟩⟩⟩ List.mem_cons_self) (not_le.mpr hdue)

end EventSeq
