import EventSeq.SchedulerRuns

/-!
# What a stable call of the scheduler leaves behind

`process_events_until` returns `false` when no pass has called a handler.  Then every event up to the
bound was met and was not ready, and `has_future_events` tells of the others, so that
`process_iteration` does not wait for input while an event is ready.
-/

namespace EventSeq

open Lib

variable {σ κ : Type} {D : Dispatch σ} {maxTime : AbsoluteTime} {passPriority : Int} {fuel : Nat}

/-! ## The scan -/

theorem scanEvents_future_iff (l : List EventNode) (n : Int) :
    (scanEvents maxTime l n).2 = true ↔ ∃ e ∈ l, maxTime < e.time := by
  induction l generalizing n with
  | nil => simp [scanEvents]
  | cons ev rest ih =>
      rw [scanEvents, List.exists_mem_cons_iff]
      split
      · rename_i hlate
        exact iff_of_true rfl (.inl ((absoluteTimeCmp_pos_iff _ _).mp hlate))
      · rename_i hnot
        have hle : ¬maxTime < ev.time := fun hlt => hnot ((absoluteTimeCmp_pos_iff _ _).mpr hlt)
        rw [ih, or_iff_right hle]

/-- A scan that meets no later event takes the highest priority of all. -/
theorem le_scanEvents (l : List EventNode) (n : Int)
    (hall : ∀ e ∈ l, e.time ≤ maxTime) :
    n ≤ (scanEvents maxTime l n).1 ∧ ∀ e ∈ l, e.priority ≤ (scanEvents maxTime l n).1 := by
  induction l generalizing n with
  | nil => simp [scanEvents]
  | cons ev rest ih =>
      obtain ⟨hev, hrest⟩ := List.forall_mem_cons.mp hall
      have hnot : ¬absoluteTimeCmp ev.time maxTime > 0 :=
        fun hlate => not_lt.mpr hev ((absoluteTimeCmp_pos_iff _ _).mp hlate)
      rw [scanEvents, if_neg hnot, List.forall_mem_cons]
      have hmax : n ≤ (if ev.priority > n then ev.priority else n) ∧
          ev.priority ≤ (if ev.priority > n then ev.priority else n) := by
        split <;> omega
      obtain ⟨hn, hpriorities⟩ := ih (if ev.priority > n then ev.priority else n) hrest
      exact ⟨hmax.1.trans hn, hmax.2.trans hn, hpriorities⟩

/-! ## A pass that calls no handler -/

/-- What such a pass has met of the list: nothing of its priority or below is ready, up to the
first ready event that is too late. -/
def Dispatch.Met (D : Dispatch σ) (maxTime : AbsoluteTime) (passPriority : Int) (s : σ)
    (l : List EventNode) (hasFutureEvents : Bool) : Prop :=
  (∀ e ∈ l, e.priority ≤ passPriority → D.readyPosition s e = none) ∨
    hasFutureEvents = true ∧ ∃ met late rest, l = met ++ late :: rest ∧ maxTime < late.time ∧
      ∀ e ∈ met, e.priority ≤ passPriority → D.readyPosition s e = none

theorem Dispatch.Met.cons {s : σ} {ev : EventNode} {l : List EventNode} {hasFutureEvents : Bool}
    (h : D.Met maxTime passPriority s l hasFutureEvents)
    (hev : ev.priority ≤ passPriority → D.readyPosition s ev = none) :
    D.Met maxTime passPriority s (ev :: l) hasFutureEvents := by
  rcases h with hall | ⟨hfuture, met, late, rest, rfl, hlate, hmet⟩
  · exact .inl (List.forall_mem_cons.mpr ⟨hev, hall⟩)
  · exact .inr ⟨hfuture, ev :: met, late, rest, rfl, hlate, List.forall_mem_cons.mpr ⟨hev, hmet⟩⟩

theorem PassState.note_stable (p : PassState σ) (passPriority : Int) (ev : EventNode) :
    (p.note passPriority ev).stable = p.stable ∧
      (p.note passPriority ev).hasFutureEvents = p.hasFutureEvents := by
  unfold note
  split <;> exact ⟨rfl, rfl⟩

/-- A pass that ends stable has called no handler. -/
theorem runPass_unchanged {cursor : Option Addr} {p q : PassState σ} {trace : List (Invocation σ)}
    (h : runPass D maxTime passPriority fuel cursor p = (trace, .ok q)) (hstable : q.stable = true) :
    p.stable = true ∧ q.state = p.state := by
  induction fuel generalizing cursor p trace with
  | zero =>
      cases cursor with
      | none =>
          cases h
          exact ⟨hstable, rfl⟩
      | some a => cases h
  | succ fuel ih =>
      cases cursor with
      | none =>
          cases h
          exact ⟨hstable, rfl⟩
      | some a =>
          rw [runPass] at h
          cases hev : KeyedList.lookup EventNode.addr a (D.events p.state) with
          | none =>
              rw [hev] at h
              cases h
          | some ev =>
              have hnoteStable := (p.note_stable passPriority ev).1
              have hnoteState := p.note_state passPriority ev
              rw [hev] at h
              dsimp only at h
              split at h
              · exact ih h
              · split at h
                · exact hnoteStable ▸ hnoteState ▸ ih h
                · split at h
                  · cases h
                    exact ⟨hnoteStable ▸ hstable, hnoteState⟩
                  · -- after a call the pass is not stable any more
                    split at h
                    · cases h
                    · cases h
                      cases hstable
                    · split at h
                      · cases h
                      · rename_i next _
                        generalize hrest : runPass D maxTime passPriority fuel next _ = result at h
                        obtain ⟨trace', out⟩ := result
                        cases h
                        cases (ih hrest).1

/-- A stable pass has met the list from its cursor on. -/
theorem runPass_stable {pre rest : List EventNode} {p q : PassState σ} {trace : List (Invocation σ)}
    (hsplit : D.events p.state = pre ++ rest)
    (hnodup : ((D.events p.state).map EventNode.addr).Nodup)
    (h : runPass D maxTime passPriority fuel (rest.head?.map EventNode.addr) p = (trace, .ok q))
    (hstable : q.stable = true) :
    (p.hasFutureEvents = true → q.hasFutureEvents = true) ∧
      (q.hasFutureEvents = true → p.hasFutureEvents = true ∨ ∃ e ∈ rest, maxTime < e.time) ∧
      D.Met maxTime passPriority p.state rest q.hasFutureEvents := by
  induction rest generalizing pre p fuel trace with
  | nil =>
      have hq : p = q := by cases fuel <;> cases h <;> rfl
      subst hq
      exact ⟨id, .inl, .inl (by simp)⟩
  | cons ev rest ih =>
      have hsplit' : D.events p.state = (pre ++ [ev]) ++ rest := by rw [hsplit]; simp
      rw [List.head?_cons, Option.map_some] at h
      cases fuel with
      | zero => cases h
      | succ fuel =>
          by_cases habove : passPriority < ev.priority
          · rw [runPass_above hsplit hnodup habove] at h
            obtain ⟨hkeep, hfuture, hmet⟩ := ih hsplit' hnodup h
            refine ⟨hkeep, fun hq => ?_, hmet.cons fun hle => absurd habove hle.not_gt⟩
            exact (hfuture hq).imp_right fun ⟨e, he, hlate⟩ => ⟨e, List.mem_cons_of_mem _ he, hlate⟩
          · have hle := not_lt.mp habove
            have hnoteFuture := (p.note_stable passPriority ev).2
            have hnoteState := p.note_state passPriority ev
            cases hready : D.readyPosition p.state ev with
            | none =>
                rw [runPass_unready hsplit hnodup hle hready] at h
                obtain ⟨hkeep, hfuture, hmet⟩ :=
                  @ih fuel (pre ++ [ev]) (p.note passPriority ev) trace
                    (by rw [hnoteState, hsplit']) (by rw [hnoteState]; exact hnodup) h
                rw [hnoteState] at hmet
                rw [hnoteFuture] at hkeep hfuture
                refine ⟨hkeep, fun hq => ?_, hmet.cons fun _ => hready⟩
                exact (hfuture hq).imp_right
                  fun ⟨e, he, hlate⟩ => ⟨e, List.mem_cons_of_mem _ he, hlate⟩
            | some position =>
                by_cases hlate : maxTime < ev.time
                · rw [runPass_late hsplit hnodup hle hready hlate] at h
                  cases h
                  refine ⟨fun _ => rfl, fun _ => .inr ⟨ev, List.mem_cons_self, hlate⟩, ?_⟩
                  exact .inr ⟨rfl, [], ev, rest, rfl, hlate, by simp⟩
                · -- a handler is called, and the pass is not stable
                  exfalso
                  rw [runPass_call hsplit hnodup hle hready (not_lt.mp hlate)] at h
                  dsimp only at h
                  split at h
                  · cases h
                  · cases h
                    cases hstable
                  · split at h
                    · cases h
                    · rename_i next _
                      generalize hrest : runPass D maxTime passPriority fuel next _ = result at h
                      obtain ⟨trace', out⟩ := result
                      cases h
                      cases (runPass_unchanged hrest hstable).1

/-! ## The passes of a call -/

theorem runPasses_unchanged {p q : PassState σ} {n : Int} {trace : List (Invocation σ)}
    (h : runPasses D maxTime passPriority fuel p = (trace, .ok (n, q))) (hstable : q.stable = true) :
    p.stable = true ∧ q.state = p.state := by
  induction fuel generalizing passPriority p trace with
  | zero => cases h
  | succ fuel ih =>
      rw [runPasses] at h
      split at h
      · dsimp only at h
        split at h
        · cases h
        · rename_i r hpass
          generalize hrest : runPasses D maxTime p.nextPriority fuel r = result at h
          obtain ⟨trace', out⟩ := result
          cases h
          obtain ⟨hr, hstate⟩ := ih hrest
          obtain ⟨hp, hstate'⟩ := runPass_unchanged hpass hr
          exact ⟨hp, hstate.trans hstate'⟩
      · cases h
        exact ⟨hstable, rfl⟩

/-- The first of stable passes has met the whole list. -/
theorem runPasses_stable {p q : PassState σ} {n : Int} {trace : List (Invocation σ)}
    (hnodup : ((D.events p.state).map EventNode.addr).Nodup)
    (h : runPasses D maxTime passPriority fuel p = (trace, .ok (n, q))) (hstable : q.stable = true) :
    (p.hasFutureEvents = true → q.hasFutureEvents = true) ∧
      (q.hasFutureEvents = true →
        p.hasFutureEvents = true ∨ ∃ e ∈ D.events p.state, maxTime < e.time) ∧
      (int32Min < p.nextPriority →
        D.Met maxTime p.nextPriority p.state (D.events p.state) q.hasFutureEvents) := by
  induction fuel generalizing passPriority p trace with
  | zero => cases h
  | succ fuel ih =>
      rw [runPasses] at h
      split at h
      · dsimp only at h
        split at h
        · cases h
        · rename_i trace₁ r hpass
          generalize hrest : runPasses D maxTime p.nextPriority fuel r = result at h
          obtain ⟨trace', out⟩ := result
          cases h
          -- a pass before the last one is stable too
          obtain ⟨hr, -⟩ := runPasses_unchanged hrest hstable
          obtain ⟨-, hstate⟩ := runPass_unchanged hpass hr
          obtain ⟨hkeep, hfuture, hmet⟩ := @runPass_stable _ D maxTime p.nextPriority fuel [] _
            { p with nextPriority := int32Min } r trace₁ rfl hnodup hpass hr
          obtain ⟨hkeep', hfuture', -⟩ := ih (by rw [hstate]; exact hnodup) hrest
          rw [hstate] at hfuture'
          refine ⟨fun hp => hkeep' (hkeep hp), fun hq => ?_, fun _ => ?_⟩
          · rcases hfuture' hq with hr' | hlate
            · exact hfuture hr'
            · exact .inr hlate
          · rcases hmet with hall | ⟨hr', hmet⟩
            · exact .inl hall
            · exact .inr ⟨hkeep' hr', hmet⟩
      · cases h
        rename_i hdone
        exact ⟨id, .inl, fun hgt => absurd hgt hdone⟩

/-! ## A call that returns `false` -/

section

variable {proc proc' : ProcessingState κ} {s s' : σ} {trace : List (Invocation σ)}

theorem processEventsUntil_unchanged
    (h : processEventsUntil D fuel maxTime proc s = (trace, .ok (false, proc', s'))) : s' = s := by
  rw [processEventsUntil] at h
  dsimp only at h
  split at h
  · cases h
  · rename_i passPriority q hpasses
    rw [Prod.mk.injEq, Except.ok.injEq, Prod.mk.injEq, Prod.mk.injEq, Bool.not_eq_false'] at h
    obtain ⟨-, hstable, -, rfl⟩ := h
    exact (runPasses_unchanged hpasses hstable).2

/-- The call has met the list at the priority of the scan. -/
theorem processEventsUntil_stable (hnodup : ((D.events s).map EventNode.addr).Nodup)
    (h : processEventsUntil D fuel maxTime proc s = (trace, .ok (false, proc', s'))) :
    (proc'.hasFutureEvents = true ↔ ∃ e ∈ D.events s, maxTime < e.time) ∧
      (int32Min < (scanEvents maxTime (D.events s) int32Min).1 →
        D.Met maxTime (scanEvents maxTime (D.events s) int32Min).1 s (D.events s)
          proc'.hasFutureEvents) := by
  rw [processEventsUntil] at h
  dsimp only at h
  split at h
  · cases h
  · rename_i passPriority q hpasses
    rw [Prod.mk.injEq, Except.ok.injEq, Prod.mk.injEq, Prod.mk.injEq, Bool.not_eq_false'] at h
    obtain ⟨-, hstable, rfl, rfl⟩ := h
    obtain ⟨hkeep, hfuture, hmet⟩ := runPasses_stable hnodup hpasses hstable
    dsimp only at hkeep hfuture hmet
    refine ⟨⟨fun hq => ?_, fun hlate => ?_⟩, hmet⟩
    · exact (hfuture hq).elim (scanEvents_future_iff _ _).mp id
    · exact hkeep ((scanEvents_future_iff _ _).mpr hlate)

/-- Where no event is later than the bound, nothing is ready. -/
theorem processEventsUntil_nothing_ready (hnodup : ((D.events s).map EventNode.addr).Nodup)
    (hpriority : ∀ e ∈ D.events s, int32Min < e.priority)
    (h : processEventsUntil D fuel maxTime proc s = (trace, .ok (false, proc', s')))
    (hfuture : proc'.hasFutureEvents = false) : ∀ e ∈ D.events s, D.readyPosition s e = none := by
  intro e he
  obtain ⟨hiff, hmet⟩ := processEventsUntil_stable hnodup h
  have hnone : ∀ x ∈ D.events s, x.time ≤ maxTime := fun x hx => not_lt.mp fun hlate => by
    have htrue := hiff.mpr ⟨x, hx, hlate⟩
    rw [hfuture] at htrue
    cases htrue
  have hscan := (le_scanEvents (D.events s) int32Min hnone).2 e he
  rcases hmet ((hpriority e he).trans_le hscan) with hall | ⟨htrue, -⟩
  · exact hall e he hscan
  · rw [hfuture] at htrue
    cases htrue

/-- In a sorted list nothing up to the bound is ready. -/
theorem processEventsUntil_sorted (hnodup : ((D.events s).map EventNode.addr).Nodup)
    (hpriority : ∀ e ∈ D.events s, int32Min < e.priority)
    (hsorted : (D.events s).Pairwise fun a b => a.time ≤ b.time)
    (h : processEventsUntil D fuel maxTime proc s = (trace, .ok (false, proc', s'))) :
    ∀ e ∈ D.events s, e.time ≤ maxTime → D.readyPosition s e = none := by
  intro e he htime
  obtain ⟨-, hmet⟩ := processEventsUntil_stable hnodup h
  have hscan := (@scanEvents_spec maxTime (D.events s) hsorted int32Min).2.1 e he htime
  rcases hmet ((hpriority e he).trans_le hscan) with hall | ⟨-, met, late, rest, hsplit, hlate, hmet⟩
  · exact hall e he hscan
  · -- an event up to the bound stands before the late one
    rw [hsplit] at he hsorted
    rcases List.mem_append.mp he with he | he
    · exact hmet e he hscan
    · have hge : late.time ≤ e.time := by
        rcases List.mem_cons.mp he with rfl | he
        · exact le_rfl
        · exact (List.pairwise_cons.mp (List.pairwise_append.mp hsorted).2.1).1 e he
      exact absurd htime (hlate.trans_le hge).not_ge

end

/-! ## Waiting for input -/

/-- Iterations one after the other, each with its clock reading and its bound on the loops, and all
their rounds. -/
def processIterations (D : Dispatch σ) (C : Callbacks σ κ) :
    List (AbsoluteTime × Nat) → IterationState σ κ →
      List (Round σ κ) × Except Fault (IterationState σ κ)
  | [], it => ([], .ok it)
  | (externTime, fuel) :: readings, it =>
      match processIteration D C fuel externTime it with
      | (rounds, .error f) => (rounds, .error f)
      | (rounds, .ok it) =>
          let (rounds', result) := processIterations D C readings it
          (rounds ++ rounds', result)

theorem processIterations_singleton (C : Callbacks σ κ) (externTime : AbsoluteTime)
    (it : IterationState σ κ) :
    processIterations D C [(externTime, fuel)] it = processIteration D C fuel externTime it := by
  rw [processIterations]
  generalize processIteration D C fuel externTime it = result
  obtain ⟨rounds, _ | it'⟩ := result
  · rfl
  · exact Prod.ext (List.append_nil rounds) rfl

/-- An iteration ends with a call of `process_events_until` that returns `false`. -/
theorem iterationLoop_last (C : Callbacks σ κ) {externTime : AbsoluteTime}
    {io : IoCall σ} {it it' : IterationState σ κ} {rounds : List (Round σ κ)}
    (h : iterationLoop D C externTime fuel io it = (rounds, .ok it')) :
    ∃ fuel' maxTime proc s trace,
      processEventsUntil D fuel' maxTime proc s = (trace, .ok (false, it'.proc, it'.state)) := by
  induction fuel generalizing io it rounds with
  | zero => cases h
  | succ fuel ih =>
      rw [iterationLoop] at h
      generalize processSingleScheduled C externTime it = scheduled at h
      obtain ⟨hadScheduled, popped⟩ := scheduled
      dsimp only at h
      split at h
      · cases h
      · rename_i trace hadEvents proc state hcall
        split at h
        · rename_i hidle
          rw [Bool.and_eq_true, Bool.not_eq_true', Bool.not_eq_true'] at hidle
          rw [hidle.2] at hcall
          cases h
          exact ⟨_, _, _, _, _, hcall⟩
        · split at h
          · cases h
          · generalize hrest : iterationLoop D C externTime fuel _ _ = result at h
            obtain ⟨rounds', out⟩ := result
            cases h
            exact ih hrest

theorem processIteration_last (C : Callbacks σ κ) {externTime : AbsoluteTime}
    {it it' : IterationState σ κ} {rounds : List (Round σ κ)}
    (h : processIteration D C fuel externTime it = (rounds, .ok it')) :
    ∃ fuel' maxTime proc s trace,
      processEventsUntil D fuel' maxTime proc s = (trace, .ok (false, it'.proc, it'.state)) := by
  unfold processIteration at h
  split at h
  · cases h
  · exact iterationLoop_last C h

theorem processIterations_last (C : Callbacks σ κ) {readings : List (AbsoluteTime × Nat)}
    {it it' : IterationState σ κ} {rounds : List (Round σ κ)}
    (h : processIterations D C readings it = (rounds, .ok it')) :
    it' = it ∨ ∃ fuel maxTime proc s trace,
      processEventsUntil D fuel maxTime proc s = (trace, .ok (false, it'.proc, it'.state)) := by
  induction readings generalizing it rounds with
  | nil =>
      cases h
      exact .inl rfl
  | cons reading readings ih =>
      obtain ⟨externTime, fuel⟩ := reading
      rw [processIterations] at h
      split at h
      · cases h
      · rename_i rounds₁ it₁ hfirst
        generalize hrest : processIterations D C readings it₁ = result at h
        obtain ⟨rounds', out⟩ := result
        cases h
        rcases ih hrest with rfl | hlast
        · exact .inr (processIteration_last C hfirst)
        · exact .inr hlast

/-- A call that returns `false` leaves no ready event behind, save one that is later than the bound
and that `has_future_events` tells of; so from an empty list on no iteration waits for input while an
event is ready. -/
theorem stable_pass_leaves_nothing_ready (D : Dispatch σ) (C : Callbacks σ κ) :
    (∀ fuel maxTime (proc : ProcessingState κ) s trace proc' s',
      ((D.events s).map EventNode.addr).Nodup → (∀ e ∈ D.events s, int32Min < e.priority) →
      processEventsUntil D fuel maxTime proc s = (trace, .ok (false, proc', s')) →
      (proc'.hasFutureEvents = false → ∀ e ∈ D.events s', D.readyPosition s' e = none) ∧
      ((D.events s).Pairwise (fun a b => a.time ≤ b.time) →
        (∀ e ∈ D.events s', e.time ≤ maxTime → D.readyPosition s' e = none) ∧
        (proc'.hasFutureEvents = true ↔ ∃ e ∈ D.events s', maxTime < e.time))) ∧
    ∀ readings (it it' : IterationState σ κ) rounds, D.events it.state = [] →
      processIterations D C readings it = (rounds, .ok it') →
      ((D.events it'.state).map EventNode.addr).Nodup →
      (∀ e ∈ D.events it'.state, int32Min < e.priority) →
      ∀ externTime, maxIoTimeout it'.proc externTime ≠ some zeroTo →
        ∀ e ∈ D.events it'.state, D.readyPosition it'.state e = none := by
  constructor
  · intro fuel maxTime proc s trace proc' s' hnodup hpriority h
    have hiff := (processEventsUntil_stable hnodup h).1
    rw [processEventsUntil_unchanged h]
    exact ⟨processEventsUntil_nothing_ready hnodup hpriority h,
      fun hsorted => ⟨processEventsUntil_sorted hnodup hpriority hsorted h, hiff⟩⟩
  · intro readings it it' rounds hempty h hnodup hpriority externTime hblocks
    -- with events left for the future the loop would not block
    have hfuture : it'.proc.hasFutureEvents = false := by
      by_contra hfuture
      rw [maxIoTimeout, if_pos (by simpa using hfuture)] at hblocks
      exact hblocks rfl
    rcases processIterations_last C h with rfl | ⟨fuel, maxTime, proc, s, trace, hlast⟩
    · rw [hempty]
      simp
    · obtain rfl := processEventsUntil_unchanged hlast
      exact processEventsUntil_nothing_ready hnodup hpriority hlast hfuture

/-- Two nodes, of which the first waits for a new event. -/
def waitingDispatch : Dispatch (List EventNode) where
  events s := s
  waitingNewEvent _ position := position = .node 0
  hasHandler _ _ := true
  handleEvent _ event s := .ok (true, s.erase event)

/-- An event at the node `addr`, due at the second `sec`. -/
def eventDueAt (addr : Nat) (sec : Int) : EventNode where
  addr := addr
  position := some (.node addr)
  inputIndex := 0
  data :=
    { code := ⟨0, 0, 0⟩, ttl := 1, priority := 0, payload := 0, modifiers := emptyModifierSet,
      time := ⟨⟨sec, 0⟩⟩ }

/-- The first input is two events, of which the second is due. -/
def twoEventsInput : Callbacks (List EventNode) Unit where
  callback _ _ s := (s, [])
  processIo io _ s := .ok (if io = 0 then [eventDueAt 0 1, eventDueAt 1 2] else s, [])

/-- The state of the loop before the first input. -/
def beforeInput : IterationState (List EventNode) Unit :=
  ⟨[], ⟨.empty, ⟨⟨0, 0⟩⟩, 0, false⟩, 0⟩

/-- A call that finds one event waiting and one too late returns `false`; and an iteration that takes
the event that is due may wait for input, with the other one waiting in the list. -/
theorem stable_pass_leaves_nothing_ready_waiting :
    (∃ proc', processEventsUntil waitingDispatch 8 ⟨⟨5, 0⟩⟩ beforeInput.proc
        [eventDueAt 0 1, eventDueAt 1 9] = ([], .ok (false, proc', [eventDueAt 0 1, eventDueAt 1 9])) ∧
      proc'.hasFutureEvents = true ∧
      ∀ e ∈ [eventDueAt 0 1, eventDueAt 1 9], e.time ≤ ⟨⟨5, 0⟩⟩ →
        waitingDispatch.readyPosition [eventDueAt 0 1, eventDueAt 1 9] e = none) ∧
    ∃ rounds it', processIterations waitingDispatch twoEventsInput [(⟨⟨5, 0⟩⟩, 8)] beforeInput =
        (rounds, .ok it') ∧ rounds.length = 2 ∧ it'.state = [eventDueAt 0 1] ∧
      maxIoTimeout it'.proc ⟨⟨6, 0⟩⟩ = none ∧
      ∀ e ∈ it'.state, waitingDispatch.readyPosition it'.state e = none := by
  have hstable := stable_pass_leaves_nothing_ready waitingDispatch twoEventsInput
  constructor
  · obtain ⟨proc', hcall, hfuture⟩ : ∃ proc', processEventsUntil waitingDispatch 8 ⟨⟨5, 0⟩⟩
        beforeInput.proc [eventDueAt 0 1, eventDueAt 1 9] =
          ([], .ok (false, proc', [eventDueAt 0 1, eventDueAt 1 9])) ∧
        proc'.hasFutureEvents = true := ⟨_, rfl, rfl⟩
    have hready := (hstable.1 8 ⟨⟨5, 0⟩⟩ _ _ _ _ _ (by decide) (by decide) hcall).2 (by decide)
    exact ⟨proc', hcall, hfuture, hready.1⟩
  · obtain ⟨rounds, it', hrun, hlength, hstate, htimeout⟩ : ∃ rounds it',
        processIterations waitingDispatch twoEventsInput [(⟨⟨5, 0⟩⟩, 8)] beforeInput =
          (rounds, .ok it') ∧ rounds.length = 2 ∧ it'.state = [eventDueAt 0 1] ∧
        maxIoTimeout it'.proc ⟨⟨6, 0⟩⟩ = none := ⟨_, _, rfl, rfl, rfl, rfl⟩
    refine ⟨rounds, it', hrun, hlength, hstate, htimeout, ?_⟩
    refine hstable.2 _ _ _ _ rfl hrun ?_ ?_ ⟨⟨6, 0⟩⟩ ?_
    · rw [hstate]
      decide
    · rw [hstate]
      decide
    · rw [htimeout]
      exact (Option.some_ne_none _).symm

end EventSeq
