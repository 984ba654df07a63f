import EventSeq.PriorityOrder
import EventSeq.RunningProgram

/-!
# A call of the scheduler returns

A handler that returns `false` leaves everything as it was, and a call of `process_events_until` ends
with the first one that returns `true`.  So the call makes no more passes than there are priorities,
each over the same list.
-/

namespace EventSeq

open Lib HashTable

variable {σ κ : Type} {D : Dispatch σ} {maxTime : AbsoluteTime} {s t : σ}

/-- Whatever handler may be called returns, and has changed nothing if it returns `false`. -/
structure Dispatch.Responds (D : Dispatch σ) (maxTime : AbsoluteTime) (s : σ) : Prop where
  nodup : ((D.events s).map EventNode.addr).Nodup
  returns : ∀ p e, D.CanHandle maxTime s p e →
    ∃ r s', D.handleEvent p e s = .ok (r, s') ∧ (r = false → s' = s)

/-- The handler was called in the state and has left it as it was. -/
def Invocation.Declines (s : σ) (i : Invocation σ) : Prop := i.before = s ∧ i.outcome = .ok (false, s)

/-- What the calls made from `s` on come to: all decline, or the last one takes its event. -/
inductive SchedulerOutcome (s : σ) : List (Invocation σ) → σ → Prop where
  | declined {trace : List (Invocation σ)} :
      (∀ i ∈ trace, i.Declines s) → SchedulerOutcome s trace s
  | taken {trace : List (Invocation σ)} {e : EventNode} {p : Position} {t : σ} :
      (∀ i ∈ trace, i.Declines s) → SchedulerOutcome s (trace ++ [⟨s, e, p, .ok (true, t)⟩]) t

theorem SchedulerOutcome.prepend {before trace : List (Invocation σ)}
    (hbefore : ∀ i ∈ before, i.Declines s) (h : SchedulerOutcome s trace t) :
    SchedulerOutcome s (before ++ trace) t := by
  have hboth : ∀ rest : List (Invocation σ), (∀ i ∈ rest, i.Declines s) →
      ∀ i ∈ before ++ rest, i.Declines s := by
    intro rest hrest i hi
    rcases List.mem_append.mp hi with hi | hi
    · exact hbefore i hi
    · exact hrest i hi
  cases h with
  | declined hall => exact .declined (hboth _ hall)
  | taken hall =>
      rw [← List.append_assoc]
      exact .taken (hboth _ hall)

/-! ## One pass -/

section

variable {passPriority : Int} {pre rest : List EventNode} {ev : EventNode} {p q : PassState σ}
  {fuel : Nat} {trace : List (Invocation σ)}

/-- A pass over `rest` that comes to `q`.  As long as no event is taken, the priority that it notes is
that of an event below. -/
structure PassEnd (passPriority : Int) (p : PassState σ) (rest : List EventNode)
    (trace : List (Invocation σ)) (q : PassState σ) : Prop where
  outcome : SchedulerOutcome p.state trace q.state
  next : q.nextPriority = int32Min ∨ (∀ i ∈ trace, i.Declines p.state) ∧ q.state = p.state ∧
    (q.nextPriority = p.nextPriority ∨
      ∃ e ∈ rest, q.nextPriority = e.priority ∧ e.priority < passPriority)
  stable : q.stable = true ↔ p.stable = true ∧ trace = []

theorem PassEnd.stop (hstate : q.state = p.state) (hstable : q.stable = p.stable)
    (hnext : q.nextPriority = p.nextPriority ∨
      ∃ e ∈ rest, q.nextPriority = e.priority ∧ e.priority < passPriority) :
    PassEnd passPriority p rest [] q where
  outcome := by
    rw [hstate]
    exact .declined (by simp)
  next := .inr ⟨by simp, hstate, hnext⟩
  stable := by simp [hstable]

/-- The priority that is noted for an event is its own or the one before. -/
theorem PassState.note_cases (p : PassState σ) (passPriority : Int) (ev : EventNode) :
    (p.note passPriority ev).nextPriority = p.nextPriority ∨
      (p.note passPriority ev).nextPriority = ev.priority ∧ ev.priority < passPriority := by
  unfold note
  split
  · rename_i h
    exact .inr ⟨rfl, h.1⟩
  · exact .inl rfl

/-- Events before `rest` that were passed over or that declined. -/
theorem PassEnd.after {p' : PassState σ} (before : List (Invocation σ))
    (h : PassEnd passPriority p' rest trace q) (hstate : p'.state = p.state)
    (hnext : p'.nextPriority = p.nextPriority ∨
      p'.nextPriority = ev.priority ∧ ev.priority < passPriority)
    (hbefore : ∀ i ∈ before, i.Declines p.state)
    (hstable : p'.stable = true ↔ p.stable = true ∧ before = []) :
    PassEnd passPriority p (ev :: rest) (before ++ trace) q := by
  obtain ⟨houtcome, hq, hstable'⟩ := h
  rw [hstate] at houtcome hq
  refine ⟨houtcome.prepend hbefore, ?_, ?_⟩
  · rcases hq with hq | ⟨hdeclines, hstate', hq⟩
    · exact .inl hq
    · refine .inr ⟨fun i hi => ?_, hstate', ?_⟩
      · rcases List.mem_append.mp hi with hi | hi
        · exact hbefore i hi
        · exact hdeclines i hi
      · rcases hq with hq | ⟨e, he, hq⟩
        · rcases hnext with hnext | ⟨hnext, hlt⟩
          · exact .inl (hq.trans hnext)
          · exact .inr ⟨ev, List.mem_cons_self, hq.trans hnext, hlt⟩
        · exact .inr ⟨e, List.mem_cons_of_mem _ he, hq⟩
  · rw [hstable', hstable, List.append_eq_nil_iff, and_assoc]

theorem runPass_responds (hresponds : D.Responds maxTime p.state)
    (hsplit : D.events p.state = pre ++ rest) (hfuel : rest.length ≤ fuel) :
    ∃ trace q, runPass D maxTime passPriority fuel (rest.head?.map EventNode.addr) p =
        (trace, .ok q) ∧ PassEnd passPriority p rest trace q := by
  have hnodup := hresponds.nodup
  induction rest generalizing pre p fuel with
  | nil => cases fuel <;> exact ⟨[], p, rfl, .stop rfl rfl (.inl rfl)⟩
  | cons ev rest ih =>
      obtain ⟨fuel, rfl⟩ := Nat.exists_eq_succ_of_ne_zero (Nat.ne_zero_of_lt hfuel)
      have hsplit' : D.events p.state = (pre ++ [ev]) ++ rest := by rw [hsplit]; simp
      have hfuel' := Nat.le_of_succ_le_succ hfuel
      show ∃ trace q, runPass D maxTime passPriority (fuel + 1) (some ev.addr) p = _ ∧ _
      by_cases habove : passPriority < ev.priority
      · obtain ⟨trace, q, hrun, hpass⟩ := ih hresponds hsplit' hfuel' hnodup
        exact ⟨trace, q, (runPass_above hsplit hnodup habove).trans hrun,
          PassEnd.after [] hpass rfl (.inl rfl) (by simp) (by simp)⟩
      · have hle := not_lt.mp habove
        have hnote := p.note_cases passPriority ev
        have hnoteState := p.note_state passPriority ev
        have hnoteStable : (p.note passPriority ev).stable = p.stable := by
          unfold PassState.note
          split <;> rfl
        cases hready : D.readyPosition p.state ev with
        | none =>
            obtain ⟨trace, q, hrun, hpass⟩ := @ih (pre ++ [ev]) (p.note passPriority ev) fuel
              (hnoteState ▸ hresponds) (by rw [hnoteState, hsplit']) hfuel'
              (by rw [hnoteState]; exact hnodup)
            exact ⟨trace, q, (runPass_unready hsplit hnodup hle hready).trans hrun,
              PassEnd.after [] hpass hnoteState hnote (by simp) (by simp [hnoteStable])⟩
        | some position =>
            by_cases hlate : maxTime < ev.time
            · refine ⟨[], _, runPass_late hsplit hnodup hle hready hlate,
                .stop hnoteState hnoteStable ?_⟩
              exact hnote.imp_right fun hnote => ⟨ev, List.mem_cons_self, hnote⟩
            · have htime := not_lt.mp hlate
              have hcan : D.CanHandle maxTime p.state position ev :=
                ⟨by rw [hsplit]; simp, hready, htime⟩
              obtain ⟨r, s', hrun, hsame⟩ := hresponds.returns position ev hcan
              have hcall := @runPass_call _ D maxTime passPriority pre rest ev p fuel hsplit hnodup hle
                position hready htime
              cases r with
              | true =>
                  -- the event is taken, and the pass is over
                  simp only [hrun] at hcall
                  exact ⟨_, _, hcall, @SchedulerOutcome.taken _ _ [] _ _ _ (by simp), .inl rfl, by simp⟩
              | false =>
                  obtain rfl := hsame rfl
                  simp only [hrun, Dispatch.nextEvent_split hsplit hnodup] at hcall
                  obtain ⟨trace, q, hrest, hpass⟩ := @ih (pre ++ [ev])
                    { p.note passPriority ev with state := p.state, stable := false } fuel hresponds
                    hsplit' hfuel' hnodup
                  rw [hrest] at hcall
                  refine ⟨_, q, hcall, PassEnd.after (p := p) [⟨p.state, ev, position, .ok (false, p.state)⟩]
                    hpass rfl hnote ?_ (by simp)⟩
                  intro i hi
                  obtain rfl := List.mem_singleton.mp hi
                  exact ⟨rfl, rfl⟩

end

/-! ## The passes of a call -/

section

variable {p : PassState σ} {passPriority : Int} {fuel : Nat}

/-- The events of a priority below that of the next pass. -/
def PassState.below (D : Dispatch σ) (p : PassState σ) : Nat :=
  (D.events p.state).countP fun e => e.priority < p.nextPriority

/-- An event of the lower priority counts for the higher one only. -/
theorem countP_priority_lt {l : List EventNode} {e : EventNode} {n : Int} (he : e ∈ l)
    (hlt : e.priority < n) :
    l.countP (fun x => x.priority < e.priority) < l.countP fun x => x.priority < n := by
  have hboth : l.countP (fun x => decide (x.priority < e.priority)) =
      (l.filter fun x => decide (x.priority < n)).countP fun x => decide (x.priority < e.priority) := by
    rw [List.countP_filter]
    apply List.countP_congr
    intro x _
    rw [Bool.and_eq_true, decide_eq_true_iff, decide_eq_true_iff]
    exact ⟨fun hx => ⟨hx, hx.trans hlt⟩, fun hx => hx.1⟩
  have hmem : e ∈ l.filter fun x => decide (x.priority < n) :=
    List.mem_filter.mpr ⟨he, decide_eq_true hlt⟩
  rw [hboth, List.countP_eq_length_filter (l := l)]
  exact List.countP_lt_length_iff.mpr ⟨e, hmem, by simp⟩

/-- Each pass but the last has the priority of an event below that of the pass before it. -/
theorem runPasses_responds (hresponds : D.Responds maxTime p.state)
    (hfuel : (D.events p.state).length + p.below D + 2 ≤ fuel) :
    ∃ trace n q, runPasses D maxTime passPriority fuel p = (trace, .ok (n, q)) ∧
      SchedulerOutcome p.state trace q.state ∧ (q.stable = true ↔ p.stable = true ∧ trace = []) := by
  induction fuel generalizing p passPriority with
  | zero => omega
  | succ fuel ih =>
      by_cases hgt : int32Min < p.nextPriority
      · obtain ⟨trace, q, hpass, hend⟩ := @runPass_responds _ D maxTime p.nextPriority []
          (D.events p.state) { p with nextPriority := int32Min } fuel hresponds rfl (by omega)
        have hsucc : runPasses D maxTime passPriority (fuel + 1) p =
            (trace ++ (runPasses D maxTime p.nextPriority fuel q).1,
              (runPasses D maxTime p.nextPriority fuel q).2) := runPasses_succ hgt hpass
        -- a pass at `INT32_MIN` is not made any more
        have hdone : q.nextPriority = int32Min →
            runPasses D maxTime p.nextPriority fuel q = ([], .ok (p.nextPriority, q)) := by
          intro hmin
          obtain ⟨fuel, rfl⟩ := Nat.exists_eq_succ_of_ne_zero (show fuel ≠ 0 by omega)
          exact runPasses_done hmin.le
        rcases hend.next with hmin | ⟨hdeclines, hstate, hnext⟩
        · rw [hdone hmin, List.append_nil] at hsucc
          exact ⟨trace, _, q, hsucc, hend.outcome, hend.stable⟩
        · rcases hnext with hmin | ⟨e, he, hpriority, hlt⟩
          · rw [hdone hmin, List.append_nil] at hsucc
            exact ⟨trace, _, q, hsucc, hend.outcome, hend.stable⟩
          · have hbelow : q.below D < p.below D := by
              unfold PassState.below
              rw [hstate, hpriority]
              exact countP_priority_lt he hlt
            have hstate' : q.state = p.state := hstate
            obtain ⟨trace', n, q', hrest, houtcome, hstable⟩ := @ih q p.nextPriority
              (hstate'.symm ▸ hresponds) (by rw [hstate']; omega)
            rw [hrest] at hsucc
            rw [hstate'] at houtcome
            refine ⟨trace ++ trace', n, q', hsucc, houtcome.prepend hdeclines, ?_⟩
            rw [hstable, hend.stable, List.append_eq_nil_iff, and_assoc]
      · exact ⟨[], _, p, runPasses_done (not_lt.mp hgt), .declined (by simp), by simp⟩

/-- A call of the scheduler returns, and tells whether it has called a handler. -/
theorem processEventsUntil_responds (hresponds : D.Responds maxTime s)
    (hfuel : 2 * (D.events s).length + 2 ≤ fuel) (proc : ProcessingState κ) :
    ∃ trace hadEvents proc' t,
      processEventsUntil D fuel maxTime proc s = (trace, .ok (hadEvents, proc', t)) ∧
      SchedulerOutcome s trace t ∧ (hadEvents = true ↔ trace ≠ []) ∧ proc'.waitDelay = proc.waitDelay := by
  obtain ⟨trace, n, q, hrun, houtcome, hstable⟩ := @runPasses_responds _ D maxTime
    ⟨s, (scanEvents maxTime (D.events s) int32Min).1, true, (scanEvents maxTime (D.events s) int32Min).2⟩
    proc.passPriority fuel hresponds (by
      have hle := List.countP_le_length (p := fun e : EventNode =>
        decide (e.priority < (scanEvents maxTime (D.events s) int32Min).1)) (l := D.events s)
      unfold PassState.below
      dsimp only
      omega)
  refine ⟨trace, !q.stable, { proc with
    reachedTime := ((D.events q.state).head?.map EventNode.time).getD maxTime
    passPriority := n
    hasFutureEvents := q.hasFutureEvents }, q.state, ?_, houtcome, ?_, rfl⟩
  · rw [processEventsUntil]
    dsimp only
    rw [hrun]
  · rw [Bool.not_eq_true', ← Bool.not_eq_true, hstable]
    simp

end

/-! ## A running program -/

section

variable {P : Platform} {w w' : World} {e : EventNode} {position : Position}

/-- With memory a handler only returns `false` for an event that a window hides. -/
theorem World.Sound.unchanged (h : w.Sound P) (hA : P.allocator.Succeeds) (he : e ∈ w.events.nodes)
    (hposition : e.position = some position)
    (hrun : w.handleEvent P position e = .ok (false, w')) : w' = w := by
  obtain ⟨pre, post, hw⟩ := World.splitAt_of_mem h.nodup he
  cases position with
  | channel c => exact absurd (channelHandleEvent_true hw hrun) Bool.false_ne_true
  | node n => exact nodeHandleEvent_false hA hw hposition hrun

theorem World.Sound.responds (h : w.Sound P) (hA : P.allocator.Succeeds)
    (hspread : w.DrawsSpread P) (hopen : w.WindowsOpen)
    (hfits : ∀ e ∈ w.events.nodes, ∀ position, e.position = some position →
      ¬w.Overflows position e) :
    ∃ bound, ∀ depth ≥ bound, ∀ maxTime, (World.dispatch (P.withDepth depth)).Responds maxTime w := by
  obtain ⟨bound, hbound⟩ := h.handlers_return hA hspread hopen
  refine ⟨bound, fun depth hdepth maxTime => ⟨h.nodup, fun p e hcan => ?_⟩⟩
  obtain ⟨hposition, hready⟩ := Option.filter_eq_some_iff.mp hcan.ready
  obtain ⟨-, hhandler⟩ := Bool.and_eq_true_iff.mp hready
  obtain ⟨result, w', hrun⟩ := hbound depth hdepth e hcan.mem p hposition hhandler
    (hfits e hcan.mem p hposition)
  refine ⟨result, w', hrun, fun hresult => ?_⟩
  subst hresult
  exact (h.withDepth depth).unchanged hA hcan.mem hposition hrun

end

section

variable {Setting : Type} {p : ProgramPlatform Setting} {configRoot : Setting}
  {program : StartedProgram} {w : World} {τ : List SystemTransition}

end

end EventSeq
