import EventSeq.Processing
import EventSeq.Lib.Runs

/-!
# What the scheduler calls

Whatever the order of the calls, each is of an event that is in the list, ready and not later than
the bound, and each starts in the state the one before it has left.
-/

namespace EventSeq

open Lib

variable {σ κ : Type} {D : Dispatch σ} {maxTime : AbsoluteTime} {s t : σ}

/-- The handler at `p` may be called on `e`. -/
structure Dispatch.CanHandle (D : Dispatch σ) (maxTime : AbsoluteTime) (s : σ) (p : Position)
    (e : EventNode) : Prop where
  mem : e ∈ D.events s
  ready : D.readyPosition s e = some p
  time_le : e.time ≤ maxTime

/-- The calls made from `s` on, up to the state they end in or to a fault. -/
inductive Dispatch.Trace (D : Dispatch σ) (maxTime : AbsoluteTime) :
    σ → List (Invocation σ) → Except Fault σ → Prop where
  | returns (s : σ) : Trace D maxTime s [] (.ok s)
  | faults (s : σ) (f : Fault) : Trace D maxTime s [] (.error f)
  | called {s s' : σ} {p : Position} {e : EventNode} {r : Bool} {is : List (Invocation σ)}
      {out : Except Fault σ} :
      D.CanHandle maxTime s p e → D.handleEvent p e s = .ok (r, s') → Trace D maxTime s' is out →
      Trace D maxTime s (⟨s, e, p, .ok (r, s')⟩ :: is) out
  | stuck {s : σ} {p : Position} {e : EventNode} {f : Fault} :
      D.CanHandle maxTime s p e → D.handleEvent p e s = .error f →
      Trace D maxTime s [⟨s, e, p, .error f⟩] (.error f)

namespace Dispatch.Trace

variable {is is' : List (Invocation σ)} {out : Except Fault σ}

theorem append (h : D.Trace maxTime s is (.ok t)) (h' : D.Trace maxTime t is' out) :
    D.Trace maxTime s (is ++ is') out := by
  generalize hok : Except.ok t = r at h
  induction h with
  | returns s =>
      cases hok
      exact h'
  | faults s f => cases hok
  | called hcan hrun _ ih => exact .called hcan hrun (ih hok)
  | stuck hcan hrun => cases hok

/-- Every call is one the scheduler may make, and its outcome is that of the handler. -/
theorem canHandle (h : D.Trace maxTime s is out) {i : Invocation σ} (hi : i ∈ is) :
    D.CanHandle maxTime i.before i.position i.event ∧
      i.outcome = D.handleEvent i.position i.event i.before := by
  induction h with
  | returns s => cases hi
  | faults s f => cases hi
  | called hcan hrun _ ih =>
      rcases List.mem_cons.mp hi with rfl | hi
      · exact ⟨hcan, hrun.symm⟩
      · exact ih hi
  | stuck hcan hrun =>
      obtain rfl := List.mem_singleton.mp hi
      exact ⟨hcan, hrun.symm⟩

end Dispatch.Trace

/-! ## The loops of the scheduler -/

theorem runPass_trace (D : Dispatch σ) (maxTime : AbsoluteTime) (passPriority : Int) (fuel : Nat)
    (cursor : Option Addr) (p : PassState σ) :
    D.Trace maxTime p.state (runPass D maxTime passPriority fuel cursor p).1
      ((runPass D maxTime passPriority fuel cursor p).2.map PassState.state) := by
  induction fuel generalizing cursor p with
  | zero =>
      cases cursor with
      | none => exact .returns _
      | some a => exact .faults _ _
  | succ fuel ih =>
      cases cursor with
      | none => exact .returns _
      | some a =>
          rw [runPass]
          cases hev : KeyedList.lookup EventNode.addr a (D.events p.state) with
          | none => exact .faults _ _
          | some ev =>
              have hmem : ev ∈ D.events p.state := List.mem_of_find?_eq_some hev
              dsimp only
              split
              · exact ih _ _
              · have hstate := p.note_state passPriority ev
                cases hready : D.readyPosition (p.note passPriority ev).state ev with
                | none =>
                    rw [← hstate]
                    exact ih _ _
                | some position =>
                    dsimp only
                    split
                    · rw [← hstate]
                      exact .returns _
                    · rename_i hnot
                      rw [hstate] at hready ⊢
                      have hcan : D.CanHandle maxTime p.state position ev :=
                        ⟨hmem, hready, not_lt.mp fun hlt =>
                          hnot ((absoluteTimeCmp_pos_iff _ _).mpr hlt)⟩
                      cases hrun : D.handleEvent position ev p.state with
                      | error f => exact .stuck hcan hrun
                      | ok result =>
                          obtain ⟨rewind, s'⟩ := result
                          cases rewind with
                          | true => exact .called hcan hrun (.returns s')
                          | false =>
                              dsimp only
                              cases hnext : D.nextEvent s' a with
                              | error f => exact .called hcan hrun (.faults s' f)
                              | ok next =>
                                  exact .called hcan hrun
                                    (ih next { p.note passPriority ev with state := s', stable := false })

theorem runPasses_trace (D : Dispatch σ) (maxTime : AbsoluteTime) (passPriority : Int) (fuel : Nat)
    (p : PassState σ) :
    D.Trace maxTime p.state (runPasses D maxTime passPriority fuel p).1
      ((runPasses D maxTime passPriority fuel p).2.map fun r => r.2.state) := by
  induction fuel generalizing passPriority p with
  | zero => exact .faults _ _
  | succ fuel ih =>
      rw [runPasses]
      split
      · dsimp only
        have hpass := runPass_trace D maxTime p.nextPriority fuel
          ((D.events p.state).head?.map EventNode.addr) { p with nextPriority := int32Min }
        generalize runPass D maxTime p.nextPriority fuel _ _ = result at hpass ⊢
        obtain ⟨trace, _ | q⟩ := result
        · exact hpass
        · exact hpass.append (ih _ q)
      · exact .returns _

theorem processEventsUntil_trace (D : Dispatch σ) (fuel : Nat) (maxTime : AbsoluteTime)
    (proc : ProcessingState κ) (s : σ) :
    D.Trace maxTime s (processEventsUntil D fuel maxTime proc s).1
      ((processEventsUntil D fuel maxTime proc s).2.map fun r => r.2.2) := by
  rw [processEventsUntil]
  dsimp only
  have hpasses := runPasses_trace D maxTime proc.passPriority fuel
    ⟨s, (scanEvents maxTime (D.events s) int32Min).1, true,
      (scanEvents maxTime (D.events s) int32Min).2⟩
  generalize runPasses D maxTime proc.passPriority fuel _ = result at hpasses ⊢
  obtain ⟨trace, _ | ⟨passPriority, p⟩⟩ := result
  · exact hpasses
  · exact hpasses

/-! ## The scan for the highest priority -/

/-- The events not later than `maxTime` come first in a sorted list, and the scan sees them all. -/
theorem scanEvents_spec {l : List EventNode} (hsorted : l.Pairwise fun a b => a.time ≤ b.time)
    (n : Int) :
    n ≤ (scanEvents maxTime l n).1 ∧
    (∀ e ∈ l, e.time ≤ maxTime → e.priority ≤ (scanEvents maxTime l n).1) ∧
    ((scanEvents maxTime l n).1 = n ∨
      ∃ e ∈ l, e.time ≤ maxTime ∧ (scanEvents maxTime l n).1 = e.priority) := by
  induction l generalizing n with
  | nil => simp [scanEvents]
  | cons ev rest ih =>
      obtain ⟨hev, hrest⟩ := List.pairwise_cons.mp hsorted
      rw [scanEvents]
      by_cases hlate : absoluteTimeCmp ev.time maxTime > 0
      · have hlt := (absoluteTimeCmp_pos_iff _ _).mp hlate
        rw [if_pos hlate]
        refine ⟨le_rfl, fun e he hle => ?_, .inl rfl⟩
        rcases List.mem_cons.mp he with rfl | he
        · exact absurd hle (not_le.mpr hlt)
        · exact absurd hle (not_le.mpr (hlt.trans_le (hev e he)))
      · have hle := not_lt.mp fun hlt => hlate ((absoluteTimeCmp_pos_iff _ _).mpr hlt)
        rw [if_neg hlate]
        obtain ⟨hn, hall, hattained⟩ := ih hrest (if ev.priority > n then ev.priority else n)
        have hmax : n ≤ (if ev.priority > n then ev.priority else n) ∧
            ev.priority ≤ (if ev.priority > n then ev.priority else n) := by
          split <;> omega
        refine ⟨hmax.1.trans hn, fun e he htime => ?_, ?_⟩
        · rcases List.mem_cons.mp he with rfl | he
          · exact hmax.2.trans hn
          · exact hall e he htime
        · rcases hattained with heq | ⟨e, he, htime, heq⟩
          · rw [heq]
            split
            · exact .inr ⟨ev, List.mem_cons_self, hle, rfl⟩
            · exact .inl rfl
          · exact .inr ⟨e, List.mem_cons_of_mem _ he, htime, heq⟩

/-! ## Handlers that change nothing -/

/-- The handlers return `false` at once. -/
def Dispatch.Idle (D : Dispatch σ) : Prop := ∀ p e s, D.handleEvent p e s = .ok (false, s)

/-- The same positions with idle handlers. -/
def Dispatch.idle (D : Dispatch σ) : Dispatch σ :=
  { D with handleEvent := fun _ _ s => .ok (false, s) }

theorem Dispatch.idle_idle (D : Dispatch σ) : D.idle.Idle := fun _ _ _ => rfl

/-- The event can be handled, and is not later than `maxTime`. -/
def Dispatch.isReady (D : Dispatch σ) (maxTime : AbsoluteTime) (s : σ) (e : EventNode) : Bool :=
  (D.readyPosition s e).isSome && decide (e.time ≤ maxTime)

theorem Dispatch.Trace.before_eq (hidle : D.Idle) {is : List (Invocation σ)} {out : Except Fault σ}
    (h : D.Trace maxTime s is out) {i : Invocation σ} (hi : i ∈ is) : i.before = s := by
  induction h with
  | returns s => cases hi
  | faults s f => cases hi
  | called hcan hrun _ ih =>
      rw [hidle] at hrun
      cases hrun
      rcases List.mem_cons.mp hi with rfl | hi
      · rfl
      · exact ih hi
  | stuck hcan hrun =>
      rw [hidle] at hrun
      cases hrun

theorem PassState.note_nextPriority (p : PassState σ) (passPriority : Int) (ev : EventNode) :
    p.nextPriority ≤ (p.note passPriority ev).nextPriority ∧
      (ev.priority < passPriority → ev.priority ≤ (p.note passPriority ev).nextPriority) ∧
      ((p.note passPriority ev).nextPriority = p.nextPriority ∨
        (p.note passPriority ev).nextPriority < passPriority) := by
  unfold note
  split
  · rename_i h
    exact ⟨h.2.le, fun _ => le_rfl, .inr h.1⟩
  · rename_i h
    exact ⟨le_rfl, fun hlt => not_lt.mp fun hgt => h ⟨hlt, hgt⟩, .inl rfl⟩

section

variable {passPriority : Int} {pre rest : List EventNode} {ev : EventNode} {p : PassState σ}
  {fuel : Nat}

/-! One step of a pass, whose list is split at the cursor. -/

theorem runPass_above (hsplit : D.events p.state = pre ++ ev :: rest)
    (hnodup : ((D.events p.state).map EventNode.addr).Nodup) (habove : passPriority < ev.priority) :
    runPass D maxTime passPriority (fuel + 1) (some ev.addr) p =
      runPass D maxTime passPriority fuel (rest.head?.map EventNode.addr) p := by
  rw [hsplit] at hnodup
  have hpre := (@EventList.not_mem_addrs_of_nodup ev pre rest 0 hnodup).1
  simp only [runPass, hsplit, KeyedList.lookup_split hpre, KeyedList.successor_split hpre,
    gt_iff_lt, habove, if_true]

theorem runPass_unready (hsplit : D.events p.state = pre ++ ev :: rest)
    (hnodup : ((D.events p.state).map EventNode.addr).Nodup) (hle : ev.priority ≤ passPriority)
    (hready : D.readyPosition p.state ev = none) :
    runPass D maxTime passPriority (fuel + 1) (some ev.addr) p =
      runPass D maxTime passPriority fuel (rest.head?.map EventNode.addr)
        (p.note passPriority ev) := by
  rw [hsplit] at hnodup
  have hpre := (@EventList.not_mem_addrs_of_nodup ev pre rest 0 hnodup).1
  simp only [runPass, hsplit, KeyedList.lookup_split hpre, KeyedList.successor_split hpre,
    gt_iff_lt, not_lt.mpr hle, if_false, PassState.note_state, hready]

theorem runPass_late (hsplit : D.events p.state = pre ++ ev :: rest)
    (hnodup : ((D.events p.state).map EventNode.addr).Nodup) (hle : ev.priority ≤ passPriority)
    {position : Position} (hready : D.readyPosition p.state ev = some position)
    (hlate : maxTime < ev.time) :
    runPass D maxTime passPriority (fuel + 1) (some ev.addr) p =
      ([], .ok { p.note passPriority ev with hasFutureEvents := true }) := by
  rw [hsplit] at hnodup
  have hpre := (@EventList.not_mem_addrs_of_nodup ev pre rest 0 hnodup).1
  simp only [runPass, hsplit, KeyedList.lookup_split hpre, gt_iff_lt, not_lt.mpr hle, if_false,
    PassState.note_state, hready]
  rw [if_pos ((absoluteTimeCmp_pos_iff _ _).mpr hlate)]

theorem runPass_call (hsplit : D.events p.state = pre ++ ev :: rest)
    (hnodup : ((D.events p.state).map EventNode.addr).Nodup) (hle : ev.priority ≤ passPriority)
    {position : Position} (hready : D.readyPosition p.state ev = some position)
    (htime : ev.time ≤ maxTime) :
    runPass D maxTime passPriority (fuel + 1) (some ev.addr) p =
      let outcome := D.handleEvent position ev p.state
      let invocation : Invocation σ := ⟨p.state, ev, position, outcome⟩
      match outcome with
      | .error f => ([invocation], .error f)
      | .ok (true, s) =>
          ([invocation], .ok { p.note passPriority ev with
            state := s, nextPriority := int32Min, stable := false })
      | .ok (false, s) =>
          match D.nextEvent s ev.addr with
          | .error f => ([invocation], .error f)
          | .ok next =>
              let (trace, result) := runPass D maxTime passPriority fuel next
                { p.note passPriority ev with state := s, stable := false }
              (invocation :: trace, result) := by
  rw [hsplit] at hnodup
  have hpre := (@EventList.not_mem_addrs_of_nodup ev pre rest 0 hnodup).1
  simp only [runPass, hsplit, KeyedList.lookup_split hpre, gt_iff_lt, not_lt.mpr hle, if_false,
    PassState.note_state, hready]
  exact if_neg fun h => not_lt.mpr htime ((absoluteTimeCmp_pos_iff _ _).mp h)

theorem Dispatch.nextEvent_split {s : σ} (hsplit : D.events s = pre ++ ev :: rest)
    (hnodup : ((D.events s).map EventNode.addr).Nodup) :
    D.nextEvent s ev.addr = .ok (rest.head?.map EventNode.addr) := by
  rw [hsplit] at hnodup
  have hpre := (@EventList.not_mem_addrs_of_nodup ev pre rest 0 hnodup).1
  simp only [nextEvent, hsplit, KeyedList.lookup_split hpre, KeyedList.successor_split hpre]

theorem Dispatch.nextEvent_eq_ok {s : σ} {a : Addr} {next : Option Addr}
    (h : D.nextEvent s a = .ok next) :
    ∃ pre e post, D.events s = pre ++ e :: post ∧ e.addr = a ∧
      next = post.head?.map EventNode.addr := by
  unfold nextEvent at h
  split at h
  · cases h
  · rename_i e hlookup
    obtain ⟨pre, post, hsplit, rfl, hpre⟩ := KeyedList.lookup_eq_some hlookup
    rw [hsplit, KeyedList.successor_split hpre] at h
    cases h
    exact ⟨pre, e, post, hsplit, rfl, rfl⟩

/-- A pass that returns takes the same steps with a higher bound. -/
theorem runPass_mono {fuel' : Nat} (hle : fuel ≤ fuel') {cursor : Option Addr} {p q : PassState σ}
    {trace : List (Invocation σ)}
    (h : runPass D maxTime passPriority fuel cursor p = (trace, .ok q)) :
    runPass D maxTime passPriority fuel' cursor p = (trace, .ok q) := by
  induction fuel generalizing fuel' cursor p trace with
  | zero =>
      cases cursor with
      | none => cases fuel' <;> exact h
      | some a => cases h
  | succ fuel ih =>
      obtain ⟨fuel', rfl⟩ := Nat.exists_eq_succ_of_ne_zero (Nat.ne_zero_of_lt hle)
      have hle' := Nat.le_of_succ_le_succ hle
      cases cursor with
      | none => exact h
      | some a =>
          rw [runPass] at h ⊢
          cases hev : KeyedList.lookup EventNode.addr a (D.events p.state) with
          | none =>
              rw [hev] at h
              cases h
          | some ev =>
              rw [hev] at h
              dsimp only at h ⊢
              split at h
              · -- the event belongs to an earlier pass
                rename_i habove
                rw [if_pos habove]
                exact ih hle' h
              · rename_i hnot
                rw [if_neg hnot]
                cases hready : D.readyPosition (p.note passPriority ev).state ev with
                | none =>
                    rw [hready] at h
                    exact ih hle' h
                | some position =>
                    rw [hready] at h
                    dsimp only at h ⊢
                    split at h
                    · -- the pass ends at an event that is later than its bound
                      rename_i hlate
                      rw [if_pos hlate]
                      exact h
                    · rename_i hnotLate
                      rw [if_neg hnotLate]
                      -- the call is the same, and after one that returns `false` the pass goes on
                      cases hrun : D.handleEvent position ev (p.note passPriority ev).state with
                      | error f =>
                          rw [hrun] at h
                          cases h
                      | ok result =>
                          obtain ⟨rewind, s'⟩ := result
                          rw [hrun] at h
                          cases rewind with
                          | true => exact h
                          | false =>
                              dsimp only at h ⊢
                              cases hnext : D.nextEvent s' a with
                              | error f =>
                                  rw [hnext] at h
                                  cases h
                              | ok next =>
                                  rw [hnext] at h
                                  dsimp only at h ⊢
                                  generalize hrest : runPass D maxTime passPriority fuel next _ =
                                    result at h
                                  obtain ⟨trace', out⟩ := result
                                  cases h
                                  rw [ih hle' hrest]

/-! Whole passes of handlers that change nothing. -/

/-- Such a pass from `p` over `rest` handles every ready event whose priority is not above that of the
pass, and notes the priorities below. -/
structure IdlePass (D : Dispatch σ) (maxTime : AbsoluteTime) (passPriority : Int) (p : PassState σ)
    (rest : List EventNode) (trace : List (Invocation σ)) (q : PassState σ) : Prop where
  state : q.state = p.state
  le : p.nextPriority ≤ q.nextPriority
  noted : ∀ e ∈ rest, D.isReady maxTime p.state e → e.priority < passPriority →
    e.priority ≤ q.nextPriority
  events : trace.map Invocation.event =
    rest.filter fun e => D.isReady maxTime p.state e && decide (e.priority ≤ passPriority)
  outcome : ∀ i ∈ trace, i.outcome = .ok (false, p.state)

section

variable {p' q : PassState σ} {trace : List (Invocation σ)}

/-- Nothing that is left is ready. -/
theorem IdlePass.nothing (hstate : q.state = p.state) (hle : p.nextPriority ≤ q.nextPriority)
    (hunready : ∀ e ∈ rest, D.isReady maxTime p.state e = false) :
    IdlePass D maxTime passPriority p rest [] q where
  state := hstate
  le := hle
  noted e he hready := by
    rw [hunready e he] at hready
    cases hready
  events := by
    symm
    rw [List.map_nil, List.filter_eq_nil_iff]
    intro e he
    simp [hunready e he]
  outcome := by simp

/-- An event that is not handled is passed over. -/
theorem IdlePass.passOver (h : IdlePass D maxTime passPriority p' rest trace q)
    (hstate : p'.state = p.state) (hle : p.nextPriority ≤ p'.nextPriority)
    (hev : D.isReady maxTime p.state ev → passPriority < ev.priority) :
    IdlePass D maxTime passPriority p (ev :: rest) trace q where
  state := h.state.trans hstate
  le := hle.trans h.le
  noted e he hready hlt := by
    rcases List.mem_cons.mp he with rfl | he
    · have habove := hev hready
      omega
    · exact h.noted e he (hstate.symm ▸ hready) hlt
  events := by
    have hskip : ¬(D.isReady maxTime p.state ev && decide (ev.priority ≤ passPriority)) = true := by
      rw [Bool.and_eq_true_iff, decide_eq_true_iff]
      exact fun hboth => absurd (hev hboth.1) (not_lt.mpr hboth.2)
    rw [List.filter_cons, if_neg hskip, ← hstate, h.events]
  outcome i hi := hstate ▸ h.outcome i hi

/-- An event that is handled comes first in the trace. -/
theorem IdlePass.called (h : IdlePass D maxTime passPriority p' rest trace q)
    (hstate : p'.state = p.state) (hle : p.nextPriority ≤ p'.nextPriority)
    (hnoted : ev.priority < passPriority → ev.priority ≤ p'.nextPriority)
    (hready : D.isReady maxTime p.state ev) (hpriority : ev.priority ≤ passPriority)
    (position : Position) :
    IdlePass D maxTime passPriority p (ev :: rest)
      (⟨p.state, ev, position, .ok (false, p.state)⟩ :: trace) q where
  state := h.state.trans hstate
  le := hle.trans h.le
  noted e he hready hlt := by
    rcases List.mem_cons.mp he with rfl | he
    · exact (hnoted hlt).trans h.le
    · exact h.noted e he (hstate.symm ▸ hready) hlt
  events := by
    have hkept : (D.isReady maxTime p.state ev && decide (ev.priority ≤ passPriority)) = true :=
      Bool.and_eq_true_iff.mpr ⟨hready, decide_eq_true hpriority⟩
    rw [List.filter_cons, if_pos hkept, List.map_cons, h.events, hstate]
  outcome i hi := by
    rcases List.mem_cons.mp hi with rfl | hi
    · rfl
    · exact hstate ▸ h.outcome i hi

end

theorem runPass_idle (hidle : D.Idle)
    (hsplit : D.events p.state = pre ++ rest)
    (hnodup : ((D.events p.state).map EventNode.addr).Nodup)
    (hsorted : rest.Pairwise fun a b => a.time ≤ b.time) (hfuel : rest.length ≤ fuel) :
    ∃ trace q, runPass D maxTime passPriority fuel (rest.head?.map EventNode.addr) p =
        (trace, .ok q) ∧ IdlePass D maxTime passPriority p rest trace q := by
  induction rest generalizing pre p fuel with
  | nil =>
      cases fuel <;> exact ⟨[], p, rfl, .nothing rfl le_rfl (by simp)⟩
  | cons ev rest ih =>
      obtain ⟨hev, hrest⟩ := List.pairwise_cons.mp hsorted
      obtain ⟨fuel, rfl⟩ := Nat.exists_eq_succ_of_ne_zero (Nat.ne_zero_of_lt hfuel)
      have hsplit' : D.events p.state = (pre ++ [ev]) ++ rest := by rw [hsplit]; simp
      have hfuel' := Nat.le_of_succ_le_succ hfuel
      show ∃ trace q, runPass D maxTime passPriority (fuel + 1) (some ev.addr) p = _ ∧ _
      by_cases habove : passPriority < ev.priority
      · obtain ⟨trace, q, hrun, hpass⟩ := ih hsplit' hnodup hrest hfuel'
        exact ⟨trace, q, (runPass_above hsplit hnodup habove).trans hrun,
          hpass.passOver rfl le_rfl fun _ => habove⟩
      · have hle := not_lt.mp habove
        obtain ⟨hnote, hnoteEv, -⟩ := p.note_nextPriority passPriority ev
        have hnoteState := p.note_state passPriority ev
        cases hready : D.readyPosition p.state ev with
        | none =>
            obtain ⟨trace, q, hrun, hpass⟩ :=
              @ih (pre ++ [ev]) (p.note passPriority ev) fuel (by rw [hnoteState, hsplit'])
                (by rw [hnoteState]; exact hnodup) hrest hfuel'
            exact ⟨trace, q, (runPass_unready hsplit hnodup hle hready).trans hrun,
              hpass.passOver hnoteState hnote fun h => by simp [Dispatch.isReady, hready] at h⟩
        | some position =>
            by_cases hlate : maxTime < ev.time
            · -- all that follows is later still
              have hunready : ∀ e ∈ ev :: rest, D.isReady maxTime p.state e = false := by
                intro e he
                have hge : ev.time ≤ e.time := by
                  rcases List.mem_cons.mp he with rfl | he
                  · exact le_rfl
                  · exact hev e he
                simp [Dispatch.isReady, not_le.mpr (hlate.trans_le hge)]
              exact ⟨[], _, runPass_late hsplit hnodup hle hready hlate,
                .nothing hnoteState hnote hunready⟩
            · have htime := not_lt.mp hlate
              obtain ⟨trace, q, hrun, hpass⟩ :=
                @ih (pre ++ [ev]) { p.note passPriority ev with state := p.state, stable := false }
                  fuel hsplit' hnodup hrest hfuel'
              have hcall := @runPass_call _ D maxTime passPriority pre rest ev p fuel hsplit
                hnodup hle position hready htime
              simp only [hidle position ev p.state, Dispatch.nextEvent_split hsplit hnodup, hrun]
                at hcall
              have hisReady : D.isReady maxTime p.state ev = true := by
                simp [Dispatch.isReady, hready, htime]
              exact ⟨_, q, hcall,
                IdlePass.called (p := p) hpass rfl hnote hnoteEv hisReady hle position⟩

theorem runPasses_succ {trace : List (Invocation σ)} {q : PassState σ}
    (hgt : int32Min < p.nextPriority)
    (hpass : runPass D maxTime p.nextPriority fuel ((D.events p.state).head?.map EventNode.addr)
      { p with nextPriority := int32Min } = (trace, .ok q)) :
    runPasses D maxTime passPriority (fuel + 1) p =
      (trace ++ (runPasses D maxTime p.nextPriority fuel q).1,
        (runPasses D maxTime p.nextPriority fuel q).2) := by
  rw [runPasses, if_pos hgt]
  simp only [hpass]

theorem runPasses_error {trace : List (Invocation σ)} {f : Fault}
    (hgt : int32Min < p.nextPriority)
    (hpass : runPass D maxTime p.nextPriority fuel ((D.events p.state).head?.map EventNode.addr)
      { p with nextPriority := int32Min } = (trace, .error f)) :
    runPasses D maxTime passPriority (fuel + 1) p = (trace, .error f) := by
  rw [runPasses, if_pos hgt]
  simp only [hpass]

/-- No pass is made at the priority `INT32_MIN`. -/
theorem runPasses_done (hle : p.nextPriority ≤ int32Min) :
    runPasses D maxTime passPriority (fuel + 1) p = ([], .ok (passPriority, p)) := by
  rw [runPasses, if_neg (not_lt.mpr hle)]

theorem processEventsUntil_calls (D : Dispatch σ) (fuel : Nat) (maxTime : AbsoluteTime)
    (proc : ProcessingState κ) (s : σ) :
    (processEventsUntil D fuel maxTime proc s).1 =
      (runPasses D maxTime proc.passPriority fuel
        ⟨s, (scanEvents maxTime (D.events s) int32Min).1, true,
          (scanEvents maxTime (D.events s) int32Min).2⟩).1 := by
  rw [processEventsUntil]
  dsimp only
  generalize runPasses D maxTime proc.passPriority fuel _ = result
  obtain ⟨trace, _ | ⟨n, p⟩⟩ := result <;> rfl

/-- With idle handlers the first pass handles every ready event once, and notes the priorities
below the highest for the passes that follow. -/
theorem processEventsUntil_idle {s : σ} (hidle : D.Idle)
    (hnodup : ((D.events s).map EventNode.addr).Nodup)
    (hsorted : (D.events s).Pairwise fun a b => a.time ≤ b.time)
    (hfuel : (D.events s).length ≤ fuel) (proc : ProcessingState κ) {e : EventNode}
    (he : e ∈ D.events s) (hready : D.isReady maxTime s e) (hpriority : int32Min < e.priority) :
    ∃ first q, (processEventsUntil D (fuel + 1) maxTime proc s).1 =
        first ++ (runPasses D maxTime (scanEvents maxTime (D.events s) int32Min).1 fuel q).1 ∧
      q.state = s ∧
      (∀ x ∈ D.events s, D.isReady maxTime s x →
        x.priority < (scanEvents maxTime (D.events s) int32Min).1 →
        x.priority ≤ q.nextPriority) ∧
      first.map Invocation.event = (D.events s).filter (D.isReady maxTime s) ∧
      ∀ i ∈ first, i.outcome = .ok (false, s) := by
  obtain ⟨-, hall, -⟩ := @scanEvents_spec maxTime (D.events s) hsorted int32Min
  -- the first scan finds the highest priority of all events that are due
  have hle : ∀ x ∈ D.events s, D.isReady maxTime s x →
      x.priority ≤ (scanEvents maxTime (D.events s) int32Min).1 := by
    intro x hx hxready
    exact hall x hx (of_decide_eq_true (Bool.and_eq_true_iff.mp hxready).2)
  have hgt := hpriority.trans_le (hle e he hready)
  rw [processEventsUntil_calls]
  generalize scanEvents maxTime (D.events s) int32Min = scan at hle hgt ⊢
  obtain ⟨first, q, hrun, hpass⟩ :=
    @runPass_idle _ D maxTime scan.1 [] (D.events s) ⟨s, int32Min, true, scan.2⟩ fuel hidle rfl
      hnodup hsorted hfuel
  refine ⟨first, q, ?_, hpass.state, hpass.noted, ?_, hpass.outcome⟩
  · exact congrArg Prod.fst
      (@runPasses_succ _ D maxTime proc.passPriority ⟨s, scan.1, true, scan.2⟩ fuel first q hgt hrun)
  · rw [hpass.events]
    apply List.filter_congr
    intro x hx
    cases hxready : D.isReady maxTime s x with
    | false => rfl
    | true => exact decide_eq_true (hle x hx hxready)

end

end EventSeq
