import EventSeq.Fault
import EventSeq.Events

/-!
# The scheduler (`processing.h`, `processing.c`)

The scheduler only sees the event list and the two fields of a position, so it is modelled over any
state that has these.  Every handler call is recorded in a trace, also those of a call that does not
return.  Loops are bounded and diverge beyond the bound.
-/

namespace EventSeq

open Lib

def int32Min : Int := -2147483648

/-- What the scheduler sees of a state and can do to it. -/
structure Dispatch (σ : Type) where
  events : σ → List EventNode
  waitingNewEvent : σ → Position → Bool
  /-- `position->handle_event` is not null. -/
  hasHandler : σ → Position → Bool
  handleEvent : Position → EventNode → σ → Except Fault (Bool × σ)

structure Invocation (σ : Type) where
  before : σ
  event : EventNode
  position : Position
  outcome : Except Fault (Bool × σ)

variable {σ κ : Type}

/-- The position of an event that can be handled, whatever its time. -/
def Dispatch.readyPosition (D : Dispatch σ) (s : σ) (e : EventNode) : Option Position :=
  e.position.filter fun p => !D.waitingNewEvent s p && D.hasHandler s p

/-- `ev->next`, with `none` for `END_EVENTS`; `ev` must still be in the list. -/
def Dispatch.nextEvent (D : Dispatch σ) (s : σ) (a : Addr) : Except Fault (Option Addr) :=
  match KeyedList.lookup EventNode.addr a (D.events s) with
  | none => .error .dangling
  | some _ => .ok (KeyedList.successor EventNode.addr a (D.events s))

/-! ## `process_events_until` -/

/-- The first loop: the highest priority up to `maxTime`, and whether it met a later event. -/
def scanEvents (maxTime : AbsoluteTime) : List EventNode → Int → Int × Bool
  | [], nextPriority => (nextPriority, false)
  | ev :: rest, nextPriority =>
      -- The list is ordered by time, so that the rest is later too.
      if absoluteTimeCmp ev.time maxTime > 0 then (nextPriority, true)
      else scanEvents maxTime rest (if ev.priority > nextPriority then ev.priority else nextPriority)

/-- The variables of the scheduler that a pass over the list changes. -/
structure PassState (σ : Type) where
  state : σ
  nextPriority : Int
  stable : Bool
  hasFutureEvents : Bool

/-- The update of `next_priority` for an event of a lower priority than that of the pass. -/
def PassState.note (p : PassState σ) (passPriority : Int) (ev : EventNode) : PassState σ :=
  if ev.priority < passPriority ∧ ev.priority > p.nextPriority then
    { p with nextPriority := ev.priority }
  else p

@[simp] theorem PassState.note_state (p : PassState σ) (passPriority : Int) (ev : EventNode) :
    (p.note passPriority ev).state = p.state := by
  unfold note
  split <;> rfl

/-- One pass, from the event `cursor` on. -/
def runPass (D : Dispatch σ) (maxTime : AbsoluteTime) (passPriority : Int) :
    Nat → Option Addr → PassState σ → List (Invocation σ) × Except Fault (PassState σ)
  | _, none, p => ([], .ok p)
  | 0, some _, _ => ([], .error .diverges)
  | fuel + 1, some a, p =>
      match KeyedList.lookup EventNode.addr a (D.events p.state) with
      | none => ([], .error .dangling)
      | some ev =>
          let advance := runPass D maxTime passPriority fuel
            (KeyedList.successor EventNode.addr a (D.events p.state))
          if ev.priority > passPriority then advance p
          else
            -- An event of lower priority is noted for a later pass, and handled in this one.
            let p := p.note passPriority ev
            match D.readyPosition p.state ev with
            | none => advance p
            | some position =>
                if absoluteTimeCmp ev.time maxTime > 0 then
                  ([], .ok { p with hasFutureEvents := true })
                else
                  let outcome := D.handleEvent position ev p.state
                  let invocation : Invocation σ := ⟨p.state, ev, position, outcome⟩
                  match outcome with
                  | .error f => ([invocation], .error f)
                  -- The list may be another one now; `INT32_MIN` ends the passes.
                  | .ok (true, s) =>
                      ([invocation],
                        .ok { p with state := s, nextPriority := int32Min, stable := false })
                  -- The event was not taken; the pass goes on behind it.
                  | .ok (false, s) =>
                      match D.nextEvent s a with
                      | .error f => ([invocation], .error f)
                      | .ok next =>
                          let (trace, result) := runPass D maxTime passPriority fuel next
                            { p with state := s, stable := false }
                          (invocation :: trace, result)

/-- The passes, from the priority `p.nextPriority` down; also yields the last `pass_priority`. -/
def runPasses (D : Dispatch σ) (maxTime : AbsoluteTime) (passPriority : Int) :
    Nat → PassState σ → List (Invocation σ) × Except Fault (Int × PassState σ)
  | 0, _ => ([], .error .diverges)
  | fuel + 1, p =>
      if p.nextPriority > int32Min then
        let passPriority := p.nextPriority
        let first := (D.events p.state).head?.map EventNode.addr
        match runPass D maxTime passPriority fuel first { p with nextPriority := int32Min } with
        | (trace, .error f) => (trace, .error f)
        | (trace, .ok p) =>
            let (trace', result) := runPasses D maxTime passPriority fuel p
            (trace ++ trace', result)
      else ([], .ok (passPriority, p))

structure DelayEntry (κ : Type) where
  callback : Option κ
  time : AbsoluteTime
deriving DecidableEq, Repr

/-- `wait_delay`, which `schedule_delay` keeps sorted. -/
structure DelayList (κ : Type) where
  entries : List (DelayEntry κ)
  sorted : entries.Pairwise fun a b => a.time ≤ b.time

def DelayList.empty {κ : Type} : DelayList κ := ⟨[], .nil⟩

structure ProcessingState (κ : Type) where
  waitDelay : DelayList κ
  reachedTime : AbsoluteTime
  passPriority : Int
  hasFutureEvents : Bool

/-- `process_events_until`: the calls it makes and, when it returns, whether any was made and the
states after it. -/
def processEventsUntil (D : Dispatch σ) (fuel : Nat) (maxTime : AbsoluteTime)
    (proc : ProcessingState κ) (s : σ) :
    List (Invocation σ) × Except Fault (Bool × ProcessingState κ × σ) :=
  let (nextPriority, hasFutureEvents) := scanEvents maxTime (D.events s) int32Min
  match runPasses D maxTime proc.passPriority fuel
    ⟨s, nextPriority, true, hasFutureEvents⟩ with
  | (trace, .error f) => (trace, .error f)
  | (trace, .ok (passPriority, p)) =>
      let reachedTime := ((D.events p.state).head?.map EventNode.time).getD maxTime
      (trace, .ok (!p.stable,
        { proc with
          reachedTime := reachedTime
          passPriority := passPriority
          hasFutureEvents := p.hasFutureEvents }, p.state))

/-! ## Delayed callbacks -/

def insertDelay (entry : DelayEntry κ) : List (DelayEntry κ) → List (DelayEntry κ)
  | [] => [entry]
  | d :: rest =>
      if absoluteTimeCmp d.time entry.time > 0 then entry :: d :: rest
      else d :: insertDelay entry rest

theorem mem_insertDelay {entry d : DelayEntry κ} {entries : List (DelayEntry κ)} :
    d ∈ insertDelay entry entries ↔ d = entry ∨ d ∈ entries := by
  induction entries with
  | nil => simp [insertDelay]
  | cons x rest ih =>
      rw [insertDelay]
      split <;> simp only [List.mem_cons, ih]
      tauto

theorem insertDelay_sorted {entry : DelayEntry κ} {entries : List (DelayEntry κ)}
    (h : entries.Pairwise fun a b => a.time ≤ b.time) :
    (insertDelay entry entries).Pairwise fun a b => a.time ≤ b.time := by
  induction entries with
  | nil => simp [insertDelay]
  | cons x rest ih =>
      obtain ⟨hx, hrest⟩ := List.pairwise_cons.mp h
      rw [insertDelay]
      split
      · rename_i hlater
        have hlt := (absoluteTimeCmp_pos_iff _ _).mp hlater
        refine List.pairwise_cons.mpr ⟨?_, h⟩
        rintro d (_ | ⟨_, hd⟩)
        · exact hlt.le
        · exact hlt.le.trans (hx d hd)
      · rename_i hnot
        have hle := not_lt.mp fun hlt => hnot ((absoluteTimeCmp_pos_iff _ _).mpr hlt)
        refine List.pairwise_cons.mpr ⟨?_, ih hrest⟩
        intro d hd
        rcases mem_insertDelay.mp hd with rfl | hd
        · exact hle
        · exact hx d hd

def scheduleDelay (waitDelay : DelayList κ) (entry : DelayEntry κ) : DelayList κ :=
  ⟨insertDelay entry waitDelay.entries, insertDelay_sorted waitDelay.sorted⟩

/-- Code the scheduler calls outside of the event handlers, and that may schedule callbacks: a
callback, and the calls of `process_io` by their numbers, which may wait for ever. -/
structure Callbacks (σ κ : Type) where
  callback : κ → AbsoluteTime → σ → σ × List (DelayEntry κ)
  processIo : Nat → Option RelativeTime → σ → Except Fault (σ × List (DelayEntry κ))

/-- All that `process_iteration` works on; `ios` counts the calls of `process_io`. -/
structure IterationState (σ κ : Type) where
  state : σ
  proc : ProcessingState κ
  ios : Nat

/-- The state and the delay list after code that has scheduled these callbacks. -/
def IterationState.scheduled (it : IterationState σ κ) (state : σ) (entries : List (DelayEntry κ)) :
    IterationState σ κ :=
  { it with
    state := state
    proc := { it.proc with waitDelay := entries.foldl scheduleDelay it.proc.waitDelay } }

def DelayList.tail (waitDelay : DelayList κ) : DelayList κ :=
  ⟨waitDelay.entries.tail, waitDelay.sorted.sublist (List.tail_sublist _)⟩

def processSingleScheduled (C : Callbacks σ κ) (externTime : AbsoluteTime)
    (it : IterationState σ κ) : Bool × IterationState σ κ :=
  match it.proc.waitDelay.entries with
  | [] => (false, it)
  | nextScheduled :: _ =>
      if absoluteTimeCmp nextScheduled.time externTime > 0 then (false, it)
      else
        let popped := { it with proc := { it.proc with waitDelay := it.proc.waitDelay.tail } }
        match nextScheduled.callback with
        | none => (true, popped)
        | some callback =>
            let (state, entries) := C.callback callback nextScheduled.time popped.state
            (true, popped.scheduled state entries)

/-- A call of `process_io`: its number, its timeout and the state it was made in. -/
structure IoCall (σ : Type) where
  number : Nat
  timeout : Option RelativeTime
  before : σ

def processIo (C : Callbacks σ κ) (timeout : Option RelativeTime) (it : IterationState σ κ) :
    Except Fault (IoCall σ × IterationState σ κ) := do
  let (state, entries) ← C.processIo it.ios timeout it.state
  .ok (⟨it.ios, timeout, it.state⟩, { it with ios := it.ios + 1 }.scheduled state entries)

/-! ## `process_iteration` -/

/-- The bound on the event times of one round. -/
def maxEventTime (externTime : AbsoluteTime) (waitDelay : DelayList κ) : AbsoluteTime :=
  match waitDelay.entries with
  | [] => externTime
  | nextScheduled :: _ =>
      if absoluteTimeCmp nextScheduled.time externTime > 0 then nextScheduled.time else externTime

/-- One call of `process_events_until` in an iteration, with the `process_io` before it.  The handlers
leave `wait_delay` alone. -/
structure Round (σ κ : Type) where
  io : IoCall σ
  waitDelay : DelayList κ
  invocations : List (Invocation σ)

def zeroTo : RelativeTime := ⟨⟨0, 0⟩⟩

/-- The timeout of the first `process_io` of an iteration; without one the call waits for input
however long it takes. -/
def maxIoTimeout (proc : ProcessingState κ) (externTime : AbsoluteTime) : Option RelativeTime :=
  if proc.hasFutureEvents then some zeroTo
  else
    match proc.waitDelay.entries with
    | [] => none
    | nextScheduled :: _ =>
        let nextScheduledDelay := absoluteTimeSubAbsolute nextScheduled.time externTime
        if relativeTimeCmp nextScheduledDelay zeroTo < 0 then some zeroTo
        else some nextScheduledDelay

/-- The loop of `process_iteration`, after the call `io`. -/
def iterationLoop (D : Dispatch σ) (C : Callbacks σ κ) (externTime : AbsoluteTime) :
    Nat → IoCall σ → IterationState σ κ → List (Round σ κ) × Except Fault (IterationState σ κ)
  | 0, _, _ => ([], .error .diverges)
  | fuel + 1, io, it =>
      let (hadScheduled, it) := processSingleScheduled C externTime it
      let waitDelay := it.proc.waitDelay
      match processEventsUntil D fuel (maxEventTime externTime waitDelay) it.proc it.state with
      | (trace, .error f) => ([⟨io, waitDelay, trace⟩], .error f)
      | (trace, .ok (hadEvents, proc, state)) =>
          let it := { it with state := state, proc := proc }
          if !hadScheduled && !hadEvents then ([⟨io, waitDelay, trace⟩], .ok it)
          else
            match processIo C (some zeroTo) it with
            | .error f => ([⟨io, waitDelay, trace⟩], .error f)
            | .ok (io', it) =>
                let (rounds, result) := iterationLoop D C externTime fuel io' it
                (⟨io, waitDelay, trace⟩ :: rounds, result)

/-- `process_iteration` at the clock reading `externTime`. -/
def processIteration (D : Dispatch σ) (C : Callbacks σ κ) (fuel : Nat) (externTime : AbsoluteTime)
    (it : IterationState σ κ) : List (Round σ κ) × Except Fault (IterationState σ κ) :=
  match processIo C (maxIoTimeout it.proc externTime) it with
  | .error f => ([], .error f)
  | .ok (io, it) => iterationLoop D C externTime fuel io it

end EventSeq
