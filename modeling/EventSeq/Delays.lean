import EventSeq.Processing
import EventSeq.Lib.Agenda

/-!
# Delayed callbacks over whole runs

`schedule_delay` and `process_single_scheduled` are called in any order, the first also by the
callbacks that the second runs.  Every change of `wait_delay` is a moment of the run, and an agenda
whose items are numbered follows the moments.
-/

namespace EventSeq

open Lib

variable {σ κ : Type}

/-! ## Calls and their moments -/

/-- A call from outside the callbacks. -/
inductive DelayCall (κ : Type) where
  | schedule (entry : DelayEntry κ)
  | single (externTime : AbsoluteTime)

def DelayCall.run (C : Callbacks σ κ) (it : IterationState σ κ) :
    DelayCall κ → Bool × IterationState σ κ
  | .schedule entry => (true, it.scheduled it.state [entry])
  | .single externTime => processSingleScheduled C externTime it

def runDelays (C : Callbacks σ κ) : List (DelayCall κ) → IterationState σ κ → IterationState σ κ
  | [], it => it
  | call :: calls, it => runDelays C calls (call.run C it).2

abbrev DelayAct (κ : Type) := Agenda.Act (DelayEntry κ) AbsoluteTime

/-- What is done, and `wait_delay` after it. -/
structure DelayMoment (κ : Type) where
  act : DelayAct κ
  waitDelay : DelayList κ

/-- The moments of calls of `schedule_delay`. -/
def scheduleMoments (waitDelay : DelayList κ) : List (DelayEntry κ) → List (DelayMoment κ)
  | [] => []
  | entry :: entries =>
      let waitDelay := scheduleDelay waitDelay entry
      ⟨.schedule entry, waitDelay⟩ :: scheduleMoments waitDelay entries

/-- One run of the callback of an entry at the time of the entry: the state it leaves, and what it has
scheduled. -/
def DelayEntry.fire (C : Callbacks σ κ) (entry : DelayEntry κ) (state : σ) : σ × List (DelayEntry κ) :=
  match entry.callback with
  | none => (state, [])
  | some callback => C.callback callback entry.time state

/-- All that is left when `next` has been taken off `wait_delay` and its callback has run. -/
def IterationState.fired (it : IterationState σ κ) (C : Callbacks σ κ) (next : DelayEntry κ) :
    IterationState σ κ :=
  let (state, entries) := next.fire C it.state
  { it with
    state := state
    proc := { it.proc with waitDelay := entries.foldl scheduleDelay it.proc.waitDelay.tail } }

/-- A single scheduled entry leaves `wait_delay` before its callback runs. -/
def DelayCall.moments (C : Callbacks σ κ) (it : IterationState σ κ) :
    DelayCall κ → List (DelayMoment κ)
  | .schedule entry => scheduleMoments it.proc.waitDelay [entry]
  | .single externTime =>
      match (processSingleScheduled C externTime it).1, it.proc.waitDelay.entries with
      | true, next :: _ =>
          ⟨.fire externTime next, it.proc.waitDelay.tail⟩ ::
            scheduleMoments it.proc.waitDelay.tail (next.fire C it.state).2
      | _, _ => [⟨.idle externTime, it.proc.waitDelay⟩]

def delayMoments (C : Callbacks σ κ) :
    List (DelayCall κ) → IterationState σ κ → List (DelayMoment κ)
  | [], _ => []
  | call :: calls, it => call.moments C it ++ delayMoments C calls (call.run C it).2

/-! ## The agenda behind `wait_delay` -/

/-- `wait_delay` is the list of the pending entries, by time and in scheduling order where the times
are equal. -/
def DelayList.Shows (waitDelay : DelayList κ) (agenda : Agenda (DelayEntry κ)) : Prop :=
  agenda.Lists DelayEntry.time waitDelay.entries

/-- The agenda goes through the moments, act by act, and `wait_delay` shows it at each of them. -/
def Follows (agenda : Agenda (DelayEntry κ)) (moments : List (DelayMoment κ))
    (agenda' : Agenda (DelayEntry κ)) : Prop :=
  ∃ τ, Run (Agenda.Step DelayEntry.time) agenda τ agenda' ∧
    List.Forall₂ (fun moment x => x.label = moment.act ∧ moment.waitDelay.Shows x.after) moments τ

section

variable {C : Callbacks σ κ} {A A' A'' : Agenda (DelayEntry κ)} {waitDelay : DelayList κ}
  {moments moments' : List (DelayMoment κ)}

theorem Follows.nil (A : Agenda (DelayEntry κ)) : Follows A [] A :=
  ⟨[], .nil A, .nil⟩

theorem Follows.single {moment : DelayMoment κ}
    (hstep : Agenda.Step DelayEntry.time A moment.act A') (hshows : moment.waitDelay.Shows A') :
    Follows A [moment] A' :=
  ⟨_, .single hstep, .cons ⟨rfl, hshows⟩ .nil⟩

theorem Follows.append (h : Follows A moments A') (h' : Follows A' moments' A'') :
    Follows A (moments ++ moments') A'' := by
  obtain ⟨τ, hrun, hmoments⟩ := h
  obtain ⟨τ', hrun', hmoments'⟩ := h'
  exact ⟨τ ++ τ', hrun.append hrun', List.rel_append hmoments hmoments'⟩

theorem Follows.sound (h : Follows A moments A') (hA : A.Sound) : A'.Sound := by
  obtain ⟨τ, hrun, -⟩ := h
  exact hrun.invariant (fun _ _ _ hstep => hstep.sound) hA

theorem insertDelay_eq (entry : DelayEntry κ) (entries : List (DelayEntry κ)) :
    insertDelay entry entries = entries.orderedInsert (fun x y => x.time < y.time) entry := by
  induction entries with
  | nil => rfl
  | cons d rest ih =>
      rw [insertDelay, List.orderedInsert_cons, ih]
      exact if_congr (absoluteTimeCmp_pos_iff _ _) rfl rfl

theorem scheduleDelay_shows (h : waitDelay.Shows A) (hA : A.Sound) (entry : DelayEntry κ) :
    (scheduleDelay waitDelay entry).Shows (A.schedule entry) := by
  show Agenda.Lists DelayEntry.time (A.schedule entry) (insertDelay entry waitDelay.entries)
  rw [insertDelay_eq]
  exact h.schedule hA entry

/-- Calls of `schedule_delay` add their entries to the agenda, in the order of the calls. -/
theorem scheduleMoments_follows (entries : List (DelayEntry κ)) (h : waitDelay.Shows A)
    (hA : A.Sound) :
    ∃ A', Follows A (scheduleMoments waitDelay entries) A' ∧
      (entries.foldl scheduleDelay waitDelay).Shows A' := by
  induction entries generalizing waitDelay A with
  | nil => exact ⟨A, .nil A, h⟩
  | cons entry entries ih =>
      have hshows := scheduleDelay_shows h hA entry
      have hfirst : Follows A [⟨.schedule entry, scheduleDelay waitDelay entry⟩]
          (A.schedule entry) := .single (.schedule A entry) hshows
      obtain ⟨A', hrest, hend⟩ := ih hshows (hfirst.sound hA)
      exact ⟨A', hfirst.append hrest, hend⟩

/-- The two outcomes of a call: nothing is due and nothing changes, or the head fires. -/
theorem processSingleScheduled_cases (C : Callbacks σ κ) (externTime : AbsoluteTime)
    (it : IterationState σ κ) :
    processSingleScheduled C externTime it = (false, it) ∧
        (∀ next ∈ it.proc.waitDelay.entries.head?, externTime < next.time) ∨
      ∃ next rest, it.proc.waitDelay.entries = next :: rest ∧ next.time ≤ externTime ∧
        processSingleScheduled C externTime it = (true, it.fired C next) := by
  unfold processSingleScheduled IterationState.fired DelayEntry.fire
  cases hentries : it.proc.waitDelay.entries with
  | nil => exact .inl ⟨rfl, by simp⟩
  | cons next rest =>
      by_cases hlater : absoluteTimeCmp next.time externTime > 0
      · refine .inl ⟨if_pos hlater, fun d hd => ?_⟩
        obtain rfl : next = d := by simpa using hd
        exact (absoluteTimeCmp_pos_iff _ _).mp hlater
      · have hdue : next.time ≤ externTime :=
          not_lt.mp fun hlt => hlater ((absoluteTimeCmp_pos_iff _ _).mpr hlt)
        refine .inr ⟨next, rest, rfl, hdue, ?_⟩
        dsimp only
        rw [if_neg hlater]
        -- an entry without a callback leaves the state as it is
        cases next.callback with
        | none => rfl
        | some callback => rfl

theorem DelayCall.follows (C : Callbacks σ κ) (call : DelayCall κ) {it : IterationState σ κ}
    (h : it.proc.waitDelay.Shows A) (hA : A.Sound) :
    ∃ A', Follows A (call.moments C it) A' ∧ (call.run C it).2.proc.waitDelay.Shows A' := by
  cases call with
  | schedule entry => exact scheduleMoments_follows [entry] h hA
  | single externTime =>
      unfold DelayCall.moments DelayCall.run
      dsimp only
      rcases processSingleScheduled_cases C externTime it with
        ⟨heq, hlater⟩ | ⟨next, rest, hentries, hdue, heq⟩
      · rw [heq]
        exact ⟨A, .single (.idle (h.not_due hlater)) h, h⟩
      · rw [heq, hentries]
        have hlists : A.Lists DelayEntry.time (next :: rest) := hentries ▸ h
        obtain ⟨i, hpending, hleast, hrest⟩ := hlists.fire
        have htail : it.proc.waitDelay.tail.Shows (A.fire i) := by
          show (A.fire i).Lists DelayEntry.time it.proc.waitDelay.entries.tail
          rw [hentries]
          exact hrest
        have hfirst : Follows A [⟨.fire externTime next, it.proc.waitDelay.tail⟩] (A.fire i) :=
          .single (.fire hpending hleast hdue) htail
        obtain ⟨A', hscheduled, hend⟩ :=
          scheduleMoments_follows (next.fire C it.state).2 htail (hfirst.sound hA)
        exact ⟨A', hfirst.append hscheduled, hend⟩

theorem runDelays_follows (C : Callbacks σ κ) (calls : List (DelayCall κ))
    {it : IterationState σ κ} (h : it.proc.waitDelay.Shows A) (hA : A.Sound) :
    ∃ A', Follows A (delayMoments C calls it) A' ∧
      (runDelays C calls it).proc.waitDelay.Shows A' := by
  induction calls generalizing it A with
  | nil => exact ⟨A, .nil A, h⟩
  | cons call calls ih =>
      obtain ⟨A₁, hfirst, h₁⟩ := call.follows C h hA
      obtain ⟨A₂, hrest, h₂⟩ := ih h₁ (hfirst.sound hA)
      exact ⟨A₂, hfirst.append hrest, h₂⟩

end

/-- Whatever the callbacks schedule: from an empty `wait_delay` on, every change of the list is a step
of an agenda, which fires the first pending entry when it is due and nothing otherwise; the list
always shows the pending entries in order, and no entry fires twice.  A call of
`process_single_scheduled` that fires leaves what one run of the callback of the first entry leaves, at
the time of that entry, and one that does not fire changes nothing. -/
theorem delays_fire_in_order (C : Callbacks σ κ) (calls : List (DelayCall κ))
    (it : IterationState σ κ) (hempty : it.proc.waitDelay.entries = []) :
    (∃ agenda, Follows Agenda.empty (delayMoments C calls it) agenda ∧
      (runDelays C calls it).proc.waitDelay.Shows agenda ∧ agenda.Sound) ∧
    ∀ externTime it',
      ((processSingleScheduled C externTime it').1 = true →
        ∃ next rest, it'.proc.waitDelay.entries = next :: rest ∧ next.time ≤ externTime ∧
          (processSingleScheduled C externTime it').2 = it'.fired C next) ∧
      ((processSingleScheduled C externTime it').1 = false →
        (∀ next ∈ it'.proc.waitDelay.entries.head?, externTime < next.time) ∧
          (processSingleScheduled C externTime it').2 = it') := by
  refine ⟨?_, fun externTime it' => ?_⟩
  · have hshows : it.proc.waitDelay.Shows Agenda.empty := by
      unfold DelayList.Shows
      rw [hempty]
      exact Agenda.empty_lists
    obtain ⟨agenda, hfollows, hend⟩ := runDelays_follows C calls hshows Agenda.empty_sound
    exact ⟨agenda, hfollows, hend, hfollows.sound Agenda.empty_sound⟩
  · rcases processSingleScheduled_cases C externTime it' with
      ⟨heq, hlater⟩ | ⟨next, rest, hentries, hdue, heq⟩
    · rw [heq]
      exact ⟨fun htrue => (by cases htrue), fun _ => ⟨hlater, rfl⟩⟩
    · rw [heq]
      exact ⟨fun _ => ⟨next, rest, hentries, hdue, rfl⟩, fun hfalse => (by cases hfalse)⟩

/-- Callbacks that note their number, the callback 0 scheduling the callback 3 at its own time. -/
def notingCallbacks : Callbacks (List Nat) Nat where
  callback number time notes :=
    (notes ++ [number], if number = 0 then [⟨some 3, time⟩] else [])
  processIo _ _ notes := .ok (notes, [])

def noDelays : IterationState (List Nat) Nat where
  state := []
  proc := ⟨.empty, ⟨⟨0, 0⟩⟩, 0, false⟩
  ios := 0

def delaySchedule : List (DelayCall Nat) :=
  [.schedule ⟨some 0, ⟨⟨5, 0⟩⟩⟩, .schedule ⟨some 1, ⟨⟨5, 0⟩⟩⟩, .schedule ⟨some 2, ⟨⟨3, 0⟩⟩⟩,
    .single ⟨⟨4, 0⟩⟩, .single ⟨⟨4, 0⟩⟩, .single ⟨⟨5, 0⟩⟩, .single ⟨⟨5, 0⟩⟩, .single ⟨⟨6, 0⟩⟩]

theorem delays_fire_in_order_noted :
    (∃ agenda, Follows Agenda.empty (delayMoments notingCallbacks delaySchedule noDelays) agenda ∧
      (runDelays notingCallbacks delaySchedule noDelays).proc.waitDelay.Shows agenda ∧
      agenda.Sound) ∧
    (runDelays notingCallbacks delaySchedule noDelays).state = [2, 0, 1, 3] ∧
    ∃ next, (runDelays notingCallbacks (delaySchedule.take 5) noDelays).fired notingCallbacks next =
      runDelays notingCallbacks (delaySchedule.take 6) noDelays := by
  have horder := delays_fire_in_order notingCallbacks delaySchedule noDelays rfl
  refine ⟨horder.1, by decide, ?_⟩
  -- the second `single` finds nothing due, and the third fires the callback 0
  have hfires := (horder.2 ⟨⟨5, 0⟩⟩ (runDelays notingCallbacks (delaySchedule.take 5) noDelays)).1 rfl
  obtain ⟨next, rest, -, -, heq⟩ := hfires
  exact ⟨next, heq.symm⟩

end EventSeq
