import EventSeq.ProcessIo
import EventSeq.StablePass

/-!
# The main loop

The loop of `main` calls `process_iteration` again and again.  Nothing in the program schedules a
callback, so that an iteration is made of handler calls and of the reads of `process_io`, and the
states between its calls are those of a run of the system.
-/

namespace EventSeq

open Lib

/-! ## What is read -/

section

variable {P : Platform} {w w' : World} {fds : Finset Int} {subs : IOSubscriptionList}
  {reads : Nat → Option SourceInput} {state : WaitLists} {io : IoConditions}
  {timeout : Option RelativeTime} {result : Bool} {calls calls' : List SystemCall}

/-- A round of `run_io_handlers` that returns has called an enabled source, or nothing. -/
theorem runIoHandler_move {i : Nat}
    (h : runIoHandler P reads fds subs (w, calls) i = .ok (w', calls')) :
    w' = w ∧ calls' = calls ∨ ∃ n input, reads i = some input ∧ calls' = calls ++ [.read n input] ∧
      ProgramMove P w (.read n input) w' := by
  obtain ⟨fd, -, h⟩ := (bind_eq_ok_iff _ _ _).mp h
  obtain ⟨-, -, h⟩ := (bind_eq_ok_iff _ _ _).mp h
  split at h
  · obtain ⟨subscriber, -, h⟩ := (bind_eq_ok_iff _ _ _).mp h
    cases subscriber with
    | none =>
        cases h
        exact .inl ⟨rfl, rfl⟩
    | some n =>
        obtain ⟨enabled, henabled, h⟩ := (bind_eq_ok_iff _ _ _).mp h
        cases enabled with
        | false =>
            cases h
            exact .inl ⟨rfl, rfl⟩
        | true =>
            cases hinput : reads i with
            | none =>
                rw [hinput] at h
                cases h
            | some input =>
                rw [hinput] at h
                obtain ⟨_, hread, ⟨⟩⟩ := (bind_eq_ok_iff _ _ _).mp h
                refine .inr ⟨n, input, rfl, rfl, ⟨P.depth, .read hread⟩, ?_⟩
                rintro m input ⟨⟩
                exact World.listens_eq henabled
  · cases h
    exact .inl ⟨rfl, rfl⟩

theorem runIoHandlers_run (h : runIoHandlers P reads fds subs (w, calls) = .ok (w', calls')) :
    ∃ τ, Run (ProgramMove P) w τ w' ∧ calls' = calls ++ τ.map Transition.label := by
  let inv : World × List SystemCall → Prop := fun s =>
    ∃ τ, Run (ProgramMove P) w τ s.1 ∧ s.2 = calls ++ τ.map Transition.label
  have hstart : inv (w, calls) := ⟨[], .nil w, (List.append_nil calls).symm⟩
  have hkeep : ∀ s i s', inv s → runIoHandler P reads fds subs s i = .ok s' → inv s' := by
    rintro ⟨s, done⟩ i ⟨s', done'⟩ ⟨τ, hrun, hdone⟩ hround
    rcases runIoHandler_move hround with ⟨rfl, rfl⟩ | ⟨n, input, -, rfl, hmove⟩
    · exact ⟨τ, hrun, hdone⟩
    · refine ⟨_, hrun.append (.single hmove), ?_⟩
      rw [List.map_append, ← List.append_assoc, ← hdone]
      rfl
  exact foldlM_invariant hkeep hstart h

/-- A call of `process_io` that returns has only called enabled sources. -/
theorem WaitLists.processIo_run (h : state.processIo P io timeout w = .ok (result, w', calls)) :
    ∃ τ, Run (ProgramMove P) w τ w' ∧ τ.map Transition.label = calls := by
  obtain ⟨⟨readfds, maxFd⟩, -, h⟩ := (bind_eq_ok_iff _ _ _).mp h
  obtain ⟨⟨writefds, maxFd'⟩, -, h⟩ := (bind_eq_ok_iff _ _ _).mp h
  dsimp only at h
  split at h
  · cases h
  · cases h
    exact ⟨[], .nil w, rfl⟩
  · obtain ⟨⟨w₁, calls₁⟩, hreads, h⟩ := (bind_eq_ok_iff _ _ _).mp h
    obtain ⟨⟨w₂, calls₂⟩, hwrites, ⟨⟩⟩ := (bind_eq_ok_iff _ _ _).mp h
    obtain ⟨τ, hrun, rfl⟩ := runIoHandlers_run hreads
    obtain ⟨υ, hrun', rfl⟩ := runIoHandlers_run hwrites
    exact ⟨τ ++ υ, hrun.append hrun', List.map_append⟩

end

/-! ## Sources that have ended -/

section

variable {P : Platform} {w w' : World} {n : Nat} {input : SourceInput} {e : EventNode}
  {pre post : List EventNode} {position : Position} {node : GraphNode}

theorem getElem?_modify_kind {nodes : List GraphNode} {m : Nat} {f : GraphNode → GraphNode}
    (hnode : nodes[n]? = some node) (hf : m = n → (f node).kind = node.kind) :
    ∃ node', (nodes.modify m f)[n]? = some node' ∧ node'.kind = node.kind := by
  by_cases hm : m = n
  · subst hm
    exact ⟨f node, by rw [List.getElem?_modify_eq, hnode]; rfl, hf rfl⟩
  · exact ⟨node, by rw [List.getElem?_modify_ne _ _ hm, hnode], rfl⟩

/-- A handler leaves the state of a source as it is. -/
theorem HandleOutcome.source (h : HandleOutcome P w pre e post position w')
    (hnode : w.nodes[n]? = some node) (hsource : node.kind.type.hasHandler = false) :
    ∃ node', w'.nodes[n]? = some node' ∧ node'.kind = node.kind := by
  -- the node of a handler is not a source
  have hother : ∀ m node', w.nodes[m]? = some node' → node'.kind.type.hasHandler → m ≠ n := by
    rintro m node' hnode' hhandler rfl
    rw [Option.some.inj (hnode'.symm.trans hnode), hsource] at hhandler
    cases hhandler
  cases h with
  | @node m mallocs node' eff outs hnode' htype _ _ _ _ =>
      have hm := hother m node' hnode' (NodeType.hasHandler_of_unbuffered htype)
      exact getElem?_modify_kind hnode fun heq => absurd heq hm
  | @window m node' window result w' hnode' hkind hrun =>
      have hm := hother m node' hnode' (by rw [hkind]; rfl)
      rcases windowHandleEvent_sameOptions hrun with rfl | ⟨s, waiting, rfl, -⟩
      · exact ⟨node, hnode, rfl⟩
      · exact getElem?_modify_kind hnode fun heq => absurd heq hm
  | dropped _ _ => exact ⟨node, hnode, rfl⟩
  | delivered _ _ _ => exact getElem?_modify_kind hnode fun _ => rfl

theorem subscriptionEnabled_congr_kind {node' : GraphNode} (hnode : w.nodes[n]? = some node)
    (hnode' : w'.nodes[n]? = some node') (hkind : node'.kind = node.kind) :
    subscriptionEnabled w' n = subscriptionEnabled w n := by
  simp only [subscriptionEnabled, World.node_eq hnode, World.node_eq hnode', bind, Except.bind, hkind]

theorem handleIo_reads (h : handleIo P w n input = .ok w') : w.Reads n input := by
  obtain ⟨node, hget, h⟩ := (bind_eq_ok_iff _ _ _).mp h
  have hnode : w.nodes[n]? = some node := World.node_eq_ok hget
  refine ⟨node, hnode, ?_⟩
  split at h
  · rename_i hkind _
    rw [hkind]
    rfl
  · rename_i hkind _
    rw [hkind]
    rfl
  · cases h

/-- What is read from an enabled source, for the nodes and for the source itself. -/
theorem handleIo_enabled (h : handleIo P w n input = .ok w') :
    (∀ m ≠ n, subscriptionEnabled w' m = subscriptionEnabled w m) ∧
      subscriptionEnabled w' n = if input.ends then .ok false else subscriptionEnabled w n := by
  obtain ⟨node, hnode, hreads⟩ := handleIo_reads h
  obtain ⟨w'', hcall, hothers, henabled⟩ := @handleIo_returns P w n input node hnode hreads
  obtain rfl : w' = w'' := Except.ok.inj (h.symm.trans hcall)
  exact ⟨fun m hm => subscriptionEnabled_congr (hothers m hm), henabled⟩

/-- A source that is not enabled stays so. -/
theorem ProgramMove.disabled {c : SystemCall} (h : ProgramMove P w c w')
    (hnodup : w.events.addrs.Nodup) (hoff : subscriptionEnabled w n = .ok false) :
    subscriptionEnabled w' n = .ok false := by
  obtain ⟨⟨depth, hstep⟩, hlistens⟩ := h
  cases hstep with
  | handle hmem _ hrun =>
      obtain ⟨pre, post, hw⟩ := World.splitAt_of_mem hnodup hmem
      obtain ⟨node, hnode, hsource⟩ := subscriptionEnabled_returns_iff.mp ⟨false, hoff⟩
      obtain ⟨node', hnode', hkind⟩ := (handleEvent_outcome hw hrun).source hnode hsource
      exact (subscriptionEnabled_congr_kind hnode hnode' hkind).trans hoff
  | @read _ m input hread =>
      -- only an enabled source is read
      have hm : n ≠ m := by
        rintro rfl
        have hon := hlistens n input rfl
        rw [World.listens_eq hoff] at hon
        cases hon
      exact ((handleIo_enabled hread).1 n hm).trans hoff

theorem ProgramMove.nodup {c : SystemCall} (h : ProgramMove P w c w')
    (hnodup : w.events.addrs.Nodup) : w'.events.addrs.Nodup := by
  obtain ⟨⟨depth, hstep⟩, -⟩ := h
  exact hstep.nodup hnodup

theorem ProgramMove.run {τ : List SystemTransition} (h : Run (ProgramMove P) w τ w') :
    Run (SystemMove P) w τ w' :=
  h.mono fun _ _ _ hmove => hmove.1

/-- After it has read its end a source is disabled, whatever is handled and read. -/
theorem ended_source_after {τ before after : List SystemTransition} {x : SystemTransition}
    (hrun : Run (ProgramMove P) w τ w') (hnodup : w.events.addrs.Nodup)
    (hτ : τ = before ++ x :: after) (hx : x.label = .read n input) (hends : input.ends = true) :
    ∃ s, Run (ProgramMove P) s after w' ∧ s.events.addrs.Nodup ∧
      subscriptionEnabled s n = .ok false := by
  subst hτ
  obtain ⟨w₁, hbefore, hrest⟩ := hrun.split
  cases hrest with
  | @cons s s' t l τ hstep hafter =>
      obtain rfl : l = .read n input := hx
      let inv : World → Prop := fun s => s.events.addrs.Nodup
      have hkeep : ∀ s c s', ProgramMove P s c s' → inv s → inv s' := fun _ _ _ hmove => hmove.nodup
      have hnodup₁ := hbefore.invariant hkeep hnodup
      refine ⟨s', hafter, hstep.nodup hnodup₁, ?_⟩
      obtain ⟨depth, hread⟩ := hstep.1
      cases hread with
      | read hread =>
          obtain ⟨-, henabled⟩ := handleIo_enabled hread
          rw [henabled, if_pos hends]

/-- It is not read again, and no longer waited for. -/
theorem ended_source_silent {τ before after : List SystemTransition} {x : SystemTransition}
    (hrun : Run (ProgramMove P) w τ w') (hnodup : w.events.addrs.Nodup)
    (hτ : τ = before ++ x :: after) (hx : x.label = .read n input) (hends : input.ends = true) :
    w'.listens n = false ∧ ∀ y ∈ after, ∀ input', y.label ≠ .read n input' := by
  obtain ⟨s, hafter, hnodup', hoff⟩ := ended_source_after hrun hnodup hτ hx hends
  let inv : World → Prop := fun s => s.events.addrs.Nodup ∧ subscriptionEnabled s n = .ok false
  have hkeep : ∀ s c s', ProgramMove P s c s' → inv s → inv s' :=
    fun _ _ _ hmove h => ⟨hmove.nodup h.1, hmove.disabled h.1 h.2⟩
  constructor
  · have hend : inv w' := hafter.invariant hkeep ⟨hnodup', hoff⟩
    exact World.listens_eq hend.2
  · intro y hy input' hlabel
    have hbefore : inv y.before := (hafter.invariant_mem hkeep ⟨hnodup', hoff⟩ y hy).1
    have hon := (hafter.step_of_mem hy).2 n input' hlabel
    rw [World.listens_eq hbefore.2] at hon
    cases hon

end

/-! ## The iterations -/

/-- The calls of `process_io` under conditions that follow a script. -/
def WaitLists.callbacks {κ : Type} (state : WaitLists) (P : Platform) (script : Nat → IoConditions) :
    Callbacks World κ where
  -- never called, as nothing calls `schedule_delay`
  callback _ _ w := (w, [])
  processIo i timeout w := do
    let (_, w, _) ← state.processIo P (script i) timeout w
    .ok (w, [])

/-- What a call of `process_io` reads under the script. -/
def WaitLists.readsOf (state : WaitLists) (P : Platform) (script : Nat → IoConditions)
    (io : IoCall World) : List SystemCall :=
  match state.processIo P (script io.number) io.timeout io.before with
  | .ok (_, _, calls) => calls
  | .error _ => []

def Invocation.call (i : Invocation World) : SystemCall := .handle i.position i.event

/-- What a round of an iteration reads, and then which handlers it calls. -/
def Round.calls {κ : Type} (reads : IoCall World → List SystemCall) (r : Round World κ) :
    List SystemCall :=
  reads r.io ++ r.invocations.map Invocation.call

section

variable {κ : Type} {P : Platform} {w₀ w w' : World} {state : WaitLists} {C : Callbacks World κ}
  {script : Nat → IoConditions} {it it' : IterationState World κ} {externTime maxTime : AbsoluteTime}
  {depth fuel : Nat} {proc proc' : ProcessingState κ} {calls : List SystemCall}
  {reads : IoCall World → List SystemCall} {rounds : List (Round World κ)}
  {timeout : Option RelativeTime} {io : IoCall World}

/-- An invariant of the loops and of what has been called so far: no callback is scheduled, and the calls
of an iteration keep it. -/
structure LoopInvariant (D : Dispatch World) (C : Callbacks World κ)
    (reads : IoCall World → List SystemCall) (inv : List SystemCall → IterationState World κ → Prop) :
    Prop where
  delays : ∀ calls it, inv calls it → it.proc.waitDelay.entries = []
  processIo : ∀ calls it, inv calls it → ∀ {timeout io it'},
    processIo C timeout it = .ok (io, it') → inv (calls ++ reads io) it'
  events : ∀ calls it, inv calls it → ∀ {fuel maxTime trace hadEvents proc' w'},
    processEventsUntil D fuel maxTime it.proc it.state = (trace, .ok (hadEvents, proc', w')) →
    inv (calls ++ trace.map Invocation.call) { it with state := w', proc := proc' }

/-- A state of the loop that a run from `w₀` with these calls leads to, without a scheduled callback. -/
structure IterationState.ReachedFrom (P : Platform) (w₀ : World) (calls : List SystemCall)
    (it : IterationState World κ) : Prop where
  run : ∃ τ, Run (ProgramMove P) w₀ τ it.state ∧ τ.map Transition.label = calls
  delays : it.proc.waitDelay.entries = []

theorem processEventsUntil_waitDelay {σ : Type} {D : Dispatch σ} {trace : List (Invocation σ)}
    {hadEvents : Bool} {s s' : σ}
    (h : processEventsUntil D fuel maxTime proc s = (trace, .ok (hadEvents, proc', s'))) :
    proc'.waitDelay = proc.waitDelay := by
  unfold processEventsUntil at h
  dsimp only at h
  split at h
  · cases h
  · cases h
    rfl

/-- Handler calls read no source. -/
theorem handlerCalls_run {τ : List SystemTransition} (h : Run (SystemStep (P.withDepth depth)) w τ w')
    (hlabels : ∀ x ∈ τ, ∃ position e, x.label = .handle position e) : Run (ProgramMove P) w τ w' := by
  induction h with
  | nil w => exact .nil w
  | cons hstep _ ih =>
      obtain ⟨position, e, heq⟩ := hlabels _ List.mem_cons_self
      refine .cons ⟨⟨depth, hstep⟩, fun n input hread => ?_⟩
        (ih fun x hx => hlabels x (List.mem_cons_of_mem _ hx))
      cases heq.symm.trans hread

/-- When the passes return, all their calls are steps. -/
theorem transitions_calls {is : List (Invocation World)} {out : Except Fault World}
    (h : (World.dispatch P).Trace maxTime w is out) (hout : out = .ok w') :
    (is.filterMap Invocation.transition).map Transition.label = is.map Invocation.call := by
  induction h with
  | returns w => rfl
  | faults w f => cases hout
  | stuck _ _ => cases hout
  | called _ _ _ ih => exact congrArg (_ :: ·) (ih hout)

theorem IterationState.ReachedFrom.sameConfiguration (h : it.ReachedFrom P w₀ calls)
    (hnodup : w₀.events.addrs.Nodup) :
    it.state.events.addrs.Nodup ∧ w₀.SameConfiguration it.state := by
  obtain ⟨τ, hrun, -⟩ := h.run
  exact sameConfiguration_of_run (ProgramMove.run hrun) hnodup

/-- A `process_io` of the script that returns. -/
theorem WaitLists.callbacks_processIo
    (h : EventSeq.processIo (state.callbacks P script) timeout it = .ok (io, it')) :
    io = ⟨it.ios, timeout, it.state⟩ ∧ ∃ result w',
      state.processIo P (script it.ios) timeout it.state =
        .ok (result, w', state.readsOf P script io) ∧
      it' = { it with state := w', ios := it.ios + 1 } := by
  obtain ⟨⟨w', entries⟩, hcall, ⟨⟩⟩ := (bind_eq_ok_iff _ _ _).mp h
  obtain ⟨⟨result, w'', reads⟩, hio, ⟨⟩⟩ := (bind_eq_ok_iff _ _ _).mp hcall
  refine ⟨rfl, result, w', ?_, rfl⟩
  rw [hio, WaitLists.readsOf, hio]

theorem IterationState.ReachedFrom.processIo (h : it.ReachedFrom P w₀ calls)
    (hcall : EventSeq.processIo (state.callbacks P script) timeout it = .ok (io, it')) :
    it'.ReachedFrom P w₀ (calls ++ state.readsOf P script io) := by
  obtain ⟨-, result, w', hio, rfl⟩ := WaitLists.callbacks_processIo hcall
  obtain ⟨τ, hrun, rfl⟩ := h.run
  obtain ⟨υ, hreads, hlabels⟩ := WaitLists.processIo_run hio
  exact ⟨⟨τ ++ υ, hrun.append hreads, by rw [List.map_append, hlabels]⟩, h.delays⟩

/-- The calls of `process_events_until` are steps of the program. -/
theorem IterationState.ReachedFrom.events (h : it.ReachedFrom P w₀ calls)
    {trace : List (Invocation World)} {hadEvents : Bool}
    (hcall : processEventsUntil (World.dispatch (P.withDepth depth)) fuel maxTime it.proc it.state =
      (trace, .ok (hadEvents, proc', w'))) :
    ReachedFrom P w₀ (calls ++ trace.map Invocation.call)
      ({ it with state := w', proc := proc' } : IterationState World κ) := by
  have htrace := processEventsUntil_trace (World.dispatch (P.withDepth depth)) fuel maxTime it.proc
    it.state
  rw [hcall] at htrace
  have hsteps := systemRun_of_trace htrace rfl
  have hlabels := transitions_calls htrace rfl
  obtain ⟨τ, hrun, rfl⟩ := h.run
  refine ⟨⟨τ ++ trace.filterMap Invocation.transition, hrun.append ?_, ?_⟩, ?_⟩
  · refine handlerCalls_run hsteps fun x hx => ?_
    have hlabel : x.label ∈ trace.map Invocation.call := hlabels ▸ List.mem_map_of_mem hx
    obtain ⟨i, -, heq⟩ := List.mem_map.mp hlabel
    exact ⟨i.position, i.event, heq.symm⟩
  · rw [List.map_append, hlabels]
  · rw [processEventsUntil_waitDelay hcall]
    exact h.delays

/-- Without a scheduled callback it is enough that each call keeps the invariant. -/
theorem LoopInvariant.iterationLoop {inv : List SystemCall → IterationState World κ → Prop}
    {D : Dispatch World} (hinv : LoopInvariant D C reads inv) (h : inv (calls ++ reads io) it)
    (hloop : EventSeq.iterationLoop D C externTime fuel io it = (rounds, .ok it')) :
    inv (calls ++ rounds.flatMap (Round.calls reads)) it' := by
  induction fuel generalizing calls io it rounds with
  | zero => cases hloop
  | succ fuel ih =>
      have hsingle : processSingleScheduled C externTime it = (false, it) := by
        rw [processSingleScheduled, hinv.delays _ it h]
      rw [EventSeq.iterationLoop, hsingle] at hloop
      dsimp only at hloop
      split at hloop
      · cases hloop
      · rename_i trace hadEvents proc w' hcall
        have hevents := hinv.events _ it h hcall
        have hround : calls ++ reads io ++ trace.map Invocation.call =
            calls ++ Round.calls reads ⟨io, it.proc.waitDelay, trace⟩ := List.append_assoc _ _ _
        rw [hround] at hevents
        split at hloop
        · cases hloop
          simpa using hevents
        · -- a handler has been called, and `process_io` comes before the next round
          split at hloop
          · cases hloop
          · rename_i io' it₁ hio
            generalize hrest : EventSeq.iterationLoop D C externTime fuel _ _ = result at hloop
            obtain ⟨rounds', out⟩ := result
            cases hloop
            rw [List.flatMap_cons, ← List.append_assoc]
            exact ih (hinv.processIo _ _ hevents hio) hrest

theorem LoopInvariant.processIteration {inv : List SystemCall → IterationState World κ → Prop}
    {D : Dispatch World} (hinv : LoopInvariant D C reads inv) (h : inv calls it)
    (hloop : EventSeq.processIteration D C fuel externTime it = (rounds, .ok it')) :
    inv (calls ++ rounds.flatMap (Round.calls reads)) it' := by
  unfold EventSeq.processIteration at hloop
  split at hloop
  · cases hloop
  · rename_i io it₁ hio
    exact hinv.iterationLoop (hinv.processIo _ _ h hio) hloop

theorem LoopInvariant.processIterations {inv : List SystemCall → IterationState World κ → Prop}
    {D : Dispatch World} (hinv : LoopInvariant D C reads inv) (h : inv calls it)
    {readings : List (AbsoluteTime × Nat)}
    (hloop : EventSeq.processIterations D C readings it = (rounds, .ok it')) :
    inv (calls ++ rounds.flatMap (Round.calls reads)) it' := by
  induction readings generalizing calls it rounds with
  | nil =>
      cases hloop
      simpa using h
  | cons reading readings ih =>
      obtain ⟨externTime, fuel⟩ := reading
      rw [EventSeq.processIterations] at hloop
      split at hloop
      · cases hloop
      · rename_i rounds₁ it₁ hfirst
        generalize hrest : EventSeq.processIterations D C readings it₁ = result at hloop
        obtain ⟨rounds', out⟩ := result
        cases hloop
        rw [List.flatMap_append, ← List.append_assoc]
        exact ih (hinv.processIteration h hfirst) hrest

theorem reached_loopInvariant (state : WaitLists) (P : Platform) (script : Nat → IoConditions)
    (w₀ : World) (depth : Nat) :
    LoopInvariant (World.dispatch (P.withDepth depth)) (state.callbacks (κ := κ) P script)
      (state.readsOf P script) (IterationState.ReachedFrom P w₀) where
  delays _ _ h := h.delays
  processIo _ _ h _ _ _ hcall := h.processIo hcall
  events _ _ h _ _ _ _ _ _ hcall := h.events hcall

end

/-! ## The loop of a started program -/

/-- The state of the loop at its first iteration. -/
def StartedProgram.loopState {κ : Type} (program : StartedProgram) (reachedTime : AbsoluteTime) :
    IterationState World κ :=
  ⟨program.world, ⟨.empty, reachedTime, 0, false⟩, 0⟩

section

variable {κ Setting : Type} {p : ProgramPlatform Setting} {configRoot : Setting}
  {program : StartedProgram} {script : Nat → IoConditions}

theorem StartedProgram.loopState_reached (program : StartedProgram) (P : Platform)
    (reachedTime : AbsoluteTime) :
    (program.loopState (κ := κ) reachedTime).ReachedFrom P program.world [] :=
  ⟨⟨[], .nil program.world, rfl⟩, rfl⟩

/-- However the reads and the calls of the scheduler take turns in the iterations of the main loop, what
they do, call for call, is a run of the system in which only enabled sources are read; a source that has
read its end is not waited for any more and is never read again. -/
theorem main_loop_reads_until_end (hstart : startProgram p (some configRoot) = .ok program)
    {depth : Nat} {readings : List (AbsoluteTime × Nat)} {reachedTime : AbsoluteTime}
    {it : IterationState World κ} {rounds : List (Round World κ)}
    (hloop : processIterations (World.dispatch (p.toPlatform.withDepth depth))
      (program.lists.callbacks p.toPlatform script) readings (program.loopState reachedTime) =
        (rounds, .ok it)) :
    ∃ τ, Run (ProgramMove p.toPlatform) program.world τ it.state ∧
      τ.map Transition.label =
        rounds.flatMap (Round.calls (program.lists.readsOf p.toPlatform script)) ∧
      ∀ before n input after,
        rounds.flatMap (Round.calls (program.lists.readsOf p.toPlatform script)) =
          before ++ .read n input :: after → input.ends = true →
        it.state.listens n = false ∧ ∀ input', .read n input' ∉ after := by
  have hnodup := (startProgram_sound hstart).nodup
  obtain ⟨⟨τ, hrun, hlabels⟩, -⟩ :=
    (reached_loopInvariant program.lists p.toPlatform script program.world depth).processIterations
      (program.loopState_reached p.toPlatform reachedTime) hloop
  rw [List.nil_append] at hlabels
  refine ⟨τ, hrun, hlabels, fun before n input after hcalls hends => ?_⟩
  obtain ⟨τ₁, τ₂, hτ, -, hlater⟩ := List.map_eq_append_iff.mp (hlabels.trans hcalls)
  obtain ⟨x, τ₃, rfl, hx, rfl⟩ := List.map_eq_cons_iff.mp hlater
  obtain ⟨hlistens, hsilent⟩ := ended_source_silent hrun hnodup hτ hx hends
  refine ⟨hlistens, fun input' hread => ?_⟩
  obtain ⟨y, hy, hlabel⟩ := List.mem_map.mp hread
  exact hsilent y hy input' hlabel

end

/-- One byte, and then the end of the standard input.  Without a file and without a timeout `pselect` does
not come back. -/
def oneByte (i : Nat) : IoConditions where
  pselect _ readfds writefds timeout :=
    if readfds = ∅ ∧ timeout = none then .blocks else .ready readfds writefds
  reads _ _ := some (.getchar ⟨if i = 0 then .byte 97 else .ended, ⟨⟨i, 0⟩⟩⟩)

theorem oneByte_reads (i k : Nat) (s : Int × Nat) (input : SourceInput)
    (hs : [((0 : Int), 0)][k]? = some s) (hinput : (oneByte i).reads false k = some input) :
    pickingWorld.Reads s.2 input := by
  obtain rfl := List.mem_singleton.mp (List.mem_of_getElem? hs)
  cases hinput
  exact ⟨_, rfl, rfl⟩

/-- What is read from the standard input has the time of its call. -/
theorem oneByte_time {output : Bool} {i k : Nat} {kind : NodeKind} {input : SourceInput}
    {data : EventData} (hinput : (oneByte i).reads output k = some input)
    (h : data ∈ readData kind input) : data.time = ⟨⟨i, 0⟩⟩ := by
  cases hinput
  cases kind with
  | getchar _ =>
      split at h
      all_goals
        rw [List.mem_singleton.mp h]
        rfl
  | _ => cases h

/-- The program that `pickingConfig` starts. -/
def pickingProgram : StartedProgram := ⟨pickingWorld, [(0, 0)], inputSubscribed⟩

/-- The reads of one iteration, at the ninth second. -/
def oneByteReads : List SystemCall :=
  [.read 0 (.getchar ⟨.byte 97, ⟨⟨0, 0⟩⟩⟩), .read 0 (.getchar ⟨.ended, ⟨⟨1, 0⟩⟩⟩)]

/-- An iteration reads the byte and the end, and prints each of them twice. -/
theorem oneByte_iteration :
    ∃ rounds it, processIterations (World.dispatch (treeProgram.toPlatform.withDepth 8))
        (pickingProgram.lists.callbacks (κ := Unit) treeProgram.toPlatform oneByte) [(⟨⟨9, 0⟩⟩, 30)]
        (pickingProgram.loopState ⟨⟨0, 0⟩⟩) = (rounds, .ok it) ∧
      it.state.deliveries.length = 4 ∧ it.state.listens 0 = false ∧ it.state.events.nodes = [] ∧
      (rounds.flatMap fun r => pickingProgram.lists.readsOf treeProgram.toPlatform oneByte r.io) =
        oneByteReads := by
  generalize hloop : processIterations (World.dispatch (treeProgram.toPlatform.withDepth 8))
    (pickingProgram.lists.callbacks (κ := Unit) treeProgram.toPlatform oneByte) [(⟨⟨9, 0⟩⟩, 30)]
    (pickingProgram.loopState ⟨⟨0, 0⟩⟩) = result
  have hrun : (result.2.toOption.map fun it =>
        (it.state.deliveries.length, it.state.listens 0, it.state.events.nodes)) =
          some (4, false, []) ∧
      (result.1.flatMap fun r => pickingProgram.lists.readsOf treeProgram.toPlatform oneByte r.io) =
        oneByteReads := by
    subst hloop
    decide +kernel
  obtain ⟨rounds, out⟩ := result
  obtain ⟨hstate, hreads⟩ := hrun
  cases out with
  | error f => cases hstate
  | ok it =>
      obtain ⟨hprinted, heq⟩ := Prod.mk.inj (Option.some.inj hstate)
      obtain ⟨hended, hnone⟩ := Prod.mk.inj heq
      exact ⟨rounds, it, rfl, hprinted, hended, hnone, hreads⟩

theorem main_loop_reads_until_end_one_byte :
    ∃ (rounds : List (Round World Unit)) (it : IterationState World Unit) (τ : List SystemTransition),
      (rounds.flatMap fun r => pickingProgram.lists.readsOf treeProgram.toPlatform oneByte r.io) =
        oneByteReads ∧
      Run (ProgramMove treeProgram.toPlatform) pickingWorld τ it.state ∧
      τ.map Transition.label =
        rounds.flatMap (Round.calls (pickingProgram.lists.readsOf treeProgram.toPlatform oneByte)) ∧
      it.state.deliveries.length = 4 ∧ it.state.listens 0 = false := by
  obtain ⟨rounds, it, hloop, hprinted, hended, -, hreads⟩ := oneByte_iteration
  obtain ⟨τ, hrun, hcalls, -⟩ := main_loop_reads_until_end picking_starts hloop
  exact ⟨rounds, it, τ, hreads, hrun, hcalls, hprinted, hended⟩

end EventSeq
