import EventSeq.MainLoop
import EventSeq.SchedulerReturns
import EventSeq.TimeToLive

/-!
# The main loop of a program without windows returns to its wait

Without window nodes every handler takes its event, and what it puts in the place of the event weighs
less.  So an iteration comes to an end as soon as `process_io` brings no more events that are due.
-/

namespace EventSeq

open Lib

/-! ## Bounds that are higher than needed -/

section

variable {σ κ : Type} {D : Dispatch σ} {maxTime externTime : AbsoluteTime} {fuel fuel' : Nat}
  {passPriority : Int}

theorem runPasses_mono (hle : fuel ≤ fuel') {p q : PassState σ} {n : Int}
    {trace : List (Invocation σ)}
    (h : runPasses D maxTime passPriority fuel p = (trace, .ok (n, q))) :
    runPasses D maxTime passPriority fuel' p = (trace, .ok (n, q)) := by
  induction fuel generalizing fuel' passPriority p trace with
  | zero => cases h
  | succ fuel ih =>
      obtain ⟨fuel', rfl⟩ := Nat.exists_eq_succ_of_ne_zero (Nat.ne_zero_of_lt hle)
      have hle' := Nat.le_of_succ_le_succ hle
      rw [runPasses] at h ⊢
      split at h
      · rename_i hgt
        rw [if_pos hgt]
        dsimp only at h ⊢
        generalize hpass : runPass D maxTime p.nextPriority fuel _ _ = result at h
        obtain ⟨trace₁, _ | r⟩ := result
        · cases h
        · rw [runPass_mono hle' hpass]
          dsimp only at h ⊢
          generalize hrest : runPasses D maxTime p.nextPriority fuel r = result at h
          obtain ⟨trace₂, out⟩ := result
          cases h
          rw [ih hle' hrest]
      · rename_i hdone
        rw [if_neg hdone]
        exact h

/-- A call of the scheduler that returns does the same with a higher bound. -/
theorem processEventsUntil_mono (hle : fuel ≤ fuel') {proc proc' : ProcessingState κ} {s s' : σ}
    {hadEvents : Bool} {trace : List (Invocation σ)}
    (h : processEventsUntil D fuel maxTime proc s = (trace, .ok (hadEvents, proc', s'))) :
    processEventsUntil D fuel' maxTime proc s = (trace, .ok (hadEvents, proc', s')) := by
  unfold processEventsUntil at h ⊢
  dsimp only at h ⊢
  generalize hpasses : runPasses D maxTime proc.passPriority fuel _ = result at h
  obtain ⟨trace', _ | ⟨n, q⟩⟩ := result
  · cases h
  · rw [runPasses_mono hle hpasses]
    exact h

theorem iterationLoop_mono {C : Callbacks σ κ} (hle : fuel ≤ fuel') {io : IoCall σ}
    {it it' : IterationState σ κ} {rounds : List (Round σ κ)}
    (h : iterationLoop D C externTime fuel io it = (rounds, .ok it')) :
    iterationLoop D C externTime fuel' io it = (rounds, .ok it') := by
  induction fuel generalizing fuel' io it rounds with
  | zero => cases h
  | succ fuel ih =>
      obtain ⟨fuel', rfl⟩ := Nat.exists_eq_succ_of_ne_zero (Nat.ne_zero_of_lt hle)
      have hle' := Nat.le_of_succ_le_succ hle
      rw [iterationLoop] at h ⊢
      dsimp only at h ⊢
      generalize hevents : processEventsUntil D fuel _ _ _ = result at h
      obtain ⟨trace, _ | ⟨hadEvents, proc, state⟩⟩ := result
      · cases h
      · rw [processEventsUntil_mono hle' hevents]
        dsimp only at h ⊢
        split at h
        · rename_i hidle
          rw [if_pos hidle]
          exact h
        · rename_i hbusy
          rw [if_neg hbusy]
          generalize hio : processIo C (some zeroTo) _ = result at h ⊢
          obtain _ | ⟨io', it₁⟩ := result
          · cases h
          · dsimp only at h ⊢
            generalize hrest : iterationLoop D C externTime fuel io' it₁ = result at h
            obtain ⟨rounds', out⟩ := result
            cases h
            rw [ih hle' hrest]

/-- An iteration that returns does the same with a higher bound. -/
theorem processIteration_mono {C : Callbacks σ κ} (hle : fuel ≤ fuel') {it it' : IterationState σ κ}
    {rounds : List (Round σ κ)}
    (h : processIteration D C fuel externTime it = (rounds, .ok it')) :
    processIteration D C fuel' externTime it = (rounds, .ok it') := by
  unfold processIteration at h ⊢
  split at h
  · cases h
  · exact iterationLoop_mono hle h

end

/-! ## Positions that wait -/

section

variable {fits : Nat → Bool} {m m' : GraphMemory} {side : ChannelSide} {call : GraphCall}
  {p : Nat → GraphChannel → Bool}

/-- No channel that has been initialised waits for a new event. -/
def GraphMemory.ChannelsSettled (m : GraphMemory) : Prop :=
  ∀ (c : Nat) (channel : GraphChannel), m.channels[c]? = some (some channel) →
    channel.waitingNewEvent = false

theorem GraphMemory.Detached.channelsSettled (h : m.Detached m' side p) (hm : m.ChannelsSettled) :
    m'.ChannelsSettled := by
  intro c channel hc
  rw [h.channels c] at hc
  obtain ⟨old, hold, heq⟩ := Option.map_eq_some_iff.mp hc
  obtain ⟨old', rfl, rfl⟩ := Option.map_eq_some_iff.mp heq
  have hwaiting := hm c old' hold
  split
  · cases side <;> exact hwaiting
  · exact hwaiting

theorem GraphMemory.attachChannel_channelsSettled {ch idx : Nat} {target : Option Nat}
    (h : m.attachChannel fits side ch target idx = .ok m') (hm : m.ChannelsSettled) :
    m'.ChannelsSettled := by
  cases target with
  | none =>
      cases h
      exact hm
  | some n =>
      obtain ⟨node, -, h⟩ := (bind_eq_ok_iff _ _ _).mp h
      obtain ⟨elements, -, h⟩ := (bind_eq_ok_iff _ _ _).mp h
      split at h
      · cases h
      · obtain ⟨m₁, hdetach, ⟨⟩⟩ := (bind_eq_ok_iff _ _ _).mp h
        exact fun c channel hc => (detachChannel_spec hdetach).channelsSettled hm c channel hc

theorem GraphStep.channelsSettled (h : GraphStep fits m call m') (hm : m.ChannelsSettled) :
    m'.ChannelsSettled := by
  obtain ⟨-, hrun⟩ := h
  cases call with
  | init ch start startIdx end_ endIdx =>
      obtain ⟨m₁, h₁, hrun⟩ := (bind_eq_ok_iff _ _ _).mp hrun
      obtain ⟨m₂, h₂, ⟨⟩⟩ := (bind_eq_ok_iff _ _ _).mp hrun
      have hm₂ := GraphMemory.attachChannel_channelsSettled h₂
        (GraphMemory.attachChannel_channelsSettled h₁ hm)
      intro c channel hc
      by_cases hch : ch = c
      · subst hch
        rw [List.getElem?_set_self' ] at hc
        obtain ⟨_, -, heq⟩ := Option.map_eq_some_iff.mp hc
        cases heq
        rfl
      · rw [List.getElem?_set_ne hch] at hc
        exact hm₂ c channel hc
  | delete self =>
      cases self with
      | none =>
          cases hrun
          exact hm
      | some n =>
          obtain ⟨node, -, hrun⟩ := (bind_eq_ok_iff _ _ _).mp hrun
          obtain ⟨m₁, h₁, hrun⟩ := (bind_eq_ok_iff _ _ _).mp hrun
          obtain ⟨m₂, h₂, ⟨⟩⟩ := (bind_eq_ok_iff _ _ _).mp hrun
          have hm₂ := (GraphMemory.detachAll_spec h₂).channelsSettled
            ((GraphMemory.detachAll_spec h₁).channelsSettled hm)
          exact fun c channel hc => hm₂ c channel hc

end

theorem startProgram_settled {Setting : Type} {p : ProgramPlatform Setting} {configRoot : Setting}
    {program : StartedProgram} (hstart : startProgram p (some configRoot) = .ok program) :
    program.world.Settled := by
  obtain ⟨registry, config, predicates, draws, s, m, lists, -, -, -, hconnected, -, rfl⟩ :=
    startProgram_cases hstart
  constructor
  · intro node hnode
    have hmem : GraphMemory.unconnected node ∈ s.nodes.map CreatedNode.node := by
      rw [← hconnected.nodes.2]
      exact List.mem_map_of_mem hnode
    obtain ⟨created, -, heq⟩ := List.mem_map.mp hmem
    have hwaiting := congrArg GraphNode.waitingNewEvent heq
    exact hwaiting.symm
  · obtain ⟨τ, hrun, -⟩ := hconnected.run
    have hsettled := hrun.invariant (fun _ _ _ hstep hm => GraphStep.channelsSettled hstep hm) (by
      intro c channel hc
      obtain ⟨_, -, heq⟩ := List.mem_map.mp (List.mem_of_getElem? hc)
      cases heq)
    intro channel hchannel
    obtain ⟨c, hc⟩ := List.getElem?_of_mem (List.reduceOption_mem_iff.mp hchannel)
    exact hsettled c channel hc

/-! ## Handlers without windows -/

/-- All events that the sources create have this priority. -/
def sourcePriority : Int := 10

/-- A program without windows and without a division by -1, between two of its steps. -/
structure World.Steady (P : Platform) (d : Nat) (w : World) : Prop where
  sound : w.Sound P
  bounded : Bounded d w
  settled : w.Settled
  divisionsFit : w.DivisionsFit
  priority : ∀ e ∈ w.events.nodes, e.priority = sourcePriority

section

variable {P : Platform} {d : Nat} {w w' : World} {e : EventNode} {position : Position}
  {pre post : List EventNode}

/-- The events that take the place of `e` keep its time and its priority. -/
theorem HandleOutcome.keeps
    (hwindow : ∀ node ∈ w.nodes, node.kind.type ≠ .window)
    (h : HandleOutcome P w pre e post position w') {outs : List EventNode}
    (hnodes : w'.events.nodes = pre ++ (outs ++ post)) :
    ∀ o ∈ outs, o.time = e.time ∧ o.priority = e.priority := by
  have houts : ∀ outs' : List EventNode, w'.events.nodes = pre ++ (outs' ++ post) → outs = outs' := by
    intro outs' heq
    exact List.append_cancel_right (List.append_cancel_left (hnodes.symm.trans heq))
  cases h with
  | @node n mallocs node eff outs' hnode _ heff _ hsub _ =>
      obtain rfl := houts outs' rfl
      obtain ⟨outputs, data, hcopies, -, -, hpriority, htime, -⟩ := nodeEffect_copies heff
      intro o ho
      have hmem := hsub.subset (List.mem_map_of_mem ho)
      rw [hcopies] at hmem
      obtain ⟨output, -, hcopy⟩ := List.mem_filterMap.mp hmem
      obtain ⟨c, -, heq⟩ := Option.map_eq_some_iff.mp hcopy
      have hdata : data = o.data := (Prod.mk.inj heq).2
      rw [hdata] at hpriority htime
      exact ⟨htime, hpriority⟩
  | window hnode hkind _ =>
      exact absurd (by rw [hkind]; rfl) (hwindow _ (List.mem_of_getElem? hnode))
  | dropped _ _ =>
      obtain rfl := houts [] rfl
      simp
  | @delivered c target ch e' node _ hdelivered _ =>
      obtain rfl := houts [e'] rfl
      intro o ho
      obtain ⟨-, -, -, hdata⟩ := delivered_eq_some hdelivered
      rw [List.mem_singleton.mp ho, EventNode.time, EventNode.priority, hdata]
      exact ⟨rfl, rfl⟩

/-- What holds of all events and is kept by those that take the place of `e` holds of all that are left. -/
theorem forall_mem_replace {p : EventNode → Prop} {outs : List EventNode}
    (h : ∀ x ∈ pre ++ e :: post, p x) (houts : p e → ∀ o ∈ outs, p o) :
    ∀ x ∈ pre ++ (outs ++ post), p x := by
  intro x hx
  rcases List.mem_append.mp hx with hx | hx
  · exact h x (List.mem_append_left _ hx)
  · rcases List.mem_append.mp hx with hx | hx
    · exact houts (h e (by simp)) x hx
    · exact h x (List.mem_append_right pre (List.mem_cons_of_mem e hx))

/-- What a handler call does in a graph without window nodes, with what the new events keep. -/
theorem HandlerStep.replaces_keeping (hbounded : Bounded d w) (h : HandlerStep P w (position, e) w') :
    ∃ pre post outs, w.events.nodes = pre ++ e :: post ∧ w'.events.nodes = pre ++ (outs ++ post) ∧
      weight d outs < eventWeight d e ∧ ∀ o ∈ outs, o.time = e.time ∧ o.priority = e.priority := by
  cases h with
  | handle he hp hrun =>
      obtain ⟨pre, post, hw⟩ := World.splitAt_of_mem hbounded.nodup he
      have houtcome := handleEvent_outcome hw hrun
      obtain ⟨outs, hnodes, -, hsucc⟩ := houtcome.replaces hw hbounded.windowless
      exact ⟨pre, post, outs, hw.nodes, hnodes, hsucc.weight_lt hbounded hp,
        houtcome.keeps hbounded.windowless hnodes⟩

/-- Only a window makes its node wait. -/
theorem HandleOutcome.settled (hwindow : ∀ node ∈ w.nodes, node.kind.type ≠ .window)
    (h : HandleOutcome P w pre e post position w') (hw : w.Settled) : w'.Settled := by
  cases h with
  | @node n mallocs node eff outs _ _ _ _ _ _ => exact ⟨hw.modify n fun _ hnode => hnode, hw.channels⟩
  | window hnode hkind _ =>
      exact absurd (by rw [hkind]; rfl) (hwindow _ (List.mem_of_getElem? hnode))
  | dropped _ _ => exact ⟨hw.nodes, hw.channels⟩
  | @delivered c target ch e' node _ _ _ => exact ⟨hw.modify target fun _ _ => rfl, hw.channels⟩

theorem readData_priority {kind : NodeKind} {input : SourceInput} {data : EventData}
    (h : data ∈ readData kind input) : data.priority = sourcePriority := by
  unfold readData at h
  split at h
  · obtain ⟨buf, -, rfl⟩ := List.mem_map.mp h
    rfl
  · rw [List.mem_singleton.mp h]
    rfl
  · rw [List.mem_singleton.mp h]
    rfl
  · cases h

theorem NodeKind.divisionFits_configured {kind : NodeKind} :
    kind.configured.DivisionFits ↔ kind.DivisionFits := by
  cases kind <;> rfl

/-- Which nodes divide by what is part of the configuration. -/
theorem World.SameConfiguration.divisionsFit (h : w.SameConfiguration w') (hfits : w.DivisionsFit) :
    w'.DivisionsFit := by
  intro node hnode
  have hmem : node.configured ∈ w.nodes.map GraphNode.configured := by
    rw [← h.nodes]
    exact List.mem_map_of_mem hnode
  obtain ⟨old, hold, heq⟩ := List.mem_map.mp hmem
  have hkinds : old.kind.configured = node.kind.configured := congrArg GraphNode.kind heq
  rw [← NodeKind.divisionFits_configured, ← hkinds, NodeKind.divisionFits_configured]
  exact hfits old hold

theorem World.Steady.move {c : SystemCall} (h : w.Steady P d) (hmove : ProgramMove P w c w') :
    w'.Steady P d := by
  obtain ⟨⟨depth, hstep⟩, -⟩ := hmove
  have hsound := h.sound.step ⟨depth, hstep⟩
  have hfits : w'.DivisionsFit := (hstep.sameConfiguration h.sound.nodup).divisionsFit h.divisionsFit
  cases hstep with
  | @handle _ position e result he hposition hrun =>
      have hcall : HandlerStep (P.withDepth depth) w (position, e) w' := .handle he hposition hrun
      obtain ⟨pre, post, outs, hsplit, hnodes, -, hkeeps⟩ := hcall.replaces_keeping h.bounded
      have hsettled : w'.Settled := by
        obtain ⟨pre, post, hw⟩ := World.splitAt_of_mem h.sound.nodup he
        exact (handleEvent_outcome hw hrun).settled h.bounded.windowless h.settled
      refine ⟨hsound, hcall.bounded h.bounded, hsettled, hfits, fun x hx => ?_⟩
      have hold := h.priority
      rw [hsplit] at hold
      rw [hnodes] at hx
      exact forall_mem_replace hold (fun he o ho => (hkeeps o ho).2.trans he) x hx
  | @read _ n input hread =>
      have hgraph := handleIo_sameGraph hread
      refine ⟨hsound, ⟨hsound.nodup, hgraph.forall_mem (fun s => s.1.length ≤ d) h.bounded.outputs,
        hgraph.forall_mem (fun s => s.2.1 ≠ .window) h.bounded.windowless⟩, ?_, hfits, fun x hx => ?_⟩
      all_goals obtain ⟨node, kind, -, rfl, -, -⟩ := handleIo_cases hread
      · exact ⟨h.settled.modify n fun _ hnode => hnode, h.settled.channels⟩
      · have hadds := createAll_adds P.allocator node.outputs (readData node.kind input)
          h.bounded.nodup
        rcases hadds.added x hx with hx | ⟨-, hdata, -⟩
        · exact h.priority x hx
        · exact readData_priority hdata

theorem World.Steady.run {τ : List SystemTransition} (h : w.Steady P d)
    (hrun : Run (ProgramMove P) w τ w') : w'.Steady P d :=
  hrun.invariant (fun _ _ _ hmove h => h.move hmove) h

/-- Every handler returns and takes its event, even without memory. -/
theorem World.Steady.takes (h : w.Steady P d) (he : e ∈ w.events.nodes)
    (hposition : e.position = some position) (hhandler : w.hasHandler position = true) :
    ∃ w', w.handleEvent P position e = .ok (true, w') := by
  have hhas : w.HasPosition position := h.sound.grounded e he position hposition
  obtain ⟨pre, post, hw⟩ := World.splitAt_of_mem h.sound.nodup he
  cases position with
  | channel c =>
      obtain ⟨result, w', hrun⟩ := h.sound.channel_returns he hhas
      have hcall : w.handleEvent P (.channel c) e = .ok (result, w') := hrun
      exact ⟨w', by rw [hcall, channelHandleEvent_true hw hrun]⟩
  | node n =>
      have hnode : w.nodes[n]? = some w.nodes[n] := List.getElem?_eq_getElem hhas
      simp only [World.hasHandler, hnode, Option.map_some, Option.getD_some] at hhandler
      have htype : w.nodes[n].kind.type.unbuffered := by
        have hwindow := h.bounded.windowless _ (List.getElem_mem hhas)
        cases htype : w.nodes[n].kind.type <;> first | rfl | exact absurd htype hwindow | skip
        all_goals
          rw [htype] at hhandler
          cases hhandler
      have himpl := nodeHandleEvent_implements P hw hnode htype
      obtain ⟨eff, heff, -⟩ : ∃ eff, nodeEffect n w.nodes[n] w.predicates e = .ok eff ∧
          Acyclic eff.predicates := nodeEffect_ok h.sound.acyclic htype
        (GraphNode.not_overflows (h.divisionsFit _ (List.getElem_mem hhas)) _)
      rw [heff] at himpl
      obtain ⟨outs, mallocs, hrun, -⟩ := himpl
      exact ⟨_, hrun⟩

end

/-! ## One call of the scheduler -/

section

variable {κ σ : Type} {P : Platform} {d fuel : Nat} {w w' : World} {e : EventNode}
  {position : Position} {maxTime : AbsoluteTime} {proc proc' : ProcessingState κ}
  {pre post : List EventNode}

theorem World.Steady.responds (h : w.Steady P d) (maxTime : AbsoluteTime) :
    (World.dispatch P).Responds maxTime w := by
  refine ⟨h.sound.nodup, fun p e hcan => ?_⟩
  obtain ⟨hposition, hready⟩ := Option.filter_eq_some_iff.mp hcan.ready
  obtain ⟨-, hhandler⟩ := Bool.and_eq_true_iff.mp hready
  obtain ⟨w', hrun⟩ := h.takes hcan.mem hposition hhandler
  exact ⟨true, w', hrun, fun hfalse => by cases hfalse⟩

/-- No call of a handler declines its event. -/
theorem World.Steady.not_declines (h : w.Steady P d) {trace : List (Invocation World)}
    {out : Except Fault World} (htrace : (World.dispatch P).Trace maxTime w trace out)
    {i : Invocation World} (hi : i ∈ trace) : ¬i.Declines w := by
  rintro ⟨hbefore, hdeclined⟩
  obtain ⟨hcan, hrun⟩ := htrace.canHandle hi
  rw [hbefore] at hcan hrun
  obtain ⟨hposition, hready⟩ := Option.filter_eq_some_iff.mp hcan.ready
  obtain ⟨w', htakes⟩ := h.takes hcan.mem hposition (Bool.and_eq_true_iff.mp hready).2
  have htaken : i.outcome = .ok (true, w') := hrun.trans htakes
  rw [hdeclined] at htaken
  cases htaken

/-- A call of the scheduler calls one handler, which takes its event, or none. -/
theorem World.Steady.round (h : w.Steady P d) (hfuel : 2 * w.events.nodes.length + 2 ≤ fuel)
    (maxTime : AbsoluteTime) (proc : ProcessingState κ) :
    (∃ proc', processEventsUntil (World.dispatch P) fuel maxTime proc w = ([], .ok (false, proc', w))) ∨
    ∃ proc' e position w',
      processEventsUntil (World.dispatch P) fuel maxTime proc w =
        ([⟨w, e, position, .ok (true, w')⟩], .ok (true, proc', w')) ∧
      e.time ≤ maxTime ∧ HandlerStep P w (position, e) w' := by
  have hresponds := h.responds maxTime
  obtain ⟨trace, hadEvents, proc', t, hcall, houtcome, hiff, -⟩ :=
    processEventsUntil_responds hresponds hfuel proc
  have htrace := processEventsUntil_trace (World.dispatch P) fuel maxTime proc w
  rw [hcall] at htrace
  cases houtcome with
  | declined hall =>
      have hnone : trace = [] :=
        List.eq_nil_iff_forall_not_mem.mpr fun i hi => h.not_declines htrace hi (hall i hi)
      have hidle : hadEvents = false := by
        cases hadEvents with
        | false => rfl
        | true => exact absurd hnone (hiff.mp rfl)
      rw [hnone, hidle] at hcall
      exact .inl ⟨proc', hcall⟩
  | @taken before e position t hall =>
      have hnone : before = [] := List.eq_nil_iff_forall_not_mem.mpr fun i hi =>
        h.not_declines htrace (List.mem_append_left _ hi) (hall i hi)
      have hhad : hadEvents = true := hiff.mpr (by simp)
      subst hnone
      obtain ⟨hcan, hrun⟩ := htrace.canHandle List.mem_cons_self
      obtain ⟨hposition, -⟩ := Option.filter_eq_some_iff.mp hcan.ready
      rw [hhad] at hcall
      exact .inr ⟨proc', e, position, t, hcall, hcan.time_le, .handle hcan.mem hposition hrun.symm⟩

theorem le_scanEvents_fst (l : List EventNode) (n : Int) : n ≤ (scanEvents maxTime l n).1 := by
  induction l generalizing n with
  | nil => exact le_rfl
  | cons ev rest ih =>
      rw [scanEvents]
      split
      · exact le_rfl
      · refine le_trans ?_ (ih _)
        split <;> omega

/-- When all events have one priority, what a call that calls no handler leaves ready is later than its
bound or behind an event that is. -/
theorem processEventsUntil_behind {D : Dispatch σ} {s s' : σ} {n : Int}
    {trace : List (Invocation σ)} (hnodup : ((D.events s).map EventNode.addr).Nodup) (hn : int32Min < n)
    (hpriority : ∀ e ∈ D.events s, e.priority = n)
    (h : processEventsUntil D fuel maxTime proc s = (trace, .ok (false, proc', s')))
    (hsplit : D.events s = pre ++ e :: post) (hready : D.readyPosition s e ≠ none) :
    ∃ x ∈ pre ++ [e], maxTime < x.time := by
  have hmem : e ∈ D.events s := by simp [hsplit]
  have hsplit' : D.events s = (pre ++ [e]) ++ post := by rw [hsplit, List.append_assoc]; rfl
  obtain ⟨first, rest, hfirst⟩ := List.exists_cons_of_ne_nil (List.append_ne_nil_of_right_ne_nil pre
    (List.cons_ne_nil e []))
  have hhead : first ∈ pre ++ [e] := by rw [hfirst]; exact List.mem_cons_self
  by_cases hlate : maxTime < first.time
  · exact ⟨first, hhead, hlate⟩
  · -- the scan finds the priority of the first event
    have hscan : n ≤ (scanEvents maxTime (D.events s) int32Min).1 := by
      have hnot : ¬absoluteTimeCmp first.time maxTime > 0 :=
        fun hcmp => hlate ((absoluteTimeCmp_pos_iff _ _).mp hcmp)
      have hfirst' := hpriority first (by rw [hsplit']; exact List.mem_append_left _ hhead)
      rw [hsplit', hfirst, List.cons_append, scanEvents, if_neg hnot, hfirst', if_pos hn]
      exact le_scanEvents_fst _ _
    obtain ⟨-, hmet⟩ := processEventsUntil_stable hnodup h
    rcases hmet (hn.trans_le hscan) with hall | ⟨-, met, late, behind, hlist, hlater, hmet⟩
    · exact absurd (hall e hmem ((hpriority e hmem).trans_le hscan)) hready
    · refine ⟨late, ?_, hlater⟩
      have hunmet : e ∉ met := fun he => hready (hmet e he ((hpriority e hmem).trans_le hscan))
      rw [hsplit'] at hlist
      rcases List.append_eq_append_iff.mp hlist with ⟨more, hmore, -⟩ | ⟨more, hmore, hlater'⟩
      · exact absurd (by rw [hmore]; simp) hunmet
      · cases more with
        | nil => exact absurd (by rw [← List.append_nil met, ← hmore]; simp) hunmet
        | cons x more =>
            rw [List.cons_append, List.cons.injEq] at hlater'
            rw [hmore, hlater'.1]
            simp

end

/-! ## How long an iteration goes on -/

/-- The weight of the events that are not later than `t`. -/
def World.dueWeight (d : Nat) (t : AbsoluteTime) (w : World) : Nat :=
  weight d (w.events.nodes.filter fun e => e.time ≤ t)

/-- From its call `k` on `process_io` only brings events that are later than `t`. -/
def Callbacks.QuietFrom {κ : Type} (C : Callbacks World κ) (w₀ : World) (t : AbsoluteTime) (k : Nat) :
    Prop :=
  ∀ i ≥ k, ∀ timeout w w' entries, w.events.addrs.Nodup → w₀.SameConfiguration w →
    C.processIo i timeout w = .ok (w', entries) →
    ∀ e ∈ w'.events.nodes, e ∈ w.events.nodes ∨ t < e.time

/-- In a world of the configuration of `w₀` each `process_io` returns, unless it waits for ever. -/
def WaitLists.Serves (state : WaitLists) (P : Platform) (w₀ : World) (script : Nat → IoConditions) :
    Prop :=
  ∀ i timeout w, w₀.SameConfiguration w →
    state.processIo P (script i) timeout w = .error .blocks ∨
    ∃ result w' calls, state.processIo P (script i) timeout w = .ok (result, w', calls)

section

variable {κ : Type} {P : Platform} {d k : Nat} {w₀ w w' : World} {e : EventNode} {position : Position}
  {t : AbsoluteTime}

theorem HandlerStep.dueWeight_lt (hbounded : Bounded d w) (hdue : e.time ≤ t)
    (h : HandlerStep P w (position, e) w') : w'.dueWeight d t < w.dueWeight d t := by
  obtain ⟨pre, post, outs, hsplit, hnodes, hlt, hkeeps⟩ := h.replaces_keeping hbounded
  have houts : outs.filter (fun e => e.time ≤ t) = outs :=
    List.filter_eq_self.mpr fun o ho => decide_eq_true ((hkeeps o ho).1.trans_le hdue)
  have he : (e :: post).filter (fun e => e.time ≤ t) = e :: post.filter fun e => e.time ≤ t :=
    List.filter_cons_of_pos (decide_eq_true hdue)
  simp only [World.dueWeight, hsplit, hnodes, List.filter_append, weight_append, houts, he, weight_cons]
  omega

/-- What only gets events that are later weighs no more. -/
theorem World.dueWeight_le (hnodup : w'.events.addrs.Nodup)
    (h : ∀ e ∈ w'.events.nodes, e ∈ w.events.nodes ∨ t < e.time) :
    w'.dueWeight d t ≤ w.dueWeight d t := by
  have hsub : (w'.events.nodes.filter fun e => e.time ≤ t).Subperm
      (w.events.nodes.filter fun e => e.time ≤ t) := by
    apply List.Nodup.subperm
    · exact (List.Nodup.of_map EventNode.addr hnodup).filter _
    · intro e he
      obtain ⟨he, hdue⟩ := List.mem_filter.mp he
      rcases h e he with hold | hlater
      · exact List.mem_filter.mpr ⟨hold, hdue⟩
      · exact absurd (of_decide_eq_true hdue) (not_le.mpr hlater)
  obtain ⟨l, hperm, hl⟩ := hsub
  unfold World.dueWeight weight
  rw [← (hperm.map (eventWeight d)).sum_eq]
  exact (hl.map (eventWeight d)).sum_le_sum fun _ _ => Nat.zero_le _

/-- An event for which there is a handler is later than `t`, or behind an event that is. -/
def World.NothingDue (t : AbsoluteTime) (w : World) : Prop :=
  ∀ pre e post, w.events.nodes = pre ++ e :: post → ∀ position, e.position = some position →
    w.hasHandler position = true → ∃ x ∈ pre ++ [e], t < x.time

theorem World.Steady.withDepth (h : w.Steady P d) (depth : Nat) : w.Steady (P.withDepth depth) d :=
  ⟨h.sound.withDepth depth, h.bounded, h.settled, h.divisionsFit, h.priority⟩

theorem World.Steady.nothingDue (h : w.Steady P d) {fuel : Nat} {proc proc' : ProcessingState κ}
    {trace : List (Invocation World)}
    (hcall : processEventsUntil (World.dispatch P) fuel t proc w = (trace, .ok (false, proc', w'))) :
    w.NothingDue t := by
  intro pre e post hsplit position hposition hhandler
  have hready : (World.dispatch P).readyPosition w e = some position := by
    have hwaiting : (World.dispatch P).waitingNewEvent w position = false :=
      h.settled.waitingNewEvent position
    have hhas : (World.dispatch P).hasHandler w position = true := hhandler
    rw [Dispatch.readyPosition, hposition, Option.filter_some, hwaiting, hhas]
    rfl
  have hnodup : (((World.dispatch P).events w).map EventNode.addr).Nodup := h.sound.nodup
  exact processEventsUntil_behind hnodup (show int32Min < sourcePriority by decide) h.priority hcall
    hsplit (by rw [hready]; exact Option.some_ne_none position)

/-- A call of `process_io` in the loop. -/
theorem IterationState.ReachedFrom.processIo_returns {state : WaitLists} {script : Nat → IoConditions}
    (hserves : state.Serves P w₀ script) (hnodup : w₀.events.addrs.Nodup)
    {it : IterationState World κ} {calls : List SystemCall} (h : it.ReachedFrom P w₀ calls)
    (timeout : Option RelativeTime) :
    EventSeq.processIo (state.callbacks P script) timeout it = .error .blocks ∨
    ∃ io w' calls', EventSeq.processIo (state.callbacks P script) timeout it =
        .ok (io, { it with state := w', ios := it.ios + 1 }) ∧
      (state.callbacks (κ := κ) P script).processIo it.ios timeout it.state = .ok (w', []) ∧
      ReachedFrom P w₀ calls' ({ it with state := w', ios := it.ios + 1 } : IterationState World κ) := by
  obtain ⟨-, hsame⟩ := h.sameConfiguration hnodup
  rcases hserves it.ios timeout it.state hsame with hblocks | ⟨result, w', reads, hio⟩
  · left
    simp only [EventSeq.processIo, WaitLists.callbacks, hblocks, bind, Except.bind]
  · right
    have hcall : (state.callbacks (κ := κ) P script).processIo it.ios timeout it.state = .ok (w', []) := by
      simp only [WaitLists.callbacks, hio, bind, Except.bind]
    have hrun : EventSeq.processIo (state.callbacks P script) timeout it =
        .ok (⟨it.ios, timeout, it.state⟩, { it with state := w', ios := it.ios + 1 }) := by
      simp only [EventSeq.processIo, hcall, bind, Except.bind]
      rfl
    exact ⟨_, w', _, hrun, hcall, h.processIo hrun⟩

/-- The loop of an iteration comes to an end: at first there are only so many calls of `process_io`
left that may bring an event that is due, and then less weight is due after each round. -/
theorem iterationLoop_returns {state : WaitLists} {script : Nat → IoConditions}
    (hserves : state.Serves P w₀ script) (hsteady : w₀.Steady P d)
    (hquiet : (state.callbacks (κ := κ) P script).QuietFrom w₀ t k) (depth : Nat)
    {it : IterationState World κ} {calls : List SystemCall} (h : it.ReachedFrom P w₀ calls)
    (io : IoCall World) :
    ∃ bound rounds out,
      (out = .error .blocks ∨ ∃ it', out = .ok it' ∧ it'.state.NothingDue t) ∧ ∀ fuel ≥ bound,
        iterationLoop (World.dispatch (P.withDepth depth)) (state.callbacks P script) t fuel io it =
          (rounds, out) := by
  -- by induction on the calls that are left and the weight that is due
  induction hm : ((k - it.ios, it.state.dueWeight d t) : Nat ×ₗ Nat) using
    (inferInstance : WellFoundedLT (Nat ×ₗ Nat)).wf.induction generalizing it calls io with
  | h m ih =>
      subst hm
      have hnodup := hsteady.sound.nodup
      obtain ⟨τ, hrun, -⟩ := h.run
      have hst := (hsteady.run hrun).withDepth depth
      have hsingle : processSingleScheduled (state.callbacks P script) t it = (false, it) := by
        rw [processSingleScheduled, h.delays]
      have hmax : maxEventTime t it.proc.waitDelay = t := by rw [maxEventTime, h.delays]
      rcases hst.round le_rfl t it.proc with
        ⟨proc', hcall⟩ | ⟨proc', e, position, w', hcall, hdue, hstep⟩
      · -- nothing is called, and the loop ends
        refine ⟨2 * it.state.events.nodes.length + 3, [⟨io, it.proc.waitDelay, []⟩],
          .ok { it with proc := proc' }, .inr ⟨_, rfl, hst.nothingDue hcall⟩, fun fuel hfuel => ?_⟩
        obtain ⟨fuel, rfl⟩ := Nat.exists_eq_succ_of_ne_zero (show fuel ≠ 0 by omega)
        rw [iterationLoop, hsingle]
        dsimp only
        rw [hmax, processEventsUntil_mono (Nat.le_of_succ_le_succ hfuel) hcall]
        rfl
      · -- one event is taken, and `process_io` is called again
        let taken : Round World κ := ⟨io, it.proc.waitDelay, [⟨it.state, e, position, .ok (true, w')⟩]⟩
        have hevents := h.events hcall
        rcases hevents.processIo_returns hserves hnodup (some zeroTo) with
          hblocks | ⟨io', w'', calls', hio, hreads, h₁⟩
        · refine ⟨2 * it.state.events.nodes.length + 3, [taken], _, .inl rfl, fun fuel hfuel => ?_⟩
          obtain ⟨fuel, rfl⟩ := Nat.exists_eq_succ_of_ne_zero (show fuel ≠ 0 by omega)
          rw [iterationLoop, hsingle]
          dsimp only
          rw [hmax, processEventsUntil_mono (Nat.le_of_succ_le_succ hfuel) hcall]
          dsimp only
          rw [hblocks]
          rfl
        · obtain ⟨hnodup', hsame⟩ := hevents.sameConfiguration hnodup
          have hless : toLex (k - (it.ios + 1), w''.dueWeight d t) <
              toLex (k - it.ios, it.state.dueWeight d t) := by
            rw [Prod.Lex.toLex_lt_toLex]
            have hstepless : w'.dueWeight d t < it.state.dueWeight d t :=
              hstep.dueWeight_lt hst.bounded hdue
            rcases Nat.lt_or_ge it.ios k with hios | hios
            · exact .inl (by omega)
            · refine .inr ⟨by omega, (World.dueWeight_le ?_ ?_).trans_lt hstepless⟩
              · exact (h₁.sameConfiguration hnodup).1
              · exact hquiet it.ios hios _ w' w'' [] hnodup' hsame hreads
          obtain ⟨bound, rounds, out, hout, hrest⟩ := ih _ hless h₁ io' rfl
          refine ⟨max (2 * it.state.events.nodes.length + 2) bound + 1, taken :: rounds, out, hout,
            fun fuel hfuel => ?_⟩
          obtain ⟨fuel, rfl⟩ := Nat.exists_eq_succ_of_ne_zero (show fuel ≠ 0 by omega)
          obtain ⟨hle, hle'⟩ := max_le_iff.mp (Nat.le_of_succ_le_succ hfuel)
          rw [iterationLoop, hsingle]
          dsimp only
          rw [hmax, processEventsUntil_mono hle hcall]
          dsimp only
          rw [hio]
          dsimp only
          rw [hrest fuel hle']
          rfl

theorem processIteration_returns {state : WaitLists} {script : Nat → IoConditions}
    (hserves : state.Serves P w₀ script) (hsteady : w₀.Steady P d)
    (hquiet : (state.callbacks (κ := κ) P script).QuietFrom w₀ t k) (depth : Nat)
    {it : IterationState World κ} {calls : List SystemCall} (h : it.ReachedFrom P w₀ calls) :
    ∃ bound rounds out,
      (out = .error .blocks ∨ ∃ it', out = .ok it' ∧ it'.state.NothingDue t) ∧ ∀ fuel ≥ bound,
        processIteration (World.dispatch (P.withDepth depth)) (state.callbacks P script) fuel t it =
          (rounds, out) := by
  rcases h.processIo_returns hserves hsteady.sound.nodup (maxIoTimeout it.proc t) with
    hblocks | ⟨io, w', calls', hio, -, h₁⟩
  · refine ⟨0, [], _, .inl rfl, fun fuel _ => ?_⟩
    rw [processIteration, hblocks]
  · obtain ⟨bound, rounds, out, hout, hloop⟩ :=
      iterationLoop_returns hserves hsteady hquiet depth h₁ io
    refine ⟨bound, rounds, out, hout, fun fuel hfuel => ?_⟩
    rw [processIteration, hio]
    exact hloop fuel hfuel

theorem processIterations_returns {state : WaitLists} {script : Nat → IoConditions}
    (hserves : state.Serves P w₀ script) (hsteady : w₀.Steady P d) (depth : Nat)
    {readings : List AbsoluteTime}
    (hquiet : ∀ t ∈ readings, ∃ k, (state.callbacks (κ := κ) P script).QuietFrom w₀ t k)
    {it : IterationState World κ} {calls : List SystemCall} (h : it.ReachedFrom P w₀ calls) :
    ∃ bound rounds out,
      (out = .error .blocks ∨
        ∃ it', out = .ok it' ∧ ∀ t, readings.getLast? = some t → it'.state.NothingDue t) ∧
      ∀ fuel ≥ bound, processIterations (World.dispatch (P.withDepth depth)) (state.callbacks P script)
        (readings.map fun t => (t, fuel)) it = (rounds, out) := by
  induction readings generalizing it calls with
  | nil => exact ⟨0, [], .ok it, .inr ⟨it, rfl, by simp⟩, fun _ _ => rfl⟩
  | cons t readings ih =>
      obtain ⟨k, hquiet₁⟩ := hquiet t List.mem_cons_self
      obtain ⟨bound₁, rounds₁, out₁, hout₁, hfirst⟩ :=
        processIteration_returns hserves hsteady hquiet₁ depth h
      rcases hout₁ with rfl | ⟨it₁, rfl, hnothing⟩
      · refine ⟨bound₁, rounds₁, _, .inl rfl, fun fuel hfuel => ?_⟩
        rw [List.map_cons, processIterations, hfirst fuel hfuel]
      · have h₁ := (reached_loopInvariant state P script w₀ depth).processIteration h
          (hfirst bound₁ le_rfl)
        obtain ⟨bound₂, rounds₂, out₂, hout₂, hrest⟩ :=
          ih (fun t ht => hquiet t (List.mem_cons_of_mem _ ht)) h₁
        refine ⟨max bound₁ bound₂, rounds₁ ++ rounds₂, out₂, ?_, fun fuel hfuel => ?_⟩
        · rcases hout₂ with hblocks | ⟨it₂, hit₂, hlast⟩
          · exact .inl hblocks
          refine .inr ⟨it₂, hit₂, fun t' ht' => ?_⟩
          cases readings with
          | nil =>
              obtain rfl : t = t' := by simpa using ht'
              have hsame := (hrest bound₂ le_rfl).symm.trans rfl
              rw [hit₂] at hsame
              cases hsame
              exact hnothing
          | cons t₂ readings => exact hlast t' (by simpa using ht')
        · obtain ⟨hle₁, hle₂⟩ := max_le_iff.mp hfuel
          rw [List.map_cons, processIterations, hfirst fuel hle₁]
          dsimp only
          rw [hrest fuel hle₂]

end

/-! ## Reads that are later -/

/-- What a source reads happened after `t`. -/
def SourceInput.LaterThan (t : AbsoluteTime) (input : SourceInput) : Prop :=
  ∀ kind, ∀ data ∈ readData kind input, t < data.time

section

variable {P : Platform} {w w' : World} {t : AbsoluteTime} {fds : Finset Int}
  {subs : IOSubscriptionList} {reads : Nat → Option SourceInput} {state : WaitLists}
  {io : IoConditions} {timeout : Option RelativeTime} {result : Bool} {calls calls' : List SystemCall}

/-- The list only gets events that are later than `t`. -/
def World.OnlyLater (t : AbsoluteTime) (w w' : World) : Prop :=
  w'.events.addrs.Nodup ∧ ∀ e ∈ w'.events.nodes, e ∈ w.events.nodes ∨ t < e.time

theorem handleIo_onlyLater {n : Nat} {input : SourceInput} {s : World} (hs : w.OnlyLater t s)
    (hinput : input.LaterThan t) (h : handleIo P s n input = .ok w') : w.OnlyLater t w' := by
  obtain ⟨node, kind, -, rfl, -, -⟩ := handleIo_cases h
  have hadds := createAll_adds P.allocator node.outputs (readData node.kind input) hs.1
  refine ⟨hadds.nodup, fun e he => ?_⟩
  rcases hadds.added e he with he | ⟨-, hdata, -⟩
  · exact hs.2 e he
  · exact .inr (hinput node.kind e.data hdata)

theorem runIoHandlers_onlyLater {s : World} (hs : w.OnlyLater t s)
    (hreads : ∀ i input, reads i = some input → input.LaterThan t)
    (h : runIoHandlers P reads fds subs (s, calls) = .ok (w', calls')) : w.OnlyLater t w' := by
  let inv : World × List SystemCall → Prop := fun s => w.OnlyLater t s.1
  have hkeep : ∀ s i s', inv s → runIoHandler P reads fds subs s i = .ok s' → inv s' := by
    rintro ⟨s, done⟩ i ⟨s', done'⟩ hs hround
    rcases runIoHandler_move hround with ⟨rfl, -⟩ | ⟨n, input, hinput, -, ⟨depth, hstep⟩, -⟩
    · exact hs
    · cases hstep with
      | read hread => exact handleIo_onlyLater hs (hreads i input hinput) hread
  exact foldlM_invariant hkeep hs h

theorem WaitLists.processIo_onlyLater (hnodup : w.events.addrs.Nodup)
    (hreads : ∀ output i input, io.reads output i = some input → input.LaterThan t)
    (h : state.processIo P io timeout w = .ok (result, w', calls)) : w.OnlyLater t w' := by
  have hs : w.OnlyLater t w := ⟨hnodup, fun _ => .inl⟩
  obtain ⟨⟨readfds, maxFd⟩, -, h⟩ := (bind_eq_ok_iff _ _ _).mp h
  obtain ⟨⟨writefds, maxFd'⟩, -, h⟩ := (bind_eq_ok_iff _ _ _).mp h
  dsimp only at h
  split at h
  · cases h
  · cases h
    exact hs
  · obtain ⟨⟨w₁, calls₁⟩, hinput, h⟩ := (bind_eq_ok_iff _ _ _).mp h
    obtain ⟨⟨w₂, calls₂⟩, houtput, ⟨⟩⟩ := (bind_eq_ok_iff _ _ _).mp h
    exact runIoHandlers_onlyLater (runIoHandlers_onlyLater hs (hreads false) hinput) (hreads true)
      houtput

/-- A script brings nothing that is due from the call on after which all that is read happened later. -/
theorem WaitLists.callbacks_quietFrom {κ : Type} (state : WaitLists) (P : Platform) (w₀ : World)
    {script : Nat → IoConditions} {k : Nat}
    (hreads : ∀ i ≥ k, ∀ output j input, (script i).reads output j = some input → input.LaterThan t) :
    (state.callbacks (κ := κ) P script).QuietFrom w₀ t k := by
  intro i hi timeout w w' entries hnodup _ hcall
  obtain ⟨⟨result, _, calls⟩, hio, ⟨⟩⟩ := (bind_eq_ok_iff _ _ _).mp hcall
  exact (WaitLists.processIo_onlyLater hnodup (hreads i hi) hio).2

end

/-! ## A started program -/

section

variable {κ Setting : Type} {p : ProgramPlatform Setting} {configRoot : Setting}
  {program : StartedProgram} {script : Nat → IoConditions}

theorem startProgram_steady (hstart : startProgram p (some configRoot) = .ok program)
    (hwindowless : ∀ node ∈ program.world.nodes, node.kind.type ≠ .window)
    (hdivisions : program.world.DivisionsFit) : ∃ d, program.world.Steady p.toPlatform d := by
  have hsound := startProgram_sound hstart
  have hevents : program.world.events.nodes = [] := (startProgram_configured hstart).choose_spec.2.2
  -- the nodes have at most `d` outputs
  obtain ⟨d, hd⟩ := (program.world.nodes.map fun node => node.outputs.length).toFinset.bddAbove
  refine ⟨d, hsound, ⟨hsound.nodup, fun node hnode => ?_, hwindowless⟩, startProgram_settled hstart,
    hdivisions, ?_⟩
  · exact hd (by simpa using ⟨node, hnode, rfl⟩)
  · rw [hevents]
    simp

/-- Under a script in which each source reads inputs of its kind. -/
theorem startProgram_serves (hstart : startProgram p (some configRoot) = .ok program)
    (hfiles : ∀ s ∈ program.sources, 0 ≤ s.1 ∧ s.1 < fdSetSize)
    (hreads : ∀ i k s input, program.sources[k]? = some s → (script i).reads false k = some input →
      program.world.Reads s.2 input) :
    program.lists.Serves p.toPlatform program.world script := by
  intro i timeout w hsame
  obtain ⟨-, -, -, -, -, -, -, hlists⟩ := startProgram_registers hstart
  obtain ⟨nfds, -, hcall⟩ := WaitLists.processIo_holds p.toPlatform hlists
    ((startProgram_subscribed hstart hfiles).sameConfiguration hsame)
    (fun k s input hs hinput => (hreads i k s input hs hinput).sameConfiguration hsame) timeout
  split at hcall
  · exact .inl hcall
  · exact .inr ⟨_, _, _, hcall⟩
  · rcases hcall with ⟨-, hblocks⟩ | ⟨τ, w', -, hreturns, -⟩
    · exact .inl hblocks
    · exact .inr ⟨_, _, _, hreturns⟩

/-- A program without windows and without a division by -1 comes back to its wait, however long it has
been running, unless a call of `process_io` itself does not come back: as soon as `process_io` brings no
more events that are due, nothing in the list is left that is due, up to what is behind an event that is
not. -/
theorem main_loop_returns (hstart : startProgram p (some configRoot) = .ok program)
    (hwindowless : ∀ node ∈ program.world.nodes, node.kind.type ≠ .window)
    (hdivisions : program.world.DivisionsFit)
    (hfiles : ∀ s ∈ program.sources, 0 ≤ s.1 ∧ s.1 < fdSetSize)
    (hreads : ∀ i k s input, program.sources[k]? = some s → (script i).reads false k = some input →
      program.world.Reads s.2 input)
    {readings : List AbsoluteTime}
    (hquiet : ∀ t ∈ readings, ∃ k,
      (program.lists.callbacks (κ := κ) p.toPlatform script).QuietFrom program.world t k)
    (depth : Nat) (reachedTime : AbsoluteTime) :
    ∃ bound rounds out,
      (out = .error .blocks ∨
        ∃ it, out = .ok it ∧ ∀ t, readings.getLast? = some t → it.state.NothingDue t) ∧
      ∀ fuel ≥ bound, processIterations (World.dispatch (p.toPlatform.withDepth depth))
        (program.lists.callbacks p.toPlatform script) (readings.map fun t => (t, fuel))
        (program.loopState (κ := κ) reachedTime) = (rounds, out) := by
  obtain ⟨d, hsteady⟩ := startProgram_steady hstart hwindowless hdivisions
  exact processIterations_returns (startProgram_serves hstart hfiles hreads) hsteady depth hquiet
    (program.loopState_reached p.toPlatform reachedTime)

end

/-- What is read from the tenth call on happened later than the ninth second. -/
theorem oneByte_quietFrom :
    (pickingProgram.lists.callbacks (κ := Unit) treeProgram.toPlatform oneByte).QuietFrom pickingWorld
      ⟨⟨9, 0⟩⟩ 10 := by
  refine pickingProgram.lists.callbacks_quietFrom treeProgram.toPlatform pickingWorld ?_
  intro i hi output j input hinput kind data hdata
  rw [oneByte_time hinput hdata]
  show toLex ((9 : Int), (0 : Int)) < toLex ((i : Int), 0)
  rw [Prod.Lex.toLex_lt_toLex]
  exact .inl (by dsimp only; omega)

/-- The iteration that reads the byte and the end comes to its end, with nothing left that is due. -/
theorem main_loop_returns_one_byte :
    ∃ (bound : Nat) (rounds : List (Round World Unit)) (it : IterationState World Unit),
      it.state.NothingDue ⟨⟨9, 0⟩⟩ ∧
      ∀ fuel ≥ bound, processIterations (World.dispatch (treeProgram.toPlatform.withDepth 8))
        (pickingProgram.lists.callbacks treeProgram.toPlatform oneByte) [(⟨⟨9, 0⟩⟩, fuel)]
        (pickingProgram.loopState ⟨⟨0, 0⟩⟩) = (rounds, .ok it) := by
  have hquiet : ∀ t ∈ [(⟨⟨9, 0⟩⟩ : AbsoluteTime)], ∃ k,
      (pickingProgram.lists.callbacks (κ := Unit) treeProgram.toPlatform oneByte).QuietFrom
        pickingWorld t k := by
    intro t ht
    obtain rfl := List.mem_singleton.mp ht
    exact ⟨10, oneByte_quietFrom⟩
  obtain ⟨bound, rounds, out, hout, hreturns⟩ := main_loop_returns picking_starts (by decide)
    (by simp [World.DivisionsFit, pickingWorld, NodeKind.DivisionFits]) (by decide) oneByte_reads hquiet 8
    ⟨⟨0, 0⟩⟩
  -- it does not wait for ever, as it returns within 30 rounds
  obtain ⟨rounds', it', hrun, -⟩ := oneByte_iteration
  have hmore : ∀ fuel ≥ 30, processIterations (World.dispatch (treeProgram.toPlatform.withDepth 8))
      (pickingProgram.lists.callbacks treeProgram.toPlatform oneByte) [(⟨⟨9, 0⟩⟩, fuel)]
      (pickingProgram.loopState ⟨⟨0, 0⟩⟩) = (rounds', .ok it') := by
    intro fuel hfuel
    rw [processIterations_singleton] at hrun ⊢
    exact processIteration_mono hfuel hrun
  have hsame := (hreturns (max bound 30) (le_max_left _ _)).symm.trans
    (hmore (max bound 30) (le_max_right _ _))
  obtain ⟨rfl, rfl⟩ := Prod.mk.inj hsame
  rcases hout with hblocks | ⟨it, hit, hnothing⟩
  · cases hblocks
  · cases hit
    exact ⟨bound, rounds, it', hnothing _ rfl, hreturns⟩

end EventSeq
