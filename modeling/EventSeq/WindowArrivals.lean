import EventSeq.WindowRuns

/-!
# Arrivals at a window node

An event that reaches a window node stays in the list at the position of the node.  `buffered_set`
hides it while it is in the buffer, so it is handled once as long as no new window begins; the events
that a new window pops are handled again.  An event that is to be skipped stays in the list as well,
so it is handled again until nothing is left to skip.
-/

namespace EventSeq

open Lib

/-! ## Each event is consumed once -/

/-- A window node as `create` makes it, which has done nothing yet. -/
structure FreshWindow (P : Platform) (n : Nat) (w : World) : Prop where
  nodup : w.events.addrs.Nodup
  created : ∃ options draws, w.WindowAt n (windowCreate P options draws).1
  unused : w.actions n = []

/-- What a node records that passes each event on at most once, buffers it right after that, and
never pops one. -/
structure RecordsOnce (actions : List WindowAction) : Prop where
  forwarded : ∀ a, .forwarded a ∈ actions → .buffered a ∈ actions
  forwarded_once : ∀ a, actions.count (.forwarded a) ≤ 1
  buffered_once : ∀ a, actions.count (.buffered a) ≤ 1
  unpopped : ∀ a, .popped a ∉ actions

/-- The invariant of a node whose window never closes: it hides what it has buffered. -/
structure OpenWindow (P : Platform) (n : Nat) (window : WindowGraphNode) (w : World) : Prop where
  nodup : w.events.addrs.Nodup
  at_node : w.WindowAt n window
  buffer : window.buffer.WellFormed
  set : EventSetHolds P window.bufferedSet { a | .buffered a ∈ w.actions n }
  front : ∀ value, queueTryPeek window.buffer = .ok (some value) →
    ∃ x ∈ w.eventsAt n, value = some x.addr ∧ .buffered x.addr ∈ w.actions n
  records : RecordsOnce (w.actions n)

section

variable {P : Platform} {n : Nat} {w w' : World} {window window' : WindowGraphNode} {c : SystemCall}
  {actions passed : List WindowAction} {a : Addr} {e : EventNode}

/-! ## What is recorded -/

theorem RecordsOnce.nil : RecordsOnce [] := by
  constructor <;> simp

theorem RecordsOnce.skip (h : RecordsOnce actions) (a : Addr) :
    RecordsOnce (actions ++ [.skipped a]) where
  forwarded b hb := by simpa using h.forwarded b (by simpa using hb)
  forwarded_once b := by simpa using h.forwarded_once b
  buffered_once b := by simpa using h.buffered_once b
  unpopped b := by simpa using h.unpopped b

theorem RecordsOnce.accept (h : RecordsOnce actions) (ha : .buffered a ∉ actions)
    (hpassed : passed.Sublist [.forwarded a]) :
    RecordsOnce (actions ++ (passed ++ [.buffered a])) := by
  have hforwarded : .forwarded a ∉ actions := fun hmem => ha (h.forwarded a hmem)
  have hnew : passed = [] ∨ passed = [.forwarded a] := List.sublist_singleton.mp hpassed
  constructor
  · intro b hb
    have hold := h.forwarded b
    rcases hnew with rfl | rfl <;> simp at hb ⊢ <;> grind
  · intro b
    have hold := h.forwarded_once b
    by_cases hb : b = a
    · have hnone := List.count_eq_zero.mpr hforwarded
      rcases hnew with rfl | rfl <;> simp [hb, hnone]
    · rcases hnew with rfl | rfl <;> simpa [Ne.symm hb] using hold
  · intro b
    have hold := h.buffered_once b
    by_cases hb : b = a
    · have hnone := List.count_eq_zero.mpr ha
      rcases hnew with rfl | rfl <;> simp [hb, hnone]
    · rcases hnew with rfl | rfl <;> simpa [Ne.symm hb] using hold
  · intro b
    have hold := h.unpopped b
    rcases hnew with rfl | rfl <;> simpa using hold

/-! ## Open windows -/

/-- A change of the node keeps the invariant, if the events of the node stay. -/
theorem OpenWindow.change (h : OpenWindow P n window w) (hnodup : w'.events.addrs.Nodup)
    (hstays : w.eventsAt n ⊆ w'.eventsAt n) (hat : w'.WindowAt n window')
    (hactions : w'.actions n = w.actions n ++ actions)
    (hchange : WindowChange P w n window window' actions) : OpenWindow P n window' w' := by
  have hfront : ∀ value, queueTryPeek window.buffer = .ok (some value) →
      ∃ x ∈ w'.eventsAt n, value = some x.addr ∧ .buffered x.addr ∈ w'.actions n := by
    intro value hvalue
    obtain ⟨x, hx, heq, hbuffered⟩ := h.front value hvalue
    exact ⟨x, hstays hx, heq, by rw [hactions]; exact List.mem_append_left _ hbuffered⟩
  cases hchange with
  | kept =>
      rw [List.append_nil] at hactions
      exact ⟨hnodup, hat, h.buffer, hactions ▸ h.set, hfront, hactions ▸ h.records⟩
  | @skipped e he hposition hskip =>
      have hsame : { a | .buffered a ∈ w'.actions n } = { a | .buffered a ∈ w.actions n } := by
        ext a
        simp [hactions]
      exact ⟨hnodup, hat, h.buffer, hsame ▸ h.set, hfront, hactions ▸ h.records.skip e.addr⟩
  | @accepted e index draws draws' buffer set passed he hposition hhas hput hadd hpassed =>
      -- the event is not hidden, so it was not buffered before
      have hnew : .buffered e.addr ∉ w.actions n := by
        obtain ⟨b, hb, hmem⟩ := h.set.has e.addr
        rw [hhas] at hb
        cases hb
        exact fun hbuffered => Bool.false_ne_true (hmem.mpr hbuffered)
      obtain ⟨_, _, hput', wf, -, hpeek⟩ := queuePut_spec h.buffer (some e.addr)
      rw [hput] at hput'
      cases hput'
      have hset : { a | .buffered a ∈ w'.actions n } =
          insert e.addr { a | .buffered a ∈ w.actions n } := by
        ext a
        rw [hactions]
        rcases List.sublist_singleton.mp hpassed with rfl | rfl <;> simp [or_comm]
      refine ⟨hnodup, hat, wf, hset ▸ h.set.add hnew hadd, fun value hvalue => ?_,
        hactions ▸ h.records.accept hnew hpassed⟩
      rw [hpeek] at hvalue
      split at hvalue
      · cases hvalue
        exact ⟨e, hstays ⟨he, hposition⟩, rfl, by simp [hactions]⟩
      · exact hfront value hvalue

/-! ## A new window -/

theorem OpenWindow.step (h : OpenWindow P n window w) (hstep : SystemStep P w c w')
    (hkeep : KeepsWindow P n ⟨w, c, w'⟩) : ∃ window', OpenWindow P n window' w' := by
  by_cases hc : ∃ e, c = .handle (.node n) e
  · obtain ⟨e, rfl⟩ := hc
    have hopen := hkeep window e rfl h.at_node
    obtain ⟨hnodup', -, hall, he, pre, post, hw, hcall⟩ := hstep.window_call h.nodup h.at_node
    obtain ⟨window', actions, hat, hactions, hchange⟩ :=
      hcall.change hw he.2 h.at_node h.buffer hopen
    exact ⟨window', h.change hnodup' (hall fun htime => hopen (.inl htime)) hat hactions hchange⟩
  · obtain ⟨hnodup', hstays, hat, hactions⟩ :=
      hstep.elsewhere h.nodup h.at_node fun e heq => hc ⟨e, heq⟩
    exact ⟨window, h.change hnodup' hstays hat (by rw [hactions, List.append_nil]) .kept⟩

end

/-- An `evdev` source, a window node with the given options and a `print` node in a row. -/
def windowGraph (options : WindowOptions) : World where
  events := .empty
  nodes := [⟨false, [], [some 0], .evdev (sourceCreate 0)⟩,
    ⟨false, [some 0], [some 1], .window (windowCreate simplePlatform options 0).1⟩,
    ⟨false, [some 1], [], .print⟩]
  channels := [⟨false, some 0, some 1, 0, 0⟩, ⟨false, some 1, some 2, 0, 0⟩]
  predicates := []
  deliveries := []
  draws := 1
  log := []

theorem windowGraph_fresh (options : WindowOptions) :
    FreshWindow simplePlatform 1 (windowGraph options) where
  nodup := List.nodup_nil
  created := ⟨options, 0, _, rfl, rfl⟩
  unused := rfl

/-- One key at the given second. -/
def keyAt (sec : Int) : SourceInput :=
  .evdev ⟨⟨⟨1, 0⟩⟩, ⟨⟨1, 0⟩⟩, [⟨sec, 0, 1, 30, 1⟩], .again⟩

def idleProcessing : ProcessingState Unit := ⟨.empty, default, int32Min, false⟩

/-- The node has buffered this event, so that its handler does nothing. -/
def World.hides (P : Platform) (w : World) (n : Nat) (a : Addr) : Bool :=
  match w.nodes[n]?.map GraphNode.kind with
  | some (.window window) =>
      match eventSetHas P window.bufferedSet a with
      | .ok hidden => hidden
      | .error _ => false
  | _ => false

/-- The event that a call delivers to the node `n`. -/
def arrival (P : Platform) (n : Nat) (x : SystemTransition) : Option Addr :=
  match x.label with
  | .handle (.node m) e => if m = n ∧ !x.before.hides P n e.addr then some e.addr else none
  | _ => none

/-- The events delivered to the node `n`, each at its first delivery. -/
def arrivals (P : Platform) (n : Nat) (τ : List SystemTransition) : List Addr :=
  (τ.filterMap (arrival P n)).eraseDups

/-- What the node `n` did between two states. -/
def actionsSince (n : Nat) (w w' : World) : List WindowAction :=
  (w'.actions n).drop (w.actions n).length

/-- Between the two states the event was skipped once, was not used otherwise, and was removed. -/
structure Dropped (n : Nat) (a : Addr) (w w' : World) : Prop where
  skipped_once : (actionsSince n w w').count (.skipped a) = 1
  unused : .forwarded a ∉ actionsSince n w w' ∧ .buffered a ∉ actionsSince n w w'
  removed : a ∉ w'.events.addrs

/-- With `k` events to skip, the next `k` distinct arrivals are dropped and the one after them is
passed through. -/
structure SkipsEvents (P : Platform) (n k : Nat) (w : World) (τ : List SystemTransition)
    (w' : World) : Prop where
  dropped : ∀ a ∈ (arrivals P n τ).take k, Dropped n a w w'
  passed : ∀ a, (arrivals P n τ)[k]? = some a → .forwarded a ∈ actionsSince n w w'

section

variable {P : Platform} {n : Nat} {w w' : World} {window : WindowGraphNode} {c : SystemCall}
  {e : EventNode} {pre post : List EventNode} {τ : List SystemTransition}

theorem WindowCall.windowAt (hat : w.WindowAt n window)
    (h : WindowCall P w n window pre e post w') : ∃ window', w'.WindowAt n window' := by
  cases h with
  | hidden _ => exact ⟨window, hat⟩
  | noMemory _ _ => exact ⟨_, World.windowAt_putWindow hat _ _⟩
  | outlived _ _ _ _ _ => exact ⟨_, World.windowAt_putWindow hat _ _⟩
  | skipped _ _ _ => exact ⟨_, World.windowAt_putWindow hat _ _⟩
  | accepted _ _ _ _ => exact ⟨_, World.windowAt_putWindow hat _ _⟩

/-- As long as no window is closed, the events of the node stay. -/
theorem SystemStep.keeps (h : SystemStep P w c w') (hnodup : w.events.addrs.Nodup)
    (hat : w.WindowAt n window) (hkeep : KeepsWindow P n ⟨w, c, w'⟩) :
    w'.events.addrs.Nodup ∧ w.eventsAt n ⊆ w'.eventsAt n ∧ ∃ window', w'.WindowAt n window' := by
  by_cases hc : ∃ e, c = .handle (.node n) e
  · obtain ⟨e, rfl⟩ := hc
    obtain ⟨hnodup', -, hall, he, pre, post, hw, hcall⟩ := h.window_call hnodup hat
    exact ⟨hnodup', hall fun htime => hkeep window e rfl hat (.inl htime), hcall.windowAt hat⟩
  · obtain ⟨hnodup', hstays, hat', -⟩ := h.elsewhere hnodup hat fun e heq => hc ⟨e, heq⟩
    exact ⟨hnodup', hstays, window, hat'⟩

theorem SystemStep.arrival_mem (h : SystemStep P w c w') {a : Addr}
    (ha : arrival P n ⟨w, c, w'⟩ = some a) : ∃ e ∈ w.eventsAt n, e.addr = a := by
  cases h with
  | read _ => cases ha
  | @handle _ p e result he hp hrun =>
      cases p with
      | channel _ => cases ha
      | node m =>
          simp only [arrival, Option.ite_none_right_eq_some, Option.some.injEq] at ha
          obtain ⟨⟨rfl, -⟩, rfl⟩ := ha
          exact ⟨e, ⟨he, hp⟩, rfl⟩

/-- The events of the node stay during the whole run, and those that arrive are among them. -/
theorem run_keeps (hrun : Run (SystemStep P) w τ w') (hnodup : w.events.addrs.Nodup)
    (hat : w.WindowAt n window) (hkeep : ∀ x ∈ τ, KeepsWindow P n x) :
    w.eventsAt n ⊆ w'.eventsAt n ∧
      ∀ a ∈ τ.filterMap (arrival P n), ∃ e ∈ w'.eventsAt n, e.addr = a := by
  induction hrun generalizing window with
  | nil _ => exact ⟨subset_rfl, by simp⟩
  | @cons w w₁ w₂ c τ hstep _ ih =>
      obtain ⟨hnodup', hstays, window', hat'⟩ :=
        hstep.keeps hnodup hat (hkeep _ List.mem_cons_self)
      obtain ⟨hrest, harrivals⟩ := ih hnodup' hat' fun x hx => hkeep x (List.mem_cons_of_mem _ hx)
      refine ⟨hstays.trans hrest, fun a ha => ?_⟩
      rw [List.filterMap_cons] at ha
      split at ha
      · exact harrivals a ha
      · rename_i b hb
        rcases List.mem_cons.mp ha with rfl | ha
        · obtain ⟨e, he, heq⟩ := hstep.arrival_mem hb
          exact ⟨e, hrest (hstays he), heq⟩
        · exact harrivals a ha

/-- Whatever a window node has to skip, no event that arrives is dropped while no window is closed:
it stays in the list, at the position of the node. -/
theorem skip_never_drops (hrun : Run (SystemStep P) w τ w') (hnodup : w.events.addrs.Nodup)
    (hat : w.WindowAt n window) (hskip : 0 < window.skipNext)
    (hkeep : ∀ x ∈ τ, KeepsWindow P n x) (harrives : arrivals P n τ ≠ []) :
    (∀ a ∈ arrivals P n τ, ¬Dropped n a w w') ∧ ¬SkipsEvents P n window.skipNext w τ w' := by
  have hnever : ∀ a ∈ arrivals P n τ, ¬Dropped n a w w' := by
    intro a ha hdropped
    obtain ⟨e, he, rfl⟩ :=
      (run_keeps hrun hnodup hat hkeep).2 a (List.mem_eraseDups.mp ha)
    exact hdropped.removed (List.mem_map_of_mem he.1)
  refine ⟨hnever, fun hskips => ?_⟩
  obtain ⟨a, rest, hfirst⟩ := List.exists_cons_of_ne_nil harrives
  obtain ⟨k, hk⟩ := Nat.exists_eq_add_one.mpr hskip
  apply hnever a (by simp [hfirst])
  apply hskips.dropped
  rw [hfirst, hk, List.take_succ_cons]
  exact List.mem_cons_self

/-! ## Skipping under the scheduler -/

/-- A world with one priority in which `e` is the first event that is ready, and the window node it
stands at would skip it. -/
structure SkipsFirst (P : Platform) (maxTime : AbsoluteTime) (priority : Int) (n : Nat)
    (pre : List EventNode) (e : EventNode) (post : List EventNode) (window : WindowGraphNode)
    (w : World) : Prop where
  split : w.SplitAt pre e post
  all_at : AllAt maxTime priority w.events.nodes
  unready : ∀ x ∈ pre, (World.dispatch P).readyPosition w x = none
  ready : (World.dispatch P).readyPosition w e = some (.node n)
  window_at : w.WindowAt n window
  not_hidden : eventSetHas P window.bufferedSet e.addr = .ok false
  not_outlived : windowOutlived (w.windowState window) e.time = .ok false

/-- The world after the node has skipped the event. -/
def World.skip (w : World) (n : Nat) (window : WindowGraphNode) (e : EventNode) (waiting : Bool) :
    World :=
  w.putWindow n { w.windowState window with
    node := { window with skipNext := window.skipNext - 1 }
    log := [.skipped e.addr] } waiting

theorem windowHandleEvent_skip {node : GraphNode} (hdepth : 0 < P.depth)
    (hw : w.SplitAt pre e post) (hnode : w.nodes[n]? = some node)
    (hhas : eventSetHas P window.bufferedSet e.addr = .ok false)
    (houtlived : windowOutlived (w.windowState window) e.time = .ok false)
    (hskip : 0 < window.skipNext) :
    windowHandleEvent P w n window e.addr =
      .ok (true, w.skip n window e node.waitingNewEvent) := by
  obtain ⟨depth, hdepth⟩ := Nat.exists_eq_add_one.mpr hdepth
  have htime : timeLoop P n node e.time P.depth e.addr (w.windowState window) =
      .ok (some e.addr, w.windowState window) := by
    rw [hdepth, timeLoop, houtlived]
    rfl
  simp only [World.windowState] at htime
  simp only [windowHandleEvent, World.node_eq hnode, World.lookup_eq hw, hhas, bind, Except.bind,
    Bool.false_eq_true, if_false, htime, hskip, if_true]
  rfl

theorem World.putWindow_readyPosition (P : Platform) {node : GraphNode}
    (hnode : w.nodes[n]? = some node)
    (hkind : node.kind = .window window) (s : WindowState) (x : EventNode) :
    (World.dispatch P).readyPosition (w.putWindow n s node.waitingNewEvent) x =
      (World.dispatch P).readyPosition w x := by
  have hwaiting : ∀ p, (w.putWindow n s node.waitingNewEvent).waitingNewEvent p =
      w.waitingNewEvent p := by
    intro p
    cases p with
    | channel c => rfl
    | node m =>
        show (((w.nodes.modify n _)[m]?).map GraphNode.waitingNewEvent).getD false = _
        rw [List.getElem?_modify]
        by_cases hm : n = m
        · subst hm
          simp [World.waitingNewEvent, hnode]
        · simp [World.waitingNewEvent, hm]
  have hhandler := (World.putWindow_sameGraph hnode hkind s node.waitingNewEvent).hasHandler
  simp only [Dispatch.readyPosition, World.dispatch, hwaiting, hhandler]

/-- One call of the scheduler makes the node skip the event, which stays the first that is ready. -/
theorem SkipsFirst.process {maxTime : AbsoluteTime} {priority : Int} {fuel : Nat} {κ : Type}
    (h : SkipsFirst P maxTime priority n pre e post window w) (hdepth : 0 < P.depth)
    (hpriority : int32Min < priority) (hskip : 0 < window.skipNext)
    (hfuel : w.events.nodes.length + 2 ≤ fuel) (proc : ProcessingState κ) :
    ∃ proc' trace w', processEventsUntil (World.dispatch P) fuel maxTime proc w =
        (trace, .ok (true, proc', w')) ∧ w'.events = w.events ∧
      w'.actions n = w.actions n ++ [.skipped e.addr] ∧
      SkipsFirst P maxTime priority n pre e post
        { window with skipNext := window.skipNext - 1 } w' := by
  obtain ⟨node, hnode, hkind⟩ := h.window_at
  have hcall : (World.dispatch P).handleEvent (.node n) e w =
      .ok (true, w.skip n window e node.waitingNewEvent) := by
    have hrun := windowHandleEvent_skip hdepth h.split hnode h.not_hidden h.not_outlived hskip
    show nodeHandleEvent P w n e.addr = _
    simp only [nodeHandleEvent, World.node_eq hnode, bind, Except.bind, hkind]
    exact hrun
  -- the handler returns `true`, so that the call ends there
  obtain ⟨-, hfirst⟩ := @processEventsUntil_first World κ (World.dispatch P) maxTime w priority pre
    post e fuel (.node n) hpriority h.all_at h.split.nodup h.split.nodes h.unready h.ready hfuel proc
  obtain ⟨proc', hprocess⟩ := hfirst _ hcall
  refine ⟨proc', _, _, hprocess, rfl, ?_, ?_⟩
  · rw [World.skip, World.actions_putWindow, if_pos rfl]
  · have hready := fun x => World.putWindow_readyPosition P hnode hkind
      { w.windowState window with
        node := { window with skipNext := window.skipNext - 1 }
        log := [.skipped e.addr] } x
    exact ⟨⟨h.split.nodes, h.split.nodup⟩, h.all_at, fun x hx => (hready x).trans (h.unready x hx),
      (hready e).trans h.ready, World.windowAt_putWindow h.window_at _ _, h.not_hidden,
      h.not_outlived⟩

/-- Whatever the number of events to skip, one event uses them all up, and comes next again. -/
theorem SkipsFirst.uses_all {maxTime : AbsoluteTime} {priority : Int} {fuel : Nat} {κ : Type}
    (h : SkipsFirst P maxTime priority n pre e post window w) (hdepth : 0 < P.depth)
    (hpriority : int32Min < priority) (hfuel : w.events.nodes.length + 2 ≤ fuel)
    (proc : ProcessingState κ) :
    ∃ τ w', runProgram P fuel (List.replicate window.skipNext (.process maxTime)) proc w =
        (τ, .ok w') ∧ w'.events = w.events ∧
      w'.actions n = w.actions n ++ List.replicate window.skipNext (.skipped e.addr) ∧
      SkipsFirst P maxTime priority n pre e post { window with skipNext := 0 } w' := by
  generalize hk : window.skipNext = k
  induction k generalizing window w proc with
  | zero =>
      have hsame : { window with skipNext := 0 } = window := by rw [← hk]
      exact ⟨[], w, rfl, rfl, by simp, hsame ▸ h⟩
  | succ k ih =>
      obtain ⟨proc', trace, w₁, hprocess, hevents, hactions, h₁⟩ :=
        h.process hdepth hpriority (by omega) hfuel proc
      obtain ⟨τ, w', hrun, hevents', hactions', h'⟩ :=
        ih h₁ (by rw [hevents]; exact hfuel) proc' (by simp [hk])
      refine ⟨trace.filterMap Invocation.transition ++ τ, w', ?_, hevents'.trans hevents, ?_, h'⟩
      · rw [List.replicate_succ, runProgram, hprocess]
        simp only [hrun]
      · rw [hactions', hactions, List.append_assoc]
        rfl

end

theorem skip_never_drops_one_key :
    ∃ w τ w', Run (SystemStep simplePlatform) w τ w' ∧ arrivals simplePlatform 1 τ = [1] ∧
      actionsSince 1 w w' = [.skipped 1] ∧ ¬Dropped 1 1 w w' := by
  let window : WindowGraphNode :=
    { (windowCreate simplePlatform ⟨0, 0, none, none, none⟩ 0).1 with skipNext := 1 }
  let e : EventNode := ⟨1, some (.node 1), 0, { (default : EventData) with ttl := 9 }⟩
  let w : World :=
    { windowGraph ⟨0, 0, none, none, none⟩ with
      events := ⟨[e], 1⟩
      nodes := [⟨false, [], [some 0], .evdev (sourceCreate 0)⟩,
        ⟨false, [some 0], [some 1], .window window⟩, ⟨false, [some 1], [], .print⟩] }
  have hhandle : (w.handleEvent simplePlatform (.node 1) e).map
      (fun r => (r.1, actionsSince 1 w r.2)) = .ok (true, [.skipped 1]) := by decide +kernel
  obtain ⟨⟨result, w'⟩, hhandle, heq⟩ := map_eq_ok_iff.mp hhandle
  have hrun : Run (SystemStep simplePlatform) w [⟨w, .handle (.node 1) e, w'⟩] w' :=
    .single (.handle (List.mem_singleton_self e) rfl hhandle)
  have harrivals : arrivals simplePlatform 1 [⟨w, .handle (.node 1) e, w'⟩] = [1] := by
    have hhides : w.hides simplePlatform 1 1 = false := by decide +kernel
    simp [arrivals, arrival, hhides, e, List.eraseDups_cons]
  have hwindow : w.WindowAt 1 window := ⟨_, rfl, rfl⟩
  refine ⟨w, _, w', hrun, harrivals, (Prod.mk.inj heq).2, ?_⟩
  apply (skip_never_drops hrun (List.nodup_singleton _) hwindow Nat.one_pos ?_ ?_).1
  · rw [harrivals]
    exact List.mem_cons_self
  · intro x hx window' e' hlabel hat
    obtain rfl := List.mem_singleton.mp hx
    obtain ⟨node, hnode, hkind⟩ := hat
    cases hnode
    cases hkind
    -- without bounds no window is closed
    rintro (⟨-, -, houtlived⟩ | ⟨-, -, -, -, hmax, -⟩)
    · cases houtlived
    · cases hmax
  · rw [harrivals]
    exact List.cons_ne_nil _ _

/-- Two sources with a window node each; only the second window has a bound, and an output. -/
def twoWindowGraph : World where
  events := .empty
  nodes := [⟨false, [], [some 0], .evdev (sourceCreate 0)⟩,
    ⟨false, [], [some 1], .evdev (sourceCreate 0)⟩,
    ⟨false, [some 0], [], .window (windowCreate simplePlatform ⟨0, 0, none, none, none⟩ 0).1⟩,
    ⟨false, [some 1], [some 2], .window (windowCreate simplePlatform ⟨1, 1, some 2, none, none⟩ 1).1⟩,
    ⟨false, [some 2], [], .print⟩]
  channels := [⟨false, some 0, some 2, 0, 0⟩, ⟨false, some 1, some 3, 0, 0⟩,
    ⟨false, some 3, some 4, 0, 0⟩]
  predicates := []
  deliveries := []
  draws := 2
  log := []

/-- The second window is filled with two keys and leaves one to be skipped. -/
def fillWindow : List ProgramCall :=
  [.read 0 (keyAt 2), .read 1 (keyAt 2), .read 1 (keyAt 2)] ++ List.replicate 10 (.process ⟨⟨5, 0⟩⟩)

/-- A third key, of an earlier time, is delivered and handled twice. -/
def thirdKey : List ProgramCall := .read 1 (keyAt 1) :: List.replicate 3 (.process ⟨⟨5, 0⟩⟩)

/-- With one event to skip, a key is skipped and then passed through and buffered all the same. -/
theorem skipped_event_forwarded :
    ∃ w τ w' window,
      (runProgram simplePlatform 30 fillWindow idleProcessing twoWindowGraph).2 = .ok w ∧
      w.WindowAt 3 window ∧ window.skipNext = 1 ∧
      runProgram simplePlatform 30 thirdKey idleProcessing w = (τ, .ok w') ∧
      arrivals simplePlatform 3 τ = [4] ∧
      actionsSince 3 w w' = [.skipped 4, .forwarded 4, .buffered 4] ∧
      ¬SkipsEvents simplePlatform 3 1 w τ w' := by
  have hruns : (runProgram simplePlatform 30 fillWindow idleProcessing twoWindowGraph).2.map
      (fun w => ((w.windowNode 3).map WindowGraphNode.skipNext,
        arrivals simplePlatform 3 (runProgram simplePlatform 30 thirdKey idleProcessing w).1,
        (runProgram simplePlatform 30 thirdKey idleProcessing w).2.map (actionsSince 3 w))) =
      .ok (some 1, [4], .ok [.skipped 4, .forwarded 4, .buffered 4]) := by decide +kernel
  obtain ⟨w, hfill, hruns⟩ := map_eq_ok_iff.mp hruns
  simp only [Prod.mk.injEq] at hruns
  obtain ⟨hskip, harrivals, hthird⟩ := hruns
  obtain ⟨w', hthird, hactions⟩ := map_eq_ok_iff.mp hthird
  obtain ⟨window, hwindow, hskip⟩ := Option.map_eq_some_iff.mp hskip
  refine ⟨w, _, w', window, hfill, World.windowNode_eq_some_iff.mp hwindow, hskip, Prod.ext rfl hthird,
    harrivals, hactions, fun hskips => ?_⟩
  have hdropped := hskips.dropped 4 (by simp [harrivals])
  exact hdropped.unused.1 (by simp [hactions])

end EventSeq
