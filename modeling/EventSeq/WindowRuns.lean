import EventSeq.Draining
import EventSeq.Handlers
import EventSeq.HashTableInsert
import EventSeq.WindowEvents

/-!
# Runs through a window node

What one call of the system does to a window node and to the events at its position, as long as no
new window begins.  An event of the node stays in the list at the position of the node all along; it
is hidden once it has been buffered.
-/

namespace EventSeq

open Lib HashTable

/-! ## The event set -/

/-- The set holds exactly the given events. -/
structure EventSetHolds (P : Platform) (set : HashTable (Option Addr) Bool) (as : Set Addr) :
    Prop where
  wellFormed : set.WellFormed P.preHash
  represents : ∃ m, set.Represents m ∧ ∀ a, (m (some a)).isSome ↔ a ∈ as

section

variable {P : Platform} {set set' : HashTable (Option Addr) Bool} {as : Set Addr} {a : Addr}
  {draws draws' : Nat}

theorem hashTableInitImpl_holds (P : Platform) (draws : Nat) :
    EventSetHolds P (hashTableInitImpl P.members draws).1 ∅ where
  wellFormed := createTable_wellFormed le_rfl _
  represents := ⟨_, createTable_represents _ _, by simp⟩

theorem EventSetHolds.has (h : EventSetHolds P set as) (a : Addr) :
    ∃ b, eventSetHas P set a = .ok b ∧ (b = true ↔ a ∈ as) := by
  obtain ⟨m, hm, hmem⟩ := h.represents
  obtain ⟨i, hfind, hi⟩ := hashTableFindImpl_spec h.wellFormed hm (some a)
  refine ⟨decide (i ≥ 0), ?_, ?_⟩
  · rw [eventSetHas, hashEventPtr, hashTableKeyFromBytes]
    exact (bind_eq_ok_iff _ _ _).mpr ⟨i, hfind, rfl⟩
  · rw [decide_eq_true_iff, ← hmem]
    cases hma : m (some a) with
    | none =>
        rw [hma] at hi
        simp [show i = -1 from hi]
    | some v =>
        rw [hma] at hi
        obtain ⟨j, rfl, -⟩ := hi
        simp

/-- Adding an event that is not in the set; no deletion has to be considered. -/
theorem EventSetHolds.add (h : EventSetHolds P set as) (ha : a ∉ as)
    (hrun : eventSetAdd P set a draws = .ok (set', draws')) :
    EventSetHolds P set' (insert a as) := by
  obtain ⟨m, hm, hmem⟩ := h.represents
  obtain ⟨⟨i, table, rest⟩, hinsert, ⟨⟩⟩ := (bind_eq_ok_iff _ _ _).mp hrun
  have hnone : m (some a) = none := by
    rw [← Option.not_isSome_iff_eq_none, hmem]
    exact ha
  have hole := hm.noHoleBefore_of_none h.wellFormed.shaped hnone
  have hinserted :=
    hashTableInsertImpl_spec P.members P.depth h.wellFormed hm (.inr hole) hinsert
  refine ⟨hinserted.wellFormed, _, hinserted.represents, fun b => ?_⟩
  rw [Set.mem_insert_iff, ← hmem b]
  by_cases hb : b = a
  · simp [hb]
  · rw [Function.update_of_ne fun heq => hb (Option.some.inj heq)]
    simp [hb]

end

/-! ## Runs of the scheduler -/

/-- What the program does to a world: reads, and calls of `process_events_until`. -/
inductive ProgramCall where
  | read (n : Nat) (input : SourceInput)
  | process (maxTime : AbsoluteTime)

/-- A handler call that has returned, as a step of the system. -/
def Invocation.transition (i : Invocation World) : Option SystemTransition :=
  match i.outcome with
  | .ok (_, w) => some ⟨i.before, .handle i.position i.event, w⟩
  | .error _ => none

/-- The given calls one after the other, with the passes of the scheduler bounded by `fuel`, and all
steps of the system they are made of. -/
def runProgram {κ : Type} (P : Platform) (fuel : Nat) :
    List ProgramCall → ProcessingState κ → World → List SystemTransition × Except Fault World
  | [], _, w => ([], .ok w)
  | .read n input :: calls, proc, w =>
      match handleIo P w n input with
      | .error f => ([], .error f)
      | .ok w' =>
          let (τ, result) := runProgram P fuel calls proc w'
          (⟨w, .read n input, w'⟩ :: τ, result)
  | .process maxTime :: calls, proc, w =>
      match processEventsUntil (World.dispatch P) fuel maxTime proc w with
      | (trace, .error f) => (trace.filterMap Invocation.transition, .error f)
      | (trace, .ok (_, proc, w')) =>
          let (τ, result) := runProgram P fuel calls proc w'
          (trace.filterMap Invocation.transition ++ τ, result)

/-- The calls of the scheduler are steps of the system. -/
theorem systemRun_of_trace {P : Platform} {maxTime : AbsoluteTime} {w w' : World}
    {is : List (Invocation World)} {out : Except Fault World}
    (h : (World.dispatch P).Trace maxTime w is out) (hout : out = .ok w') :
    Run (SystemStep P) w (is.filterMap Invocation.transition) w' := by
  induction h with
  | returns w =>
      cases hout
      exact .nil _
  | faults w f => cases hout
  | stuck _ _ => cases hout
  | @called w w₁ p e result is out hcan hrun _ ih =>
      have hposition : e.position = some p := (Option.filter_eq_some_iff.mp hcan.ready).1
      exact .cons (.handle hcan.mem hposition hrun) (ih hout)

theorem systemRun_of_runProgram {κ : Type} {P : Platform} {fuel : Nat} {calls : List ProgramCall}
    {proc : ProcessingState κ} {τ : List SystemTransition} {w w' : World}
    (h : runProgram P fuel calls proc w = (τ, .ok w')) : Run (SystemStep P) w τ w' := by
  induction calls generalizing proc w τ with
  | nil =>
      cases h
      exact .nil _
  | cons call calls ih =>
      cases call with
      | read n input =>
          rw [runProgram] at h
          cases hread : handleIo P w n input with
          | error f =>
              rw [hread] at h
              cases h
          | ok w₁ =>
              rw [hread] at h
              obtain ⟨rfl, hresult⟩ := Prod.mk.inj h
              exact .cons (.read hread) (ih (Prod.ext rfl hresult))
      | process maxTime =>
          rw [runProgram] at h
          have htrace := processEventsUntil_trace (World.dispatch P) fuel maxTime proc w
          rcases hprocess : processEventsUntil (World.dispatch P) fuel maxTime proc w with
            ⟨trace, _ | ⟨hadEvents, proc', w₁⟩⟩ <;> rw [hprocess] at h htrace
          · cases h
          · obtain ⟨rfl, hresult⟩ := Prod.mk.inj h
            exact (systemRun_of_trace htrace rfl).append (ih (Prod.ext rfl hresult))

/-! ## The node in the world -/

/-- What the node `n` has done with its events so far. -/
def World.actions (w : World) (n : Nat) : List WindowAction :=
  (w.log.filter fun entry => entry.1 = n).map Prod.snd

/-- The node `n` is a window node in this state. -/
def World.WindowAt (w : World) (n : Nat) (window : WindowGraphNode) : Prop :=
  ∃ node, w.nodes[n]? = some node ∧ node.kind = .window window

def World.windowNode (w : World) (n : Nat) : Option WindowGraphNode :=
  w.nodes[n]?.bind fun node => node.kind.asWindow

theorem World.windowNode_eq_some_iff {w : World} {n : Nat} {window : WindowGraphNode} :
    w.windowNode n = some window ↔ w.WindowAt n window := by
  simp only [World.windowNode, Option.bind_eq_some_iff, NodeKind.asWindow_eq_some_iff, World.WindowAt]

/-- The events at the position of the node `n`. -/
def World.eventsAt (w : World) (n : Nat) : Set EventNode :=
  { x | x ∈ w.events.nodes ∧ x.position = some (.node n) }

/-- A call on the event closes the window for the sake of time, and has memory for a copy. -/
def ClosesByTime (P : Platform) (w : World) (window : WindowGraphNode) (e : EventNode) : Prop :=
  eventSetHas P window.bufferedSet e.addr = .ok false ∧
  P.allocator.malloc w.events.mallocs w.events.addrs.toFinset ≠ none ∧
  windowOutlived (w.windowState window) e.time = .ok true

/-- A call on the event skips nothing and fills the window, and has memory for a copy. -/
def ClosesByLength (P : Platform) (w : World) (window : WindowGraphNode) (e : EventNode) : Prop :=
  eventSetHas P window.bufferedSet e.addr = .ok false ∧
  P.allocator.malloc w.events.mallocs w.events.addrs.toFinset ≠ none ∧
  windowOutlived (w.windowState window) e.time = .ok false ∧
  window.skipNext = 0 ∧ window.hasMaxLength ∧ window.maxLength ≤ queueLength window.buffer + 1

def ClosesWindow (P : Platform) (w : World) (window : WindowGraphNode) (e : EventNode) : Prop :=
  ClosesByTime P w window e ∨ ClosesByLength P w window e

/-- No new window of the node `n` begins in this call. -/
def KeepsWindow (P : Platform) (n : Nat) (x : SystemTransition) : Prop :=
  ∀ window e, x.label = .handle (.node n) e → x.before.WindowAt n window →
    ¬ClosesWindow P x.before window e

/-- The event that the node `n` is called with. -/
def SystemCall.handledAt (n : Nat) : SystemCall → Option EventNode
  | .handle (.node m) e => if m = n then some e else none
  | _ => none

theorem keepsWindow_iff {P : Platform} {n : Nat} {x : SystemTransition} :
    KeepsWindow P n x ↔ ∀ e ∈ x.label.handledAt n, ∀ window ∈ x.before.windowNode n,
      ¬ClosesWindow P x.before window e := by
  have hhandled : ∀ e, x.label.handledAt n = some e ↔ x.label = .handle (.node n) e := by
    intro e
    rcases x.label with ⟨_ | _, e'⟩ | _ <;> simp [SystemCall.handledAt]
  simp only [KeepsWindow, Option.mem_def, hhandled, World.windowNode_eq_some_iff]
  exact ⟨fun h e hlabel window => h window e hlabel, fun h window e hlabel => h e hlabel window⟩

instance (P : Platform) (w : World) (window : WindowGraphNode) (e : EventNode) :
    Decidable (ClosesWindow P w window e) :=
  inferInstanceAs (Decidable ((_ ∧ _ ∧ _) ∨ (_ ∧ _ ∧ _ ∧ _ ∧ _ ∧ _)))

instance (P : Platform) (n : Nat) (x : SystemTransition) : Decidable (KeepsWindow P n x) :=
  decidable_of_iff' _ keepsWindow_iff

/-- What a call that begins no new window does to the state of a window node and what it logs. -/
inductive WindowChange (P : Platform) (w : World) (n : Nat) (window : WindowGraphNode) :
    WindowGraphNode → List WindowAction → Prop where
  | kept : WindowChange P w n window window []
  | skipped {e : EventNode} :
      e ∈ w.events.nodes → e.position = some (.node n) → 0 < window.skipNext →
      WindowChange P w n window { window with skipNext := window.skipNext - 1 } [.skipped e.addr]
  | accepted {e : EventNode} {index draws draws' : Nat} {buffer : Queue (Option Addr)}
      {set : HashTable (Option Addr) Bool} {passed : List WindowAction} :
      e ∈ w.events.nodes → e.position = some (.node n) →
      eventSetHas P window.bufferedSet e.addr = .ok false →
      queuePut window.buffer (some e.addr) = .ok (index, buffer) →
      eventSetAdd P window.bufferedSet e.addr draws = .ok (set, draws') →
      passed.Sublist [.forwarded e.addr] →
      WindowChange P w n window { window with buffer := buffer, bufferedSet := set }
        (passed ++ [.buffered e.addr])

section

variable {P : Platform} {w w' : World} {n m : Nat} {window : WindowGraphNode} {e : EventNode}
  {pre post : List EventNode} {s s' : WindowState} {source : GraphNode}

theorem passThrough_log {event : Addr} (h : passThrough P source event s = .ok s') :
    ∃ passed, s'.log = s.log ++ passed ∧ passed.Sublist [.forwarded event] ∧ s'.node = s.node ∧
      s'.draws = s.draws := by
  obtain ⟨⟨replicated, events⟩, -, h⟩ := (bind_eq_ok_iff _ _ _).mp h
  dsimp only at h
  split at h
  · cases h
    exact ⟨[], by simp, List.nil_sublist _, rfl, rfl⟩
  · split at h
    · cases h
    · obtain ⟨_, -, ⟨⟩⟩ := (bind_eq_ok_iff _ _ _).mp h
      exact ⟨[.forwarded event], rfl, List.Sublist.refl _, rfl, rfl⟩

theorem bufferEvent_cases {event : Addr} (h : bufferEvent P event s = .ok s') :
    ∃ index buffer set draws, queuePut s.node.buffer (some event) = .ok (index, buffer) ∧
      eventSetAdd P s.node.bufferedSet event s.draws = .ok (set, draws) ∧
      s' = { s with
        node := { s.node with buffer := buffer, bufferedSet := set }
        draws := draws
        log := s.log ++ [.buffered event] } := by
  obtain ⟨⟨index, buffer⟩, hput, h⟩ := (bind_eq_ok_iff _ _ _).mp h
  obtain ⟨⟨set, draws⟩, hadd, ⟨⟩⟩ := (bind_eq_ok_iff _ _ _).mp h
  exact ⟨index, buffer, set, draws, hput, hadd, rfl⟩

/-! ## What the node records -/

theorem popLoop_log {step rest : Nat} (h : popLoop P step s = .ok (rest, s')) :
    s.log <+: s'.log := by
  induction step generalizing s with
  | zero =>
      cases h
      exact List.prefix_rfl
  | succ step ih =>
      rw [popLoop] at h
      obtain ⟨⟨event, buffer⟩, -, h⟩ := (bind_eq_ok_iff _ _ _).mp h
      cases event with
      | none =>
          cases h
          exact List.prefix_rfl
      | some event =>
          obtain ⟨set, -, h⟩ := (bind_eq_ok_iff _ _ _).mp h
          exact (List.prefix_append _ _).trans (ih h)

theorem windowStep_pos (node : WindowGraphNode) : 0 < windowStep node := by
  unfold windowStep
  dsimp only
  split_ifs <;> omega

/-- What a new window records, it records while it pops. -/
theorem triggerNewWindow_popLoop {base : Addr} (h : triggerNewWindow P source (some base) s = .ok s') :
    ∃ events rest popped, popLoop P (windowStep s.node) { s with events := events } =
      .ok (rest, popped) ∧ s'.log = popped.log ∧ s'.node.buffer = popped.node.buffer ∧
      s'.node.bufferedSet = popped.node.bufferedSet := by
  obtain ⟨⟨base', events⟩, -, h⟩ := (bind_eq_ok_iff _ _ _).mp h
  obtain ⟨⟨rest, popped⟩, hpop, h⟩ := (bind_eq_ok_iff _ _ _).mp h
  obtain ⟨indices, -, h⟩ := (bind_eq_ok_iff _ _ _).mp h
  obtain ⟨⟨base'', events'⟩, -, h⟩ := (bind_eq_ok_iff _ _ _).mp h
  obtain ⟨destroyed, -, ⟨⟩⟩ := (bind_eq_ok_iff _ _ _).mp h
  exact ⟨events, rest, popped, hpop, rfl, rfl, rfl⟩

theorem triggerNewWindow_log {base : Option Addr} (h : triggerNewWindow P source base s = .ok s') :
    s.log <+: s'.log := by
  cases base with
  | none =>
      cases h
      exact List.prefix_rfl
  | some base =>
      obtain ⟨events, rest, popped, hpop, hlog, -⟩ := triggerNewWindow_popLoop h
      have hleads := popLoop_log hpop
      rw [hlog]
      exact hleads

theorem lengthLoop_log {threshold fuel : Nat} {replacement last : Addr}
    (h : lengthLoop P source threshold fuel replacement s = .ok (last, s')) :
    s.log <+: s'.log := by
  induction fuel generalizing replacement s with
  | zero => cases h
  | succ fuel ih =>
      rw [lengthLoop] at h
      split at h
      · obtain ⟨⟨base, replacement', events⟩, -, h⟩ := (bind_eq_ok_iff _ _ _).mp h
        obtain ⟨s₁, htrigger, h⟩ := (bind_eq_ok_iff _ _ _).mp h
        exact (triggerNewWindow_log htrigger).trans (ih h)
      · cases h
        exact List.prefix_rfl

theorem closeByLength_log {replacement last : Addr}
    (h : closeByLength P source replacement s = .ok (last, s')) : s.log <+: s'.log := by
  rw [closeByLength] at h
  split at h
  · exact lengthLoop_log h
  · cases h
    exact List.prefix_rfl

theorem windowAccept_log (hnodes : s.events.nodes = pre ++ e :: post) (hnodup : s.events.addrs.Nodup)
    (h : windowAccept P source e.addr s = .ok s') : s.log <+: s'.log := by
  have hpassed : ∀ {events s₁ s₂}, passThrough P source e.addr { s with events := events } = .ok s₁ →
      bufferEvent P e.addr s₁ = .ok s₂ → s.log <+: s₂.log := by
    intro events s₁ s₂ hpass hbuffer
    obtain ⟨passed, hlog, -⟩ := passThrough_log hpass
    obtain ⟨index, buffer, set, draws, -, -, rfl⟩ := bufferEvent_cases hbuffer
    rw [hlog, List.append_assoc]
    exact List.prefix_append _ _
  rcases windowAccept_cases hnodes hnodup h with
    ⟨-, s₁, hpass, hbuffer⟩ |
    ⟨-, r, s₁, s₂, replacement, s₃, events, -, hpass, hbuffer, hclose, -, rfl⟩
  · exact hpassed hpass hbuffer
  · have hleads := (hpassed hpass hbuffer).trans (closeByLength_log hclose)
    exact hleads

/-! ## A call on an event of the node -/

/-- All that a call of a window node that returns can have been: the event is hidden, there is no
memory to close the window for it, the window is closed for the sake of time, or the event meets an
open window and is skipped or accepted. -/
inductive WindowCall (P : Platform) (w : World) (n : Nat) (window : WindowGraphNode)
    (pre : List EventNode) (e : EventNode) (post : List EventNode) : World → Prop where
  | hidden : eventSetHas P window.bufferedSet e.addr = .ok true → WindowCall P w n window pre e post w
  | noMemory {waiting : Bool} :
      eventSetHas P window.bufferedSet e.addr = .ok false →
      P.allocator.malloc w.events.mallocs w.events.addrs.toFinset = none →
      WindowCall P w n window pre e post (w.putWindow n
        { w.windowState window with events := ⟨pre ++ e :: post, w.events.mallocs + 1⟩ } waiting)
  | outlived {source : GraphNode} {result : Option Addr} {s s' : WindowState} {waiting : Bool} :
      eventSetHas P window.bufferedSet e.addr = .ok false →
      windowOutlived (w.windowState window) e.time = .ok true →
      P.allocator.malloc w.events.mallocs w.events.addrs.toFinset ≠ none →
      timeLoop P n source e.time P.depth e.addr (w.windowState window) = .ok (result, s) →
      s.log <+: s'.log →
      WindowCall P w n window pre e post (w.putWindow n s' waiting)
  | skipped {waiting : Bool} :
      eventSetHas P window.bufferedSet e.addr = .ok false →
      windowOutlived (w.windowState window) e.time = .ok false →
      0 < window.skipNext →
      WindowCall P w n window pre e post (w.putWindow n
        { w.windowState window with
          node := { window with skipNext := window.skipNext - 1 }
          log := [.skipped e.addr] } waiting)
  | accepted {source : GraphNode} {s' : WindowState} :
      eventSetHas P window.bufferedSet e.addr = .ok false →
      windowOutlived (w.windowState window) e.time = .ok false →
      window.skipNext = 0 →
      windowAccept P source e.addr (w.windowState window) = .ok s' →
      WindowCall P w n window pre e post (w.putWindow n s' true)

theorem windowHandleEvent_call {result : Bool} (hw : w.SplitAt pre e post)
    (hposition : e.position = some (.node n))
    (h : windowHandleEvent P w n window e.addr = .ok (result, w')) :
    WindowCall P w n window pre e post w' := by
  simp only [windowHandleEvent, World.lookup_eq hw] at h
  obtain ⟨source, -, h⟩ := (bind_eq_ok_iff _ _ _).mp h
  obtain ⟨_, ⟨⟩, h⟩ := (bind_eq_ok_iff _ _ _).mp h
  obtain ⟨hidden, hhas, h⟩ := (bind_eq_ok_iff _ _ _).mp h
  cases hidden with
  | true =>
      cases h
      exact .hidden hhas
  | false =>
      simp only [Bool.false_eq_true, if_false] at h
      obtain ⟨⟨event, s⟩, htime, h⟩ := (bind_eq_ok_iff _ _ _).mp h
      change timeLoop P n source e.time P.depth e.addr (w.windowState window) = _ at htime
      obtain ⟨outs, e', hnodes, -, -, hnodup, hevent⟩ :=
        timeLoop_split P.depth hw.nodes hw.nodup hposition htime
      -- only the first round of the time loop tells the cases apart
      cases hdepth : P.depth with
      | zero =>
          rw [hdepth] at htime
          cases htime
      | succ fuel =>
          have htime' := htime
          rw [hdepth, timeLoop] at htime'
          obtain ⟨outlived, houtlived, htime'⟩ := (bind_eq_ok_iff _ _ _).mp htime'
          cases outlived with
          | false =>
              cases htime'
              dsimp only at h
              split at h
              · rename_i hskip
                cases h
                exact .skipped hhas houtlived hskip
              · rename_i hskip
                obtain ⟨s', haccept, ⟨⟩⟩ := (bind_eq_ok_iff _ _ _).mp h
                exact .accepted hhas houtlived (Nat.eq_zero_of_not_pos hskip) haccept
          | true =>
              rcases replicateAndAdvance_split P.allocator hw.nodup_split with
                ⟨hm, hreplicate⟩ | ⟨hm, -⟩ <;> rw [← hw.events_eq] at hm
              · rw [← hw.events_eq] at hreplicate
                simp only [if_true, World.windowState, hreplicate, bind, Except.bind] at htime'
                cases htime'
                cases h
                exact .noMemory hhas hm
              · rcases hevent with rfl | ⟨rfl, -⟩
                · dsimp only at h
                  split at h
                  · cases h
                    exact .outlived hhas houtlived hm htime (List.prefix_append _ _)
                  · obtain ⟨s', haccept, ⟨⟩⟩ := (bind_eq_ok_iff _ _ _).mp h
                    rw [← List.append_assoc] at hnodes
                    exact .outlived hhas houtlived hm htime (windowAccept_log hnodes hnodup haccept)
                · cases h
                  exact .outlived hhas houtlived hm htime List.prefix_rfl

/-- Unless its window is outlived, the event stays, with copies for the outputs behind it. -/
theorem WindowCall.stays (hw : w.SplitAt pre e post) (h : WindowCall P w n window pre e post w')
    (htime : ¬ClosesByTime P w window e) :
    ∃ outs, w'.events.nodes = pre ++ e :: (outs ++ post) ∧ w'.events.addrs.Nodup := by
  cases h with
  | hidden _ => exact ⟨[], hw.nodes, hw.nodup⟩
  | noMemory _ _ => exact ⟨[], rfl, hw.nodup_split⟩
  | outlived hhas houtlived hm _ _ => exact absurd ⟨hhas, hm, houtlived⟩ htime
  | skipped _ _ _ => exact ⟨[], hw.nodes, hw.nodup⟩
  | accepted _ _ _ haccept =>
      obtain ⟨outs, hnodes, -, hnodup⟩ := windowAccept_split hw.nodes hw.nodup haccept
      exact ⟨outs, hnodes, hnodup⟩

/-- While the window has room, nothing is closed. -/
theorem closeByLength_open {replacement last : Addr}
    (hroom : s.node.hasMaxLength → queueLength s.node.buffer < s.node.maxLength)
    (h : closeByLength P source replacement s = .ok (last, s')) : s' = s := by
  rw [closeByLength] at h
  split at h
  · rename_i hmax
    cases hdepth : P.depth with
    | zero =>
        rw [hdepth] at h
        cases h
    | succ fuel =>
        rw [hdepth, lengthLoop, if_neg (not_le.mpr (hroom hmax))] at h
        cases h
        rfl
  · cases h
    rfl

/-- What an accepted event adds while the window stays open. -/
theorem windowAccept_open (hnodes : s.events.nodes = pre ++ e :: post)
    (hnodup : s.events.addrs.Nodup) (wf : s.node.buffer.WellFormed)
    (hroom : P.allocator.malloc s.events.mallocs s.events.addrs.toFinset ≠ none →
      s.node.hasMaxLength → queueLength s.node.buffer + 1 < s.node.maxLength)
    (h : windowAccept P source e.addr s = .ok s') :
    ∃ index buffer set draws passed,
      queuePut s.node.buffer (some e.addr) = .ok (index, buffer) ∧
      eventSetAdd P s.node.bufferedSet e.addr s.draws = .ok (set, draws) ∧
      passed.Sublist [.forwarded e.addr] ∧
      s'.node = { s.node with buffer := buffer, bufferedSet := set } ∧
      s'.log = s.log ++ (passed ++ [.buffered e.addr]) := by
  -- the two parts that both cases have in common
  have hadds : ∀ {events s₁ s₂}, passThrough P source e.addr { s with events := events } = .ok s₁ →
      bufferEvent P e.addr s₁ = .ok s₂ → ∃ index buffer set draws passed,
        queuePut s.node.buffer (some e.addr) = .ok (index, buffer) ∧
        eventSetAdd P s.node.bufferedSet e.addr s.draws = .ok (set, draws) ∧
        passed.Sublist [.forwarded e.addr] ∧
        s₂.node = { s.node with buffer := buffer, bufferedSet := set } ∧
        s₂.log = s.log ++ (passed ++ [.buffered e.addr]) := by
    intro events s₁ s₂ hpass hbuffer
    obtain ⟨passed, hlog, hpassed, hnode, hdraws⟩ := passThrough_log hpass
    obtain ⟨index, buffer, set, draws, hput, hadd, rfl⟩ := bufferEvent_cases hbuffer
    rw [hnode] at hput hadd
    rw [hdraws] at hadd
    exact ⟨index, buffer, set, draws, passed, hput, hadd, hpassed, by simp only [hnode],
      by simp only [hlog, List.append_assoc]⟩
  rcases windowAccept_cases hnodes hnodup h with
    ⟨-, s₁, hpass, hbuffer⟩ |
    ⟨hm, r, s₁, s₂, replacement, s₃, events, -, hpass, hbuffer, hclose, -, rfl⟩
  · exact hadds hpass hbuffer
  · obtain ⟨index, buffer, set, draws, passed, hput, hadd, hpassed, hnode, hlog⟩ :=
      hadds hpass hbuffer
    obtain ⟨_, _, hput', -, hlen, -⟩ := queuePut_spec wf (some e.addr)
    rw [hput] at hput'
    cases hput'
    -- with room left no window is closed by length
    have hopen : s₃ = s₂ := closeByLength_open (fun hmax => by
      rw [hnode] at hmax ⊢
      have hlt := hroom hm hmax
      dsimp only
      omega) hclose
    rw [hopen]
    exact ⟨index, buffer, set, draws, passed, hput, hadd, hpassed, hnode, hlog⟩

theorem World.actions_putWindow (w : World) (m n : Nat) (s : WindowState) (waiting : Bool) :
    (w.putWindow m s waiting).actions n = w.actions n ++ if m = n then s.log else [] := by
  unfold World.actions World.putWindow
  rw [List.filter_append, List.map_append]
  congr 1
  split <;> rename_i h <;> simp [List.filter_map, Function.comp_def, h]

theorem World.windowAt_putWindow (hat : w.WindowAt n window) (s : WindowState) (waiting : Bool) :
    (w.putWindow n s waiting).WindowAt n s.node := by
  obtain ⟨node, hnode, -⟩ := hat
  exact ⟨{ node with kind := .window s.node, waitingNewEvent := waiting },
    by simp [World.putWindow, hnode], rfl⟩

theorem WindowCall.change (hw : w.SplitAt pre e post) (hposition : e.position = some (.node n))
    (hat : w.WindowAt n window) (wf : window.buffer.WellFormed)
    (h : WindowCall P w n window pre e post w') (hkeep : ¬ClosesWindow P w window e) :
    ∃ window' actions, w'.WindowAt n window' ∧ w'.actions n = w.actions n ++ actions ∧
      WindowChange P w n window window' actions := by
  have hmem : e ∈ w.events.nodes := by simp [hw.nodes]
  have hput : ∀ (s : WindowState) (waiting : Bool),
      (w.putWindow n s waiting).actions n = w.actions n ++ s.log := by
    intro s waiting
    rw [World.actions_putWindow, if_pos rfl]
  cases h with
  | hidden _ => exact ⟨window, [], hat, by simp, .kept⟩
  | noMemory _ _ => exact ⟨window, [], World.windowAt_putWindow hat _ _, hput _ _, .kept⟩
  | outlived hhas houtlived hm _ _ => exact absurd (.inl ⟨hhas, hm, houtlived⟩) hkeep
  | skipped _ _ hskip =>
      exact ⟨_, _, World.windowAt_putWindow hat _ _, hput _ _, .skipped hmem hposition hskip⟩
  | accepted hhas houtlived hskip haccept =>
      obtain ⟨index, buffer, set, draws, passed, hqueue, hset, hpassed, hnode, hlog⟩ :=
        windowAccept_open hw.nodes hw.nodup wf (fun hm hmax => not_le.mp fun hfull =>
          hkeep (.inr ⟨hhas, hm, houtlived, hskip, hmax, hfull⟩)) haccept
      refine ⟨_, _, World.windowAt_putWindow hat _ _, hput _ _, ?_⟩
      rw [hnode, hlog]
      exact .accepted hmem hposition hhas hqueue hset hpassed

end

/-! ## A step of the system -/

section

variable {P : Platform} {w w' : World} {n : Nat} {window : WindowGraphNode} {c : SystemCall}
  {e : EventNode}

theorem World.WindowAt.modify {events : EventList} {predicates : EventPredicateList}
    {deliveries : List Delivery} {draws : Nat} {log : List (Nat × WindowAction)}
    (hat : w.WindowAt n window) {m : Nat} {f : GraphNode → GraphNode}
    (hf : m = n → ∀ node, (f node).kind = node.kind) :
    { w with
      events := events, nodes := w.nodes.modify m f, predicates := predicates,
      deliveries := deliveries, draws := draws, log := log : World }.WindowAt n window := by
  obtain ⟨node, hnode, hkind⟩ := hat
  by_cases hm : m = n
  · exact ⟨f node, by simp [hm, hnode], (hf hm node).trans hkind⟩
  · exact ⟨node, by simp [hm, hnode], hkind⟩

/-- A step other than a call of the node leaves the node and its events alone. -/
theorem SystemStep.elsewhere (h : SystemStep P w c w') (hnodup : w.events.addrs.Nodup)
    (hat : w.WindowAt n window) (hc : ∀ e, c ≠ .handle (.node n) e) :
    w'.events.addrs.Nodup ∧ w.eventsAt n ⊆ w'.eventsAt n ∧ w'.WindowAt n window ∧
      w'.actions n = w.actions n := by
  obtain ⟨node, hnode, hkind⟩ := hat
  cases h with
  | read hrun =>
      rename_i m input
      obtain ⟨source, kind, hsource, rfl, htype, -⟩ := handleIo_cases hrun
      have hadds := createAll_adds P.allocator source.outputs (readData source.kind input) hnodup
      have hm : m ≠ n := by
        rintro rfl
        rw [hnode] at hsource
        cases hsource
        -- a window node reads nothing
        simp only [handleIo, World.node_eq hnode, bind, Except.bind, hkind] at hrun
        cases hrun
      exact ⟨hadds.nodup, fun x hx => ⟨hadds.keeps.subset hx.1, hx.2⟩,
        World.WindowAt.modify ⟨node, hnode, hkind⟩ fun heq => absurd heq hm, rfl⟩
  | @handle _ p e result he hp hrun =>
      obtain ⟨pre, post, hw⟩ := World.splitAt_of_mem hnodup he
      have hstays : ∀ {es}, w'.events.nodes = pre ++ (es ++ post) →
          w.eventsAt n ⊆ w'.eventsAt n := by
        rintro es hnodes x ⟨hx, hposition⟩
        refine ⟨?_, hposition⟩
        rw [hw.nodes, List.mem_append, List.mem_cons] at hx
        rw [hnodes, List.mem_append, List.mem_append]
        rcases hx with hx | rfl | hx
        · exact .inl hx
        · -- the handled event stands somewhere else
          rw [hp] at hposition
          cases hposition
          exact absurd rfl (hc x)
        · exact .inr (.inr hx)
      cases handleEvent_outcome hw hrun with
      | @node m mallocs other eff outs hother htype heff hnodup' _ _ =>
          have hm : m ≠ n := fun heq => hc e (by rw [heq])
          exact ⟨hnodup', hstays rfl,
            World.WindowAt.modify ⟨node, hnode, hkind⟩ fun heq => absurd heq hm, rfl⟩
      | @window m other window' result' _ hother hkind' hrun' =>
          have hm : m ≠ n := fun heq => hc e (by rw [heq])
          obtain ⟨outs, e', outs', hnodes, -, -, -, hnodup'⟩ := windowHandleEvent_split hw hp hrun'
          have hnodes' : w'.events.nodes = pre ++ ((outs ++ e' :: outs') ++ post) := by
            rw [hnodes]
            simp
          refine ⟨hnodup', hstays hnodes', ?_⟩
          rcases windowHandleEvent_cases hrun' with rfl | ⟨s, waiting, rfl⟩
          · exact ⟨⟨node, hnode, hkind⟩, rfl⟩
          · refine ⟨World.WindowAt.modify ⟨node, hnode, hkind⟩ fun heq => absurd heq hm, ?_⟩
            rw [World.actions_putWindow, if_neg hm, List.append_nil]
      | dropped _ _ =>
          exact ⟨(World.destroyEvent_eq hw).2, hstays rfl, ⟨node, hnode, hkind⟩, rfl⟩
      | @delivered m target ch e' other hch hdelivered hother =>
          have hnodup' : (EventList.mk (pre ++ ([e'] ++ post)) w.events.mallocs).addrs.Nodup := by
            have hsplit := hw.nodup_split
            simpa [EventList.addrs, (delivered_eq_some hdelivered).2.1] using hsplit
          exact ⟨hnodup', hstays rfl, World.WindowAt.modify ⟨node, hnode, hkind⟩ fun _ _ => rfl, rfl⟩

/-- A call of the node leaves the other events of the node alone, and the event too unless the window
is outlived. -/
theorem SystemStep.window_call (h : SystemStep P w (.handle (.node n) e) w')
    (hnodup : w.events.addrs.Nodup) (hat : w.WindowAt n window) :
    w'.events.addrs.Nodup ∧ w.eventsAt n \ {e} ⊆ w'.eventsAt n ∧
      (¬ClosesByTime P w window e → w.eventsAt n ⊆ w'.eventsAt n) ∧ e ∈ w.eventsAt n ∧
      ∃ pre post, w.SplitAt pre e post ∧ WindowCall P w n window pre e post w' := by
  obtain ⟨node, hnode, hkind⟩ := hat
  cases h with
  | @handle _ _ _ result he hp hrun =>
      obtain ⟨pre, post, hw⟩ := World.splitAt_of_mem hnodup he
      have hrun' : windowHandleEvent P w n window e.addr = .ok (result, w') := by
        simpa only [World.handleEvent, nodeHandleEvent, World.node_eq hnode, bind, Except.bind,
          hkind] using hrun
      have hcall := windowHandleEvent_call hw hp hrun'
      obtain ⟨outs, e', outs', hnodes, -, -, -, hnodup'⟩ := windowHandleEvent_split hw hp hrun'
      -- other events of the node stay in the list, around the one that is handled
      have hothers : w.eventsAt n \ {e} ⊆ w'.eventsAt n := by
        rintro x ⟨⟨hx, hposition⟩, hne⟩
        refine ⟨?_, hposition⟩
        rw [hw.nodes, List.mem_append, List.mem_cons] at hx
        rcases hx with hx | rfl | hx
        · simp [hnodes, hx]
        · exact absurd rfl hne
        · simp [hnodes, hx]
      refine ⟨hnodup', hothers, fun htime x hx => ?_, ⟨he, hp⟩, pre, post, hw, hcall⟩
      by_cases heq : x = e
      · obtain ⟨outs, hstays, -⟩ := hcall.stays hw htime
        rw [heq]
        exact ⟨by simp [hstays], hp⟩
      · exact hothers ⟨hx, heq⟩

end

/-! ## Closing a window -/

section

variable {P : Platform} {w w' : World} {n : Nat} {window : WindowGraphNode} {e b : EventNode}
  {pre post : List EventNode} {s s' : WindowState} {source : GraphNode} {value : Option Addr}

end

end EventSeq
