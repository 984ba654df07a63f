import EventSeq.WindowArrivals
import EventSeq.WindowInvariant

/-!
# Calls of the window handler that return false

A result of false tells the scheduler that nothing was deleted.  The handler returns it for an event
it hides, and when the time loop is out of memory.  In the second case it keeps this promise in the
first round of the loop only.
-/

namespace EventSeq

open Lib

/-- What the scheduler relies on after a result of false: the event is still in the list, no event
was destroyed, and the node has what it had. -/
structure KeptOnFalse (n : Nat) (window : WindowGraphNode) (e : EventNode) (w w' : World) : Prop where
  stays : e ∈ w'.events.nodes
  undestroyed : ∀ x ∈ w.events.nodes, x ∈ w'.events.nodes
  node : ∃ window', w'.WindowAt n window' ∧ window'.buffer = window.buffer ∧
    window'.bufferedSet = window.bufferedSet

section

variable {P : Platform} {w w' : World} {n : Nat} {window : WindowGraphNode} {s s' : WindowState}
  {source : GraphNode} {e : EventNode} {pre post : List EventNode}

/-! ## What is left in the buffer -/

theorem popLoop_length {step rest : Nat} (wf : s.node.buffer.WellFormed)
    (h : popLoop P step s = .ok (rest, s')) :
    s'.node.buffer.WellFormed ∧
      queueLength s'.node.buffer = queueLength s.node.buffer - step := by
  induction step generalizing s with
  | zero =>
      cases h
      exact ⟨wf, rfl⟩
  | succ step ih =>
      obtain ⟨l, hl⟩ := wf.holds
      obtain ⟨buffer, hpop, hbuffer, -⟩ := queueTryPop_holds hl
      rw [popLoop, hpop] at h
      cases l with
      | nil =>
          cases h
          rw [hl.length]
          exact ⟨wf, (Nat.zero_sub _).symm⟩
      | cons event l =>
          obtain ⟨_, ⟨⟩, h⟩ := (bind_eq_ok_iff _ _ _).mp h
          obtain ⟨set, -, h⟩ := (bind_eq_ok_iff _ _ _).mp h
          obtain ⟨wf', hlength⟩ := @ih { s with
            node := { s.node with buffer := buffer, bufferedSet := set }
            log := s.log ++ [.popped event] } hbuffer.wf h
          refine ⟨wf', ?_⟩
          rw [hlength, hbuffer.length, hl.length, List.tail_cons, List.length_cons,
            Nat.add_sub_add_right]

theorem triggerNewWindow_length {base : Addr}
    (h : triggerNewWindow P source (some base) s = .ok s') (wf : s.node.buffer.WellFormed) :
    s'.node.buffer.WellFormed ∧
      queueLength s'.node.buffer = queueLength s.node.buffer - windowStep s.node := by
  obtain ⟨events, rest, popped, hpop, -, hbuffer, -⟩ := triggerNewWindow_popLoop h
  rw [hbuffer]
  exact @popLoop_length P { s with events := events } popped _ _ wf hpop

theorem timeLoop_length {self : Nat} {newTime : AbsoluteTime} {event : Addr} {result : Option Addr}
    (fuel : Nat) (wf : s.node.buffer.WellFormed)
    (h : timeLoop P self source newTime fuel event s = .ok (result, s')) :
    queueLength s'.node.buffer ≤ queueLength s.node.buffer := by
  induction fuel generalizing event s with
  | zero => cases h
  | succ fuel ih =>
      rw [timeLoop] at h
      obtain ⟨outlived, -, h⟩ := (bind_eq_ok_iff _ _ _).mp h
      cases outlived with
      | false =>
          cases h
          exact le_rfl
      | true =>
          obtain ⟨⟨replacement, event', events⟩, -, h⟩ := (bind_eq_ok_iff _ _ _).mp h
          cases replacement with
          | none =>
              cases h
              exact le_rfl
          | some replacement =>
              obtain ⟨_, -, h⟩ := (bind_eq_ok_iff _ _ _).mp h
              obtain ⟨_, -, h⟩ := (bind_eq_ok_iff _ _ _).mp h
              obtain ⟨s₁, htrigger, h⟩ := (bind_eq_ok_iff _ _ _).mp h
              obtain ⟨wf₁, hlength⟩ := triggerNewWindow_length htrigger wf
              have hle := ih wf₁ h
              rw [hlength] at hle
              exact hle.trans (Nat.sub_le _ _)

theorem windowOutlived_length {newTime : AbsoluteTime} (h : windowOutlived s newTime = .ok true) :
    0 < queueLength s.node.buffer := by
  unfold windowOutlived at h
  split at h
  · rename_i hcond
    rw [Bool.and_eq_true, decide_eq_true_iff] at hcond
    exact hcond.2
  · cases h

/-- The time loop gives up in its first round, or it has popped something before. -/
theorem timeLoop_none {self fuel : Nat} {newTime : AbsoluteTime} (hnodes : s.events.nodes = pre ++ e :: post)
    (hnodup : s.events.addrs.Nodup) (wf : s.node.buffer.WellFormed)
    (h : timeLoop P self source newTime fuel e.addr s = .ok (none, s')) :
    (P.allocator.malloc s.events.mallocs s.events.addrs.toFinset = none ∧
      s' = { s with events := ⟨pre ++ e :: post, s.events.mallocs + 1⟩ }) ∨
    (P.allocator.malloc s.events.mallocs s.events.addrs.toFinset ≠ none ∧
      queueLength s'.node.buffer < queueLength s.node.buffer) := by
  cases fuel with
  | zero => cases h
  | succ fuel =>
      rw [timeLoop] at h
      obtain ⟨outlived, houtlived, h⟩ := (bind_eq_ok_iff _ _ _).mp h
      cases outlived with
      | false => cases h
      | true =>
          have hevents : s.events = ⟨pre ++ e :: post, s.events.mallocs⟩ := by rw [← hnodes]
          rcases replicateAndAdvance_split P.allocator (hevents ▸ hnodup) with
            ⟨hm, hreplicate⟩ | ⟨hm, r, hreplicate, -⟩ <;> rw [← hevents] at hreplicate hm
          · rw [hreplicate] at h
            cases h
            exact .inl ⟨hm, rfl⟩
          · rw [hreplicate] at h
            obtain ⟨_, ⟨⟩, h⟩ := (bind_eq_ok_iff _ _ _).mp h
            obtain ⟨_, -, h⟩ := (bind_eq_ok_iff _ _ _).mp h
            obtain ⟨_, -, h⟩ := (bind_eq_ok_iff _ _ _).mp h
            obtain ⟨s₁, htrigger, h⟩ := (bind_eq_ok_iff _ _ _).mp h
            -- with a replica the first round has closed a window, which pops at least one event
            obtain ⟨wf₁, hlength⟩ := triggerNewWindow_length htrigger wf
            have hle := timeLoop_length fuel wf₁ h
            have hpos := windowOutlived_length houtlived
            have hstep := windowStep_pos s.node
            rw [hlength] at hle
            dsimp only at hle
            exact .inr ⟨hm, by omega⟩

end

/-! ## The calls that return false -/

/-- Whatever the node has in its buffer and in its set, and whatever allocations fail: a call that
returns false keeps everything exactly if it hides its event or has no memory for its first
replica. -/
theorem window_false_kept_iff {P : Platform} {w w' : World} {n : Nat} {window : WindowGraphNode}
    {e : EventNode} (hnodup : w.events.addrs.Nodup) (hat : w.WindowAt n window)
    (wf : window.buffer.WellFormed) (he : e ∈ w.events.nodes)
    (hrun : windowHandleEvent P w n window e.addr = .ok (false, w')) :
    KeptOnFalse n window e w w' ↔
      eventSetHas P window.bufferedSet e.addr = .ok true ∨
        P.allocator.malloc w.events.mallocs w.events.addrs.toFinset = none := by
  obtain ⟨pre, post, hw⟩ := World.splitAt_of_mem hnodup he
  rcases windowHandleEvent_false_cases hw hrun with
    ⟨hhidden, rfl⟩ | ⟨hnot, source, s, waiting, htime, rfl⟩
  · exact ⟨fun _ => .inl hhidden, fun _ => ⟨he, fun _ hx => hx, window, hat, rfl, rfl⟩⟩
  · have hat' := World.windowAt_putWindow hat s waiting
    rcases timeLoop_none (s := w.windowState window) hw.nodes hw.nodup wf htime with
      ⟨hnone, rfl⟩ | ⟨hsome, hshorter⟩
    · -- the first replica failed, and nothing had been changed
      refine ⟨fun _ => .inr hnone, fun _ => ⟨?_, fun x hx => ?_, _, hat', rfl, rfl⟩⟩
      · show e ∈ pre ++ e :: post
        simp
      · show x ∈ pre ++ e :: post
        rw [← hw.nodes]
        exact hx
    · constructor
      · -- the buffer has lost an event
        intro hkept
        obtain ⟨window', hat'', hbuffer, -⟩ := hkept.node
        rw [World.WindowAt.unique hat' hat''] at hbuffer
        rw [hbuffer] at hshorter
        exact absurd hshorter (Nat.lt_irrefl _)
      · rintro (hhidden | hnone)
        · rw [hnot] at hhidden
          cases hhidden
        · exact absurd hnone hsome

/-- An allocator whose call number `k` fails. -/
def Allocator.failingAt (k : Nat) : Allocator where
  malloc calls live := if calls = k then none else Allocator.next.malloc calls live
  fresh := by
    intro calls live a h
    split at h
    · cases h
    · exact Allocator.next.fresh h

def failingPlatform (k : Nat) : Platform := { simplePlatform with allocator := .failingAt k }

/-- Two keys of one time are buffered, and a later third one is delivered. -/
def threeKeys : List ProgramCall :=
  [.read 0 (keyAt 1), .read 0 (keyAt 1), .read 0 (keyAt 2)] ++
    List.replicate 9 (.process ⟨⟨5, 0⟩⟩)

def World.bufferLength (w : World) (n : Nat) : Nat :=
  match w.nodes[n]?.map GraphNode.kind with
  | some (.window window) => queueLength window.buffer
  | _ => 0

/-- The call for the third key, where allocation number `k` fails: the number of allocations before
it, the lengths of the buffer before and after it, and its result. -/
def thirdKeyCall (k : Nat) : Except Fault (Option Position × Nat × Nat × Bool × Nat) := do
  let w ← (runProgram (failingPlatform k) 30 threeKeys idleProcessing
    (windowGraph ⟨0, 0, none, some 0, none⟩)).2
  let e ← w.lookup 3
  let (result, w') ← w.handleEvent (failingPlatform k) (.node 1) e
  .ok (e.position, w.events.mallocs, w.bufferLength 1, result, w'.bufferLength 1)

theorem World.bufferLength_eq {w : World} {n : Nat} {window : WindowGraphNode}
    (h : w.WindowAt n window) : w.bufferLength n = queueLength window.buffer := by
  obtain ⟨node, hnode, hkind⟩ := h
  rw [World.bufferLength, hnode, Option.map_some, hkind]

theorem thirdKeyCall_reached {k mallocs before after : Nat} {result : Bool}
    (h : thirdKeyCall k = .ok (some (.node 1), mallocs, before, result, after)) :
    ∃ τ w window as e w', Run (SystemMove (failingPlatform k))
        (windowGraph ⟨0, 0, none, some 0, none⟩) τ w ∧
      WindowInvariant (failingPlatform k) 1 window as w ∧ e ∈ w.eventsAt 1 ∧
      windowHandleEvent ((failingPlatform k).withDepth 8) w 1 window e.addr = .ok (result, w') ∧
      w.events.mallocs = mallocs ∧ queueLength window.buffer = before ∧
      w'.bufferLength 1 = after := by
  obtain ⟨w, hprogram, hcall⟩ := (bind_eq_ok_iff _ _ _).mp h
  obtain ⟨e, hlookup, hcall⟩ := (bind_eq_ok_iff _ _ _).mp hcall
  obtain ⟨⟨result', w'⟩, hhandle, hcall⟩ := (bind_eq_ok_iff _ _ _).mp hcall
  simp only [Except.ok.injEq, Prod.mk.injEq] at hcall
  obtain ⟨hposition, hmallocs, hbefore, rfl, hafter⟩ := hcall
  -- the program of the test is a run of the system
  have hrun : Run (SystemMove (failingPlatform k)) (windowGraph ⟨0, 0, none, some 0, none⟩) _ w :=
    (systemRun_of_runProgram (Prod.ext rfl hprogram)).mono fun _ _ _ hstep => ⟨8, hstep⟩
  have hcreated : (windowGraph ⟨0, 0, none, some 0, none⟩).WindowAt 1
      (windowCreate (failingPlatform k) ⟨0, 0, none, some 0, none⟩ 0).1 := ⟨_, rfl, rfl⟩
  obtain ⟨window, as, hinv, -⟩ := (WindowInvariant.created (windowGraph_fresh _).nodup hcreated).run hrun
  have he : e ∈ w.events.nodes := by
    unfold World.lookup at hlookup
    split at hlookup
    · cases hlookup
    · rename_i hfind
      cases hlookup
      exact List.mem_of_find?_eq_some hfind
  rw [World.handleEvent_window hinv.at_node] at hhandle
  exact ⟨_, w, window, as, e, w', hrun, hinv, ⟨he, hposition⟩, hhandle, hmallocs,
    (World.bufferLength_eq hinv.at_node).symm.trans hbefore, hafter⟩

/-- Without memory for the first replica the call for the third key returns false, and nothing
happens. -/
theorem window_false_kept_without_memory :
    ∃ τ w window e w', Run (SystemMove (failingPlatform 7))
        (windowGraph ⟨0, 0, none, some 0, none⟩) τ w ∧
      w.WindowAt 1 window ∧ queueLength window.buffer = 2 ∧ e ∈ w.eventsAt 1 ∧
      windowHandleEvent ((failingPlatform 7).withDepth 8) w 1 window e.addr = .ok (false, w') ∧
      KeptOnFalse 1 window e w w' := by
  have hcall : thirdKeyCall 7 = .ok (some (.node 1), 7, 2, false, 2) := by decide +kernel
  obtain ⟨τ, w, window, as, e, w', hrun, hinv, he, hhandle, hmallocs, hbefore, -⟩ :=
    thirdKeyCall_reached hcall
  have hnone : (failingPlatform 7).allocator.malloc w.events.mallocs w.events.addrs.toFinset =
      none := by
    rw [hmallocs]
    rfl
  have hkept := window_false_kept_iff hinv.nodup hinv.at_node hinv.holds.buffer.wf he.1 hhandle
  exact ⟨τ, w, window, e, w', hrun, hinv.at_node, hbefore, he, hhandle, hkept.mpr (.inr hnone)⟩

/-- The third key outlives both of the others, and there is memory for the first round of the time
loop only: the call returns false although that round has closed a window. -/
theorem window_false_not_kept :
    ∃ τ w window e w', Run (SystemMove (failingPlatform 9))
        (windowGraph ⟨0, 0, none, some 0, none⟩) τ w ∧
      w.WindowAt 1 window ∧ e ∈ w.eventsAt 1 ∧
      windowHandleEvent ((failingPlatform 9).withDepth 8) w 1 window e.addr = .ok (false, w') ∧
      ¬KeptOnFalse 1 window e w w' := by
  have hcall : thirdKeyCall 9 = .ok (some (.node 1), 7, 2, false, 1) := by decide +kernel
  obtain ⟨τ, w, window, as, e, w', hrun, hinv, he, hhandle, -, hbefore, hafter⟩ :=
    thirdKeyCall_reached hcall
  refine ⟨τ, w, window, e, w', hrun, hinv.at_node, he, hhandle, fun hkept => ?_⟩
  obtain ⟨window', hat', hbuffer, -⟩ := hkept.node
  rw [World.bufferLength_eq hat', hbuffer, hbefore] at hafter
  exact absurd hafter (by decide)

end EventSeq
