import EventSeq.WindowArrivals
import EventSeq.WindowInvariant

/-!
# What a new window puts in the list

In every state that the functions of a window node work in, `trigger_new_window` pops the oldest
events and replaces its base by a terminator and by copies of the events that stay, as long as the
base is not one of those.
-/

namespace EventSeq

open Lib

/-- The buffer holds these events, each once, and so does the set. -/
structure Buffers (P : Platform) (s : WindowState) (buffered : List EventNode) : Prop where
  contents : queueContents s.node.buffer = .ok (buffered.map fun x => some x.addr)
  distinct : (buffered.map EventNode.addr).Nodup
  listed : ∀ x ∈ buffered, x ∈ s.events.nodes
  set : ∀ a, ∃ has, eventSetHas P s.node.bufferedSet a = .ok has ∧
    (has = true ↔ a ∈ buffered.map EventNode.addr)

/-- The effect of a new window at `base`.  Fewer events than the step are popped when the buffer holds
fewer, and the rest of the step is left for events to come. -/
structure NewWindow (P : Platform) (source : GraphNode) (buffered : List EventNode) (base : EventNode)
    (s s' : WindowState) : Prop where
  step : windowStep s.node =
    max 1 ((if s.node.isJumping then buffered.length else 1) + s.node.additionalStep)
  popped : s'.log = s.log ++
    (buffered.take (windowStep s.node)).map fun x => .popped (some x.addr)
  left : Buffers P s' (buffered.drop (windowStep s.node))
  skips : s'.node.skipNext =
    s.node.skipNext + (windowStep s.node - min buffered.length (windowStep s.node))
  options : s.node.SameOptions s'.node
  replaced : ∃ pre outs post, s.events.nodes = pre ++ base :: post ∧
    s'.events.nodes = pre ++ (outs ++ post) ∧
    outs.map EventNode.placed = windowCopies source s.node base.data
      (buffered.drop (windowStep s.node))

/-- The states the functions of the window node `n` work in: those it has between two calls, and what
its own steps within a call make of them.  A step on the list alone leaves the buffered events where
they are, and a new window begins at an event that is not buffered. -/
inductive WindowReached (P : Platform) (n : Nat) : WindowState → Prop where
  | between {w₀ w : World} {τ : List SystemTransition} {options : WindowOptions} {draws : Nat}
      {window : WindowGraphNode} :
      w₀.events.addrs.Nodup → w₀.WindowAt n (windowCreate P options draws).1 →
      Run (SystemMove P) w₀ τ w → w.WindowAt n window → WindowReached P n (w.windowState window)
  | listed {s : WindowState} {events : EventList} :
      WindowReached P n s → events.addrs.Nodup →
      (∀ x ∈ s.events.nodes, eventSetHas P s.node.bufferedSet x.addr = .ok true → x ∈ events.nodes) →
      WindowReached P n { s with events := events }
  | buffered {s s' : WindowState} {e : EventNode} :
      WindowReached P n s → e ∈ s.events.nodes → eventSetHas P s.node.bufferedSet e.addr = .ok false →
      bufferEvent P e.addr s = .ok s' → WindowReached P n s'
  | triggered {s s' : WindowState} {source : GraphNode} {base : EventNode} :
      WindowReached P n s → base ∈ s.events.nodes →
      eventSetHas P s.node.bufferedSet base.addr = .ok false →
      triggerNewWindow P source (some base.addr) s = .ok s' → WindowReached P n s'

section

variable {P : Platform} {n : Nat} {s s' : WindowState} {buffered : List EventNode}
  {base : EventNode} {source : GraphNode}

/-- What `Buffers` shows of a state is what the proofs about the node need of it. -/
theorem buffers_of_holds (h : WindowHolds P s.node (buffered.map EventNode.addr))
    (hlisted : ∀ x ∈ buffered, x ∈ s.events.nodes) : Buffers P s buffered where
  contents := by
    have hcontents := queueContents_holds h.buffer
    rw [List.map_map] at hcontents
    exact hcontents
  distinct := h.nodup
  listed := hlisted
  set := h.set.has

theorem Buffers.addrs {as : List Addr} (h : Buffers P s buffered)
    (hcontents : queueContents s.node.buffer = .ok (as.map some)) :
    buffered.map EventNode.addr = as := by
  have hsome := h.contents
  rw [hcontents, Except.ok.injEq] at hsome
  refine List.map_injective_iff.mpr (Option.some_injective Addr) ?_
  rw [List.map_map]
  exact hsome.symm

theorem WindowHolds.step (h : WindowHolds P s.node (buffered.map EventNode.addr)) :
    windowStep s.node =
      max 1 ((if s.node.isJumping then buffered.length else 1) + s.node.additionalStep) := by
  unfold windowStep
  rw [h.length, List.length_map]
  dsimp only
  split_ifs <;> omega

/-- A new window at a base that is not one of the events that stay. -/
theorem newWindow_of_holds (hA : P.allocator.Succeeds)
    (h : WindowHolds P s.node (buffered.map EventNode.addr))
    (hlisted : ∀ x ∈ buffered, x ∈ s.events.nodes) (hnodup : s.events.addrs.Nodup)
    (hbase : base ∈ s.events.nodes) (hgoes : base ∉ buffered.drop (windowStep s.node)) :
    ∃ s', triggerNewWindow P source (some base.addr) s = .ok s' ∧
      WindowHolds P s'.node ((buffered.drop (windowStep s.node)).map EventNode.addr) ∧
      s'.events.addrs.Nodup ∧ NewWindow P source buffered base s s' := by
  obtain ⟨pre, post, hsplit⟩ := List.append_of_mem hbase
  have hmem : ∀ x ∈ buffered.drop (windowStep s.node), x ∈ pre ++ post := by
    intro x hx
    apply mem_around_of_ne (hsplit ▸ hlisted x (List.mem_of_mem_drop hx))
    rintro rfl
    exact hgoes hx
  obtain ⟨buffer, set, outs, mallocs, hrun, hholds, -, hnodup', hcopies⟩ :=
    @triggerNewWindow_spec P _ s source base pre post h hsplit hnodup
      (buffered.drop (windowStep s.node)) List.map_drop hmem
  rw [← List.map_drop] at hholds
  refine ⟨_, hrun, hholds, hnodup', h.step, ?_, ?_, ?_, ⟨_, _, _, rfl⟩, pre, outs, post, hsplit, rfl,
    hcopies hA⟩
  · rw [← List.map_take, List.map_map]
    rfl
  · exact buffers_of_holds hholds fun x hx => mem_around outs (hmem x hx)
  · show s.node.skipNext + (windowStep s.node - (buffered.map EventNode.addr).length) = _
    rw [List.length_map]
    omega

/-- In every state that is reached the buffer and the set belong together. -/
theorem WindowReached.holds (hA : P.allocator.Succeeds) (h : WindowReached P n s) :
    ∃ buffered : List EventNode, WindowHolds P s.node (buffered.map EventNode.addr) ∧
      (∀ x ∈ buffered, x ∈ s.events.nodes) ∧ s.events.addrs.Nodup := by
  induction h with
  | between hnodup hcreated hrun hat =>
      obtain ⟨window', as, hinv, -⟩ := (WindowInvariant.created hnodup hcreated).run hrun
      obtain rfl := World.WindowAt.unique hat hinv.at_node
      have hlive : InList _ as := fun a ha =>
        have ⟨x, ⟨hx, _⟩, heq⟩ := hinv.live a ha
        ⟨x, hx, heq⟩
      obtain ⟨buffered, rfl, hmem⟩ := hlive.events
      exact ⟨buffered, hinv.holds, hmem, hinv.nodup⟩
  | listed _ hnodup hstays ih =>
      obtain ⟨buffered, hholds, hmem, -⟩ := ih
      refine ⟨buffered, hholds, fun x hx => hstays x (hmem x hx) ?_, hnodup⟩
      -- what is buffered is in the set, and so has not been destroyed
      obtain ⟨has, hhas, hiff⟩ := hholds.set.has x.addr
      rw [hhas, hiff.mpr (List.mem_map_of_mem hx)]
  | @buffered s s' e _ he hnew hrun ih =>
      obtain ⟨buffered, hholds, hmem, hnodup⟩ := ih
      obtain ⟨has, hhas, hiff⟩ := hholds.set.has e.addr
      have hnot : e.addr ∉ buffered.map EventNode.addr := fun hin => by
        rw [hhas, hiff.mpr hin] at hnew
        cases hnew
      obtain ⟨hholds', -, hevents⟩ := (bufferEvent_holds hholds hnot).1 s' hrun
      refine ⟨buffered ++ [e], by simpa using hholds', fun x hx => ?_, hevents ▸ hnodup⟩
      rw [hevents]
      rcases List.mem_append.mp hx with hx | hx
      · exact hmem x hx
      · rw [List.mem_singleton.mp hx]
        exact he
  | @triggered s s' source base _ hbase hnew hrun ih =>
      obtain ⟨buffered, hholds, hmem, hnodup⟩ := ih
      obtain ⟨has, hhas, hiff⟩ := hholds.set.has base.addr
      -- an event that is not in the set is not kept for the next window
      have hgoes : base ∉ buffered.drop (windowStep s.node) := fun hin => by
        rw [hhas, hiff.mpr (List.mem_map_of_mem (List.mem_of_mem_drop hin))] at hnew
        cases hnew
      obtain ⟨s₁, hrun₁, hholds₁, hnodup₁, hnew₁⟩ :=
        @newWindow_of_holds P s buffered base source hA hholds hmem hnodup hbase hgoes
      rw [hrun, Except.ok.injEq] at hrun₁
      subst hrun₁
      exact ⟨_, hholds₁, hnew₁.left.listed, hnodup₁⟩

end

/-- In every state that is reached, and for every base in the list that is not among the events that
stay in the buffer. -/
theorem new_window_replaces_base {P : Platform} {n : Nat} {s : WindowState} {source : GraphNode}
    (hA : P.allocator.Succeeds) (hreached : WindowReached P n s) :
    ∃ buffered, Buffers P s buffered ∧ ∀ base ∈ s.events.nodes,
      base ∉ buffered.drop (windowStep s.node) →
      ∃ s', triggerNewWindow P source (some base.addr) s = .ok s' ∧
        NewWindow P source buffered base s s' := by
  obtain ⟨buffered, hholds, hmem, hnodup⟩ := hreached.holds hA
  refine ⟨buffered, buffers_of_holds hholds hmem, fun base hbase hgoes => ?_⟩
  obtain ⟨s', hrun, -, -, hnew⟩ :=
    @newWindow_of_holds P s buffered base source hA hholds hmem hnodup hbase hgoes
  exact ⟨s', hrun, hnew⟩

/-- A window of step 1 with a terminator. -/
def terminatedWindow : WindowOptions := ⟨0, 0, some 3, none, some ⟨7, 1, 2, 5⟩⟩

/-- Two keys are buffered. -/
def twoBufferedKeys : List ProgramCall :=
  [.read 0 (keyAt 1), .read 0 (keyAt 1)] ++ List.replicate 8 (.process ⟨⟨5, 0⟩⟩)

/-- A new window at the buffered event with this address. -/
def newWindowAt (a : Addr) : Except Fault (Option GraphNode × WindowState × WindowState) := do
  let w ← (runProgram simplePlatform 30 twoBufferedKeys idleProcessing
    (windowGraph terminatedWindow)).2
  let source ← w.node 1
  match source.kind with
  | .window window => do
      let s' ← triggerNewWindow simplePlatform source (some a) (w.windowState window)
      .ok (source, w.windowState window, s')
  | _ => .error .dangling

theorem newWindowAt_reached {a : Addr} {source : Option GraphNode} {s s' : WindowState}
    (h : newWindowAt a = .ok (source, s, s')) :
    ∃ node, source = some node ∧ WindowReached simplePlatform 1 s ∧
      triggerNewWindow simplePlatform node (some a) s = .ok s' := by
  obtain ⟨w, hprogram, h⟩ := (bind_eq_ok_iff _ _ _).mp h
  obtain ⟨node, hnode, h⟩ := (bind_eq_ok_iff _ _ _).mp h
  split at h
  · rename_i window hkind
    obtain ⟨s₁, htrigger, ⟨⟩⟩ := (bind_eq_ok_iff _ _ _).mp h
    have hat : w.WindowAt 1 window := by
      unfold World.node at hnode
      split at hnode
      · cases hnode
      · rename_i hfound
        cases hnode
        exact ⟨_, hfound, hkind⟩
    have hrun : Run (SystemMove simplePlatform) (windowGraph terminatedWindow) _ w :=
      (systemRun_of_runProgram (Prod.ext rfl hprogram)).mono fun _ _ _ hstep => ⟨8, hstep⟩
    have hcreated : (windowGraph terminatedWindow).WindowAt 1
        (windowCreate simplePlatform terminatedWindow 0).1 := ⟨_, rfl, rfl⟩
    exact ⟨node, rfl, .between (windowGraph_fresh _).nodup hcreated hrun hat, htrigger⟩
  · cases h

/-- The base is the older of two buffered keys, which is popped. -/
theorem new_window_replaces_older_key :
    ∃ node s s' buffered base, NewWindow simplePlatform node buffered base s s' ∧
      buffered.map EventNode.addr = [1, 2] ∧ base.addr = 1 := by
  have hcall : (newWindowAt 1).map (fun r => (queueContents r.2.1.node.buffer, windowStep r.2.1.node,
      r.2.1.events.addrs)) = .ok (.ok [some 1, some 2], 1, [1, 2]) := by decide +kernel
  obtain ⟨⟨source, s, s'⟩, hcall, heq⟩ := map_eq_ok_iff.mp hcall
  obtain ⟨node, -, hreached, -⟩ := newWindowAt_reached hcall
  simp only [Prod.mk.injEq] at heq
  obtain ⟨hcontents, hstep, haddrs⟩ := heq
  obtain ⟨buffered, hbuffers, hnew⟩ :=
    @new_window_replaces_base simplePlatform 1 s node Allocator.next_succeeds hreached
  have hbuffered : buffered.map EventNode.addr = [1, 2] := hbuffers.addrs hcontents
  obtain ⟨base, hbase, haddr⟩ : ∃ base ∈ s.events.nodes, base.addr = 1 := by
    have hmem : 1 ∈ s.events.addrs := by
      rw [haddrs]
      decide
    exact List.mem_map.mp hmem
  obtain ⟨s₁, -, heffect⟩ := hnew base hbase fun hin => by
    have hin' := List.mem_map_of_mem (f := EventNode.addr) hin
    rw [hstep, List.map_drop, hbuffered, haddr] at hin'
    exact absurd hin' (by decide)
  exact ⟨node, s, s₁, buffered, base, heffect, hbuffered, haddr⟩

/-- At a base that stays in the buffer the terminator takes the place of its data, so that its copy is
lost. -/
theorem new_window_overwrites_base :
    ∃ node s s' buffered base, WindowReached simplePlatform 1 s ∧ Buffers simplePlatform s buffered ∧
      base ∈ s.events.nodes ∧ triggerNewWindow simplePlatform node (some base.addr) s = .ok s' ∧
      ¬NewWindow simplePlatform node buffered base s s' := by
  have hcall : (newWindowAt 2).map (fun r => ((queueContents r.2.1.node.buffer, windowStep r.2.1.node,
      r.2.1.events.addrs), r.1.map GraphNode.outputs)) =
      .ok ((.ok [some 1, some 2], 1, [1, 2]), some [some 1]) := by decide +kernel
  -- no event of the list has the data of the base and a place at the output
  have hlost : (newWindowAt 2).map (fun r => r.2.1.events.nodes.all fun base =>
      base.addr != 2 || r.2.2.events.nodes.all fun x => x.placed != (some (.channel 1), base.data)) =
      .ok true := by decide +kernel
  obtain ⟨⟨source, s, s'⟩, hcall', heq⟩ := map_eq_ok_iff.mp hcall
  obtain ⟨node, rfl, hreached, htrigger⟩ := newWindowAt_reached hcall'
  simp only [Prod.mk.injEq, Option.map_some, Option.some.injEq] at heq
  obtain ⟨⟨hcontents, hstep, haddrs⟩, houtputs⟩ := heq
  rw [hcall', Except.map, Except.ok.injEq, List.all_eq_true] at hlost
  obtain ⟨buffered, hholds, hmem, hnodup⟩ := hreached.holds Allocator.next_succeeds
  have hbuffers := buffers_of_holds hholds hmem
  have hbuffered : buffered.map EventNode.addr = [1, 2] := hbuffers.addrs hcontents
  obtain ⟨base, hbase, haddr⟩ : ∃ base ∈ buffered.drop 1, base.addr = 2 := by
    have hin : 2 ∈ (buffered.drop 1).map EventNode.addr := by
      rw [List.map_drop, hbuffered]
      decide
    exact List.mem_map.mp hin
  have hlisted := hmem base (List.mem_of_mem_drop hbase)
  refine ⟨node, s, s', buffered, base, hreached, hbuffers, hlisted, haddr ▸ htrigger, fun hnew => ?_⟩
  obtain ⟨pre, outs, post, -, hnodes, hcopies⟩ := hnew.replaced
  have hcopy : (some (.channel 1), base.data) ∈ outs.map EventNode.placed := by
    rw [hcopies, windowCopies, hstep]
    refine List.mem_append_right _ (List.mem_flatMap.mpr ⟨base, hbase, ?_⟩)
    rw [houtputs, copiesFor]
    simp
  obtain ⟨x, hx, hplaced⟩ := List.mem_map.mp hcopy
  have hnot := hlost base hlisted
  rw [haddr] at hnot
  have hnone := List.all_eq_true.mp hnot x (by simp [hnodes, hx])
  rw [hplaced] at hnone
  simp at hnone

end EventSeq
