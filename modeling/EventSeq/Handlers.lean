import EventSeq.NodeEffects
import EventSeq.Processing
import EventSeq.Sources
import EventSeq.Window
import EventSeq.Lib.Runs

/-!
# The system

The handlers of all positions as one function, which the scheduler dispatches to, and the system in
which source reads and handler calls happen in any order.
-/

namespace EventSeq

open Lib

/-! ## Dispatch -/

def nodeHandleEvent (P : Platform) (w : World) (n : Nat) (event : Addr) :
    Except Fault (Bool × World) := do
  let node ← w.node n
  match node.kind with
  | .tee => teeHandleEvent P w n event
  | .router router => routerHandleEvent P w n router event
  | .modifiers node => modifiersHandleEvent P w n node event
  | .modifyPredicate node => modifyPredicateHandleEvent w node event
  | .assign node => assignHandleEvent P w n node event
  | .differentiate node => differentiateHandleEvent P w n node event
  | .integrate node => integrateHandleEvent P w n node event
  | .scale node => scaleHandleEvent P w n node event
  | .print => printHandleEvent w event
  | .uinput => uinputHandleEvent w n event
  | .window window => windowHandleEvent P w n window event
  -- the `handle_event` of a source is null
  | .evdev _ | .getchar _ => .error .dangling

namespace World

def handleEvent (P : Platform) (position : Position) (event : EventNode) (w : World) :
    Except Fault (Bool × World) :=
  match position with
  | .node n => nodeHandleEvent P w n event.addr
  | .channel c => channelHandleEvent w c event.addr

def waitingNewEvent (w : World) : Position → Bool
  | .node n => (w.nodes[n]?.map GraphNode.waitingNewEvent).getD false
  | .channel c => (w.channels[c]?.map GraphChannel.waitingNewEvent).getD false

def hasHandler (w : World) : Position → Bool
  | .node n => (w.nodes[n]?.map fun node => node.kind.type.hasHandler).getD true
  | .channel _ => true

def dispatch (P : Platform) : Dispatch World where
  events w := w.events.nodes
  waitingNewEvent := waitingNewEvent
  hasHandler := hasHandler
  handleEvent := handleEvent P

end World

/-! ## The system -/

inductive SystemCall where
  | handle (position : Position) (event : EventNode)
  | read (node : Nat) (input : SourceInput)
deriving DecidableEq, Repr

/-- One call that returns: a handler on an event at its position, or the callback of a source. -/
inductive SystemStep (P : Platform) : World → SystemCall → World → Prop where
  | handle {w w' : World} {position : Position} {event : EventNode} {result : Bool} :
      event ∈ w.events.nodes → event.position = some position →
      w.handleEvent P position event = .ok (result, w') →
      SystemStep P w (.handle position event) w'
  | read {w w' : World} {n : Nat} {input : SourceInput} :
      handleIo P w n input = .ok w' → SystemStep P w (.read n input) w'

abbrev SystemTransition := Transition World SystemCall

/-- A platform whose allocations succeed. -/
def simplePlatform : Platform where
  allocator := .next
  members _ := ⟨1, 0⟩
  preHash a := fnv1a (pointerBytes a)
  depth := 8

/-! ## Handlers on a split list -/

section

variable {P : Platform} {w w' : World} {n c : Nat} {node : GraphNode} {ch : GraphChannel}
  {e : EventNode} {pre post : List EventNode}

theorem World.splitAt_of_mem (hnodup : w.events.addrs.Nodup) (he : e ∈ w.events.nodes) :
    ∃ pre post, w.SplitAt pre e post := by
  obtain ⟨pre, post, hsplit⟩ := List.append_of_mem he
  exact ⟨pre, post, hsplit, hnodup⟩

theorem nodeHandleEvent_implements (P : Platform) (hw : w.SplitAt pre e post) (hnode : w.nodes[n]? = some node)
    (htype : node.kind.type.unbuffered) :
    Implements P.allocator w n pre post (nodeEffect n node w.predicates e)
      (nodeHandleEvent P w n e.addr) := by
  simp only [nodeHandleEvent, World.node_eq hnode, bind, Except.bind, nodeEffect]
  cases hkind : node.kind with
  | tee =>
      have himpl := teeHandleEvent_implements P hw hnode
      rwa [hkind] at himpl
  | router router =>
      have himpl := routerHandleEvent_implements P hw hnode router
      rwa [hkind] at himpl
  | modifiers node' => exact transformHandleEvent_implements P hw hnode _
  | modifyPredicate node' =>
      have himpl := modifyPredicateHandleEvent_implements P hw hnode node'
      rwa [hkind] at himpl
  | assign node' => exact transformHandleEvent_implements P hw hnode _
  | differentiate node' => exact transformHandleEvent_implements P hw hnode _
  | integrate node' => exact transformHandleEvent_implements P hw hnode _
  | scale node' => exact scaleHandleEvent_implements P hw hnode node'
  | print =>
      have himpl := printHandleEvent_implements P hw hnode
      rwa [hkind] at himpl
  | uinput =>
      have himpl := uinputHandleEvent_implements P hw hnode
      rwa [hkind] at himpl
  -- these hold the event back, or take none
  | window _ | evdev _ | getchar _ =>
      rw [hkind] at htype
      cases htype

/-- The event a channel delivers, when it delivers it to a node. -/
def delivered (ch : GraphChannel) (e : EventNode) : Option (Nat × EventNode) :=
  if e.data.ttl ≤ 1 then none
  else ch.endNode.map fun target =>
    (target, { e with
      position := some (.node target)
      inputIndex := ch.idxEnd
      data := { e.data with ttl := e.data.ttl - 1 } })

/-- A channel destroys the event or moves it to the end node. -/
theorem channelHandleEvent_split (hw : w.SplitAt pre e post) (hch : w.channels[c]? = some ch) :
    match delivered ch e with
    | none =>
        channelHandleEvent w c e.addr =
          .ok (true, { w with events := ⟨pre ++ ([] ++ post), w.events.mallocs⟩ })
    | some (target, e') =>
        channelHandleEvent w c e.addr = (do
          let _ ← w.node target
          .ok (true, { w with events := ⟨pre ++ ([e'] ++ post), w.events.mallocs⟩ }.setNode target
            fun node => { node with waitingNewEvent := false })) := by
  let e₁ : EventNode := { e with data := { e.data with ttl := e.data.ttl - 1 } }
  let w₁ : World := { w with events := ⟨pre ++ e₁ :: post, w.events.mallocs⟩ }
  have hw₁ : w₁.SplitAt pre e₁ post :=
    ⟨rfl, by simpa [w₁, e₁, EventList.addrs] using hw.nodup_split⟩
  have hassign : w.assignEvent e.addr (fun e =>
      { e with data := { e.data with ttl := e.data.ttl - 1 } }) = .ok w₁ :=
    (World.assignEvent_eq hw rfl).1
  have hdestroy : w₁.destroyEvent e.addr =
      .ok { w with events := ⟨pre ++ ([] ++ post), w.events.mallocs⟩ } :=
    (World.destroyEvent_eq hw₁).1
  have hmove := fun target => (World.assignEvent_eq (e := e₁) hw₁
    (f := fun e => { e with position := some (.node target), inputIndex := ch.idxEnd }) rfl).1
  simp only [channelHandleEvent, World.lookup_eq hw, hch, bind, Except.bind, delivered, hassign]
  -- the time to live is tested before and after it is decremented
  by_cases hzero : e.data.ttl = 0
  · simp only [hzero, Nat.zero_le, if_true, (World.destroyEvent_eq hw).1]
  · rw [if_neg hzero]
    by_cases hone : e.data.ttl - 1 = 0
    · rw [if_pos hone, if_pos (by omega), hdestroy]
    · rw [if_neg hone, if_neg (by omega)]
      cases ch.endNode with
      | none => simp only [hdestroy, Option.map_none]
      | some target =>
          have hnode : w₁.node target = w.node target := rfl
          simp only [Option.map_some, hnode]
          cases w.node target with
          | error f => rfl
          | ok node =>
              rw [show w₁.assignEvent e.addr _ = _ from hmove target]
              rfl

/-- All that a handler call on the event `e` between `pre` and `post` can do. -/
inductive HandleOutcome (P : Platform) (w : World) (pre : List EventNode) (e : EventNode)
    (post : List EventNode) : Position → World → Prop where
  | node {n mallocs : Nat} {node : GraphNode} {eff : NodeEffect} {outs : List EventNode} :
      w.nodes[n]? = some node → node.kind.type.unbuffered →
      nodeEffect n node w.predicates e = .ok eff →
      (EventList.mk (pre ++ (outs ++ post)) mallocs).addrs.Nodup →
      (outs.map EventNode.placed).Sublist eff.copies →
      (P.allocator.Succeeds → outs.map EventNode.placed = eff.copies) →
      HandleOutcome P w pre e post (.node n) (w.afterEffect n eff ⟨pre ++ (outs ++ post), mallocs⟩)
  | window {n : Nat} {node : GraphNode} {window : WindowGraphNode} {result : Bool} {w' : World} :
      w.nodes[n]? = some node → node.kind = .window window →
      windowHandleEvent P w n window e.addr = .ok (result, w') →
      HandleOutcome P w pre e post (.node n) w'
  | dropped {c : Nat} {ch : GraphChannel} :
      w.channels[c]? = some ch → delivered ch e = none →
      HandleOutcome P w pre e post (.channel c)
        { w with events := ⟨pre ++ ([] ++ post), w.events.mallocs⟩ }
  | delivered {c target : Nat} {ch : GraphChannel} {e' : EventNode} {node : GraphNode} :
      w.channels[c]? = some ch → delivered ch e = some (target, e') →
      w.nodes[target]? = some node →
      HandleOutcome P w pre e post (.channel c)
        ({ w with events := ⟨pre ++ ([e'] ++ post), w.events.mallocs⟩ }.setNode target
          fun node => { node with waitingNewEvent := false })

theorem handleEvent_outcome {position : Position} {result : Bool} (hw : w.SplitAt pre e post)
    (h : w.handleEvent P position e = .ok (result, w')) :
    HandleOutcome P w pre e post position w' := by
  cases position with
  | node n =>
      simp only [World.handleEvent] at h
      cases hnode : w.nodes[n]? with
      | none =>
          simp only [nodeHandleEvent, World.node, hnode] at h
          cases h
      | some node =>
          -- all handlers but that of the window are given by their effect
          by_cases htype : node.kind.type.unbuffered
          · have himpl := nodeHandleEvent_implements P hw hnode htype
            rw [h] at himpl
            cases heff : nodeEffect n node w.predicates e with
            | error f =>
                rw [heff] at himpl
                cases himpl
            | ok eff =>
                rw [heff] at himpl
                obtain ⟨outs, mallocs, hrun, hnodup, hsub, hall⟩ := himpl
                cases hrun
                exact .node hnode htype heff hnodup hsub hall
          · simp only [nodeHandleEvent, World.node_eq hnode, bind, Except.bind] at h
            split at h <;> rename_i hkind <;> rw [hkind] at htype <;> try exact absurd rfl htype
            · exact .window hnode hkind h
            all_goals cases h
  | channel c =>
      simp only [World.handleEvent] at h
      cases hch : w.channels[c]? with
      | none =>
          simp only [channelHandleEvent, World.lookup_eq hw, hch, bind, Except.bind] at h
          cases h
      | some ch =>
          have hsplit := channelHandleEvent_split hw hch
          rw [h] at hsplit
          -- the channel drops the event, or hands it to a node that has to be live
          cases hdelivered : EventSeq.delivered ch e with
          | none =>
              rw [hdelivered] at hsplit
              cases hsplit
              exact .dropped hch hdelivered
          | some moved =>
              obtain ⟨target, e'⟩ := moved
              rw [hdelivered] at hsplit
              cases hnode : w.nodes[target]? with
              | none =>
                  simp only [World.node, hnode] at hsplit
                  cases hsplit
              | some node =>
                  simp only [World.node_eq hnode, bind, Except.bind] at hsplit
                  cases hsplit
                  exact .delivered hch hdelivered hnode

end

/-! ## What no call changes -/

/-- The fixed part of a node: its outputs, its type and the namespace of a source. -/
def GraphNode.shape (node : GraphNode) : List (Option Nat) × NodeType × Option Int32 :=
  (node.outputs, node.kind.type, node.kind.sourceNamespace)

structure World.SameGraph (w w' : World) : Prop where
  shapes : w'.nodes.map GraphNode.shape = w.nodes.map GraphNode.shape
  channels : w'.channels = w.channels

section

variable {P : Platform} {w w' w'' : World} {n : Nat} {node : GraphNode} {e : EventNode}
  {pre post : List EventNode}

theorem World.SameGraph.refl (w : World) : w.SameGraph w := ⟨rfl, rfl⟩

theorem World.SameGraph.trans (h : w.SameGraph w') (h' : w'.SameGraph w'') : w.SameGraph w'' :=
  ⟨h'.shapes.trans h.shapes, h'.channels.trans h.channels⟩

/-- What holds of the shapes of all nodes goes on to hold. -/
theorem World.SameGraph.forall_mem (h : w.SameGraph w')
    (p : List (Option Nat) × NodeType × Option Int32 → Prop)
    (hw : ∀ node ∈ w.nodes, p node.shape) : ∀ node ∈ w'.nodes, p node.shape := by
  intro node hnode
  have hmem : node.shape ∈ w.nodes.map GraphNode.shape := by
    rw [← h.shapes]
    exact List.mem_map_of_mem hnode
  obtain ⟨old, hold, heq⟩ := List.mem_map.mp hmem
  exact heq ▸ hw old hold

theorem World.SameGraph.getElem? (h : w.SameGraph w') (hnode : w.nodes[n]? = some node) :
    ∃ node', w'.nodes[n]? = some node' ∧ node'.shape = node.shape := by
  have heq := congrArg (fun l => l[n]?) h.shapes
  simp only [List.getElem?_map, hnode, Option.map_some, Option.map_eq_some_iff] at heq
  exact heq

theorem World.SameGraph.hasHandler (h : w.SameGraph w') (p : Position) :
    w'.hasHandler p = w.hasHandler p := by
  cases p with
  | channel c => rfl
  | node n =>
      have htypes := congrArg (fun l => (l[n]?).map fun shape => shape.2.1.hasHandler) h.shapes
      simp only [List.getElem?_map, Option.map_map] at htypes
      exact congrArg (fun o => o.getD true) htypes

theorem map_shape_modify {nodes : List GraphNode} {f : GraphNode → GraphNode}
    (hnode : nodes[n]? = some node) (hf : (f node).shape = node.shape) :
    (nodes.modify n f).map GraphNode.shape = nodes.map GraphNode.shape := by
  apply List.ext_getElem?
  intro i
  rw [List.getElem?_map, List.getElem?_map, List.getElem?_modify]
  by_cases hi : n = i
  · subst hi
    simp [hnode, hf]
  · simp [hi]

theorem sourceNamespace_of_hasHandler {kind : NodeKind} (h : kind.type.hasHandler) :
    kind.sourceNamespace = none := by
  cases kind with
  | evdev source | getchar source => cases h
  | _ => rfl

theorem NodeType.hasHandler_of_unbuffered {type : NodeType} (h : type.unbuffered) :
    type.hasHandler := by
  cases type <;> first | rfl | cases h

theorem shape_with_kind {kind : NodeKind} (htype : kind.type = node.kind.type)
    (hhandler : node.kind.type.hasHandler) (waiting : Bool) :
    ({ node with kind := kind, waitingNewEvent := waiting } : GraphNode).shape = node.shape := by
  have hkind := sourceNamespace_of_hasHandler (htype ▸ hhandler)
  have hnode := sourceNamespace_of_hasHandler hhandler
  rw [GraphNode.shape, GraphNode.shape, htype, hkind, hnode]

theorem World.putWindow_sameGraph {window : WindowGraphNode} (hnode : w.nodes[n]? = some node)
    (hkind : node.kind = .window window) (s : WindowState) (waiting : Bool) :
    w.SameGraph (w.putWindow n s waiting) :=
  ⟨map_shape_modify hnode (shape_with_kind (by rw [hkind]; rfl) (by rw [hkind]; rfl) waiting), rfl⟩

/-- The handler of a window node changes that node and the list only. -/
theorem windowHandleEvent_cases {window : WindowGraphNode} {event : Addr} {result : Bool}
    (h : windowHandleEvent P w n window event = .ok (result, w')) :
    w' = w ∨ ∃ s waiting, w' = w.putWindow n s waiting := by
  simp only [windowHandleEvent, bind_eq_ok_iff] at h
  obtain ⟨source, -, e, -, hidden, -, h⟩ := h
  cases hidden with
  | true =>
      cases h
      exact .inl rfl
  | false =>
      simp only [Bool.false_eq_true, if_false, bind_eq_ok_iff] at h
      obtain ⟨⟨event, s⟩, -, h⟩ := h
      cases event with
      | none =>
          cases h
          exact .inr ⟨_, _, rfl⟩
      | some event =>
          dsimp only at h
          split at h
          · cases h
            exact .inr ⟨_, _, rfl⟩
          · obtain ⟨s, -, ⟨⟩⟩ := (bind_eq_ok_iff _ _ _).mp h
            exact .inr ⟨_, _, rfl⟩

theorem HandleOutcome.sameGraph {position : Position}
    (h : HandleOutcome P w pre e post position w') : w.SameGraph w' := by
  cases h with
  | node hnode htype heff _ _ _ =>
      exact ⟨map_shape_modify hnode (shape_with_kind (nodeEffect_type heff)
        (NodeType.hasHandler_of_unbuffered htype) _), rfl⟩
  | window hnode hkind hrun =>
      rcases windowHandleEvent_cases hrun with rfl | ⟨s, waiting, rfl⟩
      · exact .refl _
      · exact World.putWindow_sameGraph hnode hkind s waiting
  | dropped _ _ => exact ⟨rfl, rfl⟩
  | delivered _ _ hnode => exact ⟨map_shape_modify hnode rfl, rfl⟩

theorem handleIo_sameGraph {input : SourceInput} (h : handleIo P w n input = .ok w') :
    w.SameGraph w' := by
  obtain ⟨node, kind, hnode, rfl, htype, hnamespace⟩ := handleIo_cases h
  refine ⟨map_shape_modify hnode ?_, rfl⟩
  rw [GraphNode.shape, GraphNode.shape, htype, hnamespace]

/-- What a handler other than a window's puts in the place of the event `e`. -/
inductive Successors (w : World) (e : EventNode) : Position → List EventNode → Prop where
  | copies {n : Nat} {node : GraphNode} {outs : List EventNode} :
      w.nodes[n]? = some node → outs.length ≤ node.outputs.length →
      (∀ o ∈ outs, ∃ c, o.position = some (.channel c)) →
      (∀ o ∈ outs, o.data.ttl = e.data.ttl) →
      (node.kind.type ≠ .assign → ∀ o ∈ outs, o.data.code.ns = e.data.code.ns) →
      Successors w e (.node n) outs
  | dropped {c : Nat} : Successors w e (.channel c) []
  | delivered {c target : Nat} {ch : GraphChannel} {e' : EventNode} :
      delivered ch e = some (target, e') → Successors w e (.channel c) [e']

theorem delivered_eq_some {ch : GraphChannel} {target : Nat} {e' : EventNode}
    (h : delivered ch e = some (target, e')) :
    1 < e.data.ttl ∧ e'.addr = e.addr ∧ e'.position = some (.node target) ∧
      e'.data = { e.data with ttl := e.data.ttl - 1 } := by
  rw [delivered] at h
  split at h
  · cases h
  · rename_i httl
    obtain ⟨target', -, ⟨⟩⟩ := Option.map_eq_some_iff.mp h
    exact ⟨not_le.mp httl, rfl, rfl, rfl⟩

theorem HandleOutcome.replaces {position : Position} (hw : w.SplitAt pre e post)
    (hwindow : ∀ node ∈ w.nodes, node.kind.type ≠ .window)
    (h : HandleOutcome P w pre e post position w') :
    ∃ outs, w'.events.nodes = pre ++ (outs ++ post) ∧ w'.events.addrs.Nodup ∧
      Successors w e position outs := by
  cases h with
  | @node n mallocs node eff outs hnode htype heff hnodup hsub hall =>
      obtain ⟨outputs, data, hcopies, houtputs, httl, -, -, hns⟩ := nodeEffect_copies heff
      rw [hcopies] at hsub
      -- all copies go to channels and carry the same data
      have hplaced : ∀ o ∈ outs, (∃ c, o.position = some (.channel c)) ∧ o.data = data := by
        intro o ho
        have hmem := hsub.subset (List.mem_map_of_mem ho)
        obtain ⟨output, -, hcopy⟩ := List.mem_filterMap.mp hmem
        obtain ⟨c, -, heq⟩ := Option.map_eq_some_iff.mp hcopy
        obtain ⟨hposition, hdata⟩ := Prod.mk.inj heq
        exact ⟨⟨c, hposition.symm⟩, hdata.symm⟩
      refine ⟨outs, rfl, hnodup, .copies hnode ?_ (fun o ho => (hplaced o ho).1) ?_ ?_⟩
      · have hlen := hsub.length_le.trans (List.length_filterMap_le _ _)
        rw [List.length_map] at hlen
        exact hlen.trans houtputs.length_le
      · exact fun o ho => (congrArg EventData.ttl (hplaced o ho).2).trans httl
      · exact fun hassign o ho => (congrArg (fun d => d.code.ns) (hplaced o ho).2).trans (hns hassign)
  | window hnode hkind _ =>
      exact absurd (by rw [hkind]; rfl) (hwindow _ (List.mem_of_getElem? hnode))
  | dropped _ _ => exact ⟨[], rfl, (World.destroyEvent_eq hw).2, .dropped⟩
  | delivered _ hdelivered _ =>
      refine ⟨_, rfl, ?_, .delivered hdelivered⟩
      have hnodup := hw.nodup_split
      simpa [EventList.addrs, World.setNode, (delivered_eq_some hdelivered).2.1] using hnodup

end

end EventSeq
