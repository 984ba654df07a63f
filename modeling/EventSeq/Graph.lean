import EventSeq.EventPredicate
import EventSeq.HashTable
import EventSeq.Queue

/-!
# Graphs (`graph.h`, `graph.c`)

Nodes and channels are numbered, and a pointer to one is its number.  The state of a node of each
type is the part of its C structure that its handler reads or writes.  A `World` is everything the
handlers touch: the event list, the graph, the predicate registry and what was sent out so far.  Its
`log` records what the window nodes did with their events; no handler reads it.
-/

namespace EventSeq

/-! ## The state of the nodes -/

structure RouterGraphNode where
  predicates : List Int
deriving DecidableEq, Repr

structure ModifiersGraphNode where
  modifiers : ModifierSet
  operation : ModifierOperation
deriving DecidableEq, Repr

structure ModifyPredicateGraphNode where
  target : Int
  enableOn : Int
  disableOn : Int
  invertOn : Int
  uninvertOn : Int
deriving DecidableEq, Repr

structure AssignGraphNode where
  hasNs : Bool
  hasMaj : Bool
  hasMin : Bool
  hasPayload : Bool
  source : EventData
deriving DecidableEq, Repr

structure DifferentiateGraphNode where
  previous : Int64
deriving DecidableEq, Repr

structure IntegrateGraphNode where
  total : Int64
deriving DecidableEq, Repr

structure ScaleGraphNode where
  numerator : Int64
  denominator : Int64
  center : Int64
  defect : Int64
  amortizeRoundingError : Bool
deriving DecidableEq, Repr

structure WindowGraphNode where
  terminatorPrototype : EventData
  hasTerminator : Bool
  isJumping : Bool
  hasMaxTime : Bool
  hasMaxLength : Bool
  maxTime : RelativeTime
  maxLength : Nat
  additionalStep : Nat
  skipNext : Nat
  buffer : Queue (Option Addr)
  bufferedSet : HashTable (Option Addr) Bool
deriving DecidableEq, Repr

/-- `subscription.enabled` and `namespace` of the two kinds of sources. -/
structure SourceGraphNode where
  enabled : Bool
  namespace_ : Int32
deriving DecidableEq, Repr

inductive NodeKind where
  | tee
  | router (node : RouterGraphNode)
  | modifiers (node : ModifiersGraphNode)
  | modifyPredicate (node : ModifyPredicateGraphNode)
  | assign (node : AssignGraphNode)
  | differentiate (node : DifferentiateGraphNode)
  | integrate (node : IntegrateGraphNode)
  | scale (node : ScaleGraphNode)
  | print
  | uinput
  | window (node : WindowGraphNode)
  | evdev (node : SourceGraphNode)
  | getchar (node : SourceGraphNode)
deriving DecidableEq, Repr

/-- The node specifications, by their names. -/
inductive NodeType where
  | tee
  | router
  | modifiers
  | modifyPredicate
  | assign
  | differentiate
  | integrate
  | scale
  | print
  | uinput
  | window
  | evdev
  | getchar
deriving DecidableEq, Repr

def NodeKind.type : NodeKind → NodeType
  | .tee => .tee
  | .router _ => .router
  | .modifiers _ => .modifiers
  | .modifyPredicate _ => .modifyPredicate
  | .assign _ => .assign
  | .differentiate _ => .differentiate
  | .integrate _ => .integrate
  | .scale _ => .scale
  | .print => .print
  | .uinput => .uinput
  | .window _ => .window
  | .evdev _ => .evdev
  | .getchar _ => .getchar

/-- The state of a window node. -/
def NodeKind.asWindow : NodeKind → Option WindowGraphNode
  | .window node => some node
  | _ => none

theorem NodeKind.asWindow_eq_some_iff {kind : NodeKind} {node : WindowGraphNode} :
    kind.asWindow = some node ↔ kind = .window node := by
  cases kind <;> simp [asWindow]

/-- The `handle_event` that `create` sets is not null. -/
def NodeType.hasHandler : NodeType → Bool
  | .evdev | .getchar => false
  | _ => true

/-- The types with a handler that keeps no events back. -/
def NodeType.unbuffered : NodeType → Bool
  | .window | .evdev | .getchar => false
  | _ => true

structure GraphNode where
  waitingNewEvent : Bool
  inputs : List (Option Nat)
  outputs : List (Option Nat)
  kind : NodeKind
deriving DecidableEq, Repr

structure GraphChannel where
  waitingNewEvent : Bool
  startNode : Option Nat
  endNode : Option Nat
  idxStart : Nat
  idxEnd : Nat
deriving DecidableEq, Repr

/-- What a sink sends out: the fields `print` prints, or a `libevdev_uinput_write_event` call. -/
inductive Delivery where
  | printed (inputIndex : Nat) (data : EventData)
  | written (node : Nat) (major minor : UInt16) (value : Int32)
deriving DecidableEq, Repr

/-- What a window node does with an event. -/
inductive WindowAction where
  /-- A copy is passed through to the outputs. -/
  | forwarded (event : Addr)
  | buffered (event : Addr)
  | popped (event : Option Addr)
  | skipped (event : Addr)
deriving DecidableEq, Repr

structure World where
  events : EventList
  nodes : List GraphNode
  channels : List GraphChannel
  predicates : EventPredicateList
  deliveries : List Delivery
  draws : Nat
  log : List (Nat × WindowAction)
deriving DecidableEq, Repr

/-- The bytes of a pointer in memory, the lowest first. -/
def pointerBytes (ptr : Option Addr) : List UInt8 :=
  (List.range 8).map fun i => UInt8.ofNat (ptr.getD 0 / 256 ^ i)

/-- What the program runs on: `malloc`, the hash functions drawn for the event sets, the pre-hash
of the bytes of a pointer, and a bound on the nesting and the loops of the window node. -/
structure Platform where
  allocator : Allocator
  members : Nat → HashFamilyMember
  preHash : Option Addr → UInt64
  depth : Nat

namespace World

def lookup (w : World) (a : Addr) : Except Fault EventNode :=
  match w.events.lookup a with
  | none => .error .dangling
  | some e => .ok e

def node (w : World) (n : Nat) : Except Fault GraphNode :=
  match w.nodes[n]? with
  | none => .error .dangling
  | some node => .ok node

def destroyEvent (w : World) (a : Addr) : Except Fault World := do
  let events ← eventDestroy a w.events
  .ok { w with events := events }

/-- An assignment to fields of the event. -/
def assignEvent (w : World) (a : Addr) (f : EventNode → EventNode) : Except Fault World := do
  let events ← w.events.assign a f
  .ok { w with events := events }

def setNode (w : World) (n : Nat) (f : GraphNode → GraphNode) : World :=
  { w with nodes := w.nodes.modify n f }

end World

/-! ## Broadcasting -/

/-- The loop of `graph_node_broadcast_forward_event` over the output connectors; `event` is the
node it has come to, with `none` for `END_EVENTS`. -/
def broadcastLoop : List (Option Nat) → Option Addr → Nat → EventList →
    Except Fault (Nat × EventList)
  | [], _, succeses, l => .ok (succeses, l)
  -- `END_EVENTS` is no node of the list.
  | _ :: _, none, _, _ => .error .dangling
  -- Nothing is connected here: the node is destroyed, be it the event itself.
  | none :: outputs, some orphaned, succeses, l => do
      let next := l.next orphaned
      let l ← eventDestroy orphaned l
      broadcastLoop outputs next (succeses - 1) l
  | some output :: outputs, some event, succeses, l => do
      let l ← l.assign event fun e => { e with position := some (.channel output) }
      broadcastLoop outputs (l.next event) succeses l

def graphNodeBroadcastForwardEvent (A : Allocator) (source : GraphNode) (event : Addr)
    (l : EventList) : Except Fault (Nat × EventList) := do
  let count := source.outputs.length
  if count = 0 then do
    let l ← eventDestroy event l
    .ok (0, l)
  else do
    let (count, l) ←
      if count > 1 then do
        let (i, l) ← eventReplicate A event (count - 1) l
        .ok (i + 1, l)
      else .ok (count, l)
    -- With fewer replicas than asked for, the last outputs get nothing.
    broadcastLoop (source.outputs.take count) (some event) count l

def World.broadcast (P : Platform) (w : World) (source : GraphNode) (event : Addr) :
    Except Fault World := do
  let (_, events) ← graphNodeBroadcastForwardEvent P.allocator source event w.events
  .ok { w with events := events }

/-! ## Channels -/

def channelHandleEvent (w : World) (c : Nat) (event : Addr) : Except Fault (Bool × World) := do
  let e ← w.lookup event
  match w.channels[c]? with
  | none => .error .dangling
  | some ch =>
      if e.data.ttl = 0 then do .ok (true, ← w.destroyEvent event)
      else do
        let w ← w.assignEvent event fun e => { e with data := { e.data with ttl := e.data.ttl - 1 } }
        -- An event that arrives with its last hop is not delivered.
        if e.data.ttl - 1 = 0 then do .ok (true, ← w.destroyEvent event)
        else
          match ch.endNode with
          | none => do .ok (true, ← w.destroyEvent event)
          | some target => do
              let _ ← w.node target
              let w ← w.assignEvent event fun e =>
                { e with position := some (.node target), inputIndex := ch.idxEnd }
              .ok (true, w.setNode target fun node => { node with waitingNewEvent := false })

theorem modify_kind_self {nodes : List GraphNode} {n : Nat} {node : GraphNode}
    (hnode : nodes[n]? = some node) :
    (nodes.modify n fun old => { old with kind := node.kind }) = nodes := by
  apply List.ext_getElem?
  intro i
  rw [List.getElem?_modify]
  by_cases hi : n = i
  · subst hi
    rw [hnode]
    simp
  · simp [hi]

/-! ## What broadcasting does to the list -/

/-- An event without its address and its input connector, which `channel_handle_event` sets. -/
def EventNode.placed (e : EventNode) : Option Position × EventData := (e.position, e.data)

/-- The copies of an event for the connected ones among the given connectors, in their order. -/
def copiesFor (outputs : List (Option Nat)) (data : EventData) :
    List (Option Position × EventData) :=
  outputs.filterMap fun output => output.map fun c => (some (.channel c), data)

section

variable {A : Allocator} {e : EventNode} {pre post es : List EventNode} {mallocs : Nat}

theorem EventList.nodup_replace {es' : List EventNode} {mallocs' : Nat}
    (hsub : (es'.map EventNode.addr).Sublist (es.map EventNode.addr))
    (h : (EventList.mk (pre ++ (es ++ post)) mallocs).addrs.Nodup) :
    (EventList.mk (pre ++ (es' ++ post)) mallocs').addrs.Nodup := by
  simp only [EventList.addrs, List.map_append] at h ⊢
  exact h.sublist ((hsub.append_right _).append_left _)

/-- The loop counts down from all outputs to the connected ones; `placed` counts those it has left
behind. -/
theorem broadcastLoop_split {data : EventData} (outputs : List (Option Nat)) (placed : Nat)
    (hlen : es.length = outputs.length) (hdata : ∀ e ∈ es, e.data = data)
    (h : (EventList.mk (pre ++ (es ++ post)) mallocs).addrs.Nodup) :
    ∃ outs, broadcastLoop outputs ((es ++ post).head?.map EventNode.addr) (outputs.length + placed)
        ⟨pre ++ (es ++ post), mallocs⟩ = .ok (outs.length + placed, ⟨pre ++ (outs ++ post), mallocs⟩) ∧
      outs.map EventNode.placed = copiesFor outputs data ∧
      (outs.map EventNode.addr).Sublist (es.map EventNode.addr) := by
  induction outputs generalizing pre es placed with
  | nil =>
      obtain rfl := List.eq_nil_of_length_eq_zero hlen
      exact ⟨[], rfl, rfl, .slnil⟩
  | cons output outputs ih =>
      obtain ⟨e, es, rfl⟩ := List.exists_cons_of_length_eq_add_one hlen
      have hlen' : es.length = outputs.length := by simpa using hlen
      have hdata' := fun e he => hdata e (List.mem_cons_of_mem _ he)
      simp only [List.cons_append] at h ⊢
      cases output with
      | none =>
          -- The node that has come to an unconnected output is destroyed, be it the event itself.
          have h' : (EventList.mk (pre ++ (es ++ post)) mallocs).addrs.Nodup := by
            rw [← List.cons_append] at h
            exact EventList.nodup_replace (List.sublist_cons_self _ _) h
          have hcount : (none :: outputs).length + placed - 1 = outputs.length + placed := by
            rw [List.length_cons]
            omega
          obtain ⟨outs, hrun, hplaced, hsub⟩ := ih placed hlen' hdata' h'
          refine ⟨outs, ?_, hplaced, hsub.trans (List.sublist_cons_self _ _)⟩
          rw [List.head?_cons, Option.map_some, broadcastLoop, eventDestroy_split h,
            EventList.next_split h, hcount]
          simpa only [bind, Except.bind] using hrun
      | some c =>
          let e' : EventNode := { e with position := some (.channel c) }
          have h' : (EventList.mk (pre ++ e' :: (es ++ post)) mallocs).addrs.Nodup := by
            simpa [EventList.addrs, e'] using h
          have h'' : (EventList.mk ((pre ++ [e']) ++ (es ++ post)) mallocs).addrs.Nodup := by
            simpa using h'
          have hcount : (some c :: outputs).length + placed = outputs.length + (placed + 1) := by
            rw [List.length_cons]
            omega
          obtain ⟨outs, hrun, hplaced, hsub⟩ := ih (placed + 1) hlen' hdata' h''
          refine ⟨e' :: outs, ?_, ?_, hsub.cons_cons e.addr⟩
          · rw [List.head?_cons, Option.map_some, broadcastLoop, EventList.assign_split h, hcount]
            have hnext := EventList.next_split h'
            simp only [List.append_assoc, List.singleton_append] at hrun
            simp only [bind, Except.bind]
            rw [hnext, hrun, List.cons_append, List.length_cons]
            congr 2
            omega
          · rw [List.map_cons, hplaced]
            simp [copiesFor, EventNode.placed, e', hdata e List.mem_cons_self]

/-- Broadcasting replaces the event by one copy for each connected output among the first ones, as
many as there are replicas and one, and returns their number. -/
theorem graphNodeBroadcastForwardEvent_split (source : GraphNode)
    (h : (EventList.mk (pre ++ e :: post) mallocs).addrs.Nodup) :
    ∃ r replicated outs mallocs',
      eventReplicate A e.addr (source.outputs.length - 1) ⟨pre ++ e :: post, mallocs⟩ =
        .ok (r, replicated) ∧
      r ≤ source.outputs.length - 1 ∧ (A.Succeeds → r = source.outputs.length - 1) ∧
      graphNodeBroadcastForwardEvent A source e.addr ⟨pre ++ e :: post, mallocs⟩ =
        .ok (outs.length, ⟨pre ++ (outs ++ post), mallocs'⟩) ∧
      (EventList.mk (pre ++ (outs ++ post)) mallocs').addrs.Nodup ∧
      outs.map EventNode.placed = copiesFor (source.outputs.take (r + 1)) e.data := by
  simp only [graphNodeBroadcastForwardEvent]
  cases hcount : source.outputs.length with
  | zero =>
      have hnodup : (EventList.mk (pre ++ ([] ++ post)) mallocs).addrs.Nodup := by
        rw [← List.singleton_append, ← List.append_assoc, List.append_assoc] at h
        exact EventList.nodup_replace (List.nil_sublist _) h
      have hnil : source.outputs = [] := List.eq_nil_of_length_eq_zero hcount
      exact ⟨0, _, [], mallocs, rfl, le_rfl, fun _ => rfl,
        by rw [if_pos rfl, eventDestroy_split h]; rfl, hnodup, by simp [copiesFor, hnil]⟩
  | succ k =>
      rw [if_neg (Nat.succ_ne_zero k)]
      obtain ⟨rs, mallocs', hrun, hle, hall, hrep, hnodup⟩ :=
        @eventReplicate_split A e pre post mallocs k h
      have htake : (source.outputs.take (rs.length + 1)).length = rs.length + 1 := by
        rw [List.length_take]
        omega
      have hlen : (e :: rs).length = (source.outputs.take (rs.length + 1)).length := htake.symm
      -- the loop goes over the source and its replicas, one output for each
      have hdata : ∀ x ∈ e :: rs, x.data = e.data := by
        rintro x (_ | ⟨_, hx⟩)
        · rfl
        · exact (hrep x hx).data
      have hnodup' : (EventList.mk (pre ++ ((e :: rs) ++ post)) mallocs').addrs.Nodup := hnodup
      obtain ⟨outs, hloop, hplaced, hsub⟩ :=
        broadcastLoop_split (source.outputs.take (rs.length + 1)) 0 hlen hdata hnodup'
      refine ⟨rs.length, _, outs, mallocs', hrun, hle, hall, ?_,
        EventList.nodup_replace hsub hnodup', hplaced⟩
      rw [htake] at hloop
      split
      · rw [Nat.add_sub_cancel, hrun]
        exact hloop
      · -- With a single output there is nothing to replicate.
        obtain rfl : k = 0 := by omega
        rw [eventReplicate, Except.ok.injEq, Prod.mk.injEq] at hrun
        rw [hrun.2]
        rw [← hrun.1] at hloop
        exact hloop

/-- When allocations succeed there is a copy for every connected output. -/
theorem graphNodeBroadcastForwardEvent_all (hA : A.Succeeds) (source : GraphNode)
    (h : (EventList.mk (pre ++ e :: post) mallocs).addrs.Nodup) :
    ∃ outs mallocs',
      graphNodeBroadcastForwardEvent A source e.addr ⟨pre ++ e :: post, mallocs⟩ =
        .ok (outs.length, ⟨pre ++ (outs ++ post), mallocs'⟩) ∧
      (EventList.mk (pre ++ (outs ++ post)) mallocs').addrs.Nodup ∧
      outs.map EventNode.placed = copiesFor source.outputs e.data := by
  obtain ⟨r, _, outs, mallocs', -, -, hall, hrun, hnodup, hplaced⟩ :=
    @graphNodeBroadcastForwardEvent_split A e pre post mallocs source h
  have htake : source.outputs.take (r + 1) = source.outputs := by
    apply List.take_of_length_le
    rw [hall hA]
    omega
  exact ⟨outs, mallocs', hrun, hnodup, htake ▸ hplaced⟩

end

end EventSeq
