import EventSeq.Handlers

/-!
# Fan-out

What stands in the event list after `graph_node_broadcast_forward_event` and after the handler of a
router, for any mix of connected and unconnected outputs.
-/

namespace EventSeq

/-! ## Broadcasting -/

def singleEvent : EventNode := ⟨7, some (.node 0), 0, default⟩

/-- The connectors with a predicate that accepts the event. -/
def acceptedConnectors (predicates : EventPredicateList) (handles : List Int)
    (outputs : List (Option Nat)) (e : EventNode) : List (Option Nat) :=
  ((handles.zip outputs).filter fun p =>
    decide (eventPredicateApply predicates p.1 e = .ok .accepted)).map Prod.snd

section

variable {predicates : EventPredicateList} {router : RouterGraphNode}
  {outputs : List (Option Nat)} {e : EventNode}

/-- The loop goes down from the last index, so it is about the first pairs of a predicate and a
connector. -/
theorem acceptedOutputs_eq
    (happly : ∀ p ∈ router.predicates.zip outputs, ∃ res,
      eventPredicateApply predicates p.1 e = .ok res)
    {count : Nat} (hcount : count ≤ router.predicates.length) :
    acceptedOutputs predicates router outputs e count =
      .ok ((((router.predicates.zip outputs).take count).filter fun p =>
        decide (eventPredicateApply predicates p.1 e = .ok .accepted)).map Prod.snd) := by
  induction count with
  | zero => rfl
  | succ i ih =>
      have hhandle : router.predicates[i]? = some router.predicates[i] :=
        List.getElem?_eq_getElem hcount
      rw [acceptedOutputs, List.take_add_one, List.filter_append, List.map_append, ih (by omega)]
      cases houtput : outputs[i]? with
      | none =>
          -- There is no connector at this index, and no pair.
          have hpair : (router.predicates.zip outputs)[i]? = none := by
            rw [List.getElem?_eq_none_iff, List.length_zip] at *
            omega
          rw [hpair]
          simp
      | some output =>
          have hpair : (router.predicates.zip outputs)[i]? = some (router.predicates[i], output) :=
            List.getElem?_zip_eq_some.mpr ⟨hhandle, houtput⟩
          obtain ⟨res, hres⟩ := happly _ (List.mem_of_getElem? hpair)
          rw [hpair]
          simp only [routerAccepts, hhandle, eventPredicateAccepts_eq hres, bind, Except.bind]
          by_cases haccepted : eventPredicateApply predicates router.predicates[i] e = .ok .accepted
          · simp [haccepted]
          · simp [haccepted]

end

section

variable {w : World} {n : Nat} {node : GraphNode} {router : RouterGraphNode} {e : EventNode}
  {pre post : List EventNode}

/-- What the handler of a router leaves when memory lasts. -/
theorem nodeHandleEvent_router (P : Platform) (hA : P.allocator.Succeeds)
    (hw : w.SplitAt pre e post) (hnode : w.nodes[n]? = some node) (hkind : node.kind = .router router)
    (happly : ∀ p ∈ router.predicates.zip node.outputs, ∃ res,
      eventPredicateApply w.predicates p.1 e = .ok res) :
    ∃ outs mallocs,
      nodeHandleEvent P w n e.addr =
        .ok (true, { w with events := ⟨pre ++ (outs ++ post), mallocs⟩ }) ∧
      (EventList.mk (pre ++ (outs ++ post)) mallocs).addrs.Nodup ∧
      outs.map EventNode.placed =
        copiesFor (acceptedConnectors w.predicates router.predicates node.outputs e) e.data := by
  have hchoice := acceptedOutputs_eq happly le_rfl
  -- The pairs are no more than the predicates, so the loop sees all of them.
  rw [List.take_of_length_le (by rw [List.length_zip]; omega)] at hchoice
  have himpl := nodeHandleEvent_implements P hw hnode (by rw [hkind]; rfl)
  rw [nodeEffect, hkind] at himpl
  simp only [hchoice, bind, Except.bind] at himpl
  obtain ⟨outs, mallocs, hrun, hnodup, -, hall⟩ := himpl
  -- The node keeps its state, and nothing is sent out.
  have hworld : w.afterEffect n ⟨.router router, w.predicates, [],
      copiesFor (acceptedConnectors w.predicates router.predicates node.outputs e) e.data⟩
      ⟨pre ++ (outs ++ post), mallocs⟩ = { w with events := ⟨pre ++ (outs ++ post), mallocs⟩ } := by
    rw [World.afterEffect, ← hkind, modify_kind_self hnode, List.append_nil]
  exact ⟨outs, mallocs, hrun.trans (by rw [← hworld]; rfl), hnodup, hall hA⟩

end

/-- The handler of a router replaces the event by one copy for each connected output whose predicate
accepts it, in the order of the outputs, just as broadcasting to these outputs does. -/
theorem router_copies_to_accepted (P : Platform) {w : World} {n : Nat} {node : GraphNode}
    {router : RouterGraphNode} {e : EventNode} {pre post : List EventNode}
    (hA : P.allocator.Succeeds) (hw : w.SplitAt pre e post) (hnode : w.nodes[n]? = some node)
    (hkind : node.kind = .router router)
    (happly : ∀ p ∈ router.predicates.zip node.outputs, ∃ res,
      eventPredicateApply w.predicates p.1 e = .ok res) :
    ∃ outs mallocs,
      nodeHandleEvent P w n e.addr =
        .ok (true, { w with events := ⟨pre ++ (outs ++ post), mallocs⟩ }) ∧
      (EventList.mk (pre ++ (outs ++ post)) mallocs).addrs.Nodup ∧
      outs.map EventNode.placed =
        copiesFor (acceptedConnectors w.predicates router.predicates node.outputs e) e.data ∧
      ∃ outs' mallocs',
        graphNodeBroadcastForwardEvent P.allocator
          { node with
            outputs := acceptedConnectors w.predicates router.predicates node.outputs e }
          e.addr w.events = .ok (outs'.length, ⟨pre ++ (outs' ++ post), mallocs'⟩) ∧
        outs'.map EventNode.placed = outs.map EventNode.placed := by
  obtain ⟨outs, mallocs, hrun, hnodup, hplaced⟩ :=
    nodeHandleEvent_router P hA hw hnode hkind happly
  obtain ⟨outs', mallocs', hbroadcast, -, hplaced'⟩ :=
    @graphNodeBroadcastForwardEvent_all P.allocator e pre post w.events.mallocs hA
      { node with outputs := acceptedConnectors w.predicates router.predicates node.outputs e }
      hw.nodup_split
  rw [← hw.events_eq] at hbroadcast
  exact ⟨outs, mallocs, hrun, hnodup, hplaced, outs', mallocs', hbroadcast,
    hplaced'.trans hplaced.symm⟩

/-- The second predicate is disabled, and the third one has both as its arguments. -/
def routerPredicates : EventPredicateList :=
  [⟨.accept, true, false⟩, ⟨.accept, false, false⟩, ⟨.disjunction (some [0, 1]), true, false⟩]

def routerNode : GraphNode where
  waitingNewEvent := false
  inputs := []
  outputs := [some 4, some 5, none, some 6]
  kind := .router ⟨[0, 1, 0, 2, 0]⟩

def routerWorld : World where
  events := ⟨[singleEvent], 0⟩
  nodes := [routerNode]
  channels := []
  predicates := routerPredicates
  deliveries := []
  draws := 0
  log := []

theorem router_copies_to_accepted_two :
    ∃ outs mallocs,
      nodeHandleEvent simplePlatform routerWorld 0 7 =
        .ok (true, { routerWorld with events := ⟨outs, mallocs⟩ }) ∧
      outs.map EventNode.placed = [(some (.channel 4), default), (some (.channel 6), default)] := by
  have hw : routerWorld.SplitAt [] singleEvent [] := ⟨rfl, by decide⟩
  have hnode : routerWorld.nodes[0]? = some routerNode := rfl
  have hacyclic : Acyclic routerPredicates := by decide
  obtain ⟨outs, mallocs, hrun, -, hplaced, -⟩ :=
    router_copies_to_accepted simplePlatform Allocator.next_succeeds hw hnode rfl
      fun p _ => eventPredicateApply_ok hacyclic singleEvent p.1
  rw [List.append_nil] at hrun
  exact ⟨outs, mallocs, hrun, hplaced⟩

end EventSeq
