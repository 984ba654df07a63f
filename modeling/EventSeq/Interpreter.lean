import EventSeq.Draining
import EventSeq.Handlers
import EventSeq.Lib.DepthFirst

/-!
# The depth-first interpreter

Events are tokens: what an event is, without its place in memory.  The recursive interpreter applies
the handler of the position of a token and finishes each copy before the next.  When all events have
one priority, draining the list with `process_events_until` makes the same handler calls, in the same
states.
-/

namespace EventSeq

open Lib Lib.DepthFirst

/-! ## Tokens -/

/-- An event without its address. -/
structure Token where
  position : Option Position
  inputIndex : Nat
  data : EventData
deriving DecidableEq, Repr

/-- The input connector is that of the node the event is at; a channel overwrites it. -/
def EventNode.token (e : EventNode) : Token where
  position := e.position
  inputIndex :=
    match e.position with
    | some (.channel _) => 0
    | _ => e.inputIndex
  data := e.data

def Token.event (t : Token) : EventNode := ⟨0, t.position, t.inputIndex, t.data⟩

def Token.ofCopy (copy : Option Position × EventData) : Token := ⟨copy.1, 0, copy.2⟩

/-- The world without its events: the nodes, the predicates and what was sent out. -/
def World.graph (w : World) : World := { w with events := .empty }

def World.tokens (w : World) : List Token := w.events.nodes.map EventNode.token

/-- The handler of the position of a token: the graph afterwards and the copies in the order of
their output connectors. -/
def applyHandler (t : Token) (g : World) : Except Fault (World × List Token) :=
  match t.position with
  | none => .error .dangling
  | some (.node n) => do
      let node ← g.node n
      let eff ← nodeEffect n node g.predicates t.event
      .ok (g.afterEffect n eff g.events, eff.copies.map Token.ofCopy)
  | some (.channel c) =>
      match g.channels[c]? with
      | none => .error .dangling
      | some ch =>
          match delivered ch t.event with
          | none => .ok (g, [])
          | some (target, e) => do
              let _ ← g.node target
              .ok (g.setNode target fun node => { node with waitingNewEvent := false }, [e.token])

/-- The rules of the graph of `w`.  A token stays where there is no handler. -/
def rules (w : World) : Rules Token World Fault where
  stays t :=
    match t.position with
    | none => true
    | some p => !w.hasHandler p
  step := applyHandler

/-- A bound on how deep the copies of a token are nested: its `ttl` counts nodes and channels. -/
def Token.depth (t : Token) : Nat :=
  match t.position with
  | none => 0
  | some (.node _) => 2 * t.data.ttl + 1
  | some (.channel _) => 2 * t.data.ttl

/-- The recursive interpreter on the events of `w`, in the order of the list. -/
def interpretEvents (w : World) : Option (Outcome Token World Fault) :=
  interpretAll (fun t => interpret (rules w) (t.depth + 1) t) w.tokens w.graph

/-! ## What a handler does not see -/

section

variable {e e' : EventNode} {n : Nat} {node : GraphNode} {predicates : EventPredicateList}

theorem eventPredicateApplyFrom_congr (hdata : e.data = e'.data)
    (hindex : e.inputIndex = e'.inputIndex) (depth : Nat) :
    eventPredicateApplyFrom predicates e depth = eventPredicateApplyFrom predicates e' depth := by
  induction depth with
  | zero => rfl
  | succ depth ih =>
      funext handle
      have hbase : ∀ type, baseCondition (eventPredicateApplyFrom predicates e depth) e type =
          baseCondition (eventPredicateApplyFrom predicates e' depth) e' type := by
        intro type
        have hactual : ∀ field, RangeField.actual e field = RangeField.actual e' field := by
          intro field
          cases field <;> simp only [RangeField.actual, hdata, hindex]
        unfold baseCondition
        split <;> simp only [hactual, hdata, ih]
      simp only [eventPredicateApplyFrom, hbase]

theorem eventPredicateAccepts_congr (hdata : e.data = e'.data)
    (hindex : e.inputIndex = e'.inputIndex) (handle : Int) :
    eventPredicateAccepts predicates e handle = eventPredicateAccepts predicates e' handle := by
  simp only [eventPredicateAccepts, eventPredicateApply, eventPredicateApplyFrom_congr hdata hindex]

theorem acceptedOutputs_congr (hdata : e.data = e'.data) (hindex : e.inputIndex = e'.inputIndex)
    (router : RouterGraphNode) (outputs : List (Option Nat)) (count : Nat) :
    acceptedOutputs predicates router outputs e count =
      acceptedOutputs predicates router outputs e' count := by
  induction count with
  | zero => rfl
  | succ i ih =>
      simp only [acceptedOutputs, routerAccepts, eventPredicateAccepts_congr hdata hindex, ih]

/-- A handler sees the content and the input connector of its event only. -/
theorem nodeEffect_congr (hdata : e.data = e'.data) (hindex : e.inputIndex = e'.inputIndex) :
    nodeEffect n node predicates e = nodeEffect n node predicates e' := by
  simp only [nodeEffect, transformEffect, modifyPredicateUpdate, predicateChanges,
    acceptedOutputs_congr hdata hindex, eventPredicateAccepts_congr hdata hindex, hdata, hindex]

end

/-! ## The handlers on tokens -/

section

variable {P : Platform} {w w' g g' : World} {e : EventNode} {p : Position} {t t' : Token}
  {ts : List Token} {pre post : List EventNode}

theorem delivered_token {ch : GraphChannel} {c : Nat} (hposition : e.position = some (.channel c)) :
    (delivered ch e.token.event).map (fun d => (d.1, d.2.token)) =
      (delivered ch e).map fun d => (d.1, d.2.token) := by
  simp only [delivered, EventNode.token, Token.event, hposition]
  split
  · rfl
  · cases ch.endNode <;> rfl

theorem token_of_placed {o : EventNode} {c : Nat} (hposition : o.position = some (.channel c)) :
    o.token = Token.ofCopy o.placed := by
  simp only [EventNode.token, hposition, Token.ofCopy, EventNode.placed]

/-- The copies a handler makes are at channels. -/
theorem tokens_of_copies {outs : List EventNode} {n : Nat} {node : GraphNode}
    {predicates : EventPredicateList} {eff : NodeEffect}
    (heff : nodeEffect n node predicates e = .ok eff)
    (houts : outs.map EventNode.placed = eff.copies) :
    outs.map EventNode.token = eff.copies.map Token.ofCopy := by
  obtain ⟨outputs, data, hcopies, -⟩ := nodeEffect_copies heff
  rw [← houts, List.map_map]
  apply List.map_congr_left
  intro o ho
  have hmem : o.placed ∈ copiesFor outputs data := by
    rw [← hcopies, ← houts]
    exact List.mem_map_of_mem ho
  obtain ⟨output, -, hcopy⟩ := List.mem_filterMap.mp hmem
  obtain ⟨c, -, heq⟩ := Option.map_eq_some_iff.mp hcopy
  exact token_of_placed (Prod.mk.inj heq).1.symm

/-- A handler call on the event between `pre` and `post` does to the list and to the graph what the
handler does to the token. -/
def HandlesToken (pre post : List EventNode) (result : Except Fault (World × List Token))
    (run : Except Fault (Bool × World)) : Prop :=
  match result with
  | .error f => run = .error f
  | .ok (g, ts) => ∃ w' outs, run = .ok (true, w') ∧ w'.graph = g ∧
      w'.events.nodes = pre ++ (outs ++ post) ∧ w'.events.addrs.Nodup ∧
      outs.map EventNode.token = ts

/-- The handler of a node sees of its event what is in the token. -/
theorem nodeHandleEvent_token {n : Nat} (hA : P.allocator.Succeeds) (hw : w.SplitAt pre e post)
    (hposition : e.position = some (.node n)) (hwindow : ∀ node ∈ w.nodes, node.kind.type ≠ .window) :
    HandlesToken pre post (applyHandler e.token w.graph) (nodeHandleEvent P w n e.addr) := by
  have htoken : e.token.position = some (.node n) := hposition
  have hindex : e.token.event.inputIndex = e.inputIndex := by
    simp only [Token.event, EventNode.token, hposition]
  simp only [applyHandler, htoken]
  cases hnode : w.nodes[n]? with
  | none =>
      have hgraph : w.graph.node n = .error .dangling := by
        simp only [World.node, World.graph, hnode]
      have hrun : nodeHandleEvent P w n e.addr = .error .dangling := by
        simp only [nodeHandleEvent, World.node, hnode, bind, Except.bind]
      simp only [hgraph, bind, Except.bind]
      exact hrun
  | some node =>
      have hgraph : w.graph.node n = .ok node := World.node_eq hnode
      -- the handler reads neither the address nor the position of its event
      have hcongr : nodeEffect n node w.graph.predicates e.token.event =
          nodeEffect n node w.predicates e := nodeEffect_congr rfl hindex
      simp only [hgraph, bind, Except.bind, hcongr]
      by_cases htype : node.kind.type.unbuffered
      · have himpl := nodeHandleEvent_implements P hw hnode htype
        cases heff : nodeEffect n node w.predicates e with
        | error f =>
            rw [heff] at himpl
            exact himpl
        | ok eff =>
            rw [heff] at himpl
            obtain ⟨outs, mallocs, hrun, hnodup, -, hall⟩ := himpl
            exact ⟨_, outs, hrun, rfl, rfl, hnodup, tokens_of_copies heff (hall hA)⟩
      · -- the source nodes have no handler
        have hnot := hwindow node (List.mem_of_getElem? hnode)
        simp only [nodeHandleEvent, World.node_eq hnode, bind, Except.bind, nodeEffect]
        cases hkind : node.kind <;> rw [hkind] at htype hnot <;>
          first | rfl | exact absurd rfl htype | exact absurd rfl hnot

/-- A channel moves its event or drops it. -/
theorem channelHandleEvent_token {c : Nat} (hw : w.SplitAt pre e post)
    (hposition : e.position = some (.channel c)) :
    HandlesToken pre post (applyHandler e.token w.graph) (channelHandleEvent w c e.addr) := by
  have htoken : e.token.position = some (.channel c) := hposition
  simp only [applyHandler, htoken]
  cases hch : w.channels[c]? with
  | none =>
      have hgraph : w.graph.channels[c]? = none := hch
      simp only [hgraph, HandlesToken, channelHandleEvent, World.lookup_eq hw, hch, bind, Except.bind]
  | some ch =>
      have hgraph : w.graph.channels[c]? = some ch := hch
      have hsplit := channelHandleEvent_split hw hch
      have hdelivered := @delivered_token e ch c hposition
      simp only [hgraph]
      cases hd : delivered ch e with
      | none =>
          rw [hd, Option.map_none, Option.map_eq_none_iff] at hdelivered
          rw [hd] at hsplit
          simp only [hdelivered]
          exact ⟨_, [], hsplit, rfl, rfl, (World.destroyEvent_eq hw).2, rfl⟩
      | some moved =>
          obtain ⟨target, e'⟩ := moved
          rw [hd, Option.map_some, Option.map_eq_some_iff] at hdelivered
          obtain ⟨⟨target', e''⟩, hd', heq⟩ := hdelivered
          obtain ⟨rfl, htoken'⟩ := Prod.mk.inj heq
          rw [hd] at hsplit
          dsimp only at htoken' hsplit
          -- the end node has to be live in both
          have hnode : w.graph.node target' = w.node target' := rfl
          simp only [hd', hnode]
          cases hrun' : w.node target' with
          | error f =>
              rw [hrun'] at hsplit
              exact hsplit
          | ok node =>
              rw [hrun'] at hsplit
              refine ⟨_, [e'], hsplit, rfl, rfl, ?_, by rw [htoken']; rfl⟩
              have hnodup := hw.nodup_split
              simpa [EventList.addrs, World.setNode, (delivered_eq_some hd).2.1] using hnodup

theorem handleEvent_token (hA : P.allocator.Succeeds) (hw : w.SplitAt pre e post)
    (hposition : e.position = some p) (hwindow : ∀ node ∈ w.nodes, node.kind.type ≠ .window) :
    HandlesToken pre post (applyHandler e.token w.graph) (w.handleEvent P p e) := by
  cases p with
  | node n => exact nodeHandleEvent_token hA hw hposition hwindow
  | channel c => exact channelHandleEvent_token hw hposition

theorem World.node_eq_ok {m : Nat} {node : GraphNode} (h : w.node m = .ok node) :
    w.nodes[m]? = some node := by
  unfold World.node at h
  split at h
  · cases h
  · rename_i hsome
    cases h
    exact hsome

/-- A handler that returns is that of a node, or of a channel that drops or delivers the token. -/
theorem applyHandler_cases (h : applyHandler t g = .ok (g', ts)) :
    (∃ n node eff, t.position = some (.node n) ∧ g.nodes[n]? = some node ∧
      nodeEffect n node g.predicates t.event = .ok eff ∧ g' = g.afterEffect n eff g.events ∧
      ts = eff.copies.map Token.ofCopy) ∨
    (∃ c ch, t.position = some (.channel c) ∧ g.channels[c]? = some ch ∧
      delivered ch t.event = none ∧ g' = g ∧ ts = []) ∨
    ∃ c ch target e node, t.position = some (.channel c) ∧ g.channels[c]? = some ch ∧
      delivered ch t.event = some (target, e) ∧ g.nodes[target]? = some node ∧
      g' = (g.setNode target fun node => { node with waitingNewEvent := false }) ∧
      ts = [e.token] := by
  unfold applyHandler at h
  split at h
  · cases h
  · -- at a node
    rename_i n hposition
    obtain ⟨node, hnode, h⟩ := (bind_eq_ok_iff _ _ _).mp h
    obtain ⟨eff, heff, ⟨⟩⟩ := (bind_eq_ok_iff _ _ _).mp h
    exact .inl ⟨n, node, eff, hposition, World.node_eq_ok hnode, heff, rfl, rfl⟩
  · -- in a channel
    rename_i c hposition
    split at h
    · cases h
    · rename_i ch hch
      split at h
      · rename_i hdropped
        cases h
        exact .inr (.inl ⟨c, ch, hposition, hch, hdropped, rfl, rfl⟩)
      · rename_i target e hdelivered
        obtain ⟨node, hnode, ⟨⟩⟩ := (bind_eq_ok_iff _ _ _).mp h
        exact .inr (.inr ⟨c, ch, target, e, node, hposition, hch, hdelivered,
          World.node_eq_ok hnode, rfl, rfl⟩)

/-- The copies keep the priority and the time, and are one level less deep. -/
theorem applyHandler_copies (h : applyHandler t g = .ok (g', ts)) (ht' : t' ∈ ts) :
    t'.data.priority = t.data.priority ∧ t'.data.time = t.data.time ∧ t'.depth < t.depth := by
  rcases applyHandler_cases h with ⟨n, node, eff, hposition, -, heff, -, rfl⟩ |
    ⟨-, -, -, -, -, -, rfl⟩ | ⟨c, ch, target, e', -, hposition, -, hdelivered, -, -, rfl⟩
  · obtain ⟨outputs, data, hcopies, -, httl, hpriority, htime, -⟩ := nodeEffect_copies heff
    rw [hcopies] at ht'
    obtain ⟨copy, hcopy, rfl⟩ := List.mem_map.mp ht'
    obtain ⟨output, -, hcopy⟩ := List.mem_filterMap.mp hcopy
    obtain ⟨c, -, rfl⟩ := Option.map_eq_some_iff.mp hcopy
    refine ⟨hpriority, htime, ?_⟩
    have httl' : data.ttl = t.data.ttl := httl
    simp only [Token.ofCopy, Token.depth, hposition, httl']
    omega
  · cases ht'
  · obtain ⟨httl, -, hposition', hdata⟩ := delivered_eq_some hdelivered
    obtain rfl := List.mem_singleton.mp ht'
    have hdata' : e'.token.data = { t.data with ttl := t.data.ttl - 1 } := hdata
    have httl' : 1 < t.data.ttl := httl
    refine ⟨by rw [hdata'], by rw [hdata'], ?_⟩
    have hat : e'.token.position = some (.node target) := hposition'
    simp only [Token.depth, hat, hposition, hdata']
    omega

/-- The interpreter is total. -/
theorem interpretEvents_isSome (w : World) : (interpretEvents w).isSome :=
  interpretAll_isSome fun t _ _ =>
    interpret_isSome (fun _ _ _ _ hstep _ ht' => (applyHandler_copies hstep ht').2.2)
      (Nat.lt_succ_self t.depth)

/-! ## What the handlers keep -/

/-- No position waits for a new event. -/
structure World.Settled (w : World) : Prop where
  nodes : ∀ node ∈ w.nodes, node.waitingNewEvent = false
  channels : ∀ ch ∈ w.channels, ch.waitingNewEvent = false

theorem World.Settled.waitingNewEvent (h : w.Settled) (p : Position) :
    w.waitingNewEvent p = false := by
  cases p with
  | node n =>
      show ((w.nodes[n]?).map GraphNode.waitingNewEvent).getD false = false
      cases hnode : w.nodes[n]? with
      | none => rfl
      | some node => exact h.nodes node (List.mem_of_getElem? hnode)
  | channel c =>
      show ((w.channels[c]?).map GraphChannel.waitingNewEvent).getD false = false
      cases hch : w.channels[c]? with
      | none => rfl
      | some ch => exact h.channels ch (List.mem_of_getElem? hch)

theorem World.Settled.modify (h : w.Settled) (n : Nat) {f : GraphNode → GraphNode}
    (hf : ∀ node, node.waitingNewEvent = false → (f node).waitingNewEvent = false) :
    ∀ node ∈ w.nodes.modify n f, node.waitingNewEvent = false :=
  forall_mem_modify h.nodes fun old hold => hf old (h.nodes old (List.mem_of_getElem? hold))

theorem applyHandler_settled (hg : g.Settled) (h : applyHandler t g = .ok (g', ts)) :
    g'.Settled := by
  rcases applyHandler_cases h with ⟨n, node, eff, -, -, -, rfl, -⟩ | ⟨-, -, -, -, -, rfl, -⟩ |
    ⟨-, -, target, -, -, -, -, -, -, rfl, -⟩
  · exact ⟨hg.modify n fun _ hwaiting => hwaiting, hg.channels⟩
  · exact hg
  · exact ⟨hg.modify target fun _ _ => rfl, hg.channels⟩

end

/-! ## The simulation -/

/-- The handler calls of a run and what it leaves, on tokens. -/
def Invocation.visit (i : Invocation World) : Token × World := (i.event.token, i.before.graph)

def observe (run : List (Invocation World) × Except Fault World) : Outcome Token World Fault :=
  (run.1.map Invocation.visit, run.2.map fun w => (w.graph, w.tokens))

/-- What holds of the world all along: the graph is that of `w₀`, and the events have one priority. -/
structure Drained (w₀ : World) (maxTime : AbsoluteTime) (n : Int) (w : World) : Prop where
  sameGraph : w₀.SameGraph w
  settled : w.Settled
  nodup : w.events.addrs.Nodup
  allAt : AllAt maxTime n w.events.nodes

section

variable {P : Platform} {κ : Type} {w₀ w w' : World} {maxTime : AbsoluteTime} {n : Int}
  {e : EventNode} {p : Position} {pre post : List EventNode}

theorem Drained.readyPosition (h : Drained w₀ maxTime n w) :
    (World.dispatch P).readyPosition w e = e.position.filter w₀.hasHandler := by
  show e.position.filter (fun p => !w.waitingNewEvent p && w.hasHandler p) = _
  congr 1
  funext p
  rw [h.settled.waitingNewEvent, h.sameGraph.hasHandler]
  rfl

theorem Drained.stays_iff (h : Drained w₀ maxTime n w) :
    (rules w₀).stays e.token ↔ (World.dispatch P).readyPosition w e = none := by
  rw [h.readyPosition]
  show (match e.position with
    | none => true
    | some p => !w₀.hasHandler p) = true ↔ _
  cases e.position with
  | none => simp
  | some p => simp [Option.filter]

theorem Drained.exists_ready (h : Drained w₀ maxTime n w)
    (hstays : (rules w₀).stays e.token = false) :
    ∃ p, e.position = some p ∧ (World.dispatch P).readyPosition w e = some p := by
  cases hready : (World.dispatch P).readyPosition w e with
  | none =>
      rw [h.stays_iff.mpr hready] at hstays
      cases hstays
  | some p => exact ⟨p, (Option.filter_eq_some_iff.mp hready).1, rfl⟩

theorem Drained.step (hA : P.allocator.Succeeds) (h : Drained w₀ maxTime n w)
    (hwindow : ∀ node ∈ w₀.nodes, node.kind.type ≠ .window) (hw : w.SplitAt pre e post)
    (hposition : e.position = some p) {g : World} {ts : List Token}
    (hstep : applyHandler e.token w.graph = .ok (g, ts)) :
    ∃ w', w.handleEvent P p e = .ok (true, w') ∧ w'.graph = g ∧
      w'.tokens = pre.map EventNode.token ++ (ts ++ post.map EventNode.token) ∧
      Drained w₀ maxTime n w' := by
  have hwindow' : ∀ node ∈ w.nodes, node.kind.type ≠ .window :=
    h.sameGraph.forall_mem (fun shape => shape.2.1 ≠ .window) hwindow
  have hrun := handleEvent_token hA hw hposition hwindow'
  rw [hstep] at hrun
  obtain ⟨w', outs, hrun, hgraph, hnodes, hnodup, rfl⟩ := hrun
  refine ⟨w', hrun, hgraph, by simp [World.tokens, hnodes], ?_, ?_, hnodup, ?_⟩
  · exact h.sameGraph.trans (handleEvent_outcome hw hrun).sameGraph
  · have hsettled : w.graph.Settled := ⟨h.settled.nodes, h.settled.channels⟩
    obtain ⟨hnodes', hchannels'⟩ := applyHandler_settled hsettled hstep
    rw [← hgraph] at hnodes' hchannels'
    exact ⟨hnodes', hchannels'⟩
  · -- the copies have the priority of the event, and are not later
    have hall := h.allAt
    rw [hw.nodes] at hall
    intro x hx
    rw [hnodes] at hx
    rcases List.mem_append.mp hx with hx | hx
    · exact hall x (by simp [hx])
    · rcases List.mem_append.mp hx with hx | hx
      · obtain ⟨hpriority, htime, -⟩ := applyHandler_copies hstep (List.mem_map_of_mem hx)
        have he := hall e (by simp)
        exact ⟨hpriority.trans he.1, htime.trans_le he.2⟩
      · exact hall x (by simp [hx])

theorem World.tokens_split (hw : w.SplitAt pre e post) :
    w.tokens = pre.map EventNode.token ++ e.token :: post.map EventNode.token := by
  simp [World.tokens, hw.nodes]

/-- When no token can move, the call finds no ready event, and the draining ends. -/
theorem Drained.drain_stays (hn : int32Min < n) (h : Drained w₀ maxTime n w)
    (hstays : ∀ e ∈ w.events.nodes, (rules w₀).stays e.token) {fuel : Nat}
    (hfuel : w.events.nodes.length + 3 ≤ fuel) (proc : ProcessingState κ) :
    observe (drain (World.dispatch P) maxTime fuel proc w) = ([], .ok (w.graph, w.tokens)) := by
  have hunready : ∀ e ∈ (World.dispatch P).events w, (World.dispatch P).readyPosition w e = none :=
    fun e he => h.stays_iff.mp (hstays e he)
  obtain ⟨fuel, rfl⟩ := Nat.exists_eq_succ_of_ne_zero (Nat.ne_zero_of_lt hfuel)
  obtain ⟨proc', hcall⟩ := @processEventsUntil_unready _ κ (World.dispatch P) maxTime w n fuel
    hn h.allAt h.nodup hunready (Nat.le_of_succ_le_succ hfuel) proc
  simp only [drain, hcall]
  rfl

/-- The call is about the event of the first token that can move. -/
theorem Drained.call_first (hn : int32Min < n) (h : Drained w₀ maxTime n w)
    (hw : w.SplitAt pre e post) (hpre : ∀ x ∈ pre, (rules w₀).stays x.token)
    (hstays : (rules w₀).stays e.token = false) :
    ∃ p, e.position = some p ∧ ∀ fuel ≥ w.events.nodes.length + 2, ∀ proc : ProcessingState κ,
      (∀ f, w.handleEvent P p e = .error f →
        processEventsUntil (World.dispatch P) fuel maxTime proc w =
          ([⟨w, e, p, .error f⟩], .error f)) ∧
      ∀ w', w.handleEvent P p e = .ok (true, w') → ∃ proc',
        processEventsUntil (World.dispatch P) fuel maxTime proc w =
          ([⟨w, e, p, .ok (true, w')⟩], .ok (true, proc', w')) := by
  have hunready : ∀ x ∈ pre, (World.dispatch P).readyPosition w x = none :=
    fun x hx => h.stays_iff.mp (hpre x hx)
  obtain ⟨p, hposition, hready⟩ := @Drained.exists_ready P w₀ w maxTime n e h hstays
  exact ⟨p, hposition, fun fuel hfuel proc =>
    @processEventsUntil_first _ κ (World.dispatch P) maxTime w n pre post e fuel p hn h.allAt
      h.nodup hw.nodes hunready hready hfuel proc⟩

/-- Draining the list visits what the machine visits that rewrites its tokens. -/
theorem drain_of_rewrite (hA : P.allocator.Succeeds) (hn : int32Min < n)
    (hwindow : ∀ node ∈ w₀.nodes, node.kind.type ≠ .window) {steps : Nat}
    {o : Outcome Token World Fault} (h : Drained w₀ maxTime n w)
    (hrewrite : rewrite (rules w₀) steps w.tokens w.graph = some o) :
    ∃ bound, ∀ fuel ≥ bound, ∀ proc : ProcessingState κ,
      observe (drain (World.dispatch P) maxTime fuel proc w) = o := by
  induction steps generalizing w o with
  | zero => cases hrewrite
  | succ steps ih =>
      cases hfind : w.events.nodes.find? (fun e => !(rules w₀).stays e.token) with
      | none =>
          have hall : ∀ e ∈ w.events.nodes, (rules w₀).stays e.token := by
            simpa using List.find?_eq_none.mp hfind
          have htokens : ∀ t ∈ w.tokens, (rules w₀).stays t :=
            List.forall_mem_map.mpr hall
          rw [rewrite_stays htokens] at hrewrite
          cases hrewrite
          exact ⟨_, fun fuel hfuel proc => h.drain_stays hn hall hfuel proc⟩
      | some e =>
          obtain ⟨hstays, pre, post, hnodes, hpre⟩ := List.find?_eq_some_iff_append.mp hfind
          have hstays' : (rules w₀).stays e.token = false := by simpa using hstays
          have hpre' : ∀ x ∈ pre, (rules w₀).stays x.token := by simpa using hpre
          have hpreTokens : ∀ t ∈ pre.map EventNode.token, (rules w₀).stays t :=
            List.forall_mem_map.mpr hpre'
          have hw : w.SplitAt pre e post := ⟨hnodes, h.nodup⟩
          obtain ⟨p, hposition, hfirst⟩ := @Drained.call_first P κ w₀ w maxTime n e pre post hn h hw
            hpre' hstays'
          rw [World.tokens_split hw] at hrewrite
          cases hstep : applyHandler e.token w.graph with
          | error f =>
              -- the handler fails, and the draining with it
              rw [rewrite_error hpreTokens hstays' hstep] at hrewrite
              cases hrewrite
              have hrun := handleEvent_token hA hw hposition
                (h.sameGraph.forall_mem (fun shape => shape.2.1 ≠ .window) hwindow)
              rw [hstep] at hrun
              refine ⟨w.events.nodes.length + 3, fun fuel hfuel proc => ?_⟩
              obtain ⟨fuel, rfl⟩ := Nat.exists_eq_succ_of_ne_zero (Nat.ne_zero_of_lt hfuel)
              have hcall := (hfirst fuel (Nat.le_of_succ_le_succ hfuel) proc).1 f hrun
              simp only [drain, hcall]
              rfl
          | ok next =>
              -- both machines take the step, and go on from the same tokens
              obtain ⟨g, ts⟩ := next
              obtain ⟨w', hrun, rfl, htokens', h'⟩ := h.step hA hwindow hw hposition hstep
              rw [rewrite_step hpreTokens hstays' hstep, ← htokens'] at hrewrite
              obtain ⟨o, hrest, rfl⟩ := Option.map_eq_some_iff.mp hrewrite
              obtain ⟨bound, hbound⟩ := ih h' hrest
              refine ⟨max bound (w.events.nodes.length + 2) + 1, fun fuel hfuel proc => ?_⟩
              obtain ⟨fuel, rfl⟩ := Nat.exists_eq_succ_of_ne_zero (Nat.ne_zero_of_lt hfuel)
              have hfuel' := max_le_iff.mp (Nat.le_of_succ_le_succ hfuel)
              obtain ⟨proc', hcall⟩ := (hfirst fuel hfuel'.2 proc).2 w' hrun
              have hdrain := hbound fuel hfuel'.1 proc'
              simp only [drain, hcall, if_true]
              rw [← hdrain]
              rfl

/-! ## Graphs whose handlers return -/

/-- The indices that stand for pointers are in range. -/
structure World.Linked (w : World) : Prop where
  outputs : ∀ node ∈ w.nodes, ∀ c, some c ∈ node.outputs → c < w.channels.length
  endNodes : ∀ ch ∈ w.channels, ∀ n, ch.endNode = some n → n < w.nodes.length

def World.HasPosition (w : World) : Position → Prop
  | .node n => n < w.nodes.length
  | .channel c => c < w.channels.length

theorem World.SameGraph.nodes_length (h : w.SameGraph w') : w'.nodes.length = w.nodes.length := by
  have hlength := congrArg List.length h.shapes
  rwa [List.length_map, List.length_map] at hlength

theorem delivered_endNode {ch : GraphChannel} {target : Nat} {e' : EventNode}
    (h : delivered ch e = some (target, e')) : ch.endNode = some target := by
  rw [delivered] at h
  split at h
  · cases h
  · obtain ⟨target', hend, heq⟩ := Option.map_eq_some_iff.mp h
    rw [hend, (Prod.mk.inj heq).1]

theorem nodeEffect_unbuffered {node : GraphNode} {predicates : EventPredicateList} {eff : NodeEffect}
    {m : Nat} (h : nodeEffect m node predicates e = .ok eff) : node.kind.type.unbuffered := by
  rw [nodeEffect] at h
  cases hkind : node.kind <;> rw [hkind] at h <;> first | rfl | cases h

theorem applyHandler_sameGraph {t : Token} {ts : List Token} (h : applyHandler t w = .ok (w', ts)) :
    w.SameGraph w' := by
  rcases applyHandler_cases h with ⟨m, node, eff, -, hnode, heff, rfl, -⟩ | ⟨-, -, -, -, -, rfl, -⟩ |
    ⟨-, -, target, -, node, -, -, -, hnode, rfl, -⟩
  · exact ⟨map_shape_modify hnode (shape_with_kind (nodeEffect_type heff)
      (NodeType.hasHandler_of_unbuffered (nodeEffect_unbuffered heff)) _), rfl⟩
  · exact .refl w'
  · exact ⟨map_shape_modify hnode rfl, rfl⟩

theorem applyHandler_divisionsFit {t : Token} {ts : List Token} (hw : w.DivisionsFit)
    (h : applyHandler t w = .ok (w', ts)) : w'.DivisionsFit := by
  rcases applyHandler_cases h with ⟨m, node, eff, -, hnode, heff, rfl, -⟩ | ⟨-, -, -, -, -, rfl, -⟩ |
    ⟨-, -, target, -, node, -, -, -, hnode, rfl, -⟩
  · exact forall_mem_modify hw fun _ _ =>
      nodeEffect_divisionFits heff (hw node (List.mem_of_getElem? hnode))
  · exact hw
  · exact forall_mem_modify hw fun old hold => hw old (List.mem_of_getElem? hold)

/-- What the interpreter keeps of the graph it starts on. -/
structure World.Interpretable (w₀ g : World) : Prop where
  same : w₀.SameGraph g
  acyclic : Acyclic g.predicates
  divisionsFit : g.DivisionsFit

/-- The handler of the token returns, and what it leaves has its places in the graph of `w₀` again. -/
def World.Steps (w₀ : World) (t : Token) (g : World) : Prop :=
  ∃ g' ts, applyHandler t g = .ok (g', ts) ∧ w₀.Interpretable g' ∧
    ∀ t' ∈ ts, ∀ p, t'.position = some p → w₀.HasPosition p

section

variable {t : Token} {g : World}

theorem steps_node {m : Nat} (hlinked : w₀.Linked)
    (hwindow : ∀ node ∈ w₀.nodes, node.kind.type ≠ .window) (hg : w₀.Interpretable g)
    (hp : t.position = some (.node m)) (hhas : w₀.HasPosition (.node m))
    (hhandler : w₀.hasHandler (.node m) = true) : w₀.Steps t g := by
  have hsame := hg.same
  have hlt : m < g.nodes.length := hsame.nodes_length ▸ hhas
  have hnode : g.nodes[m]? = some g.nodes[m] := List.getElem?_eq_getElem hlt
  have hmem := List.mem_of_getElem? hnode
  have hnot : g.nodes[m].kind.type ≠ .window :=
    hsame.forall_mem (fun shape => shape.2.1 ≠ .window) hwindow _ hmem
  have houtputs : ∀ c, some c ∈ g.nodes[m].outputs → c < w₀.channels.length :=
    hsame.forall_mem (fun shape => ∀ c, some c ∈ shape.1 → c < w₀.channels.length)
      hlinked.outputs _ hmem
  have hhandler' : g.nodes[m].kind.type.hasHandler = true := by
    have hsome := hsame.hasHandler (.node m)
    simp only [World.hasHandler, hnode, Option.map_some, Option.getD_some] at hsome hhandler
    rw [hsome, hhandler]
  have htype : g.nodes[m].kind.type.unbuffered := by
    cases htype : g.nodes[m].kind.type <;> rw [htype] at hhandler' hnot <;>
      first | rfl | exact absurd rfl hnot | cases hhandler'
  obtain ⟨eff, heff, hacyclic'⟩ :
      ∃ eff, nodeEffect m g.nodes[m] g.predicates t.event = .ok eff ∧
        Acyclic eff.predicates :=
    nodeEffect_ok hg.acyclic htype (GraphNode.not_overflows (hg.divisionsFit _ hmem) _)
  have hrun : applyHandler t g = .ok (g.afterEffect m eff g.events, eff.copies.map Token.ofCopy) := by
    simp only [applyHandler, hp, World.node_eq hnode, heff, bind, Except.bind]
  refine ⟨_, _, hrun, ⟨hsame.trans (applyHandler_sameGraph hrun), hacyclic',
    applyHandler_divisionsFit hg.divisionsFit hrun⟩, ?_⟩
  -- the copies are at the outputs of the node
  obtain ⟨outputs, data, hcopies, hsub, -⟩ := nodeEffect_copies heff
  intro t' ht' p' hp'
  rw [hcopies] at ht'
  obtain ⟨copy, hcopy, rfl⟩ := List.mem_map.mp ht'
  obtain ⟨output, houtput, hcopy⟩ := List.mem_filterMap.mp hcopy
  obtain ⟨c, rfl, rfl⟩ := Option.map_eq_some_iff.mp hcopy
  cases hp'
  exact houtputs c (hsub.subset houtput)

theorem steps_channel {c : Nat} (hlinked : w₀.Linked) (hg : w₀.Interpretable g)
    (hp : t.position = some (.channel c)) (hhas : w₀.HasPosition (.channel c)) : w₀.Steps t g := by
  have hsame := hg.same
  have hlt : c < g.channels.length := hsame.channels ▸ hhas
  have hch : g.channels[c]? = some g.channels[c] := List.getElem?_eq_getElem hlt
  cases hd : delivered g.channels[c] t.event with
  | none =>
      have hrun : applyHandler t g = .ok (g, []) := by
        simp only [applyHandler, hp, hch, hd]
      exact ⟨_, _, hrun, hg, by simp⟩
  | some moved =>
      obtain ⟨target, e'⟩ := moved
      have htarget : target < w₀.nodes.length :=
        hlinked.endNodes _ (hsame.channels ▸ List.mem_of_getElem? hch) target
          (delivered_endNode hd)
      have hlt' : target < g.nodes.length := hsame.nodes_length ▸ htarget
      have hrun : applyHandler t g = .ok (g.setNode target fun node =>
          { node with waitingNewEvent := false }, [e'.token]) := by
        simp only [applyHandler, hp, hch, hd,
          World.node_eq (List.getElem?_eq_getElem hlt'), bind, Except.bind]
      refine ⟨_, _, hrun, ⟨hsame.trans (applyHandler_sameGraph hrun), hg.acyclic,
        applyHandler_divisionsFit hg.divisionsFit hrun⟩, ?_⟩
      intro t' ht' p' hp'
      rw [List.mem_singleton.mp ht'] at hp'
      have hat : e'.token.position = some (.node target) := (delivered_eq_some hd).2.2.1
      rw [hat] at hp'
      cases hp'
      exact htarget

/-- In a graph whose pointers lead somewhere, whose predicates have no cycles and whose nodes do not
divide by -1 every handler returns. -/
theorem applyHandler_ok (hlinked : w₀.Linked)
    (hwindow : ∀ node ∈ w₀.nodes, node.kind.type ≠ .window) (hg : w₀.Interpretable g)
    (hposition : ∀ p, t.position = some p → w₀.HasPosition p)
    (hstays : (rules w₀).stays t = false) : w₀.Steps t g := by
  cases hp : t.position with
  | none =>
      simp only [rules, hp] at hstays
      cases hstays
  | some p =>
      cases p with
      | node m =>
          have hhandler : w₀.hasHandler (.node m) = true := by
            simp only [rules, hp] at hstays
            simpa using hstays
          exact steps_node hlinked hwindow hg hp (hposition _ hp) hhandler
      | channel c => exact steps_channel hlinked hg hp (hposition _ hp)

end

/-- In such a graph the interpreter meets no fault. -/
theorem interpretEvents_ok (hlinked : w.Linked)
    (hwindow : ∀ node ∈ w.nodes, node.kind.type ≠ .window) (hacyclic : Acyclic w.predicates)
    (hfits : w.DivisionsFit)
    (hpositions : ∀ e ∈ w.events.nodes, ∀ p, e.position = some p → w.HasPosition p) :
    ∃ visits g stayed, interpretEvents w = some (visits, .ok (g, stayed)) := by
  let good : Token → Prop := fun t => ∀ p, t.position = some p → w.HasPosition p
  have hstep : ∀ t g, good t → w.Interpretable g → (rules w).stays t = false →
      ∃ g' ts, (rules w).step t g = .ok (g', ts) ∧ w.Interpretable g' ∧
        ∀ t' ∈ ts, good t' ∧ t'.depth < t.depth := by
    intro t g ht hg hstays
    obtain ⟨g', ts, hrun, hg', hts⟩ := applyHandler_ok hlinked hwindow hg ht hstays
    exact ⟨g', ts, hrun, hg', fun t' ht' => ⟨hts t' ht', (applyHandler_copies hrun ht').2.2⟩⟩
  have htokens : ∀ t ∈ w.tokens, ∀ g, w.Interpretable g → ∃ visits g' stayed,
      interpret (rules w) (t.depth + 1) t g = some (visits, .ok (g', stayed)) ∧
        w.Interpretable g' := by
    intro t ht g hg
    obtain ⟨e, he, rfl⟩ := List.mem_map.mp ht
    exact interpret_ok hstep (hpositions e he) (Nat.lt_succ_self _) hg
  have hgraph : w.Interpretable w.graph := ⟨⟨rfl, rfl⟩, hacyclic, hfits⟩
  obtain ⟨visits, g, stayed, hok, -⟩ := interpretAll_ok htokens hgraph
  exact ⟨visits, g, stayed, hok⟩

/-- For events of one priority, draining the list makes the handler calls of the recursive
interpreter in the same order and in the same states of the graph, and leaves the same events in the
same order; in a graph without dangling pointers, cyclic predicates and divisions by -1 it comes to an
end with no fault.  Only window nodes make a position wait. -/
theorem scheduler_interprets_depth_first (hA : P.allocator.Succeeds)
    (hwindow : ∀ node ∈ w.nodes, node.kind.type ≠ .window) (hsettled : w.Settled)
    (hnodup : w.events.addrs.Nodup) (hn : int32Min < n) (hall : AllAt maxTime n w.events.nodes) :
    ∃ visits out, interpretEvents w = some (visits, out) ∧
      (∃ bound, ∀ fuel ≥ bound, ∀ proc : ProcessingState κ,
        observe (drain (World.dispatch P) maxTime fuel proc w) = (visits, out)) ∧
      (Acyclic w.predicates → w.Linked → w.DivisionsFit →
        (∀ e ∈ w.events.nodes, ∀ p, e.position = some p → w.HasPosition p) →
        ∃ g stayed, out = .ok (g, stayed)) := by
  obtain ⟨⟨visits, out⟩, hinterpret⟩ := Option.isSome_iff_exists.mp (interpretEvents_isSome w)
  refine ⟨visits, out, hinterpret, ?_, ?_⟩
  · have hdrained : Drained w maxTime n w := ⟨.refl w, hsettled, hnodup, hall⟩
    exact drain_of_rewrite hA hn hwindow hdrained (rewrite_of_interpretAll hinterpret)
  · intro hacyclic hlinked hfits hpositions
    obtain ⟨visits', g, stayed, hok⟩ :=
      interpretEvents_ok hlinked hwindow hacyclic hfits hpositions
    have heq : some (visits, out) = some (visits', .ok (g, stayed)) := hinterpret.symm.trans hok
    cases heq
    exact ⟨g, stayed, rfl⟩

end

/-- A tee in front of an integrating node and a `print` node, to which the other one leads as well. -/
def teeGraph : World where
  events := ⟨[⟨1, some (.node 0), 0, { (default : EventData) with ttl := 9, payload := 3 }⟩,
    ⟨2, some (.channel 0), 0, { (default : EventData) with ttl := 9, payload := 4 }⟩], 2⟩
  nodes := [⟨false, [none], [some 0, some 1], .tee⟩, ⟨false, [some 0], [some 2], .integrate ⟨0⟩⟩,
    ⟨false, [some 1, some 2], [], .print⟩]
  channels := [⟨false, some 0, some 1, 0, 0⟩, ⟨false, some 0, some 2, 1, 0⟩,
    ⟨false, some 1, some 2, 0, 1⟩]
  predicates := []
  deliveries := []
  draws := 0
  log := []

/-- The first event is printed by way of the integrating node before its other copy is, and that one
before the second event. -/
theorem scheduler_interprets_tee_graph :
    ∃ visits g stayed, interpretEvents teeGraph = some (visits, .ok (g, stayed)) ∧
      visits.length = 11 ∧
      ∃ bound, ∀ fuel ≥ bound,
        observe (drain (World.dispatch simplePlatform) default fuel
          (⟨.empty, default, int32Min, false⟩ : ProcessingState Unit) teeGraph) =
        (visits, .ok (g, stayed)) := by
  obtain ⟨visits, out, hinterpret, ⟨bound, hdrain⟩, hok⟩ :=
    @scheduler_interprets_depth_first simplePlatform Unit teeGraph default 0 Allocator.next_succeeds
      (by decide) ⟨by decide, by decide⟩ (by decide) (by decide) (by simp [AllAt, teeGraph]; decide)
  have hacyclic : Acyclic teeGraph.predicates := by decide
  have hlinked : teeGraph.Linked := ⟨by simp [teeGraph], by simp [teeGraph]⟩
  obtain ⟨g, stayed, rfl⟩ := hok hacyclic hlinked
    (by simp [teeGraph, World.DivisionsFit, NodeKind.DivisionFits])
    (by simp [teeGraph, World.HasPosition])
  have hlength : (interpretEvents teeGraph).map (fun o => o.1.length) = some 11 := rfl
  rw [hinterpret] at hlength
  exact ⟨visits, g, stayed, hinterpret, Option.some.inj hlength, bound,
    fun fuel hfuel => hdrain fuel hfuel _⟩

end EventSeq
