import EventSeq.Nodes

/-!
# The node handlers implement their effects

Each handler without a buffer replaces the event it is called on, in place, by the copies of its
effect, or by the first few of them when an allocation fails.
-/

namespace EventSeq

/-- The world after an effect of node `n`, with the given event list. -/
def World.afterEffect (w : World) (n : Nat) (eff : NodeEffect) (events : EventList) : World :=
  { w with
    events := events
    nodes := w.nodes.modify n fun node => { node with kind := eff.kind }
    predicates := eff.predicates
    deliveries := w.deliveries ++ eff.deliveries }

/-- The call on `e` between `pre` and `post` fails as the effect does, or has that effect. -/
def Implements (A : Allocator) (w : World) (n : Nat) (pre post : List EventNode)
    (eff : Except Fault NodeEffect) (run : Except Fault (Bool × World)) : Prop :=
  match eff with
  | .error f => run = .error f
  | .ok eff =>
      ∃ outs mallocs, run = .ok (true, w.afterEffect n eff ⟨pre ++ (outs ++ post), mallocs⟩) ∧
        (EventList.mk (pre ++ (outs ++ post)) mallocs).addrs.Nodup ∧
        (outs.map EventNode.placed).Sublist eff.copies ∧
        (A.Succeeds → outs.map EventNode.placed = eff.copies)

/-- The event list of the world, split at the event `e`. -/
structure World.SplitAt (w : World) (pre : List EventNode) (e : EventNode) (post : List EventNode) :
    Prop where
  nodes : w.events.nodes = pre ++ e :: post
  nodup : w.events.addrs.Nodup

section

variable {w : World} {n : Nat} {node : GraphNode} {e : EventNode} {pre post : List EventNode}

theorem copiesFor_take_sublist (outputs : List (Option Nat)) (data : EventData) (r : Nat) :
    (copiesFor (outputs.take r) data).Sublist (copiesFor outputs data) :=
  (List.take_sublist r outputs).filterMap _

theorem World.SplitAt.events_eq (hw : w.SplitAt pre e post) :
    w.events = ⟨pre ++ e :: post, w.events.mallocs⟩ := by
  rw [← hw.nodes]

theorem World.SplitAt.nodup_split (hw : w.SplitAt pre e post) :
    (EventList.mk (pre ++ e :: post) w.events.mallocs).addrs.Nodup :=
  hw.events_eq ▸ hw.nodup

theorem World.lookup_eq (hw : w.SplitAt pre e post) : w.lookup e.addr = .ok e := by
  rw [World.lookup, hw.events_eq, EventList.lookup_split hw.nodup_split]

theorem World.node_eq (hnode : w.nodes[n]? = some node) : w.node n = .ok node := by
  rw [World.node, hnode]

/-- What is left of the list when the event is dropped. -/
theorem World.destroyEvent_eq (hw : w.SplitAt pre e post) :
    w.destroyEvent e.addr = .ok { w with events := ⟨pre ++ ([] ++ post), w.events.mallocs⟩ } ∧
      (EventList.mk (pre ++ ([] ++ post)) w.events.mallocs).addrs.Nodup := by
  have h : (EventList.mk (pre ++ ([e] ++ post)) w.events.mallocs).addrs.Nodup := hw.nodup_split
  refine ⟨?_, EventList.nodup_replace (List.nil_sublist _) h⟩
  have hdestroy := eventDestroy_split hw.nodup_split
  rw [← hw.events_eq] at hdestroy
  rw [World.destroyEvent, hdestroy, List.nil_append]
  rfl

theorem World.broadcast_spec (P : Platform) (source : GraphNode) (hw : w.SplitAt pre e post) :
    ∃ outs mallocs, w.broadcast P source e.addr =
        .ok { w with events := ⟨pre ++ (outs ++ post), mallocs⟩ } ∧
      (EventList.mk (pre ++ (outs ++ post)) mallocs).addrs.Nodup ∧
      (outs.map EventNode.placed).Sublist (copiesFor source.outputs e.data) ∧
      (P.allocator.Succeeds → outs.map EventNode.placed = copiesFor source.outputs e.data) := by
  obtain ⟨r, _, outs, mallocs, -, -, hall, hrun, hnodup, hplaced⟩ :=
    @graphNodeBroadcastForwardEvent_split P.allocator e pre post w.events.mallocs source
      hw.nodup_split
  refine ⟨outs, mallocs, ?_, hnodup, ?_, fun hA => ?_⟩
  · rw [World.broadcast, hw.events_eq, hrun]
    rfl
  · rw [hplaced]
    exact copiesFor_take_sublist _ _ _
  · rw [hplaced, List.take_of_length_le (by rw [hall hA]; omega)]

/-- An assignment to the event in its place. -/
theorem World.assignEvent_eq (hw : w.SplitAt pre e post) {f : EventNode → EventNode}
    (hf : (f e).addr = e.addr) :
    w.assignEvent e.addr f = .ok { w with events := ⟨pre ++ f e :: post, w.events.mallocs⟩ } ∧
      (EventList.mk (pre ++ f e :: post) w.events.mallocs).addrs.Nodup := by
  have hassign := EventList.assign_split hw.nodup_split f
  rw [← hw.events_eq] at hassign
  refine ⟨by rw [World.assignEvent, hassign]; rfl, ?_⟩
  simpa [EventList.addrs, hf] using hw.nodup_split

theorem World.SplitAt.write (hw : w.SplitAt pre e post) (n : Nat) (data : EventData)
    (kind : NodeKind) :
    ∃ w', w.write n e.addr data kind = .ok w' ∧ w'.SplitAt pre { e with data := data } post ∧
      w' = { w with
        events := ⟨pre ++ { e with data := data } :: post, w.events.mallocs⟩
        nodes := w.nodes.modify n fun node => { node with kind := kind } } := by
  obtain ⟨hassign, hnodup⟩ := World.assignEvent_eq hw (f := fun e => { e with data := data }) rfl
  refine ⟨_, ?_, ⟨rfl, hnodup⟩, rfl⟩
  rw [World.write, hassign]
  rfl

/-! ## Forwarding -/

variable (P : Platform) (hw : w.SplitAt pre e post) (hnode : w.nodes[n]? = some node)

include hw hnode

theorem teeHandleEvent_implements :
    Implements P.allocator w n pre post
      (.ok ⟨node.kind, w.predicates, [], copiesFor node.outputs e.data⟩)
      (teeHandleEvent P w n e.addr) := by
  obtain ⟨outs, mallocs, hrun, hnodup, hsub, hall⟩ := World.broadcast_spec P node hw
  refine ⟨outs, mallocs, ?_, hnodup, hsub, hall⟩
  simp only [teeHandleEvent, World.node_eq hnode, hrun, bind, Except.bind, World.afterEffect,
    modify_kind_self hnode, List.append_nil]

theorem transformHandleEvent_implements (update : EventData → EventData × NodeKind) :
    Implements P.allocator w n pre post (.ok (transformEffect node w.predicates e update))
      (transformHandleEvent P w n e.addr update) := by
  simp only [transformHandleEvent, World.node_eq hnode, World.lookup_eq hw, bind, Except.bind]
  by_cases hcount : node.outputs = []
  · obtain ⟨hdestroy, hnodup⟩ := World.destroyEvent_eq hw
    refine ⟨[], w.events.mallocs, ?_, hnodup, ?_, fun _ => ?_⟩
    · simp only [hcount, List.length_nil, if_true, hdestroy, transformEffect, World.afterEffect,
        modify_kind_self hnode, List.append_nil]
    · simp [transformEffect, hcount]
    · simp [transformEffect, hcount]
  · have hlength : ¬node.outputs.length = 0 := by simpa using hcount
    simp only [if_neg hlength]
    obtain ⟨w', hwrite, hw', rfl⟩ := hw.write n (update e.data).1 (update e.data).2
    obtain ⟨outs, mallocs, hrun, hnodup, hsub, hall⟩ := World.broadcast_spec P node hw'
    refine ⟨outs, mallocs, ?_, hnodup, ?_, fun hA => ?_⟩
    · dsimp only at hrun
      simp only [hwrite, hrun]
      simp only [transformEffect, if_neg hcount, World.afterEffect, List.append_nil]
    · simpa [transformEffect, hcount] using hsub
    · simpa [transformEffect, hcount] using hall hA

theorem scaleHandleEvent_implements (node' : ScaleGraphNode) :
    Implements P.allocator w n pre post
      (if node.outputs ≠ [] ∧ node'.Overflows e.data then .error .overflow
        else .ok (transformEffect node w.predicates e (scaleUpdate node')))
      (scaleHandleEvent P w n node' e.addr) := by
  simp only [scaleHandleEvent, World.node_eq hnode, World.lookup_eq hw, bind, Except.bind]
  split
  · rfl
  · exact transformHandleEvent_implements P hw hnode (scaleUpdate node')

omit hw hnode in
theorem copiesFor_append (os os' : List (Option Nat)) (data : EventData) :
    copiesFor (os ++ os') data = copiesFor os data ++ copiesFor os' data :=
  List.filterMap_append

end

/-! ## The router -/

/-- The loop fails as the choice of outputs does, or leaves copies for these behind the event. -/
def RouterYields (A : Allocator) (pre : List EventNode) (e : EventNode) (post : List EventNode)
    (accepted : Except Fault (List (Option Nat))) (run : Except Fault EventList) : Prop :=
  match accepted with
  | .error f => run = .error f
  | .ok outputs =>
      ∃ outs mallocs, run = .ok ⟨pre ++ e :: (outs ++ post), mallocs⟩ ∧
        (EventList.mk (pre ++ e :: (outs ++ post)) mallocs).addrs.Nodup ∧
        (outs.map EventNode.placed).Sublist (copiesFor outputs e.data) ∧
        (A.Succeeds → outs.map EventNode.placed = copiesFor outputs e.data)

section

variable {A : Allocator} {predicates : EventPredicateList} {router : RouterGraphNode}
  {outputs : List (Option Nat)} {e : EventNode} {pre post : List EventNode} {mallocs : Nat}

section

variable {accepted : Except Fault (List (Option Nat))} {run : Except Fault EventList} {r : EventNode}
  {c : Nat}

/-- The replica of an accepted output could not be made. -/
theorem RouterYields.failed (h : RouterYields A pre e post accepted run) (hA : ¬A.Succeeds)
    (output : Option Nat) :
    RouterYields A pre e post (do .ok ((← accepted) ++ [output])) run := by
  cases accepted with
  | error f => exact h
  | ok lower =>
      obtain ⟨outs, mallocs, hloop, hnodup, hsub, -⟩ := h
      refine ⟨outs, mallocs, hloop, hnodup, ?_, fun hsucceeds => absurd hsucceeds hA⟩
      rw [copiesFor_append]
      exact hsub.trans (List.sublist_append_left _ _)

/-- An accepted output without a channel takes no copy. -/
theorem RouterYields.unconnected (h : RouterYields A pre e post accepted run) :
    RouterYields A pre e post (do .ok ((← accepted) ++ [none])) run := by
  cases accepted with
  | error f => exact h
  | ok lower =>
      have hsame : copiesFor (lower ++ [none]) e.data = copiesFor lower e.data := by
        rw [copiesFor_append]
        exact List.append_nil _
      obtain ⟨outs, mallocs, hloop, hnodup, hsub, hall⟩ := h
      exact ⟨outs, mallocs, hloop, hnodup, hsame ▸ hsub, fun hA => hsame ▸ hall hA⟩

/-- The copy for an accepted output stands behind those for the lower ones. -/
theorem RouterYields.connected (h : RouterYields A pre e (r :: post) accepted run)
    (hr : r.placed = (some (.channel c), e.data)) :
    RouterYields A pre e post (do .ok ((← accepted) ++ [some c])) run := by
  cases accepted with
  | error f => exact h
  | ok lower =>
      have hcopy : [r].map EventNode.placed = copiesFor [some c] e.data := congrArg ([·]) hr
      obtain ⟨outs, mallocs, hloop, hnodup, hsub, hall⟩ := h
      refine ⟨outs ++ [r], mallocs, ?_, ?_, ?_, fun hA => ?_⟩
      · rw [hloop, List.append_assoc, List.singleton_append]
      · rwa [List.append_assoc, List.singleton_append]
      · rw [copiesFor_append, List.map_append, hcopy]
        exact hsub.append (List.Sublist.refl _)
      · rw [copiesFor_append, List.map_append, hcopy, hall hA]

end

/-- The part of one iteration behind the call of `event_replicate`. -/
theorem RouterYields.copy {accepted : Except Fault (List (Option Nat))}
    {run : EventList → Except Fault EventList} (output : Option Nat)
    (ih : ∀ {post mallocs}, (EventList.mk (pre ++ e :: post) mallocs).addrs.Nodup →
      RouterYields A pre e post accepted (run ⟨pre ++ e :: post, mallocs⟩))
    (h : (EventList.mk (pre ++ e :: post) mallocs).addrs.Nodup) :
    RouterYields A pre e post (do .ok ((← accepted) ++ [output]))
      (do
        let (replicated, l) ← eventReplicate A e.addr 1 ⟨pre ++ e :: post, mallocs⟩
        if replicated = 0 then run l
        else
          match l.next e.addr with
          | none => .error .dangling
          | some replica => do
              let l ← l.assign replica fun e => { e with position := output.map Position.channel }
              let l ← if output.isNone then eventDestroy replica l else .ok l
              run l) := by
  obtain ⟨rs, mallocs', hrun, hle, hall, hrep, hnodup⟩ := @eventReplicate_split A e pre post mallocs 1 h
  simp only [hrun, bind, Except.bind]
  match rs, hle with
  | [], _ => exact (ih hnodup).failed (fun hA => absurd (hall hA) (by simp)) output
  | [r], _ =>
      have hdata : r.data = e.data := (hrep r (List.mem_singleton.mpr rfl)).data
      have hnext := EventList.next_split hnodup
      have hnodup_r : (EventList.mk ((pre ++ [e]) ++ r :: post) mallocs').addrs.Nodup := by
        simpa using hnodup
      have hassign := EventList.assign_split hnodup_r fun e =>
        { e with position := output.map Position.channel }
      simp only [List.append_assoc, List.singleton_append] at hassign
      simp only [List.length_singleton, one_ne_zero, if_false, List.singleton_append,
        List.head?_cons, Option.map_some] at hnext ⊢
      rw [hnext]
      simp only [hassign]
      have hnodup' : ∀ position, (EventList.mk
          (pre ++ e :: { r with position := position } :: post) mallocs').addrs.Nodup := by
        intro position
        simpa [EventList.addrs] using hnodup
      cases output with
      | none =>
          have hr : (EventList.mk ((pre ++ [e]) ++ { r with position := none } :: post)
              mallocs').addrs.Nodup := by simpa using hnodup' none
          have hdestroy := eventDestroy_split hr
          simp only [List.append_assoc, List.singleton_append] at hdestroy
          simp only [Option.map_none, Option.isNone_none, if_true, hdestroy]
          -- a replica for an output that is not connected is destroyed at once
          have hpost : (EventList.mk (pre ++ e :: post) mallocs').addrs.Nodup := by
            have hdrop := @EventList.nodup_replace (pre ++ [e]) post [r] mallocs' [] mallocs'
              (List.nil_sublist _) (by simpa using hnodup)
            simpa using hdrop
          exact (ih hpost).unconnected
      | some c =>
          simp only [Option.map_some, Option.isNone_some, Bool.false_eq_true, if_false]
          exact (ih (hnodup' (some (.channel c)))).connected
            (congrArg (Prod.mk (some (Position.channel c))) hdata)

theorem routerLoop_split (count : Nat) (h : (EventList.mk (pre ++ e :: post) mallocs).addrs.Nodup) :
    RouterYields A pre e post (acceptedOutputs predicates router outputs e count)
      (routerLoop A predicates router outputs e.addr count ⟨pre ++ e :: post, mallocs⟩) := by
  induction count generalizing post mallocs with
  | zero => exact ⟨[], mallocs, rfl, h, by simp [copiesFor], fun _ => by simp [copiesFor]⟩
  | succ i ih =>
      rw [routerLoop, acceptedOutputs]
      cases houtput : outputs[i]? with
      | none => exact ih h
      | some output =>
          simp only [EventList.lookup_split h]
          cases haccepts : routerAccepts predicates router i e with
          | error f => rfl
          | ok accepted =>
              cases accepted with
              | true => exact RouterYields.copy output (fun h => ih h) h
              | false =>
                  have hsame : (do .ok ((← acceptedOutputs predicates router outputs e i) ++ [])) =
                      acceptedOutputs predicates router outputs e i := by
                    cases acceptedOutputs predicates router outputs e i <;>
                      simp [bind, Except.bind]
                  show RouterYields A pre e post
                    (do .ok ((← acceptedOutputs predicates router outputs e i) ++ [])) _
                  rw [hsame]
                  exact ih h

end

section

variable {w : World} {n : Nat} {node : GraphNode} {e : EventNode} {pre post : List EventNode}
  (P : Platform) (hw : w.SplitAt pre e post) (hnode : w.nodes[n]? = some node)

include hw hnode

theorem routerHandleEvent_implements (router : RouterGraphNode) :
    Implements P.allocator w n pre post
      (do
        let outputs ←
          acceptedOutputs w.predicates router node.outputs e router.predicates.length
        .ok ⟨node.kind, w.predicates, [], copiesFor outputs e.data⟩)
      (routerHandleEvent P w n router e.addr) := by
  have hloop := @routerLoop_split P.allocator w.predicates router node.outputs e pre post
    w.events.mallocs router.predicates.length hw.nodup_split
  rw [← hw.events_eq] at hloop
  simp only [routerHandleEvent, World.node_eq hnode, bind, Except.bind]
  cases haccepted : acceptedOutputs w.predicates router node.outputs e
      router.predicates.length with
  | error f =>
      rw [haccepted] at hloop
      rw [show routerLoop _ _ _ _ _ _ _ = _ from hloop]
      exact rfl
  | ok outputs =>
      rw [haccepted] at hloop
      obtain ⟨outs, mallocs, hrun, hnodup, hsub, hall⟩ := hloop
      have hw' : { w with events := ⟨pre ++ e :: (outs ++ post), mallocs⟩ }.SplitAt pre e
          (outs ++ post) := ⟨rfl, hnodup⟩
      obtain ⟨hdestroy, hdrop⟩ := World.destroyEvent_eq hw'
      refine ⟨outs, mallocs, ?_, hdrop, hsub, hall⟩
      simp only [hrun, hdestroy, World.afterEffect, modify_kind_self hnode, List.append_nil,
        List.nil_append]

/-! ## Sinks -/

/-- A handler that only changes the rest of the world and destroys the event. -/
theorem destroyEvent_implements (predicates : EventPredicateList) (deliveries : List Delivery) :
    Implements P.allocator w n pre post (.ok ⟨node.kind, predicates, deliveries, []⟩)
      (do .ok (true, ← { w with
        predicates := predicates, deliveries := w.deliveries ++ deliveries }.destroyEvent e.addr)) := by
  have hw' : { w with
      predicates := predicates, deliveries := w.deliveries ++ deliveries }.SplitAt pre e post :=
    ⟨hw.nodes, hw.nodup⟩
  obtain ⟨hdestroy, hnodup⟩ := World.destroyEvent_eq hw'
  refine ⟨[], w.events.mallocs, ?_, hnodup, by simp, by simp⟩
  simp only [hdestroy, World.afterEffect, modify_kind_self hnode, bind, Except.bind]

theorem printHandleEvent_implements :
    Implements P.allocator w n pre post
      (.ok ⟨node.kind, w.predicates, [.printed e.inputIndex e.data], []⟩)
      (printHandleEvent w e.addr) := by
  simp only [printHandleEvent, World.lookup_eq hw, bind, Except.bind]
  exact destroyEvent_implements P hw hnode w.predicates _

theorem uinputHandleEvent_implements :
    Implements P.allocator w n pre post
      (.ok ⟨node.kind, w.predicates,
        [.written n e.data.code.major e.data.code.minor e.data.payload.toInt32], []⟩)
      (uinputHandleEvent w n e.addr) := by
  simp only [uinputHandleEvent, World.lookup_eq hw, bind, Except.bind]
  exact destroyEvent_implements P hw hnode w.predicates _

theorem modifyPredicateHandleEvent_implements (node' : ModifyPredicateGraphNode) :
    Implements P.allocator w n pre post
      (do
        let predicates ← modifyPredicateUpdate node' w.predicates e
        .ok ⟨node.kind, predicates, [], []⟩)
      (modifyPredicateHandleEvent w node' e.addr) := by
  simp only [modifyPredicateHandleEvent, World.lookup_eq hw, bind, Except.bind]
  cases modifyPredicateUpdate node' w.predicates e with
  | error f => exact rfl
  | ok predicates =>
      have hsink := destroyEvent_implements P hw hnode predicates []
      simpa [bind, Except.bind] using hsink

end

/-! ## What every effect has in common -/

section

variable {n : Nat} {node : GraphNode} {predicates : EventPredicateList} {e : EventNode}
  {eff : NodeEffect}

theorem acceptedOutputs_sublist {router : RouterGraphNode} {outputs accepted : List (Option Nat)}
    {count : Nat} (h : acceptedOutputs predicates router outputs e count = .ok accepted) :
    accepted.Sublist (outputs.take count) := by
  induction count generalizing accepted with
  | zero =>
      cases h
      exact List.nil_sublist _
  | succ i ih =>
      rw [acceptedOutputs] at h
      rw [List.take_add_one]
      cases houtput : outputs[i]? with
      | none =>
          rw [houtput] at h
          exact (ih h).trans (List.sublist_append_left _ _)
      | some output =>
          simp only [houtput, bind_eq_ok_iff] at h
          obtain ⟨b, -, lower, hlower, ⟨⟩⟩ := h
          apply (ih hlower).append
          cases b <;> simp

/-- The copies go to outputs of the node and share one content, in which `ttl`, priority and time
are those of the event, and the namespace too unless the node assigns it. -/
theorem nodeEffect_copies (h : nodeEffect n node predicates e = .ok eff) :
    ∃ outputs data, eff.copies = copiesFor outputs data ∧ outputs.Sublist node.outputs ∧
      data.ttl = e.data.ttl ∧ data.priority = e.data.priority ∧ data.time = e.data.time ∧
      (node.kind.type ≠ .assign → data.code.ns = e.data.code.ns) := by
  -- one argument for all nodes that change the data and go to every output
  have htransform : ∀ update : EventData → EventData × NodeKind,
      (update e.data).1.ttl = e.data.ttl → (update e.data).1.priority = e.data.priority →
      (update e.data).1.time = e.data.time →
      (node.kind.type ≠ .assign → (update e.data).1.code.ns = e.data.code.ns) →
      ∃ outputs data, (transformEffect node predicates e update).copies = copiesFor outputs data ∧
        outputs.Sublist node.outputs ∧ data.ttl = e.data.ttl ∧ data.priority = e.data.priority ∧
        data.time = e.data.time ∧
        (node.kind.type ≠ .assign → data.code.ns = e.data.code.ns) := by
    intro update httl hpriority htime hns
    rw [transformEffect]
    split
    · exact ⟨[], e.data, rfl, List.nil_sublist _, rfl, rfl, rfl, fun _ => rfl⟩
    · exact ⟨node.outputs, _, rfl, List.Sublist.refl _, httl, hpriority, htime, hns⟩
  rw [nodeEffect] at h
  split at h
  case h_1 =>
    cases h
    exact ⟨node.outputs, e.data, rfl, List.Sublist.refl _, rfl, rfl, rfl, fun _ => rfl⟩
  case h_2 router _ =>
    obtain ⟨outputs, houtputs, ⟨⟩⟩ := (bind_eq_ok_iff _ _ _).mp h
    exact ⟨outputs, e.data, rfl, (acceptedOutputs_sublist houtputs).trans (List.take_sublist _ _),
      rfl, rfl, rfl, fun _ => rfl⟩
  case h_4 =>
    obtain ⟨predicates', -, ⟨⟩⟩ := (bind_eq_ok_iff _ _ _).mp h
    exact ⟨[], e.data, rfl, List.nil_sublist _, rfl, rfl, rfl, fun _ => rfl⟩
  case h_5 node' hkind =>
    cases h
    exact htransform _ rfl rfl rfl fun hassign => absurd (by rw [hkind]; rfl) hassign
  case h_8 node' _ =>
    split at h
    · cases h
    · cases h
      apply htransform <;> (unfold scaleUpdate; dsimp only; split <;> simp)
  case h_9 | h_10 =>
    cases h
    exact ⟨[], e.data, rfl, List.nil_sublist _, rfl, rfl, rfl, fun _ => rfl⟩
  case h_11 | h_12 | h_13 => cases h
  all_goals
    cases h
    exact htransform _ rfl rfl rfl fun _ => rfl

/-- A handler changes the state of its node, not its type. -/
theorem nodeEffect_type (h : nodeEffect n node predicates e = .ok eff) :
    eff.kind.type = node.kind.type := by
  -- what the nodes that change the data have in common
  have htransform : ∀ update : EventData → EventData × NodeKind,
      (update e.data).2.type = node.kind.type →
      (transformEffect node predicates e update).kind.type = node.kind.type := by
    intro update hupdate
    rw [transformEffect]
    split
    · rfl
    · exact hupdate
  rw [nodeEffect] at h
  split at h
  case h_1 | h_9 | h_10 =>
    cases h
    rfl
  case h_2 | h_4 =>
    obtain ⟨_, -, ⟨⟩⟩ := (bind_eq_ok_iff _ _ _).mp h
    rfl
  case h_8 node' hkind =>
    split at h
    · cases h
    · cases h
      apply htransform
      rw [hkind]
      unfold scaleUpdate
      dsimp only
      split <;> rfl
  case h_11 | h_12 | h_13 => cases h
  all_goals
    rename_i hkind
    cases h
    exact htransform _ (by rw [hkind]; rfl)

/-- The node divides by nothing that could make the quotient too large. -/
def NodeKind.DivisionFits : NodeKind → Prop
  | .scale node => node.denominator ≠ -1
  | _ => True

/-- No node of the graph divides by -1. -/
def World.DivisionsFit (w : World) : Prop := ∀ node ∈ w.nodes, node.kind.DivisionFits

theorem forall_mem_modify {α : Type} {p : α → Prop} {l : List α} (h : ∀ x ∈ l, p x) {n : Nat}
    {f : α → α} (hf : ∀ x, l[n]? = some x → p (f x)) : ∀ x ∈ l.modify n f, p x := by
  intro x hx
  obtain ⟨i, hi⟩ := List.mem_iff_getElem?.mp hx
  rw [List.getElem?_modify] at hi
  obtain ⟨old, hold, heq⟩ := Option.map_eq_some_iff.mp hi
  rw [← heq]
  split
  · rename_i hn
    exact hf old (hn ▸ hold)
  · exact h old (List.mem_of_getElem? hold)

theorem GraphNode.not_overflows (h : node.kind.DivisionFits) (data : EventData) :
    ¬node.Overflows data := by
  rintro ⟨-, node', hkind, hminus, -⟩
  rw [hkind] at h
  exact h hminus

/-- A handler does not change the denominator. -/
theorem nodeEffect_divisionFits (h : nodeEffect n node predicates e = .ok eff)
    (hfits : node.kind.DivisionFits) : eff.kind.DivisionFits := by
  have htransform : ∀ update : EventData → EventData × NodeKind,
      (update e.data).2.DivisionFits → (transformEffect node predicates e update).kind.DivisionFits := by
    intro update hupdate
    rw [transformEffect]
    split
    · exact hfits
    · exact hupdate
  rw [nodeEffect] at h
  split at h
  case h_1 | h_9 | h_10 =>
    cases h
    exact hfits
  case h_2 | h_4 =>
    obtain ⟨_, -, ⟨⟩⟩ := (bind_eq_ok_iff _ _ _).mp h
    exact hfits
  case h_8 node' hkind =>
    split at h
    · cases h
    · cases h
      rw [hkind] at hfits
      apply htransform
      unfold scaleUpdate
      dsimp only
      split <;> exact hfits
  case h_11 | h_12 | h_13 => cases h
  all_goals
    cases h
    exact htransform _ trivial

/-! ## Registries without cycles -/

theorem eventPredicateAccepts_eq {handle : Int} {res : EventPredicateResult}
    (h : eventPredicateApply predicates handle e = .ok res) :
    eventPredicateAccepts predicates e handle =
      .ok (decide (eventPredicateApply predicates handle e = .ok .accepted)) := by
  rw [eventPredicateAccepts, h]
  cases res <;> rfl

theorem eventPredicateAccepts_ok (hacyclic : Acyclic predicates) (e : EventNode) (handle : Int) :
    ∃ b, eventPredicateAccepts predicates e handle = .ok b := by
  obtain ⟨r, hr⟩ := eventPredicateApply_ok hacyclic e handle
  exact ⟨r == .accepted, by rw [eventPredicateAccepts, hr]; rfl⟩

theorem acceptedOutputs_ok (hacyclic : Acyclic predicates) {router : RouterGraphNode}
    (outputs : List (Option Nat)) (e : EventNode) {count : Nat}
    (hcount : count ≤ router.predicates.length) :
    ∃ accepted, acceptedOutputs predicates router outputs e count = .ok accepted := by
  induction count with
  | zero => exact ⟨[], rfl⟩
  | succ i ih =>
      rw [acceptedOutputs]
      obtain ⟨lower, hlower⟩ := ih (by omega)
      obtain ⟨b, hb⟩ := eventPredicateAccepts_ok hacyclic e router.predicates[i]
      split
      · exact ⟨lower, hlower⟩
      · rename_i output _
        refine ⟨lower ++ if b then [output] else [], ?_⟩
        simp [routerAccepts, List.getElem?_eq_getElem hcount, hlower, hb, bind, Except.bind]

theorem Acyclic.apply (hacyclic : Acyclic predicates) (changes : PredicateChanges) (target : Int) :
    Acyclic (changes.apply target predicates) := by
  have henabled : ∀ {ps} (b v : Bool), Acyclic ps →
      Acyclic (if b then eventPredicateSetEnabled ps target v else ps) := by
    intro ps b v hps
    cases b with
    | false => exact hps
    | true => exact hps.assign target fun _ => rfl
  have hinverted : ∀ {ps} (b v : Bool), Acyclic ps →
      Acyclic (if b then eventPredicateSetInverted ps target v else ps) := by
    intro ps b v hps
    cases b with
    | false => exact hps
    | true => exact hps.assign target fun _ => rfl
  exact hinverted _ _ (hinverted _ _ (henabled _ _ (henabled _ _ hacyclic)))

theorem modifyPredicateUpdate_ok (hacyclic : Acyclic predicates) (node : ModifyPredicateGraphNode)
    (e : EventNode) :
    ∃ predicates', modifyPredicateUpdate node predicates e = .ok predicates' ∧
      Acyclic predicates' := by
  have haccepts := eventPredicateAccepts_ok hacyclic e
  obtain ⟨onEnabled, h₁⟩ := haccepts
    (if (eventPredicateGet predicates node.target).enabled then node.disableOn else node.enableOn)
  obtain ⟨onInverted, h₂⟩ := haccepts
    (if (eventPredicateGet predicates node.target).inverted then node.uninvertOn else node.invertOn)
  simp only [modifyPredicateUpdate, predicateChanges, h₁, h₂, bind, Except.bind]
  exact ⟨_, rfl, hacyclic.apply _ _⟩

theorem nodeEffect_overflows (h : node.Overflows e.data) :
    nodeEffect n node predicates e = .error .overflow := by
  obtain ⟨houtputs, node', hkind, hoverflows⟩ := h
  rw [nodeEffect, hkind]
  exact if_pos ⟨houtputs, hoverflows⟩

/-- Without cycles among the predicates only a division fails, and a handler keeps them so. -/
theorem nodeEffect_ok (hacyclic : Acyclic predicates) (htype : node.kind.type.unbuffered)
    (hfits : ¬node.Overflows e.data) :
    ∃ eff, nodeEffect n node predicates e = .ok eff ∧ Acyclic eff.predicates := by
  have htransform : ∀ update, Acyclic (transformEffect node predicates e update).predicates := by
    intro update
    rw [transformEffect]
    split <;> exact hacyclic
  rw [nodeEffect]
  split
  case h_2 router _ =>
    obtain ⟨accepted, haccepted⟩ := acceptedOutputs_ok hacyclic node.outputs e le_rfl
    exact ⟨_, (bind_eq_ok_iff _ _ _).mpr ⟨accepted, haccepted, rfl⟩, hacyclic⟩
  case h_4 node' _ =>
    obtain ⟨predicates', hupdate, hacyclic'⟩ := modifyPredicateUpdate_ok hacyclic node' e
    exact ⟨_, (bind_eq_ok_iff _ _ _).mpr ⟨predicates', hupdate, rfl⟩, hacyclic'⟩
  case h_8 node' hkind =>
    rw [if_neg fun ⟨houtputs, hoverflows⟩ => hfits ⟨houtputs, node', hkind, hoverflows⟩]
    exact ⟨_, rfl, htransform _⟩
  case h_1 | h_9 | h_10 => exact ⟨_, rfl, hacyclic⟩
  case h_11 hkind | h_12 hkind | h_13 hkind =>
    rw [hkind] at htype
    cases htype
  all_goals exact ⟨_, rfl, htransform _⟩

end

end EventSeq
