import EventSeq.Handlers
import EventSeq.NodeCreation

/-!
# Streams of payloads through one node

The payloads that a node takes in the course of a run, and those it puts into the copies it sends on.
Between two calls of its handler anything may happen to the rest of the world.
-/

namespace EventSeq

open Lib

/-- The payload that a call of a handler takes, the outputs of the node, and the events it leaves in
place of its event. -/
structure HandlerCall where
  payload : Int64
  outputs : List (Option Nat)
  copies : List EventNode
deriving DecidableEq, Repr

/-- A call of the handler of a node in the state `kind` that has outputs, in whatever world. -/
def Handles (P : Platform) (n : Nat) (kind : NodeKind) (call : HandlerCall) (kind' : NodeKind) :
    Prop :=
  ∃ (w w' : World) (node node' : GraphNode) (pre post : List EventNode) (e : EventNode),
    w.SplitAt pre e post ∧ w.nodes[n]? = some node ∧ node.kind = kind ∧
      node.outputs = call.outputs ∧ node.outputs ≠ [] ∧ e.data.payload = call.payload ∧
      nodeHandleEvent P w n e.addr = .ok (true, w') ∧
      w'.events.nodes = pre ++ (call.copies ++ post) ∧ w'.nodes[n]? = some node' ∧
      node'.kind = kind'

/-- A handler of the node that returns forwards the event after this change of the event and of the
state of the node. -/
def Forwards (kind : NodeKind) (update : EventData → EventData × NodeKind) : Prop :=
  kind.type.unbuffered ∧ ∀ {n : Nat} {node : GraphNode} predicates e eff, node.kind = kind →
    nodeEffect n node predicates e = .ok eff → eff = transformEffect node predicates e update

theorem forwards_differentiate (node : DifferentiateGraphNode) :
    Forwards (.differentiate node) (differentiateUpdate node) :=
  ⟨rfl, fun predicates e eff hkind heff => by
    rw [nodeEffect, hkind] at heff
    exact (Except.ok.inj heff).symm⟩

theorem forwards_integrate (node : IntegrateGraphNode) :
    Forwards (.integrate node) (integrateUpdate node) :=
  ⟨rfl, fun predicates e eff hkind heff => by
    rw [nodeEffect, hkind] at heff
    exact (Except.ok.inj heff).symm⟩

theorem forwards_scale (node : ScaleGraphNode) : Forwards (.scale node) (scaleUpdate node) := by
  refine ⟨rfl, fun predicates e eff hkind heff => ?_⟩
  rw [nodeEffect, hkind] at heff
  dsimp only at heff
  split at heff
  · cases heff
  · exact (Except.ok.inj heff).symm

section

variable {P : Platform} {n : Nat} {call : HandlerCall} {kind kind' : NodeKind}
  {update : EventData → EventData × NodeKind}

/-- What the handler of such a node does with its event. -/
theorem Handles.forwards (hforwards : Forwards kind update) (h : Handles P n kind call kind') :
    ∃ data : EventData, data.payload = call.payload ∧ kind' = (update data).2 ∧
      (call.copies.map EventNode.placed).Sublist (copiesFor call.outputs (update data).1) ∧
      (P.allocator.Succeeds →
        call.copies.map EventNode.placed = copiesFor call.outputs (update data).1) := by
  obtain ⟨w, w', node, node', pre, post, e, hw, hnode, hkind, houtputs, hne, hpayload, hrun, hcopies,
    hnode', hkind'⟩ := h
  have himpl := nodeHandleEvent_implements P hw hnode (hkind ▸ hforwards.1)
  cases heff : nodeEffect n node w.predicates e with
  | error f =>
      rw [heff, hrun] at himpl
      cases himpl
  | ok eff =>
  obtain rfl := hforwards.2 w.predicates e eff hkind heff
  rw [heff, transformEffect, if_neg hne, houtputs] at himpl
  obtain ⟨outs, mallocs, hrun', -, hsub, hall⟩ := himpl
  rw [hrun] at hrun'
  cases hrun'
  have hsame : outs = call.copies := by
    have hlist : pre ++ (outs ++ post) = pre ++ (call.copies ++ post) := hcopies
    simpa using hlist
  subst hsame
  refine ⟨e.data, hpayload, ?_, hsub, hall⟩
  -- Only this node has changed its state, to the one of the update.
  simp only [World.afterEffect, List.getElem?_modify_eq, hnode] at hnode'
  cases hnode'
  exact hkind'.symm

theorem payload_of_mem_copies {outputs : List (Option Nat)} {data : EventData} {es : List EventNode}
    (hsub : (es.map EventNode.placed).Sublist (copiesFor outputs data)) {o : EventNode}
    (ho : o ∈ es) : o.data.payload = data.payload := by
  obtain ⟨output, -, hout⟩ := List.mem_filterMap.mp (hsub.subset (List.mem_map_of_mem ho))
  obtain ⟨c, -, hc⟩ := Option.map_eq_some_iff.mp hout
  have hdata : data = o.data := congrArg Prod.snd hc
  rw [hdata]

/-- The call puts this payload into all that it sends, and unless an allocation fails it sends an
event to each connected output. -/
def HandlerCall.Sends (A : Allocator) (call : HandlerCall) (payload : Int64) : Prop :=
  (∀ o ∈ call.copies, o.data.payload = payload) ∧
    (A.Succeeds → ∀ c, some c ∈ call.outputs →
      ∃ o ∈ call.copies, o.position = some (.channel c))

theorem Handles.sends (hforwards : Forwards kind update) (h : Handles P n kind call kind') :
    ∃ data : EventData, data.payload = call.payload ∧ kind' = (update data).2 ∧
      call.Sends P.allocator (update data).1.payload := by
  obtain ⟨data, hpayload, hkind, hsub, hall⟩ := h.forwards hforwards
  refine ⟨data, hpayload, hkind, fun o ho => payload_of_mem_copies hsub ho, fun hA c hc => ?_⟩
  have hmem : (some (.channel c), (update data).1) ∈ copiesFor call.outputs (update data).1 :=
    List.mem_filterMap.mpr ⟨some c, hc, rfl⟩
  rw [← hall hA] at hmem
  obtain ⟨o, ho, hplaced⟩ := List.mem_map.mp hmem
  exact ⟨o, ho, congrArg Prod.fst hplaced⟩

/-! ## Differentiate and integrate -/

theorem Handles.differentiate {a : Int64} (h : Handles P n (.differentiate ⟨a⟩) call kind') :
    kind' = .differentiate ⟨call.payload⟩ ∧ call.Sends P.allocator (call.payload - a) := by
  obtain ⟨data, hpayload, hkind, hsends⟩ := h.sends (forwards_differentiate _)
  rw [← hpayload]
  exact ⟨hkind, hsends⟩

theorem Handles.integrate {a : Int64} (h : Handles P n (.integrate ⟨a⟩) call kind') :
    kind' = .integrate ⟨a + call.payload⟩ ∧ call.Sends P.allocator (a + call.payload) := by
  obtain ⟨data, hpayload, hkind, hsends⟩ := h.sends (forwards_integrate _)
  rw [← hpayload]
  exact ⟨hkind, hsends⟩

end

/-- The second call takes a payload that the first one sends. -/
def HandlerCall.Feeds (call call' : HandlerCall) : Prop :=
  ∃ o ∈ call.copies, o.data.payload = call'.payload

/-- The second call sends the payload that the first one takes, plus `shift`. -/
def HandlerCall.Reproduces (A : Allocator) (shift : Int64) (call call' : HandlerCall) : Prop :=
  call'.Sends A (call.payload + shift)

abbrev StreamTransition := Transition NodeKind HandlerCall

/-- Event by event, the first node feeds the second one. -/
def Feeds (τ τ' : List StreamTransition) : Prop :=
  List.Forall₂ (fun x x' => x.label.Feeds x'.label) τ τ'

/-- Event by event, the second node sends what the first one takes, plus `shift`. -/
def Reproduces (A : Allocator) (shift : Int64) (τ τ' : List StreamTransition) : Prop :=
  List.Forall₂ (fun x x' => x.label.Reproduces A shift x'.label) τ τ'

section

variable {P P' : Platform} {n n' : Nat} {a b : Int64} {τ τ' : List StreamTransition}
  {kind kind' : NodeKind}

/-- The total of the second node stays ahead of the last payload of the first one by `b - a`. -/
theorem differentiate_then_integrate (h : Run (Handles P n) (.differentiate ⟨a⟩) τ kind)
    (h' : Run (Handles P' n') (.integrate ⟨b⟩) τ' kind') (hfeeds : Feeds τ τ') :
    Reproduces P'.allocator (b - a) τ τ' := by
  -- The invariant relates the states of the two nodes between two events.
  let ahead (kind kind' : NodeKind) : Prop := ∃ previous total : Int64,
    kind = .differentiate ⟨previous⟩ ∧ kind' = .integrate ⟨total⟩ ∧ total - previous = b - a
  refine Run.coupled ahead HandlerCall.Feeds (HandlerCall.Reproduces P'.allocator (b - a)) ?_ h h'
    ⟨a, b, rfl, rfl, rfl⟩ hfeeds
  rintro _ call t _ call' t' hstep hstep' ⟨previous, total, rfl, rfl, hahead⟩ ⟨o, ho, hfed⟩
  obtain ⟨rfl, hsends⟩ := hstep.differentiate
  obtain ⟨rfl, hsends'⟩ := hstep'.integrate
  have hdifference : call'.payload = call.payload - previous := by
    rw [← hfed, hsends.1 o ho]
  have hsum : total + call'.payload = call.payload + (b - a) := by
    rw [hdifference, ← hahead]
    grind
  refine ⟨⟨call.payload, total + call'.payload, rfl, rfl, ?_⟩, ?_⟩
  · rw [hsum]
    grind
  · rwa [hsum] at hsends'

/-- The last payload of the second node is the total of the first one. -/
theorem integrate_then_differentiate (h : Run (Handles P n) (.integrate ⟨a⟩) τ kind)
    (h' : Run (Handles P' n') (.differentiate ⟨a⟩) τ' kind') (hfeeds : Feeds τ τ') :
    Reproduces P'.allocator 0 τ τ' := by
  -- Between two events both nodes store the same value.
  let level (kind kind' : NodeKind) : Prop := ∃ total : Int64,
    kind = .integrate ⟨total⟩ ∧ kind' = .differentiate ⟨total⟩
  refine Run.coupled level HandlerCall.Feeds (HandlerCall.Reproduces P'.allocator 0) ?_ h h'
    ⟨a, rfl, rfl⟩ hfeeds
  rintro _ call t _ call' t' hstep hstep' ⟨total, rfl, rfl⟩ ⟨o, ho, hfed⟩
  obtain ⟨rfl, hsends⟩ := hstep.integrate
  obtain ⟨rfl, hsends'⟩ := hstep'.differentiate
  have hsum : call'.payload = total + call.payload := by
    rw [← hfed, hsends.1 o ho]
  have hdifference : call'.payload - total = call.payload + 0 := by
    rw [hsum]
    grind
  refine ⟨⟨total + call.payload, rfl, by rw [hsum]⟩, ?_⟩
  rwa [hdifference] at hsends'

end

/-- Of two nodes the second of which takes what the first one sends, a `differentiate` node and an
`integrate` node with the same initial value undo each other, in either order; with the initial
values `a` and `b` an `integrate` node behind a `differentiate` node adds `b - a`. -/
theorem differentiate_integrate_inverse (P P' : Platform) (n n' : Nat) (a b : Int64)
    (τ τ' : List StreamTransition) (kind kind' : NodeKind) (hfeeds : Feeds τ τ') :
    (Run (Handles P n) (.differentiate ⟨a⟩) τ kind →
      Run (Handles P' n') (.integrate ⟨a⟩) τ' kind' → Reproduces P'.allocator 0 τ τ') ∧
    (Run (Handles P n) (.integrate ⟨a⟩) τ kind →
      Run (Handles P' n') (.differentiate ⟨a⟩) τ' kind' → Reproduces P'.allocator 0 τ τ') ∧
    (Run (Handles P n) (.differentiate ⟨a⟩) τ kind →
      Run (Handles P' n') (.integrate ⟨b⟩) τ' kind' → Reproduces P'.allocator (b - a) τ τ') := by
  refine ⟨fun h h' => ?_, fun h h' => integrate_then_differentiate h h' hfeeds,
    fun h h' => differentiate_then_integrate h h' hfeeds⟩
  have hshift := differentiate_then_integrate h h' hfeeds
  rwa [Int64.sub_self] at hshift

/-- A world with one event, at a node with one output. -/
def streamWorld (kind : NodeKind) (payload : Int64) : World where
  events := ⟨[⟨7, some (.node 0), 0, { (default : EventData) with payload := payload }⟩], 0⟩
  nodes := [⟨false, [], [some 0], kind⟩]
  channels := []
  predicates := []
  deliveries := []
  draws := 0
  log := []

def streamCall (payload sent : Int64) : HandlerCall where
  payload := payload
  outputs := [some 0]
  copies := [⟨7, some (.channel 0), 0, { (default : EventData) with payload := sent }⟩]

theorem handles_differentiate (a x : Int64) :
    Handles simplePlatform 0 (.differentiate ⟨a⟩) (streamCall x (x - a)) (.differentiate ⟨x⟩) :=
  ⟨streamWorld (.differentiate ⟨a⟩) x, _, ⟨false, [], [some 0], .differentiate ⟨a⟩⟩, _, [], [], _,
    ⟨rfl, by simp [streamWorld, EventList.addrs]⟩, rfl, rfl, rfl, List.cons_ne_nil _ _, rfl, rfl, rfl,
    rfl, rfl⟩

theorem handles_integrate (a x : Int64) :
    Handles simplePlatform 0 (.integrate ⟨a⟩) (streamCall x (a + x)) (.integrate ⟨a + x⟩) :=
  ⟨streamWorld (.integrate ⟨a⟩) x, _, ⟨false, [], [some 0], .integrate ⟨a⟩⟩, _, [], [], _,
    ⟨rfl, by simp [streamWorld, EventList.addrs]⟩, rfl, rfl, rfl, List.cons_ne_nil _ _, rfl, rfl, rfl,
    rfl, rfl⟩

def initialOptions : SettingTree := .group none [.int (some "initial") 3]

theorem differentiate_integrate_inverse_two :
    differentiateCreate treePlatform (createTable 5 ⟨1, 0⟩) (some initialOptions) = .ok ⟨3⟩ ∧
    integrateCreate treePlatform (createTable 5 ⟨1, 0⟩) (some initialOptions) = .ok ⟨3⟩ ∧
    ∃ (τ τ' : List StreamTransition) (kind kind' : NodeKind),
      Run (Handles simplePlatform 0) (.differentiate ⟨3⟩) τ kind ∧
      Run (Handles simplePlatform 0) (.integrate ⟨3⟩) τ' kind' ∧
      τ.map (fun x => x.label.payload) = [5, 2] ∧ Feeds τ τ' ∧
      Reproduces Allocator.next 0 τ τ' := by
  have hrun := Run.cons (handles_differentiate 3 5) (.cons (handles_differentiate 5 2) (.nil _))
  have hrun' := Run.cons (handles_integrate 3 2) (.cons (handles_integrate 5 (-3)) (.nil _))
  have hfeeds : Feeds
      [⟨.differentiate ⟨3⟩, streamCall 5 2, .differentiate ⟨5⟩⟩,
        ⟨.differentiate ⟨5⟩, streamCall 2 (-3), .differentiate ⟨2⟩⟩]
      [⟨.integrate ⟨3⟩, streamCall 2 5, .integrate ⟨5⟩⟩,
        ⟨.integrate ⟨5⟩, streamCall (-3) 2, .integrate ⟨2⟩⟩] := by
    refine .cons ⟨_, List.mem_singleton.mpr rfl, rfl⟩ (.cons ⟨_, List.mem_singleton.mpr rfl, rfl⟩ .nil)
  exact ⟨by decide +kernel, by decide +kernel, _, _, _, _, hrun, hrun', rfl, hfeeds,
    (differentiate_integrate_inverse simplePlatform simplePlatform 0 0 3 3 _ _ _ _ hfeeds).1 hrun hrun'⟩

end EventSeq
