import EventSeq.Graph

/-!
# The handlers of the nodes without a buffer (`nodes/*.c`)

`tee`, `router`, `modifiers`, `modify_predicate`, `assign`, `differentiate`, `integrate`, `scale`,
`print` and `uinput`.  Each handler works on the event list in place; `nodeEffect` states what it
amounts to: the new state of the node, what it sends out and the copies that replace the event.
-/

namespace EventSeq

/-! ## Handlers that forward one changed event -/

def teeHandleEvent (P : Platform) (w : World) (n : Nat) (event : Addr) :
    Except Fault (Bool × World) := do
  let node ← w.node n
  let w ← w.broadcast P node event
  .ok (true, w)

/-- The writes of a handler to the data of an event and to the state of its node. -/
def World.write (w : World) (n : Nat) (event : Addr) (data : EventData) (kind : NodeKind) :
    Except Fault World := do
  let w ← w.assignEvent event fun e => { e with data := data }
  .ok (w.setNode n fun node => { node with kind := kind })

/-- The common shape of the handlers that change the data of the event and the state of the node
and then broadcast; without outputs the event is dropped first. -/
def transformHandleEvent (P : Platform) (w : World) (n : Nat) (event : Addr)
    (update : EventData → EventData × NodeKind) : Except Fault (Bool × World) := do
  let node ← w.node n
  let count := node.outputs.length
  if count = 0 then do .ok (true, ← w.destroyEvent event)
  else do
    let e ← w.lookup event
    let (data, kind) := update e.data
    let w ← w.write n event data kind
    let w ← w.broadcast P node event
    .ok (true, w)

def modifiersUpdate (node : ModifiersGraphNode) (data : EventData) : EventData × NodeKind :=
  ({ data with modifiers := modifierSetOperationFrom data.modifiers node.modifiers node.operation },
    .modifiers node)

def assignUpdate (node : AssignGraphNode) (data : EventData) : EventData × NodeKind :=
  let ns := if node.hasNs then node.source.code.ns else data.code.ns
  let major := if node.hasMaj then node.source.code.major else data.code.major
  let minor := if node.hasMin then node.source.code.minor else data.code.minor
  let payload := if node.hasPayload then node.source.payload else data.payload
  ({ data with code := ⟨ns, major, minor⟩, payload := payload }, .assign node)

def differentiateUpdate (node : DifferentiateGraphNode) (data : EventData) : EventData × NodeKind :=
  let current := data.payload
  ({ data with payload := current - node.previous }, .differentiate ⟨current⟩)

def integrateUpdate (node : IntegrateGraphNode) (data : EventData) : EventData × NodeKind :=
  let total := node.total + data.payload
  ({ data with payload := total }, .integrate ⟨total⟩)

/-- What the handler of a `scale` node divides; signed overflow wraps around. -/
def ScaleGraphNode.dividend (node : ScaleGraphNode) (data : EventData) : Int64 :=
  let value := (data.payload - node.center) * node.numerator
  if node.amortizeRoundingError then value + node.defect else value

/-- The least value is divided by -1. -/
def ScaleGraphNode.Overflows (node : ScaleGraphNode) (data : EventData) : Prop :=
  node.denominator = -1 ∧ node.dividend data = Int64.minValue

instance (node : ScaleGraphNode) (data : EventData) : Decidable (node.Overflows data) :=
  inferInstanceAs (Decidable (_ ∧ _))

/-- The update without a division that overflows. -/
def scaleUpdate (node : ScaleGraphNode) (data : EventData) : EventData × NodeKind :=
  let value := node.dividend data
  if node.denominator = 0 then
    ({ data with payload := value + node.center }, .scale node)
  else
    let undivided := value
    let value := value / node.denominator
    ({ data with payload := value + node.center },
      .scale { node with defect := undivided - value * node.denominator })

def modifiersHandleEvent (P : Platform) (w : World) (n : Nat) (node : ModifiersGraphNode)
    (event : Addr) : Except Fault (Bool × World) :=
  transformHandleEvent P w n event (modifiersUpdate node)

def assignHandleEvent (P : Platform) (w : World) (n : Nat) (node : AssignGraphNode)
    (event : Addr) : Except Fault (Bool × World) :=
  transformHandleEvent P w n event (assignUpdate node)

def differentiateHandleEvent (P : Platform) (w : World) (n : Nat) (node : DifferentiateGraphNode)
    (event : Addr) : Except Fault (Bool × World) :=
  transformHandleEvent P w n event (differentiateUpdate node)

def integrateHandleEvent (P : Platform) (w : World) (n : Nat) (node : IntegrateGraphNode)
    (event : Addr) : Except Fault (Bool × World) :=
  transformHandleEvent P w n event (integrateUpdate node)

def scaleHandleEvent (P : Platform) (w : World) (n : Nat) (node : ScaleGraphNode)
    (event : Addr) : Except Fault (Bool × World) := do
  let source ← w.node n
  let e ← w.lookup event
  -- Without outputs nothing is divided.
  if source.outputs ≠ [] ∧ node.Overflows e.data then .error .overflow
  else transformHandleEvent P w n event (scaleUpdate node)

/-! ## The router -/

/-- `event_predicate_apply(handle, event) == EVPREDRES_ACCEPTED`. -/
def eventPredicateAccepts (predicates : EventPredicateList) (event : EventNode) (handle : Int) :
    Except Fault Bool := do
  .ok ((← eventPredicateApply predicates handle event) == .accepted)

/-- The test of the router's loop at index `i`. -/
def routerAccepts (predicates : EventPredicateList) (node : RouterGraphNode) (i : Nat)
    (e : EventNode) : Except Fault Bool :=
  match node.predicates[i]? with
  | none => .error .outOfRange
  | some handle => eventPredicateAccepts predicates e handle

/-- The router's loop, from index `count - 1` down to 0. -/
def routerLoop (A : Allocator) (predicates : EventPredicateList) (node : RouterGraphNode)
    (outputs : List (Option Nat)) (event : Addr) : Nat → EventList → Except Fault EventList
  | 0, l => .ok l
  | i + 1, l =>
      match outputs[i]? with
      | none => routerLoop A predicates node outputs event i l
      | some output =>
          match l.lookup event with
          | none => .error .dangling
          | some e => do
              if ← routerAccepts predicates node i e then do
                let (replicated, l) ← eventReplicate A event 1 l
                if replicated = 0 then routerLoop A predicates node outputs event i l
                else
                  match l.next event with
                  | none => .error .dangling
                  | some replica => do
                      let l ← l.assign replica fun e =>
                        { e with position := output.map Position.channel }
                      let l ← if output.isNone then eventDestroy replica l else .ok l
                      routerLoop A predicates node outputs event i l
              else routerLoop A predicates node outputs event i l

def routerHandleEvent (P : Platform) (w : World) (n : Nat) (router : RouterGraphNode)
    (event : Addr) : Except Fault (Bool × World) := do
  let node ← w.node n
  let events ← routerLoop P.allocator w.predicates router node.outputs event
    router.predicates.length w.events
  .ok (true, ← { w with events := events }.destroyEvent event)

/-! ## Handlers that end the way of an event -/

/-- The local flags of `modify_predicate`'s handler. -/
structure PredicateChanges where
  shouldEnable : Bool
  shouldDisable : Bool
  shouldInvert : Bool
  shouldUninvert : Bool
deriving DecidableEq, Repr

def predicateChanges (node : ModifyPredicateGraphNode) (predicates : EventPredicateList)
    (event : EventNode) : Except Fault PredicateChanges := do
  let accepts := eventPredicateAccepts predicates event
  let targetState := eventPredicateGet predicates node.target
  let onEnabled ← accepts (if targetState.enabled then node.disableOn else node.enableOn)
  let onInverted ← accepts (if targetState.inverted then node.uninvertOn else node.invertOn)
  .ok
    { shouldEnable := !targetState.enabled && onEnabled
      shouldDisable := targetState.enabled && onEnabled
      shouldInvert := !targetState.inverted && onInverted
      shouldUninvert := targetState.inverted && onInverted }

def PredicateChanges.apply (changes : PredicateChanges) (target : Int)
    (predicates : EventPredicateList) : EventPredicateList :=
  let ps := predicates
  let ps := if changes.shouldEnable then eventPredicateSetEnabled ps target true else ps
  let ps := if changes.shouldDisable then eventPredicateSetEnabled ps target false else ps
  let ps := if changes.shouldInvert then eventPredicateSetInverted ps target true else ps
  let ps := if changes.shouldUninvert then eventPredicateSetInverted ps target false else ps
  ps

def modifyPredicateUpdate (node : ModifyPredicateGraphNode) (predicates : EventPredicateList)
    (event : EventNode) : Except Fault EventPredicateList := do
  let changes ← predicateChanges node predicates event
  .ok (changes.apply node.target predicates)

def modifyPredicateHandleEvent (w : World) (node : ModifyPredicateGraphNode) (event : Addr) :
    Except Fault (Bool × World) := do
  let e ← w.lookup event
  let predicates ← modifyPredicateUpdate node w.predicates e
  .ok (true, ← { w with predicates := predicates }.destroyEvent event)

def printHandleEvent (w : World) (event : Addr) : Except Fault (Bool × World) := do
  let e ← w.lookup event
  let w := { w with deliveries := w.deliveries ++ [Delivery.printed e.inputIndex e.data] }
  .ok (true, ← w.destroyEvent event)

def uinputHandleEvent (w : World) (n : Nat) (event : Addr) : Except Fault (Bool × World) := do
  let e ← w.lookup event
  let w := { w with
    deliveries := w.deliveries ++
      [Delivery.written n e.data.code.major e.data.code.minor e.data.payload.toInt32] }
  .ok (true, ← w.destroyEvent event)

/-! ## What a handler amounts to -/

structure NodeEffect where
  kind : NodeKind
  predicates : EventPredicateList
  deliveries : List Delivery
  copies : List (Option Position × EventData)

/-- The connectors below `count` that a router sends the event to, in ascending order. -/
def acceptedOutputs (predicates : EventPredicateList) (node : RouterGraphNode)
    (outputs : List (Option Nat)) (e : EventNode) : Nat → Except Fault (List (Option Nat))
  | 0 => .ok []
  | i + 1 =>
      match outputs[i]? with
      | none => acceptedOutputs predicates node outputs e i
      | some output => do
          let accepted ← routerAccepts predicates node i e
          let lower ← acceptedOutputs predicates node outputs e i
          .ok (lower ++ if accepted then [output] else [])

def transformEffect (node : GraphNode) (predicates : EventPredicateList) (e : EventNode)
    (update : EventData → EventData × NodeKind) : NodeEffect :=
  if node.outputs = [] then ⟨node.kind, predicates, [], []⟩
  else
    let (data, kind) := update e.data
    ⟨kind, predicates, [], copiesFor node.outputs data⟩

/-- The handler of the node divides by -1 what it must not. -/
def GraphNode.Overflows (node : GraphNode) (data : EventData) : Prop :=
  node.outputs ≠ [] ∧ ∃ node', node.kind = .scale node' ∧ node'.Overflows data

/-- The effect of a node of one of the types above on an event at it. -/
def nodeEffect (n : Nat) (node : GraphNode) (predicates : EventPredicateList) (e : EventNode) :
    Except Fault NodeEffect :=
  match node.kind with
  | .tee => .ok ⟨node.kind, predicates, [], copiesFor node.outputs e.data⟩
  | .router router => do
      let outputs ← acceptedOutputs predicates router node.outputs e router.predicates.length
      .ok ⟨node.kind, predicates, [], copiesFor outputs e.data⟩
  | .modifiers node' => .ok (transformEffect node predicates e (modifiersUpdate node'))
  | .modifyPredicate node' => do
      let predicates ← modifyPredicateUpdate node' predicates e
      .ok ⟨node.kind, predicates, [], []⟩
  | .assign node' => .ok (transformEffect node predicates e (assignUpdate node'))
  | .differentiate node' => .ok (transformEffect node predicates e (differentiateUpdate node'))
  | .integrate node' => .ok (transformEffect node predicates e (integrateUpdate node'))
  | .scale node' =>
      if node.outputs ≠ [] ∧ node'.Overflows e.data then .error .overflow
      else .ok (transformEffect node predicates e (scaleUpdate node'))
  | .print => .ok ⟨node.kind, predicates, [.printed e.inputIndex e.data], []⟩
  | .uinput =>
      .ok ⟨node.kind, predicates,
        [.written n e.data.code.major e.data.code.minor e.data.payload.toInt32], []⟩
  | .window _ | .evdev _ | .getchar _ => .error .dangling

end EventSeq
