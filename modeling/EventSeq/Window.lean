import EventSeq.Graph

/-!
# The window node (`nodes/window.c`)

The node keeps the events it has buffered in the event list, at its own position, and hides them by
membership in `buffered_set`.  The loops are bounded by the depth of the platform and diverge beyond
it.
-/

namespace EventSeq

/-! ## The event set -/

/-- The bytes of the key are those of the function's own parameter, which still hold the pointer when
they are read. -/
def hashEventPtr (P : Platform) (ptr : Option Addr) : HashTableKey (Option Addr) :=
  hashTableKeyFromBytes P.preHash (some ptr)

def eventSetHas (P : Platform) (set : HashTable (Option Addr) Bool) (element : Addr) :
    Except Fault Bool := do
  .ok (decide ((← hashTableFindImpl set (hashEventPtr P (some element))) ≥ 0))

def eventSetAdd (P : Platform) (set : HashTable (Option Addr) Bool) (element : Addr) (draws : Nat) :
    Except Fault (HashTable (Option Addr) Bool × Nat) := do
  let (_, set, draws) ←
    hashTableInsertImpl P.members P.depth set (hashEventPtr P (some element)) true draws
  .ok (set, draws)

def eventSetDel (P : Platform) (set : HashTable (Option Addr) Bool) (element : Option Addr) :
    Except Fault (HashTable (Option Addr) Bool) := do
  let (_, set) ← hashTableDeleteByKeyImpl set (hashEventPtr P element)
  .ok set

/-! ## Creation -/

/-- The resolved fields of the option `terminator`. -/
structure TerminatorOptions where
  namespace_ : Int
  major : Int
  minor : Int
  payload : Int
deriving DecidableEq, Repr

/-- The resolved options of the node; `none` stands for a setting that is missing. -/
structure WindowOptions where
  isJumping : Int
  additionalStep : Int
  maxLength : Option Int
  maxMilliseconds : Option Int
  terminator : Option TerminatorOptions
deriving DecidableEq, Repr

def loadEventPrototype (setting : TerminatorOptions) (proto : EventData) : EventData :=
  { proto with
    code := ⟨UInt32.ofInt setting.namespace_, UInt16.ofInt setting.major,
      UInt16.ofInt setting.minor⟩
    payload := Int64.ofInt setting.payload }

/-- The terminator before its option is loaded. -/
def defaultTerminator : EventData where
  code := ⟨0, 0, 0⟩
  ttl := 0
  priority := 10
  payload := 0
  modifiers := emptyModifierSet
  time := ⟨⟨0, 0⟩⟩

/-- `create`, which draws the hash function of `buffered_set`. -/
def windowCreate (P : Platform) (options : WindowOptions) (draws : Nat) : WindowGraphNode × Nat :=
  let maxLength := options.maxLength.getD 0
  let maxLength := if maxLength < 0 then 0 else maxLength
  -- A length beyond `INT32_MAX` switches the bound off.
  let unbounded : Bool := maxLength > int32Max
  let maxMilliseconds := options.maxMilliseconds.getD 0
  let maxMilliseconds := if maxMilliseconds < 0 then 0 else maxMilliseconds
  let additionalStep := if options.additionalStep < 0 then 0 else options.additionalStep
  let (bufferedSet, draws) := hashTableInitImpl P.members draws
  ({ terminatorPrototype :=
       match options.terminator with
       | none => defaultTerminator
       | some setting => loadEventPrototype setting defaultTerminator
     hasTerminator := options.terminator.isSome
     isJumping := options.isJumping != 0
     hasMaxTime := options.maxMilliseconds.isSome
     hasMaxLength := options.maxLength.isSome && !unbounded
     maxTime := relativeTimeFromMillisecond maxMilliseconds
     maxLength := if unbounded then 0 else maxLength.toNat
     additionalStep := additionalStep.toNat
     skipNext := 0
     buffer := emptyQueue
     bufferedSet := bufferedSet }, draws)

/-! ## A new window -/

/-- The part of the world the node's functions work on. -/
structure WindowState where
  node : WindowGraphNode
  events : EventList
  draws : Nat
  log : List WindowAction
deriving DecidableEq, Repr

/-- `replicate_and_advance` on a non-null pointer: the result and the pointer afterwards. -/
def replicateAndAdvance (A : Allocator) (ptr : Addr) (l : EventList) :
    Except Fault (Option Addr × Addr × EventList) := do
  let (replicated, l) ← eventReplicate A ptr 1 l
  if replicated = 0 then .ok (none, ptr, l)
  else
    match l.next ptr with
    | none => .error .dangling
    | some next => .ok (some ptr, next, l)

/-- One copy with the given data goes to the outputs, in front of `base`. -/
def emitBefore (P : Platform) (source : GraphNode) (base : Addr) (data : EventData → EventData)
    (l : EventList) : Except Fault (Addr × EventList) := do
  let (recipient, base, l) ← replicateAndAdvance P.allocator base l
  match recipient with
  | none => .ok (base, l)
  | some recipient => do
      let l ← l.assign recipient fun e => { e with data := data e.data }
      let (_, l) ← graphNodeBroadcastForwardEvent P.allocator source recipient l
      .ok (base, l)

/-- The terminator keeps ttl, priority and time of the event it is made from. -/
def terminatorData (prototype data : EventData) : EventData :=
  { data with
    code := prototype.code, modifiers := prototype.modifiers, payload := prototype.payload }

/-- The popping loop; the first component is the part of the step that is left. -/
def popLoop (P : Platform) : Nat → WindowState → Except Fault (Nat × WindowState)
  | 0, s => .ok (0, s)
  | step + 1, s => do
      match ← queueTryPop s.node.buffer with
      -- The buffer is empty before the step is done.
      | (none, _) => .ok (step + 1, s)
      | (some event, buffer) => do
          let set ← eventSetDel P s.node.bufferedSet event
          let node := { s.node with buffer := buffer, bufferedSet := set }
          popLoop P step { s with node := node, log := s.log ++ [.popped event] }

/-- The retransmission of the events that stay in the buffer. -/
def retransmitLoop (P : Platform) (source : GraphNode) (buffer : Queue (Option Addr)) :
    List Nat → Addr → EventList → Except Fault (Addr × EventList)
  | [], base, l => .ok (base, l)
  | i :: rest, base, l =>
      match buffer.values[i]? with
      | none => .error .outOfRange
      -- A null entry is passed over.
      | some none => retransmitLoop P source buffer rest base l
      | some (some orig) =>
          match l.lookup orig with
          | none => .error .dangling
          | some orig => do
              let (base, l) ← emitBefore P source base (fun _ => orig.data) l
              retransmitLoop P source buffer rest base l

def windowStep (node : WindowGraphNode) : Nat :=
  let step := (if node.isJumping then queueLength node.buffer else 1) + node.additionalStep
  if step < 1 then 1 else step

/-- The first part of `trigger_new_window`, with the base behind the terminator. -/
def sendTerminator (P : Platform) (source : GraphNode) (base : Addr) (s : WindowState) :
    Except Fault (Addr × EventList) :=
  if s.node.hasTerminator then
    emitBefore P source base (terminatorData s.node.terminatorPrototype) s.events
  else .ok (base, s.events)

def triggerNewWindow (P : Platform) (source : GraphNode) (base : Option Addr) (s : WindowState) :
    Except Fault WindowState :=
  match base with
  | none => .ok s
  | some base => do
      let (base, events) ← sendTerminator P source base s
      let (step, s) ← popLoop P (windowStep s.node) { s with events := events }
      -- What is left of the step is made up by skipping events that are yet to come.
      let s := { s with node := { s.node with skipNext := s.node.skipNext + step } }
      let indices ← queueIndices s.node.buffer
      let (base, events) ← retransmitLoop P source s.node.buffer indices base s.events
      .ok { s with events := ← eventDestroy base events }

/-! ## The handler -/

/-- The test of the time loop: the first buffered event is too old for an event at `newTime`. -/
def windowOutlived (s : WindowState) (newTime : AbsoluteTime) : Except Fault Bool :=
  if s.node.hasMaxTime && queueLength s.node.buffer > 0 then do
    match ← queuePeek s.node.buffer with
    | none => .ok false
    | some firstEvent =>
        match s.events.lookup firstEvent with
        | none => .error .dangling
        | some first =>
            let delta := absoluteTimeSubAbsolute newTime first.time
            .ok (!decide (relativeTimeCmp delta s.node.maxTime ≤ 0))
  else .ok false

/-- The loop that closes windows for the sake of time.  The event of the call stands at the
original node first; each round moves it to a replica and spends the node.  The first component is
the event, and is `none` when a replica could not be made. -/
def timeLoop (P : Platform) (self : Nat) (source : GraphNode) (newTime : AbsoluteTime) :
    Nat → Addr → WindowState → Except Fault (Option Addr × WindowState)
  | 0, _, _ => .error .diverges
  | fuel + 1, event, s => do
      if ← windowOutlived s newTime then
        let (replacement, event, events) ← replicateAndAdvance P.allocator event s.events
        match replacement with
        | none => .ok (none, { s with events := events })
        | some replacement => do
            let events ← events.assign event fun e => { e with position := some (.node self) }
            let events ← events.assign replacement fun e => { e with position := none }
            let s ← triggerNewWindow P source (some replacement) { s with events := events }
            timeLoop P self source newTime fuel event s
      else .ok (some event, s)

/-- The loop that closes windows for the sake of length. -/
def lengthLoop (P : Platform) (source : GraphNode) (threshold : Nat) :
    Nat → Addr → WindowState → Except Fault (Addr × WindowState)
  | 0, _, _ => .error .diverges
  | fuel + 1, replacement, s =>
      if queueLength s.node.buffer ≥ threshold then do
        let (base, replacement, events) ← replicateAndAdvance P.allocator replacement s.events
        let s ← triggerNewWindow P source base { s with events := events }
        lengthLoop P source threshold fuel replacement s
      else .ok (replacement, s)

/-- The copy the outputs get when the event arrives. -/
def passThrough (P : Platform) (source : GraphNode) (event : Addr) (s : WindowState) :
    Except Fault WindowState := do
  let (replicated, events) ← eventReplicate P.allocator event 1 s.events
  if replicated = 0 then .ok { s with events := events }
  else
    match events.next event with
    | none => .error .dangling
    | some copy => do
        let (_, events) ← graphNodeBroadcastForwardEvent P.allocator source copy events
        .ok { s with events := events, log := s.log ++ [.forwarded event] }

def bufferEvent (P : Platform) (event : Addr) (s : WindowState) : Except Fault WindowState := do
  let (_, buffer) ← queuePut s.node.buffer (some event)
  let (set, draws) ← eventSetAdd P s.node.bufferedSet event s.draws
  let node := { s.node with buffer := buffer, bufferedSet := set }
  .ok { s with node := node, draws := draws, log := s.log ++ [.buffered event] }

def closeByLength (P : Platform) (source : GraphNode) (replacement : Addr) (s : WindowState) :
    Except Fault (Addr × WindowState) :=
  if s.node.hasMaxLength then lengthLoop P source s.node.maxLength P.depth replacement s
  else .ok (replacement, s)

/-- What the handler does with an event it neither hides nor skips. -/
def windowAccept (P : Platform) (source : GraphNode) (event : Addr) (s : WindowState) :
    Except Fault WindowState := do
  let (replicated, events) ← eventReplicate P.allocator event 1 s.events
  -- A replacement stands behind the copies that are passed through.
  let replacement := if replicated = 0 then none else events.next event
  let s ← passThrough P source event { s with events := events }
  let s ← bufferEvent P event s
  match replacement with
  | none => .ok s
  | some replacement => do
      let (replacement, s) ← closeByLength P source replacement s
      .ok { s with events := ← eventDestroy replacement s.events }

/-- What the handler of a window node starts with. -/
def World.windowState (w : World) (window : WindowGraphNode) : WindowState :=
  ⟨window, w.events, w.draws, []⟩

/-- The world with the results of a handler call of the window node `n`. -/
def World.putWindow (w : World) (n : Nat) (s : WindowState) (waiting : Bool) : World :=
  { w with
    events := s.events
    nodes := w.nodes.modify n fun node =>
      { node with kind := .window s.node, waitingNewEvent := waiting }
    draws := s.draws
    log := w.log ++ s.log.map fun action => (n, action) }

def windowHandleEvent (P : Platform) (w : World) (n : Nat) (window : WindowGraphNode)
    (event : Addr) : Except Fault (Bool × World) := do
  let source ← w.node n
  let e ← w.lookup event
  -- A buffered event stays in the list, at this node, and is passed by.
  if ← eventSetHas P window.bufferedSet event then .ok (false, w)
  else do
    let s : WindowState := { node := window, events := w.events, draws := w.draws, log := [] }
    match ← timeLoop P n source e.time P.depth event s with
    -- Without a replica the event stays, with the windows closed so far.
    | (none, s) => .ok (false, w.putWindow n s source.waitingNewEvent)
    | (some event, s) =>
        if s.node.skipNext > 0 then
          let s := { s with
            node := { s.node with skipNext := s.node.skipNext - 1 }
            log := s.log ++ [.skipped event] }
          .ok (true, w.putWindow n s source.waitingNewEvent)
        else do
          let s ← windowAccept P source event s
          .ok (true, w.putWindow n s true)

end EventSeq
