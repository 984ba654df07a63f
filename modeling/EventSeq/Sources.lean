import EventSeq.Graph

/-!
# The sources (`nodes/evdev.c`, `nodes/getchar.c`)

The `handle_io` callbacks.  What the device or the standard input delivers and what the clocks show
during a call are its arguments.
-/

namespace EventSeq

/-- The loop both sources end with: one event for each output connector. -/
def createForOutputs (A : Allocator) (data : EventData) : List (Option Nat) → EventList → EventList
  | [], l => l
  | output :: outputs, l =>
      match eventCreate A data l with
      | (none, l) => l
      | (some ev, l) =>
          -- The event has just been put into the list.
          createForOutputs A data outputs
            (l.update ev fun e => { e with position := output.map Position.channel })

/-! ## `evdev` -/

/-- `struct input_event`. -/
structure InputEvent where
  sec : Int
  usec : Int
  type : UInt16
  code : UInt16
  value : Int32
deriving DecidableEq, Repr

/-- Why `libevdev_next_event` yields no further event. -/
inductive EvdevEnd where
  | again
  | failed
deriving DecidableEq, Repr

structure EvdevInput where
  realtime : AbsoluteTime
  monotime : AbsoluteTime
  events : List InputEvent
  ending : EvdevEnd
deriving DecidableEq, Repr

def evdevEventData (node : SourceGraphNode) (realtimeAdj : RelativeTime) (buf : InputEvent) :
    EventData :=
  let realtime : AbsoluteTime := ⟨⟨buf.sec, buf.usec * 1000⟩⟩
  { code := ⟨node.namespace_.toUInt32, buf.type, buf.code⟩
    ttl := 100
    priority := 10
    payload := buf.value.toInt64
    modifiers := emptyModifierSet
    time := absoluteTimeSubRelative realtime realtimeAdj }

def evdevHandleIo (P : Platform) (w : World) (n : Nat) (source : SourceGraphNode)
    (input : EvdevInput) : Except Fault World := do
  let node ← w.node n
  let realtimeAdj := absoluteTimeSubAbsolute input.realtime input.monotime
  let events := input.events.foldl
    (fun l buf => createForOutputs P.allocator (evdevEventData source realtimeAdj buf)
      node.outputs l) w.events
  let source := if input.ending = .failed then { source with enabled := false } else source
  .ok ({ w with events := events }.setNode n fun node => { node with kind := .evdev source })

/-! ## `getchar` -/

/-- The result of `read` on the standard input. -/
inductive ReadStatus where
  | failed
  | ended
  | byte (b : UInt8)
deriving DecidableEq, Repr

structure GetcharInput where
  status : ReadStatus
  now : AbsoluteTime
deriving DecidableEq, Repr

/-- The event for a read that did not fail.  The configured namespace plays no part in it. -/
def getcharEventData (minor : UInt16) (payload : Int64) (now : AbsoluteTime) : EventData where
  code := ⟨0, 0, minor⟩
  ttl := 100
  priority := 10
  payload := payload
  modifiers := emptyModifierSet
  time := now

def getcharHandleIo (P : Platform) (w : World) (n : Nat) (source : SourceGraphNode)
    (input : GetcharInput) : Except Fault World := do
  let node ← w.node n
  match input.status with
  | .failed => .ok w
  | .ended =>
      let events := createForOutputs P.allocator (getcharEventData 2 0 input.now) node.outputs
        w.events
      .ok ({ w with events := events }.setNode n fun node =>
        { node with kind := .getchar { source with enabled := false } })
  | .byte b =>
      let events := createForOutputs P.allocator
        (getcharEventData 1 (Int64.ofNat b.toNat) input.now) node.outputs w.events
      .ok { w with events := events }

/-! ## Reading from a source -/

inductive SourceInput where
  | evdev (input : EvdevInput)
  | getchar (input : GetcharInput)
deriving DecidableEq, Repr

/-- The callback of the source `n`, which gets what its kind of source reads. -/
def handleIo (P : Platform) (w : World) (n : Nat) (input : SourceInput) : Except Fault World := do
  let node ← w.node n
  match node.kind, input with
  | .evdev source, .evdev input => evdevHandleIo P w n source input
  | .getchar source, .getchar input => getcharHandleIo P w n source input
  | _, _ => .error .dangling

/-- The `namespace` field as both `create` functions fill it from the resolved constant. -/
def sourceCreate (namespaceConstant : Int) : SourceGraphNode where
  enabled := true
  namespace_ := Int32.ofInt namespaceConstant

/-! ## What a read does to the list -/

/-- The contents of the events a read creates, in the order of creation. -/
def readData : NodeKind → SourceInput → List EventData
  | .evdev source, .evdev input =>
      input.events.map
        (evdevEventData source (absoluteTimeSubAbsolute input.realtime input.monotime))
  | .getchar _, .getchar ⟨.ended, now⟩ => [getcharEventData 2 0 now]
  | .getchar _, .getchar ⟨.byte b, now⟩ => [getcharEventData 1 (Int64.ofNat b.toNat) now]
  | _, _ => []

def createAll (A : Allocator) (outputs : List (Option Nat)) (datas : List EventData)
    (l : EventList) : EventList :=
  datas.foldl (fun l data => createForOutputs A data outputs l) l

/-- `namespace` of a source. -/
def NodeKind.sourceNamespace : NodeKind → Option Int32
  | .evdev source | .getchar source => some source.namespace_
  | _ => none

theorem handleIo_cases {P : Platform} {w w' : World} {n : Nat} {input : SourceInput}
    (h : handleIo P w n input = .ok w') :
    ∃ node kind, w.nodes[n]? = some node ∧
      w' = { w with
        events := createAll P.allocator node.outputs (readData node.kind input) w.events
        nodes := w.nodes.modify n fun node => { node with kind := kind } } ∧
      kind.type = node.kind.type ∧ kind.sourceNamespace = node.kind.sourceNamespace := by
  simp only [handleIo, World.node] at h
  cases hnode : w.nodes[n]? with
  | none =>
      rw [hnode] at h
      cases h
  | some node =>
      simp only [hnode, bind, Except.bind] at h
      refine ⟨node, ?_⟩
      split at h
      · -- an evdev node creates an event for each one that was read
        rename_i source input hkind
        simp only [evdevHandleIo, World.node, hnode, bind, Except.bind, Except.ok.injEq] at h
        refine ⟨.evdev (if input.ending = .failed then { source with enabled := false } else source),
          rfl, ?_, ?_, ?_⟩
        · rw [← h, hkind, readData, createAll, List.foldl_map]
          rfl
        · rw [hkind]
          rfl
        · rw [hkind]
          split <;> rfl
      · rename_i source input hkind
        obtain ⟨status, now⟩ := input
        simp only [getcharHandleIo, World.node, hnode, bind, Except.bind] at h
        cases status with
        | failed =>
            cases h
            refine ⟨node.kind, rfl, ?_, rfl, rfl⟩
            rw [modify_kind_self hnode, hkind]
            rfl
        | ended =>
            cases h
            exact ⟨.getchar { source with enabled := false }, rfl, by rw [hkind]; rfl,
              by rw [hkind]; rfl, by rw [hkind]; rfl⟩
        | byte b =>
            cases h
            refine ⟨node.kind, rfl, ?_, rfl, rfl⟩
            rw [modify_kind_self hnode, hkind]
            rfl
      · cases h

/-- `l'` is `l` with events of the given contents added, each at an output connector. -/
structure AddsEvents (outputs : List (Option Nat)) (datas : List EventData) (l l' : EventList) :
    Prop where
  nodup : l'.addrs.Nodup
  keeps : l.nodes.Sublist l'.nodes
  added : ∀ x ∈ l'.nodes, x ∈ l.nodes ∨
    x.addr ∉ l.addrs ∧ x.data ∈ datas ∧ ∃ output ∈ outputs, x.position = output.map Position.channel

theorem AddsEvents.refl {outputs : List (Option Nat)} {datas : List EventData} {l : EventList}
    (h : l.addrs.Nodup) : AddsEvents outputs datas l l :=
  ⟨h, List.Sublist.refl _, fun _ => .inl⟩

theorem AddsEvents.trans {outputs : List (Option Nat)} {datas : List EventData}
    {l l' l'' : EventList} (h : AddsEvents outputs datas l l') (h' : AddsEvents outputs datas l' l'') :
    AddsEvents outputs datas l l'' := by
  refine ⟨h'.nodup, h.keeps.trans h'.keeps, fun x hx => ?_⟩
  rcases h'.added x hx with hold | ⟨hfresh, hx⟩
  · exact h.added x hold
  · exact .inr ⟨fun hmem => hfresh ((h.keeps.map EventNode.addr).subset hmem), hx⟩

theorem createForOutputs_adds (A : Allocator) (data : EventData) {datas : List EventData}
    (hdata : data ∈ datas) {outputs all : List (Option Nat)} (hall : ∀ o ∈ outputs, o ∈ all)
    {l : EventList} (h : l.addrs.Nodup) :
    AddsEvents all datas l (createForOutputs A data outputs l) := by
  induction outputs generalizing l with
  | nil => exact .refl h
  | cons output outputs ih =>
      rw [createForOutputs, eventCreate]
      cases hm : A.malloc l.mallocs l.addrs.toFinset with
      | none => exact ⟨h, List.Sublist.refl _, fun _ => .inl⟩
      | some a =>
          -- the new event takes its place by time and is then sent to the output
          have hfresh : a ∉ l.addrs := by simpa using A.fresh hm
          obtain ⟨nodes, mallocs⟩ := l
          obtain ⟨pre, post, hsplit, hins⟩ := insertByTime_split ⟨a, none, 0, data⟩ nodes
          obtain rfl : nodes = pre ++ post := hsplit
          have hnodup : (EventList.mk (pre ++ ⟨a, none, 0, data⟩ :: post)
              (mallocs + 1)).addrs.Nodup := by
            simp only [EventList.addrs, List.map_append, List.map_cons] at h hfresh ⊢
            grind
          have hplaced := EventList.update_split hnodup fun e =>
            { e with position := output.map Position.channel }
          simp only [hins, hplaced]
          refine AddsEvents.trans ⟨?_, ?_, ?_⟩ (ih (fun o ho => hall o (List.mem_cons_of_mem _ ho)) ?_)
          · simpa [EventList.addrs] using hnodup
          · exact List.Sublist.append_left (List.sublist_cons_self _ _) _
          · intro x hx
            simp only [List.mem_append, List.mem_cons] at hx ⊢
            rcases hx with hx | rfl | hx
            · exact .inl (.inl hx)
            · exact .inr ⟨hfresh, hdata, output, hall output List.mem_cons_self, rfl⟩
            · exact .inl (.inr hx)
          · simpa [EventList.addrs] using hnodup

/-- A read adds the events of its contents, and takes none away. -/
theorem createAll_adds (A : Allocator) (outputs : List (Option Nat)) (datas : List EventData)
    {l : EventList} (h : l.addrs.Nodup) :
    AddsEvents outputs datas l (createAll A outputs datas l) := by
  have hall : ∀ datas' ⊆ datas, ∀ {l : EventList}, l.addrs.Nodup →
      AddsEvents outputs datas l (createAll A outputs datas' l) := by
    intro datas'
    induction datas' with
    | nil => exact fun _ _ hl => .refl hl
    | cons data rest ih =>
        intro hsub l hl
        have hfirst := createForOutputs_adds A data (hsub List.mem_cons_self)
          (fun o ho => ho : ∀ o ∈ outputs, o ∈ outputs) hl
        exact hfirst.trans (ih (fun x hx => hsub (List.mem_cons_of_mem _ hx)) hfirst.nodup)
  exact hall datas (List.Subset.refl _) h

theorem createForOutputs_creates_first {A : Allocator} (data : EventData) (first : Option Nat)
    (outputs : List (Option Nat)) {l : EventList} (h : l.addrs.Nodup)
    (hm : A.malloc l.mallocs l.addrs.toFinset ≠ none) :
    ∃ x ∈ (createForOutputs A data (first :: outputs) l).nodes,
      x.addr ∉ l.addrs ∧ x.data = data ∧ x.position = first.map Position.channel := by
  obtain ⟨a, ha⟩ := Option.ne_none_iff_exists'.mp hm
  have hfresh : a ∉ l.addrs := by simpa using A.fresh ha
  have hone := createForOutputs_adds A data (List.mem_singleton.mpr rfl)
    (fun o ho => ho : ∀ o ∈ [first], o ∈ [first]) h
  simp only [createForOutputs, eventCreate, ha] at hone ⊢
  -- the events for the other outputs leave the first one where it is
  have hkeeps := (createForOutputs_adds A data (List.mem_singleton.mpr rfl)
    (fun o ho => ho : ∀ o ∈ outputs, o ∈ outputs) hone.nodup).keeps
  obtain ⟨pre, post, -, hins⟩ := insertByTime_split ⟨a, none, 0, data⟩ l.nodes
  refine ⟨⟨a, first.map .channel, 0, data⟩, hkeeps.subset ?_, hfresh, rfl, rfl⟩
  simp [EventList.update, Lib.KeyedList.modify, hins]

theorem createForOutputs_no_memory {A : Allocator} {data : EventData} {outputs : List (Option Nat)}
    {l : EventList} (hm : A.malloc l.mallocs l.addrs.toFinset = none) :
    (createForOutputs A data outputs l).nodes = l.nodes := by
  cases outputs with
  | nil => rfl
  | cons output outputs => simp only [createForOutputs, eventCreate, hm]

theorem createForOutputs_creates {A : Allocator} (hA : A.Succeeds) (data : EventData)
    {outputs : List (Option Nat)} {output : Option Nat} (houtput : output ∈ outputs)
    {l : EventList} (h : l.addrs.Nodup) :
    ∃ x ∈ (createForOutputs A data outputs l).nodes, x.position = output.map Position.channel := by
  induction outputs generalizing l with
  | nil => cases houtput
  | cons first outputs ih =>
      obtain ⟨a, ha⟩ := hA l.mallocs l.addrs.toFinset
      rcases List.mem_cons.mp houtput with rfl | hrest
      · obtain ⟨x, hx, -, -, hposition⟩ :=
          createForOutputs_creates_first data output outputs h (by rw [ha]; exact Option.some_ne_none a)
        exact ⟨x, hx, hposition⟩
      · have hone := createForOutputs_adds A data (List.mem_singleton.mpr rfl)
          (fun o ho => ho : ∀ o ∈ [first], o ∈ [first]) h
        simp only [createForOutputs, eventCreate, ha] at hone ⊢
        exact ih hrest hone.nodup

/-- A read that has something to create makes an event for each output, unconnected ones too. -/
theorem createAll_creates {A : Allocator} (hA : A.Succeeds) {datas : List EventData}
    (hdatas : datas ≠ []) {outputs : List (Option Nat)} {output : Option Nat}
    (houtput : output ∈ outputs) {l : EventList} (h : l.addrs.Nodup) :
    ∃ x ∈ (createAll A outputs datas l).nodes, x.position = output.map Position.channel := by
  obtain ⟨data, rest, rfl⟩ := List.exists_cons_of_ne_nil hdatas
  obtain ⟨x, hx, hposition⟩ := createForOutputs_creates hA data houtput h
  have hnodup := (createForOutputs_adds A data (List.mem_singleton.mpr rfl)
    (fun o ho => ho : ∀ o ∈ outputs, o ∈ outputs) h).nodup
  exact ⟨x, (createAll_adds A outputs rest hnodup).keeps.subset hx, hposition⟩

end EventSeq
