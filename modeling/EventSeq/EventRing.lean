import EventSeq.Events
import EventSeq.Fault
import EventSeq.Lib.LinkedRing

/-!
# The linked cells of `events.c`

`event_create`, `event_replicate` and `event_destroy` as they rewire the `prev` and `next` pointers
around the sentinel `END_EVENTS`, and the proof that on a ring of cells they do what the functions
of `EventSeq.Events` do on the list of nodes.
-/

namespace EventSeq

open Lib

/-- A non-null `EventNode *`. -/
inductive Ref where
  | endEvents
  | event (a : Addr)
deriving DecidableEq, Repr

/-- The memory the event list lives in, one map for each field of `struct event_node`. -/
structure EventHeap where
  links : Links Ref
  position : Addr → Option Position
  inputIndex : Addr → Nat
  data : Addr → EventData
  live : Finset Addr
  mallocs : Nat

namespace EventHeap

/-- `END_EVENTS` linked to itself, nothing allocated. -/
def initial : EventHeap where
  links :=
    { next := fun r => if r = .endEvents then some .endEvents else none
      prev := fun r => if r = .endEvents then some .endEvents else none }
  position _ := none
  inputIndex _ := 0
  data _ := default
  live := ∅
  mallocs := 0

def node (h : EventHeap) (a : Addr) : EventNode := ⟨a, h.position a, h.inputIndex a, h.data a⟩

/-- A new cell at `a`, linked by `links`, with a null position and input index 0. -/
def alloc (h : EventHeap) (a : Addr) (data : EventData) (links : Links Ref) : EventHeap where
  links := links
  position := Function.update h.position a none
  inputIndex := Function.update h.inputIndex a 0
  data := Function.update h.data a data
  live := insert a h.live
  mallocs := h.mallocs + 1

def eventReplicate (A : Allocator) (source : Addr) : Nat → EventHeap → Except Fault (Nat × EventHeap)
  | 0, h => .ok (0, h)
  | count + 1, h =>
      match A.malloc h.mallocs h.live with
      | none => .ok (0, { h with mallocs := h.mallocs + 1 })
      | some a =>
          match h.links.insertAfter (.event source) (.event a) with
          | none => .error .dangling
          | some links => do
              let (i, h) ← eventReplicate A source count (h.alloc a (h.data source) links)
              .ok (i + 1, h)

/-- The backward walk of `event_create`.  `listPos` is the cell whose `prev` field the C variable
`list_pos` points to; stepping over `other` makes that `other->next`. -/
def descend (h : EventHeap) (selfTime : AbsoluteTime) : Nat → Ref → Option Ref → Except Fault Ref
  | fuel + 1, listPos, some (.event other) =>
      if absoluteTimeCmp selfTime (h.data other).time ≥ 0 then .ok listPos
      else
        match h.links.next (.event other) with
        | none => .error .dangling
        | some next => descend h selfTime fuel next (h.links.prev (.event other))
  | 0, _, some (.event _) => .error .diverges
  | _, listPos, some .endEvents => .ok listPos
  | _, listPos, none => .ok listPos

def eventCreate (A : Allocator) (content : EventData) (h : EventHeap) :
    Except Fault (Option Addr × EventHeap) :=
  match A.malloc h.mallocs h.live with
  | none => .ok (none, { h with mallocs := h.mallocs + 1 })
  | some a => do
      let listPos ← h.descend content.time h.live.card .endEvents (h.links.prev .endEvents)
      match h.links.prev listPos with
      | none => .error .aborts
      | some prev =>
          match h.links.insertAfter prev (.event a) with
          | none => .error .dangling
          | some links => .ok (some a, h.alloc a content links)

def eventDestroy (self : Addr) (h : EventHeap) : Except Fault EventHeap :=
  match h.links.unlink (.event self) with
  | none => .error .dangling
  | some links => .ok { h with links := links, live := h.live.erase self }

/-- `FOREACH_EVENT`: the nodes from `FIRST_EVENT` to `END_EVENTS`. -/
def readFrom (h : EventHeap) : Nat → Option Ref → List EventNode
  | fuel + 1, some (.event a) => h.node a :: h.readFrom fuel (h.links.next (.event a))
  | _, _ => []

def readEvents (h : EventHeap) : List EventNode :=
  h.readFrom h.live.card (h.links.next .endEvents)

/-! ## The cells as a list -/

def refs (l : List EventNode) : List Ref := l.map fun e => .event e.addr

/-- The cell behind which a node that follows `l` is linked. -/
def lastRef (l : List EventNode) : Ref :=
  (.endEvents :: refs l).getLast (List.cons_ne_nil _ _)

structure Represents (h : EventHeap) (l : EventList) : Prop where
  ring : h.links.IsRing .endEvents (refs l.nodes)
  cells : ∀ e ∈ l.nodes, h.node e.addr = e
  live : h.live = l.addrs.toFinset
  mallocs : h.mallocs = l.mallocs

theorem represents_initial : initial.Represents .empty where
  ring := by simp [Links.IsRing, Links.Chain, refs, initial, EventList.empty]
  cells := by simp [EventList.empty]
  live := by simp [initial, EventList.empty, EventList.addrs]
  mallocs := rfl

@[simp] theorem refs_append (l l' : List EventNode) : refs (l ++ l') = refs l ++ refs l' := by
  simp [refs]

@[simp] theorem refs_cons (e : EventNode) (l : List EventNode) :
    refs (e :: l) = .event e.addr :: refs l := rfl

@[simp] theorem lastRef_concat (l : List EventNode) (e : EventNode) :
    lastRef (l ++ [e]) = .event e.addr := by
  simp [lastRef, refs]

theorem mem_refs {a : Addr} {l : List EventNode} :
    .event a ∈ refs l ↔ a ∈ l.map EventNode.addr := by
  simp [refs]

variable {h : EventHeap} {l : EventList} {pre post : List EventNode} {e : EventNode}

theorem Represents.nodup (hr : h.Represents l) : l.addrs.Nodup := by
  have hnodup := (List.nodup_cons.mp hr.ring.1).2
  rw [refs] at hnodup
  rw [EventList.addrs]
  have : (fun e : EventNode => Ref.event e.addr) = Ref.event ∘ EventNode.addr := rfl
  rw [this, ← List.map_map] at hnodup
  exact hnodup.of_map _

theorem Represents.card (hr : h.Represents l) : h.live.card = l.nodes.length := by
  rw [hr.live, List.toFinset_card_of_nodup hr.nodup, EventList.addrs, List.length_map]

/-- A fresh cell linked into the ring is a fresh node put into the list at the same place. -/
theorem Represents.alloc (hr : h.Represents ⟨pre ++ post, h.mallocs⟩) {a : Addr}
    (ha : a ∉ h.live) (data : EventData) :
    ∃ links, h.links.insertAfter (lastRef pre) (.event a) = some links ∧
      (h.alloc a data links).Represents
        ⟨pre ++ ⟨a, none, 0, data⟩ :: post, h.mallocs + 1⟩ := by
  have ha' : a ∉ (pre ++ post).map EventNode.addr := by
    simpa [hr.live, EventList.addrs] using ha
  have hring := hr.ring
  rw [refs_append] at hring
  have hnew : Ref.event a ∉ .endEvents :: (refs pre ++ refs post) := by
    rw [← refs_append, List.mem_cons, not_or, mem_refs]
    exact ⟨by simp, ha'⟩
  obtain ⟨links, hlinks, hring'⟩ := hring.insertAfter hnew rfl
  refine ⟨links, hlinks, ?_, ?_, ?_, rfl⟩
  · simpa [EventHeap.alloc] using hring'
  · have hkeep : ∀ e ∈ pre ++ post, (h.alloc a data links).node e.addr = e := by
      intro e he
      have hne : e.addr ≠ a := fun hea => ha' (hea ▸ List.mem_map_of_mem he)
      simpa [node, EventHeap.alloc, Function.update_of_ne hne] using hr.cells e he
    intro e hmem
    rcases List.mem_append.mp hmem with he | he
    · exact hkeep e (List.mem_append_left _ he)
    · rcases List.mem_cons.mp he with rfl | he
      · simp [node, EventHeap.alloc]
      · exact hkeep e (List.mem_append_right _ he)
  · ext b
    simp [EventHeap.alloc, hr.live, EventList.addrs]

/-! ## Refinement -/

/-- Reading the ring from `FIRST_EVENT` gives the list it represents. -/
theorem Represents.readEvents (hr : h.Represents l) : h.readEvents = l.nodes := by
  have key : ∀ (xs : List EventNode) (a : Ref), h.links.Chain a (refs xs) .endEvents →
      (∀ e ∈ xs, h.node e.addr = e) → h.readFrom xs.length (h.links.next a) = xs := by
    intro xs
    induction xs with
    | nil => intro a _ _; simp [readFrom]
    | cons e xs ih =>
        intro a hchain hcells
        rw [refs_cons] at hchain
        rw [hchain.1, List.length_cons, readFrom, hcells e List.mem_cons_self,
          ih _ hchain.2.2 fun e he => hcells e (List.mem_cons_of_mem _ he)]
  rw [EventHeap.readEvents, hr.card]
  exact key l.nodes .endEvents hr.ring.2 hr.cells

theorem Represents.eventReplicate (A : Allocator) (count : Nat)
    (hr : h.Represents ⟨pre ++ e :: post, h.mallocs⟩) :
    ∃ i h' l', h.eventReplicate A e.addr count = .ok (i, h') ∧
      EventSeq.eventReplicate A e.addr count ⟨pre ++ e :: post, h.mallocs⟩ = .ok (i, l') ∧
      h'.Represents l' := by
  induction count generalizing h post with
  | zero => exact ⟨0, h, _, rfl, rfl, hr⟩
  | succ count ih =>
      have hnodup := hr.nodup
      have hpre : e.addr ∉ pre.map EventNode.addr := by
        simp only [EventList.addrs, List.map_append, List.map_cons] at hnodup
        grind
      have hlive : (EventList.addrs ⟨pre ++ e :: post, h.mallocs⟩).toFinset = h.live :=
        hr.live.symm
      simp only [EventHeap.eventReplicate, EventSeq.eventReplicate, EventList.lookup,
        KeyedList.lookup_split hpre, KeyedList.insertAfter_split hpre, hlive]
      cases hm : A.malloc h.mallocs h.live with
      | none => exact ⟨0, _, _, rfl, rfl, hr.ring, hr.cells, hr.live, rfl⟩
      | some a =>
          -- the replica goes right behind the source, in front of the earlier ones
          have hdata : h.data e.addr = e.data :=
            congrArg EventNode.data (hr.cells e (by simp))
          have hr' : h.Represents ⟨(pre ++ [e]) ++ post, h.mallocs⟩ := by simpa using hr
          obtain ⟨links, hlinks, halloc⟩ := hr'.alloc (A.fresh hm) e.data
          rw [lastRef_concat] at hlinks
          rw [List.append_assoc] at halloc
          obtain ⟨i, h', l', hrun, hrun', hrep⟩ := ih halloc
          refine ⟨i + 1, h', l', ?_, ?_, hrep⟩
          · simp only [hlinks, hdata, hrun]
            rfl
          · have hlist : EventSeq.eventReplicate A e.addr count
                ⟨pre ++ e :: ⟨a, none, 0, e.data⟩ :: post, h.mallocs + 1⟩ = .ok (i, l') := by
              simpa [EventHeap.alloc] using hrun'
            simp only [hlist]
            rfl

/-- The walk over `pre`, started where the later nodes `post` begin, stops with `list_pos` at a cell
whose `prev` is the first node it has stepped over, or the last node when it has stepped over
none. -/
theorem descend_spec (hring : h.links.IsRing .endEvents (refs (pre ++ post)))
    (hcells : ∀ e ∈ pre, h.node e.addr = e) (selfTime : AbsoluteTime) {fuel : Nat}
    (hfuel : pre.length ≤ fuel) {listPos : Ref}
    (hpos : h.links.prev listPos = some ((refs post).headD (lastRef pre))) :
    ∃ r, h.descend selfTime fuel listPos (some (lastRef pre)) = .ok r ∧
      h.links.prev r = some ((refs (pre.rtakeWhile (fun e => e.laterThan selfTime) ++ post)).headD
        (lastRef pre)) := by
  induction pre using List.reverseRecOn generalizing post fuel listPos with
  | nil =>
      refine ⟨listPos, ?_, hpos⟩
      cases fuel <;> rfl
  | append_singleton pre o ih =>
      have hdata : h.data o.addr = o.data := congrArg EventNode.data (hcells o (by simp))
      obtain ⟨fuel, rfl⟩ : ∃ k, fuel = k + 1 := ⟨fuel - 1, by simp at hfuel; omega⟩
      rw [lastRef_concat] at hpos ⊢
      rw [descend, hdata]
      -- the walk stops behind the first event from the end that is not later
      by_cases hge : absoluteTimeCmp selfTime o.time ≥ 0
      · refine ⟨listPos, if_pos hge, ?_⟩
        rw [hpos, List.rtakeWhile_concat_neg _ _ _ (by simp [EventNode.laterThan, hge]),
          List.nil_append]
      · have hchain := hring.2
        rw [List.append_assoc, refs_append, List.singleton_append, refs_cons] at hchain
        obtain ⟨hpre, hpost⟩ := Links.chain_append.mp hchain
        obtain ⟨r, hr, hprev⟩ := @ih (o :: post) (by simpa using hring)
          (fun e he => hcells e (List.mem_append_left _ he)) fuel (by simpa using hfuel) _
          (hpost.prev_head.trans (by simp))
        refine ⟨r, ?_, ?_⟩
        · rw [if_neg hge, hpost.next_head, hpre.prev_getLast]
          exact hr
        · rw [hprev, List.rtakeWhile_concat_pos _ _ _ (by simp [EventNode.laterThan, hge])]
          simp

theorem Represents.eventCreate (A : Allocator) (content : EventData) (hr : h.Represents l) :
    ∃ h', h.eventCreate A content = .ok ((EventSeq.eventCreate A content l).1, h') ∧
      h'.Represents (EventSeq.eventCreate A content l).2 := by
  obtain ⟨nodes, mallocs⟩ := l
  obtain rfl : h.mallocs = mallocs := hr.mallocs
  have hlive : (EventList.addrs ⟨nodes, h.mallocs⟩).toFinset = h.live := hr.live.symm
  simp only [EventHeap.eventCreate, EventSeq.eventCreate, hlive]
  cases hm : A.malloc h.mallocs h.live with
  | none => exact ⟨_, rfl, hr.ring, hr.cells, hr.live, rfl⟩
  | some a =>
      have hlast : h.links.prev .endEvents = some (lastRef nodes) := hr.ring.2.prev_getLast
      have hring : h.links.IsRing .endEvents (refs (nodes ++ [])) := by simpa using hr.ring
      obtain ⟨r, hwalk, hprev⟩ :=
        descend_spec hring hr.cells content.time hr.card.ge (hlast.trans (by simp [refs]))
      rw [← hlast] at hwalk
      simp only [hwalk, bind, Except.bind, hprev, insertByTime, List.append_nil]
      have hsplit : (nodes.rdropWhile fun e => e.laterThan content.time) ++
          (nodes.rtakeWhile fun e => e.laterThan content.time) = nodes :=
        List.rdropWhile_append_rtakeWhile
      -- the link that is written is that of `END_EVENTS`, or of the first later event
      cases hlater : nodes.rtakeWhile fun e => e.laterThan content.time with
      | nil =>
          have hr' : h.Represents ⟨nodes ++ [], h.mallocs⟩ := by simpa using hr
          obtain ⟨links, hlinks, halloc⟩ := hr'.alloc (A.fresh hm) content
          simp only [refs, List.map_nil, List.headD_nil, hlinks]
          exact ⟨_, rfl, halloc⟩
      | cons e rest =>
          rw [hlater] at hsplit
          have hr' : h.Represents ⟨((nodes.rdropWhile fun e => e.laterThan content.time) ++ [e]) ++
              rest, h.mallocs⟩ := by
            simpa [hsplit] using hr
          obtain ⟨links, hlinks, halloc⟩ := hr'.alloc (A.fresh hm) content
          rw [lastRef_concat] at hlinks
          simp only [refs_cons, List.headD_cons, hlinks]
          exact ⟨_, rfl, by simpa using halloc⟩

theorem Represents.eventDestroy (hr : h.Represents ⟨pre ++ e :: post, h.mallocs⟩) :
    ∃ h', h.eventDestroy e.addr = .ok h' ∧
      EventSeq.eventDestroy e.addr ⟨pre ++ e :: post, h.mallocs⟩ = .ok ⟨pre ++ post, h.mallocs⟩ ∧
      h'.Represents ⟨pre ++ post, h.mallocs⟩ := by
  have hdestroy := eventDestroy_split hr.nodup
  have hnodup := hr.nodup
  simp only [EventList.addrs, List.map_append, List.map_cons] at hnodup
  have hring := hr.ring
  rw [refs_append, refs_cons] at hring
  obtain ⟨links, hlinks, hring'⟩ := hring.unlink
  refine ⟨_, by rw [EventHeap.eventDestroy, hlinks], hdestroy, ?_⟩
  refine ⟨by simpa using hring', ?_, ?_, rfl⟩
  · intro e' he'
    exact hr.cells e' (by grind)
  · ext b
    simp only [hr.live, EventList.addrs, List.map_append, List.map_cons, Finset.mem_erase,
      List.mem_toFinset]
    grind

end EventHeap

end EventSeq
