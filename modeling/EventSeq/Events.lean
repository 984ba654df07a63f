import EventSeq.Fault
import EventSeq.Lib.KeyedList
import EventSeq.Modifiers

/-!
# Events (`events.h`, `events.c`)

The global event list as the list of its nodes from `FIRST_EVENT` to `END_EVENTS`.  A node is named
by its address, as the C code names it by a pointer.  `EventSeq.EventRing` shows that the linked
cells of `events.c` behave as this list; everything that handles events works on the list.
-/

namespace EventSeq

open Lib

structure EventCode where
  ns : UInt32
  major : UInt16
  minor : UInt16
deriving DecidableEq, Repr, Inhabited

structure EventData where
  code : EventCode
  ttl : Nat
  priority : Int
  payload : Int64
  modifiers : ModifierSet
  time : AbsoluteTime
deriving DecidableEq, Repr, Inhabited

abbrev Addr := Nat

/-- An `EventPositionBase *`: a node or a channel of the graph, by its index. -/
inductive Position where
  | node (n : Nat)
  | channel (c : Nat)
deriving DecidableEq, Repr

structure EventNode where
  addr : Addr
  position : Option Position
  inputIndex : Nat
  data : EventData
deriving DecidableEq, Repr

abbrev EventNode.time (e : EventNode) : AbsoluteTime := e.data.time

abbrev EventNode.priority (e : EventNode) : Int := e.data.priority

/-- `malloc` for event nodes: the result may depend on how often it was called and on what is
allocated, and is never the address of a live node. -/
structure Allocator where
  malloc : Nat → Finset Addr → Option Addr
  fresh : ∀ {calls live a}, malloc calls live = some a → a ∉ live

def Allocator.Succeeds (A : Allocator) : Prop := ∀ calls live, ∃ a, A.malloc calls live = some a

/-- An allocator that hands out the address above every live one. -/
def Allocator.next : Allocator where
  malloc _ live := some (live.sup id + 1)
  fresh := by
    intro _ live a h hmem
    have hle : id a ≤ live.sup id := Finset.le_sup hmem
    cases h
    exact Nat.lt_irrefl _ hle

theorem Allocator.not_succeeds {A : Allocator} {calls : Nat} {live : Finset Addr}
    (hm : A.malloc calls live = none) : ¬A.Succeeds := by
  intro hA
  obtain ⟨a, ha⟩ := hA calls live
  rw [hm] at ha
  cases ha

theorem Allocator.next_succeeds : Allocator.next.Succeeds := fun _ _ => ⟨_, rfl⟩

structure EventList where
  nodes : List EventNode
  mallocs : Nat
deriving DecidableEq, Repr

namespace EventList

def empty : EventList := ⟨[], 0⟩

def addrs (l : EventList) : List Addr := l.nodes.map EventNode.addr

def lookup (l : EventList) (a : Addr) : Option EventNode :=
  KeyedList.lookup EventNode.addr a l.nodes

/-- `event->next`; `none` is `&END_EVENTS`. -/
def next (l : EventList) (a : Addr) : Option Addr :=
  KeyedList.successor EventNode.addr a l.nodes

/-- An assignment to fields of the node `a` of the list. -/
def update (l : EventList) (a : Addr) (f : EventNode → EventNode) : EventList :=
  { l with nodes := KeyedList.modify EventNode.addr a f l.nodes }

/-- The same through a pointer, which may be one to a destroyed node. -/
def assign (l : EventList) (a : Addr) (f : EventNode → EventNode) : Except Fault EventList :=
  match l.lookup a with
  | none => .error .dangling
  | some _ => .ok (l.update a f)

end EventList

/-! ## The functions of `events.c` -/

def eventReplicate (A : Allocator) (source : Addr) :
    Nat → EventList → Except Fault (Nat × EventList)
  | 0, l => .ok (0, l)
  -- The newest replica stands right behind the source, in front of the earlier ones.
  | count + 1, l =>
      match A.malloc l.mallocs l.addrs.toFinset with
      | none => .ok (0, { l with mallocs := l.mallocs + 1 })
      | some a =>
          match l.lookup source with
          | none => .error .dangling
          | some orig => do
              let replica : EventNode :=
                { addr := a, position := none, inputIndex := 0, data := orig.data }
              let (i, l) ← eventReplicate A source count
                { nodes := KeyedList.insertAfter EventNode.addr source replica l.nodes
                  mallocs := l.mallocs + 1 }
              .ok (i + 1, l)

/-- The walk of `event_create` steps over `e`. -/
def EventNode.laterThan (e : EventNode) (selfTime : AbsoluteTime) : Bool :=
  !decide (absoluteTimeCmp selfTime e.time ≥ 0)

theorem EventNode.laterThan_iff (e : EventNode) (t : AbsoluteTime) :
    e.laterThan t = true ↔ t < e.time := by
  simp [laterThan, absoluteTimeCmp_nonneg_iff, -ge_iff_le]

/-- Where the backward walk of `event_create` puts a new node: behind the last node when that one
is not later than it, and otherwise behind the first node of the run of later nodes the list ends
with. -/
def insertByTime (new : EventNode) (l : List EventNode) : List EventNode :=
  match l.rtakeWhile fun e => e.laterThan new.time with
  | [] => l ++ [new]
  | e :: rest => (l.rdropWhile fun e => e.laterThan new.time) ++ e :: new :: rest

/-- `event_create` with a content; the event starts with a null position. -/
def eventCreate (A : Allocator) (content : EventData) (l : EventList) : Option Addr × EventList :=
  match A.malloc l.mallocs l.addrs.toFinset with
  | none => (none, { l with mallocs := l.mallocs + 1 })
  | some a =>
      let event : EventNode := { addr := a, position := none, inputIndex := 0, data := content }
      (some a, { nodes := insertByTime event l.nodes, mallocs := l.mallocs + 1 })

/-- Of an event that is destroyed already the links are null pointers, which are followed. -/
def eventDestroy (self : Addr) (l : EventList) : Except Fault EventList :=
  match l.lookup self with
  | none => .error .dangling
  | some _ => .ok { l with nodes := KeyedList.remove EventNode.addr self l.nodes }

/-! ## What the functions do to a list split at the node they are called on -/

/-- A replica of `e` as `event_replicate` leaves it. -/
structure EventNode.IsReplica (e r : EventNode) : Prop where
  position : r.position = none
  inputIndex : r.inputIndex = 0
  data : r.data = e.data

section

variable {A : Allocator} {e : EventNode} {pre post : List EventNode} {mallocs : Nat}

theorem EventList.not_mem_addrs_of_nodup (h : (EventList.mk (pre ++ e :: post) mallocs).addrs.Nodup) :
    e.addr ∉ pre.map EventNode.addr ∧ e.addr ∉ post.map EventNode.addr := by
  simp only [EventList.addrs, List.map_append, List.map_cons] at h
  grind

theorem EventList.nodup_of_malloc {a : Addr} (data : EventData)
    (hm : A.malloc mallocs (EventList.mk (pre ++ e :: post) mallocs).addrs.toFinset = some a)
    (h : (EventList.mk (pre ++ e :: post) mallocs).addrs.Nodup) (mallocs' : Nat) :
    (EventList.mk (pre ++ e :: ⟨a, none, 0, data⟩ :: post) mallocs').addrs.Nodup := by
  have hfresh := A.fresh hm
  simp only [EventList.addrs, List.map_append, List.map_cons, List.mem_toFinset] at h hfresh ⊢
  grind

/-- The replicas stand right behind their source; only the addresses are new. -/
theorem eventReplicate_split (count : Nat)
    (h : (EventList.mk (pre ++ e :: post) mallocs).addrs.Nodup) :
    ∃ rs mallocs', eventReplicate A e.addr count ⟨pre ++ e :: post, mallocs⟩ =
        .ok (rs.length, ⟨pre ++ e :: (rs ++ post), mallocs'⟩) ∧
      rs.length ≤ count ∧ (A.Succeeds → rs.length = count) ∧
      (∀ r ∈ rs, e.IsReplica r) ∧
      (EventList.mk (pre ++ e :: (rs ++ post)) mallocs').addrs.Nodup := by
  induction count generalizing post mallocs with
  | zero => exact ⟨[], mallocs, rfl, le_rfl, fun _ => rfl, by simp, h⟩
  | succ count ih =>
      have hpre := (EventList.not_mem_addrs_of_nodup h).1
      simp only [eventReplicate, EventList.lookup, KeyedList.lookup_split hpre,
        KeyedList.insertAfter_split hpre]
      cases hm : A.malloc mallocs (EventList.mk (pre ++ e :: post) mallocs).addrs.toFinset with
      | none =>
          refine ⟨[], mallocs + 1, rfl, Nat.zero_le _, fun hA => ?_, by simp, h⟩
          -- an allocation has failed, which the last condition excludes
          obtain ⟨a, ha⟩ := hA mallocs (EventList.mk (pre ++ e :: post) mallocs).addrs.toFinset
          rw [hm] at ha
          cases ha
      | some a =>
          obtain ⟨rs, mallocs', hrun, hle, hall, hrep, hnodup⟩ :=
            ih (EventList.nodup_of_malloc e.data hm h (mallocs + 1))
          refine ⟨rs ++ [⟨a, none, 0, e.data⟩], mallocs', ?_, ?_, ?_, ?_, ?_⟩
          · simp [hrun, bind, Except.bind]
          · simpa using hle
          · intro hA
            simpa using hall hA
          · intro r hr
            rcases List.mem_append.mp hr with hr | hr
            · exact hrep r hr
            · obtain rfl := List.mem_singleton.mp hr
              exact ⟨rfl, rfl, rfl⟩
          · simpa using hnodup

/-- One replica, if `malloc` has room for it. -/
theorem eventReplicate_one (h : (EventList.mk (pre ++ e :: post) mallocs).addrs.Nodup) :
    eventReplicate A e.addr 1 ⟨pre ++ e :: post, mallocs⟩ =
      match A.malloc mallocs (EventList.mk (pre ++ e :: post) mallocs).addrs.toFinset with
      | none => .ok (0, ⟨pre ++ e :: post, mallocs + 1⟩)
      | some a => .ok (1, ⟨pre ++ e :: ⟨a, none, 0, e.data⟩ :: post, mallocs + 1⟩) := by
  have hpre := (EventList.not_mem_addrs_of_nodup h).1
  simp only [eventReplicate, EventList.lookup, KeyedList.lookup_split hpre,
    KeyedList.insertAfter_split hpre]
  cases A.malloc mallocs (EventList.mk (pre ++ e :: post) mallocs).addrs.toFinset <;> rfl

theorem eventDestroy_split (h : (EventList.mk (pre ++ e :: post) mallocs).addrs.Nodup) :
    eventDestroy e.addr ⟨pre ++ e :: post, mallocs⟩ = .ok ⟨pre ++ post, mallocs⟩ := by
  have hpre := (EventList.not_mem_addrs_of_nodup h).1
  rw [eventDestroy, EventList.lookup, KeyedList.lookup_split hpre, KeyedList.remove_split hpre]

theorem EventList.update_split (h : (EventList.mk (pre ++ e :: post) mallocs).addrs.Nodup)
    (f : EventNode → EventNode) :
    (EventList.mk (pre ++ e :: post) mallocs).update e.addr f = ⟨pre ++ f e :: post, mallocs⟩ := by
  obtain ⟨hpre, hpost⟩ := EventList.not_mem_addrs_of_nodup h
  rw [EventList.update, KeyedList.modify_split hpre hpost]

theorem EventList.assign_split (h : (EventList.mk (pre ++ e :: post) mallocs).addrs.Nodup)
    (f : EventNode → EventNode) :
    (EventList.mk (pre ++ e :: post) mallocs).assign e.addr f =
      .ok ⟨pre ++ f e :: post, mallocs⟩ := by
  rw [EventList.assign, EventList.lookup,
    KeyedList.lookup_split (EventList.not_mem_addrs_of_nodup h).1, EventList.update_split h]

theorem EventList.next_split (h : (EventList.mk (pre ++ e :: post) mallocs).addrs.Nodup) :
    (EventList.mk (pre ++ e :: post) mallocs).next e.addr = post.head?.map EventNode.addr := by
  rw [EventList.next, KeyedList.successor_split (EventList.not_mem_addrs_of_nodup h).1]

theorem EventList.lookup_split (h : (EventList.mk (pre ++ e :: post) mallocs).addrs.Nodup) :
    (EventList.mk (pre ++ e :: post) mallocs).lookup e.addr = some e := by
  rw [EventList.lookup, KeyedList.lookup_split (EventList.not_mem_addrs_of_nodup h).1]

/-- `event_create` inserts one node and keeps the others in order. -/
theorem insertByTime_split (new : EventNode) (l : List EventNode) :
    ∃ pre post, l = pre ++ post ∧ insertByTime new l = pre ++ new :: post := by
  rw [insertByTime]
  split
  · exact ⟨l, [], by simp, rfl⟩
  · rename_i o rest hlater
    refine ⟨(l.rdropWhile fun e => e.laterThan new.time) ++ [o], rest, ?_, by simp⟩
    rw [List.append_assoc, List.singleton_append, ← hlater, List.rdropWhile_append_rtakeWhile]

end

end EventSeq
