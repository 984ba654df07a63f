import EventSeq.Connections
import EventSeq.Lib.Cells
import EventSeq.Sources

/-!
# The subscriptions for input (`processing.h`, `processing.c`, `graph.c`)

`register_io` of the sources fills a list that grows as it needs to.
-/

namespace EventSeq

open Lib

/-- A new node, and the file that `register_io` subscribes it to. -/
structure CreatedNode where
  kind : NodeKind
  fd : Option Int
deriving DecidableEq, Repr

/-- No `create` connects the node, and none makes it wait. -/
def CreatedNode.node (created : CreatedNode) : GraphNode := ⟨false, [], [], created.kind⟩

/-- The files and the numbers of the nodes that have one, in their order. -/
def registerIo (nodes : List CreatedNode) : List (Int × Nat) :=
  nodes.zipIdx.filterMap fun entry => entry.1.fd.map fun fd => (fd, entry.2)

section

variable {α : Type}

/-- A cell that nothing was written to counts as out of range. -/
def readCell (cells : Cells α) (i : Nat) : Except Fault α :=
  match cells[i]? with
  | some (some a) => .ok a
  | _ => .error .outOfRange

def writeCell (cells : Cells α) (i : Nat) (a : α) : Except Fault (Cells α) :=
  if i < cells.length then .ok (cells.write i a) else .error .outOfRange

end

/-- A subscriber is a null pointer or the subscription of the node with a number. -/
structure IOSubscriptionList where
  length : Nat
  capacity : Nat
  fds : Cells Int
  subscribers : Cells (Option Nat)
deriving DecidableEq, Repr

/-- Whether there is memory for an array, by the number of its elements and their size.  An array ends
within the address space. -/
structure ArrayMemory where
  fits : Nat → Nat → Bool
  addressable : ∀ count size, fits count size = true → count * size < sizeModulus

/-- Memory for all arrays that end within the address space. -/
def wholeMemory : ArrayMemory where
  fits count size := decide (count * size < sizeModulus)
  addressable _ _ hfits := of_decide_eq_true hfits

def intSize : Nat := 4

def pointerSize : Nat := 8

/-- The first array stays as long as it was made when there is no memory for the second one. -/
def ioSubscriptionListExtend (arrays : ArrayMemory) (lst : IOSubscriptionList) :
    Bool × IOSubscriptionList :=
  let capacity := (lst.capacity + lst.capacity / 2 + 1) % sizeModulus
  if arrays.fits capacity intSize then
    let lst := { lst with fds := lst.fds.realloc capacity }
    if arrays.fits capacity pointerSize then
      (true, { lst with subscribers := lst.subscribers.realloc capacity, capacity := capacity })
    else (false, lst)
  else (false, lst)

/-- `calloc` yields zeros and null pointers. -/
def ioSubscriptionListInit (arrays : ArrayMemory) (capacity : Nat) : IOSubscriptionList :=
  let hasFds := arrays.fits capacity intSize
  let hasSubscribers := arrays.fits capacity pointerSize
  { length := 0
    capacity := if hasFds && hasSubscribers then capacity else 0
    fds := if hasFds then List.replicate capacity (some 0) else []
    subscribers := if hasSubscribers then List.replicate capacity (some none) else [] }

/-- Without memory the program exits. -/
def ioSubscriptionListAdd (arrays : ArrayMemory) (lst : IOSubscriptionList) (fd : Int)
    (subscriber : Nat) : Except Fault IOSubscriptionList := do
  let lst ←
    if lst.length ≥ lst.capacity then
      match ioSubscriptionListExtend arrays lst with
      | (false, _) => .error .aborts
      | (true, lst) => .ok lst
    else .ok lst
  if lst.length < lst.capacity then do
    let fds ← writeCell lst.fds lst.length fd
    let subscribers ← writeCell lst.subscribers lst.length (some subscriber)
    .ok { lst with fds := fds, subscribers := subscribers, length := lst.length + 1 }
  else .error .aborts

/-- `register_io` of the node with a number. -/
def graphNodeRegisterIo (arrays : ArrayMemory) (waitInput : IOSubscriptionList)
    (entry : CreatedNode × Nat) : Except Fault IOSubscriptionList :=
  match entry.1.fd with
  | none => .ok waitInput
  | some fd => ioSubscriptionListAdd arrays waitInput fd entry.2

/-- `register_io` of all nodes, in their order, with an array for five subscriptions at first. -/
def registerNodes (arrays : ArrayMemory) (nodes : List CreatedNode) :
    Except Fault IOSubscriptionList :=
  nodes.zipIdx.foldlM (graphNodeRegisterIo arrays) (ioSubscriptionListInit arrays 5)

/-- The two lists of a `ProcessingState`. -/
structure WaitLists where
  waitInput : IOSubscriptionList
  waitOutput : IOSubscriptionList
deriving DecidableEq, Repr

/-! ## The list of subscriptions -/

section

variable {α : Type} {arrays : ArrayMemory} {lst : IOSubscriptionList} {subs : List (Int × Nat)}

theorem readCell_holds {cells : Cells α} {l : List α} {i : Nat} {a : α} (h : cells.Holds l)
    (ha : l[i]? = some a) : readCell cells i = .ok a := by
  rw [readCell, h.getElem? (List.getElem?_eq_some_iff.mp ha).1, ha]

theorem writeCell_push {cells : Cells α} {l : List α} {a : α} (h : cells.Holds l)
    (hlt : l.length < cells.length) :
    ∃ cells', writeCell cells l.length a = .ok cells' ∧ cells'.Holds (l ++ [a]) ∧
      cells'.length = cells.length :=
  ⟨_, if_pos hlt, h.push hlt a, Cells.length_write cells _ a⟩

/-- The list has the subscriptions, in their order, and room for as many as `capacity` says. -/
structure IOSubscriptionList.Holds (lst : IOSubscriptionList) (subs : List (Int × Nat)) : Prop where
  length : lst.length = subs.length
  length_le : lst.length ≤ lst.capacity
  fds : lst.fds.Holds (subs.map Prod.fst)
  subscribers : lst.subscribers.Holds (subs.map fun s => some s.2)
  fdCells : lst.capacity ≤ lst.fds.length
  subscriberCells : lst.capacity ≤ lst.subscribers.length
  addressable : lst.capacity * pointerSize < sizeModulus

/-- The lists have the subscriptions for input, and none for output. -/
structure WaitLists.Holds (state : WaitLists) (subs : List (Int × Nat)) : Prop where
  waitInput : state.waitInput.Holds subs
  waitOutput : state.waitOutput.Holds []

theorem ioSubscriptionListInit_holds (arrays : ArrayMemory) (capacity : Nat) :
    (ioSubscriptionListInit arrays capacity).Holds [] := by
  cases hboth : arrays.fits capacity intSize && arrays.fits capacity pointerSize with
  | true =>
      obtain ⟨hfds, hsubscribers⟩ := Bool.and_eq_true_iff.mp hboth
      have hinit : ioSubscriptionListInit arrays capacity =
          ⟨0, capacity, .replicate capacity (some 0), .replicate capacity (some none)⟩ := by
        simp [ioSubscriptionListInit, hfds, hsubscribers]
      rw [hinit]
      exact ⟨rfl, Nat.zero_le _, Cells.holds_nil _, Cells.holds_nil _, List.length_replicate.ge,
        List.length_replicate.ge, arrays.addressable _ _ hsubscribers⟩
  | false =>
      -- an array that could be had is not used
      have hcapacity : (ioSubscriptionListInit arrays capacity).capacity = 0 := by
        simp [ioSubscriptionListInit, hboth]
      refine ⟨rfl, Nat.zero_le _, Cells.holds_nil _, Cells.holds_nil _, ?_, ?_, ?_⟩
      all_goals
        rw [hcapacity]
        simp [sizeModulus]

/-- The length that is asked for does not wrap around, since there is an array of the one before. -/
theorem extended_capacity (h : lst.Holds subs) :
    (lst.capacity + lst.capacity / 2 + 1) % sizeModulus = lst.capacity + lst.capacity / 2 + 1 := by
  have haddressable := h.addressable
  apply Nat.mod_eq_of_lt
  unfold pointerSize sizeModulus at *
  omega

theorem ioSubscriptionListExtend_holds (arrays : ArrayMemory) (h : lst.Holds subs) :
    (∃ lst', ioSubscriptionListExtend arrays lst = (true, lst') ∧ lst'.Holds subs ∧
      lst'.length < lst'.capacity) ∨
    (∃ lst', ioSubscriptionListExtend arrays lst = (false, lst')) ∧
      ∃ size ∈ [intSize, pointerSize], arrays.fits (lst.capacity + lst.capacity / 2 + 1) size = false := by
  have hlt : lst.length < lst.capacity + lst.capacity / 2 + 1 :=
    Nat.lt_succ_of_le (h.length_le.trans (Nat.le_add_right _ _))
  simp only [ioSubscriptionListExtend, extended_capacity h]
  generalize lst.capacity + lst.capacity / 2 + 1 = capacity at hlt ⊢
  have hroom := (h.length.symm.trans_lt hlt).le
  cases hfds : arrays.fits capacity intSize with
  | false => exact .inr ⟨⟨_, rfl⟩, intSize, by simp, hfds⟩
  | true =>
      cases hsubscribers : arrays.fits capacity pointerSize with
      | false => exact .inr ⟨⟨_, rfl⟩, pointerSize, by simp, hsubscribers⟩
      | true =>
          exact .inl ⟨_, rfl, ⟨h.length, hlt.le, h.fds.realloc (by rwa [List.length_map]),
            h.subscribers.realloc (by rwa [List.length_map]), (Cells.length_realloc _ _).ge,
            (Cells.length_realloc _ _).ge, arrays.addressable _ _ hsubscribers⟩, hlt⟩

/-- A subscription is added behind the others, or the arrays were full and there was no memory for
longer ones. -/
theorem ioSubscriptionListAdd_holds (arrays : ArrayMemory) (h : lst.Holds subs) (fd : Int)
    (n : Nat) :
    (∃ lst', ioSubscriptionListAdd arrays lst fd n = .ok lst' ∧ lst'.Holds (subs ++ [(fd, n)])) ∨
    ioSubscriptionListAdd arrays lst fd n = .error .aborts ∧
      ∃ size ∈ [intSize, pointerSize], arrays.fits (subs.length + subs.length / 2 + 1) size = false := by
  -- when there is room the two cells are written
  have hwrites : ∀ lst' : IOSubscriptionList, lst'.Holds subs → lst'.length < lst'.capacity →
      ∃ fds subscribers, writeCell lst'.fds lst'.length fd = .ok fds ∧
        writeCell lst'.subscribers lst'.length (some n) = .ok subscribers ∧
        ({ lst' with fds := fds, subscribers := subscribers, length := lst'.length + 1 } :
          IOSubscriptionList).Holds (subs ++ [(fd, n)]) := by
    intro lst' h' hlt
    obtain ⟨fds, hfds, hholds, hlength⟩ := @writeCell_push _ _ _ fd h'.fds (by
      rw [List.length_map, ← h'.length]
      exact hlt.trans_le h'.fdCells)
    obtain ⟨subscribers, hsubscribers, hholds', hlength'⟩ := @writeCell_push _ _ _ (some n)
      h'.subscribers (by
        rw [List.length_map, ← h'.length]
        exact hlt.trans_le h'.subscriberCells)
    rw [List.length_map, ← h'.length] at hfds hsubscribers
    refine ⟨fds, subscribers, hfds, hsubscribers, ?_, hlt, ?_, ?_, ?_, ?_, h'.addressable⟩
    · rw [List.length_append, ← h'.length]
      rfl
    · rwa [List.map_append]
    · rwa [List.map_append]
    · exact h'.fdCells.trans_eq hlength.symm
    · exact h'.subscriberCells.trans_eq hlength'.symm
  unfold ioSubscriptionListAdd
  by_cases hfull : lst.length ≥ lst.capacity
  · have hlast : lst.capacity = subs.length := by
      have hlength := h.length
      have hle := h.length_le
      omega
    rw [if_pos hfull]
    rcases ioSubscriptionListExtend_holds arrays h with ⟨lst', hextend, h', hlt⟩ | ⟨⟨lst', hextend⟩, hmemory⟩
    · obtain ⟨fds, subscribers, hfds, hsubscribers, hholds⟩ := hwrites lst' h' hlt
      simp only [hextend, bind, Except.bind, if_pos hlt, hfds, hsubscribers]
      exact .inl ⟨_, rfl, hholds⟩
    · rw [hlast] at hmemory
      simp only [hextend, bind, Except.bind]
      exact .inr ⟨trivial, hmemory⟩
  · obtain ⟨fds, subscribers, hfds, hsubscribers, hholds⟩ := hwrites lst h (not_le.mp hfull)
    simp only [if_neg hfull, bind, Except.bind, if_pos (not_le.mp hfull), hfds, hsubscribers]
    exact .inl ⟨_, rfl, hholds⟩

/-- The sources among the nodes are subscribed one after the other.  The program exits only if an
array of at most twice as many cells as there are sources cannot be had. -/
theorem registerNodes_holds (arrays : ArrayMemory) (nodes : List CreatedNode) :
    (∃ lst, registerNodes arrays nodes = .ok lst ∧ lst.Holds (registerIo nodes)) ∨
    registerNodes arrays nodes = .error .aborts ∧
      ∃ count ≤ 2 * (registerIo nodes).length, ∃ size ∈ [intSize, pointerSize], arrays.fits count size = false := by
  have hall : ∀ (entries : List (CreatedNode × Nat)) (lst : IOSubscriptionList) (subs : List (Int × Nat)),
      lst.Holds subs →
      let after := subs ++ entries.filterMap fun entry => entry.1.fd.map fun fd => (fd, entry.2)
      (∃ lst', entries.foldlM (graphNodeRegisterIo arrays) lst = .ok lst' ∧ lst'.Holds after) ∨
      entries.foldlM (graphNodeRegisterIo arrays) lst = .error .aborts ∧
        ∃ count ≤ 2 * after.length, ∃ size ∈ [intSize, pointerSize], arrays.fits count size = false := by
    intro entries
    induction entries with
    | nil => exact fun lst subs h => .inl ⟨lst, rfl, by simpa using h⟩
    | cons entry entries ih =>
        intro lst subs h
        rw [List.foldlM_cons, graphNodeRegisterIo, List.filterMap_cons]
        cases hfd : entry.1.fd with
        | none => exact ih lst subs h
        | some fd =>
            rcases ioSubscriptionListAdd_holds arrays h fd entry.2 with
              ⟨lst', hadd, h'⟩ | ⟨hadd, hmemory⟩
            · have hrest := ih lst' _ h'
              rw [List.append_assoc] at hrest
              simp only [hadd]
              exact hrest
            · simp only [hadd]
              refine .inr ⟨rfl, _, ?_, hmemory⟩
              simp only [Option.map_some, List.length_append, List.length_cons]
              omega
  exact hall nodes.zipIdx _ [] (ioSubscriptionListInit_holds arrays 5)

theorem registerNodes_eq_ok {nodes : List CreatedNode} (h : registerNodes arrays nodes = .ok lst) :
    lst.Holds (registerIo nodes) := by
  rcases registerNodes_holds arrays nodes with ⟨lst', hlst, hholds⟩ | ⟨hfails, -⟩
  · cases h.symm.trans hlst
    exact hholds
  · cases h.symm.trans hfails

end

end EventSeq
