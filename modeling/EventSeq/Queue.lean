import EventSeq.Fault
import EventSeq.Lib.CircularBuffer
import EventSeq.Lib.Runs

/-!
# The ring queue (`queue.h`, `queue.c`)

The indices and the array of the C structure; one slot stays unused, so that equal indices mean
empty.  The queue is generic in its values, whose default stands for `ZERO_QUEUE_VALUE` and for the
memory that growing leaves uninitialized.  Allocations succeed.  A failed assertion aborts.
-/

namespace EventSeq

open Lib

structure Queue (α : Type) where
  capacity : Nat
  afterTailIdx : Nat
  headIdx : Nat
  values : List α
deriving DecidableEq, Repr

variable {α : Type}

def emptyQueue : Queue α := ⟨0, 0, 0, []⟩

def queueLength (queue : Queue α) : Nat :=
  if queue.headIdx ≤ queue.afterTailIdx then queue.afterTailIdx - queue.headIdx
  else queue.afterTailIdx + queue.capacity - queue.headIdx

def queueIsEmpty (queue : Queue α) : Bool := queue.headIdx == queue.afterTailIdx

def queueIsFull (queue : Queue α) : Bool :=
  queue.capacity == 0 || (queue.afterTailIdx + 1) % queue.capacity == queue.headIdx

def queueGrow [Inhabited α] (queue : Queue α) : Queue α :=
  let oldCapacity := queue.capacity
  let newCapacity := oldCapacity + (oldCapacity / 2 + 2)
  let headShift := newCapacity - oldCapacity
  let values := queue.values ++ List.replicate headShift default
  if queue.headIdx > queue.afterTailIdx then
    -- `memmove` of the values from the head on to the end of the new array
    { capacity := newCapacity
      afterTailIdx := queue.afterTailIdx
      headIdx := queue.headIdx + headShift
      values := values.take (queue.headIdx + headShift) ++ queue.values.drop queue.headIdx }
  else { queue with capacity := newCapacity, values := values }

/-- The first part of `queue_put`: a full queue grows. -/
def queuePutRoom [Inhabited α] (queue : Queue α) : Except Fault (Queue α) :=
  if queueIsFull queue then
    let queue := queueGrow queue
    -- `assert(!queue_is_full(queue))`
    if queueIsFull queue then .error .aborts else .ok queue
  else .ok queue

def queuePut [Inhabited α] (queue : Queue α) (value : α) : Except Fault (Nat × Queue α) := do
  let queue ← queuePutRoom queue
  let capacity := queue.capacity
  -- `assert(capacity > 0)`
  if capacity = 0 then .error .aborts
  else
    let index := queue.afterTailIdx
    if index < queue.values.length then
      .ok (index, { queue with
        values := queue.values.set index value
        afterTailIdx := (index + 1) % capacity })
    else .error .outOfRange

def queueTryPeek (queue : Queue α) : Except Fault (Option α) :=
  if queueIsEmpty queue then .ok none
  else if queue.capacity = 0 then .error .aborts
  else
    match queue.values[queue.headIdx]? with
    | none => .error .outOfRange
    | some value => .ok (some value)

def queueTryPop (queue : Queue α) : Except Fault (Option α × Queue α) := do
  match ← queueTryPeek queue with
  | none => .ok (none, queue)
  | some value => .ok (some value, { queue with headIdx := (queue.headIdx + 1) % queue.capacity })

/-- An empty queue yields the zero value. -/
def queuePop [Inhabited α] (queue : Queue α) : Except Fault (α × Queue α) := do
  let (value, queue) ← queueTryPop queue
  .ok (value.getD default, queue)

def queuePeek [Inhabited α] (queue : Queue α) : Except Fault α := do
  .ok ((← queueTryPeek queue).getD default)

/-- The indices `QUEUE_FOREACH_INDEX` visits from `i` on, within the given number of steps. -/
def queueIndicesFrom (queue : Queue α) : Nat → Nat → Except Fault (List Nat)
  | 0, i => if i = queue.afterTailIdx then .ok [] else .error .diverges
  | steps + 1, i =>
      if i = queue.afterTailIdx then .ok []
      else if queue.capacity = 0 then .error .divisionByZero
      else do .ok (i :: (← queueIndicesFrom queue steps ((i + 1) % queue.capacity)))

def queueIndices (queue : Queue α) : Except Fault (List Nat) :=
  queueIndicesFrom queue queue.capacity queue.headIdx

/-- The values at the given indices. -/
def queueValues (queue : Queue α) : List Nat → Except Fault (List α)
  | [] => .ok []
  | i :: indices =>
      match queue.values[i]? with
      | none => .error .outOfRange
      | some value => do .ok (value :: (← queueValues queue indices))

/-- The values a loop over `QUEUE_FOREACH_INDEX` reads. -/
def queueContents (queue : Queue α) : Except Fault (List α) := do
  queueValues queue (← queueIndices queue)

/-! ## The list a queue holds -/

structure Queue.WellFormed (queue : Queue α) : Prop where
  values_length : queue.values.length = queue.capacity
  head : queue.capacity = 0 ∧ queue.headIdx = 0 ∨ queue.headIdx < queue.capacity
  tail : queue.capacity = 0 ∧ queue.afterTailIdx = 0 ∨ queue.afterTailIdx < queue.capacity

/-- The queue is well-formed and its values, from the oldest on, are those of the list. -/
structure QueueHolds (queue : Queue α) (l : List α) : Prop where
  wf : queue.WellFormed
  length : queueLength queue = l.length
  holds : CircularBuffer.Holds queue.values queue.headIdx l

section

variable {queue : Queue α} {l : List α}

theorem emptyQueue_wellFormed : (emptyQueue : Queue α).WellFormed :=
  ⟨rfl, .inl ⟨rfl, rfl⟩, .inl ⟨rfl, rfl⟩⟩

theorem emptyQueue_holds : QueueHolds (emptyQueue : Queue α) [] :=
  ⟨emptyQueue_wellFormed, rfl, .nil _ _⟩

/-- One slot stays unused. -/
theorem QueueHolds.length_lt (h : QueueHolds queue l) (hcap : 0 < queue.capacity) :
    l.length < queue.capacity := by
  obtain ⟨hvalues, hhead, htail⟩ := h.wf
  rw [← h.length, queueLength]
  split <;> omega

theorem QueueHolds.head_lt (h : QueueHolds queue l) (hcap : 0 < queue.capacity) :
    queue.headIdx < queue.values.length := by
  obtain ⟨hvalues, hhead, htail⟩ := h.wf
  omega

theorem QueueHolds.capacity_pos {v : α} (h : QueueHolds queue (v :: l)) : 0 < queue.capacity := by
  have hle := h.holds.length_le
  rw [h.wf.values_length, List.length_cons] at hle
  omega

/-- The tail stands behind the last value. -/
theorem QueueHolds.tail_eq (h : QueueHolds queue l) (hcap : 0 < queue.capacity) :
    queue.afterTailIdx = CircularBuffer.index queue.values.length queue.headIdx l.length := by
  obtain ⟨hvalues, hhead, htail⟩ := h.wf
  rw [← h.length, hvalues, CircularBuffer.index, queueLength]
  split_ifs <;> omega

theorem QueueHolds.isEmpty_iff (h : QueueHolds queue l) : queueIsEmpty queue = true ↔ l = [] := by
  obtain ⟨hvalues, hhead, htail⟩ := h.wf
  rw [← List.length_eq_zero_iff, ← h.length, queueIsEmpty, beq_iff_eq, queueLength]
  split <;> omega

theorem QueueHolds.not_isEmpty {v : α} (h : QueueHolds queue (v :: l)) :
    queueIsEmpty queue = false := by
  rw [← Bool.not_eq_true, h.isEmpty_iff]
  exact List.cons_ne_nil _ _

theorem QueueHolds.room_of_not_full (h : QueueHolds queue l) (hfull : queueIsFull queue = false) :
    0 < queue.capacity ∧ l.length + 1 < queue.capacity := by
  obtain ⟨hvalues, hhead, htail⟩ := h.wf
  simp only [queueIsFull, Bool.or_eq_false_iff, beq_eq_false_iff_ne] at hfull
  obtain ⟨hcap, hnext⟩ := hfull
  have htail' : queue.afterTailIdx < queue.capacity := by omega
  rw [CircularBuffer.succ_mod htail', CircularBuffer.index] at hnext
  have hlen := h.length
  rw [queueLength] at hlen
  refine ⟨by omega, ?_⟩
  split at hnext <;> split at hlen <;> omega

/-! ## Growing -/

theorem queueGrow_capacity [Inhabited α] (queue : Queue α) :
    (queueGrow queue).capacity = queue.capacity + (queue.capacity / 2 + 2) := by
  unfold queueGrow
  dsimp only
  split <;> rfl

/-- The head segment of a wrapped queue moves to the end of the new array. -/
theorem queueGrow_wrapped [Inhabited α] (h : QueueHolds queue l)
    (hwrapped : queue.headIdx > queue.afterTailIdx) : QueueHolds (queueGrow queue) l := by
  obtain ⟨⟨hvalues, hhead, htail⟩, hlen, hholds⟩ := h
  have hheadlt : queue.headIdx < queue.capacity := by omega
  obtain ⟨headShift, hshift⟩ : ∃ headShift, headShift = queue.capacity / 2 + 2 := ⟨_, rfl⟩
  have hgrow : queueGrow queue =
      { capacity := queue.capacity + headShift
        afterTailIdx := queue.afterTailIdx
        headIdx := queue.headIdx + headShift
        values := (queue.values ++ List.replicate headShift default).take
          (queue.headIdx + headShift) ++ queue.values.drop queue.headIdx } := by
    unfold queueGrow
    dsimp only
    rw [if_pos hwrapped, Nat.add_sub_cancel_left, hshift]
  have hkept : ((queue.values ++ List.replicate headShift default).take
      (queue.headIdx + headShift)).length = queue.headIdx + headShift := by
    rw [List.length_take, List.length_append, List.length_replicate]
    omega
  have hnew : ((queue.values ++ List.replicate headShift default).take
      (queue.headIdx + headShift) ++ queue.values.drop queue.headIdx).length =
      queue.capacity + headShift := by
    rw [List.length_append, hkept, List.length_drop]
    omega
  -- the values are the same ones, and as many
  have hlen' : queue.afterTailIdx + queue.capacity - queue.headIdx = l.length := by
    rw [← hlen, queueLength, if_neg (by omega)]
  rw [hgrow]
  refine ⟨⟨hnew, .inr (by dsimp only; omega), .inr (by dsimp only; omega)⟩, ?_, ?_⟩
  · rw [queueLength, if_neg (by dsimp only; omega)]
    dsimp only
    omega
  · refine hholds.transfer (by rw [hnew]; omega) fun i hi => ?_
    dsimp only
    rw [hnew, hvalues]
    unfold CircularBuffer.index
    by_cases hsegment : queue.headIdx + i < queue.capacity
    · -- in the segment that moves
      rw [if_pos hsegment, if_pos (by omega), List.getElem?_append_right (by rw [hkept]; omega),
        hkept, List.getElem?_drop]
      congr 1
      omega
    · -- in the segment that stays at the start
      rw [if_neg hsegment, if_neg (by omega), List.getElem?_append_left (by rw [hkept]; omega),
        List.getElem?_take_of_lt (by omega), List.getElem?_append_left (by omega)]
      congr 1
      omega

theorem queueGrow_unwrapped [Inhabited α] (h : QueueHolds queue l)
    (hwrapped : ¬queue.headIdx > queue.afterTailIdx) : QueueHolds (queueGrow queue) l := by
  obtain ⟨⟨hvalues, hhead, htail⟩, hlen, hholds⟩ := h
  obtain ⟨headShift, hshift⟩ : ∃ headShift, headShift = queue.capacity / 2 + 2 := ⟨_, rfl⟩
  have hgrow : queueGrow queue =
      { queue with
        capacity := queue.capacity + headShift
        values := queue.values ++ List.replicate headShift default } := by
    unfold queueGrow
    dsimp only
    rw [if_neg hwrapped, Nat.add_sub_cancel_left, hshift]
  have hnew : (queue.values ++ List.replicate headShift default).length =
      queue.capacity + headShift := by
    rw [List.length_append, List.length_replicate, hvalues]
  have hlen' : queue.afterTailIdx - queue.headIdx = l.length := by
    rw [← hlen, queueLength, if_pos (by omega)]
  rw [hgrow]
  refine ⟨⟨hnew, .inr (by dsimp only; omega), .inr (by dsimp only; omega)⟩, ?_, ?_⟩
  · rw [queueLength, if_pos (by dsimp only; omega)]
    exact hlen'
  · refine hholds.transfer (by rw [hnew]; omega) fun i hi => ?_
    dsimp only
    rw [hnew, hvalues]
    unfold CircularBuffer.index
    rw [if_pos (by omega), if_pos (by omega), List.getElem?_append_left (by omega)]

/-- Growing changes no value and no order, wherever head and tail stand. -/
theorem queueGrow_holds [Inhabited α] (h : QueueHolds queue l) : QueueHolds (queueGrow queue) l := by
  by_cases hwrapped : queue.headIdx > queue.afterTailIdx
  · exact queueGrow_wrapped h hwrapped
  · exact queueGrow_unwrapped h hwrapped

theorem queueGrow_not_full [Inhabited α] (h : QueueHolds queue l) :
    queueIsFull (queueGrow queue) = false := by
  have h' := queueGrow_holds h
  have hcap := queueGrow_capacity queue
  have hlt : (queueGrow queue).afterTailIdx < (queueGrow queue).capacity := by
    have htail := h'.wf.tail
    omega
  have hlen : l.length ≤ queue.capacity := h.wf.values_length ▸ h.holds.length_le
  have hlen' := h'.length
  rw [queueLength] at hlen'
  simp only [queueIsFull, Bool.or_eq_false_iff, beq_eq_false_iff_ne]
  refine ⟨by omega, ?_⟩
  rw [CircularBuffer.succ_mod hlt, CircularBuffer.index]
  have hhead := h'.wf.head
  split <;> split at hlen' <;> omega

/-! ## The operations on the list -/

/-- The queue a value is put into has the same contents, and room. -/
theorem queuePutRoom_holds [Inhabited α] (h : QueueHolds queue l) :
    ∃ roomy, queuePutRoom queue = .ok roomy ∧ QueueHolds roomy l ∧ 0 < roomy.capacity ∧
      l.length + 1 < roomy.capacity := by
  unfold queuePutRoom
  cases hfull : queueIsFull queue with
  | false =>
      rw [if_neg (by decide)]
      exact ⟨queue, rfl, h, h.room_of_not_full hfull⟩
  | true =>
      have hgrown := queueGrow_not_full h
      rw [if_pos rfl]
      dsimp only
      rw [hgrown, if_neg (by decide)]
      exact ⟨queueGrow queue, rfl, queueGrow_holds h, (queueGrow_holds h).room_of_not_full hgrown⟩

/-- A put appends its value; no assertion fails and no index is out of range. -/
theorem queuePut_holds [Inhabited α] (h : QueueHolds queue l) (value : α) :
    ∃ index queue', queuePut queue value = .ok (index, queue') ∧ QueueHolds queue' (l ++ [value]) ∧
      index < queue'.capacity := by
  obtain ⟨roomy, hroomy, hholds, hcap, hroom⟩ := queuePutRoom_holds h
  obtain ⟨hvalues, hhead, htail⟩ := hholds.wf
  have htaillt : roomy.afterTailIdx < roomy.capacity := by omega
  have hheadlt := hholds.head_lt hcap
  have hput := hholds.holds.push hheadlt (by omega) value
  rw [← hholds.tail_eq hcap] at hput
  rw [queuePut, hroomy]
  show ∃ index queue', (if roomy.capacity = 0 then .error .aborts
    else
      if roomy.afterTailIdx < roomy.values.length then
        .ok (roomy.afterTailIdx, { roomy with
          values := roomy.values.set roomy.afterTailIdx value
          afterTailIdx := (roomy.afterTailIdx + 1) % roomy.capacity })
      else .error .outOfRange : Except Fault (Nat × Queue α)) = .ok (index, queue') ∧ _ ∧ _
  rw [if_neg (by omega), if_pos (by omega)]
  refine ⟨_, _, rfl, ⟨⟨?_, hhead, .inr (Nat.mod_lt _ hcap)⟩, ?_, hput⟩, htaillt⟩
  · rw [List.length_set]
    exact hvalues
  · have hlen := hholds.length
    rw [List.length_append, List.length_singleton, ← hlen]
    unfold queueLength at hlen ⊢
    dsimp only
    rw [CircularBuffer.succ_mod htaillt, CircularBuffer.index]
    split_ifs at hlen ⊢ <;> omega

/-- A peek delivers the oldest value, and none exactly from the empty queue. -/
theorem queueTryPeek_holds (h : QueueHolds queue l) : queueTryPeek queue = .ok l.head? := by
  cases l with
  | nil => rw [queueTryPeek, if_pos (h.isEmpty_iff.mpr rfl), List.head?_nil]
  | cons v l =>
      have hcap := h.capacity_pos
      rw [queueTryPeek, h.not_isEmpty, if_neg (by decide), if_neg (by omega),
        h.holds.front (h.head_lt hcap), List.head?_cons]

/-- A pop delivers the oldest value and leaves the others. -/
theorem queueTryPop_holds (h : QueueHolds queue l) :
    ∃ queue', queueTryPop queue = .ok (l.head?, queue') ∧ QueueHolds queue' l.tail ∧
      queue'.capacity = queue.capacity := by
  have hpeek := queueTryPeek_holds h
  cases l with
  | nil =>
      refine ⟨queue, ?_, h, rfl⟩
      rw [queueTryPop, hpeek]
      rfl
  | cons v l =>
      have hcap := h.capacity_pos
      have hheadlt := h.head_lt hcap
      obtain ⟨hvalues, hhead, htail⟩ := h.wf
      refine ⟨{ queue with headIdx := (queue.headIdx + 1) % queue.capacity }, ?_, ?_, rfl⟩
      · rw [queueTryPop, hpeek]
        rfl
      · refine ⟨⟨hvalues, .inr (Nat.mod_lt _ hcap), htail⟩, ?_, ?_⟩
        · have hlen := h.length
          rw [List.length_cons] at hlen
          rw [List.tail_cons]
          unfold queueLength at hlen ⊢
          dsimp only
          rw [CircularBuffer.succ_mod (by omega), CircularBuffer.index]
          split_ifs at hlen ⊢ <;> omega
        · have hpop := h.holds.pop hheadlt
          rw [hvalues, ← CircularBuffer.succ_mod (by omega)] at hpop
          exact hpop

/-! ## Reading a whole queue -/

/-- From the place `i` on, the indices visited are those of the places up to the last value. -/
theorem queueIndicesFrom_holds (h : QueueHolds queue l) (hcap : 0 < queue.capacity) (steps i : Nat)
    (hle : i ≤ l.length) (hsteps : l.length ≤ i + steps) :
    queueIndicesFrom queue steps (CircularBuffer.index queue.values.length queue.headIdx i) =
      .ok ((List.range' i (l.length - i)).map
        (CircularBuffer.index queue.values.length queue.headIdx)) := by
  have htail := h.tail_eq hcap
  have hlt := h.length_lt hcap
  have hvalues := h.wf.values_length
  have hheadlt := h.head_lt hcap
  induction steps generalizing i with
  | zero =>
      have hi : i = l.length := by omega
      rw [queueIndicesFrom, htail, hi, if_pos rfl, Nat.sub_self]
      rfl
  | succ steps ih =>
      rw [queueIndicesFrom]
      by_cases hi : i = l.length
      · rw [htail, hi, if_pos rfl, Nat.sub_self]
        rfl
      · -- the tail is not met before the last value
        have hne : CircularBuffer.index queue.values.length queue.headIdx i ≠ queue.afterTailIdx :=
          fun heq => hi (CircularBuffer.index_injective (by omega) (by omega) (heq.trans htail))
        have hilt : CircularBuffer.index queue.values.length queue.headIdx i <
            queue.values.length := CircularBuffer.index_lt hheadlt (by omega)
        have hnext : (CircularBuffer.index queue.values.length queue.headIdx i + 1) %
            queue.capacity = CircularBuffer.index queue.values.length queue.headIdx (i + 1) := by
          rw [← hvalues, CircularBuffer.succ_mod hilt,
            CircularBuffer.index_one_index hheadlt (by omega)]
        have hrange : List.range' i (l.length - i) =
            i :: List.range' (i + 1) (l.length - (i + 1)) := by
          rw [show l.length - i = l.length - (i + 1) + 1 by omega]
          rfl
        rw [if_neg hne, if_neg (by omega), hnext, ih (i + 1) (by omega) (by omega), hrange]
        rfl

theorem queueIndices_holds (h : QueueHolds queue l) :
    queueIndices queue = .ok ((List.range l.length).map
      (CircularBuffer.index queue.values.length queue.headIdx)) := by
  by_cases hcap : 0 < queue.capacity
  · have hlt := h.length_lt hcap
    have hindices := queueIndicesFrom_holds h hcap queue.capacity 0 (Nat.zero_le _) (by omega)
    rw [CircularBuffer.index_zero (h.head_lt hcap), Nat.sub_zero, ← List.range_eq_range'] at hindices
    exact hindices
  · obtain ⟨hvalues, hhead, htail⟩ := h.wf
    have hzero : queue.capacity = 0 := by omega
    have hlen : l.length = 0 := by
      have hle := h.holds.length_le
      omega
    rw [queueIndices, hzero, queueIndicesFrom, if_pos (by omega), hlen]
    rfl

theorem queueIndices_lt (h : QueueHolds queue l) {indices : List Nat}
    (hindices : queueIndices queue = .ok indices) : ∀ i ∈ indices, i < queue.capacity := by
  rw [queueIndices_holds h, Except.ok.injEq] at hindices
  subst hindices
  intro i hi
  obtain ⟨k, hk, rfl⟩ := List.mem_map.mp hi
  rw [List.mem_range] at hk
  have hle := h.holds.length_le
  have hvalues := h.wf.values_length
  have hcap : 0 < queue.capacity := by omega
  rw [← hvalues]
  exact CircularBuffer.index_lt (h.head_lt hcap) (by omega)

theorem queueValues_eq {indices : List Nat} {values : List α}
    (h : ∀ k < values.length, ∃ i, indices[k]? = some i ∧ queue.values[i]? = values[k]?)
    (hlen : indices.length = values.length) : queueValues queue indices = .ok values := by
  induction indices generalizing values with
  | nil =>
      rw [List.length_nil, eq_comm, List.length_eq_zero_iff] at hlen
      rw [hlen]
      rfl
  | cons i indices ih =>
      cases values with
      | nil => exact absurd hlen (by simp)
      | cons v values =>
          obtain ⟨j, hj, hv⟩ := h 0 (Nat.succ_pos _)
          rw [List.getElem?_cons_zero, Option.some.injEq] at hj
          subst hj
          rw [List.getElem?_cons_zero] at hv
          have htail : queueValues queue indices = .ok values :=
            ih (fun k hk => h (k + 1) (by rw [List.length_cons]; omega)) (by simpa using hlen)
          unfold queueValues
          rw [hv, htail]
          rfl

/-- The loop over the whole queue reads the list. -/
theorem queueContents_holds (h : QueueHolds queue l) : queueContents queue = .ok l := by
  rw [queueContents, queueIndices_holds h]
  refine queueValues_eq (fun k hk => ⟨_, ?_, h.holds.get k hk⟩) (by simp)
  rw [List.getElem?_map, List.getElem?_range hk]
  rfl

/-! ## Well-formed queues -/

/-- Every well-formed queue holds some list. -/
theorem Queue.WellFormed.holds (wf : queue.WellFormed) : ∃ l, QueueHolds queue l := by
  have ⟨hvalues, hhead, htail⟩ := wf
  by_cases hcap : 0 < queue.capacity
  · have hle : queueLength queue ≤ queue.values.length := by
      rw [queueLength]
      split <;> omega
    have hheadlt : queue.headIdx < queue.values.length := by omega
    have ⟨l, hlen, hholds⟩ := CircularBuffer.exists_holds hheadlt hle
    exact ⟨l, wf, hlen.symm, hholds⟩
  · refine ⟨[], wf, ?_, .nil _ _⟩
    rw [queueLength, if_pos (by omega), List.length_nil]
    omega

/-- Putting a value makes the queue longer by one; only an empty queue gets a new front. -/
theorem queuePut_spec [Inhabited α] (wf : queue.WellFormed) (value : α) :
    ∃ index queue', queuePut queue value = .ok (index, queue') ∧ queue'.WellFormed ∧
      queueLength queue' = queueLength queue + 1 ∧
      queueTryPeek queue' =
        if queueIsEmpty queue then .ok (some value) else queueTryPeek queue := by
  obtain ⟨l, hl⟩ := wf.holds
  obtain ⟨index, queue', hput, hholds, -⟩ := queuePut_holds hl value
  refine ⟨index, queue', hput, hholds.wf, ?_, ?_⟩
  · rw [hholds.length, hl.length, List.length_append, List.length_singleton]
  · rw [queueTryPeek_holds hholds]
    cases l with
    | nil =>
        rw [if_pos (hl.isEmpty_iff.mpr rfl)]
        rfl
    | cons v l =>
        rw [hl.not_isEmpty, if_neg (by decide), queueTryPeek_holds hl]
        rfl

end

/-! ## First in, first out -/

inductive QueueCall (α : Type) where
  | put (value : α)
  | tryPop
  | pop
  | tryPeek
  | peek

/-- What a call tells its caller, the index of a put apart. -/
inductive QueueAnswer (α : Type) where
  | stored
  | tried (value : Option α)
  | delivered (value : α)
deriving DecidableEq, Repr

/-- The purpose of a queue: its calls on the list of the values put and not yet popped. -/
def QueueCall.onList [Inhabited α] (call : QueueCall α) (l : List α) : QueueAnswer α × List α :=
  match call with
  | .put value => (.stored, l ++ [value])
  | .tryPop => (.tried l.head?, l.tail)
  | .pop => (.delivered (l.head?.getD default), l.tail)
  | .tryPeek => (.tried l.head?, l)
  | .peek => (.delivered (l.head?.getD default), l)

def runOnList [Inhabited α] : List (QueueCall α) → List α → List (QueueAnswer α) × List α
  | [], l => ([], l)
  | call :: calls, l =>
      let (answer, l) := call.onList l
      let (answers, l) := runOnList calls l
      (answer :: answers, l)

def QueueCall.onQueue [Inhabited α] (call : QueueCall α) (queue : Queue α) :
    Except Fault (QueueAnswer α × Queue α) :=
  match call with
  | .put value => do
      let (_, queue) ← queuePut queue value
      .ok (.stored, queue)
  | .tryPop => do
      let (value, queue) ← queueTryPop queue
      .ok (.tried value, queue)
  | .pop => do
      let (value, queue) ← queuePop queue
      .ok (.delivered value, queue)
  | .tryPeek => do .ok (.tried (← queueTryPeek queue), queue)
  | .peek => do .ok (.delivered (← queuePeek queue), queue)

def runOnQueue [Inhabited α] :
    List (QueueCall α) → Queue α → Except Fault (List (QueueAnswer α) × Queue α)
  | [], queue => .ok ([], queue)
  | call :: calls, queue => do
      let (answer, queue) ← call.onQueue queue
      let (answers, queue) ← runOnQueue calls queue
      .ok (answer :: answers, queue)

/-- What a queue shows of the list it stands for, and where it reads and writes for it. -/
structure QueueShows [Inhabited α] (queue : Queue α) (l : List α) : Prop where
  contents : queueContents queue = .ok l
  length : queueLength queue = l.length
  isEmpty : queueIsEmpty queue = true ↔ l = []
  grown : queueContents (queueGrow queue) = .ok l
  put : ∀ value, ∃ index queue', queuePut queue value = .ok (index, queue') ∧
    index < queue'.capacity
  head : l ≠ [] → queue.headIdx < queue.capacity
  indices : ∀ indices, queueIndices queue = .ok indices → ∀ i ∈ indices, i < queue.capacity

theorem QueueHolds.shows [Inhabited α] {queue : Queue α} {l : List α} (h : QueueHolds queue l) :
    QueueShows queue l where
  contents := queueContents_holds h
  length := h.length
  isEmpty := h.isEmpty_iff
  grown := queueContents_holds (queueGrow_holds h)
  put value :=
    have ⟨index, queue', hput, _, hindex⟩ := queuePut_holds h value
    ⟨index, queue', hput, hindex⟩
  head hne := by
    obtain ⟨v, l, rfl⟩ := List.exists_cons_of_ne_nil hne
    rw [← h.wf.values_length]
    exact h.head_lt h.capacity_pos
  indices _ := queueIndices_lt h

/-- One call on the queue is the same call on its list. -/
theorem QueueCall.onQueue_holds [Inhabited α] (call : QueueCall α) {queue : Queue α} {l : List α}
    (h : QueueHolds queue l) :
    ∃ queue', call.onQueue queue = .ok ((call.onList l).1, queue') ∧
      QueueHolds queue' (call.onList l).2 := by
  cases call with
  | put value =>
      obtain ⟨index, queue', hput, hholds, -⟩ := queuePut_holds h value
      refine ⟨queue', ?_, hholds⟩
      rw [QueueCall.onQueue, hput]
      rfl
  | tryPop =>
      obtain ⟨queue', hpop, hholds, -⟩ := queueTryPop_holds h
      refine ⟨queue', ?_, hholds⟩
      rw [QueueCall.onQueue, hpop]
      rfl
  | pop =>
      obtain ⟨queue', hpop, hholds, -⟩ := queueTryPop_holds h
      refine ⟨queue', ?_, hholds⟩
      rw [QueueCall.onQueue, queuePop, hpop]
      rfl
  | tryPeek =>
      refine ⟨queue, ?_, h⟩
      rw [QueueCall.onQueue, queueTryPeek_holds h]
      rfl
  | peek =>
      refine ⟨queue, ?_, h⟩
      rw [QueueCall.onQueue, queuePeek, queueTryPeek_holds h]
      rfl

theorem runOnQueue_holds [Inhabited α] (calls : List (QueueCall α)) {queue : Queue α} {l : List α}
    (h : QueueHolds queue l) :
    ∃ queue', runOnQueue calls queue = .ok ((runOnList calls l).1, queue') ∧
      QueueHolds queue' (runOnList calls l).2 := by
  induction calls generalizing queue l with
  | nil => exact ⟨queue, rfl, h⟩
  | cons call calls ih =>
      obtain ⟨queue₁, hcall, h₁⟩ := call.onQueue_holds h
      obtain ⟨queue₂, hcalls, h₂⟩ := ih h₁
      refine ⟨queue₂, ?_, h₂⟩
      unfold runOnQueue
      rw [hcall]
      show (do
        let (answers, queue) ← runOnQueue calls queue₁
        .ok ((call.onList l).1 :: answers, queue) : Except Fault _) = _
      rw [hcalls]
      rfl

/-- The ring queue refines the list: from the empty queue every sequence of calls runs through, no
assertion failing and no index out of range, answers as the list does and ends on its contents. -/
theorem queue_refines_fifo [Inhabited α] (calls : List (QueueCall α)) :
    ∃ queue, runOnQueue calls emptyQueue = .ok ((runOnList calls []).1, queue) ∧
      QueueShows queue (runOnList calls []).2 := by
  have hempty : QueueHolds (emptyQueue : Queue α) [] := emptyQueue_holds
  obtain ⟨queue, hrun, h⟩ := runOnQueue_holds calls hempty
  exact ⟨queue, hrun, h.shows⟩

/-- Growing a wrapped queue: after two pops the head stands behind the tail of a full ring. -/
example : (runOnQueue [.put 1, .tryPop, .put 2, .put 3, .put 4, .tryPop, .put 5, .put 6, .put 7]
      (emptyQueue : Queue Nat)).bind (fun (_, queue) => queueContents queue) =
    .ok [3, 4, 5, 6, 7] := by
  decide

end EventSeq
