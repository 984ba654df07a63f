import EventSeq.Handlers
import EventSeq.SchedulerRuns
import EventSeq.WindowEvents

/-!
# The order of priorities

A pass handles the events of lower priority it comes across together with those of its own, and the
later passes handle them again.  The order is only kept where the pass meets no event in front of one
of a higher priority, and where it leaves none of a lower priority behind.
-/

namespace EventSeq

open Lib

variable {σ κ : Type} {D : Dispatch σ} {maxTime : AbsoluteTime} {s s' : σ} {handled : List Addr}

/-! ## The order -/

/-- `e` has the highest priority of the list and is the first that has it. -/
def IsFirstOfHighest (e : EventNode) (l : List EventNode) : Prop :=
  ∃ l₁ l₂, l = l₁ ++ e :: l₂ ∧ (∀ x ∈ l₁, x.priority < e.priority) ∧
    ∀ x ∈ l₂, x.priority ≤ e.priority

theorem IsFirstOfHighest.le {e : EventNode} {l : List EventNode} (h : IsFirstOfHighest e l)
    (x : EventNode) (hx : x ∈ l) : x.priority ≤ e.priority := by
  obtain ⟨l₁, l₂, rfl, hbefore, hbehind⟩ := h
  rcases List.mem_append.mp hx with hx | hx
  · exact (hbefore x hx).le
  · rcases List.mem_cons.mp hx with rfl | hx
    · exact le_rfl
    · exact hbehind x hx

/-- The ready events whose handler has not returned `false` yet. -/
def Dispatch.pending (D : Dispatch σ) (maxTime : AbsoluteTime) (handled : List Addr) (s : σ) :
    List EventNode :=
  (D.events s).filter fun e => D.isReady maxTime s e && decide (e.addr ∉ handled)

def handledFalse (handled : List Addr) (i : Invocation σ) : List Addr :=
  match i.outcome with
  | .ok (false, _) => i.event.addr :: handled
  | _ => handled

/-- Each call is of the first event of the highest priority that is pending. -/
def InPriorityOrder (D : Dispatch σ) (maxTime : AbsoluteTime) :
    List Addr → List (Invocation σ) → Prop
  | _, [] => True
  | handled, i :: is =>
      IsFirstOfHighest i.event (D.pending maxTime handled i.before) ∧
        InPriorityOrder D maxTime (handledFalse handled i) is

/-- The highest priority of the events that are not later than `maxTime`. -/
def highestPriority (maxTime : AbsoluteTime) (l : List EventNode) : Int :=
  ((l.filter fun e => e.time ≤ maxTime).map EventNode.priority).foldr max int32Min

/-- The handlers of the pending events are called in the order of the list, up to one that does not
return `false` or that removes its event.  When a handler is called, no pending event behind its own has
a higher priority; and if all return `false`, every event that is still ready has the priority `n`. -/
inductive Dispatch.SweepsInOrder (D : Dispatch σ) (maxTime : AbsoluteTime) (n : Int) :
    List Addr → σ → Prop where
  | finished {handled : List Addr} {s : σ} : D.pending maxTime handled s = [] →
      (∀ e ∈ D.events s, D.isReady maxTime s e → e.priority = n) →
      SweepsInOrder D maxTime n handled s
  | stops {handled : List Addr} {s : σ} {e : EventNode} {rest : List EventNode} {p : Position} :
      D.pending maxTime handled s = e :: rest → (∀ x ∈ rest, x.priority ≤ e.priority) →
      D.readyPosition s e = some p →
      (∀ s', D.handleEvent p e s = .ok (false, s') → e.addr ∉ (D.events s').map EventNode.addr) →
      SweepsInOrder D maxTime n handled s
  | continues {handled : List Addr} {s s' : σ} {e : EventNode} {rest : List EventNode}
      {p : Position} :
      D.pending maxTime handled s = e :: rest → (∀ x ∈ rest, x.priority ≤ e.priority) →
      D.readyPosition s e = some p → D.handleEvent p e s = .ok (false, s') →
      e.addr ∈ (D.events s').map EventNode.addr → SweepsInOrder D maxTime n (e.addr :: handled) s' →
      SweepsInOrder D maxTime n handled s

theorem isFirstOfHighest_cons {e : EventNode} {rest : List EventNode} :
    IsFirstOfHighest e (e :: rest) ↔ ∀ x ∈ rest, x.priority ≤ e.priority :=
  ⟨fun h x hx => h.le x (List.mem_cons_of_mem _ hx), fun h => ⟨[], rest, rfl, by simp, h⟩⟩

theorem le_highestPriority {l : List EventNode} {e : EventNode} (he : e ∈ l)
    (htime : e.time ≤ maxTime) : e.priority ≤ highestPriority maxTime l := by
  induction l with
  | nil => cases he
  | cons x l ih =>
      unfold highestPriority
      rcases List.mem_cons.mp he with rfl | he
      · rw [List.filter_cons, if_pos (decide_eq_true htime)]
        exact le_max_left _ _
      · have hle := ih he
        rw [List.filter_cons]
        split
        · exact hle.trans (le_max_right _ _)
        · exact hle

theorem highestPriority_le {l : List EventNode} {n : Int} (hn : int32Min ≤ n)
    (h : ∀ e ∈ l, e.time ≤ maxTime → e.priority ≤ n) : highestPriority maxTime l ≤ n := by
  induction l with
  | nil => exact hn
  | cons x l ih =>
      have hrest := ih fun e he => h e (List.mem_cons_of_mem _ he)
      unfold highestPriority
      rw [List.filter_cons]
      split
      · rename_i htime
        exact max_le (h x List.mem_cons_self (of_decide_eq_true htime)) hrest
      · exact hrest

/-- In a sorted list the first loop of the scheduler finds it. -/
theorem scanEvents_highest {l : List EventNode} (hsorted : l.Pairwise fun a b => a.time ≤ b.time) :
    (scanEvents maxTime l int32Min).1 = highestPriority maxTime l := by
  obtain ⟨hmin, hall, hattained⟩ := @scanEvents_spec maxTime l hsorted int32Min
  apply le_antisymm
  · rcases hattained with heq | ⟨e, he, htime, heq⟩
    · rw [heq]
      unfold highestPriority
      generalize (l.filter fun e => e.time ≤ maxTime).map EventNode.priority = priorities
      induction priorities with
      | nil => exact le_rfl
      | cons _ _ ih => exact ih.trans (le_max_right _ _)
    · rw [heq]
      exact le_highestPriority he htime
  · exact highestPriority_le hmin hall

/-! ## Handlers -/

/-- What the order sees of the ready events of a part of the list. -/
def Dispatch.readyKeys (D : Dispatch σ) (maxTime : AbsoluteTime) (s : σ) (l : List EventNode) :
    List (Addr × Int) :=
  (l.filter (D.isReady maxTime s)).map fun e => (e.addr, e.priority)

/-- A handler that returns `false` makes no event ready, changes no priority and moves no ready
event across the one it was called on. -/
def Dispatch.FalseAddsNothing (D : Dispatch σ) (maxTime : AbsoluteTime) : Prop :=
  ∀ p e s s' pre post, D.CanHandle maxTime s p e → ((D.events s).map EventNode.addr).Nodup →
    D.events s = pre ++ e :: post → D.handleEvent p e s = .ok (false, s') →
    ((D.events s').map EventNode.addr).Nodup ∧
    ∀ pre' e' post', D.events s' = pre' ++ e' :: post' → e'.addr = e.addr →
      D.readyKeys maxTime s' pre' ⊆ D.readyKeys maxTime s pre ∧
      D.readyKeys maxTime s' post' ⊆ D.readyKeys maxTime s post ∧
      (D.isReady maxTime s' e' → e'.priority = e.priority)

/-- A handler that returns `false` keeps the list sorted. -/
def Dispatch.FalseKeepsSorted (D : Dispatch σ) (maxTime : AbsoluteTime) : Prop :=
  ∀ p e s s', D.CanHandle maxTime s p e → ((D.events s).map EventNode.addr).Nodup →
    D.handleEvent p e s = .ok (false, s') → (D.events s).Pairwise (fun a b => a.time ≤ b.time) →
    (D.events s').Pairwise fun a b => a.time ≤ b.time

/-- It is enough that such a handler changes nothing. -/
theorem Dispatch.falseAddsNothing_of_unchanged
    (h : ∀ p e s s', D.CanHandle maxTime s p e → ((D.events s).map EventNode.addr).Nodup →
      D.handleEvent p e s = .ok (false, s') → s' = s) : D.FalseAddsNothing maxTime := by
  intro p e s s' pre post hcan hnodup hsplit hrun
  obtain rfl := h p e s s' hcan hnodup hrun
  refine ⟨hnodup, fun pre' e' post' hsplit' haddr => ?_⟩
  rw [hsplit] at hnodup hsplit'
  obtain ⟨rfl, rfl, rfl⟩ := KeyedList.split_unique hnodup hsplit' haddr
  exact ⟨List.Subset.refl _, List.Subset.refl _, fun _ => rfl⟩

theorem windowHandleEvent_false {P : Platform} {w w' : World} {n : Nat} {window : WindowGraphNode}
    {e : EventNode} {pre post : List EventNode} (hA : P.allocator.Succeeds) (hw : w.SplitAt pre e post)
    (hposition : e.position = some (.node n))
    (hrun : windowHandleEvent P w n window e.addr = .ok (false, w')) : w' = w := by
  rcases windowHandleEvent_false_cases hw hrun with ⟨-, hsame⟩ | ⟨-, source, s, waiting, htime, -⟩
  · exact hsame
  · -- with memory the time loop keeps an event
    obtain ⟨outs, e', -, -, -, -, hevent⟩ := timeLoop_split P.depth hw.nodes hw.nodup hposition htime
    rcases hevent with hsome | ⟨-, hnot⟩
    · cases hsome
    · exact absurd hA hnot

theorem nodeHandleEvent_false {P : Platform} {w w' : World} {n : Nat} {e : EventNode}
    {pre post : List EventNode} (hA : P.allocator.Succeeds) (hw : w.SplitAt pre e post)
    (hposition : e.position = some (.node n))
    (hrun : nodeHandleEvent P w n e.addr = .ok (false, w')) : w' = w := by
  cases hnode : w.nodes[n]? with
  | none =>
      simp only [nodeHandleEvent, World.node, hnode] at hrun
      cases hrun
  | some node =>
      by_cases htype : node.kind.type.unbuffered
      · have himpl := nodeHandleEvent_implements P hw hnode htype
        rw [hrun] at himpl
        cases heff : nodeEffect n node w.predicates e with
        | error f =>
            rw [heff] at himpl
            cases himpl
        | ok eff =>
            rw [heff] at himpl
            obtain ⟨outs, mallocs, htrue, -⟩ := himpl
            cases htrue
      · simp only [nodeHandleEvent, World.node_eq hnode, bind, Except.bind] at hrun
        split at hrun <;> rename_i hkind <;> rw [hkind] at htype <;> try exact absurd rfl htype
        · exact windowHandleEvent_false hA hw hposition hrun
        all_goals cases hrun

theorem channelHandleEvent_true {w w' : World} {c : Nat} {e : EventNode}
    {pre post : List EventNode} {result : Bool} (hw : w.SplitAt pre e post)
    (hrun : channelHandleEvent w c e.addr = .ok (result, w')) : result = true := by
  cases hch : w.channels[c]? with
  | none =>
      simp only [channelHandleEvent, World.lookup_eq hw, hch, bind, Except.bind] at hrun
      cases hrun
  | some ch =>
      have hsplit := channelHandleEvent_split hw hch
      rw [hrun] at hsplit
      cases hdelivered : delivered ch e with
      | none =>
          rw [hdelivered] at hsplit
          cases hsplit
          rfl
      | some moved =>
          rw [hdelivered] at hsplit
          obtain ⟨node, -, ⟨⟩⟩ := (bind_eq_ok_iff _ _ _).mp hsplit.symm
          rfl

/-- With memory the handlers of the graph only return `false` for the hidden events of a window
node, and without having changed anything. -/
theorem World.dispatch_false {P : Platform} (hA : P.allocator.Succeeds) {p : Position} {e : EventNode}
    {w w' : World} (hcan : (World.dispatch P).CanHandle maxTime w p e) (hnodup : w.events.addrs.Nodup)
    (hrun : w.handleEvent P p e = .ok (false, w')) : w' = w := by
  obtain ⟨pre, post, hw⟩ := World.splitAt_of_mem hnodup hcan.mem
  have hposition : e.position = some p := (Option.filter_eq_some_iff.mp hcan.ready).1
  cases p with
  | channel c => exact absurd (channelHandleEvent_true hw hrun) Bool.false_ne_true
  | node n => exact nodeHandleEvent_false hA hw hposition hrun

theorem World.dispatch_falseAddsNothing {P : Platform} (hA : P.allocator.Succeeds) :
    (World.dispatch P).FalseAddsNothing maxTime :=
  Dispatch.falseAddsNothing_of_unchanged fun _ _ _ _ hcan hnodup hrun =>
    World.dispatch_false hA hcan hnodup hrun

theorem World.dispatch_falseKeepsSorted {P : Platform} (hA : P.allocator.Succeeds) :
    (World.dispatch P).FalseKeepsSorted maxTime := by
  intro p e w w' hcan hnodup hrun hsorted
  obtain rfl := World.dispatch_false hA hcan hnodup hrun
  exact hsorted

/-! ## The first pass -/

/-- All ready events have the priority `n`. -/
structure ReadyAt (D : Dispatch σ) (maxTime : AbsoluteTime) (n : Int) (s : σ) : Prop where
  nodup : ((D.events s).map EventNode.addr).Nodup
  priority_eq : ∀ x ∈ D.events s, D.isReady maxTime s x → x.priority = n

section

variable {n : Int} {pre rest : List EventNode} {ev : EventNode} {p : PassState σ} {fuel : Nat}

/-- In front of the cursor all ready events have been handled, behind it none has, and none has a
priority above that of the pass. -/
structure PassInvariant (D : Dispatch σ) (maxTime : AbsoluteTime) (n : Int) (handled : List Addr)
    (pre rest : List EventNode) (s : σ) : Prop where
  split : D.events s = pre ++ rest
  nodup : ((D.events s).map EventNode.addr).Nodup
  sorted : (D.events s).Pairwise fun a b => a.time ≤ b.time
  priority_le : ∀ x ∈ D.events s, D.isReady maxTime s x → x.priority ≤ n
  before : ∀ x ∈ pre, D.isReady maxTime s x → x.addr ∈ handled
  after : ∀ x ∈ rest, D.isReady maxTime s x → x.addr ∉ handled

/-- What is pending are the ready events behind the cursor. -/
theorem PassInvariant.pending_eq (h : PassInvariant D maxTime n handled pre rest s) :
    D.pending maxTime handled s = rest.filter (D.isReady maxTime s) := by
  have hpre : pre.filter (fun e => D.isReady maxTime s e && decide (e.addr ∉ handled)) = [] := by
    rw [List.filter_eq_nil_iff]
    intro x hx hpending
    obtain ⟨hxready, hnew⟩ := Bool.and_eq_true_iff.mp hpending
    exact of_decide_eq_true hnew (h.before x hx hxready)
  rw [Dispatch.pending, h.split, List.filter_append, hpre, List.nil_append]
  apply List.filter_congr
  intro x hx
  cases hready : D.isReady maxTime s x with
  | false => rfl
  | true => exact decide_eq_true (h.after x hx hready)

theorem PassInvariant.pending_cons (h : PassInvariant D maxTime n handled pre (ev :: rest) s)
    (hready : D.isReady maxTime s ev) :
    D.pending maxTime handled s = ev :: rest.filter (D.isReady maxTime s) := by
  rw [h.pending_eq, List.filter_cons_of_pos hready]

/-- Behind a late event nothing is ready. -/
theorem PassInvariant.pending_late (h : PassInvariant D maxTime n handled pre (ev :: rest) s)
    (hlate : maxTime < ev.time) : D.pending maxTime handled s = [] := by
  have hsorted := h.sorted
  rw [h.split] at hsorted
  obtain ⟨-, hbehind, -⟩ := List.pairwise_append.mp hsorted
  rw [h.pending_eq, List.filter_eq_nil_iff]
  intro x hx hready
  have hle : ev.time ≤ x.time := by
    rcases List.mem_cons.mp hx with rfl | hx
    · exact le_rfl
    · exact (List.pairwise_cons.mp hbehind).1 x hx
  have htime := of_decide_eq_true (Bool.and_eq_true_iff.mp hready).2
  exact absurd htime (hlate.trans_le hle).not_ge

/-- When nothing is pending all ready events have been handled. -/
theorem PassInvariant.handled_of_nil (h : PassInvariant D maxTime n handled pre rest s)
    (hnil : D.pending maxTime handled s = []) (x : EventNode) (hx : x ∈ D.events s)
    (hready : D.isReady maxTime s x) : x ∈ pre ∧ x.addr ∈ handled := by
  rw [h.pending_eq, List.filter_eq_nil_iff] at hnil
  rw [h.split] at hx
  rcases List.mem_append.mp hx with hx | hx
  · exact ⟨hx, h.before x hx hready⟩
  · exact absurd hready (hnil x hx)

/-- An event of a higher priority than that of the pass is not ready. -/
theorem PassInvariant.unready_above (h : PassInvariant D maxTime n handled pre (ev :: rest) s)
    (habove : n < ev.priority) : D.isReady maxTime s ev = false := by
  by_contra hready
  have hle := h.priority_le ev (by simp [h.split]) (Bool.eq_true_of_not_eq_false hready)
  omega

/-- The invariant with the cursor one event further, which is not ready. -/
theorem PassInvariant.skip (h : PassInvariant D maxTime n handled pre (ev :: rest) s)
    (hunready : D.isReady maxTime s ev = false) :
    PassInvariant D maxTime n handled (pre ++ [ev]) rest s where
  split := by rw [h.split]; simp
  nodup := h.nodup
  sorted := h.sorted
  priority_le := h.priority_le
  before x hx hready := by
    rcases List.mem_append.mp hx with hx | hx
    · exact h.before x hx hready
    · rw [List.mem_singleton.mp hx, hunready] at hready
      cases hready
  after x hx := h.after x (List.mem_cons_of_mem _ hx)

theorem Dispatch.mem_of_readyKeys_subset {l l' : List EventNode}
    (h : D.readyKeys maxTime s' l' ⊆ D.readyKeys maxTime s l) {x : EventNode} (hx : x ∈ l')
    (hready : D.isReady maxTime s' x) :
    ∃ y ∈ l, D.isReady maxTime s y ∧ y.addr = x.addr ∧ y.priority = x.priority := by
  have hkey : (x.addr, x.priority) ∈ D.readyKeys maxTime s' l' :=
    List.mem_map.mpr ⟨x, List.mem_filter.mpr ⟨hx, hready⟩, rfl⟩
  obtain ⟨y, hy, heq⟩ := List.mem_map.mp (h hkey)
  obtain ⟨hmem, hyready⟩ := List.mem_filter.mp hy
  exact ⟨y, hmem, hyready, (Prod.mk.inj heq).1, (Prod.mk.inj heq).2⟩

theorem Dispatch.isReady_of_canHandle {position : Position}
    (hcan : D.CanHandle maxTime s position ev) : D.isReady maxTime s ev := by
  simp [isReady, hcan.ready, hcan.time_le]

/-- After a call that has returned `false` the ready events are old ones with their old priorities. -/
theorem PassInvariant.ready_old (hD : D.FalseAddsNothing maxTime)
    (h : PassInvariant D maxTime n handled pre (ev :: rest) s) {position : Position}
    (hcan : D.CanHandle maxTime s position ev)
    (hrun : D.handleEvent position ev s = .ok (false, s')) {pre' post' : List EventNode}
    {ev' : EventNode} (hsplit' : D.events s' = pre' ++ ev' :: post') (haddr : ev'.addr = ev.addr)
    {x : EventNode} (hx : x ∈ D.events s') (hready : D.isReady maxTime s' x) :
    ∃ y ∈ D.events s, D.isReady maxTime s y ∧ y.priority = x.priority := by
  obtain ⟨-, hkeys⟩ := hD position ev s s' pre rest hcan h.nodup h.split hrun
  obtain ⟨hpre, hpost, hev⟩ := hkeys pre' ev' post' hsplit' haddr
  rw [hsplit'] at hx
  rcases List.mem_append.mp hx with hx | hx
  · obtain ⟨y, hy, hyready, -, hpriority⟩ := Dispatch.mem_of_readyKeys_subset hpre hx hready
    exact ⟨y, by simp [h.split, hy], hyready, hpriority⟩
  · rcases List.mem_cons.mp hx with rfl | hx
    · exact ⟨ev, by simp [h.split], Dispatch.isReady_of_canHandle hcan, (hev hready).symm⟩
    · obtain ⟨y, hy, hyready, -, hpriority⟩ := Dispatch.mem_of_readyKeys_subset hpost hx hready
      exact ⟨y, by simp [h.split, hy], hyready, hpriority⟩

/-- The invariant after a call that has returned `false`, at the new place of its event. -/
theorem PassInvariant.step (hD : D.FalseAddsNothing maxTime) (hsort : D.FalseKeepsSorted maxTime)
    (h : PassInvariant D maxTime n handled pre (ev :: rest) s) {position : Position}
    (hcan : D.CanHandle maxTime s position ev)
    (hrun : D.handleEvent position ev s = .ok (false, s')) {pre' post' : List EventNode}
    {ev' : EventNode} (hsplit' : D.events s' = pre' ++ ev' :: post') (haddr : ev'.addr = ev.addr) :
    PassInvariant D maxTime n (ev.addr :: handled) (pre' ++ [ev']) post' s' := by
  obtain ⟨hnodup', hkeys⟩ := hD position ev s s' pre rest hcan h.nodup h.split hrun
  obtain ⟨hpre, hpost, -⟩ := hkeys pre' ev' post' hsplit' haddr
  -- the addresses are distinct, so that no other event is marked as handled
  have hne : ∀ y ∈ rest, y.addr ≠ ev.addr := by
    have hnodup := h.nodup
    rw [h.split] at hnodup
    intro y hy heq
    exact (@EventList.not_mem_addrs_of_nodup ev pre rest 0 hnodup).2
      (heq ▸ List.mem_map_of_mem hy)
  refine ⟨by rw [hsplit']; simp, hnodup', hsort _ _ _ _ hcan h.nodup hrun h.sorted, ?_, ?_, ?_⟩
  · intro x hx hxready
    obtain ⟨y, hy, hyready, hpriority⟩ := h.ready_old hD hcan hrun hsplit' haddr hx hxready
    rw [← hpriority]
    exact h.priority_le y hy hyready
  · intro x hx hxready
    rcases List.mem_append.mp hx with hx | hx
    · -- the ready events in front were handled before, or are the one just handled
      obtain ⟨y, hy, hyready, hxaddr, -⟩ := Dispatch.mem_of_readyKeys_subset hpre hx hxready
      exact hxaddr ▸ List.mem_cons_of_mem _ (h.before y hy hyready)
    · rw [List.mem_singleton.mp hx, haddr]
      exact List.mem_cons_self
  · intro x hx hxready hmem
    -- those behind have not been handled
    obtain ⟨y, hy, hyready, hxaddr, -⟩ := Dispatch.mem_of_readyKeys_subset hpost hx hxready
    rw [← hxaddr] at hmem
    rcases List.mem_cons.mp hmem with heq | hmem
    · exact hne y hy heq
    · exact h.after y (List.mem_cons_of_mem _ hy) hyready hmem

/-- What the pass at the highest priority leaves for the passes that follow. -/
def PassEnds (D : Dispatch σ) (maxTime : AbsoluteTime) (n : Int) (q : PassState σ) : Prop :=
  q.nextPriority = int32Min ∨ q.nextPriority < n ∧ ReadyAt D maxTime n q.state

theorem PassState.note_lt (h : p.nextPriority < n) : (p.note n ev).nextPriority < n := by
  rcases (p.note_nextPriority n ev).2.2 with heq | hlt
  · exact heq.trans_lt h
  · exact hlt

theorem Dispatch.SweepsInOrder.readyAt (h : D.SweepsInOrder maxTime n handled s)
    (hnil : D.pending maxTime handled s = []) (hnodup : ((D.events s).map EventNode.addr).Nodup) :
    ReadyAt D maxTime n s := by
  cases h with
  | finished _ hpriority => exact ⟨hnodup, hpriority⟩
  | stops hpending _ _ _ => cases hnil.symm.trans hpending
  | continues hpending _ _ _ _ _ => cases hnil.symm.trans hpending

/-- The sweep calls the first pending event, in its turn, and may go on behind it. -/
theorem Dispatch.SweepsInOrder.call {behind : List EventNode} {position : Position}
    (h : D.SweepsInOrder maxTime n handled s) (hpending : D.pending maxTime handled s = ev :: behind)
    (hposition : D.readyPosition s ev = some position) :
    IsFirstOfHighest ev (D.pending maxTime handled s) ∧
      ∀ t, D.handleEvent position ev s = .ok (false, t) →
        ev.addr ∈ (D.events t).map EventNode.addr →
        D.SweepsInOrder maxTime n (ev.addr :: handled) t := by
  cases h with
  | finished hnil _ => cases hnil.symm.trans hpending
  | stops hpending' hbehind hposition' hstops =>
      obtain ⟨rfl, rfl⟩ := List.cons.inj (hpending.symm.trans hpending')
      obtain rfl := Option.some.inj (hposition.symm.trans hposition')
      rw [hpending, isFirstOfHighest_cons]
      exact ⟨hbehind, fun t hrun hmem => absurd hmem (hstops t hrun)⟩
  | continues hpending' hbehind hposition' hrun _ hrest =>
      obtain ⟨rfl, rfl⟩ := List.cons.inj (hpending.symm.trans hpending')
      obtain rfl := Option.some.inj (hposition.symm.trans hposition')
      rw [hpending, isFirstOfHighest_cons]
      refine ⟨hbehind, fun t hrun' _ => ?_⟩
      cases hrun.symm.trans hrun'
      exact hrest

/-- The pass calls the handlers as the sweep does. -/
theorem runPass_inPriorityOrder (hD : D.FalseAddsNothing maxTime)
    (hsort : D.FalseKeepsSorted maxTime) (h : PassInvariant D maxTime n handled pre rest p.state)
    (hsweep : D.SweepsInOrder maxTime n handled p.state) (hnext : p.nextPriority < n) :
    InPriorityOrder D maxTime handled
        (runPass D maxTime n fuel (rest.head?.map EventNode.addr) p).1 ∧
      ∀ q, (runPass D maxTime n fuel (rest.head?.map EventNode.addr) p).2 = .ok q →
        PassEnds D maxTime n q := by
  induction fuel generalizing pre rest p handled with
  | zero =>
      cases rest with
      | nil =>
          refine ⟨trivial, fun q hq => ?_⟩
          cases hq
          exact .inr ⟨hnext, hsweep.readyAt h.pending_eq h.nodup⟩
      | cons ev rest => exact ⟨trivial, fun q hq => by cases hq⟩
  | succ fuel ih =>
      cases rest with
      | nil =>
          refine ⟨trivial, fun q hq => ?_⟩
          cases hq
          exact .inr ⟨hnext, hsweep.readyAt h.pending_eq h.nodup⟩
      | cons ev rest =>
          show InPriorityOrder D maxTime handled (runPass D maxTime n (fuel + 1) (some ev.addr) p).1 ∧
            ∀ q, (runPass D maxTime n (fuel + 1) (some ev.addr) p).2 = .ok q → _
          have hnote := @PassState.note_lt _ n ev p hnext
          have hnoteState := p.note_state n ev
          by_cases habove : n < ev.priority
          · rw [runPass_above h.split h.nodup habove]
            exact ih (h.skip (h.unready_above habove)) hsweep hnext
          · have hle := not_lt.mp habove
            cases hposition : D.readyPosition p.state ev with
            | none =>
                rw [runPass_unready h.split h.nodup hle hposition]
                have hskip := h.skip (by simp [Dispatch.isReady, hposition])
                exact ih (hnoteState.symm ▸ hskip) (hnoteState.symm ▸ hsweep) hnote
            | some position =>
                by_cases hlate : maxTime < ev.time
                · rw [runPass_late h.split h.nodup hle hposition hlate]
                  refine ⟨trivial, fun q hq => ?_⟩
                  cases hq
                  have hready := hsweep.readyAt (h.pending_late hlate) h.nodup
                  exact .inr ⟨hnote, hnoteState.symm ▸ hready⟩
                · have hcan : D.CanHandle maxTime p.state position ev :=
                    ⟨by simp [h.split], hposition, not_lt.mp hlate⟩
                  have hpending := h.pending_cons (Dispatch.isReady_of_canHandle hcan)
                  rw [runPass_call h.split h.nodup hle hposition hcan.time_le]
                  obtain ⟨hfirst, hgoes⟩ := hsweep.call hpending hposition
                  cases hrun : D.handleEvent position ev p.state with
                  | error f => exact ⟨⟨hfirst, trivial⟩, fun q hq => by cases hq⟩
                  | ok result =>
                      obtain ⟨rewind, s'⟩ := result
                      cases rewind with
                      | true =>
                          refine ⟨⟨hfirst, trivial⟩, fun q hq => ?_⟩
                          cases hq
                          exact .inl rfl
                      | false =>
                          dsimp only
                          cases hnextEvent : D.nextEvent s' ev.addr with
                          | error f => exact ⟨⟨hfirst, trivial⟩, fun q hq => by cases hq⟩
                          | ok next =>
                              obtain ⟨pre', ev', post', hsplit', haddr, rfl⟩ :=
                                Dispatch.nextEvent_eq_ok hnextEvent
                              have hstep := h.step hD hsort hcan hrun hsplit' haddr
                              have hmem : ev.addr ∈ (D.events s').map EventNode.addr := by
                                rw [hsplit', ← haddr]
                                simp
                              have hrest := @ih _ _ _
                                { p.note n ev with state := s', stable := false } hstep
                                (hgoes s' hrun hmem) hnote
                              exact ⟨⟨hfirst, hrest.1⟩, hrest.2⟩

/-- The passes at lower priorities find no ready event. -/
theorem runPass_silent {passPriority : Int} (h : ReadyAt D maxTime n p.state)
    (hlower : passPriority < n) (hnext : p.nextPriority < n)
    (hsplit : D.events p.state = pre ++ rest) :
    (runPass D maxTime passPriority fuel (rest.head?.map EventNode.addr) p).1 = [] ∧
      ∀ q, (runPass D maxTime passPriority fuel (rest.head?.map EventNode.addr) p).2 = .ok q →
        q.nextPriority < n ∧ ReadyAt D maxTime n q.state := by
  induction fuel generalizing pre rest p with
  | zero =>
      cases rest with
      | nil =>
          refine ⟨rfl, fun q hq => ?_⟩
          cases hq
          exact ⟨hnext, h⟩
      | cons ev rest => exact ⟨rfl, fun q hq => by cases hq⟩
  | succ fuel ih =>
      cases rest with
      | nil =>
          refine ⟨rfl, fun q hq => ?_⟩
          cases hq
          exact ⟨hnext, h⟩
      | cons ev rest =>
          show (runPass D maxTime passPriority (fuel + 1) (some ev.addr) p).1 = [] ∧
            ∀ q, (runPass D maxTime passPriority (fuel + 1) (some ev.addr) p).2 = .ok q → _
          have hsplit' : D.events p.state = (pre ++ [ev]) ++ rest := by rw [hsplit]; simp
          by_cases habove : passPriority < ev.priority
          · rw [runPass_above hsplit h.nodup habove]
            exact ih h hnext hsplit'
          · have hle := not_lt.mp habove
            have hnote : (p.note passPriority ev).nextPriority < n := by
              rcases (p.note_nextPriority passPriority ev).2.2 with heq | hlt
              · exact heq.trans_lt hnext
              · exact hlt.trans hlower
            have hstate := p.note_state passPriority ev
            cases hposition : D.readyPosition p.state ev with
            | none =>
                rw [runPass_unready hsplit h.nodup hle hposition]
                exact ih (hstate.symm ▸ h) hnote (hstate.symm ▸ hsplit')
            | some position =>
                -- a ready event within the bound would have the priority `n`
                have hlate : maxTime < ev.time := by
                  by_contra hnot
                  have hready := Dispatch.isReady_of_canHandle
                    ⟨by simp [hsplit], hposition, not_lt.mp hnot⟩
                  have heq := h.priority_eq ev (by simp [hsplit]) hready
                  omega
                rw [runPass_late hsplit h.nodup hle hposition hlate]
                refine ⟨rfl, fun q hq => ?_⟩
                cases hq
                exact ⟨hnote, hstate.symm ▸ h⟩

theorem runPasses_silent {passPriority : Int} (h : ReadyAt D maxTime n p.state)
    (hnext : p.nextPriority < n) (hmin : int32Min < n) :
    (runPasses D maxTime passPriority fuel p).1 = [] := by
  induction fuel generalizing passPriority p with
  | zero => rfl
  | succ fuel ih =>
      by_cases hgt : int32Min < p.nextPriority
      · obtain ⟨htrace, hends⟩ :=
          @runPass_silent _ D maxTime n [] (D.events p.state) { p with nextPriority := int32Min } fuel
            p.nextPriority h hnext hmin rfl
        rcases hpass : runPass D maxTime p.nextPriority fuel
          ((D.events p.state).head?.map EventNode.addr) { p with nextPriority := int32Min }
          with ⟨trace, _ | q⟩ <;> rw [hpass] at htrace hends
        · rw [runPasses_error hgt hpass]
          exact htrace
        · obtain ⟨hnext', h'⟩ := hends q rfl
          rw [runPasses_succ hgt hpass, ih h' hnext', List.append_nil]
          exact htrace
      · rw [runPasses_done (not_lt.mp hgt)]

/-! ## A call of the scheduler -/

theorem PassInvariant.start (hnodup : ((D.events s).map EventNode.addr).Nodup)
    (hsorted : (D.events s).Pairwise fun a b => a.time ≤ b.time) :
    PassInvariant D maxTime (highestPriority maxTime (D.events s)) [] [] (D.events s) s where
  split := rfl
  nodup := hnodup
  sorted := hsorted
  priority_le x hx hready :=
    le_highestPriority hx (of_decide_eq_true (Bool.and_eq_true_iff.mp hready).2)
  before := by simp
  after := by simp

/-- The calls of the scheduler are in order when the sweep is. -/
theorem Dispatch.SweepsInOrder.inPriorityOrder
    (h : D.SweepsInOrder maxTime (highestPriority maxTime (D.events s)) [] s)
    (hD : D.FalseAddsNothing maxTime) (hsort : D.FalseKeepsSorted maxTime)
    (hnodup : ((D.events s).map EventNode.addr).Nodup)
    (hsorted : (D.events s).Pairwise fun a b => a.time ≤ b.time) (fuel : Nat)
    (proc : ProcessingState κ) :
    InPriorityOrder D maxTime [] (processEventsUntil D fuel maxTime proc s).1 := by
  rw [processEventsUntil_calls]
  cases fuel with
  | zero => trivial
  | succ fuel =>
      have hstart := @PassInvariant.start _ D maxTime s hnodup hsorted
      rw [← scanEvents_highest hsorted] at h hstart
      generalize scanEvents maxTime (D.events s) int32Min = scan at h hstart ⊢
      by_cases hgt : int32Min < scan.1
      · obtain ⟨horder, hends⟩ := @runPass_inPriorityOrder _ D maxTime [] scan.1 [] (D.events s)
          ⟨s, int32Min, true, scan.2⟩ fuel hD hsort hstart h hgt
        rcases hpass : runPass D maxTime scan.1 fuel ((D.events s).head?.map EventNode.addr)
          ⟨s, int32Min, true, scan.2⟩ with ⟨trace, _ | q⟩ <;> rw [hpass] at horder hends
        · rw [@runPasses_error _ D maxTime _ ⟨s, scan.1, true, scan.2⟩ fuel _ _ hgt hpass]
          exact horder
        · -- there is no further pass, or only ones at lower priorities, where nothing is ready
          have hsilent : (runPasses D maxTime scan.1 fuel q).1 = [] := by
            rcases hends q rfl with hdone | ⟨hnext, hready'⟩
            · cases fuel with
              | zero => rfl
              | succ fuel => rw [runPasses_done hdone.le]
            · exact runPasses_silent hready' hnext hgt
          rw [@runPasses_succ _ D maxTime _ ⟨s, scan.1, true, scan.2⟩ fuel _ _ hgt hpass, hsilent,
            List.append_nil]
          exact horder
      · rw [runPasses_done (not_lt.mp hgt)]
        trivial

/-! ## Events that are handled twice -/

theorem InPriorityOrder.append {is is' : List (Invocation σ)}
    (h : InPriorityOrder D maxTime handled (is ++ is')) :
    InPriorityOrder D maxTime (is.foldl handledFalse handled) is' := by
  induction is generalizing handled with
  | nil => exact h
  | cons i is ih => exact ih h.2

/-- What a pass leaves that the next one handles again: all that is ready has been handled, and an event
of a lower priority has been noted. -/
structure Leftover (D : Dispatch σ) (maxTime : AbsoluteTime) (handled : List Addr) (q : PassState σ) :
    Prop where
  nodup : ((D.events q.state).map EventNode.addr).Nodup
  sorted : (D.events q.state).Pairwise fun a b => a.time ≤ b.time
  handled : ∀ x ∈ D.events q.state, D.isReady maxTime q.state x → x.addr ∈ handled
  lower : ∃ e ∈ D.events q.state, D.isReady maxTime q.state e ∧ int32Min < e.priority ∧
    e.priority ≤ q.nextPriority

/-- The pass has noted the priorities of the ready events in front of the cursor, and could. -/
structure Noted (D : Dispatch σ) (maxTime : AbsoluteTime) (n : Int) (pre : List EventNode)
    (p : PassState σ) : Prop where
  noted : ∀ x ∈ pre, D.isReady maxTime p.state x → x.priority < n → x.priority ≤ p.nextPriority
  priority_gt : ∀ x ∈ D.events p.state, D.isReady maxTime p.state x → int32Min < x.priority

theorem Noted.skip (h : Noted D maxTime n pre p) (hunready : D.isReady maxTime p.state ev = false) :
    Noted D maxTime n (pre ++ [ev]) p where
  noted x hx hready hlt := by
    rcases List.mem_append.mp hx with hx | hx
    · exact h.noted x hx hready hlt
    · rw [List.mem_singleton.mp hx, hunready] at hready
      cases hready
  priority_gt := h.priority_gt

theorem Noted.note (h : Noted D maxTime n pre p) (passPriority : Int) (ev : EventNode) :
    Noted D maxTime n pre (p.note passPriority ev) where
  noted x hx hready hlt := by
    rw [p.note_state] at hready
    exact (h.noted x hx hready hlt).trans (p.note_nextPriority passPriority ev).1
  priority_gt := by
    rw [p.note_state]
    exact h.priority_gt

theorem Noted.step (hD : D.FalseAddsNothing maxTime) (hn : Noted D maxTime n pre p)
    (h : PassInvariant D maxTime n handled pre (ev :: rest) p.state) {position : Position}
    (hcan : D.CanHandle maxTime p.state position ev)
    (hrun : D.handleEvent position ev p.state = .ok (false, s')) {pre' post' : List EventNode}
    {ev' : EventNode} (hsplit' : D.events s' = pre' ++ ev' :: post') (haddr : ev'.addr = ev.addr) :
    Noted D maxTime n (pre' ++ [ev']) { p.note n ev with state := s', stable := false } := by
  obtain ⟨-, hkeys⟩ := hD position ev p.state s' pre rest hcan h.nodup h.split hrun
  obtain ⟨hpre, -, hev⟩ := hkeys pre' ev' post' hsplit' haddr
  obtain ⟨hmono, hnote, -⟩ := p.note_nextPriority n ev
  constructor
  · intro x hx hready hlt
    show x.priority ≤ (p.note n ev).nextPriority
    rcases List.mem_append.mp hx with hx | hx
    · obtain ⟨y, hy, hyready, -, hpriority⟩ := Dispatch.mem_of_readyKeys_subset hpre hx hready
      rw [← hpriority] at hlt ⊢
      exact (hn.noted y hy hyready hlt).trans hmono
    · rw [List.mem_singleton.mp hx] at hready hlt ⊢
      rw [hev hready] at hlt ⊢
      exact hnote hlt
  · intro x hx hready
    obtain ⟨y, hy, hyready, hpriority⟩ := h.ready_old hD hcan hrun hsplit' haddr hx hready
    rw [← hpriority]
    exact hn.priority_gt y hy hyready

/-- A pass with nothing pending is at the end of the sweep, or leaves something to be handled again. -/
theorem Noted.ends (hn : Noted D maxTime n pre p)
    (h : PassInvariant D maxTime n handled pre rest p.state)
    (hnil : D.pending maxTime handled p.state = []) {q : PassState σ} (hstate : q.state = p.state)
    (hle : p.nextPriority ≤ q.nextPriority) :
    D.SweepsInOrder maxTime n handled p.state ∨ Leftover D maxTime handled q := by
  by_cases hall : ∀ e ∈ D.events p.state, D.isReady maxTime p.state e → e.priority = n
  · exact .inl (.finished hnil hall)
  · push Not at hall
    obtain ⟨e, he, hready, hne⟩ := hall
    obtain ⟨hpre, -⟩ := h.handled_of_nil hnil e he hready
    have hlt := lt_of_le_of_ne (h.priority_le e he hready) hne
    right
    refine ⟨by rw [hstate]; exact h.nodup, by rw [hstate]; exact h.sorted, ?_, ?_⟩
    · rw [hstate]
      exact fun x hx hxready => (h.handled_of_nil hnil x hx hxready).2
    · rw [hstate]
      exact ⟨e, he, hready, hn.priority_gt e he hready, (hn.noted e hpre hready hlt).trans hle⟩

end

end EventSeq
