import EventSeq.NodeEffects
import EventSeq.Window

/-!
# What the window node does to the event list

All copies the window node makes end up at its outputs, and the copies it works with are destroyed.
The event of the call, or the replica that took its place, is left where it was.
-/

namespace EventSeq

/-- Every event of the list has a position. -/
def Placed (l : List EventNode) : Prop := ∀ x ∈ l, x.position ≠ none

section

variable {P : Platform} {A : Allocator} {source : GraphNode} {e b : EventNode}
  {l l' pre post outs outs' : List EventNode} {mallocs : Nat} {s s' : WindowState}

theorem Placed.append (h : Placed l) (h' : Placed l') : Placed (l ++ l') := by
  intro x hx
  rcases List.mem_append.mp hx with hx | hx
  · exact h x hx
  · exact h' x hx

theorem Placed.cons (he : e.position ≠ none) (h : Placed l) : Placed (e :: l) := by
  rintro x (_ | ⟨_, hx⟩)
  · exact he
  · exact h x hx

theorem placed_of_sublist_copiesFor (outputs : List (Option Nat)) (data : EventData)
    (h : (outs.map EventNode.placed).Sublist (copiesFor outputs data)) : Placed outs := by
  intro o ho
  obtain ⟨output, -, hcopy⟩ := List.mem_filterMap.mp (h.subset (List.mem_map_of_mem ho))
  obtain ⟨c, -, heq⟩ := Option.map_eq_some_iff.mp hcopy
  rw [← (Prod.mk.inj heq).1]
  exact Option.some_ne_none _

/-! ## Copies at the base -/

/-- `malloc` has failed and nothing has moved, or the base advances to a replica of it. -/
theorem replicateAndAdvance_split (A : Allocator)
    (h : (EventList.mk (pre ++ b :: post) mallocs).addrs.Nodup) :
    (A.malloc mallocs (EventList.mk (pre ++ b :: post) mallocs).addrs.toFinset = none ∧
      replicateAndAdvance A b.addr ⟨pre ++ b :: post, mallocs⟩ =
        .ok (none, b.addr, ⟨pre ++ b :: post, mallocs + 1⟩)) ∨
    (A.malloc mallocs (EventList.mk (pre ++ b :: post) mallocs).addrs.toFinset ≠ none ∧
      ∃ r, replicateAndAdvance A b.addr ⟨pre ++ b :: post, mallocs⟩ =
          .ok (some b.addr, r.addr, ⟨pre ++ b :: r :: post, mallocs + 1⟩) ∧
        (EventList.mk (pre ++ b :: r :: post) (mallocs + 1)).addrs.Nodup ∧ r.data = b.data) := by
  rw [replicateAndAdvance, eventReplicate_one h]
  cases hm : A.malloc mallocs (EventList.mk (pre ++ b :: post) mallocs).addrs.toFinset with
  | none => exact .inl ⟨rfl, rfl⟩
  | some a =>
      have hnodup := EventList.nodup_of_malloc b.data hm h (mallocs + 1)
      refine .inr ⟨Option.some_ne_none a, ⟨a, none, 0, b.data⟩, ?_, hnodup, rfl⟩
      simp only [bind, Except.bind, one_ne_zero, if_false, EventList.next_split hnodup]
      rfl

/-- A broadcast in the middle of a list. -/
theorem broadcast_placed (source : GraphNode)
    (h : (EventList.mk (pre ++ e :: post) mallocs).addrs.Nodup) :
    ∃ k outs mallocs', graphNodeBroadcastForwardEvent A source e.addr ⟨pre ++ e :: post, mallocs⟩ =
        .ok (k, ⟨pre ++ (outs ++ post), mallocs'⟩) ∧
      (EventList.mk (pre ++ (outs ++ post)) mallocs').addrs.Nodup ∧ Placed outs ∧
      (A.Succeeds → outs.map EventNode.placed = copiesFor source.outputs e.data) := by
  obtain ⟨r, _, outs, mallocs', -, -, hall, hrun, hnodup, hplaced⟩ :=
    @graphNodeBroadcastForwardEvent_split A e pre post mallocs source h
  refine ⟨outs.length, outs, mallocs', hrun, hnodup, ?_, fun hA => ?_⟩
  · exact placed_of_sublist_copiesFor _ e.data (by rw [hplaced])
  · rw [hplaced, List.take_of_length_le (by rw [hall hA]; omega)]

theorem emitBefore_split (P : Platform) (source : GraphNode) (data : EventData → EventData)
    (h : (EventList.mk (pre ++ b :: post) mallocs).addrs.Nodup) :
    ∃ outs b' mallocs', emitBefore P source b.addr data ⟨pre ++ b :: post, mallocs⟩ =
        .ok (b'.addr, ⟨pre ++ (outs ++ b' :: post), mallocs'⟩) ∧
      Placed outs ∧ (EventList.mk (pre ++ (outs ++ b' :: post)) mallocs').addrs.Nodup ∧
      (P.allocator.Succeeds →
        outs.map EventNode.placed = copiesFor source.outputs (data b.data)) := by
  rcases replicateAndAdvance_split P.allocator h with ⟨hm, hrun⟩ | ⟨-, b', hrun, hnodup, -⟩
  · -- without a replica the base stays and nothing is sent
    refine ⟨[], b, mallocs + 1, ?_, by simp [Placed], h, fun hA =>
      absurd hA (Allocator.not_succeeds hm)⟩
    simp only [emitBefore, hrun, bind, Except.bind, List.nil_append]
  · have hassign := EventList.assign_split hnodup fun e => { e with data := data e.data }
    have hnodup' : (EventList.mk (pre ++ { b with data := data b.data } :: b' :: post)
        (mallocs + 1)).addrs.Nodup := by simpa [EventList.addrs] using hnodup
    obtain ⟨k, outs, mallocs', hbroadcast, hnodup'', houts, hall⟩ :=
      @broadcast_placed P.allocator _ _ _ _ source hnodup'
    refine ⟨outs, b', mallocs', ?_, houts, hnodup'', hall⟩
    dsimp only at hbroadcast
    simp only [emitBefore, hrun, hassign, hbroadcast, bind, Except.bind]

theorem retransmitLoop_split {buffer : Queue (Option Addr)}
    (indices : List Nat) {base : Addr} {l : EventList}
    (h : (EventList.mk (pre ++ b :: post) mallocs).addrs.Nodup)
    (hrun : retransmitLoop P source buffer indices b.addr ⟨pre ++ b :: post, mallocs⟩ =
      .ok (base, l)) :
    ∃ outs b', base = b'.addr ∧ l.nodes = pre ++ (outs ++ b' :: post) ∧ Placed outs ∧
      l.addrs.Nodup := by
  induction indices generalizing pre b mallocs with
  | nil =>
      cases hrun
      exact ⟨[], b, rfl, rfl, by simp [Placed], h⟩
  | cons i rest ih =>
      rw [retransmitLoop] at hrun
      split at hrun
      · cases hrun
      · exact ih h hrun
      · split at hrun
        · cases hrun
        · rename_i orig _
          obtain ⟨outs, b', mallocs', hemit, houts, hnodup, -⟩ :=
            emitBefore_split P source (fun _ => orig.data) h
          simp only [hemit, bind, Except.bind] at hrun
          rw [← List.append_assoc] at hnodup hrun
          obtain ⟨outs', b'', hbase, hnodes, houts', hnodup'⟩ := ih hnodup hrun
          exact ⟨outs ++ outs', b'', hbase, by simp [hnodes], houts.append houts', hnodup'⟩

theorem popLoop_events {step rest : Nat} (h : popLoop P step s = .ok (rest, s')) :
    s'.events = s.events := by
  induction step generalizing s with
  | zero =>
      cases h
      rfl
  | succ step ih =>
      rw [popLoop] at h
      obtain ⟨⟨event, buffer⟩, -, h⟩ := (bind_eq_ok_iff _ _ _).mp h
      cases event with
      | none =>
          cases h
          rfl
      | some event =>
          obtain ⟨set, -, h⟩ := (bind_eq_ok_iff _ _ _).mp h
          have hrest := ih h
          exact hrest

/-- A new window spends its base: copies for the outputs take its place. -/
theorem triggerNewWindow_split (hnodes : s.events.nodes = pre ++ b :: post)
    (h : s.events.addrs.Nodup) (hrun : triggerNewWindow P source (some b.addr) s = .ok s') :
    ∃ outs, s'.events.nodes = pre ++ (outs ++ post) ∧ Placed outs ∧ s'.events.addrs.Nodup := by
  obtain ⟨mallocs, hevents⟩ : ∃ mallocs, s.events = ⟨pre ++ b :: post, mallocs⟩ :=
    ⟨s.events.mallocs, by rw [← hnodes]⟩
  have hsplit_nodup : (EventList.mk (pre ++ b :: post) mallocs).addrs.Nodup := hevents ▸ h
  simp only [triggerNewWindow] at hrun
  obtain ⟨⟨base, events⟩, hterminator, hrun⟩ := (bind_eq_ok_iff _ _ _).mp hrun
  -- the terminator goes in front of the base, which is replaced by a replica
  obtain ⟨outs, b', hbase, hsplit, houts, hnodup⟩ : ∃ outs b', base = b'.addr ∧
      events.nodes = pre ++ (outs ++ b' :: post) ∧ Placed outs ∧ events.addrs.Nodup := by
    rw [sendTerminator, hevents] at hterminator
    split at hterminator
    · obtain ⟨outs, b', mallocs', hemit, houts, hnodup, -⟩ :=
        emitBefore_split P source (terminatorData s.node.terminatorPrototype) hsplit_nodup
      rw [hemit] at hterminator
      cases hterminator
      exact ⟨outs, b', rfl, rfl, houts, hnodup⟩
    · cases hterminator
      exact ⟨[], b, rfl, rfl, by simp [Placed], hsplit_nodup⟩
  obtain ⟨⟨step, popped⟩, hpop, hrun⟩ := (bind_eq_ok_iff _ _ _).mp hrun
  obtain ⟨indices, -, hrun⟩ := (bind_eq_ok_iff _ _ _).mp hrun
  obtain ⟨⟨base', events'⟩, hretransmit, hrun⟩ := (bind_eq_ok_iff _ _ _).mp hrun
  obtain ⟨destroyed, hdestroyed, ⟨⟩⟩ := (bind_eq_ok_iff _ _ _).mp hrun
  -- popping changes the buffer only; then the copies of what is kept follow
  have hpopped : popped.events = ⟨(pre ++ outs) ++ b' :: post, events.mallocs⟩ := by
    rw [popLoop_events hpop, List.append_assoc, ← hsplit]
  have hnodup' : (EventList.mk ((pre ++ outs) ++ b' :: post) events.mallocs).addrs.Nodup := by
    rw [List.append_assoc, ← hsplit]
    exact hnodup
  dsimp only at hretransmit
  rw [hbase, hpopped] at hretransmit
  obtain ⟨outs', b'', rfl, hsplit', houts', hnodup''⟩ :=
    retransmitLoop_split indices hnodup' hretransmit
  rw [← List.append_assoc] at hsplit'
  have hevents' : events' = ⟨(pre ++ outs) ++ outs' ++ b'' :: post, events'.mallocs⟩ := by
    rw [← hsplit']
  have hlast : (EventList.mk ((pre ++ outs) ++ outs' ++ b'' :: post) events'.mallocs).addrs.Nodup :=
    hevents' ▸ hnodup''
  have hdestroy := eventDestroy_split hlast
  rw [← hevents'] at hdestroy
  obtain rfl := Except.ok.inj (hdestroyed.symm.trans hdestroy)
  refine ⟨outs ++ outs', by simp, houts.append houts', ?_⟩
  have hdrop := @EventList.nodup_replace ((pre ++ outs) ++ outs') post [b''] events'.mallocs []
    events'.mallocs (List.nil_sublist _) hlast
  exact hdrop

/-! ## The handler -/

/-- The replica takes the place of the event, which is spent on the new window. -/
theorem assign_positions {r : EventNode} {self mallocs : Nat}
    (hnodup : (EventList.mk (pre ++ e :: r :: post) mallocs).addrs.Nodup) :
    ∃ l, (EventList.mk (pre ++ e :: r :: post) mallocs).assign r.addr
        (fun x => { x with position := some (.node self) }) = .ok l ∧
      l.assign e.addr (fun x => { x with position := none }) =
        .ok ⟨pre ++ { e with position := none } :: { r with position := some (.node self) } :: post,
          mallocs⟩ ∧
      (EventList.mk (pre ++ { e with position := none } ::
        { r with position := some (.node self) } :: post) mallocs).addrs.Nodup := by
  let r₁ : EventNode := { r with position := some (.node self) }
  have hassign : (EventList.mk (pre ++ e :: r :: post) mallocs).assign r.addr
      (fun x => { x with position := some (.node self) }) =
      .ok ⟨pre ++ e :: r₁ :: post, mallocs⟩ := by
    have hsplit : pre ++ e :: r :: post = (pre ++ [e]) ++ r :: post := by simp
    rw [hsplit] at hnodup ⊢
    rw [EventList.assign_split hnodup]
    simp [r₁]
  have hnodup₁ : (EventList.mk (pre ++ e :: r₁ :: post) mallocs).addrs.Nodup := by
    simpa [EventList.addrs, r₁] using hnodup
  refine ⟨_, hassign, EventList.assign_split hnodup₁ _, ?_⟩
  simpa [EventList.addrs] using hnodup

theorem timeLoop_split {self : Nat} {newTime : AbsoluteTime}
    (fuel : Nat) {event : Option Addr} (hnodes : s.events.nodes = pre ++ e :: post)
    (h : s.events.addrs.Nodup) (hposition : e.position = some (.node self))
    (hrun : timeLoop P self source newTime fuel e.addr s = .ok (event, s')) :
    ∃ outs e', s'.events.nodes = pre ++ (outs ++ e' :: post) ∧ Placed outs ∧
      e'.position = some (.node self) ∧ s'.events.addrs.Nodup ∧
      (event = some e'.addr ∨ event = none ∧ ¬P.allocator.Succeeds) := by
  induction fuel generalizing pre e s with
  | zero => cases hrun
  | succ fuel ih =>
      rw [timeLoop] at hrun
      obtain ⟨outlived, -, hrun⟩ := (bind_eq_ok_iff _ _ _).mp hrun
      cases outlived with
      | false =>
          cases hrun
          exact ⟨[], e, hnodes, by simp [Placed], hposition, h, .inl rfl⟩
      | true =>
          obtain ⟨mallocs, hevents⟩ : ∃ mallocs, s.events = ⟨pre ++ e :: post, mallocs⟩ :=
            ⟨s.events.mallocs, by rw [← hnodes]⟩
          have hnodup : (EventList.mk (pre ++ e :: post) mallocs).addrs.Nodup := hevents ▸ h
          rcases replicateAndAdvance_split P.allocator hnodup with
            ⟨hm, hreplicate⟩ | ⟨-, r, hreplicate, hnodup, -⟩
          · -- no replica: the event stays where it is
            simp only [hevents, hreplicate, if_true, bind, Except.bind] at hrun
            cases hrun
            exact ⟨[], e, rfl, by simp [Placed], hposition, hnodup,
              .inr ⟨rfl, Allocator.not_succeeds hm⟩⟩
          · obtain ⟨l, hassign, hassign', hnodup'⟩ :=
              @assign_positions e pre post r self (mallocs + 1) hnodup
            simp only [hevents, hreplicate, if_true, bind, Except.bind, hassign, hassign'] at hrun
            obtain ⟨s₁, htrigger, hrun⟩ := (bind_eq_ok_iff _ _ _).mp hrun
            have hsplit : ({ s with
                events := ⟨pre ++ { e with position := none } ::
                  { r with position := some (.node self) } :: post, mallocs + 1⟩ } :
                  WindowState).events.nodes =
                pre ++ { e with position := none } ::
                  { r with position := some (.node self) } :: post := rfl
            obtain ⟨outs, hnodes', houts, hnodup'⟩ :=
              triggerNewWindow_split hsplit hnodup' htrigger
            rw [← List.append_assoc] at hnodes'
            obtain ⟨outs', e', hnodes'', houts', hposition', hnodup'', hevent⟩ :=
              ih hnodes' hnodup' rfl hrun
            exact ⟨outs ++ outs', e', by simp [hnodes''], houts.append houts', hposition', hnodup'',
              hevent⟩

theorem passThrough_split (hnodes : s.events.nodes = pre ++ e :: post) (h : s.events.addrs.Nodup)
    (hrun : passThrough P source e.addr s = .ok s') :
    ∃ outs, s'.events.nodes = pre ++ e :: (outs ++ post) ∧ Placed outs ∧
      s'.events.addrs.Nodup ∧ s'.node = s.node := by
  obtain ⟨mallocs, hevents⟩ : ∃ mallocs, s.events = ⟨pre ++ e :: post, mallocs⟩ :=
    ⟨s.events.mallocs, by rw [← hnodes]⟩
  obtain ⟨rs, mallocs', hreplicate, hle, -, -, hnodup⟩ :=
    @eventReplicate_split P.allocator e pre post mallocs 1 (hevents ▸ h)
  simp only [passThrough, hevents, hreplicate, bind, Except.bind] at hrun
  match rs, hle with
  | [], _ =>
      cases hrun
      exact ⟨[], rfl, by simp [Placed], hnodup, rfl⟩
  | [r], _ =>
      have hnext : (EventList.mk (pre ++ e :: r :: post) mallocs').next e.addr = some r.addr :=
        EventList.next_split hnodup
      simp only [List.length_singleton, one_ne_zero, if_false, List.singleton_append, hnext] at hrun
      have hnodup_r : (EventList.mk ((pre ++ [e]) ++ r :: post) mallocs').addrs.Nodup := by
        simpa using hnodup
      obtain ⟨k, outs, mallocs'', hbroadcast, hnodup', houts, -⟩ :=
        @broadcast_placed P.allocator _ _ _ _ source hnodup_r
      simp only [List.append_assoc, List.singleton_append] at hbroadcast hnodup'
      simp only [hbroadcast] at hrun
      cases hrun
      exact ⟨outs, rfl, houts, hnodup', rfl⟩

theorem bufferEvent_events {event : Addr} (hrun : bufferEvent P event s = .ok s') :
    s'.events = s.events := by
  obtain ⟨⟨_, buffer⟩, -, hrun⟩ := (bind_eq_ok_iff _ _ _).mp hrun
  obtain ⟨⟨set, draws⟩, -, ⟨⟩⟩ := (bind_eq_ok_iff _ _ _).mp hrun
  rfl

theorem lengthLoop_split {threshold : Nat} (fuel : Nat)
    {replacement : Addr} (hnodes : s.events.nodes = pre ++ b :: post) (h : s.events.addrs.Nodup)
    (hrun : lengthLoop P source threshold fuel b.addr s = .ok (replacement, s')) :
    ∃ outs b', s'.events.nodes = pre ++ (outs ++ b' :: post) ∧ Placed outs ∧
      s'.events.addrs.Nodup ∧ replacement = b'.addr := by
  induction fuel generalizing pre b s with
  | zero => cases hrun
  | succ fuel ih =>
      rw [lengthLoop] at hrun
      split at hrun
      · obtain ⟨mallocs, hevents⟩ : ∃ mallocs, s.events = ⟨pre ++ b :: post, mallocs⟩ :=
          ⟨s.events.mallocs, by rw [← hnodes]⟩
        have hnodup : (EventList.mk (pre ++ b :: post) mallocs).addrs.Nodup := hevents ▸ h
        rcases replicateAndAdvance_split P.allocator hnodup with
          ⟨-, hreplicate⟩ | ⟨-, r, hreplicate, hnodup, -⟩
        · -- a null base closes nothing, and the loop tries again
          simp only [hevents, hreplicate, bind, Except.bind, triggerNewWindow] at hrun
          exact ih rfl hnodup hrun
        · -- the replacement closes one window, and its replica takes its place
          simp only [hevents, hreplicate, bind, Except.bind] at hrun
          obtain ⟨s₁, htrigger, hrun⟩ := (bind_eq_ok_iff _ _ _).mp hrun
          have hsplit : ({ s with
              events := ⟨pre ++ b :: r :: post, mallocs + 1⟩ } : WindowState).events.nodes =
              pre ++ b :: r :: post := rfl
          obtain ⟨outs, hnodes', houts, hnodup'⟩ := triggerNewWindow_split hsplit hnodup htrigger
          rw [← List.append_assoc] at hnodes'
          obtain ⟨outs', b', hnodes'', houts', hnodup'', hlast⟩ := ih hnodes' hnodup' hrun
          exact ⟨outs ++ outs', b', by simp [hnodes''], houts.append houts', hnodup'', hlast⟩
      · cases hrun
        exact ⟨[], b, hnodes, by simp [Placed], h, rfl⟩

/-- Acceptance step by step: without room for a replacement no window is closed. -/
theorem windowAccept_cases (hnodes : s.events.nodes = pre ++ e :: post) (h : s.events.addrs.Nodup)
    (hrun : windowAccept P source e.addr s = .ok s') :
    (P.allocator.malloc s.events.mallocs s.events.addrs.toFinset = none ∧
      ∃ s₁, passThrough P source e.addr
          { s with events := ⟨pre ++ e :: post, s.events.mallocs + 1⟩ } = .ok s₁ ∧
        bufferEvent P e.addr s₁ = .ok s') ∨
    (P.allocator.malloc s.events.mallocs s.events.addrs.toFinset ≠ none ∧
      ∃ r s₁ s₂ replacement s₃ events,
        (EventList.mk (pre ++ e :: r :: post) (s.events.mallocs + 1)).addrs.Nodup ∧
        passThrough P source e.addr
          { s with events := ⟨pre ++ e :: r :: post, s.events.mallocs + 1⟩ } = .ok s₁ ∧
        bufferEvent P e.addr s₁ = .ok s₂ ∧
        closeByLength P source r.addr s₂ = .ok (replacement, s₃) ∧
        eventDestroy replacement s₃.events = .ok events ∧ s' = { s₃ with events := events }) := by
  have hevents : s.events = ⟨pre ++ e :: post, s.events.mallocs⟩ := by rw [← hnodes]
  have hsplit_nodup : (EventList.mk (pre ++ e :: post) s.events.mallocs).addrs.Nodup := hevents ▸ h
  have hreplicate := @eventReplicate_one P.allocator e pre post s.events.mallocs hsplit_nodup
  rw [← hevents] at hreplicate
  simp only [windowAccept] at hrun
  obtain ⟨⟨replicated, events⟩, hcall, hrun⟩ := (bind_eq_ok_iff _ _ _).mp hrun
  rw [hreplicate] at hcall
  cases hm : P.allocator.malloc s.events.mallocs s.events.addrs.toFinset with
  | none =>
      simp only [hm] at hcall
      cases hcall
      obtain ⟨s₁, hpass, hrun⟩ := (bind_eq_ok_iff _ _ _).mp hrun
      obtain ⟨s₂, hbuffer, ⟨⟩⟩ := (bind_eq_ok_iff _ _ _).mp hrun
      exact .inl ⟨rfl, s₁, hpass, hbuffer⟩
  | some a =>
      -- the replacement stands right behind the event
      have hnodup := @EventList.nodup_of_malloc P.allocator e pre post s.events.mallocs a e.data
        (by rw [← hevents]; exact hm) hsplit_nodup (s.events.mallocs + 1)
      have hnext := EventList.next_split hnodup
      simp only [hm] at hcall
      cases hcall
      simp only [one_ne_zero, if_false, hnext, List.head?_cons, Option.map_some] at hrun
      obtain ⟨s₁, hpass, hrun⟩ := (bind_eq_ok_iff _ _ _).mp hrun
      obtain ⟨s₂, hbuffer, hrun⟩ := (bind_eq_ok_iff _ _ _).mp hrun
      obtain ⟨⟨replacement, s₃⟩, hclose, hrun⟩ := (bind_eq_ok_iff _ _ _).mp hrun
      obtain ⟨events, hdestroy, ⟨⟩⟩ := (bind_eq_ok_iff _ _ _).mp hrun
      exact .inr ⟨by simp, _, s₁, s₂, replacement, s₃, events, hnodup, hpass, hbuffer, hclose,
        hdestroy, rfl⟩

/-- An accepted event stays in the list, with copies for the outputs behind it. -/
theorem windowAccept_split (hnodes : s.events.nodes = pre ++ e :: post)
    (h : s.events.addrs.Nodup) (hrun : windowAccept P source e.addr s = .ok s') :
    ∃ outs, s'.events.nodes = pre ++ e :: (outs ++ post) ∧ Placed outs ∧
      s'.events.addrs.Nodup := by
  have hsplit_nodup : (EventList.mk (pre ++ e :: post) (s.events.mallocs + 1)).addrs.Nodup := by
    rwa [EventList.addrs, hnodes] at h
  rcases windowAccept_cases hnodes h hrun with
    ⟨-, s₁, hpass, hbuffer⟩ |
    ⟨-, r, s₁, s₂, replacement, s₃, events, hnodup, hpass, hbuffer, hclose, hdestroyed, rfl⟩
  · obtain ⟨outs, hnodes₁, houts, hnodup₁, -⟩ := passThrough_split rfl hsplit_nodup hpass
    rw [bufferEvent_events hbuffer]
    exact ⟨outs, hnodes₁, houts, hnodup₁⟩
  obtain ⟨outs, hnodes₁, houts, hnodup₁, -⟩ := passThrough_split rfl hnodup hpass
  have hnodes₂ : s₂.events.nodes = (pre ++ e :: outs) ++ r :: post := by
    rw [bufferEvent_events hbuffer, hnodes₁]
    simp
  have hnodup₂ : s₂.events.addrs.Nodup := by
    rw [bufferEvent_events hbuffer]
    exact hnodup₁
  -- the windows that are closed by length put their copies in front of the replacement
  obtain ⟨outs', r', hnodes₃, houts', hnodup₃, rfl⟩ : ∃ outs' r',
      s₃.events.nodes = (pre ++ e :: outs) ++ (outs' ++ r' :: post) ∧ Placed outs' ∧
        s₃.events.addrs.Nodup ∧ replacement = r'.addr := by
    rw [closeByLength] at hclose
    split at hclose
    · exact lengthLoop_split _ hnodes₂ hnodup₂ hclose
    · cases hclose
      exact ⟨[], r, hnodes₂, by simp [Placed], hnodup₂, rfl⟩
  rw [← List.append_assoc] at hnodes₃
  have hevents₃ : s₃.events = ⟨(pre ++ e :: outs) ++ outs' ++ r' :: post, s₃.events.mallocs⟩ := by
    rw [← hnodes₃]
  have hlast : (EventList.mk ((pre ++ e :: outs) ++ outs' ++ r' :: post)
      s₃.events.mallocs).addrs.Nodup := hevents₃ ▸ hnodup₃
  have hdestroy := eventDestroy_split hlast
  rw [← hevents₃] at hdestroy
  obtain rfl := Except.ok.inj (hdestroyed.symm.trans hdestroy)
  refine ⟨outs ++ outs', by simp, houts.append houts', ?_⟩
  have hdrop := @EventList.nodup_replace ((pre ++ e :: outs) ++ outs') post [r'] s₃.events.mallocs
    [] s₃.events.mallocs (List.nil_sublist _) hlast
  exact hdrop

/-- The handler leaves one event at the position of the event of the call, among events that have
positions. -/
theorem windowHandleEvent_split {w w' : World} {n : Nat} {window : WindowGraphNode} {result : Bool}
    (hw : w.SplitAt pre e post) (hposition : e.position = some (.node n))
    (hrun : windowHandleEvent P w n window e.addr = .ok (result, w')) :
    ∃ outs e' outs', w'.events.nodes = pre ++ (outs ++ e' :: (outs' ++ post)) ∧ Placed outs ∧
      Placed outs' ∧ e'.position = some (.node n) ∧ w'.events.addrs.Nodup := by
  simp only [windowHandleEvent, World.lookup_eq hw] at hrun
  obtain ⟨source, -, hrun⟩ := (bind_eq_ok_iff _ _ _).mp hrun
  obtain ⟨_, ⟨⟩, hrun⟩ := (bind_eq_ok_iff _ _ _).mp hrun
  obtain ⟨hidden, -, hrun⟩ := (bind_eq_ok_iff _ _ _).mp hrun
  have hsame : ∃ outs e' outs', w.events.nodes = pre ++ (outs ++ e' :: (outs' ++ post)) ∧
      Placed outs ∧ Placed outs' ∧ e'.position = some (.node n) ∧ w.events.addrs.Nodup :=
    ⟨[], e, [], hw.nodes, by simp [Placed], by simp [Placed], hposition, hw.nodup⟩
  cases hidden with
  | true =>
      cases hrun
      exact hsame
  | false =>
      simp only [Bool.false_eq_true, if_false] at hrun
      obtain ⟨⟨event, s⟩, htime, hrun⟩ := (bind_eq_ok_iff _ _ _).mp hrun
      obtain ⟨outs, e', hnodes, houts, hposition', hnodup, hevent⟩ :=
        timeLoop_split P.depth hw.nodes hw.nodup hposition htime
      rcases hevent with rfl | ⟨rfl, -⟩
      -- a window was closed by time, and there was no memory for a further event
      case inr =>
        cases hrun
        exact ⟨outs, e', [], hnodes, houts, by simp [Placed], hposition', hnodup⟩
      dsimp only at hrun
      split at hrun
      · cases hrun
        exact ⟨outs, e', [], hnodes, houts, by simp [Placed], hposition', hnodup⟩
      · obtain ⟨s', haccept, ⟨⟩⟩ := (bind_eq_ok_iff _ _ _).mp hrun
        rw [← List.append_assoc] at hnodes
        obtain ⟨outs', hnodes', houts', hnodup'⟩ := windowAccept_split hnodes hnodup haccept
        refine ⟨outs, e', outs', ?_, houts, houts', hposition', hnodup'⟩
        rw [← List.append_assoc]
        exact hnodes'

/-- A call returns false for an event that is hidden, or when the time loop gives up. -/
theorem windowHandleEvent_false_cases {w w' : World} {n : Nat} {window : WindowGraphNode}
    (hw : w.SplitAt pre e post)
    (h : windowHandleEvent P w n window e.addr = .ok (false, w')) :
    (eventSetHas P window.bufferedSet e.addr = .ok true ∧ w' = w) ∨
    (eventSetHas P window.bufferedSet e.addr = .ok false ∧ ∃ source s waiting,
      timeLoop P n source e.time P.depth e.addr (w.windowState window) = .ok (none, s) ∧
      w' = w.putWindow n s waiting) := by
  simp only [windowHandleEvent, World.lookup_eq hw] at h
  obtain ⟨source, -, h⟩ := (bind_eq_ok_iff _ _ _).mp h
  obtain ⟨_, ⟨⟩, h⟩ := (bind_eq_ok_iff _ _ _).mp h
  obtain ⟨hidden, hhas, h⟩ := (bind_eq_ok_iff _ _ _).mp h
  cases hidden with
  | true =>
      cases h
      exact .inl ⟨hhas, rfl⟩
  | false =>
      simp only [Bool.false_eq_true, if_false] at h
      obtain ⟨⟨event, s⟩, htime, h⟩ := (bind_eq_ok_iff _ _ _).mp h
      cases event with
      | none =>
          cases h
          exact .inr ⟨hhas, source, s, _, htime, rfl⟩
      | some event =>
          -- an event that is skipped or accepted gives true
          dsimp only at h
          split at h
          · cases h
          · obtain ⟨s', -, ⟨⟩⟩ := (bind_eq_ok_iff _ _ _).mp h

end

end EventSeq
