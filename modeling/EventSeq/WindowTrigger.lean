import EventSeq.WindowRuns

/-!
# A new window

What `trigger_new_window` does to a buffer, a set and a list that belong together: the buffer holds
distinct events of the list, and the set holds the same ones.
-/

namespace EventSeq

open Lib HashTable

/-- The buffer holds these events from the oldest on, each once, and the set holds the same ones. -/
structure WindowHolds (P : Platform) (node : WindowGraphNode) (as : List Addr) : Prop where
  buffer : QueueHolds node.buffer (as.map some)
  set : EventSetHolds P node.bufferedSet { a | a ∈ as }
  nodup : as.Nodup

/-- What a call may change of a window node. -/
def WindowGraphNode.withBuffer (node : WindowGraphNode) (buffer : Queue (Option Addr))
    (set : HashTable (Option Addr) Bool) (skipNext : Nat) : WindowGraphNode :=
  { node with buffer := buffer, bufferedSet := set, skipNext := skipNext }

section

variable {α : Type} {l r : List α} {x y : α}

/-- What stands on the two sides of a place still does when that place is filled. -/
theorem mem_around (mid : List α) (h : x ∈ l ++ r) : x ∈ l ++ (mid ++ r) :=
  ((List.sublist_append_right mid r).append_left l).subset h

theorem mem_around_of_ne (h : x ∈ l ++ y :: r) (hne : x ≠ y) : x ∈ l ++ r := by
  rw [List.mem_append, List.mem_cons] at h
  rw [List.mem_append]
  rcases h with hx | rfl | hx
  · exact .inl hx
  · exact absurd rfl hne
  · exact .inr hx

end

section

variable {P : Platform} {node : WindowGraphNode} {as : List Addr} {s s' : WindowState}
  {source : GraphNode} {b : EventNode} {pre post : List EventNode} {mallocs : Nat}

theorem WindowHolds.length (h : WindowHolds P node as) : queueLength node.buffer = as.length := by
  rw [h.buffer.length, List.length_map]

theorem windowCreate_holds (P : Platform) (options : WindowOptions) (draws : Nat) :
    WindowHolds P (windowCreate P options draws).1 [] where
  buffer := emptyQueue_holds
  set := by
    have hnone : { a | a ∈ ([] : List Addr) } = (∅ : Set Addr) := by simp
    rw [hnone]
    exact hashTableInitImpl_holds P draws
  nodup := List.nodup_nil

/-! ## Popping -/

theorem EventSetHolds.del {set : HashTable (Option Addr) Bool} {events : Set Addr}
    (h : EventSetHolds P set events) (a : Addr) :
    ∃ set', eventSetDel P set (some a) = .ok set' ∧ EventSetHolds P set' (events \ {a}) := by
  obtain ⟨m, hm, hmem⟩ := h.represents
  obtain ⟨set', hdelete, hwf, hm'⟩ := hashTableDeleteByKeyImpl_spec h.wellFormed hm (some a)
  refine ⟨set', ?_, hwf, _, hm', fun b => ?_⟩
  · rw [eventSetDel, hashEventPtr, hashTableKeyFromBytes]
    exact (bind_eq_ok_iff _ _ _).mpr ⟨_, hdelete, rfl⟩
  · by_cases hb : b = a
    · simp [hb]
    · rw [Function.update_of_ne fun heq => hb (Option.some.inj heq), hmem]
      simp [hb]

/-- The loop pops the oldest events until the step is used up or the buffer is empty. -/
theorem popLoop_spec (step : Nat) (h : WindowHolds P s.node as) :
    ∃ buffer set,
      popLoop P step s = .ok (step - as.length,
        { s with
          node := s.node.withBuffer buffer set s.node.skipNext
          log := s.log ++ (as.take step).map fun a => .popped (some a) }) ∧
      WindowHolds P (s.node.withBuffer buffer set s.node.skipNext) (as.drop step) := by
  induction step generalizing s as with
  | zero =>
      refine ⟨s.node.buffer, s.node.bufferedSet, ?_, h⟩
      rw [popLoop, Nat.zero_sub, List.take_zero, List.map_nil, List.append_nil]
      rfl
  | succ step ih =>
      obtain ⟨buffer, hpop, hbuffer, -⟩ := queueTryPop_holds h.buffer
      cases as with
      | nil =>
          refine ⟨s.node.buffer, s.node.bufferedSet, ?_, h⟩
          rw [popLoop, hpop, List.take_nil]
          simp only [List.map_nil, List.head?_nil, List.append_nil, List.length_nil]
          rfl
      | cons a as =>
          obtain ⟨set, hdel, hset⟩ := h.set.del a
          obtain ⟨hnot, hnodup⟩ := List.nodup_cons.mp h.nodup
          -- what is deleted from the set is just what is popped
          have hrest : { b | b ∈ a :: as } \ {a} = { b | b ∈ as } := by
            ext b
            simp only [Set.mem_sdiff, Set.mem_ofPred_eq, List.mem_cons, Set.mem_singleton_iff]
            constructor
            · rintro ⟨rfl | hb, hne⟩
              · exact absurd rfl hne
              · exact hb
            · intro hb
              exact ⟨.inr hb, fun heq => hnot (heq ▸ hb)⟩
          have hpopped : WindowHolds P (s.node.withBuffer buffer set s.node.skipNext) as :=
            ⟨hbuffer, hrest ▸ hset, hnodup⟩
          obtain ⟨buffer', set', hrun, hholds⟩ := @ih as { s with
            node := s.node.withBuffer buffer set s.node.skipNext
            log := s.log ++ [.popped (some a)] } hpopped
          refine ⟨buffer', set', ?_, hholds⟩
          rw [popLoop, hpop]
          simp only [List.map_cons, List.head?_cons, bind, Except.bind, hdel]
          refine Eq.trans hrun ?_
          rw [List.take_succ_cons, List.map_cons, List.append_assoc, List.length_cons,
            Nat.add_sub_add_right]
          rfl

/-! ## Retransmitting -/

/-- The events that stay in the buffer are sent again, from the oldest on, in front of the base. -/
theorem retransmitLoop_spec {buffer : Queue (Option Addr)} (origs : List EventNode)
    {indices : List Nat}
    (hvalues : queueValues buffer indices = .ok (origs.map fun x => some x.addr))
    (hmem : ∀ x ∈ origs, x ∈ pre ++ post)
    (h : (EventList.mk (pre ++ b :: post) mallocs).addrs.Nodup) :
    ∃ outs b' mallocs',
      retransmitLoop P source buffer indices b.addr ⟨pre ++ b :: post, mallocs⟩ =
        .ok (b'.addr, ⟨pre ++ (outs ++ b' :: post), mallocs'⟩) ∧
      Placed outs ∧ (EventList.mk (pre ++ (outs ++ b' :: post)) mallocs').addrs.Nodup ∧
      (P.allocator.Succeeds →
        outs.map EventNode.placed = origs.flatMap fun x => copiesFor source.outputs x.data) := by
  induction indices generalizing origs pre b mallocs with
  | nil =>
      have horigs : origs = [] := by
        cases origs with
        | nil => rfl
        | cons x origs => cases hvalues
      refine ⟨[], b, mallocs, rfl, by simp [Placed], h, fun _ => ?_⟩
      rw [horigs]
      rfl
  | cons i indices ih =>
      rw [queueValues] at hvalues
      cases hvalue : buffer.values[i]? with
      | none =>
          rw [hvalue] at hvalues
          cases hvalues
      | some value =>
          rw [hvalue] at hvalues
          obtain ⟨values, hrest, heq⟩ := (bind_eq_ok_iff _ _ _).mp hvalues
          rw [Except.ok.injEq, eq_comm, List.map_eq_cons_iff] at heq
          obtain ⟨x, origs, rfl, rfl, rfl⟩ := heq
          -- the event is found in the list, since it is not the base
          have hlookup : EventList.lookup ⟨pre ++ b :: post, mallocs⟩ x.addr = some x := by
            have hx : x ∈ pre ++ b :: post := mem_around [b] (hmem x List.mem_cons_self)
            obtain ⟨pre', post', hsplit⟩ := List.append_of_mem hx
            rw [hsplit]
            exact EventList.lookup_split (hsplit ▸ h)
          obtain ⟨outs, b', mallocs', hemit, houts, hnodup, hall⟩ :=
            emitBefore_split P source (fun _ => x.data) h
          have hmem' : ∀ y ∈ origs, y ∈ (pre ++ outs) ++ post := by
            intro y hy
            rw [List.append_assoc]
            exact mem_around outs (hmem y (List.mem_cons_of_mem _ hy))
          rw [← List.append_assoc] at hnodup
          obtain ⟨outs', b'', mallocs'', hrun, houts', hnodup', hall'⟩ :=
            ih origs hrest hmem' hnodup
          refine ⟨outs ++ outs', b'', mallocs'', ?_, houts.append houts', ?_, fun hA => ?_⟩
          · rw [retransmitLoop, hvalue]
            simp only [hlookup, hemit, bind, Except.bind]
            rw [← List.append_assoc, hrun]
            simp only [List.append_assoc]
          · simpa only [List.append_assoc] using hnodup'
          · rw [List.map_append, hall hA, hall' hA, List.flatMap_cons]

/-! ## The whole of a new window -/

theorem sendTerminator_spec (hnodes : s.events = ⟨pre ++ b :: post, mallocs⟩)
    (h : (EventList.mk (pre ++ b :: post) mallocs).addrs.Nodup) :
    ∃ outs b' mallocs', sendTerminator P source b.addr s =
        .ok (b'.addr, ⟨pre ++ (outs ++ b' :: post), mallocs'⟩) ∧
      Placed outs ∧ (EventList.mk (pre ++ (outs ++ b' :: post)) mallocs').addrs.Nodup ∧
      (P.allocator.Succeeds → outs.map EventNode.placed =
        if s.node.hasTerminator then
          copiesFor source.outputs (terminatorData s.node.terminatorPrototype b.data)
        else []) := by
  unfold sendTerminator
  rw [hnodes]
  split
  · exact emitBefore_split P source (terminatorData s.node.terminatorPrototype) h
  · exact ⟨[], b, mallocs, rfl, by simp [Placed], h, fun _ => rfl⟩

/-- The copies that take the place of the base of a new window: the terminator, and the events that
stay in the buffer. -/
def windowCopies (source : GraphNode) (node : WindowGraphNode) (base : EventData)
    (origs : List EventNode) : List (Option Position × EventData) :=
  (if node.hasTerminator then copiesFor source.outputs (terminatorData node.terminatorPrototype base)
    else []) ++ origs.flatMap fun x => copiesFor source.outputs x.data

/-- The node after a new window, of whose step the buffer could not use up a part. -/
def WindowGraphNode.triggered (node : WindowGraphNode) (buffer : Queue (Option Addr))
    (set : HashTable (Option Addr) Bool) (as : List Addr) : WindowGraphNode :=
  node.withBuffer buffer set (node.skipNext + (windowStep node - as.length))

theorem triggerNewWindow_spec (h : WindowHolds P s.node as)
    (hnodes : s.events.nodes = pre ++ b :: post) (hnodup : s.events.addrs.Nodup)
    (origs : List EventNode) (horigs : origs.map EventNode.addr = as.drop (windowStep s.node))
    (hmem : ∀ x ∈ origs, x ∈ pre ++ post) :
    ∃ buffer set outs mallocs',
      triggerNewWindow P source (some b.addr) s = .ok { s with
        node := s.node.triggered buffer set as
        events := ⟨pre ++ (outs ++ post), mallocs'⟩
        log := s.log ++ (as.take (windowStep s.node)).map fun a => .popped (some a) } ∧
      WindowHolds P (s.node.triggered buffer set as) (as.drop (windowStep s.node)) ∧
      Placed outs ∧ (EventList.mk (pre ++ (outs ++ post)) mallocs').addrs.Nodup ∧
      (P.allocator.Succeeds →
        outs.map EventNode.placed = windowCopies source s.node b.data origs) := by
  have hevents : s.events = ⟨pre ++ b :: post, s.events.mallocs⟩ := by rw [← hnodes]
  obtain ⟨outs, b₁, mallocs₁, hterminator, houts, hnodup₁, hall⟩ :=
    @sendTerminator_spec P s source b pre post s.events.mallocs hevents (hevents ▸ hnodup)
  obtain ⟨buffer, set, hpop, hholds⟩ := @popLoop_spec P as
    { s with events := ⟨pre ++ (outs ++ b₁ :: post), mallocs₁⟩ } (windowStep s.node) h
  obtain ⟨indices, hindices, hvalues⟩ :=
    (bind_eq_ok_iff _ _ _).mp (queueContents_holds hholds.buffer)
  -- the indices of the buffer are those of the events that are kept
  have hvalues' : queueValues buffer indices = .ok (origs.map fun x => some x.addr) := by
    refine Eq.trans hvalues ?_
    rw [← horigs, List.map_map]
    rfl
  have hmem' : ∀ x ∈ origs, x ∈ (pre ++ outs) ++ post := by
    intro x hx
    rw [List.append_assoc]
    exact mem_around outs (hmem x hx)
  rw [← List.append_assoc] at hnodup₁
  obtain ⟨outs', b₂, mallocs₂, hretransmit, houts', hnodup₂, hall'⟩ :=
    @retransmitLoop_spec P source b₁ (pre ++ outs) post mallocs₁ buffer origs indices hvalues' hmem'
      hnodup₁
  rw [← List.append_assoc] at hnodup₂
  have hdestroy := eventDestroy_split hnodup₂
  have hdropped := @EventList.nodup_replace ((pre ++ outs) ++ outs') post [b₂] mallocs₂ [] mallocs₂
    (List.nil_sublist _) hnodup₂
  refine ⟨buffer, set, outs ++ outs', mallocs₂, ?_, ⟨hholds.buffer, hholds.set, hholds.nodup⟩,
    houts.append houts', ?_, fun hA => ?_⟩
  · simp only [triggerNewWindow, hterminator, bind, Except.bind, hpop]
    simp only [List.append_assoc] at hretransmit hdestroy
    simp only [WindowGraphNode.withBuffer] at hindices ⊢
    simp only [hindices, hretransmit, hdestroy, WindowGraphNode.triggered,
      WindowGraphNode.withBuffer, List.append_assoc]
  · simpa only [List.append_assoc, List.nil_append] using hdropped
  · rw [List.map_append, hall hA, hall' hA, windowCopies]

end

end EventSeq
