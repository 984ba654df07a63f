import EventSeq.WindowTrigger

/-!
# The invariant of a window node

The buffer of a window node holds distinct events of the list, at the position of the node, and the
set holds the same ones.  Every call of the handler keeps this, whatever fails, and so does every
other step of the system.
-/

namespace EventSeq

open Lib HashTable

/-- Each of these addresses is that of an event of the list. -/
def InList (l : List EventNode) (as : List Addr) : Prop := ∀ a ∈ as, ∃ x ∈ l, x.addr = a

/-- The nodes differ at most in what a call may change. -/
def WindowGraphNode.SameOptions (node node' : WindowGraphNode) : Prop :=
  ∃ buffer set skipNext, node' = node.withBuffer buffer set skipNext

/-- The state of a call at an event that is not buffered: the buffered events stand around it. -/
structure WindowAround (P : Platform) (pre : List EventNode) (e : EventNode) (post : List EventNode)
    (s : WindowState) (as : List Addr) : Prop where
  holds : WindowHolds P s.node as
  nodes : s.events.nodes = pre ++ e :: post
  nodup : s.events.addrs.Nodup
  live : InList (pre ++ post) as

section

variable {P : Platform} {node node' node'' : WindowGraphNode} {as : List Addr}
  {s s' : WindowState} {source : GraphNode} {b e r : EventNode}
  {l l' pre post : List EventNode} {mallocs : Nat}

theorem InList.mono (h : InList l as) (hsub : l ⊆ l') : InList l' as := fun a ha =>
  have ⟨x, hx, heq⟩ := h a ha
  ⟨x, hsub hx, heq⟩

theorem InList.drop (h : InList l as) (k : Nat) : InList l (as.drop k) := fun a ha =>
  h a (List.mem_of_mem_drop ha)

theorem InList.events (h : InList l as) :
    ∃ origs : List EventNode, origs.map EventNode.addr = as ∧ ∀ x ∈ origs, x ∈ l := by
  induction as with
  | nil => exact ⟨[], rfl, by simp⟩
  | cons a as ih =>
      obtain ⟨x, hx, rfl⟩ := h a List.mem_cons_self
      obtain ⟨origs, rfl, hmem⟩ := ih fun b hb => h b (List.mem_cons_of_mem _ hb)
      exact ⟨x :: origs, rfl, List.forall_mem_cons.mpr ⟨hx, hmem⟩⟩

theorem WindowGraphNode.SameOptions.refl (node : WindowGraphNode) : node.SameOptions node :=
  ⟨node.buffer, node.bufferedSet, node.skipNext, rfl⟩

theorem WindowGraphNode.SameOptions.trans (h : node.SameOptions node')
    (h' : node'.SameOptions node'') : node.SameOptions node'' := by
  obtain ⟨_, _, _, rfl⟩ := h
  obtain ⟨buffer, set, skipNext, rfl⟩ := h'
  exact ⟨buffer, set, skipNext, rfl⟩

/-- An event that the buffered ones stand around is not buffered. -/
theorem WindowAround.not_mem (h : WindowAround P pre e post s as) : e.addr ∉ as := by
  intro he
  obtain ⟨x, hx, heq⟩ := h.live _ he
  have hnodup := h.nodup
  rw [EventList.addrs, h.nodes] at hnodup
  obtain ⟨hpre, hpost⟩ := @EventList.not_mem_addrs_of_nodup e pre post 0 hnodup
  rcases List.mem_append.mp hx with hx | hx
  · exact hpre (heq ▸ List.mem_map_of_mem hx)
  · exact hpost (heq ▸ List.mem_map_of_mem hx)

/-! ## A new window in front of an event -/

/-- A new window at a base right in front of the event `r`. -/
theorem triggerNewWindow_around (h : WindowHolds P s.node as)
    (hnodes : s.events.nodes = pre ++ b :: r :: post) (hnodup : s.events.addrs.Nodup)
    (hlive : InList (pre ++ post) as) :
    ∃ outs s', triggerNewWindow P source (some b.addr) s = .ok s' ∧
      WindowAround P (pre ++ outs) r post s' (as.drop (windowStep s.node)) ∧
      s.node.SameOptions s'.node ∧ s'.draws = s.draws := by
  obtain ⟨origs, horigs, hmem⟩ := (hlive.drop (windowStep s.node)).events
  have hmem' : ∀ x ∈ origs, x ∈ pre ++ r :: post := by
    exact fun x hx => mem_around [r] (hmem x hx)
  obtain ⟨buffer, set, outs, mallocs', hrun, hholds, -, hnodup', -⟩ :=
    triggerNewWindow_spec h hnodes hnodup origs horigs hmem'
  refine ⟨outs, _, hrun, ⟨hholds, by simp, hnodup', ?_⟩, ⟨_, _, _, rfl⟩, rfl⟩
  refine (hlive.drop _).mono fun x hx => ?_
  rw [List.append_assoc]
  exact mem_around outs hx

/-! ## The time loop -/

theorem windowOutlived_nil (h : WindowHolds P s.node []) (newTime : AbsoluteTime) :
    windowOutlived s newTime = .ok false := by
  unfold windowOutlived
  rw [h.length, List.length_nil, if_neg (by simp)]

/-- The test of the time loop on a buffer that is not empty. -/
theorem windowOutlived_cons {x : EventNode} (h : WindowHolds P s.node (x.addr :: as))
    (hx : x ∈ s.events.nodes) (hnodup : s.events.addrs.Nodup) (newTime : AbsoluteTime) :
    windowOutlived s newTime = .ok (s.node.hasMaxTime &&
      !decide (relativeTimeCmp (absoluteTimeSubAbsolute newTime x.time) s.node.maxTime ≤ 0)) := by
  have hlookup : s.events.lookup x.addr = some x := by
    obtain ⟨pre, post, hsplit⟩ := List.append_of_mem hx
    have hevents : s.events = ⟨pre ++ x :: post, s.events.mallocs⟩ := by rw [← hsplit]
    rw [hevents]
    exact EventList.lookup_split (hevents ▸ hnodup)
  unfold windowOutlived
  rw [h.length, queuePeek, queueTryPeek_holds h.buffer]
  cases s.node.hasMaxTime with
  | false => rfl
  | true =>
      simp only [List.length_cons, Nat.succ_pos, decide_true, Bool.and_self, if_true, List.map_cons,
        List.head?_cons, bind, Except.bind, Option.getD_some, hlookup, Bool.true_and]

theorem WindowAround.outlived_ok (h : WindowAround P pre e post s as) (newTime : AbsoluteTime) :
    ∃ outlived, windowOutlived s newTime = .ok outlived ∧ (outlived = true → as ≠ []) := by
  cases as with
  | nil => exact ⟨false, windowOutlived_nil h.holds newTime, by simp⟩
  | cons a as =>
      obtain ⟨x, hx, rfl⟩ := h.live a List.mem_cons_self
      have hmem : x ∈ s.events.nodes := h.nodes ▸ mem_around [e] hx
      exact ⟨_, windowOutlived_cons h.holds hmem h.nodup newTime, by simp⟩

/-- A round of the time loop for which there is a replica. -/
theorem timeLoop_round {self fuel mallocs : Nat} {newTime : AbsoluteTime} {r : EventNode}
    (h : WindowAround P pre e post s as) (houtlived : windowOutlived s newTime = .ok true)
    (hreplicate : replicateAndAdvance P.allocator e.addr s.events =
      .ok (some e.addr, r.addr, ⟨pre ++ e :: r :: post, mallocs⟩))
    (hnodup : (EventList.mk (pre ++ e :: r :: post) mallocs).addrs.Nodup) :
    ∃ outs s₁, timeLoop P self source newTime (fuel + 1) e.addr s =
        timeLoop P self source newTime fuel r.addr s₁ ∧
      WindowAround P (pre ++ outs) { r with position := some (.node self) } post s₁
        (as.drop (windowStep s.node)) ∧
      s.node.SameOptions s₁.node ∧ s₁.draws = s.draws := by
  obtain ⟨l, hassign, hassign', hnodup'⟩ := @assign_positions e pre post r self mallocs hnodup
  obtain ⟨outs, s₁, htrigger, haround, hoptions, hdraws⟩ :=
    @triggerNewWindow_around P as
      { s with events := ⟨pre ++ { e with position := none } ::
        { r with position := some (.node self) } :: post, mallocs⟩ } source
      { e with position := none } { r with position := some (.node self) } pre post h.holds rfl
      hnodup' h.live
  refine ⟨outs, s₁, ?_, haround, hoptions, hdraws⟩
  rw [timeLoop]
  simp only [houtlived, hreplicate, hassign, hassign', bind, Except.bind, if_true]
  dsimp only at htrigger
  rw [htrigger]

/-- The time loop drops events from the front of the buffer; it ends within as many rounds as there
are events, with the event or a replica of it. -/
theorem timeLoop_around {self : Nat} {newTime : AbsoluteTime} (fuel : Nat)
    (h : WindowAround P pre e post s as) (hposition : e.position = some (.node self)) :
    (timeLoop P self source newTime fuel e.addr s = .error .diverges ∧ fuel ≤ as.length) ∨
    ∃ result s' k outs e', timeLoop P self source newTime fuel e.addr s = .ok (result, s') ∧
      WindowAround P (pre ++ outs) e' post s' (as.drop k) ∧ s.node.SameOptions s'.node ∧
      e'.data = e.data ∧ e'.position = some (.node self) ∧ s'.draws = s.draws ∧
      (result = some e'.addr ∧ windowOutlived s' newTime = .ok false ∨
        result = none ∧ ¬P.allocator.Succeeds) ∧
      (windowOutlived s newTime = .ok false → s' = s) ∧
      (windowOutlived s newTime = .ok true →
        P.allocator.malloc s.events.mallocs s.events.addrs.toFinset ≠ none → 0 < k) := by
  induction fuel generalizing pre e s as with
  | zero => exact .inl ⟨rfl, Nat.zero_le _⟩
  | succ fuel ih =>
      obtain ⟨outlived, houtlived, hne⟩ := h.outlived_ok newTime
      rw [timeLoop, houtlived]
      cases outlived with
      | false =>
          refine .inr ⟨_, s, 0, [], e, rfl, ?_, .refl _, rfl, hposition, rfl,
            .inl ⟨rfl, houtlived⟩, fun _ => rfl, by simp⟩
          rw [List.append_nil, List.drop_zero]
          exact h
      | true =>
          have hevents : s.events = ⟨pre ++ e :: post, s.events.mallocs⟩ := by rw [← h.nodes]
          have hnodup : (EventList.mk (pre ++ e :: post) s.events.mallocs).addrs.Nodup :=
            hevents ▸ h.nodup
          rcases replicateAndAdvance_split P.allocator hnodup with
            ⟨hm, hreplicate⟩ | ⟨-, r, hreplicate, hnodup_r, hdata⟩
          · -- no replica: the event stays where it is
            rw [← hevents] at hreplicate hm
            simp only [bind, Except.bind, if_true, hreplicate]
            refine .inr ⟨_, _, 0, [], e, rfl, ?_, .refl _, rfl, hposition, rfl,
              .inr ⟨rfl, Allocator.not_succeeds hm⟩, by simp, fun _ hne => absurd hm hne⟩
            rw [List.append_nil, List.drop_zero]
            exact ⟨h.holds, rfl, hnodup, h.live⟩
          · rw [← hevents] at hreplicate
            obtain ⟨outs, s₁, hround, haround, hoptions, hdraws⟩ :=
              @timeLoop_round P as s source e pre post self fuel _ newTime r h houtlived hreplicate
                hnodup_r
            rw [timeLoop, houtlived] at hround
            rw [hround]
            -- at least the front of the buffer was dropped
            have hshorter : (as.drop (windowStep s.node)).length < as.length := by
              have hstep := windowStep_pos s.node
              have hpos := List.length_pos_iff.mpr (hne rfl)
              rw [List.length_drop]
              omega
            rcases ih haround rfl with ⟨hdiverges, hfuel⟩ |
              ⟨result, s', k, outs', e', hrun, haround', hoptions', hdata', hposition', hdraws', hend,
                -, -⟩
            · exact .inl ⟨hdiverges, by omega⟩
            · refine .inr ⟨result, s', windowStep s.node + k, outs ++ outs', e', hrun, ?_,
                hoptions.trans hoptions', hdata'.trans hdata, hposition', hdraws'.trans hdraws, hend,
                by simp, fun _ _ => Nat.add_pos_left (windowStep_pos _) _⟩
              rw [← List.drop_drop, ← List.append_assoc]
              exact haround'

/-! ## The length loop -/

/-- The length loop drops events from the front of the buffer until it is shorter than the
threshold. -/
theorem lengthLoop_around {threshold : Nat} (fuel : Nat) (h : WindowAround P pre b post s as) :
    (lengthLoop P source threshold fuel b.addr s = .error .diverges ∧
      (P.allocator.Succeeds → 0 < threshold → fuel ≤ as.length)) ∨
    ∃ s' k outs b', lengthLoop P source threshold fuel b.addr s = .ok (b'.addr, s') ∧
      WindowAround P (pre ++ outs) b' post s' (as.drop k) ∧ s.node.SameOptions s'.node ∧
      s'.draws = s.draws ∧ (as.drop k).length < threshold := by
  induction fuel generalizing pre b s as with
  | zero => exact .inl ⟨rfl, fun _ _ => Nat.zero_le _⟩
  | succ fuel ih =>
      rw [lengthLoop, h.holds.length]
      by_cases hfull : as.length ≥ threshold
      · rw [if_pos hfull]
        have hevents : s.events = ⟨pre ++ b :: post, s.events.mallocs⟩ := by rw [← h.nodes]
        have hnodup : (EventList.mk (pre ++ b :: post) s.events.mallocs).addrs.Nodup :=
          hevents ▸ h.nodup
        rcases replicateAndAdvance_split P.allocator hnodup with
          ⟨hm, hreplicate⟩ | ⟨-, r, hreplicate, hnodup_r, -⟩ <;> rw [← hevents] at hreplicate
        · -- a null base closes nothing, and the loop tries again
          simp only [bind, Except.bind, hreplicate, triggerNewWindow]
          rcases @ih as { s with events := ⟨pre ++ b :: post, s.events.mallocs + 1⟩ } b pre
            ⟨h.holds, rfl, hnodup, h.live⟩ with ⟨hdiverges, -⟩ | hends
          · exact .inl ⟨hdiverges, fun hA => absurd hA (Allocator.not_succeeds hm)⟩
          · exact .inr hends
        · obtain ⟨outs, s₁, htrigger, haround, hoptions, hdraws⟩ :=
            @triggerNewWindow_around P as
              { s with events := ⟨pre ++ b :: r :: post, s.events.mallocs + 1⟩ } source b r
              pre post h.holds rfl hnodup_r h.live
          simp only [bind, Except.bind, hreplicate, htrigger]
          dsimp only at haround
          rcases ih haround with ⟨hdiverges, hfuel⟩ |
            ⟨s', k, outs', b', hrun, haround', hoptions', hdraws', hshort⟩
          · refine .inl ⟨hdiverges, fun hA hpos => ?_⟩
            -- every round but the last drops at least one event
            have hle := hfuel hA hpos
            have hstep := windowStep_pos s.node
            rw [List.length_drop] at hle
            omega
          · refine .inr ⟨s', windowStep s.node + k, outs ++ outs', b', hrun, ?_,
              hoptions.trans hoptions', hdraws'.trans hdraws, ?_⟩
            · rw [← List.drop_drop, ← List.append_assoc]
              exact haround'
            · rw [← List.drop_drop]
              exact hshort
      · rw [if_neg hfull]
        refine .inr ⟨s, 0, [], b, rfl, ?_, .refl _, rfl, not_le.mp hfull⟩
        rw [List.append_nil, List.drop_zero]
        exact h

/-! ## Acceptance -/

theorem passThrough_returns (hnodes : s.events.nodes = pre ++ e :: post)
    (h : s.events.addrs.Nodup) : ∃ s', passThrough P source e.addr s = .ok s' := by
  have hevents : s.events = ⟨pre ++ e :: post, s.events.mallocs⟩ := by rw [← hnodes]
  have hnodup : (EventList.mk (pre ++ e :: post) s.events.mallocs).addrs.Nodup := hevents ▸ h
  have hreplicate := @eventReplicate_one P.allocator e pre post s.events.mallocs hnodup
  rw [← hevents] at hreplicate
  simp only [passThrough, hreplicate, bind, Except.bind]
  cases hm : P.allocator.malloc s.events.mallocs s.events.addrs.toFinset with
  | none => exact ⟨_, rfl⟩
  | some a =>
      have hnodup_a := @EventList.nodup_of_malloc P.allocator e pre post s.events.mallocs a e.data
        (by rw [← hevents]; exact hm) hnodup (s.events.mallocs + 1)
      have hnext := EventList.next_split hnodup_a
      simp only [one_ne_zero, if_false, hnext, List.head?_cons, Option.map_some]
      have hsplit : pre ++ e :: ⟨a, none, 0, e.data⟩ :: post =
          (pre ++ [e]) ++ ⟨a, none, 0, e.data⟩ :: post := by simp
      rw [hsplit] at hnodup_a ⊢
      obtain ⟨k, outs, mallocs', hbroadcast, -⟩ :=
        @broadcast_placed P.allocator _ _ _ _ source hnodup_a
      simp only [hbroadcast]
      exact ⟨_, rfl⟩

theorem passThrough_draws {event : Addr} (h : passThrough P source event s = .ok s') :
    s'.draws = s.draws :=
  have ⟨_, _, _, _, hdraws⟩ := passThrough_log h
  hdraws

/-- An event that is not buffered joins the buffer and the set, if the set takes it. -/
theorem bufferEvent_holds (h : WindowHolds P s.node as) {a : Addr} (ha : a ∉ as) :
    (∀ s', bufferEvent P a s = .ok s' → WindowHolds P s'.node (as ++ [a]) ∧
      s.node.SameOptions s'.node ∧ s'.events = s.events) ∧
    ((∃ r, eventSetAdd P s.node.bufferedSet a s.draws = .ok r) →
      ∃ s', bufferEvent P a s = .ok s') := by
  obtain ⟨index, buffer, hput, hbuffer, -⟩ := queuePut_holds h.buffer (some a)
  constructor
  · intro s' hrun
    obtain ⟨index', buffer', set, draws, hput', hadd, rfl⟩ := bufferEvent_cases hrun
    rw [hput] at hput'
    cases hput'
    have hset : { b | b ∈ as ++ [a] } = insert a { b | b ∈ as } := by
      ext b
      simp [or_comm]
    refine ⟨⟨?_, hset ▸ h.set.add ha hadd, ?_⟩, ⟨_, _, _, rfl⟩, rfl⟩
    · rw [List.map_append]
      exact hbuffer
    · refine List.nodup_append.mpr ⟨h.nodup, List.nodup_singleton _, ?_⟩
      rintro b hb _ (_ | ⟨_, ⟨⟩⟩) rfl
      exact ha hb
  · rintro ⟨⟨set, draws⟩, hadd⟩
    rw [bufferEvent, hput]
    simp only [bind, Except.bind, hadd]
    exact ⟨_, rfl⟩

/-- Closing for the sake of length, from the state after the event was buffered. -/
theorem closeByLength_around (h : WindowAround P pre b post s as) :
    (closeByLength P source b.addr s = .error .diverges ∧ s.node.hasMaxLength ∧
      (P.allocator.Succeeds → 0 < s.node.maxLength → P.depth ≤ as.length)) ∨
    ∃ s' k outs b', closeByLength P source b.addr s = .ok (b'.addr, s') ∧
      WindowAround P (pre ++ outs) b' post s' (as.drop k) ∧ s.node.SameOptions s'.node ∧
      (s.node.hasMaxLength → (as.drop k).length < s.node.maxLength) := by
  unfold closeByLength
  split
  · rename_i hmax
    rcases @lengthLoop_around P as s source b pre post s.node.maxLength P.depth h with
      ⟨hdiverges, hfuel⟩ | ⟨s', k, outs, b', hrun, haround, hoptions, -, hshort⟩
    · exact .inl ⟨hdiverges, hmax, hfuel⟩
    · exact .inr ⟨s', k, outs, b', hrun, haround, hoptions, fun _ => hshort⟩
  · rename_i hmax
    refine .inr ⟨s, 0, [], b, rfl, ?_, .refl _, fun h => absurd h hmax⟩
    rw [List.append_nil, List.drop_zero]
    exact h

/-- The state of the call after the event was passed through and buffered, at the replacement. -/
theorem buffered_around {s₁ s₂ : WindowState} (h : WindowAround P pre e post s as)
    (hnodup : (EventList.mk (pre ++ e :: r :: post) mallocs).addrs.Nodup)
    (hpass : passThrough P source e.addr { s with events := ⟨pre ++ e :: r :: post, mallocs⟩ } =
      .ok s₁)
    (hbuffer : bufferEvent P e.addr s₁ = .ok s₂) :
    ∃ outs, WindowAround P (pre ++ e :: outs) r post s₂ (as ++ [e.addr]) ∧
      s.node.SameOptions s₂.node := by
  obtain ⟨outs, hnodes, -, hnodup₁, hnode⟩ := passThrough_split rfl hnodup hpass
  have hholds₁ : WindowHolds P s₁.node as := by
    rw [hnode]
    exact h.holds
  obtain ⟨hholds, hoptions, hevents⟩ := (bufferEvent_holds hholds₁ h.not_mem).1 s₂ hbuffer
  rw [hnode] at hoptions
  rw [← hevents] at hnodes hnodup₁
  refine ⟨outs, ⟨hholds, by simp [hnodes], hnodup₁, fun a ha => ?_⟩, hoptions⟩
  rcases List.mem_append.mp ha with ha | ha
  · obtain ⟨x, hx, heq⟩ := h.live a ha
    refine ⟨x, ?_, heq⟩
    rw [List.append_assoc]
    exact mem_around (e :: outs) hx
  · exact ⟨e, by simp, (List.mem_singleton.mp ha).symm⟩

/-- An accepted event is the last of the buffer, from the front of which events may be dropped. -/
theorem windowAccept_around (h : WindowAround P pre e post s as)
    (hrun : windowAccept P source e.addr s = .ok s') :
    ∃ k outs, WindowHolds P s'.node ((as ++ [e.addr]).drop k) ∧ s.node.SameOptions s'.node ∧
      s'.events.nodes = pre ++ e :: (outs ++ post) ∧ s'.events.addrs.Nodup ∧
      (P.allocator.Succeeds → s.node.hasMaxLength →
        ((as ++ [e.addr]).drop k).length < s.node.maxLength) := by
  rcases windowAccept_cases h.nodes h.nodup hrun with
    ⟨hm, s₁, hpass, hbuffer⟩ |
    ⟨-, r, s₁, s₂, replacement, s₃, events, hnodup, hpass, hbuffer, hclose, hdestroyed, rfl⟩
  · -- no replacement: the event is buffered, and no window is closed
    have hnodup : (EventList.mk (pre ++ e :: post) (s.events.mallocs + 1)).addrs.Nodup := by
      simpa [EventList.addrs, ← h.nodes] using h.nodup
    obtain ⟨outs, hnodes₁, -, hnodup₁, hnode⟩ := passThrough_split rfl hnodup hpass
    have hholds₁ : WindowHolds P s₁.node as := by
      rw [hnode]
      exact h.holds
    obtain ⟨hholds, hoptions, hevents⟩ := (bufferEvent_holds hholds₁ h.not_mem).1 s' hbuffer
    rw [hnode] at hoptions
    rw [← hevents] at hnodes₁ hnodup₁
    exact ⟨0, outs, hholds, hoptions, hnodes₁, hnodup₁,
      fun hA => absurd hA (Allocator.not_succeeds hm)⟩
  · obtain ⟨outs, haround, hoptions⟩ := buffered_around h hnodup hpass hbuffer
    rcases @closeByLength_around P _ s₂ source r _ post haround with
      ⟨hdiverges, -⟩ | ⟨_, k, outs', b', hclose', haround', hoptions', hshort⟩
    · rw [hclose] at hdiverges
      cases hdiverges
    · rw [hclose] at hclose'
      cases hclose'
      have hevents₃ : s₃.events = ⟨((pre ++ e :: outs) ++ outs') ++ b' :: post, s₃.events.mallocs⟩ := by
        rw [← haround'.nodes]
      have hlast : (EventList.mk (((pre ++ e :: outs) ++ outs') ++ b' :: post)
          s₃.events.mallocs).addrs.Nodup := hevents₃ ▸ haround'.nodup
      -- the replacement is destroyed at the end
      have hdestroy := eventDestroy_split hlast
      rw [← hevents₃] at hdestroy
      obtain rfl := Except.ok.inj (hdestroyed.symm.trans hdestroy)
      have hdrop := @EventList.nodup_replace ((pre ++ e :: outs) ++ outs') post [b'] s₃.events.mallocs
        [] s₃.events.mallocs (List.nil_sublist _) hlast
      refine ⟨k, outs ++ outs', haround'.holds, hoptions.trans hoptions', by simp, hdrop,
        fun _ hmax => ?_⟩
      obtain ⟨_, _, _, hnode₂⟩ := hoptions
      rw [hnode₂] at hshort
      exact hshort hmax

/-- With memory, a positive bound and a set that takes the event, acceptance returns. -/
theorem windowAccept_returns (h : WindowAround P pre e post s as) (hA : P.allocator.Succeeds)
    (hadd : ∃ r, eventSetAdd P s.node.bufferedSet e.addr s.draws = .ok r)
    (hmax : s.node.hasMaxLength → 0 < s.node.maxLength) (hdepth : as.length + 1 < P.depth) :
    ∃ s', windowAccept P source e.addr s = .ok s' := by
  have hevents : s.events = ⟨pre ++ e :: post, s.events.mallocs⟩ := by rw [← h.nodes]
  have hnodup : (EventList.mk (pre ++ e :: post) s.events.mallocs).addrs.Nodup := hevents ▸ h.nodup
  obtain ⟨a, hm⟩ :=
    hA s.events.mallocs (EventList.mk (pre ++ e :: post) s.events.mallocs).addrs.toFinset
  have hreplicate := @eventReplicate_one P.allocator e pre post s.events.mallocs hnodup
  rw [hm, ← hevents] at hreplicate
  have hnodup_r := EventList.nodup_of_malloc e.data hm hnodup (s.events.mallocs + 1)
  have hnext := EventList.next_split hnodup_r
  -- each part of the acceptance returns, and leaves what the next one needs
  obtain ⟨s₁, hpass⟩ := @passThrough_returns P { s with
    events := ⟨pre ++ e :: ⟨a, none, 0, e.data⟩ :: post, s.events.mallocs + 1⟩ } source e pre _ rfl
    hnodup_r
  obtain ⟨-, -, -, -, hnode⟩ := passThrough_split rfl hnodup_r hpass
  have hholds₁ : WindowHolds P s₁.node as := by
    rw [hnode]
    exact h.holds
  have hadd₁ : ∃ r, eventSetAdd P s₁.node.bufferedSet e.addr s₁.draws = .ok r := by
    rw [hnode, passThrough_draws hpass]
    exact hadd
  obtain ⟨s₂, hbuffer⟩ := (bufferEvent_holds hholds₁ h.not_mem).2 hadd₁
  obtain ⟨outs, haround, _, _, _, hnode₂⟩ := buffered_around h hnodup_r hpass hbuffer
  unfold windowAccept
  simp only [hreplicate, one_ne_zero, if_false, hnext, List.head?_cons, Option.map_some, hpass,
    hbuffer, bind, Except.bind]
  rcases @closeByLength_around P _ s₂ source _ _ post haround with
    ⟨-, hmax₂, hfuel⟩ | ⟨s', k, outs', b', hclose, haround', -⟩
  · -- the loop has more rounds than the buffer has events
    exfalso
    rw [hnode₂] at hmax₂ hfuel
    have hle := hfuel hA (hmax hmax₂)
    rw [List.length_append, List.length_singleton] at hle
    omega
  · have hevents' : s'.events = ⟨((pre ++ e :: outs) ++ outs') ++ b' :: post, s'.events.mallocs⟩ := by
      rw [← haround'.nodes]
    have hdestroy := eventDestroy_split (hevents' ▸ haround'.nodup)
    rw [← hevents'] at hdestroy
    rw [hclose]
    simp only [hdestroy]
    exact ⟨_, rfl⟩

end

/-! ## A call of the handler -/

/-- The invariant of the window node `n`: its buffer holds these events, all in the list at its
position, each once, and its set holds the same ones. -/
structure WindowInvariant (P : Platform) (n : Nat) (window : WindowGraphNode) (as : List Addr)
    (w : World) : Prop where
  nodup : w.events.addrs.Nodup
  at_node : w.WindowAt n window
  holds : WindowHolds P window as
  live : ∀ a ∈ as, ∃ x ∈ w.eventsAt n, x.addr = a

/-- The state of a call after its time loop, with the event or the replica that stands for it. -/
structure AfterTimeLoop (P : Platform) (w : World) (n : Nat) (window : WindowGraphNode)
    (pre : List EventNode) (e : EventNode) (post : List EventNode) (as : List Addr)
    (s : WindowState) (k : Nat) (outs : List EventNode) (e' : EventNode) : Prop where
  around : WindowAround P (pre ++ outs) e' post s (as.drop k)
  options : window.SameOptions s.node
  data : e'.data = e.data
  position : e'.position = some (.node n)
  draws : s.draws = w.draws
  idle : windowOutlived (w.windowState window) e.time = .ok false → s = w.windowState window
  drops : windowOutlived (w.windowState window) e.time = .ok true →
    P.allocator.malloc w.events.mallocs w.events.addrs.toFinset ≠ none → 0 < k

/-- All that a call can come to: its result, the world after it, and what is left in the buffer. -/
inductive WindowOutcome (P : Platform) (w : World) (n : Nat) (window : WindowGraphNode)
    (pre : List EventNode) (e : EventNode) (post : List EventNode) (as : List Addr) :
    Bool → World → List Addr → Prop where
  | hidden : e.addr ∈ as → WindowOutcome P w n window pre e post as false w as
  | failed {s : WindowState} {k : Nat} {outs : List EventNode} {e' : EventNode} {waiting : Bool} :
      AfterTimeLoop P w n window pre e post as s k outs e' → e.addr ∉ as →
      windowOutlived (w.windowState window) e.time = .ok true → ¬P.allocator.Succeeds →
      WindowOutcome P w n window pre e post as false (w.putWindow n s waiting) (as.drop k)
  | skipped {s : WindowState} {k : Nat} {outs : List EventNode} {e' : EventNode} {waiting : Bool} :
      AfterTimeLoop P w n window pre e post as s k outs e' → e.addr ∉ as →
      windowOutlived s e.time = .ok false → 0 < s.node.skipNext →
      WindowOutcome P w n window pre e post as true (w.putWindow n
        { s with
          node := { s.node with skipNext := s.node.skipNext - 1 }
          log := s.log ++ [.skipped e'.addr] } waiting) (as.drop k)
  | accepted {s s' : WindowState} {k k' : Nat} {outs outs' : List EventNode} {e' : EventNode} :
      AfterTimeLoop P w n window pre e post as s k outs e' → e.addr ∉ as →
      windowOutlived s e.time = .ok false → s.node.skipNext = 0 →
      WindowHolds P s'.node ((as.drop k ++ [e'.addr]).drop k') → s.node.SameOptions s'.node →
      s'.events.nodes = (pre ++ outs) ++ e' :: (outs' ++ post) → s'.events.addrs.Nodup →
      (P.allocator.Succeeds → window.hasMaxLength →
        ((as.drop k ++ [e'.addr]).drop k').length < window.maxLength) →
      WindowOutcome P w n window pre e post as true (w.putWindow n s' true)
        ((as.drop k ++ [e'.addr]).drop k')

section

variable {P : Platform} {w w' : World} {n : Nat} {window window' : WindowGraphNode}
  {as as' : List Addr} {e : EventNode} {pre post : List EventNode} {result : Bool}

theorem World.WindowAt.unique (h : w.WindowAt n window)
    (h' : w.WindowAt n window') : window' = window := by
  obtain ⟨node, hnode, hkind⟩ := h
  obtain ⟨node', hnode', hkind'⟩ := h'
  rw [hnode, Option.some.injEq] at hnode'
  rw [← hnode', hkind, NodeKind.window.injEq] at hkind'
  exact hkind'.symm

/-- What a call that is not hidden starts with. -/
theorem WindowInvariant.around (h : WindowInvariant P n window as w) (hw : w.SplitAt pre e post)
    (he : e.addr ∉ as) : WindowAround P pre e post (w.windowState window) as := by
  refine ⟨h.holds, hw.nodes, hw.nodup, fun a ha => ?_⟩
  obtain ⟨x, ⟨hx, -⟩, rfl⟩ := h.live a ha
  refine ⟨x, ?_, rfl⟩
  rw [hw.nodes, List.mem_append, List.mem_cons] at hx
  rw [List.mem_append]
  rcases hx with hx | rfl | hx
  · exact .inl hx
  · exact absurd ha he
  · exact .inr hx

theorem windowHandleEvent_outcome (h : WindowInvariant P n window as w) (hw : w.SplitAt pre e post)
    (hposition : e.position = some (.node n))
    (hrun : windowHandleEvent P w n window e.addr = .ok (result, w')) :
    ∃ as', WindowOutcome P w n window pre e post as result w' as' := by
  simp only [windowHandleEvent, World.lookup_eq hw] at hrun
  obtain ⟨source, -, hrun⟩ := (bind_eq_ok_iff _ _ _).mp hrun
  obtain ⟨_, ⟨⟩, hrun⟩ := (bind_eq_ok_iff _ _ _).mp hrun
  obtain ⟨hidden, hhas, hrun⟩ := (bind_eq_ok_iff _ _ _).mp hrun
  obtain ⟨hidden', hhas', hiff⟩ := h.holds.set.has e.addr
  rw [hhas, Except.ok.injEq] at hhas'
  subst hhas'
  cases hidden with
  | true =>
      cases hrun
      exact ⟨as, .hidden (hiff.mp rfl)⟩
  | false =>
      have he : e.addr ∉ as := fun hmem => Bool.false_ne_true (hiff.mpr hmem)
      have haround := h.around hw he
      simp only [Bool.false_eq_true, if_false] at hrun
      obtain ⟨⟨event, s⟩, htime, hrun⟩ := (bind_eq_ok_iff _ _ _).mp hrun
      change timeLoop P n source e.time P.depth e.addr (w.windowState window) = _ at htime
      rcases timeLoop_around P.depth haround hposition with
        ⟨hdiverges, -⟩ | ⟨event', s', k, outs, e', htime', haround', hoptions, hdata, hposition', hdraws,
          hend, hidle, hdrops⟩
      · rw [htime] at hdiverges
        cases hdiverges
      · rw [htime] at htime'
        cases htime'
        have hafter : AfterTimeLoop P w n window pre e post as s k outs e' :=
          ⟨haround', hoptions, hdata, hposition', hdraws, hidle, hdrops⟩
        rcases hend with ⟨rfl, houtlived⟩ | ⟨rfl, hnot⟩
        · dsimp only at hrun
          split at hrun
          · rename_i hskip
            cases hrun
            exact ⟨_, .skipped hafter he houtlived hskip⟩
          · rename_i hskip
            obtain ⟨s', haccept, ⟨⟩⟩ := (bind_eq_ok_iff _ _ _).mp hrun
            obtain ⟨k', outs', hholds, hoptions', hnodes, hnodup, hshort⟩ :=
              windowAccept_around haround' haccept
            obtain ⟨_, _, _, hnode⟩ := hoptions
            rw [hnode] at hshort
            exact ⟨_, .accepted hafter he houtlived (Nat.eq_zero_of_not_pos hskip) hholds hoptions'
              hnodes hnodup hshort⟩
        · cases hrun
          obtain ⟨outlived, houtlived, -⟩ := haround.outlived_ok e.time
          cases outlived with
          | true => exact ⟨_, .failed hafter he houtlived hnot⟩
          | false =>
              -- a loop that is not entered fails nowhere
              exfalso
              cases hdepth : P.depth with
              | zero =>
                  rw [hdepth] at htime
                  cases htime
              | succ fuel =>
                  rw [hdepth, timeLoop, houtlived] at htime
                  cases htime

theorem WindowOutcome.splits (h : WindowOutcome P w n window pre e post as result w' as')
    (hinv : WindowInvariant P n window as w) (hw : w.SplitAt pre e post)
    (hposition : e.position = some (.node n)) :
    ∃ window' outs e' outs', WindowInvariant P n window' as' w' ∧ window.SameOptions window' ∧
      w'.events.nodes = pre ++ (outs ++ e' :: (outs' ++ post)) ∧ e'.data = e.data ∧
      e'.position = some (.node n) := by
  -- what is buffered afterwards was buffered before, or is the event of the call
  have hlive : ∀ {as' : List Addr} {outs outs' : List EventNode} {e' : EventNode} {s : WindowState}
      {waiting : Bool}, e.addr ∉ as → e'.position = some (.node n) →
      s.events.nodes = pre ++ (outs ++ e' :: (outs' ++ post)) →
      (∀ a ∈ as', a ∈ as ∨ a = e'.addr) →
      ∀ a ∈ as', ∃ x ∈ (w.putWindow n s waiting).eventsAt n, x.addr = a := by
    intro as' outs outs' e' s waiting he hposition' hnodes hsub a ha
    rcases hsub a ha with ha | rfl
    · obtain ⟨x, ⟨hx, hxposition⟩, rfl⟩ := hinv.live a ha
      refine ⟨x, ⟨?_, hxposition⟩, rfl⟩
      show x ∈ s.events.nodes
      rw [hw.nodes, List.mem_append, List.mem_cons] at hx
      rcases hx with hx | rfl | hx
      · simp [hnodes, hx]
      · exact absurd ha he
      · simp [hnodes, hx]
    · refine ⟨e', ⟨?_, hposition'⟩, rfl⟩
      show e' ∈ s.events.nodes
      simp [hnodes]
  have hdrop : ∀ {k : Nat} {e' : EventNode}, ∀ a ∈ as.drop k, a ∈ as ∨ a = e'.addr := fun a ha =>
    .inl (List.mem_of_mem_drop ha)
  cases h with
  | hidden he =>
      exact ⟨window, [], e, [], hinv, .refl _, hw.nodes, rfl, hposition⟩
  | failed hafter he _ _ =>
      have hnodes := hafter.around.nodes
      rw [List.append_assoc] at hnodes
      refine ⟨_, _, _, [], ⟨hafter.around.nodup, World.windowAt_putWindow hinv.at_node _ _,
        hafter.around.holds, ?_⟩, hafter.options, hnodes, hafter.data, hafter.position⟩
      exact @hlive _ _ [] _ _ _ he hafter.position hnodes hdrop
  | skipped hafter he _ _ =>
      have hnodes := hafter.around.nodes
      rw [List.append_assoc] at hnodes
      obtain ⟨_, _, _, hnode⟩ := hafter.options
      have hholds := hafter.around.holds
      refine ⟨_, _, _, [], ⟨hafter.around.nodup, World.windowAt_putWindow hinv.at_node _ _,
        ⟨hholds.buffer, hholds.set, hholds.nodup⟩, ?_⟩, ⟨_, _, _, by rw [hnode]; rfl⟩, hnodes,
        hafter.data, hafter.position⟩
      exact @hlive _ _ [] _ _ _ he hafter.position hnodes hdrop
  | accepted hafter he _ _ hholds hoptions hnodes hnodup _ =>
      rw [List.append_assoc] at hnodes
      refine ⟨_, _, _, _, ⟨hnodup, World.windowAt_putWindow hinv.at_node _ _, hholds, ?_⟩,
        hafter.options.trans hoptions, hnodes, hafter.data, hafter.position⟩
      refine hlive he hafter.position hnodes fun a ha => ?_
      rcases List.mem_append.mp (List.mem_of_mem_drop ha) with ha | ha
      · exact .inl (List.mem_of_mem_drop ha)
      · exact .inr (List.mem_singleton.mp ha)

/-! ## Runs of the system -/

theorem WindowInvariant.created {options : WindowOptions} {draws : Nat}
    (hnodup : w.events.addrs.Nodup) (hat : w.WindowAt n (windowCreate P options draws).1) :
    WindowInvariant P n (windowCreate P options draws).1 [] w where
  nodup := hnodup
  at_node := hat
  holds := windowCreate_holds P options draws
  live := by simp

theorem World.handleEvent_window (hat : w.WindowAt n window) :
    w.handleEvent P (.node n) e = windowHandleEvent P w n window e.addr := by
  obtain ⟨node, hnode, hkind⟩ := hat
  simp only [World.handleEvent, nodeHandleEvent, World.node_eq hnode, bind, Except.bind, hkind]

theorem SystemStep.window_run (h : SystemStep P w (.handle (.node n) e) w')
    (hat : w.WindowAt n window) :
    e ∈ w.eventsAt n ∧ ∃ result, windowHandleEvent P w n window e.addr = .ok (result, w') := by
  cases h with
  | handle he hp hrun =>
      rw [World.handleEvent_window hat] at hrun
      exact ⟨⟨he, hp⟩, _, hrun⟩

theorem WindowInvariant.step {c : SystemCall} (h : WindowInvariant P n window as w)
    (hstep : SystemStep P w c w') :
    ∃ window' as', WindowInvariant P n window' as' w' ∧ window.SameOptions window' := by
  by_cases hc : ∃ e, c = .handle (.node n) e
  · obtain ⟨e, rfl⟩ := hc
    obtain ⟨⟨he, hposition⟩, result, hrun⟩ := hstep.window_run h.at_node
    obtain ⟨pre, post, hw⟩ := World.splitAt_of_mem h.nodup he
    obtain ⟨as', houtcome⟩ := windowHandleEvent_outcome h hw hposition hrun
    obtain ⟨window', -, -, -, hinv, hoptions, -⟩ := houtcome.splits h hw hposition
    exact ⟨window', as', hinv, hoptions⟩
  · obtain ⟨hnodup, hstays, hat, -⟩ := hstep.elsewhere h.nodup h.at_node fun e heq => hc ⟨e, heq⟩
    exact ⟨window, as, ⟨hnodup, hat, h.holds, fun a ha =>
      have ⟨x, hx, heq⟩ := h.live a ha
      ⟨x, hstays hx, heq⟩⟩, .refl _⟩

/-! The bound of the platform on its loops has no part in the invariant. -/

def Platform.withDepth (P : Platform) (depth : Nat) : Platform := { P with depth := depth }

theorem WindowHolds.withDepth (h : WindowHolds P window as) (depth : Nat) :
    WindowHolds (P.withDepth depth) window as :=
  ⟨h.buffer, ⟨h.set.wellFormed, h.set.represents⟩, h.nodup⟩

theorem WindowInvariant.withDepth (h : WindowInvariant P n window as w) (depth : Nat) :
    WindowInvariant (P.withDepth depth) n window as w :=
  ⟨h.nodup, h.at_node, h.holds.withDepth depth, h.live⟩

theorem WindowInvariant.ofDepth {depth : Nat}
    (h : WindowInvariant (P.withDepth depth) n window as w) : WindowInvariant P n window as w :=
  ⟨h.nodup, h.at_node, ⟨h.holds.buffer, ⟨h.holds.set.wellFormed, h.holds.set.represents⟩,
    h.holds.nodup⟩, h.live⟩

/-- A step of the system, whatever bounds the loops of the platform. -/
def SystemMove (P : Platform) (w : World) (c : SystemCall) (w' : World) : Prop :=
  ∃ depth, SystemStep (P.withDepth depth) w c w'

/-- In every run from the creation of the node the invariant holds. -/
theorem WindowInvariant.run {τ : List SystemTransition} (hrun : Run (SystemMove P) w τ w')
    (h : WindowInvariant P n window as w) :
    ∃ window' as', WindowInvariant P n window' as' w' ∧ window.SameOptions window' := by
  induction hrun generalizing window as with
  | nil _ => exact ⟨window, as, h, .refl _⟩
  | cons hstep _ ih =>
      obtain ⟨depth, hstep⟩ := hstep
      obtain ⟨window₁, as₁, h₁, hoptions₁⟩ := (h.withDepth depth).step hstep
      obtain ⟨window₂, as₂, h₂, hoptions₂⟩ := ih h₁.ofDepth
      exact ⟨window₂, as₂, h₂, hoptions₁.trans hoptions₂⟩

end

end EventSeq
