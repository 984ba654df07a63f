import EventSeq.WindowArrivals
import EventSeq.WindowInvariant

/-!
# The representation invariant of a window node

A window node is given events that are new to it, in the order of their times.  After every call its
buffer and its set hold the same events, and the buffer keeps to the bounds of the node: it is shorter
than `max_length`, and its events lie within `max_time`.
-/

namespace EventSeq

open Lib

/-- The handler is called on an event that is new to the node, and returns.  Until then the rest of
the program has left the node and its events alone. -/
inductive WindowFeed (P : Platform) (n : Nat) : World → EventNode → World → Prop where
  | call {w w₁ w' : World} {window : WindowGraphNode} {e : EventNode} {result : Bool} {depth : Nat} :
      w.WindowAt n window → w₁.WindowAt n window → w₁.events.addrs.Nodup →
      w.eventsAt n ⊆ w₁.eventsAt n → e ∈ w₁.eventsAt n → (∀ x ∈ w.eventsAt n, x.addr ≠ e.addr) →
      windowHandleEvent (P.withDepth depth) w₁ n window e.addr = .ok (result, w') →
      WindowFeed P n w e w'

/-- What holds of a window node after a call: it is one with the options it was created with, and
`events` are the events of its buffer. -/
structure WindowRepresents (P : Platform) (n : Nat) (created window : WindowGraphNode)
    (events : List EventNode) (w : World) : Prop where
  at_node : w.WindowAt n window
  options : created.SameOptions window
  contents : queueContents window.buffer = .ok (events.map fun x => some x.addr)
  distinct : (events.map EventNode.addr).Nodup
  listed : ∀ x ∈ events, x ∈ w.events.nodes
  set : ∀ a, ∃ has, eventSetHas P window.bufferedSet a = .ok has ∧
    (has = true ↔ a ∈ events.map EventNode.addr)
  short : window.hasMaxLength → queueLength window.buffer < window.maxLength
  within : window.hasMaxTime → ∀ first ∈ events.head?, ∀ last ∈ events.getLast?,
    relativeTimeCmp (absoluteTimeSubAbsolute last.time first.time) window.maxTime ≤ 0

/-- These events keep to the bound on time, and they are in the order of their times. -/
structure TimedEvents (window : WindowGraphNode) (l : List EventNode) : Prop where
  normalized : ∀ x ∈ l, x.time.Normalized
  ordered : l.Pairwise fun x y => x.time ≤ y.time
  within : window.hasMaxTime → l.Pairwise fun x y =>
    relativeTimeCmp (absoluteTimeSubAbsolute y.time x.time) window.maxTime ≤ 0

/-- The invariant between the calls.  Before the first one a bound of 0 is met by the empty buffer
only, and nothing is skipped. -/
structure TimedWindow (P : Platform) (n : Nat) (created window : WindowGraphNode)
    (events : List EventNode) (w : World) : Prop where
  invariant : WindowInvariant P n window (events.map EventNode.addr) w
  options : created.SameOptions window
  here : ∀ x ∈ events, x ∈ w.eventsAt n
  timed : TimedEvents window events
  nonneg : relativeTimeCmp ⟨⟨0, 0⟩⟩ window.maxTime ≤ 0
  short : window.hasMaxLength →
    events.length < window.maxLength ∨ events = [] ∧ window.skipNext = 0

section

variable {P : Platform} {w w' : World} {n : Nat} {created window : WindowGraphNode}
  {window' : WindowGraphNode} {events l l' pre post : List EventNode} {e : EventNode}
  {s : WindowState}

theorem TimedWindow.represents (h : TimedWindow P n created window events w)
    (hshort : window.hasMaxLength → events.length < window.maxLength) :
    WindowRepresents P n created window events w where
  at_node := h.invariant.at_node
  options := h.options
  contents := by
    have hcontents := queueContents_holds h.invariant.holds.buffer
    rw [List.map_map] at hcontents
    exact hcontents
  distinct := h.invariant.holds.nodup
  listed x hx := (h.here x hx).1
  set := h.invariant.holds.set.has
  short hmax := by
    rw [h.invariant.holds.length, List.length_map]
    exact hshort hmax
  within hmax first hfirst last hlast := by
    cases events with
    | nil => cases hfirst
    | cons x rest =>
        obtain rfl : x = first := Option.some.inj hfirst
        rcases List.mem_cons.mp (List.mem_of_getLast? hlast) with rfl | hmem
        · -- a single event, or a list that ends with its first one
          rw [absoluteTimeSubAbsolute_self (h.timed.normalized _ List.mem_cons_self)]
          exact h.nonneg
        · exact (List.pairwise_cons.mp (h.timed.within hmax)).1 last hmem

theorem TimedEvents.sublist (h : TimedEvents window l) (hsub : l'.Sublist l) :
    TimedEvents window l' where
  normalized x hx := h.normalized x (hsub.subset hx)
  ordered := h.ordered.sublist hsub
  within hmax := (h.within hmax).sublist hsub

theorem TimedEvents.options (h : TimedEvents window l) (hoptions : window.SameOptions window') :
    TimedEvents window' l := by
  obtain ⟨_, _, _, rfl⟩ := hoptions
  exact ⟨h.normalized, h.ordered, h.within⟩

/-- An event that is not earlier joins, if the others are young enough for it. -/
theorem TimedEvents.concat (h : TimedEvents window l) (htime : e.time.Normalized)
    (hlater : ∀ x ∈ l, x.time ≤ e.time)
    (hyoung : window.hasMaxTime → ∀ x ∈ l,
      relativeTimeCmp (absoluteTimeSubAbsolute e.time x.time) window.maxTime ≤ 0) :
    TimedEvents window (l ++ [e]) := by
  have hpair : ∀ {R : EventNode → EventNode → Prop}, l.Pairwise R → (∀ x ∈ l, R x e) →
      (l ++ [e]).Pairwise R := by
    intro R hR hlast
    refine List.pairwise_append.mpr ⟨hR, List.pairwise_singleton _ _, fun x hx y hy => ?_⟩
    rw [List.mem_singleton.mp hy]
    exact hlast x hx
  refine ⟨fun x hx => ?_, hpair h.ordered hlater, fun hmax => hpair (h.within hmax) (hyoung hmax)⟩
  rcases List.mem_append.mp hx with hx | hx
  · exact h.normalized x hx
  · rw [List.mem_singleton.mp hx]
    exact htime

/-- Where the window is not outlived, every event of the buffer is young enough. -/
theorem TimedEvents.young {newTime : AbsoluteTime} (h : TimedEvents window l)
    (haround : WindowAround P pre e post s (l.map EventNode.addr)) (hmem : ∀ x ∈ l, x ∈ pre ++ post)
    (htime : newTime.Normalized) (houtlived : windowOutlived s newTime = .ok false)
    (hmax : s.node.hasMaxTime) :
    ∀ y ∈ l, relativeTimeCmp (absoluteTimeSubAbsolute newTime y.time) s.node.maxTime ≤ 0 := by
  cases l with
  | nil => simp
  | cons x rest =>
      have hx : x ∈ s.events.nodes := haround.nodes ▸ mem_around [e] (hmem x List.mem_cons_self)
      rw [windowOutlived_cons haround.holds hx haround.nodup newTime, hmax, Bool.true_and,
        Except.ok.injEq, Bool.not_eq_false', decide_eq_true_iff] at houtlived
      intro y hy
      have hle : x.time ≤ y.time := by
        rcases List.mem_cons.mp hy with rfl | hy
        · exact le_rfl
        · exact (List.pairwise_cons.mp h.ordered).1 y hy
      rw [relativeTimeCmp_nonpos_iff] at houtlived ⊢
      exact (absoluteTimeSubAbsolute_mono (h.normalized x List.mem_cons_self) (h.normalized y hy)
        htime htime hle le_rfl).trans houtlived

/-- After the time loop the new event joins: it has left only events that are young enough. -/
theorem TimedEvents.concat_young (h : TimedEvents window l)
    (haround : WindowAround P pre e post s (l.map EventNode.addr)) (hmem : ∀ x ∈ l, x ∈ pre ++ post)
    (hoptions : window.SameOptions s.node) (htime : e.time.Normalized)
    (hlater : ∀ x ∈ l, x.time ≤ e.time) (houtlived : windowOutlived s e.time = .ok false) :
    TimedEvents window (l ++ [e]) := by
  apply h.concat htime hlater
  intro hmax
  obtain ⟨_, _, _, hnode⟩ := hoptions
  have hyoung := h.young haround hmem htime houtlived (hnode ▸ hmax)
  rw [hnode] at hyoung
  exact hyoung

/-- The invariant after a call, from what the call leaves in the buffer. -/
theorem TimedWindow.next {events' : List EventNode} (h : TimedWindow P n created window events w)
    (hinv : WindowInvariant P n window' (events'.map EventNode.addr) w')
    (hoptions : window.SameOptions window') (hhere : ∀ x ∈ events', x ∈ w'.eventsAt n)
    (htimed : TimedEvents window events')
    (hshort : window.hasMaxLength → events'.length < window.maxLength) :
    TimedWindow P n created window' events' w' ∧
      (window'.hasMaxLength → events'.length < window'.maxLength) := by
  have htimed' := htimed.options hoptions
  have hall := h.options.trans hoptions
  obtain ⟨_, _, _, rfl⟩ := hoptions
  exact ⟨⟨hinv, hall, hhere, htimed', h.nonneg, fun hmax => .inl (hshort hmax)⟩, hshort⟩

/-- Nothing is skipped while the buffer is as long as the bound, which is before the first call. -/
theorem TimedWindow.short_of_skipped (h : TimedWindow P n created window events w) (s' : WindowState)
    (hskip : 0 < s.node.skipNext) (hs : s'.node = window)
    (hidle : windowOutlived s' e.time = .ok false → s = s') :
    window.hasMaxLength → events.length < window.maxLength := by
  intro hmax
  rcases h.short hmax with hlt | ⟨hnil, hzero⟩
  · exact hlt
  · exfalso
    have hempty : WindowHolds P s'.node [] := by
      rw [hs]
      simpa [hnil] using h.invariant.holds
    rw [hidle (windowOutlived_nil hempty _), hs] at hskip
    omega

/-- One call keeps the invariant, and the bound on the length holds after it. -/
theorem TimedWindow.feed (hA : P.allocator.Succeeds) (h : TimedWindow P n created window events w)
    (hfeed : WindowFeed P n w e w') (htime : e.time.Normalized)
    (hlater : ∀ x ∈ events, x.time ≤ e.time) :
    ∃ window' events', (TimedWindow P n created window' events' w' ∧
      (window'.hasMaxLength → events'.length < window'.maxLength)) ∧
      ∀ x ∈ events', x.time ≤ e.time := by
  cases hfeed with
  | @call w₁ _ window₁ _ result depth hat hat₁ hnodup₁ hstays he hfresh hrun =>
      obtain rfl := h.invariant.at_node.unique hat
      have hinv : WindowInvariant (P.withDepth depth) n window₁ (events.map EventNode.addr) w₁ :=
        ⟨hnodup₁, hat₁, h.invariant.holds.withDepth depth, fun a ha =>
          have ⟨x, hx, heq⟩ := h.invariant.live a ha
          ⟨x, hstays hx, heq⟩⟩
      obtain ⟨pre, post, hw⟩ := World.splitAt_of_mem hnodup₁ he.1
      have hnew : e.addr ∉ events.map EventNode.addr := fun hmem => by
        obtain ⟨x, hx, heq⟩ := List.mem_map.mp hmem
        exact hfresh x (h.here x hx) heq
      have hmem : ∀ x ∈ events, x ∈ pre ++ post := by
        intro x hx
        apply mem_around_of_ne (hw.nodes ▸ (hstays (h.here x hx)).1)
        rintro rfl
        exact hnew (List.mem_map_of_mem hx)
      obtain ⟨as', houtcome⟩ := windowHandleEvent_outcome hinv hw he.2 hrun
      obtain ⟨window', _, _, _, hinv', hoptions', hnodes', -, -⟩ := houtcome.splits hinv hw he.2
      have hdropped : ∀ {k}, ∀ x ∈ events.drop k, x ∈ events := fun x hx => List.mem_of_mem_drop hx
      -- what was buffered before the call is still in the list
      have hkept : ∀ x ∈ events, x ∈ w'.eventsAt n := by
        intro x hx
        refine ⟨?_, (hstays (h.here x hx)).2⟩
        have hx' := hmem x hx
        rw [List.mem_append] at hx'
        rw [hnodes', List.mem_append, List.mem_append, List.mem_cons, List.mem_append]
        tauto
      cases houtcome with
      | hidden hhidden => exact absurd hhidden hnew
      | failed _ _ _ hnot => exact absurd hA hnot
      | @skipped s k _ e' _ hafter _ _ hskip =>
          have hshort := h.short_of_skipped (w₁.windowState window₁) hskip rfl hafter.idle
          refine ⟨window', events.drop k, h.next ?_ hoptions' (fun x hx => hkept x (hdropped x hx))
            (h.timed.sublist (List.drop_sublist _ _)) fun hmax => ?_,
            fun x hx => hlater x (hdropped x hx)⟩
          · rw [List.map_drop]
            exact hinv'.ofDepth
          · rw [List.length_drop]
            exact (Nat.sub_le _ _).trans_lt (hshort hmax)
      | @accepted s s' k k' outs outs' e' hafter _ houtlived _ _ _ hnodes _ hshort =>
          have htime' : e'.time = e.time := congrArg EventData.time hafter.data
          have haddrs : ((events.drop k ++ [e']).drop k').map EventNode.addr =
              ((events.map EventNode.addr).drop k ++ [e'.addr]).drop k' := by
            rw [List.map_drop, List.map_append, List.map_drop, List.map_singleton]
          have hall : ∀ {p : EventNode → Prop}, (∀ x ∈ events, p x) → p e' →
              ∀ x ∈ (events.drop k ++ [e']).drop k', p x := by
            intro p hp hp' x hx
            rcases List.mem_append.mp (List.mem_of_mem_drop hx) with hx | hx
            · exact hp x (hdropped x hx)
            · rw [List.mem_singleton.mp hx]
              exact hp'
          have htimed : TimedEvents window₁ (events.drop k ++ [e']) := by
            have hrest := h.timed.sublist (List.drop_sublist k events)
            have haround := hafter.around
            rw [← List.map_drop] at haround
            rw [← htime'] at htime hlater houtlived
            apply hrest.concat_young haround _ hafter.options htime
              (fun x hx => hlater x (hdropped x hx)) houtlived
            intro x hx
            rw [List.append_assoc]
            exact mem_around outs (hmem x (hdropped x hx))
          refine ⟨window', (events.drop k ++ [e']).drop k', h.next ?_ hoptions' ?_
            (htimed.sublist (List.drop_sublist _ _)) fun hmax => ?_, hall hlater htime'.le⟩
          · rw [haddrs]
            exact hinv'.ofDepth
          · refine hall hkept ⟨?_, hafter.position⟩
            show e' ∈ s'.events.nodes
            rw [hnodes]
            simp
          · rw [← List.length_map, haddrs]
            exact hshort hA hmax

theorem TimedWindow.initial {options : WindowOptions} {draws : Nat}
    (hnodup : w.events.addrs.Nodup) (hat : w.WindowAt n (windowCreate P options draws).1) :
    TimedWindow P n (windowCreate P options draws).1 (windowCreate P options draws).1 [] w where
  invariant := .created hnodup hat
  options := .refl _
  here := by simp
  timed := ⟨by simp, .nil, fun _ => .nil⟩
  nonneg := by
    unfold windowCreate
    refine relativeTimeFromMillisecond_nonneg ?_
    split <;> omega
  short _ := .inr ⟨rfl, rfl⟩

theorem TimedWindow.run {τ : List (Transition World EventNode)} (hA : P.allocator.Succeeds)
    (hrun : Run (WindowFeed P n) w τ w') (h : TimedWindow P n created window events w)
    (htimes : ∀ x ∈ τ, x.label.time.Normalized)
    (hordered : τ.Pairwise fun x y => x.label.time ≤ y.label.time)
    (hlater : ∀ x ∈ τ, ∀ y ∈ events, y.time ≤ x.label.time) :
    ∀ x ∈ τ, ∃ window events, WindowRepresents P n created window events x.after := by
  induction hrun generalizing window events with
  | nil _ => simp
  | cons hfeed _ ih =>
      obtain ⟨htime, htimes⟩ := List.forall_mem_cons.mp htimes
      obtain ⟨hnext, hordered⟩ := List.pairwise_cons.mp hordered
      obtain ⟨window₁, events₁, ⟨h₁, hshort₁⟩, hlater₁⟩ :=
        h.feed hA hfeed htime (hlater _ List.mem_cons_self)
      refine List.forall_mem_cons.mpr ⟨⟨window₁, events₁, h₁.represents hshort₁⟩, ?_⟩
      exact ih h₁ htimes hordered fun x hx y hy => (hlater₁ y hy).trans (hnext x hx)

end

/-- From the creation of the node on, every call leaves the buffer and the set in agreement, and the
buffer within its bounds. -/
theorem window_represents {P : Platform} {n : Nat} {options : WindowOptions} {draws : Nat}
    {w w' : World} {τ : List (Transition World EventNode)} (hA : P.allocator.Succeeds)
    (hnodup : w.events.addrs.Nodup) (hat : w.WindowAt n (windowCreate P options draws).1)
    (hrun : Run (WindowFeed P n) w τ w') (htimes : ∀ x ∈ τ, x.label.time.Normalized)
    (hordered : τ.Pairwise fun x y => x.label.time ≤ y.label.time) :
    ∀ x ∈ τ, ∃ window events,
      WindowRepresents P n (windowCreate P options draws).1 window events x.after :=
  (TimedWindow.initial hnodup hat).run hA hrun htimes hordered (by simp)

/-- A fresh event with the given data is put at the end of the list, at the node `n`, and its handler is
called on it. -/
def feedWindow (P : Platform) (n : Nat) (data : EventData) (w : World) :
    Except Fault (EventNode × World) :=
  match P.allocator.malloc w.events.mallocs w.events.addrs.toFinset, w.windowNode n with
  | some a, some window => do
      let e : EventNode := ⟨a, some (.node n), 0, data⟩
      let w := { w with events := ⟨w.events.nodes ++ [e], w.events.mallocs + 1⟩ }
      let (_, w) ← windowHandleEvent P w n window a
      .ok (e, w)
  | _, _ => .error .dangling

def feedAll (P : Platform) (n : Nat) :
    List EventData → World → Except Fault (List (Transition World EventNode) × World)
  | [], w => .ok ([], w)
  | data :: rest, w => do
      let (e, w₁) ← feedWindow P n data w
      let (τ, w') ← feedAll P n rest w₁
      .ok (⟨w, e, w₁⟩ :: τ, w')

section

variable {P : Platform} {n depth : Nat} {w w' : World}

theorem feedWindow_feeds {data : EventData} {e : EventNode} (hnodup : w.events.addrs.Nodup)
    (h : feedWindow (P.withDepth depth) n data w = .ok (e, w')) :
    WindowFeed P n w e w' ∧ w'.events.addrs.Nodup := by
  unfold feedWindow at h
  split at h
  · rename_i a window hm hnode
    have hat := World.windowNode_eq_some_iff.mp hnode
    obtain ⟨⟨result, w₁⟩, hhandle, ⟨⟩⟩ := (bind_eq_ok_iff _ _ _).mp h
    have hfresh : a ∉ w.events.addrs := by simpa using (P.withDepth depth).allocator.fresh hm
    let e : EventNode := ⟨a, some (.node n), 0, data⟩
    let w₀ : World := { w with events := ⟨w.events.nodes ++ [e], w.events.mallocs + 1⟩ }
    have hnodup₀ : w₀.events.addrs.Nodup := by
      rw [EventList.addrs, List.map_append]
      exact List.Nodup.append hnodup (by simp) (by simpa [EventList.addrs, e] using hfresh)
    have hw₀ : w₀.SplitAt w.events.nodes e [] := ⟨rfl, hnodup₀⟩
    have hcall : windowHandleEvent (P.withDepth depth) w₀ n window e.addr = .ok (result, w') := hhandle
    obtain ⟨outs, e', outs', -, -, -, -, hnodup'⟩ := windowHandleEvent_split hw₀ rfl hcall
    have hat₀ : w₀.WindowAt n window := hat
    refine ⟨.call hat hat₀ hnodup₀ (fun x hx => ⟨List.mem_append_left _ hx.1, hx.2⟩) ⟨by simp [w₀, e], rfl⟩
      (fun x hx heq => ?_) hcall, hnodup'⟩
    have hmem : x.addr ∈ w.events.addrs := List.mem_map_of_mem hx.1
    rw [heq] at hmem
    exact hfresh hmem
  · cases h

theorem feedAll_run {datas : List EventData} {τ : List (Transition World EventNode)}
    (hnodup : w.events.addrs.Nodup) (h : feedAll (P.withDepth depth) n datas w = .ok (τ, w')) :
    Run (WindowFeed P n) w τ w' := by
  induction datas generalizing w τ with
  | nil =>
      cases h
      exact .nil _
  | cons data rest ih =>
      obtain ⟨⟨e, w₁⟩, hfeed, h⟩ := (bind_eq_ok_iff _ _ _).mp h
      obtain ⟨⟨τ', w₂⟩, hrest, ⟨⟩⟩ := (bind_eq_ok_iff _ _ _).mp h
      obtain ⟨hfirst, hnodup₁⟩ := feedWindow_feeds hnodup hfeed
      exact .cons hfirst (ih hnodup₁ hrest)

end

/-- The time of an event and the length of the buffer after the call on it. -/
def timeAndLength (n : Nat) (x : Transition World EventNode) : AbsoluteTime × Option Nat :=
  (x.label.time, (x.after.windowNode n).map fun window => queueLength window.buffer)

def dataAt (sec nsec : Int) : EventData :=
  { (default : EventData) with ttl := 9, time := ⟨⟨sec, nsec⟩⟩ }

/-- A window of three events and one second is given five events: the third one closes the windows of the
first two for the sake of time, and the last one the window of the third for the sake of length. -/
theorem window_represents_five_events :
    ∃ τ w', Run (WindowFeed simplePlatform 1) (windowGraph ⟨0, 0, some 3, some 1000, none⟩) τ w' ∧
      τ.map (timeAndLength 1) = [(⟨⟨1, 0⟩⟩, some 1), (⟨⟨1, 500000000⟩⟩, some 2), (⟨⟨3, 0⟩⟩, some 1),
        (⟨⟨3, 200000000⟩⟩, some 2), (⟨⟨3, 400000000⟩⟩, some 2)] ∧
      ∀ x ∈ τ, ∃ window events, WindowRepresents simplePlatform 1
        (windowCreate simplePlatform ⟨0, 0, some 3, some 1000, none⟩ 0).1 window events x.after := by
  have hfeeds : (feedAll (simplePlatform.withDepth 9) 1 [dataAt 1 0, dataAt 1 500000000, dataAt 3 0,
      dataAt 3 200000000, dataAt 3 400000000] (windowGraph ⟨0, 0, some 3, some 1000, none⟩)).map
        (fun r => r.1.map (timeAndLength 1)) =
      .ok [(⟨⟨1, 0⟩⟩, some 1), (⟨⟨1, 500000000⟩⟩, some 2), (⟨⟨3, 0⟩⟩, some 1),
        (⟨⟨3, 200000000⟩⟩, some 2), (⟨⟨3, 400000000⟩⟩, some 2)] := by decide +kernel
  obtain ⟨⟨τ, w'⟩, hfeeds, hlengths⟩ := map_eq_ok_iff.mp hfeeds
  have hfresh := windowGraph_fresh ⟨0, 0, some 3, some 1000, none⟩
  have hat : (windowGraph ⟨0, 0, some 3, some 1000, none⟩).WindowAt 1
      (windowCreate simplePlatform ⟨0, 0, some 3, some 1000, none⟩ 0).1 := ⟨_, rfl, rfl⟩
  have hrun := feedAll_run hfresh.nodup hfeeds
  -- the times are those of the list
  have htimes : τ.map (fun x => x.label.time) = [⟨⟨1, 0⟩⟩, ⟨⟨1, 500000000⟩⟩, ⟨⟨3, 0⟩⟩,
      ⟨⟨3, 200000000⟩⟩, ⟨⟨3, 400000000⟩⟩] := by
    have hfirst := congrArg (List.map Prod.fst) hlengths
    rw [List.map_map] at hfirst
    exact hfirst
  have hnormalized : ∀ t ∈ τ.map (fun x => x.label.time), t.Normalized := by
    rw [htimes]
    decide
  have hordered : (τ.map fun x => x.label.time).Pairwise (· ≤ ·) := by
    rw [htimes]
    decide
  exact ⟨τ, w', hrun, hlengths, window_represents Allocator.next_succeeds hfresh.nodup hat hrun
    (List.forall_mem_map.mp hnormalized) (List.pairwise_map.mp hordered)⟩

end EventSeq
