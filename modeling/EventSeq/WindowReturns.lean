import EventSeq.HashTableReturns
import EventSeq.WindowArrivals
import EventSeq.WindowInvariant

/-!
# The window handler returns

With memory, both loops of the handler pop at least one event in each round, and the time loop ends
with the empty buffer.  The length loop does too, unless the bound on the length is 0: the buffer is
never shorter than that.
-/

namespace EventSeq

open Lib HashTable

section

variable {P : Platform} {w w' : World} {n : Nat} {window : WindowGraphNode} {as : List Addr}
  {s s' : WindowState} {source : GraphNode} {e : EventNode} {pre post : List EventNode}

/-! ## The bound of the platform on its loops -/

theorem popLoop_withDepth (P : Platform) (depth step : Nat) (s : WindowState) :
    popLoop (P.withDepth depth) step s = popLoop P step s := by
  induction step generalizing s with
  | zero => rfl
  | succ step ih =>
      simp only [popLoop, ih]
      rfl

theorem retransmitLoop_withDepth (P : Platform) (depth : Nat) (source : GraphNode)
    (buffer : Queue (Option Addr)) (indices : List Nat) (base : Addr) (l : EventList) :
    retransmitLoop (P.withDepth depth) source buffer indices base l =
      retransmitLoop P source buffer indices base l := by
  induction indices generalizing base l with
  | nil => rfl
  | cons i rest ih =>
      simp only [retransmitLoop, ih]
      rfl

theorem triggerNewWindow_withDepth (P : Platform) (depth : Nat) (source : GraphNode)
    (base : Option Addr) (s : WindowState) :
    triggerNewWindow (P.withDepth depth) source base s = triggerNewWindow P source base s := by
  simp only [triggerNewWindow, popLoop_withDepth, retransmitLoop_withDepth]
  rfl

/-- A time loop that returns does so with more rounds to its disposal, too. -/
theorem timeLoop_mono {self fuel fuel' depth : Nat} {newTime : AbsoluteTime} {event : Addr}
    {result : Option Addr × WindowState}
    (h : timeLoop P self source newTime fuel event s = .ok result) (hle : fuel ≤ fuel') :
    timeLoop (P.withDepth depth) self source newTime fuel' event s = .ok result := by
  induction fuel generalizing fuel' event s with
  | zero => cases h
  | succ fuel ih =>
      obtain ⟨fuel', rfl⟩ := Nat.exists_eq_add_one.mpr (Nat.lt_of_lt_of_le fuel.succ_pos hle)
      rw [timeLoop] at h ⊢
      obtain ⟨outlived, houtlived, h⟩ := (bind_eq_ok_iff _ _ _).mp h
      refine (bind_eq_ok_iff _ _ _).mpr ⟨outlived, houtlived, ?_⟩
      cases outlived with
      | false => exact h
      | true =>
          obtain ⟨⟨replacement, event', events⟩, hreplicate, h⟩ := (bind_eq_ok_iff _ _ _).mp h
          refine (bind_eq_ok_iff _ _ _).mpr ⟨_, hreplicate, ?_⟩
          cases replacement with
          | none => exact h
          | some replacement =>
              obtain ⟨l₁, hassign, h⟩ := (bind_eq_ok_iff _ _ _).mp h
              obtain ⟨l₂, hassign', h⟩ := (bind_eq_ok_iff _ _ _).mp h
              obtain ⟨s₁, htrigger, h⟩ := (bind_eq_ok_iff _ _ _).mp h
              refine (bind_eq_ok_iff _ _ _).mpr ⟨l₁, hassign, ?_⟩
              refine (bind_eq_ok_iff _ _ _).mpr ⟨l₂, hassign', ?_⟩
              refine (bind_eq_ok_iff _ _ _).mpr ⟨s₁, ?_, ih h (Nat.le_of_succ_le_succ hle)⟩
              rw [triggerNewWindow_withDepth]
              exact htrigger

/-! ## The set of the buffered events -/

/-- From draw number `draws` on there comes a hash function that spreads the events of the set, with
any one more. -/
def EventSetSpreads (P : Platform) (draws : Nat) (set : HashTable (Option Addr) Bool) : Prop :=
  ∀ a : Addr, DrawsSpread Bool P.preHash P.members draws set (some a)

theorem popLoop_shrinks {step rest : Nat} (h : popLoop P step s = .ok (rest, s')) :
    s.node.bufferedSet.Shrinks s'.node.bufferedSet := by
  induction step generalizing s with
  | zero =>
      cases h
      exact .refl _
  | succ step ih =>
      rw [popLoop] at h
      obtain ⟨⟨event, buffer⟩, -, h⟩ := (bind_eq_ok_iff _ _ _).mp h
      cases event with
      | none =>
          cases h
          exact .refl _
      | some event =>
          obtain ⟨set, hdel, h⟩ := (bind_eq_ok_iff _ _ _).mp h
          obtain ⟨⟨b, set'⟩, hdelete, ⟨⟩⟩ := (bind_eq_ok_iff _ _ _).mp hdel
          exact (hashTableDeleteByKeyImpl_shrinks hdelete).trans (ih h)

theorem timeLoop_shrinks {self fuel : Nat} {newTime : AbsoluteTime} {event : Addr}
    {result : Option Addr} (h : timeLoop P self source newTime fuel event s = .ok (result, s')) :
    s.node.bufferedSet.Shrinks s'.node.bufferedSet := by
  induction fuel generalizing event s with
  | zero => cases h
  | succ fuel ih =>
      rw [timeLoop] at h
      obtain ⟨outlived, -, h⟩ := (bind_eq_ok_iff _ _ _).mp h
      cases outlived with
      | false =>
          cases h
          exact .refl _
      | true =>
          obtain ⟨⟨replacement, event', events⟩, -, h⟩ := (bind_eq_ok_iff _ _ _).mp h
          cases replacement with
          | none =>
              cases h
              exact .refl _
          | some replacement =>
              obtain ⟨_, -, h⟩ := (bind_eq_ok_iff _ _ _).mp h
              obtain ⟨_, -, h⟩ := (bind_eq_ok_iff _ _ _).mp h
              obtain ⟨s₁, htrigger, h⟩ := (bind_eq_ok_iff _ _ _).mp h
              obtain ⟨_, _, popped, hpop, -, -, hset⟩ := triggerNewWindow_popLoop htrigger
              have hshrinks := popLoop_shrinks hpop
              rw [← hset] at hshrinks
              exact hshrinks.trans (ih h)

/-! ## A call returns -/

/-- A set takes an event that it does not hold. -/
theorem EventSetHolds.add_returns {set : HashTable (Option Addr) Bool} {events : Set Addr} {a : Addr}
    {draws : Nat} (hspread : EventSetSpreads P draws set) (h : EventSetHolds P set events)
    (ha : a ∉ events) :
    ∃ bound, ∀ depth ≥ bound, ∃ r, eventSetAdd (P.withDepth depth) set a draws = .ok r := by
  obtain ⟨m, hm, hmem⟩ := h.represents
  have hnone : m (some a) = none := by
    rw [← Option.not_isSome_iff_eq_none, hmem]
    exact ha
  obtain ⟨bound, hbound⟩ := @hashTableInsertImpl_returns _ _ P.preHash set m (some a) true _ draws _
    P.members (hspread a) h.wellFormed hm hnone
  refine ⟨bound, fun depth hdepth => ?_⟩
  obtain ⟨⟨i, set', draws'⟩, hinsert⟩ := hbound depth hdepth
  exact ⟨(set', draws'), (bind_eq_ok_iff _ _ _).mpr ⟨_, hinsert, rfl⟩⟩

/-- With memory, draws that spread the buffered events and a bound on the length that is not 0, a call
returns if the platform bounds its loops high enough. -/
theorem windowHandleEvent_returns_above (hA : P.allocator.Succeeds)
    (hspread : EventSetSpreads P w.draws window.bufferedSet) (h : WindowInvariant P n window as w)
    (he : e ∈ w.eventsAt n) (hmax : window.hasMaxLength → 0 < window.maxLength) :
    ∃ bound, ∀ depth ≥ bound, ∃ result w', windowHandleEvent (P.withDepth depth) w n window e.addr =
      .ok (result, w') := by
  obtain ⟨pre, post, hw⟩ := World.splitAt_of_mem h.nodup he.1
  obtain ⟨source, hsource, -⟩ := h.at_node
  obtain ⟨hidden, hhas, hmem⟩ := h.holds.set.has e.addr
  have hlookup : w.lookup e.addr = .ok e := World.lookup_eq hw
  cases hidden with
  | true =>
      refine ⟨0, fun depth _ => ⟨false, w, ?_⟩⟩
      have hhas' : eventSetHas (P.withDepth depth) window.bufferedSet e.addr = .ok true := hhas
      simp only [windowHandleEvent, World.node_eq hsource, hlookup, hhas', bind, Except.bind, if_true]
  | false =>
      have hnew : e.addr ∉ as := fun hin => Bool.false_ne_true (hmem.mpr hin)
      have haround := h.around hw hnew
      rcases @timeLoop_around P as (w.windowState window) source e pre post n e.time (as.length + 1)
        haround he.2 with ⟨-, hfuel⟩ | ⟨result, s, k, outs, e', htime, haround', hoptions, -, -, hdraws, hend, -⟩
      · omega
      · rcases hend with ⟨rfl, -⟩ | ⟨-, hnot⟩
        case inr => exact absurd hA hnot
        have hspread' : EventSetSpreads P s.draws s.node.bufferedSet := fun a =>
          hdraws ▸ (hspread a).shrinks (timeLoop_shrinks htime)
        obtain ⟨bound, hbound⟩ := haround'.holds.set.add_returns hspread' haround'.not_mem
        -- deep enough for both loops and for the set
        refine ⟨max (as.length + 2) bound, fun depth hdepth => ?_⟩
        obtain ⟨hlong, hdeep_set⟩ := max_le_iff.mp hdepth
        have htime' := @timeLoop_mono P _ source n (as.length + 1) depth depth e.time e.addr _ htime
          (by omega)
        have hhas' : eventSetHas (P.withDepth depth) window.bufferedSet e.addr = .ok false := hhas
        have hloop : timeLoop (P.withDepth depth) n source e.time (P.withDepth depth).depth e.addr
            ⟨window, w.events, w.draws, []⟩ = .ok (some e'.addr, s) := htime'
        simp only [windowHandleEvent, World.node_eq hsource, hlookup, hhas', bind, Except.bind,
          Bool.false_eq_true, if_false, hloop]
        by_cases hskip : s.node.skipNext > 0
        · rw [if_pos hskip]
          exact ⟨_, _, rfl⟩
        · rw [if_neg hskip]
          have hmax' : s.node.hasMaxLength → 0 < s.node.maxLength := by
            obtain ⟨_, _, _, hnode⟩ := hoptions
            rw [hnode]
            exact hmax
          have hdeep : WindowAround (P.withDepth depth) (pre ++ outs) e' post s (as.drop k) :=
            ⟨haround'.holds.withDepth depth, haround'.nodes, haround'.nodup, haround'.live⟩
          obtain ⟨s', haccept⟩ := @windowAccept_returns (P.withDepth depth) _ s source e' _ post hdeep hA
            (hbound depth hdeep_set) hmax' (by
              show (as.drop k).length + 1 < depth
              rw [List.length_drop]
              omega)
          rw [haccept]
          exact ⟨_, _, rfl⟩

theorem windowHandleEvent_returns (hA : P.allocator.Succeeds)
    (hspread : EventSetSpreads P w.draws window.bufferedSet) (h : WindowInvariant P n window as w)
    (he : e ∈ w.eventsAt n) (hmax : window.hasMaxLength → 0 < window.maxLength) :
    ∃ depth result w', windowHandleEvent (P.withDepth depth) w n window e.addr =
      .ok (result, w') := by
  obtain ⟨bound, hbound⟩ := windowHandleEvent_returns_above hA hspread h he hmax
  exact ⟨bound, hbound bound le_rfl⟩

/-! ## A bound of 0 -/

/-- With memory and a bound of 0 no call returns: the buffer would be shorter than the bound after
it. -/
theorem windowHandleEvent_never (hA : P.allocator.Succeeds) (h : WindowInvariant P n window [] w)
    (hskip : window.skipNext = 0) (hmax : window.hasMaxLength) (hzero : window.maxLength = 0)
    (he : e ∈ w.eventsAt n) (result : Bool) :
    windowHandleEvent P w n window e.addr ≠ .ok (result, w') := by
  intro hrun
  obtain ⟨pre, post, hw⟩ := World.splitAt_of_mem h.nodup he.1
  obtain ⟨as', houtcome⟩ := windowHandleEvent_outcome h hw he.2 hrun
  have hidle : windowOutlived (w.windowState window) e.time = .ok false :=
    windowOutlived_nil h.holds e.time
  cases houtcome with
  | hidden hin => cases hin
  | failed _ _ houtlived _ =>
      rw [hidle] at houtlived
      cases houtlived
  | skipped hafter _ _ hskips =>
      rw [hafter.idle hidle] at hskips
      exact absurd hskips (by
        show ¬0 < window.skipNext
        omega)
  | accepted _ _ _ _ _ _ _ _ hshort =>
      have hlt := hshort hA hmax
      omega

/-- So the node stays as it was created. -/
theorem WindowInvariant.run_never {τ : List SystemTransition} (hA : P.allocator.Succeeds)
    (hrun : Run (SystemMove P) w τ w') (h : WindowInvariant P n window [] w)
    (hskip : window.skipNext = 0) (hmax : window.hasMaxLength) (hzero : window.maxLength = 0) :
    WindowInvariant P n window [] w' := by
  induction hrun with
  | nil _ => exact h
  | @cons w₀ w₁ _ c _ hstep _ ih =>
      obtain ⟨depth, hstep⟩ := hstep
      apply ih
      by_cases hc : ∃ e, c = .handle (.node n) e
      · obtain ⟨e, rfl⟩ := hc
        obtain ⟨he, result, hcall⟩ := hstep.window_run h.at_node
        exact absurd hcall
          (windowHandleEvent_never (P := P.withDepth depth) hA (h.withDepth depth) hskip hmax hzero he
            result)
      · obtain ⟨hnodup, -, hat, -⟩ := hstep.elsewhere h.nodup h.at_node fun e heq => hc ⟨e, heq⟩
        exact ⟨hnodup, hat, h.holds, by simp⟩

/-- `create` clamps a `max_length` that is not positive to a bound of 0; one beyond `INT32_MAX` is no
bound. -/
theorem windowCreate_zero_iff (P : Platform) (options : WindowOptions) (draws : Nat) :
    ((windowCreate P options draws).1.hasMaxLength ∧ (windowCreate P options draws).1.maxLength = 0) ↔
      ∃ m ≤ 0, options.maxLength = some m := by
  unfold windowCreate
  cases options.maxLength with
  | none => simp
  | some m =>
      by_cases hneg : m < 0
      · simp [hneg, int32Max, hneg.le]
      · by_cases hbig : int32Max < m
        · have hpos : ¬m ≤ 0 := by
            unfold int32Max at hbig
            omega
          simp [hneg, hbig, hpos]
        · simp only [Option.getD_some, if_neg hneg, gt_iff_lt, hbig, decide_false, Option.isSome_some,
            Bool.not_false, Bool.and_self, Bool.false_eq_true, if_false, true_and, Option.some.injEq,
            exists_eq_right']
          omega

end

/-- In every state that is reached from the creation of the node, a call returns exactly if the option
`max_length` is missing or positive. -/
theorem window_handler_returns_iff {P : Platform} {n draws : Nat} {options : WindowOptions}
    {w₀ w : World} {τ : List SystemTransition} {window : WindowGraphNode} {e : EventNode}
    (hA : P.allocator.Succeeds) (hspread : EventSetSpreads P w.draws window.bufferedSet)
    (hnodup : w₀.events.addrs.Nodup) (hcreated : w₀.WindowAt n (windowCreate P options draws).1)
    (hreached : Run (SystemMove P) w₀ τ w) (hat : w.WindowAt n window) (he : e ∈ w.eventsAt n) :
    (∃ depth result w', windowHandleEvent (P.withDepth depth) w n window e.addr = .ok (result, w')) ↔
      ¬∃ m ≤ 0, options.maxLength = some m := by
  have hcreation := WindowInvariant.created hnodup hcreated
  rw [← windowCreate_zero_iff P options draws]
  constructor
  · rintro ⟨depth, result, w', hrun⟩ ⟨hmax, hzero⟩
    have hinv := hcreation.run_never hA hreached rfl hmax hzero
    obtain rfl := World.WindowAt.unique hinv.at_node hat
    exact windowHandleEvent_never (P := P.withDepth depth) hA (hinv.withDepth depth) rfl hmax hzero he
      result hrun
  · intro hnot
    obtain ⟨window', as, hinv, hoptions⟩ := hcreation.run hreached
    obtain rfl := World.WindowAt.unique hinv.at_node hat
    refine windowHandleEvent_returns hA hspread hinv he fun hmax => Nat.pos_of_ne_zero fun hzero => ?_
    obtain ⟨_, _, _, rfl⟩ := hoptions
    exact hnot ⟨hmax, hzero⟩

/-- A key has been read and delivered to the window node. -/
theorem delivered_key (options : WindowOptions) :
    ∃ τ w e, Run (SystemMove simplePlatform) (windowGraph options) τ w ∧
      w.WindowAt 1 (windowCreate simplePlatform options 0).1 ∧ e ∈ w.eventsAt 1 := by
  obtain ⟨w₁, w₂, e₁, e₂, hread, he₁, hp₁, hdeliver, he₂, hp₂, hkind⟩ :
      ∃ w₁ w₂ e₁ e₂, handleIo simplePlatform (windowGraph options) 0 (keyAt 1) = .ok w₁ ∧
        e₁ ∈ w₁.events.nodes ∧ e₁.position = some (.channel 0) ∧
        w₁.handleEvent simplePlatform (.channel 0) e₁ = .ok (true, w₂) ∧
        e₂ ∈ w₂.events.nodes ∧ e₂.position = some (.node 1) ∧
        w₂.WindowAt 1 (windowCreate simplePlatform options 0).1 :=
    ⟨_, _, _, _, rfl, List.mem_singleton_self _, rfl, rfl, List.mem_singleton_self _, rfl,
      ⟨_, rfl, rfl⟩⟩
  exact ⟨_, w₂, e₂, .cons ⟨8, .read hread⟩ (.single ⟨8, .handle he₁ hp₁ hdeliver⟩), hkind, he₂, hp₂⟩

/-- With a bound of one event the first key is handled, its pointer hashed as the code hashes it. -/
theorem window_handler_returns_one_key :
    ∃ w window e depth result w', e ∈ w.eventsAt 1 ∧ window.hasMaxLength ∧
      windowHandleEvent (simplePlatform.withDepth depth) w 1 window e.addr = .ok (result, w') := by
  obtain ⟨τ, w, e, hrun, hat, he⟩ := delivered_key ⟨0, 0, some 1, none, none⟩
  have hcreated : (windowGraph ⟨0, 0, some 1, none, none⟩).WindowAt 1
      (windowCreate simplePlatform ⟨0, 0, some 1, none, none⟩ 0).1 := ⟨_, rfl, rfl⟩
  -- the set is as it was created
  have hspread : EventSetSpreads simplePlatform w.draws
      (windowCreate simplePlatform ⟨0, 0, some 1, none, none⟩ 0).1.bufferedSet :=
    fun _ => drawsSpread_of_small (show 5 ≤ 13 by decide)
  obtain ⟨depth, result, w', hcall⟩ :=
    (window_handler_returns_iff Allocator.next_succeeds hspread (windowGraph_fresh _).nodup hcreated
      hrun hat he).mpr (by simp)
  exact ⟨w, _, e, depth, result, w', he, rfl, hcall⟩

/-- With the `max_length` 0 the first key keeps the handler busy for ever. -/
theorem window_handler_never_returns :
    ∃ τ w window e, Run (SystemMove simplePlatform) (windowGraph ⟨0, 0, some 0, none, none⟩) τ w ∧
      w.WindowAt 1 window ∧ e ∈ w.eventsAt 1 ∧ ∀ depth result w',
        windowHandleEvent (simplePlatform.withDepth depth) w 1 window e.addr ≠ .ok (result, w') := by
  obtain ⟨τ, w, e, hrun, hat, he⟩ := delivered_key ⟨0, 0, some 0, none, none⟩
  have hcreated : (windowGraph ⟨0, 0, some 0, none, none⟩).WindowAt 1
      (windowCreate simplePlatform ⟨0, 0, some 0, none, none⟩ 0).1 := ⟨_, rfl, rfl⟩
  have hinv := (WindowInvariant.created (windowGraph_fresh _).nodup hcreated).run_never
    Allocator.next_succeeds hrun rfl rfl rfl
  exact ⟨τ, w, _, e, hrun, hat, he, fun depth result w' =>
    windowHandleEvent_never (P := simplePlatform.withDepth depth) Allocator.next_succeeds
      (hinv.withDepth depth) rfl rfl rfl he result⟩

end EventSeq
