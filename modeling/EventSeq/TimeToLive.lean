import EventSeq.Handlers

/-!
# Time to live

Every channel takes one off the `ttl` of an event and every other handler keeps it, so that a graph
without window nodes comes to rest whatever its cycles and whatever the order of the handler calls.
-/

namespace EventSeq

open Lib

/-- A handler call, without source reads. -/
def HandlerStep (P : Platform) (w : World) (l : Position × EventNode) (w' : World) : Prop :=
  SystemStep P w (.handle l.1 l.2) w'

/-! ## Termination -/

/-- How many handler calls an event at a channel can bring about, at most, if no node has more than
`d` outputs. -/
def channelWeight (d : Nat) : Nat → Nat
  | 0 => 1
  | ttl + 1 => 2 + d * channelWeight d ttl

def nodeWeight (d ttl : Nat) : Nat := 1 + d * channelWeight d ttl

def eventWeight (d : Nat) (e : EventNode) : Nat :=
  match e.position with
  | none => 0
  | some (.node _) => nodeWeight d e.data.ttl
  | some (.channel _) => channelWeight d e.data.ttl

def weight (d : Nat) (l : List EventNode) : Nat := (l.map (eventWeight d)).sum

/-- The graph has no window nodes and no node with more than `d` outputs. -/
structure Bounded (d : Nat) (w : World) : Prop where
  nodup : w.events.addrs.Nodup
  outputs : ∀ node ∈ w.nodes, node.outputs.length ≤ d
  windowless : ∀ node ∈ w.nodes, node.kind.type ≠ .window

section

variable {P : Platform} {d : Nat} {w w' : World} {e : EventNode} {p : Position}
  {outs pre post : List EventNode}

theorem channelWeight_pos (d ttl : Nat) : 0 < channelWeight d ttl := by
  cases ttl <;> simp [channelWeight]

theorem weight_append (l l' : List EventNode) : weight d (l ++ l') = weight d l + weight d l' := by
  simp [weight]

theorem weight_cons (e : EventNode) (l : List EventNode) :
    weight d (e :: l) = eventWeight d e + weight d l := by
  simp [weight]

/-- What a call puts in the place of an event weighs less than the event. -/
theorem Successors.weight_lt (hbounded : Bounded d w) (hp : e.position = some p)
    (h : Successors w e p outs) : weight d outs < eventWeight d e := by
  cases h with
  | copies hnode hlen hchannel httl _ =>
      have heach : ∀ x ∈ outs.map (eventWeight d), x = channelWeight d e.data.ttl := by
        intro x hx
        obtain ⟨o, ho, rfl⟩ := List.mem_map.mp hx
        obtain ⟨c, hc⟩ := hchannel o ho
        simp only [eventWeight, hc, httl o ho]
      have hsum : weight d outs = outs.length * channelWeight d e.data.ttl := by
        rw [weight, List.sum_eq_card_nsmul _ _ heach, List.length_map, smul_eq_mul]
      have hle := Nat.mul_le_mul_right (channelWeight d e.data.ttl)
        (hlen.trans (hbounded.outputs _ (List.mem_of_getElem? hnode)))
      simp only [eventWeight, hp, nodeWeight]
      omega
  | dropped =>
      simp only [eventWeight, hp]
      exact channelWeight_pos d e.data.ttl
  | delivered hdelivered =>
      obtain ⟨httl, -, hposition, hdata⟩ := delivered_eq_some hdelivered
      obtain ⟨ttl, hsucc⟩ := Nat.exists_eq_add_of_lt (Nat.zero_lt_of_lt httl)
      rw [Nat.zero_add] at hsucc
      simp only [weight, List.map_cons, List.map_nil, List.sum_cons, List.sum_nil, eventWeight,
        hposition, hp, hdata, nodeWeight, hsucc, channelWeight, Nat.add_sub_cancel]
      omega

/-- What a handler call does in a graph without window nodes. -/
theorem HandlerStep.replaces (hnodup : w.events.addrs.Nodup)
    (hwindow : ∀ node ∈ w.nodes, node.kind.type ≠ .window) (h : HandlerStep P w (p, e) w') :
    ∃ pre post outs, w.events.nodes = pre ++ e :: post ∧
      w'.events.nodes = pre ++ (outs ++ post) ∧ w'.events.addrs.Nodup ∧ e.position = some p ∧
      Successors w e p outs ∧ w.SameGraph w' := by
  cases h with
  | handle he hp hrun =>
      obtain ⟨pre, post, hw⟩ := World.splitAt_of_mem hnodup he
      have houtcome := handleEvent_outcome hw hrun
      obtain ⟨outs, hnodes, hnodup', hsucc⟩ := houtcome.replaces hw hwindow
      exact ⟨pre, post, outs, hw.nodes, hnodes, hnodup', hp, hsucc, houtcome.sameGraph⟩

theorem HandlerStep.bounded (hbounded : Bounded d w) (h : HandlerStep P w (p, e) w') :
    Bounded d w' := by
  obtain ⟨-, -, -, -, -, hnodup, -, -, hgraph⟩ :=
    HandlerStep.replaces hbounded.nodup hbounded.windowless h
  exact ⟨hnodup, hgraph.forall_mem (fun s => s.1.length ≤ d) hbounded.outputs,
    hgraph.forall_mem (fun s => s.2.1 ≠ .window) hbounded.windowless⟩

theorem HandlerStep.weight_lt (hbounded : Bounded d w) (h : HandlerStep P w (p, e) w') :
    weight d w'.events.nodes < weight d w.events.nodes := by
  obtain ⟨pre, post, outs, hsplit, hnodes, -, hp, hsucc, -⟩ :=
    HandlerStep.replaces hbounded.nodup hbounded.windowless h
  have hlt := hsucc.weight_lt hbounded hp
  rw [hsplit, hnodes, weight_append, weight_append, weight_append, weight_cons]
  omega

end

/-! ## Lineages -/

abbrev HandlerTransition := Transition World (Position × EventNode)

/-- A channel handler at `p` has left its event as `e'`, at a node. -/
def deliveredTo (p : Position) (e' : EventNode) : Nat :=
  match p, e'.position with
  | .channel _, some (.node _) => 1
  | _, _ => 0

/-- One line of descent along a run, followed for any while: the event until its handler is called,
then one of the events that stand for it afterwards, those with its own address or a new one.  The
number counts the deliveries to nodes. -/
inductive Lineage : List HandlerTransition → EventNode → Nat → Prop where
  | stop (τ : List HandlerTransition) (e : EventNode) : Lineage τ e 0
  | other {x : HandlerTransition} {τ : List HandlerTransition} {e : EventNode} {k : Nat} :
      x.label.2.addr ≠ e.addr → Lineage τ e k → Lineage (x :: τ) e k
  | copy {x : HandlerTransition} {τ : List HandlerTransition} {e e' : EventNode} {k : Nat} :
      x.label.2.addr = e.addr → e' ∈ x.after.events.nodes →
      (e'.addr ≠ e.addr → e'.addr ∉ x.before.events.addrs) →
      Lineage τ e' k → Lineage (x :: τ) e (deliveredTo x.label.1 e' + k)

section

variable {P : Platform} {d : Nat} {w w' : World} {e e' : EventNode} {p : Position}
  {τ : List HandlerTransition}

/-- The events of a list with distinct addresses are told apart by them. -/
theorem EventList.eq_of_addr_eq {l : EventList} (h : l.addrs.Nodup) (he : e ∈ l.nodes)
    (he' : e' ∈ l.nodes) (haddr : e.addr = e'.addr) : e = e' :=
  List.inj_on_of_nodup_map h he he' haddr

/-- The successors of the handled event take over its `ttl`, less one for a delivery, which only
happens with something left. -/
theorem HandlerStep.descend (hbounded : Bounded d w) (h : HandlerStep P w (p, e) w')
    (he' : e' ∈ w'.events.nodes) (hnew : e'.addr ≠ e.addr → e'.addr ∉ w.events.addrs) :
    deliveredTo p e' + e'.data.ttl = e.data.ttl ∧ (deliveredTo p e' = 1 → 0 < e'.data.ttl) := by
  obtain ⟨pre, post, outs, hsplit, hnodes, hnodup, hp, hsucc, -⟩ :=
    HandlerStep.replaces hbounded.nodup hbounded.windowless h
  have hold : e.addr ∉ pre.map EventNode.addr ∧ e.addr ∉ post.map EventNode.addr := by
    have hw := hbounded.nodup
    rw [EventList.addrs, hsplit] at hw
    exact @EventList.not_mem_addrs_of_nodup e pre post 0 hw
  -- what is not new and not the event itself has stayed in the list
  have houts : e' ∈ outs := by
    rw [hnodes] at he'
    simp only [List.mem_append] at he'
    have hframe : ∀ l, e.addr ∉ l.map EventNode.addr → l ⊆ w.events.nodes → e' ∉ l := by
      intro l hl hsub hmem
      have hne : e'.addr ≠ e.addr := fun heq => hl (heq ▸ List.mem_map_of_mem hmem)
      exact hnew hne (List.mem_map_of_mem (hsub hmem))
    rcases he' with hpre | hout | hpost
    · exact absurd hpre (hframe pre hold.1 (by simp [hsplit]))
    · exact hout
    · exact absurd hpost (hframe post hold.2 (by rw [hsplit]; intro x hx; simp [hx]))
  cases hsucc with
  | copies _ _ hchannel httl _ =>
      obtain ⟨c, hc⟩ := hchannel e' houts
      simp only [deliveredTo, httl e' houts]
      omega
  | dropped => cases houts
  | delivered hdelivered =>
      obtain rfl := List.mem_singleton.mp houts
      obtain ⟨httl, -, hposition, hdata⟩ := delivered_eq_some hdelivered
      simp only [deliveredTo, hposition, hdata]
      omega

theorem lineage_le (hrun : Run (HandlerStep P) w τ w') (hbounded : Bounded d w)
    (he : e ∈ w.events.nodes) {k : Nat} (h : Lineage τ e k) : k ≤ e.data.ttl - 1 := by
  induction hrun generalizing e k with
  | nil _ =>
      cases h
      exact Nat.zero_le _
  | @cons s s' t l τ hstep hrest ih =>
      obtain ⟨p, handled⟩ := l
      have hbounded' := HandlerStep.bounded hbounded hstep
      cases h with
      | stop => exact Nat.zero_le _
      | other hne htail =>
          -- another event was handled, and this one has stayed
          refine ih hbounded' ?_ htail
          obtain ⟨pre, post, outs, hsplit, hnodes, -⟩ :=
            HandlerStep.replaces hbounded.nodup hbounded.windowless hstep
          rw [hsplit] at he
          rw [hnodes]
          simp only [List.mem_append, List.mem_cons] at he ⊢
          rcases he with hpre | rfl | hpost
          · exact .inl hpre
          · exact absurd rfl hne
          · exact .inr (.inr hpost)
      | @copy _ _ _ e' k haddr he' hnew htail =>
          have hmem : handled ∈ s.events.nodes := by
            obtain ⟨hmem, -⟩ := hstep
            exact hmem
          obtain rfl := EventList.eq_of_addr_eq hbounded.nodup hmem he haddr
          -- the event was handled: its successor has one less, if it was delivered
          obtain ⟨hsum, hpos⟩ := HandlerStep.descend hbounded hstep he' hnew
          have hle := ih hbounded' he' htail
          have hone : deliveredTo p e' ≤ 1 := by
            unfold deliveredTo
            split <;> omega
          dsimp only at hsum hpos ⊢
          omega

/-- In a graph without window nodes handlers can only be called finitely often, whichever events
are picked; an event with `ttl` T is delivered to at most T - 1 nodes along each line of its
copies, and never with no `ttl` left.  (The subtraction is that of the natural numbers.) -/
theorem ttl_stops_every_traversal (hnodup : w.events.addrs.Nodup)
    (hwindow : ∀ node ∈ w.nodes, node.kind.type ≠ .window) :
    (∃ bound, ∀ τ w', Run (HandlerStep P) w τ w' → τ.length ≤ bound) ∧
    ∀ τ w', Run (HandlerStep P) w τ w' →
      (∀ e ∈ w.events.nodes, ∀ k, Lineage τ e k → k ≤ e.data.ttl - 1) ∧
      ∀ x ∈ τ, ∀ e' ∈ x.after.events.nodes, e'.addr = x.label.2.addr →
        deliveredTo x.label.1 e' = 1 → 0 < e'.data.ttl := by
  obtain ⟨d, hbounded⟩ : ∃ d, Bounded d w :=
    ⟨(w.nodes.map fun node => node.outputs.length).sum, hnodup,
      fun node hnode => List.le_sum_of_mem (List.mem_map_of_mem hnode), hwindow⟩
  refine ⟨⟨weight d w.events.nodes, fun τ w' hrun => ?_⟩, fun τ w' hrun => ⟨?_, ?_⟩⟩
  · have hlength := hrun.length_le (fun _ _ _ hstep hb => HandlerStep.bounded hb hstep)
      (fun _ _ _ hstep hb => HandlerStep.weight_lt hb hstep) hbounded
    exact le_trans (Nat.le_add_right _ _) hlength
  · exact fun e he k hlineage => lineage_le hrun hbounded he hlineage
  · intro x hx e' he' haddr hdelivered
    have hbefore := (hrun.invariant_mem (fun _ _ _ hstep hb => HandlerStep.bounded hb hstep)
      hbounded x hx).1
    exact (HandlerStep.descend hbefore (hrun.step_of_mem hx) he'
      fun hne => absurd haddr hne).2 hdelivered

end

def teeEvent : EventNode := ⟨1, some (.node 0), 0, { (default : EventData) with ttl := 5 }⟩

/-- A tee with two channels back to itself, and an event at it. -/
def teeLoop : World where
  events := ⟨[teeEvent], 1⟩
  nodes := [⟨false, [some 1], [some 0, some 1], .tee⟩]
  channels := [⟨false, some 0, some 0, 0, 0⟩, ⟨false, some 0, some 0, 1, 0⟩]
  predicates := []
  deliveries := []
  draws := 0
  log := []

/-- The event goes round once: it is delivered to the tee again, which it can be four times at most. -/
theorem ttl_stops_tee_loop :
    (∃ bound, ∀ τ w', Run (HandlerStep simplePlatform) teeLoop τ w' → τ.length ≤ bound) ∧
      ∃ τ w', Run (HandlerStep simplePlatform) teeLoop τ w' ∧ Lineage τ teeEvent 1 ∧
        (∀ k, Lineage τ teeEvent k → k ≤ 4) ∧
        ∃ e ∈ w'.events.nodes, e.position = some (.node 0) ∧ e.data.ttl = 4 := by
  obtain ⟨hbound, hlineages⟩ := ttl_stops_every_traversal (P := simplePlatform) (w := teeLoop)
    (by decide) (by decide)
  obtain ⟨w₁, w₂, e₁, e₂, htee, he₁, hp₁, ha₁, hdeliver, he₂, hp₂, ha₂, httl⟩ : ∃ w₁ w₂ e₁ e₂,
      teeLoop.handleEvent simplePlatform (.node 0) teeEvent = .ok (true, w₁) ∧
      e₁ ∈ w₁.events.nodes ∧ e₁.position = some (.channel 0) ∧ e₁.addr = 1 ∧
      w₁.handleEvent simplePlatform (.channel 0) e₁ = .ok (true, w₂) ∧
      e₂ ∈ w₂.events.nodes ∧ e₂.position = some (.node 0) ∧ e₂.addr = 1 ∧ e₂.data.ttl = 4 :=
    ⟨_, _, _, _, rfl, List.mem_cons_self, rfl, rfl, rfl, List.mem_cons_self, rfl, rfl, rfl⟩
  have hrun : Run (HandlerStep simplePlatform) teeLoop
      [⟨teeLoop, (.node 0, teeEvent), w₁⟩, ⟨w₁, (.channel 0, e₁), w₂⟩] w₂ :=
    .cons (.handle (List.mem_singleton_self _) rfl htee) (.single (.handle he₁ hp₁ hdeliver))
  have hdelivered : deliveredTo (.channel 0) e₂ = 1 := by simp [deliveredTo, hp₂]
  refine ⟨hbound, _, w₂, hrun, ?_, (hlineages _ w₂ hrun).1 teeEvent (List.mem_singleton_self _), e₂, he₂,
    hp₂, httl⟩
  have hlast : Lineage [⟨w₁, (.channel 0, e₁), w₂⟩] e₁ (deliveredTo (.channel 0) e₂ + 0) :=
    .copy rfl he₂ (fun hne => absurd (ha₂.trans ha₁.symm) hne) (.stop _ _)
  have hfirst := Lineage.copy (x := ⟨teeLoop, (.node 0, teeEvent), w₁⟩) (e := teeEvent) rfl he₁
    (fun hne => absurd ha₁ hne) hlast
  rw [hdelivered] at hfirst
  exact hfirst

end EventSeq
