import EventSeq.Configured
import EventSeq.Interpreter
import EventSeq.StartupGraph
import EventSeq.WindowReturns

/-!
# A running program

Every event of a running program is at a place of its graph, the predicates have no cycles and every
window node keeps its invariant.  So each call finds what its pointers lead to, and returns.
-/

namespace EventSeq

open Lib HashTable

/-! ## Where the events are -/

/-- The positions of all events are allowed. -/
def EventList.Within (q : Option Position → Prop) (l : EventList) : Prop :=
  ∀ x ∈ l.nodes, q x.position

/-- An event may have no position, and it may be at the outputs of the node. -/
structure Allows (q : Option Position → Prop) (source : GraphNode) : Prop where
  nowhere : q none
  outputs : ∀ c, some c ∈ source.outputs → q (some (.channel c))

section

variable {P : Platform} {A : Allocator} {q : Option Position → Prop} {source : GraphNode}
  {l l' : EventList} {s s' : WindowState}

namespace EventList.Within

theorem assign (h : l.Within q) {a : Addr} {f : EventNode → EventNode}
    (hf : ∀ x, q x.position → q (f x).position) (hrun : l.assign a f = .ok l') : l'.Within q := by
  unfold EventList.assign at hrun
  split at hrun
  · cases hrun
  · cases hrun
    intro x hx
    obtain ⟨y, hy, rfl⟩ := List.mem_map.mp hx
    split
    · exact hf y (h y hy)
    · exact h y hy

theorem destroy (h : l.Within q) {a : Addr} (hrun : eventDestroy a l = .ok l') : l'.Within q := by
  have hsub : ∀ nodes : List EventNode, (KeyedList.remove EventNode.addr a nodes).Sublist nodes := by
    intro nodes
    induction nodes with
    | nil => exact .slnil
    | cons y nodes ih =>
        rw [KeyedList.remove]
        split
        · exact List.sublist_cons_self y nodes
        · exact ih.cons_cons y
  unfold eventDestroy at hrun
  split at hrun
  · cases hrun
  · cases hrun
    exact fun x hx => h x ((hsub l.nodes).subset hx)

theorem replicate {a : Addr} {count : Nat} {result : Nat × EventList} (h : l.Within q)
    (hnowhere : q none) (hrun : eventReplicate A a count l = .ok result) : result.2.Within q := by
  have hinsert : ∀ (replica : EventNode) (nodes : List EventNode),
      ∀ x ∈ KeyedList.insertAfter EventNode.addr a replica nodes, x ∈ nodes ∨ x = replica := by
    intro replica nodes
    induction nodes with
    | nil => simp [KeyedList.insertAfter]
    | cons y nodes ih =>
        intro x hx
        rw [KeyedList.insertAfter] at hx
        split at hx
        · grind
        · grind
  induction count generalizing l result with
  | zero =>
      cases hrun
      exact h
  | succ count ih =>
      rw [eventReplicate] at hrun
      split at hrun
      · cases hrun
        exact h
      · split at hrun
        · cases hrun
        · obtain ⟨⟨i, l₁⟩, hrest, ⟨⟩⟩ := (bind_eq_ok_iff _ _ _).mp hrun
          have hwithin : l₁.Within q := by
            refine @ih _ (i, l₁) (fun x hx => ?_) hrest
            rcases hinsert _ _ x hx with hx | rfl
            · exact h x hx
            · exact hnowhere
          exact hwithin

theorem broadcastLoop {outputs : List (Option Nat)} {event : Option Addr} {count : Nat}
    {result : Nat × EventList} (h : l.Within q)
    (houtputs : ∀ c, some c ∈ outputs → q (some (.channel c)))
    (hrun : EventSeq.broadcastLoop outputs event count l = .ok result) : result.2.Within q := by
  induction outputs generalizing l event count with
  | nil =>
      cases hrun
      exact h
  | cons output outputs ih =>
      have hrest := fun c hc => houtputs c (List.mem_cons_of_mem _ hc)
      cases event with
      | none => cases hrun
      | some event =>
          cases output with
          | none =>
              obtain ⟨l₁, hdestroy, hrun⟩ := (bind_eq_ok_iff _ _ _).mp hrun
              exact ih (h.destroy hdestroy) hrest hrun
          | some c =>
              have hc := houtputs c List.mem_cons_self
              obtain ⟨l₁, hassign, hrun⟩ := (bind_eq_ok_iff _ _ _).mp hrun
              exact ih (h.assign (fun _ _ => hc) hassign) hrest hrun

theorem broadcast {event : Addr} {result : Nat × EventList} (h : l.Within q) (hq : Allows q source)
    (hrun : graphNodeBroadcastForwardEvent A source event l = .ok result) : result.2.Within q := by
  simp only [graphNodeBroadcastForwardEvent] at hrun
  split at hrun
  · obtain ⟨l₁, hdestroy, ⟨⟩⟩ := (bind_eq_ok_iff _ _ _).mp hrun
    exact h.destroy hdestroy
  · have houtputs : ∀ count c, some c ∈ source.outputs.take count → q (some (.channel c)) :=
      fun count c hc => hq.outputs c (List.mem_of_mem_take hc)
    split at hrun
    · obtain ⟨⟨i, l₁⟩, hreplicate, hrun⟩ := (bind_eq_ok_iff _ _ _).mp hrun
      exact (h.replicate hq.nowhere hreplicate).broadcastLoop (houtputs _) hrun
    · exact h.broadcastLoop (houtputs _) hrun

theorem replicateAndAdvance {a : Addr} {result : Option Addr × Addr × EventList} (h : l.Within q)
    (hnowhere : q none) (hrun : EventSeq.replicateAndAdvance A a l = .ok result) :
    result.2.2.Within q := by
  obtain ⟨⟨replicated, l₁⟩, hreplicate, hrun⟩ := (bind_eq_ok_iff _ _ _).mp hrun
  have hreplicated := h.replicate hnowhere hreplicate
  dsimp only at hrun
  split at hrun
  · cases hrun
    exact hreplicated
  · split at hrun
    · cases hrun
    · cases hrun
      exact hreplicated

theorem emitBefore {base : Addr} {data : EventData → EventData} {result : Addr × EventList}
    (h : l.Within q) (hq : Allows q source)
    (hrun : EventSeq.emitBefore P source base data l = .ok result) : result.2.Within q := by
  obtain ⟨⟨recipient, base', l₁⟩, hreplicate, hrun⟩ := (bind_eq_ok_iff _ _ _).mp hrun
  have h₁ := h.replicateAndAdvance hq.nowhere hreplicate
  cases recipient with
  | none =>
      cases hrun
      exact h₁
  | some recipient =>
      obtain ⟨l₂, hassign, hrun⟩ := (bind_eq_ok_iff _ _ _).mp hrun
      obtain ⟨sent, hbroadcast, ⟨⟩⟩ := (bind_eq_ok_iff _ _ _).mp hrun
      have hassigned : l₂.Within q :=
        EventList.Within.assign (f := fun e => { e with data := data e.data }) h₁ (fun _ hx => hx) hassign
      have hsent := hassigned.broadcast hq hbroadcast
      exact hsent

theorem retransmitLoop {buffer : Queue (Option Addr)} {indices : List Nat} {base : Addr}
    {result : Addr × EventList} (h : l.Within q) (hq : Allows q source)
    (hrun : EventSeq.retransmitLoop P source buffer indices base l = .ok result) :
    result.2.Within q := by
  induction indices generalizing base l with
  | nil =>
      cases hrun
      exact h
  | cons i indices ih =>
      rw [EventSeq.retransmitLoop] at hrun
      split at hrun
      · cases hrun
      · exact ih h hrun
      · split at hrun
        · cases hrun
        · obtain ⟨⟨base', l₁⟩, hemit, hrun⟩ := (bind_eq_ok_iff _ _ _).mp hrun
          exact ih (h.emitBefore hq hemit) hrun

end EventList.Within

/-! ## A window node -/

theorem triggerNewWindow_within {base : Option Addr} (h : s.events.Within q) (hq : Allows q source)
    (hrun : triggerNewWindow P source base s = .ok s') : s'.events.Within q := by
  cases base with
  | none =>
      cases hrun
      exact h
  | some base =>
      obtain ⟨⟨base₁, events₁⟩, hterminator, hrun⟩ := (bind_eq_ok_iff _ _ _).mp hrun
      obtain ⟨⟨rest, s₁⟩, hpop, hrun⟩ := (bind_eq_ok_iff _ _ _).mp hrun
      obtain ⟨indices, -, hrun⟩ := (bind_eq_ok_iff _ _ _).mp hrun
      obtain ⟨⟨base₂, events₂⟩, hretransmit, hrun⟩ := (bind_eq_ok_iff _ _ _).mp hrun
      obtain ⟨destroyed, hdestroy, ⟨⟩⟩ := (bind_eq_ok_iff _ _ _).mp hrun
      have h₁ : events₁.Within q := by
        unfold sendTerminator at hterminator
        split at hterminator
        · exact h.emitBefore hq hterminator
        · cases hterminator
          exact h
      have h₂ : s₁.events.Within q := by
        rw [popLoop_events hpop]
        exact h₁
      exact (h₂.retransmitLoop hq hretransmit).destroy hdestroy

theorem timeLoop_within {self fuel : Nat} {newTime : AbsoluteTime} {event : Addr}
    {result : Option Addr × WindowState} (h : s.events.Within q) (hq : Allows q source)
    (hself : q (some (.node self)))
    (hrun : timeLoop P self source newTime fuel event s = .ok result) : result.2.events.Within q := by
  induction fuel generalizing event s with
  | zero => cases hrun
  | succ fuel ih =>
      rw [timeLoop] at hrun
      obtain ⟨outlived, -, hrun⟩ := (bind_eq_ok_iff _ _ _).mp hrun
      cases outlived with
      | false =>
          cases hrun
          exact h
      | true =>
          obtain ⟨⟨replacement, event', events⟩, hreplicate, hrun⟩ := (bind_eq_ok_iff _ _ _).mp hrun
          have hreplicated := h.replicateAndAdvance hq.nowhere hreplicate
          cases replacement with
          | none =>
              cases hrun
              exact hreplicated
          | some replacement =>
              obtain ⟨l₁, hassign, hrun⟩ := (bind_eq_ok_iff _ _ _).mp hrun
              obtain ⟨l₂, hassign', hrun⟩ := (bind_eq_ok_iff _ _ _).mp hrun
              obtain ⟨s₁, htrigger, hrun⟩ := (bind_eq_ok_iff _ _ _).mp hrun
              -- the event is at the node again, and the base is nowhere
              have hplaced : l₂.Within q :=
                (hreplicated.assign (fun _ _ => hself) hassign).assign (fun _ _ => hq.nowhere) hassign'
              exact ih (triggerNewWindow_within hplaced hq htrigger) hrun

theorem lengthLoop_within {threshold fuel : Nat} {replacement : Addr} {result : Addr × WindowState}
    (h : s.events.Within q) (hq : Allows q source)
    (hrun : lengthLoop P source threshold fuel replacement s = .ok result) :
    result.2.events.Within q := by
  induction fuel generalizing replacement s with
  | zero => cases hrun
  | succ fuel ih =>
      rw [lengthLoop] at hrun
      split at hrun
      · obtain ⟨⟨base, replacement', events⟩, hreplicate, hrun⟩ := (bind_eq_ok_iff _ _ _).mp hrun
        obtain ⟨s₁, htrigger, hrun⟩ := (bind_eq_ok_iff _ _ _).mp hrun
        have hreplicated := h.replicateAndAdvance hq.nowhere hreplicate
        exact ih (triggerNewWindow_within hreplicated hq htrigger) hrun
      · cases hrun
        exact h

theorem passThrough_within {event : Addr} (h : s.events.Within q) (hq : Allows q source)
    (hrun : passThrough P source event s = .ok s') : s'.events.Within q := by
  obtain ⟨⟨replicated, events⟩, hreplicate, hrun⟩ := (bind_eq_ok_iff _ _ _).mp hrun
  have hreplicated := h.replicate hq.nowhere hreplicate
  dsimp only at hrun
  split at hrun
  · cases hrun
    exact hreplicated
  · split at hrun
    · cases hrun
    · obtain ⟨sent, hbroadcast, ⟨⟩⟩ := (bind_eq_ok_iff _ _ _).mp hrun
      have hsent := hreplicated.broadcast hq hbroadcast
      exact hsent

theorem windowAccept_within {event : Addr} (h : s.events.Within q) (hq : Allows q source)
    (hrun : windowAccept P source event s = .ok s') : s'.events.Within q := by
  obtain ⟨⟨replicated, events⟩, hreplicate, hrun⟩ := (bind_eq_ok_iff _ _ _).mp hrun
  obtain ⟨s₁, hpass, hrun⟩ := (bind_eq_ok_iff _ _ _).mp hrun
  obtain ⟨s₂, hbuffer, hrun⟩ := (bind_eq_ok_iff _ _ _).mp hrun
  have hreplicated := h.replicate hq.nowhere hreplicate
  have h₁ := passThrough_within (s := { s with events := _ }) hreplicated hq hpass
  have h₂ : s₂.events.Within q := by
    rw [bufferEvent_events hbuffer]
    exact h₁
  dsimp only at hrun
  split at hrun
  · cases hrun
    exact h₂
  · obtain ⟨⟨last, s₃⟩, hclose, hrun⟩ := (bind_eq_ok_iff _ _ _).mp hrun
    obtain ⟨destroyed, hdestroy, ⟨⟩⟩ := (bind_eq_ok_iff _ _ _).mp hrun
    have h₃ : s₃.events.Within q := by
      unfold closeByLength at hclose
      split at hclose
      · exact lengthLoop_within h₂ hq hclose
      · cases hclose
        exact h₂
    exact h₃.destroy hdestroy

theorem windowHandleEvent_within {w w' : World} {n : Nat} {window : WindowGraphNode} {event : Addr}
    {result : Bool} (h : w.events.Within q) (hq : ∀ node, w.nodes[n]? = some node → Allows q node)
    (hself : q (some (.node n)))
    (hrun : windowHandleEvent P w n window event = .ok (result, w')) : w'.events.Within q := by
  obtain ⟨source, hsource, hrun⟩ := (bind_eq_ok_iff _ _ _).mp hrun
  obtain ⟨e, -, hrun⟩ := (bind_eq_ok_iff _ _ _).mp hrun
  obtain ⟨hidden, -, hrun⟩ := (bind_eq_ok_iff _ _ _).mp hrun
  have hallows : Allows q source := by
    unfold World.node at hsource
    split at hsource
    · cases hsource
    · rename_i hnode
      cases hsource
      exact hq _ hnode
  cases hidden with
  | true =>
      cases hrun
      exact h
  | false =>
      obtain ⟨⟨event', s⟩, htime, hrun⟩ := (bind_eq_ok_iff _ _ _).mp hrun
      have hclosed := timeLoop_within (s := ⟨window, w.events, w.draws, []⟩) h hallows hself htime
      cases event' with
      | none =>
          cases hrun
          exact hclosed
      | some event' =>
          dsimp only at hrun
          split at hrun
          · cases hrun
            exact hclosed
          · obtain ⟨s₁, haccept, ⟨⟩⟩ := (bind_eq_ok_iff _ _ _).mp hrun
            exact windowAccept_within hclosed hallows haccept

end

/-! ## What every call keeps -/

/-- The position, if there is one, is a node or a channel of the graph. -/
def World.Leads (w : World) (position : Option Position) : Prop :=
  ∀ p, position = some p → w.HasPosition p

/-- The graph is connected as its pointers say, and each window has what it buffers. -/
structure World.Sound (P : Platform) (w : World) : Prop where
  nodup : w.events.addrs.Nodup
  linked : w.Linked
  acyclic : Acyclic w.predicates
  grounded : w.events.Within w.Leads
  windows : ∀ n window, w.WindowAt n window → ∃ as, WindowInvariant P n window as w

section

variable {P : Platform} {w w' : World} {n : Nat} {node : GraphNode} {e : EventNode}
  {pre post : List EventNode} {window : WindowGraphNode}

namespace World.SameConfiguration

theorem nodes_length (h : w.SameConfiguration w') : w'.nodes.length = w.nodes.length := by
  have hlength := congrArg List.length h.nodes
  rwa [List.length_map, List.length_map] at hlength

theorem leads (h : w.SameConfiguration w') : w'.Leads = w.Leads := by
  have hhas : ∀ p, w'.HasPosition p = w.HasPosition p := by
    intro p
    cases p with
    | node n => exact congrArg (n < ·) h.nodes_length
    | channel c => exact congrArg (fun channels => c < channels.length) h.channels
  unfold World.Leads
  simp only [hhas]

theorem linked (h : w.SameConfiguration w') (hlinked : w.Linked) : w'.Linked := by
  constructor
  · intro node hnode c hc
    have hmem : node.configured ∈ w.nodes.map GraphNode.configured := by
      rw [← h.nodes]
      exact List.mem_map_of_mem hnode
    obtain ⟨old, hold, heq⟩ := List.mem_map.mp hmem
    have houtputs : old.configured.outputs = node.configured.outputs := congrArg GraphNode.outputs heq
    have hc' : some c ∈ old.outputs := by
      rw [show old.outputs = node.outputs from houtputs]
      exact hc
    rw [h.channels]
    exact hlinked.outputs old hold c hc'
  · intro ch hch n hn
    rw [h.channels] at hch
    rw [h.nodes_length]
    exact hlinked.endNodes ch hch n hn

/-- A window node was one before. -/
theorem windowAt (h : w.SameConfiguration w') (hat : w'.WindowAt n window) :
    ∃ window₀, w.WindowAt n window₀ := by
  obtain ⟨node', hnode', hkind'⟩ := hat
  have hmap := congrArg (·[n]?) h.nodes
  simp only [List.getElem?_map, hnode', Option.map_some] at hmap
  obtain ⟨node, hnode, heq⟩ := Option.map_eq_some_iff.mp hmap.symm
  have hconfigured : node.configured.kind = node'.configured.kind := congrArg GraphNode.kind heq
  have hkind : node.kind.configured = node'.kind.configured := hconfigured
  rw [hkind'] at hkind
  cases hkind₀ : node.kind with
  | window window₀ => exact ⟨window₀, node, hnode, hkind₀⟩
  | _ =>
      rw [hkind₀] at hkind
      cases hkind

end World.SameConfiguration

/-- The outputs of a node lead to channels. -/
theorem World.Linked.allows (hlinked : w.Linked) (hnode : w.nodes[n]? = some node) :
    Allows w.Leads node where
  nowhere := by
    rintro p ⟨⟩
  outputs := by
    rintro c hc p ⟨⟩
    exact hlinked.outputs node (List.mem_of_getElem? hnode) c hc

theorem HandleOutcome.within {position : Position} (hlinked : w.Linked)
    (hgrounded : w.events.Within w.Leads) (hw : w.SplitAt pre e post)
    (hposition : e.position = some position) (h : HandleOutcome P w pre e post position w') :
    w'.events.Within w.Leads := by
  have hold : ∀ x ∈ pre ++ post, w.Leads x.position := by
    intro x hx
    apply hgrounded
    rw [hw.nodes]
    exact mem_around [e] hx
  -- what takes the place of the event has to be somewhere
  have hplaced : ∀ outs : List EventNode, (∀ o ∈ outs, w.Leads o.position) →
      ∀ mallocs, (EventList.mk (pre ++ (outs ++ post)) mallocs).Within w.Leads := by
    intro outs houts mallocs x hx
    rcases List.mem_append.mp hx with hx | hx
    · exact hold x (List.mem_append_left post hx)
    · rcases List.mem_append.mp hx with hx | hx
      · exact houts x hx
      · exact hold x (List.mem_append_right pre hx)
  cases h with
  | @node n mallocs node eff outs hnode _ heff _ hsub _ =>
      obtain ⟨outputs, data, hcopies, houtputs, -⟩ := nodeEffect_copies heff
      refine hplaced outs (fun o ho => ?_) mallocs
      have hmem := hsub.subset (List.mem_map_of_mem ho)
      rw [hcopies] at hmem
      obtain ⟨output, houtput, hcopy⟩ := List.mem_filterMap.mp hmem
      obtain ⟨c, rfl, heq⟩ := Option.map_eq_some_iff.mp hcopy
      rw [← (Prod.mk.inj heq).1]
      exact (hlinked.allows hnode).outputs c (houtputs.subset houtput)
  | window hnode _ hrun =>
      refine windowHandleEvent_within hgrounded (fun node hnode => hlinked.allows hnode) ?_ hrun
      rintro p ⟨⟩
      exact (List.getElem?_eq_some_iff.mp hnode).1
  | dropped _ _ => exact hplaced [] (by simp) _
  | @delivered c target ch e' node _ hdelivered hnode =>
      refine hplaced [e'] (fun o ho => ?_) _
      rw [List.mem_singleton.mp ho, (delivered_eq_some hdelivered).2.2.1]
      rintro p ⟨⟩
      exact (List.getElem?_eq_some_iff.mp hnode).1

theorem handleIo_within {input : SourceInput} (hnodup : w.events.addrs.Nodup) (hlinked : w.Linked)
    (hgrounded : w.events.Within w.Leads) (h : handleIo P w n input = .ok w') :
    w'.events.Within w.Leads := by
  obtain ⟨node, kind, hnode, rfl, -, -⟩ := handleIo_cases h
  have hadds := createAll_adds P.allocator node.outputs (readData node.kind input) hnodup
  intro x hx
  rcases hadds.added x hx with hx | ⟨-, -, output, houtput, hposition⟩
  · exact hgrounded x hx
  · rw [hposition]
    intro p hp
    obtain ⟨c, rfl, rfl⟩ := Option.map_eq_some_iff.mp hp
    exact (hlinked.allows hnode).outputs c houtput _ rfl

theorem World.Sound.step {c : SystemCall} (h : w.Sound P) (hstep : SystemMove P w c w') :
    w'.Sound P := by
  obtain ⟨depth, hstep⟩ := hstep
  have hsame := hstep.sameConfiguration h.nodup
  refine ⟨hstep.nodup h.nodup, hsame.linked h.linked, hsame.predicates.acyclic h.acyclic, ?_, ?_⟩
  · rw [hsame.leads]
    cases hstep with
    | handle hmem hposition hrun =>
        obtain ⟨pre, post, hw⟩ := World.splitAt_of_mem h.nodup hmem
        exact (handleEvent_outcome hw hrun).within h.linked h.grounded hw hposition
    | read hread => exact handleIo_within h.nodup h.linked h.grounded hread
  · intro n window hat
    obtain ⟨window₀, hat₀⟩ := hsame.windowAt hat
    obtain ⟨as, hinv⟩ := h.windows n window₀ hat₀
    obtain ⟨window', as', hinv', -⟩ := (hinv.withDepth depth).step hstep
    obtain rfl := World.WindowAt.unique hat hinv'.at_node
    exact ⟨as', hinv'.ofDepth⟩

theorem World.Sound.run {τ : List SystemTransition} (h : w.Sound P)
    (hrun : Run (SystemMove P) w τ w') : w'.Sound P :=
  hrun.invariant (fun _ _ _ hstep h => h.step hstep) h

/-! ## What every call needs -/

/-- No window is to be kept shorter than the empty one. -/
def World.WindowsOpen (w : World) : Prop :=
  ∀ node ∈ w.nodes, ∀ window, node.kind = .window window → window.hasMaxLength → 0 < window.maxLength

theorem World.SameConfiguration.windowsOpen (h : w.SameConfiguration w') (hopen : w.WindowsOpen) :
    w'.WindowsOpen := by
  intro node hnode window hkind hmax
  have hmem : node.configured ∈ w.nodes.map GraphNode.configured := by
    rw [← h.nodes]
    exact List.mem_map_of_mem hnode
  obtain ⟨old, hold, heq⟩ := List.mem_map.mp hmem
  have hconfigured : old.configured.kind = node.configured.kind := congrArg GraphNode.kind heq
  have hkinds : old.kind.configured = node.kind.configured := hconfigured
  rw [hkind] at hkinds
  cases hkind₀ : old.kind with
  | window window₀ =>
      -- the two windows differ in what they buffer and skip
      rw [hkind₀] at hkinds
      have hoptions := NodeKind.window.inj hkinds
      have hhas := congrArg WindowGraphNode.hasMaxLength hoptions
      have hlength := congrArg WindowGraphNode.maxLength hoptions
      change window₀.hasMaxLength = window.hasMaxLength at hhas
      change window₀.maxLength = window.maxLength at hlength
      rw [← hlength]
      exact hopen old hold window₀ hkind₀ (hhas ▸ hmax)
  | _ =>
      rw [hkind₀] at hkinds
      cases hkinds

theorem World.Sound.channel_returns {c : Nat} (h : w.Sound P) (he : e ∈ w.events.nodes)
    (hc : c < w.channels.length) : ∃ result w', channelHandleEvent w c e.addr = .ok (result, w') := by
  obtain ⟨pre, post, hw⟩ := World.splitAt_of_mem h.nodup he
  have hch : w.channels[c]? = some w.channels[c] := List.getElem?_eq_getElem hc
  have hsplit := channelHandleEvent_split hw hch
  cases hdelivered : delivered w.channels[c] e with
  | none =>
      rw [hdelivered] at hsplit
      exact ⟨_, _, hsplit⟩
  | some moved =>
      obtain ⟨target, e'⟩ := moved
      have htarget : target < w.nodes.length :=
        h.linked.endNodes _ (List.getElem_mem hc) target (delivered_endNode hdelivered)
      rw [hdelivered] at hsplit
      simp only [World.node_eq (List.getElem?_eq_getElem htarget), bind, Except.bind] at hsplit
      exact ⟨_, _, hsplit⟩

theorem World.Sound.withDepth (h : w.Sound P) (depth : Nat) : w.Sound (P.withDepth depth) :=
  ⟨h.nodup, h.linked, h.acyclic, h.grounded, fun n window hat =>
    have ⟨as, hinv⟩ := h.windows n window hat
    ⟨as, hinv.withDepth depth⟩⟩

/-- From now on there comes, for each window, a hash function that spreads its events and any one
more. -/
def World.DrawsSpread (P : Platform) (w : World) : Prop :=
  ∀ n window, w.WindowAt n window → EventSetSpreads P w.draws window.bufferedSet

/-- The handler of the event divides by -1 what it must not. -/
def World.Overflows (w : World) (position : Position) (e : EventNode) : Prop :=
  ∃ n node, position = .node n ∧ w.nodes[n]? = some node ∧ node.Overflows e.data

/-- Then the processor traps. -/
theorem World.Sound.handler_overflows {position : Position} (h : w.Sound P) (he : e ∈ w.events.nodes)
    (hoverflows : w.Overflows position e) : w.handleEvent P position e = .error .overflow := by
  obtain ⟨n, node, rfl, hnode, hover⟩ := hoverflows
  obtain ⟨pre, post, hw⟩ := World.splitAt_of_mem h.nodup he
  have htype : node.kind.type.unbuffered := by
    obtain ⟨-, node', hkind, -⟩ := hover
    rw [hkind]
    rfl
  have himpl := nodeHandleEvent_implements P hw hnode htype
  rw [nodeEffect_overflows hover] at himpl
  exact himpl

/-- With memory, and with draws that spread the events of the windows, the handler of an event returns,
unless a division traps. -/
theorem World.Sound.handler_returns {position : Position} (h : w.Sound P) (hA : P.allocator.Succeeds)
    (hspread : w.DrawsSpread P) (hopen : w.WindowsOpen) (he : e ∈ w.events.nodes)
    (hposition : e.position = some position) (hhandler : w.hasHandler position = true)
    (hfits : ¬w.Overflows position e) :
    ∃ bound, ∀ depth ≥ bound, ∃ result w',
      w.handleEvent (P.withDepth depth) position e = .ok (result, w') := by
  have hhas : w.HasPosition position := h.grounded e he position hposition
  cases position with
  | channel c =>
      obtain ⟨result, w', hrun⟩ := h.channel_returns he hhas
      exact ⟨0, fun _ _ => ⟨result, w', hrun⟩⟩
  | node n =>
      have hnode : w.nodes[n]? = some w.nodes[n] := List.getElem?_eq_getElem hhas
      simp only [World.hasHandler, hnode, Option.map_some, Option.getD_some] at hhandler
      obtain ⟨pre, post, hw⟩ := World.splitAt_of_mem h.nodup he
      by_cases htype : w.nodes[n].kind.type.unbuffered
      · refine ⟨0, fun depth _ => ?_⟩
        have himpl := nodeHandleEvent_implements (P.withDepth depth) hw hnode htype
        obtain ⟨eff, heff, -⟩ : ∃ eff, nodeEffect n w.nodes[n] w.predicates e = .ok eff ∧
            Acyclic eff.predicates :=
          nodeEffect_ok h.acyclic htype fun hover => hfits ⟨n, _, rfl, hnode, hover⟩
        rw [heff] at himpl
        obtain ⟨outs, mallocs, hrun, -⟩ := himpl
        exact ⟨true, _, hrun⟩
      · -- what has a handler and is not unbuffered is a window
        obtain ⟨window, hkind⟩ : ∃ window, w.nodes[n].kind = .window window := by
          cases hkind : w.nodes[n].kind with
          | window window => exact ⟨window, rfl⟩
          | evdev source | getchar source =>
              rw [hkind] at hhandler
              cases hhandler
          | _ =>
              rw [hkind] at htype
              exact absurd rfl htype
        have hat : w.WindowAt n window := ⟨_, hnode, hkind⟩
        obtain ⟨as, hinv⟩ := h.windows n window hat
        obtain ⟨bound, hbound⟩ := windowHandleEvent_returns_above hA (hspread n window hat) hinv
          ⟨he, hposition⟩
          (hopen _ (List.getElem_mem hhas) window hkind)
        refine ⟨bound, fun depth hdepth => ?_⟩
        obtain ⟨result, w', hrun⟩ := hbound depth hdepth
        exact ⟨result, w', (World.handleEvent_window hat).trans hrun⟩

/-- One bound is high enough for all events of the list. -/
theorem World.Sound.handlers_return (h : w.Sound P) (hA : P.allocator.Succeeds)
    (hspread : w.DrawsSpread P) (hopen : w.WindowsOpen) :
    ∃ bound, ∀ depth ≥ bound, ∀ e ∈ w.events.nodes, ∀ position, e.position = some position →
      w.hasHandler position = true → ¬w.Overflows position e →
      ∃ result w', w.handleEvent (P.withDepth depth) position e = .ok (result, w') := by
  have hall : ∀ l ⊆ w.events.nodes, ∃ bound, ∀ depth ≥ bound, ∀ e ∈ l, ∀ position,
      e.position = some position → w.hasHandler position = true → ¬w.Overflows position e →
      ∃ result w', w.handleEvent (P.withDepth depth) position e = .ok (result, w') := by
    intro l
    induction l with
    | nil => exact fun _ => ⟨0, by simp⟩
    | cons e l ih =>
        intro hsub
        obtain ⟨hmem, hsub'⟩ := List.cons_subset.mp hsub
        obtain ⟨bound, hbound⟩ := ih hsub'
        obtain ⟨bound', hbound'⟩ : ∃ bound, ∀ depth ≥ bound, ∀ position, e.position = some position →
            w.hasHandler position = true → ¬w.Overflows position e →
            ∃ result w', w.handleEvent (P.withDepth depth) position e = .ok (result, w') := by
          cases hposition : e.position with
          | none => exact ⟨0, by simp⟩
          | some position =>
              by_cases hcalled : w.hasHandler position = true ∧ ¬w.Overflows position e
              · obtain ⟨bound', hbound'⟩ :=
                  h.handler_returns hA hspread hopen hmem hposition hcalled.1 hcalled.2
                refine ⟨bound', fun depth hdepth position' heq _ _ => ?_⟩
                cases heq
                exact hbound' depth hdepth
              · refine ⟨0, fun _ _ position' heq hhandler hfits => ?_⟩
                cases heq
                exact absurd ⟨hhandler, hfits⟩ hcalled
        refine ⟨max bound bound', fun depth hdepth x hx => ?_⟩
        obtain ⟨hle, hle'⟩ := max_le_iff.mp hdepth
        rcases List.mem_cons.mp hx with rfl | hx
        · exact hbound' depth hle'
        · exact hbound depth hle x hx
  exact hall _ (List.Subset.refl _)

end

/-! ## The program that is started -/

section

variable {Setting : Type} {p : ProgramPlatform Setting} {configRoot : Setting}
  {config : FullConfig Setting} {program : StartedProgram} {w : World} {τ : List SystemTransition}

/-- The connectors of a configured graph have its channels, and these lead to its nodes. -/
theorem World.Configured.linked (h : w.Configured p configRoot config) : w.Linked := by
  constructor
  · intro node hnode c hc
    obtain ⟨n, hn⟩ := List.getElem?_of_mem hnode
    obtain ⟨i, hi⟩ := List.getElem?_of_mem hc
    have hlast : (node.outputs[i]?).join = lastChannel config .start (n, i) :=
      h.connectors n node hn .start i
    rw [hi] at hlast
    obtain ⟨channelConfig, hchannel, -⟩ := lastChannel_configured hlast.symm
    rw [h.channels]
    exact (List.getElem?_eq_some_iff.mp hchannel).1
  · intro ch hch n hn
    obtain ⟨c, hc⟩ := List.getElem?_of_mem hch
    have hlt : c < config.channels.length := h.channels ▸ (List.getElem?_eq_some_iff.mp hc).1
    obtain ⟨channel, hchannel, hends⟩ := h.ends c _ (List.getElem?_eq_getElem hlt)
    rw [hc, Option.some.injEq] at hchannel
    subst hchannel
    obtain ⟨m, hm, -, hend⟩ := hends .end_
    have hend' : ch.endNode = if lastChannel config .end_ (m, ChannelSide.end_.idx ch) = some c then
      some m else none := hend
    rw [hn] at hend'
    split at hend'
    · cases hend'
      exact hm
    · cases hend'

theorem startProgram_sound (hstart : startProgram p (some configRoot) = .ok program) :
    program.world.Sound p.toPlatform := by
  obtain ⟨registry, config, predicates, draws, s, m, lists, -, -, hcreated, hconnected, -, rfl⟩ :=
    startProgram_cases hstart
  have hconfigured := hconnected.configured hcreated s.names.draws
  refine ⟨List.nodup_nil, hconfigured.linked, hconfigured.ordered.acyclic, by simp [EventList.Within,
    startedWorld], fun n window hat => ⟨[], ?_⟩⟩
  -- a window node is as it was created
  obtain ⟨node, hnode, hkind⟩ := id hat
  have hmem : node.kind ∈ s.nodes.map CreatedNode.kind := by
    rw [← hconnected.kinds]
    exact List.mem_map_of_mem (List.mem_of_getElem? hnode)
  obtain ⟨created, hmem, heq⟩ := List.mem_map.mp hmem
  obtain ⟨options, draws', rfl⟩ := hcreated.windows created hmem window (heq.trans hkind)
  exact WindowInvariant.created List.nodup_nil hat

/-- In whatever order the handlers and the callbacks of the sources of a started program are called,
each handler returns: no pointer is followed that leads nowhere, no index is out of range, no predicate
asks for itself and no loop goes on for ever, if there is memory, the draws spread the events of the
windows and no window is bounded by a length of 0.  Only a `scale` node that divides the least value by
-1 ends the program. -/
theorem started_program_never_faults (hstart : startProgram p (some configRoot) = .ok program)
    (hA : p.allocator.Succeeds) (hopen : program.world.WindowsOpen)
    (hrun : Run (SystemMove p.toPlatform) program.world τ w) (hspread : w.DrawsSpread p.toPlatform) :
    ∃ bound, ∀ depth ≥ bound, ∀ e ∈ w.events.nodes, ∀ position, e.position = some position →
      w.hasHandler position = true →
      (w.Overflows position e ∧
        w.handleEvent (p.toPlatform.withDepth depth) position e = .error .overflow) ∨
      (¬w.Overflows position e ∧
        ∃ result w', w.handleEvent (p.toPlatform.withDepth depth) position e = .ok (result, w')) := by
  have hsound := startProgram_sound hstart
  obtain ⟨-, hsame⟩ := sameConfiguration_of_run hrun hsound.nodup
  have hreached := hsound.run hrun
  obtain ⟨bound, hbound⟩ := hreached.handlers_return hA hspread (hsame.windowsOpen hopen)
  refine ⟨bound, fun depth hdepth e he position hposition hhandler => ?_⟩
  by_cases hover : w.Overflows position e
  · exact .inl ⟨hover, (hreached.withDepth depth).handler_overflows he hover⟩
  · exact .inr ⟨hover, hbound depth hdepth e he position hposition hhandler hover⟩

end

/-- Bytes from the standard input go through a window of at most one event. -/
def windowConfig : SettingTree :=
  .group none
    [.group (some "nodes")
      [.group (some "in") [.string (some "type") "getchar"],
        .group (some "last")
          [.string (some "type") "window",
            .group (some "options") [.int (some "max_length") 2]],
        .group (some "out") [.string (some "type") "print"]],
      .list (some "channels")
        [.list none [.connector "in" 0, .connector "last" 0],
          .list none [.connector "last" 0, .connector "out" 0]]]

def windowWorld : World where
  events := ⟨[], 0⟩
  nodes :=
    [⟨false, [], [some 0], .getchar ⟨true, 0⟩⟩,
      ⟨false, [some 0], [some 1], .window (windowCreate simplePlatform ⟨0, 0, some 2, none, none⟩ 4).1⟩,
      ⟨false, [some 1], [], .print⟩]
  channels := [⟨false, some 0, some 1, 0, 0⟩, ⟨false, some 1, some 2, 0, 0⟩]
  predicates := []
  deliveries := []
  draws := 5
  log := []

theorem window_starts :
    startProgram treeProgram (some windowConfig) = .ok ⟨windowWorld, [(0, 0)], inputSubscribed⟩ := by
  decide +kernel

theorem windowWorld_open : windowWorld.WindowsOpen := by
  intro node hnode window hkind _
  have hlengths : ∀ node ∈ windowWorld.nodes, ∀ window ∈ node.kind.asWindow, 0 < window.maxLength := by
    decide
  exact hlengths node hnode window (NodeKind.asWindow_eq_some_iff.mpr hkind)

/-- The set of the window is small as long as the nodes are as they were created. -/
theorem windowWorld_spread {w : World} (hnodes : w.nodes = windowWorld.nodes) :
    w.DrawsSpread treeProgram.toPlatform := by
  rintro n window ⟨node, hnode, hkind⟩ a
  have hsmall : ∀ node ∈ windowWorld.nodes, ∀ window ∈ node.kind.asWindow,
      window.bufferedSet.capacity ≤ 13 := by
    decide
  rw [hnodes] at hnode
  exact drawsSpread_of_small
    (hsmall node (List.mem_of_getElem? hnode) window (NodeKind.asWindow_eq_some_iff.mpr hkind))

/-- No node divides. -/
theorem windowWorld_fits {w : World} (hnodes : w.nodes = windowWorld.nodes) (position : Position)
    (e : EventNode) : ¬w.Overflows position e := by
  rintro ⟨n, node, -, hnode, -, node', hkind, -⟩
  have htypes : ∀ node ∈ windowWorld.nodes, node.kind.type ≠ .scale := by decide
  rw [hnodes] at hnode
  exact htypes node (List.mem_of_getElem? hnode) (by rw [hkind]; rfl)

/-- A byte is read and comes to the window node. -/
theorem window_reaches (b : UInt8) :
    ∃ τ w e, Run (SystemMove treeProgram.toPlatform) windowWorld τ w ∧ e ∈ w.eventsAt 1 ∧
      w.hasHandler (.node 1) = true ∧ w.events.nodes.length = 1 ∧ w.nodes = windowWorld.nodes := by
  obtain ⟨w₁, w₂, e₁, e₂, hread, he₁, hp₁, hdeliver, he₂, hp₂, hhandler, hlength, hnodes⟩ :
      ∃ w₁ w₂ e₁ e₂, handleIo treeProgram.toPlatform windowWorld 0
          (.getchar ⟨.byte b, ⟨⟨1, 0⟩⟩⟩) = .ok w₁ ∧
        e₁ ∈ w₁.events.nodes ∧ e₁.position = some (.channel 0) ∧
        w₁.handleEvent treeProgram.toPlatform (.channel 0) e₁ = .ok (true, w₂) ∧
        e₂ ∈ w₂.events.nodes ∧ e₂.position = some (.node 1) ∧ w₂.hasHandler (.node 1) = true ∧
        w₂.events.nodes.length = 1 ∧ w₂.nodes = windowWorld.nodes :=
    ⟨_, _, _, _, rfl, List.mem_singleton_self _, rfl, rfl, List.mem_singleton_self _, rfl, rfl, rfl,
      rfl⟩
  exact ⟨_, w₂, e₂, .cons ⟨8, .read hread⟩ (.single ⟨8, .handle he₁ hp₁ hdeliver⟩), ⟨he₂, hp₂⟩,
    hhandler, hlength, hnodes⟩

theorem started_program_never_faults_window :
    ∃ (w : World) (e : EventNode) (depth : Nat) (result : Bool) (w' : World), e ∈ w.eventsAt 1 ∧
      w.handleEvent (treeProgram.toPlatform.withDepth depth) (.node 1) e = .ok (result, w') := by
  obtain ⟨τ, w, e, hrun, ⟨he, hposition⟩, hhandler, -, hnodes⟩ := window_reaches 97
  obtain ⟨depth, hdepth⟩ := started_program_never_faults window_starts Allocator.next_succeeds
    windowWorld_open hrun (windowWorld_spread hnodes)
  rcases hdepth depth le_rfl e he _ hposition hhandler with
    ⟨hover, -⟩ | ⟨-, result, w', hcall⟩
  · exact absurd hover (windowWorld_fits hnodes _ e)
  · exact ⟨w, e, depth, result, w', ⟨he, hposition⟩, hcall⟩

end EventSeq
