import EventSeq.Graph
import EventSeq.Lib.Links

/-!
# Building and taking apart a graph (`graph.c`)

A node that was deleted and a channel that is still zeroed are absent.  A channel is linked with a
connector on each of its two sides, which the functions treat alike: its start with an output of a
node, its end with an input.
-/

namespace EventSeq

open Lib

/-! ## The functions -/

structure GraphMemory where
  nodes : List (Option GraphNode)
  channels : List (Option GraphChannel)
deriving DecidableEq, Repr

inductive ChannelSide where
  | start
  | end_
deriving DecidableEq, Repr

namespace ChannelSide

def connectors : ChannelSide → GraphNode → List (Option Nat)
  | .start, node => node.outputs
  | .end_, node => node.inputs

def setConnectors : ChannelSide → GraphNode → List (Option Nat) → GraphNode
  | .start, node, elements => { node with outputs := elements }
  | .end_, node, elements => { node with inputs := elements }

def node : ChannelSide → GraphChannel → Option Nat
  | .start, ch => ch.startNode
  | .end_, ch => ch.endNode

def idx : ChannelSide → GraphChannel → Nat
  | .start, ch => ch.idxStart
  | .end_, ch => ch.idxEnd

def detach : ChannelSide → GraphChannel → GraphChannel
  | .start, ch => { ch with startNode := none }
  | .end_, ch => { ch with endNode := none }

variable {side side' : ChannelSide}

theorem node_detach (side : ChannelSide) (channel : GraphChannel) :
    side.node (side.detach channel) = none := by
  cases side <;> rfl

theorem node_detach_other (h : side' ≠ side) (channel : GraphChannel) :
    side'.node (side.detach channel) = side'.node channel := by
  cases side <;> cases side' <;> first | rfl | exact absurd rfl h

theorem idx_detach (side side' : ChannelSide) (channel : GraphChannel) :
    side'.idx (side.detach channel) = side'.idx channel := by
  cases side <;> cases side' <;> rfl

theorem connectors_set (side : ChannelSide) (node : GraphNode) (l : List (Option Nat)) :
    side.connectors (side.setConnectors node l) = l := by
  cases side <;> rfl

theorem connectors_set_other (h : side' ≠ side) (node : GraphNode) (l : List (Option Nat)) :
    side'.connectors (side.setConnectors node l) = side'.connectors node := by
  cases side <;> cases side' <;> first | rfl | exact absurd rfl h

end ChannelSide

/-- The number of values of a `size_t`. -/
def sizeModulus : Nat := 2 ^ 64

/-- `fits` tells which sizes `reallocarray` can provide. -/
def graphChannelListResize (fits : Nat → Bool) (lst : List (Option Nat)) (target : Nat) :
    List (Option Nat) :=
  if target > lst.length then
    if fits target then lst ++ List.replicate (target - lst.length) none else lst
  else lst.take target

def graphChannelListEnsure (fits : Nat → Bool) (lst : List (Option Nat)) (idx : Nat) :
    Except Fault (List (Option Nat)) :=
  let minLength := (idx + 1) % sizeModulus
  let lst := if lst.length < minLength then graphChannelListResize fits lst minLength else lst
  if lst.length < minLength then .error .aborts else .ok lst

namespace GraphMemory

def node (m : GraphMemory) (n : Nat) : Except Fault GraphNode :=
  match m.nodes[n]? with
  | some (some node) => .ok node
  | _ => .error .dangling

def setNode (m : GraphMemory) (n : Nat) (node : GraphNode) : GraphMemory :=
  { m with nodes := m.nodes.set n (some node) }

/-- A pointer in a connector is followed, and the channel loses that side if it meets `cond`.  The
node of a zeroed channel is null. -/
def detachChannel (m : GraphMemory) (side : ChannelSide) (ch : Option Nat) (cond : GraphChannel → Bool) :
    Except Fault GraphMemory :=
  match ch with
  | none => .ok m
  | some ch =>
      match m.channels[ch]? with
      | none => .error .dangling
      | some none => .ok m
      | some (some channel) =>
          if cond channel then
            .ok { m with channels := m.channels.set ch (some (side.detach channel)) }
          else .ok m

/-- One half of `graph_channel_init`: the connector `idx` of the node is given to the channel. -/
def attachChannel (fits : Nat → Bool) (m : GraphMemory) (side : ChannelSide) (ch : Nat)
    (target : Option Nat) (idx : Nat) : Except Fault GraphMemory :=
  match target with
  | none => .ok m
  | some n => do
      let node ← m.node n
      let elements ← graphChannelListEnsure fits (side.connectors node) idx
      match elements[idx]? with
      | none => .error .outOfRange
      | some oldCh => do
          let m ← m.detachChannel side oldCh fun channel =>
            side.node channel == some n && side.idx channel == idx
          .ok (m.setNode n (side.setConnectors node (elements.set idx (some ch))))

end GraphMemory

def graphChannelInit (fits : Nat → Bool) (m : GraphMemory) (ch : Nat) (start : Option Nat)
    (startIdx : Nat) (end_ : Option Nat) (endIdx : Nat) : Except Fault GraphMemory := do
  let m ← m.attachChannel fits .start ch start startIdx
  let m ← m.attachChannel fits .end_ ch end_ endIdx
  .ok { m with channels := m.channels.set ch (some ⟨false, start, end_, startIdx, endIdx⟩) }

/-- One of the loops of `graph_node_delete`, over the connectors of one side. -/
def GraphMemory.detachAll (m : GraphMemory) (side : ChannelSide) (n : Nat) :
    List (Option Nat) → Except Fault GraphMemory
  | [] => .ok m
  | ch :: rest => do
      let m ← m.detachChannel side ch fun channel => side.node channel == some n
      m.detachAll side n rest

/-- The lists of connectors are freed together with the node. -/
def graphNodeDelete (m : GraphMemory) (self : Option Nat) : Except Fault GraphMemory :=
  match self with
  | none => .ok m
  | some n => do
      let node ← m.node n
      let m ← m.detachAll .end_ n node.inputs
      let m ← m.detachAll .start n node.outputs
      .ok { m with nodes := m.nodes.set n none }

/-! ## What the memory shows of one side -/

namespace GraphMemory

def Live (m : GraphMemory) (n : Nat) : Prop := ∃ node, m.nodes[n]? = some (some node)

instance (m : GraphMemory) (n : Nat) : Decidable (m.Live n) :=
  decidable_of_iff (m.nodes[n]?.join.isSome = true) (by
    rw [Option.isSome_iff_exists]
    simp only [Option.join_eq_some_iff]
    rfl)

/-- The channel at a connector, which is given by a node and an index. -/
def channelAt (m : GraphMemory) (side : ChannelSide) (a : Nat × Nat) : Option Nat :=
  match m.nodes[a.1]? with
  | some (some node) => ((side.connectors node)[a.2]?).join
  | _ => none

/-- The connector a channel refers to. -/
def connectorOf (m : GraphMemory) (side : ChannelSide) (ch : Nat) : Option (Nat × Nat) :=
  match m.channels[ch]? with
  | some (some channel) => (side.node channel).map fun n => (n, side.idx channel)
  | _ => none

/-- On this side the connectors and the channels refer to each other as linked. -/
structure Shows (m : GraphMemory) (side : ChannelSide) (links : (Nat × Nat) ≃. Nat) : Prop where
  channelAt : ∀ a, m.channelAt side a = links a
  connectorOf : ∀ ch, m.connectorOf side ch = links.symm ch

section

variable {fits : Nat → Bool} {m m' : GraphMemory} {side side' : ChannelSide} {n idx ch : Nat}
  {links : (Nat × Nat) ≃. Nat} {node : GraphNode} {channel : GraphChannel} {target : Option Nat}

theorem node_eq_ok_iff : m.node n = .ok node ↔ m.nodes[n]? = some (some node) := by
  unfold GraphMemory.node
  split
  · rename_i found heq
    rw [heq]
    simp
  · rename_i hnot
    constructor
    · intro h
      cases h
    · exact fun h => absurd h (hnot node)

theorem channelAt_eq (h : m.nodes[n]? = some (some node)) (i : Nat) :
    m.channelAt side (n, i) = ((side.connectors node)[i]?).join := by
  rw [channelAt, h]

theorem connectorOf_eq (h : m.channels[ch]? = some (some channel)) :
    m.connectorOf side ch = (side.node channel).map fun n => (n, side.idx channel) := by
  rw [connectorOf, h]

theorem connectorOf_eq_some_iff : m.connectorOf side ch = some (n, idx) ↔
    ∃ channel, m.channels[ch]? = some (some channel) ∧ side.node channel = some n ∧
      side.idx channel = idx := by
  constructor
  · intro h
    unfold GraphMemory.connectorOf at h
    split at h
    · rename_i channel heq
      obtain ⟨n', hnode, hpair⟩ := Option.map_eq_some_iff.mp h
      obtain ⟨rfl, rfl⟩ := Prod.mk.inj hpair
      exact ⟨channel, heq, hnode, rfl⟩
    · cases h
  · rintro ⟨channel, heq, hnode, rfl⟩
    rw [connectorOf_eq heq, hnode]
    rfl

/-- The connectors and the channels refer to each other. -/
theorem Shows.channelAt_iff (h : m.Shows side links) (a : Nat × Nat) :
    m.channelAt side a = some ch ↔ m.connectorOf side ch = some a := by
  rw [h.channelAt, h.connectorOf, links.eq_some_iff]

/-- A live connector holds only channels that exist. -/
theorem Shows.exists_channel (h : m.Shows side links) (hch : m.channelAt side (n, idx) = some ch) :
    ∃ channel, m.channels[ch]? = some (some channel) ∧ side.node channel = some n ∧
      side.idx channel = idx :=
  connectorOf_eq_some_iff.mp ((h.channelAt_iff _).mp hch)

theorem Shows.congr (h : m.Shows side links) (hat : ∀ a, m'.channelAt side a = m.channelAt side a)
    (hof : ∀ c, m'.connectorOf side c = m.connectorOf side c) : m'.Shows side links :=
  ⟨fun a => (hat a).trans (h.channelAt a), fun c => (hof c).trans (h.connectorOf c)⟩

/-- When the list is made ready for an index, it is as long as is asked for, and what is added to it
are null pointers. -/
theorem graphChannelListEnsure_spec {lst lst' : List (Option Nat)}
    (h : graphChannelListEnsure fits lst idx = .ok lst') :
    (idx + 1) % sizeModulus ≤ lst'.length ∧ ∃ added, lst' = lst ++ List.replicate added none := by
  unfold graphChannelListEnsure at h
  dsimp only at h
  generalize hgrown : (if lst.length < (idx + 1) % sizeModulus then
    graphChannelListResize fits lst ((idx + 1) % sizeModulus) else lst) = grown at h
  split at h
  · cases h
  · rename_i hlong
    cases h
    refine ⟨not_lt.mp hlong, ?_⟩
    subst hgrown
    split
    · rename_i hshort
      unfold graphChannelListResize
      rw [if_pos hshort]
      split
      · exact ⟨_, rfl⟩
      · exact ⟨0, (List.append_nil lst).symm⟩
    · exact ⟨0, (List.append_nil lst).symm⟩

theorem graphChannelListEnsure_join {lst lst' : List (Option Nat)}
    (h : graphChannelListEnsure fits lst idx = .ok lst') (i : Nat) :
    (lst'[i]?).join = (lst[i]?).join := by
  obtain ⟨-, added, rfl⟩ := graphChannelListEnsure_spec h
  rcases Nat.lt_or_ge i lst.length with hi | hi
  · rw [List.getElem?_append_left hi]
  · rw [List.getElem?_append_right hi, List.getElem?_eq_none hi, List.getElem?_replicate]
    split <;> rfl

/-! ## Detaching channels -/

/-- `m'` is `m` with the channels that meet `p` detached on one side. -/
structure Detached (m m' : GraphMemory) (side : ChannelSide) (p : Nat → GraphChannel → Bool) :
    Prop where
  nodes : m'.nodes = m.nodes
  channels : ∀ c, m'.channels[c]? = (m.channels[c]?).map
    (Option.map fun channel => if p c channel then side.detach channel else channel)

theorem detachChannel_spec {old : Option Nat} {cond : GraphChannel → Bool}
    (h : m.detachChannel side old cond = .ok m') :
    Detached m m' side fun c channel => decide (old = some c) && cond channel := by
  -- in all branches but one nothing is written
  have hsame : ∀ {p : Nat → GraphChannel → Bool},
      (∀ c channel, m.channels[c]? = some (some channel) → p c channel = false) →
      Detached m m side p := by
    intro p hp
    refine ⟨rfl, fun c => ?_⟩
    cases hc : m.channels[c]? with
    | none => rfl
    | some channel =>
        cases channel with
        | none => rfl
        | some channel => simp [hp c channel hc]
  unfold detachChannel at h
  split at h
  · cases h
    exact hsame fun _ _ _ => by simp
  · rename_i ch
    split at h
    · cases h
    · rename_i hnull
      cases h
      -- the channel is zeroed, so that the condition asks about no channel at all
      refine hsame fun c channel hc => ?_
      by_cases heq : ch = c
      · rw [← heq, hnull] at hc
        cases hc
      · simp [heq]
    · rename_i channel hchannel
      split at h
      · rename_i hcond
        cases h
        refine ⟨rfl, fun c => ?_⟩
        dsimp only
        by_cases heq : ch = c
        · subst heq
          have hlt := (List.getElem?_eq_some_iff.mp hchannel).1
          rw [List.getElem?_set_self hlt, hchannel]
          simp [hcond]
        · rw [List.getElem?_set_ne heq]
          cases m.channels[c]? with
          | none => rfl
          | some channel => cases channel <;> simp [heq]
      · rename_i hcond
        cases h
        refine hsame fun c channel' hc => ?_
        by_cases heq : ch = c
        · rw [← heq, hchannel] at hc
          cases hc
          simp [hcond]
        · simp [heq]

section

variable {p : Nat → GraphChannel → Bool} {c : Nat}

theorem Detached.connectorOf (h : Detached m m' side p) (q : Nat × Nat → Bool)
    (hq : ∀ channel n, m.channels[c]? = some (some channel) → side.node channel = some n →
      p c channel = q (n, side.idx channel)) :
    m'.connectorOf side c = (m.connectorOf side c).filter fun a => !q a := by
  unfold GraphMemory.connectorOf
  rw [h.channels]
  cases hc : m.channels[c]? with
  | none => rfl
  | some channel =>
      cases channel with
      | none => rfl
      | some channel =>
          simp only [Option.map_some]
          cases hnode : side.node channel with
          | none =>
              split
              · rw [ChannelSide.node_detach]
                rfl
              · rw [hnode]
                rfl
          | some n =>
              rw [hq channel n hc hnode]
              cases hp : q (n, side.idx channel) with
              | false => simp [hnode, hp, Option.filter]
              | true => simp [ChannelSide.node_detach, hp, Option.filter]

theorem Detached.connectorOf_other (h : Detached m m' side p) (hne : side' ≠ side) (c : Nat) :
    m'.connectorOf side' c = m.connectorOf side' c := by
  unfold GraphMemory.connectorOf
  rw [h.channels]
  cases m.channels[c]? with
  | none => rfl
  | some channel =>
      cases channel with
      | none => rfl
      | some channel =>
          simp only [Option.map_some]
          split
          · rw [ChannelSide.node_detach_other hne, ChannelSide.idx_detach]
          · rfl

theorem Detached.channelAt (h : Detached m m' side p) (side' : ChannelSide) (a : Nat × Nat) :
    m'.channelAt side' a = m.channelAt side' a := by
  unfold GraphMemory.channelAt
  rw [h.nodes]

end

/-! ## One half of an initialisation -/

/-- The indices of the channel at an address, when it is not zeroed. -/
def indicesOf (m : GraphMemory) (c : Nat) : Option (Option (Nat × Nat)) :=
  (m.channels[c]?).map (Option.map fun channel => (channel.idxStart, channel.idxEnd))

theorem Detached.indicesOf {p : Nat → GraphChannel → Bool} (h : Detached m m' side p) (c : Nat) :
    m'.indicesOf c = m.indicesOf c := by
  unfold GraphMemory.indicesOf
  rw [h.channels, Option.map_map]
  congr 1
  funext channel
  cases channel with
  | none => rfl
  | some channel =>
      show some _ = some _
      dsimp only
      split
      · cases side <;> rfl
      · rfl

section

variable {a : Nat × Nat}

theorem setNode_self (node' : GraphNode) (hnode : m.nodes[n]? = some (some node)) :
    (m.setNode n node').nodes[n]? = some (some node') :=
  List.getElem?_set_self (List.getElem?_eq_some_iff.mp hnode).1

theorem setNode_other (node' : GraphNode) {k : Nat} (hk : k ≠ n) :
    (m.setNode n node').nodes[k]? = m.nodes[k]? :=
  List.getElem?_set_ne (Ne.symm hk)

theorem live_setNode (node' : GraphNode) (hnode : m.nodes[n]? = some (some node)) (k : Nat) :
    (m.setNode n node').Live k ↔ m.Live k := by
  unfold Live
  by_cases hk : k = n
  · subst hk
    exact ⟨fun _ => ⟨node, hnode⟩, fun _ => ⟨node', setNode_self node' hnode⟩⟩
  · rw [setNode_other node' hk]

theorem channelAt_setConnectors (l : List (Option Nat)) (hnode : m.nodes[n]? = some (some node)) :
    (m.setNode n (side.setConnectors node l)).channelAt side a =
      if a.1 = n then (l[a.2]?).join else m.channelAt side a := by
  obtain ⟨k, i⟩ := a
  by_cases hk : k = n
  · subst hk
    rw [if_pos rfl, channelAt_eq (setNode_self _ hnode), side.connectors_set]
  · rw [if_neg hk]
    unfold GraphMemory.channelAt
    rw [setNode_other _ hk]

theorem channelAt_setConnectors_other (l : List (Option Nat)) (hne : side' ≠ side)
    (hnode : m.nodes[n]? = some (some node)) :
    (m.setNode n (side.setConnectors node l)).channelAt side' a = m.channelAt side' a := by
  obtain ⟨k, i⟩ := a
  by_cases hk : k = n
  · subst hk
    rw [channelAt_eq (setNode_self _ hnode), side.connectors_set_other hne, channelAt_eq hnode]
  · unfold GraphMemory.channelAt
    rw [setNode_other _ hk]

end

/-- The test on the channel that a connector holds singles out the one that refers to it. -/
theorem Shows.detaches_iff {c : Nat} {k : Nat} {old : Option Nat} (hshows : m.Shows side links)
    (hold : m.channelAt side (n, idx) = old) (hc : m.channels[c]? = some (some channel))
    (hk : side.node channel = some k) :
    (decide (old = some c) && (side.node channel == some n && side.idx channel == idx)) =
      decide (some n = some k ∧ idx = side.idx channel) := by
  have hlinked : m.connectorOf side c = some (k, side.idx channel) := by
    rw [connectorOf_eq hc, hk]
    rfl
  have holds : n = k → idx = side.idx channel → old = some c := by
    rintro rfl rfl
    rw [← hold]
    exact (hshows.channelAt_iff _).mpr hlinked
  rw [hk, Bool.eq_iff_iff]
  simp only [Bool.and_eq_true, decide_eq_true_iff, beq_iff_eq, Option.some.injEq]
  constructor
  · rintro ⟨-, hn, hi⟩
    exact ⟨hn.symm, hi.symm⟩
  · rintro ⟨hn, hi⟩
    exact ⟨holds hn hi, hn.symm, hi.symm⟩

/-- What one half of an initialisation does, before the channel itself is written. -/
structure Attached (m m' : GraphMemory) (side : ChannelSide) (ch : Nat) (target : Option Nat)
    (idx : Nat) : Prop where
  channelAt : ∀ a, m'.channelAt side a =
    if target = some a.1 ∧ idx = a.2 then some ch else m.channelAt side a
  connectorOf : ∀ c, m'.connectorOf side c =
    (m.connectorOf side c).filter fun a => !decide (target = some a.1 ∧ idx = a.2)
  channelAt_other : ∀ side' ≠ side, ∀ a, m'.channelAt side' a = m.channelAt side' a
  connectorOf_other : ∀ side' ≠ side, ∀ c, m'.connectorOf side' c = m.connectorOf side' c
  live : ∀ n, m'.Live n ↔ m.Live n
  target_live : ∀ n, target = some n → m.Live n
  indicesOf : ∀ c, m'.indicesOf c = m.indicesOf c

theorem attachChannel_spec (hshows : m.Shows side links)
    (h : m.attachChannel fits side ch target idx = .ok m') :
    Attached m m' side ch target idx := by
  cases target with
  | none =>
      cases h
      refine ⟨fun a => by simp, fun c => ?_, fun _ _ _ => rfl, fun _ _ _ => rfl, fun _ => .rfl,
        fun n hn => (nomatch hn), fun _ => rfl⟩
      cases m.connectorOf side c <;> simp [Option.filter]
  | some n =>
      obtain ⟨node, hnode, h⟩ := (bind_eq_ok_iff _ _ _).mp h
      obtain ⟨elements, hensure, h⟩ := (bind_eq_ok_iff _ _ _).mp h
      rw [node_eq_ok_iff] at hnode
      have hjoin := graphChannelListEnsure_join hensure
      split at h
      · cases h
      · rename_i oldCh hold
        obtain ⟨m₁, hdetach, ⟨⟩⟩ := (bind_eq_ok_iff _ _ _).mp h
        have hdetached := detachChannel_spec hdetach
        have hnode₁ : m₁.nodes[n]? = some (some node) := hdetached.nodes ▸ hnode
        have hat : m.channelAt side (n, idx) = oldCh := by
          rw [channelAt_eq hnode, ← hjoin, hold]
          rfl
        constructor
        · -- the connector of the call holds the channel, the others what they held
          rintro ⟨k, i⟩
          rw [channelAt_setConnectors _ hnode₁, hdetached.channelAt]
          by_cases hk : k = n
          · subst hk
            by_cases hi : idx = i
            · subst hi
              have hlt := (List.getElem?_eq_some_iff.mp hold).1
              rw [if_pos rfl, if_pos ⟨rfl, rfl⟩, List.getElem?_set_self hlt]
              rfl
            · rw [if_pos rfl, if_neg fun hcond => hi hcond.2, List.getElem?_set_ne hi, hjoin,
                channelAt_eq hnode]
          · rw [if_neg hk, if_neg fun hcond => hk (Option.some.inj hcond.1).symm]
        · -- the old channel of the connector loses it
          intro c
          apply hdetached.connectorOf fun a => decide (some n = some a.1 ∧ idx = a.2)
          exact fun channel k hc hk => hshows.detaches_iff hat hc hk
        · intro side' hne a
          rw [channelAt_setConnectors_other _ hne hnode₁, hdetached.channelAt]
        · exact fun side' hne c => hdetached.connectorOf_other hne c
        · intro k
          rw [live_setNode _ hnode₁]
          unfold Live
          rw [hdetached.nodes]
        · rintro k ⟨⟩
          exact ⟨node, hnode⟩
        · exact hdetached.indicesOf

/-- The links of the other side stay as they are. -/
theorem Attached.shows_other (h : Attached m m' side ch target idx) (hne : side' ≠ side)
    (hshows : m.Shows side' links) : m'.Shows side' links :=
  hshows.congr (h.channelAt_other side' hne) (h.connectorOf_other side' hne)

/-! ## The links after a call -/

/-- The links after a channel was initialised. -/
def relink (links : (Nat × Nat) ≃. Nat) (target : Option Nat) (idx ch : Nat) : (Nat × Nat) ≃. Nat :=
  match target with
  | none => links
  | some n => link links (n, idx) ch

theorem relink_apply (hch : links.symm ch = none) (a : Nat × Nat) :
    relink links target idx ch a = if target = some a.1 ∧ idx = a.2 then some ch else links a := by
  cases target with
  | none => simp [relink]
  | some n =>
      show link links (n, idx) ch a = _
      rw [link_apply hch]
      congr 1
      rw [Prod.ext_iff, eq_iff_iff, Option.some.injEq, eq_comm, eq_comm (a := a.2)]

theorem relink_symm_apply_self (hch : links.symm ch = none) :
    (relink links target idx ch).symm ch = target.map fun n => (n, idx) := by
  cases target with
  | none => exact hch
  | some n =>
      show (link links (n, idx) ch).symm ch = _
      rw [link_symm_apply, if_pos rfl]
      rfl

theorem relink_symm_apply {c : Nat} (hne : c ≠ ch) :
    (relink links target idx ch).symm c =
      (links.symm c).filter fun a => !decide (target = some a.1 ∧ idx = a.2) := by
  cases target with
  | none =>
      show links.symm c = _
      cases links.symm c <;> simp [Option.filter]
  | some n =>
      show (link links (n, idx) ch).symm c = _
      rw [link_symm_apply, if_neg hne]
      cases hc : links.symm c with
      | none => simp [Option.filter]
      | some a =>
          -- `c` loses its connector exactly when that is the one given to `ch`
          have hlinked : links a = some c := links.eq_some_iff.mp hc
          by_cases ha : (n, idx) = a
          · subst ha
            simp [hlinked, Option.filter]
          · have hnot : links (n, idx) ≠ some c := fun h => ha (links.inj h hlinked)
            have hcond : ¬(n = a.1 ∧ idx = a.2) := fun h => ha (Prod.ext h.1 h.2)
            rw [if_neg hnot]
            simp [Option.filter, hcond]

/-- The half of an initialisation and the writing of the channel make one new link. -/
theorem Attached.shows {m₁ : GraphMemory} (h : Attached m m₁ side ch target idx)
    (hshows : m.Shows side links) (hch : m.connectorOf side ch = none)
    (hat : ∀ a, m'.channelAt side a = m₁.channelAt side a)
    (hof : ∀ c ≠ ch, m'.connectorOf side c = m₁.connectorOf side c)
    (hself : m'.connectorOf side ch = target.map fun n => (n, idx)) :
    m'.Shows side (relink links target idx ch) := by
  rw [hshows.connectorOf] at hch
  constructor
  · intro a
    rw [hat, h.channelAt, relink_apply hch, hshows.channelAt]
  · intro c
    by_cases hc : c = ch
    · rw [hc, hself, relink_symm_apply_self hch]
    · rw [hof c hc, h.connectorOf, relink_symm_apply hc, hshows.connectorOf]

theorem connectorOf_zeroed (h : m.channels[ch]? = some none) : m.connectorOf side ch = none := by
  rw [connectorOf, h]

theorem zeroed_of_indicesOf (h : m'.indicesOf ch = m.indicesOf ch) (hch : m.channels[ch]? = some none) :
    m'.channels[ch]? = some none := by
  unfold GraphMemory.indicesOf at h
  rw [hch] at h
  cases hc : m'.channels[ch]? with
  | none =>
      rw [hc] at h
      cases h
  | some channel =>
      cases channel with
      | none => rfl
      | some channel =>
          rw [hc] at h
          cases h

/-- What an initialisation of a zeroed channel does. -/
structure Initialised (m m' : GraphMemory) (ch : Nat) (asked : GraphChannel) : Prop where
  shows : ∀ side links, m.Shows side links →
    m'.Shows side (relink links (side.node asked) (side.idx asked) ch)
  live : ∀ n, m'.Live n ↔ m.Live n
  target_live : ∀ side : ChannelSide, ∀ n, side.node asked = some n → m.Live n
  indicesOf_self : m'.indicesOf ch = some (some (asked.idxStart, asked.idxEnd))
  indicesOf_other : ∀ c ≠ ch, m'.indicesOf c = m.indicesOf c

theorem graphChannelInit_spec {start end_ : Option Nat} {i j : Nat}
    {starts ends : (Nat × Nat) ≃. Nat} (hstarts : m.Shows .start starts) (hends : m.Shows .end_ ends)
    (hch : m.channels[ch]? = some none)
    (h : graphChannelInit fits m ch start i end_ j = .ok m') :
    Initialised m m' ch ⟨false, start, end_, i, j⟩ := by
  obtain ⟨m₁, h₁, h⟩ := (bind_eq_ok_iff _ _ _).mp h
  obtain ⟨m₂, h₂, ⟨⟩⟩ := (bind_eq_ok_iff _ _ _).mp h
  have hstart := attachChannel_spec hstarts h₁
  have hends₁ : m₁.Shows .end_ ends := hstart.shows_other (by decide) hends
  have hend := attachChannel_spec hends₁ h₂
  have hch₂ : m₂.channels[ch]? = some none :=
    zeroed_of_indicesOf (hend.indicesOf ch)
      (zeroed_of_indicesOf (hstart.indicesOf ch) hch)
  have hlt : ch < m₂.channels.length := (List.getElem?_eq_some_iff.mp hch₂).1
  generalize hasked : (⟨false, start, end_, i, j⟩ : GraphChannel) = asked
  have hself : (m₂.channels.set ch (some asked))[ch]? = some (some asked) :=
    List.getElem?_set_self hlt
  have hlinked : ∀ side : ChannelSide,
      GraphMemory.connectorOf { m₂ with channels := m₂.channels.set ch (some asked) } side ch =
        (side.node asked).map fun n => (n, side.idx asked) := fun side => connectorOf_eq hself
  have hwritten : ∀ side : ChannelSide, ∀ c ≠ ch,
      GraphMemory.connectorOf { m₂ with channels := m₂.channels.set ch (some asked) } side c =
        m₂.connectorOf side c := by
    intro side c hne
    unfold GraphMemory.connectorOf
    rw [List.getElem?_set_ne (Ne.symm hne)]
  constructor
  · intro side links hshows
    subst hasked
    cases side with
    | start =>
        -- the second half leaves the links of the first side alone
        refine hstart.shows hshows (connectorOf_zeroed hch)
          (fun a => hend.channelAt_other .start (by decide) a) (fun c hne => ?_)
          (hlinked .start)
        rw [hwritten .start c hne, hend.connectorOf_other .start (by decide) c]
    | end_ =>
        have hshows₁ : m₁.Shows .end_ links := hstart.shows_other (by decide) hshows
        exact hend.shows hshows₁
          (connectorOf_zeroed (zeroed_of_indicesOf (hstart.indicesOf ch) hch)) (fun a => rfl)
          (fun c hne => hwritten .end_ c hne) (hlinked .end_)
  · exact fun n => (hend.live n).trans (hstart.live n)
  · subst hasked
    intro side n hn
    cases side with
    | start => exact hstart.target_live n hn
    | end_ => exact (hstart.live n).mp (hend.target_live n hn)
  · unfold GraphMemory.indicesOf
    rw [hself]
    rfl
  · intro c hne
    rw [← hstart.indicesOf c, ← hend.indicesOf c]
    unfold GraphMemory.indicesOf
    rw [List.getElem?_set_ne (Ne.symm hne)]

/-! ## Deleting a node -/

theorem detachAll_spec {lst : List (Option Nat)} (h : m.detachAll side n lst = .ok m') :
    Detached m m' side fun c channel => decide (some c ∈ lst) && side.node channel == some n := by
  induction lst generalizing m with
  | nil =>
      cases h
      refine ⟨rfl, fun c => ?_⟩
      cases m'.channels[c]? with
      | none => rfl
      | some channel => cases channel <;> simp
  | cons old rest ih =>
      obtain ⟨m₁, h₁, h⟩ := (bind_eq_ok_iff _ _ _).mp h
      have hfirst := detachChannel_spec h₁
      have hrest := ih h
      refine ⟨hrest.nodes.trans hfirst.nodes, fun c => ?_⟩
      rw [hrest.channels, hfirst.channels, Option.map_map]
      congr 1
      funext channel
      cases channel with
      | none => rfl
      | some channel =>
          show some _ = some _
          congr 1
          -- a channel that was detached first has no node any more
          by_cases hold : old = some c <;> by_cases hn : side.node channel = some n <;>
            by_cases hmem : some c ∈ rest <;>
            simp [hold, hn, hmem, side.node_detach, eq_comm (a := some c)]

/-- A loop over all connectors of a node detaches every channel that refers to it. -/
theorem detachAll_connectors (hshows : m.Shows side links) (hnode : m.nodes[n]? = some (some node))
    (h : m.detachAll side n (side.connectors node) = .ok m') (c : Nat) :
    m'.connectorOf side c = (m.connectorOf side c).filter fun a => !decide (a.1 = n) := by
  refine (detachAll_spec h).connectorOf (fun a => decide (a.1 = n)) fun channel k hc hk => ?_
  have hlinked : m.connectorOf side c = some (k, side.idx channel) := by
    rw [connectorOf_eq hc, hk]
    rfl
  have hmem : k = n → some c ∈ side.connectors node := by
    intro heq
    subst heq
    have hat : m.channelAt side (k, side.idx channel) = some c := by
      rw [hshows.channelAt, ← links.eq_some_iff, ← hshows.connectorOf]
      exact hlinked
    rw [channelAt_eq hnode, Option.join_eq_some_iff] at hat
    exact List.mem_of_getElem? hat
  rw [hk, Bool.eq_iff_iff]
  simp only [Bool.and_eq_true, decide_eq_true_iff, beq_iff_eq, Option.some.injEq]
  exact ⟨fun hcond => hcond.2, fun heq => ⟨hmem heq, heq⟩⟩

/-- What the deletion of a node does; a null pointer is passed over. -/
structure Deleted (m m' : GraphMemory) (gone : Option Nat) : Prop where
  shows : ∀ side links, m.Shows side links → m'.Shows side (unlink links fun a => gone = some a.1)
  live : ∀ k, m'.Live k ↔ m.Live k ∧ gone ≠ some k
  indicesOf : ∀ c, m'.indicesOf c = m.indicesOf c

theorem deleted_null (m : GraphMemory) : Deleted m m none := by
  constructor
  · intro side links hshows
    constructor
    · intro a
      rw [unlink_apply, if_neg (Option.some_ne_none _).symm, hshows.channelAt]
    · intro c
      rw [unlink_symm_apply, hshows.connectorOf]
      cases links.symm c <;> simp [Option.filter]
  · exact fun k => ⟨fun h => ⟨h, nofun⟩, fun h => h.1⟩
  · exact fun _ => rfl

section

variable {k : Nat} {a : Nat × Nat}

theorem freed_self (hnode : m.nodes[n]? = some (some node)) : (m.nodes.set n none)[n]? = some none :=
  List.getElem?_set_self (List.getElem?_eq_some_iff.mp hnode).1

theorem channelAt_freed (hnode : m.nodes[n]? = some (some node)) :
    GraphMemory.channelAt { m with nodes := m.nodes.set n none } side a =
      if n = a.1 then none else m.channelAt side a := by
  obtain ⟨k, i⟩ := a
  unfold GraphMemory.channelAt
  dsimp only
  by_cases hk : n = k
  · subst hk
    rw [if_pos rfl, freed_self hnode]
  · rw [if_neg hk, List.getElem?_set_ne hk]

theorem live_freed (hnode : m.nodes[n]? = some (some node)) :
    Live { m with nodes := m.nodes.set n none } k ↔ m.Live k ∧ n ≠ k := by
  unfold Live
  dsimp only
  by_cases hk : n = k
  · subst hk
    rw [freed_self hnode]
    simp
  · rw [List.getElem?_set_ne hk]
    exact ⟨fun h => ⟨h, hk⟩, fun h => h.1⟩

end

/-- Both loops detach every channel that refers to the node on their side. -/
theorem detachAll_both {m₁ m₂ : GraphMemory} (hnode : m.nodes[n]? = some (some node))
    (h₁ : m.detachAll .end_ n node.inputs = .ok m₁) (h₂ : m₁.detachAll .start n node.outputs = .ok m₂)
    (hshows : m.Shows side links) (c : Nat) :
    m₂.connectorOf side c = (m.connectorOf side c).filter fun a => !decide (a.1 = n) := by
  have hinputs := detachAll_spec h₁
  have houtputs := detachAll_spec h₂
  cases side with
  | start =>
      have hshows₁ : m₁.Shows .start links :=
        hshows.congr (hinputs.channelAt .start) (hinputs.connectorOf_other (by decide))
      rw [detachAll_connectors hshows₁ (hinputs.nodes ▸ hnode) h₂ c, hinputs.connectorOf_other (by decide)]
  | end_ => rw [houtputs.connectorOf_other (by decide), detachAll_connectors hshows hnode h₁ c]

theorem graphNodeDelete_spec {self : Option Nat} (h : graphNodeDelete m self = .ok m') :
    Deleted m m' self := by
  cases self with
  | none =>
      cases h
      exact deleted_null m
  | some n =>
      obtain ⟨node, hnode, h⟩ := (bind_eq_ok_iff _ _ _).mp h
      obtain ⟨m₁, h₁, h⟩ := (bind_eq_ok_iff _ _ _).mp h
      obtain ⟨m₂, h₂, ⟨⟩⟩ := (bind_eq_ok_iff _ _ _).mp h
      rw [node_eq_ok_iff] at hnode
      -- the two rounds change channels only, the node is freed after them
      have hnodes : m₂.nodes = m.nodes := (detachAll_spec h₂).nodes.trans (detachAll_spec h₁).nodes
      have hnode₂ : m₂.nodes[n]? = some (some node) := hnodes ▸ hnode
      have hat : ∀ side a, m₂.channelAt side a = m.channelAt side a := fun side a =>
        ((detachAll_spec h₂).channelAt side a).trans ((detachAll_spec h₁).channelAt side a)
      constructor
      · intro side links hshows
        constructor
        · intro a
          rw [channelAt_freed hnode₂, hat, unlink_apply, hshows.channelAt]
          simp only [Option.some.injEq]
        · intro c
          rw [unlink_symm_apply, ← hshows.connectorOf]
          refine (detachAll_both hnode h₁ h₂ hshows c).trans ?_
          congr 1
          funext a
          simp [eq_comm]
      · intro k
        rw [live_freed hnode₂]
        unfold Live
        rw [hnodes]
        simp only [ne_eq, Option.some.injEq]
      · exact fun c => ((detachAll_spec h₂).indicesOf c).trans ((detachAll_spec h₁).indicesOf c)

/-! ## No call meets a dangling pointer -/

theorem graphChannelListEnsure_returns (hfits : ∀ size, fits size = true) (hidx : idx + 1 < sizeModulus)
    (lst : List (Option Nat)) :
    ∃ lst', graphChannelListEnsure fits lst idx = .ok lst' ∧ idx < lst'.length := by
  obtain ⟨lst', hensure⟩ : ∃ lst', graphChannelListEnsure fits lst idx = .ok lst' := by
    unfold graphChannelListEnsure
    dsimp only
    split
    · rename_i hshort
      unfold graphChannelListResize
      rw [if_pos hshort, if_pos (hfits _), List.length_append, List.length_replicate,
        if_neg (by omega)]
      exact ⟨_, rfl⟩
    · exact ⟨lst, rfl⟩
  have hlong := (graphChannelListEnsure_spec hensure).1
  rw [Nat.mod_eq_of_lt hidx] at hlong
  exact ⟨lst', hensure, hlong⟩

theorem detachChannel_returns (side : ChannelSide) {old : Option Nat} (hold : ∀ c, old = some c → m.channels[c]? ≠ none)
    (cond : GraphChannel → Bool) : ∃ m', m.detachChannel side old cond = .ok m' := by
  unfold detachChannel
  split
  · exact ⟨m, rfl⟩
  · rename_i c
    split
    · rename_i hnone
      exact absurd hnone (hold c rfl)
    · exact ⟨m, rfl⟩
    · split
      · exact ⟨_, rfl⟩
      · exact ⟨_, rfl⟩

theorem attachChannel_returns (ch : Nat) (hfits : ∀ size, fits size = true) (hidx : idx + 1 < sizeModulus)
    (hshows : m.Shows side links) (hlive : ∀ n, target = some n → m.Live n) :
    ∃ m', m.attachChannel fits side ch target idx = .ok m' := by
  cases target with
  | none => exact ⟨m, rfl⟩
  | some n =>
      obtain ⟨node, hnode⟩ := hlive n rfl
      obtain ⟨elements, hensure, hlt⟩ :=
        graphChannelListEnsure_returns hfits hidx (side.connectors node)
      have hold : ∀ c, elements[idx] = some c → m.channels[c]? ≠ none := by
        intro c hc
        have hat : m.channelAt side (n, idx) = some c := by
          rw [channelAt_eq hnode, ← graphChannelListEnsure_join hensure, List.getElem?_eq_getElem hlt, hc]
          rfl
        obtain ⟨channel, hchannel, -⟩ := hshows.exists_channel hat
        rw [hchannel]
        exact Option.some_ne_none _
      obtain ⟨m₁, hdetach⟩ := detachChannel_returns side hold fun channel =>
        side.node channel == some n && side.idx channel == idx
      refine ⟨m₁.setNode n (side.setConnectors node (elements.set idx (some ch))),
        (bind_eq_ok_iff _ _ _).mpr ⟨node, node_eq_ok_iff.mpr hnode,
          (bind_eq_ok_iff _ _ _).mpr ⟨elements, hensure, ?_⟩⟩⟩
      rw [List.getElem?_eq_getElem hlt]
      exact (bind_eq_ok_iff _ _ _).mpr ⟨m₁, hdetach, rfl⟩

theorem detachAll_returns (side : ChannelSide) (n : Nat) {lst : List (Option Nat)} (hlst : ∀ c, some c ∈ lst → m.channels[c]? ≠ none) :
    ∃ m', m.detachAll side n lst = .ok m' := by
  induction lst generalizing m with
  | nil => exact ⟨m, rfl⟩
  | cons old rest ih =>
      obtain ⟨m₁, hfirst⟩ := detachChannel_returns side
        (fun c hc => hlst c (hc ▸ List.mem_cons_self)) fun channel => side.node channel == some n
      have hrest : ∀ c, some c ∈ rest → m₁.channels[c]? ≠ none := by
        intro c hc
        rw [(detachChannel_spec hfirst).channels, Ne, Option.map_eq_none_iff]
        exact hlst c (List.mem_cons_of_mem _ hc)
      obtain ⟨m', hm'⟩ := ih hrest
      exact ⟨m', (bind_eq_ok_iff _ _ _).mpr ⟨m₁, hfirst, hm'⟩⟩

theorem Shows.exists_of_mem (h : m.Shows side links) (hnode : m.nodes[n]? = some (some node)) {c : Nat}
    (hc : some c ∈ side.connectors node) : m.channels[c]? ≠ none := by
  obtain ⟨i, hi⟩ := List.mem_iff_getElem?.mp hc
  have hat : m.channelAt side (n, i) = some c := by
    rw [channelAt_eq hnode, hi]
    rfl
  obtain ⟨channel, hchannel, -⟩ := h.exists_channel hat
  rw [hchannel]
  exact Option.some_ne_none _

theorem graphNodeDelete_returns {starts ends : (Nat × Nat) ≃. Nat} (hstarts : m.Shows .start starts)
    (hends : m.Shows .end_ ends) (hlive : m.Live n) : ∃ m', graphNodeDelete m (some n) = .ok m' := by
  obtain ⟨node, hnode⟩ := hlive
  have hinputs : ∀ c, some c ∈ node.inputs → m.channels[c]? ≠ none := fun c hc =>
    hends.exists_of_mem hnode hc
  obtain ⟨m₁, h₁⟩ := detachAll_returns .end_ n hinputs
  have houtputs : ∀ c, some c ∈ node.outputs → m₁.channels[c]? ≠ none := by
    intro c hc
    rw [(detachAll_spec h₁).channels, Ne, Option.map_eq_none_iff]
    exact hstarts.exists_of_mem hnode hc
  obtain ⟨m₂, h₂⟩ := detachAll_returns .start n houtputs
  exact ⟨_, (bind_eq_ok_iff _ _ _).mpr ⟨node, node_eq_ok_iff.mpr hnode,
    (bind_eq_ok_iff _ _ _).mpr ⟨m₁, h₁, (bind_eq_ok_iff _ _ _).mpr ⟨m₂, h₂, rfl⟩⟩⟩⟩

end

end GraphMemory

end EventSeq
