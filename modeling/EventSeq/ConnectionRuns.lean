import EventSeq.Connections
import EventSeq.Lib.Runs

/-!
# Runs of initialisations and deletions

A connector holds the last channel initialised on it.  The calls so far tell which side of a channel
is attached: the one it was initialised with, until the node is deleted or the connector is given to
another channel.
-/

namespace EventSeq

open Lib

inductive GraphCall where
  | init (ch : Nat) (start : Option Nat) (startIdx : Nat) (end_ : Option Nat) (endIdx : Nat)
  | delete (self : Option Nat)

namespace GraphCall

def run (fits : Nat → Bool) (m : GraphMemory) : GraphCall → Except Fault GraphMemory
  | .init ch start startIdx end_ endIdx => graphChannelInit fits m ch start startIdx end_ endIdx
  | .delete self => graphNodeDelete m self

/-- A channel is initialised once, with indices below `SIZE_MAX`, and a deleted node is not used
again. -/
def Valid (m : GraphMemory) : GraphCall → Prop
  | .init ch start startIdx end_ endIdx =>
      m.channels[ch]? = some none ∧ startIdx + 1 < sizeModulus ∧ endIdx + 1 < sizeModulus ∧
        (∀ n ∈ start, m.Live n) ∧ ∀ n ∈ end_, m.Live n
  | .delete self => ∀ n ∈ self, m.Live n

instance (m : GraphMemory) : (call : GraphCall) → Decidable (call.Valid m)
  | .init ch start startIdx end_ endIdx =>
      inferInstanceAs (Decidable (m.channels[ch]? = some none ∧ startIdx + 1 < sizeModulus ∧
        endIdx + 1 < sizeModulus ∧ (∀ n ∈ start, m.Live n) ∧ ∀ n ∈ end_, m.Live n))
  | .delete self => inferInstanceAs (Decidable (∀ n ∈ self, m.Live n))

/-- The channel that a call initialises, and with what. -/
def asked : GraphCall → Option (Nat × GraphChannel)
  | .init ch start startIdx end_ endIdx => some (ch, ⟨false, start, end_, startIdx, endIdx⟩)
  | .delete _ => none

/-- The channel that a call initialises on a connector. -/
def connects (side : ChannelSide) (a : Nat × Nat) (call : GraphCall) : Option Nat :=
  match call.asked with
  | some (ch, asked) => if side.node asked = some a.1 ∧ side.idx asked = a.2 then some ch else none
  | none => none

end GraphCall

def GraphStep (fits : Nat → Bool) (m : GraphMemory) (call : GraphCall) (m' : GraphMemory) : Prop :=
  call.Valid m ∧ call.run fits m = .ok m'

/-- The last channel initialised on a connector. -/
def lastConnected (side : ChannelSide) (a : Nat × Nat) (calls : List GraphCall) : Option Nat :=
  (calls.filterMap (GraphCall.connects side a)).getLast?

theorem lastConnected_append (side : ChannelSide) (a : Nat × Nat) (calls : List GraphCall)
    (call : GraphCall) : lastConnected side a (calls ++ [call]) =
      (call.connects side a).or (lastConnected side a calls) := by
  unfold lastConnected
  rw [List.filterMap_append]
  cases h : call.connects side a with
  | none => simp [h]
  | some ch => simp [h]

namespace GraphMemory

variable {fits : Nat → Bool} {m₀ m m' : GraphMemory} {calls : List GraphCall}

/-- All nodes are live and without connectors, and all channels are zeroed. -/
structure Fresh (m : GraphMemory) : Prop where
  nodes : ∀ node ∈ m.nodes, ∃ live, node = some live ∧ live.inputs = [] ∧ live.outputs = []
  channels : ∀ channel ∈ m.channels, channel = none

/-- What the calls so far left in the memory. -/
structure Recorded (m₀ : GraphMemory) (calls : List GraphCall) (m : GraphMemory) : Prop where
  shows : ∀ side, ∃ links, m.Shows side links
  live : ∀ n, m.Live n ↔ m₀.Live n ∧ .delete (some n) ∉ calls
  last : ∀ side a, m.Live a.1 → m.channelAt side a = lastConnected side a calls
  indices : ∀ call ∈ calls, ∀ ch asked, call.asked = some (ch, asked) →
    m.indicesOf ch = some (some (asked.idxStart, asked.idxEnd))
  connected : ∀ before call after ch asked, calls = before ++ call :: after →
    call.asked = some (ch, asked) → ∀ side a, m.connectorOf side ch = some a ↔
      (side.node asked = some a.1 ∧ side.idx asked = a.2) ∧ m.Live a.1 ∧
        ∀ later ∈ after, later.connects side a = none

theorem Fresh.recorded (h : m.Fresh) : Recorded m [] m := by
  have hat : ∀ side a, m.channelAt side a = none := by
    intro side a
    unfold GraphMemory.channelAt
    split
    · rename_i node hnode
      obtain ⟨live, heq, hinputs, houtputs⟩ := h.nodes _ (List.mem_of_getElem? hnode)
      cases heq
      cases side <;> simp [ChannelSide.connectors, hinputs, houtputs]
    · rfl
  have hof : ∀ side ch, m.connectorOf side ch = none := by
    intro side ch
    unfold GraphMemory.connectorOf
    split
    · rename_i channel hchannel
      cases h.channels _ (List.mem_of_getElem? hchannel)
    · rfl
  constructor
  · exact fun side => ⟨⊥, fun a => hat side a, fun ch => hof side ch⟩
  · exact fun n => ⟨fun hn => ⟨hn, List.not_mem_nil⟩, fun hn => hn.1⟩
  · exact fun side a _ => hat side a
  · intro call hcall
    cases hcall
  · intro before call after ch asked hcalls
    simp at hcalls

theorem Recorded.not_zeroed (h : Recorded m₀ calls m) {call : GraphCall} (hcall : call ∈ calls)
    {ch : Nat} {asked : GraphChannel} (hasked : call.asked = some (ch, asked)) :
    m.channels[ch]? ≠ some none := by
  intro hzeroed
  have hindices := h.indices call hcall ch asked hasked
  unfold GraphMemory.indicesOf at hindices
  rw [hzeroed] at hindices
  cases hindices

theorem connects_eq_of_asked {call : GraphCall} {ch : Nat} {asked : GraphChannel}
    (hasked : call.asked = some (ch, asked)) (side : ChannelSide) (a : Nat × Nat) :
    call.connects side a = if side.node asked = some a.1 ∧ side.idx asked = a.2 then some ch else none := by
  rw [GraphCall.connects, hasked]

/-- A call that is recorded after all others. -/
theorem Recorded.initialised (h : Recorded m₀ calls m) {call : GraphCall} {ch : Nat}
    {asked : GraphChannel} (hasked : call.asked = some (ch, asked))
    (hch : m.channels[ch]? = some none) (hinit : Initialised m m' ch asked) :
    Recorded m₀ (calls ++ [call]) m' := by
  constructor
  · intro side
    obtain ⟨links, hshows⟩ := h.shows side
    exact ⟨_, hinit.shows side links hshows⟩
  · intro n
    have hne : .delete (some n) ≠ call := by
      rintro rfl
      cases hasked
    rw [hinit.live, h.live]
    simp [hne]
  · -- the connector of the call is the last to be asked for, others are as before
    intro side a hlive
    obtain ⟨links, hshows⟩ := h.shows side
    have hzeroed : links.symm ch = none := by
      rw [← hshows.connectorOf]
      exact connectorOf_zeroed hch
    rw [(hinit.shows side links hshows).channelAt, relink_apply hzeroed, lastConnected_append,
      connects_eq_of_asked hasked, ← hshows.channelAt, h.last side a ((hinit.live a.1).mp hlive)]
    split <;> rfl
  · -- the indices of a channel are written by its own initialisation only
    intro other hother c askedOther hc
    rcases List.mem_append.mp hother with hother | hother
    · have hne : c ≠ ch := by
        rintro rfl
        exact h.not_zeroed hother hc hch
      rw [hinit.indicesOf_other c hne]
      exact h.indices other hother c askedOther hc
    · rw [List.mem_singleton.mp hother, hasked] at hc
      cases hc
      exact hinit.indicesOf_self
  · intro before other after c askedOther hcalls hc side a
    obtain ⟨links, hshows⟩ := h.shows side
    have hzeroed : links.symm ch = none := by
      rw [← hshows.connectorOf]
      exact connectorOf_zeroed hch
    rw [(hinit.shows side links hshows).connectorOf]
    rcases append_singleton_eq_append_cons hcalls with ⟨rfl, rfl, rfl⟩ | ⟨rest, rfl, hrest⟩
    · -- the channel of the call itself
      rw [hasked] at hc
      cases hc
      rw [relink_symm_apply_self hzeroed, Option.map_eq_some_iff]
      constructor
      · rintro ⟨n, hn, rfl⟩
        exact ⟨⟨hn, rfl⟩, (hinit.live n).mpr (hinit.target_live side n hn), by simp⟩
      · rintro ⟨⟨hn, hi⟩, -⟩
        exact ⟨a.1, hn, Prod.ext rfl hi⟩
    · -- an earlier channel, which loses the connector that the call asks for
      have hother : other ∈ calls := by
        rw [hrest]
        simp
      have hne : c ≠ ch := by
        rintro rfl
        exact h.not_zeroed hother hc hch
      rw [relink_symm_apply hne, Option.filter_eq_some_iff, ← hshows.connectorOf,
        h.connected before other rest c askedOther hrest hc, hinit.live, List.forall_mem_append,
        List.forall_mem_singleton, connects_eq_of_asked hasked]
      simp only [Bool.not_eq_true', decide_eq_false_iff_not, ite_eq_right_iff, reduceCtorEq, imp_false]
      tauto

theorem Recorded.deleted (h : Recorded m₀ calls m) {self : Option Nat}
    (hdelete : Deleted m m' self) : Recorded m₀ (calls ++ [.delete self]) m' := by
  have hconnects : ∀ side a, (GraphCall.delete self).connects side a = none := fun _ _ => rfl
  constructor
  · intro side
    obtain ⟨links, hshows⟩ := h.shows side
    exact ⟨_, hdelete.shows side links hshows⟩
  · intro k
    rw [hdelete.live, h.live, List.mem_append, List.mem_singleton, GraphCall.delete.injEq]
    tauto
  · -- a connector of a node that is still live has not been touched
    intro side a hlive
    obtain ⟨links, hshows⟩ := h.shows side
    obtain ⟨hlive, hne⟩ := (hdelete.live a.1).mp hlive
    rw [(hdelete.shows side links hshows).channelAt, unlink_apply, if_neg hne, lastConnected_append,
      hconnects, ← hshows.channelAt, h.last side a hlive]
    rfl
  · intro call hcall ch asked hasked
    rw [hdelete.indicesOf]
    rcases List.mem_append.mp hcall with hcall | hcall
    · exact h.indices call hcall ch asked hasked
    · rw [List.mem_singleton.mp hcall] at hasked
      cases hasked
  · intro before call after ch asked hcalls hasked side a
    obtain ⟨links, hshows⟩ := h.shows side
    rcases append_singleton_eq_append_cons hcalls with ⟨rfl, rfl, rfl⟩ | ⟨rest, rfl, hrest⟩
    · cases hasked
    · -- a channel keeps its end unless that is the deleted node
      rw [(hdelete.shows side links hshows).connectorOf, unlink_symm_apply, Option.filter_eq_some_iff,
        ← hshows.connectorOf, h.connected before call rest ch asked hrest hasked, hdelete.live,
        List.forall_mem_append, List.forall_mem_singleton, hconnects]
      simp only [decide_eq_true_iff]
      tauto

theorem Recorded.step (h : Recorded m₀ calls m) {call : GraphCall}
    (hstep : GraphStep fits m call m') : Recorded m₀ (calls ++ [call]) m' := by
  obtain ⟨hvalid, hrun⟩ := hstep
  obtain ⟨starts, hstarts⟩ := h.shows .start
  obtain ⟨ends, hends⟩ := h.shows .end_
  cases call with
  | init ch start i end_ j =>
      exact h.initialised rfl hvalid.1 (graphChannelInit_spec hstarts hends hvalid.1 hrun)
  | delete self => exact h.deleted (graphNodeDelete_spec hrun)

theorem Recorded.of_run {τ : List (Transition GraphMemory GraphCall)} (hfresh : m₀.Fresh)
    (hrun : Run (GraphStep fits) m₀ τ m) : Recorded m₀ (τ.map Transition.label) m :=
  hrun.invariant_labels (fun _ _ _ _ hstep h => h.step hstep) hfresh.recorded

theorem Recorded.step_returns (h : Recorded m₀ calls m) (hfits : ∀ size, fits size = true)
    {call : GraphCall} (hvalid : call.Valid m) : ∃ m', GraphStep fits m call m' := by
  obtain ⟨starts, hstarts⟩ := h.shows .start
  obtain ⟨ends, hends⟩ := h.shows .end_
  cases call with
  | init ch start i end_ j =>
      obtain ⟨hch, hi, hj, hstart, hend⟩ := hvalid
      obtain ⟨m₁, h₁⟩ := attachChannel_returns ch hfits hi hstarts hstart
      have hspec := attachChannel_spec hstarts h₁
      have hends₁ : m₁.Shows .end_ ends := hspec.shows_other (by decide) hends
      have hend₁ : ∀ n, end_ = some n → m₁.Live n := fun n hn => (hspec.live n).mpr (hend n hn)
      obtain ⟨m₂, h₂⟩ := attachChannel_returns ch hfits hj hends₁ hend₁
      exact ⟨_, ⟨hch, hi, hj, hstart, hend⟩,
        (bind_eq_ok_iff _ _ _).mpr ⟨m₁, h₁, (bind_eq_ok_iff _ _ _).mpr ⟨m₂, h₂, rfl⟩⟩⟩
  | delete self =>
      cases self with
      | none => exact ⟨m, hvalid, rfl⟩
      | some n =>
          obtain ⟨m', hm'⟩ := graphNodeDelete_returns hstarts hends (hvalid n rfl)
          exact ⟨m', hvalid, hm'⟩

end GraphMemory

open GraphMemory

/-- In every state of every run the connectors of live nodes and the channels refer to each other: a
connector holds the last channel initialised on it, a channel keeps the node it asked for on a side
until the node is deleted or the connector is given to another channel, and no valid call fails
while memory lasts. -/
theorem graph_connections_consistent (fits : Nat → Bool) {m₀ m : GraphMemory}
    {τ : List (Transition GraphMemory GraphCall)} (hfresh : m₀.Fresh)
    (hrun : Run (GraphStep fits) m₀ τ m) :
    (∀ n node, m.nodes[n]? = some (some node) → ∀ side : ChannelSide, ∀ i,
      (∀ ch, ((side.connectors node)[i]?).join = some ch ↔
        ∃ channel, m.channels[ch]? = some (some channel) ∧ side.node channel = some n ∧
          side.idx channel = i) ∧
      ((side.connectors node)[i]?).join = lastConnected side (n, i) (τ.map Transition.label)) ∧
    (∀ before call after ch asked, τ.map Transition.label = before ++ call :: after →
      call.asked = some (ch, asked) → ∃ channel, m.channels[ch]? = some (some channel) ∧
        channel.idxStart = asked.idxStart ∧ channel.idxEnd = asked.idxEnd ∧
        ∀ side : ChannelSide, ∀ n, side.node channel = some n ↔
          side.node asked = some n ∧ m.Live n ∧
            ∀ later ∈ after, later.connects side (n, side.idx asked) = none) ∧
    (∀ ch : Nat, ∀ channel, m.channels[ch]? = some (some channel) → ∀ side : ChannelSide, ∀ n,
      side.node channel = some n → m.Live n ∧ .delete (some n) ∉ τ.map Transition.label) ∧
    ((∀ size, fits size = true) → ∀ call : GraphCall, call.Valid m →
      ∃ m', GraphStep fits m call m') := by
  have h := Recorded.of_run hfresh hrun
  generalize τ.map Transition.label = calls at h ⊢
  refine ⟨fun n node hnode side i => ?_, fun before call after ch asked hcalls hasked => ?_,
    fun ch channel hchannel side n hn => ?_, fun hfits call => h.step_returns hfits⟩
  · -- a live node: its connectors and the channels refer to each other
    obtain ⟨links, hshows⟩ := h.shows side
    rw [← channelAt_eq hnode]
    constructor
    · intro ch
      rw [hshows.channelAt_iff, connectorOf_eq_some_iff]
    · exact h.last side (n, i) ⟨node, hnode⟩
  · -- an initialised channel: its indices, and which of its ends are left
    have hindices := h.indices call (by simp [hcalls]) ch asked hasked
    unfold GraphMemory.indicesOf at hindices
    obtain ⟨found, hfound, hmap⟩ := Option.map_eq_some_iff.mp hindices
    obtain ⟨channel, rfl, hpair⟩ := Option.map_eq_some_iff.mp hmap
    obtain ⟨hstart, hend⟩ := Prod.mk.inj hpair
    refine ⟨channel, hfound, hstart, hend, fun side n => ?_⟩
    have hidx : side.idx channel = side.idx asked := by
      cases side
      · exact hstart
      · exact hend
    have hconnected := h.connected before call after ch asked hcalls hasked side (n, side.idx asked)
    rw [connectorOf_eq hfound, hidx, Option.map_eq_some_iff] at hconnected
    simpa using hconnected
  · -- a channel with an end: that node has not been deleted
    obtain ⟨links, hshows⟩ := h.shows side
    have hlinked : m.channelAt side (n, side.idx channel) = some ch :=
      (hshows.channelAt_iff _).mpr (connectorOf_eq_some_iff.mpr ⟨channel, hchannel, hn, rfl⟩)
    have hlive : m.Live n := by
      unfold GraphMemory.channelAt at hlinked
      split at hlinked
      · rename_i node hnode
        exact ⟨node, hnode⟩
      · cases hlinked
    exact ⟨hlive, ((h.live n).mp hlive).2⟩

/-- A list of calls that can be carried out is a run. -/
theorem exists_run {fits : Nat → Bool} {m m' : GraphMemory} {calls : List GraphCall}
    (h : calls.foldlM (fun m call => if call.Valid m then call.run fits m else .error .dangling) m =
      .ok m') :
    ∃ τ, Run (GraphStep fits) m τ m' ∧ τ.map Transition.label = calls := by
  induction calls generalizing m with
  | nil =>
      cases h
      exact ⟨[], .nil _, rfl⟩
  | cons call rest ih =>
      rw [List.foldlM_cons, bind_eq_ok_iff] at h
      obtain ⟨m₁, hfirst, hrest⟩ := h
      split at hfirst
      · rename_i hvalid
        obtain ⟨τ, hrun, hlabels⟩ := ih hrest
        exact ⟨_, .cons ⟨hvalid, hfirst⟩ hrun, by rw [List.map_cons, hlabels]⟩
      · cases hfirst

def emptyNode : GraphNode := ⟨true, [], [], .tee⟩

/-- Two nodes and three channels, nothing connected. -/
def twoNodes : GraphMemory := ⟨[some emptyNode, some emptyNode], [none, none, none]⟩

/-- Both ends of the first channel are given to others, the second of which is a loop at the first
node; then the second node goes. -/
def sharedConnectors : List GraphCall :=
  [.init 0 (some 0) 0 (some 1) 0, .init 1 (some 0) 0 (some 0) 1, .init 2 (some 1) 1 (some 1) 0,
    .delete (some 1)]

def afterSharedConnectors : GraphMemory where
  nodes := [some ⟨true, [none, some 1], [some 1], .tee⟩, none]
  channels :=
    [some ⟨false, none, none, 0, 0⟩, some ⟨false, some 0, some 0, 0, 1⟩, some ⟨false, none, none, 1, 0⟩]

theorem graph_connections_consistent_shared :
    (∃ channel, afterSharedConnectors.channels[1]? = some (some channel) ∧
      channel.startNode = some 0 ∧ channel.idxStart = 0) ∧
    some 1 = lastConnected .start (0, 0) sharedConnectors := by
  obtain ⟨τ, hrun, hcalls⟩ :
      ∃ τ, Run (GraphStep fun _ => true) twoNodes τ afterSharedConnectors ∧
        τ.map Transition.label = sharedConnectors := exists_run (by decide)
  have hfresh : twoNodes.Fresh := ⟨by simp [twoNodes, emptyNode], by simp [twoNodes]⟩
  have hconsistent := (graph_connections_consistent _ hfresh hrun).1 0 _ rfl .start 0
  rw [hcalls] at hconsistent
  exact ⟨(hconsistent.1 1).mp rfl, hconsistent.2⟩

end EventSeq
