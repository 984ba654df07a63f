import EventSeq.Handlers
import EventSeq.WindowEvents

/-!
# Events without a position

Broadcasting, the router and the window node destroy the copies for unconnected outputs.  The two
sources do not: an event created for a gap in the list of outputs keeps a null position, which no
later call ever changes.
-/

namespace EventSeq

open Lib

/-- The call, if it is a read that creates events, is at a source without gaps in its outputs. -/
def ReadsConnected (x : SystemTransition) : Prop :=
  ∀ n input node, x.label = .read n input → x.before.nodes[n]? = some node →
    readData node.kind input ≠ [] → none ∉ node.outputs

section

variable {P : Platform} {A : Allocator} {w w' : World} {e : EventNode} {p : Position}
  {pre post : List EventNode} {l : EventList} {outputs : List (Option Nat)}

/-! ## Reads -/

/-- A read leaves no orphans if and only if it creates nothing or the source has no gap. -/
theorem createAll_placed_iff (hA : A.Succeeds) (datas : List EventData) (h : l.addrs.Nodup)
    (hplaced : Placed l.nodes) :
    Placed (createAll A outputs datas l).nodes ↔ (datas ≠ [] → none ∉ outputs) := by
  constructor
  · intro hafter hdatas hgap
    obtain ⟨x, hx, hposition⟩ := createAll_creates hA hdatas hgap h
    exact hafter x hx hposition
  · intro hconnected x hx
    rcases (createAll_adds A outputs datas h).added x hx with hold | ⟨-, hdata, o, ho, hposition⟩
    · exact hplaced x hold
    · rw [hposition]
      cases o with
      | none => exact absurd ho (hconnected (List.ne_nil_of_mem hdata))
      | some c => exact Option.some_ne_none _

/-! ## Handlers -/

theorem HandleOutcome.placed (hw : w.SplitAt pre e post) (hposition : e.position = some p)
    (hplaced : Placed w.events.nodes)
    (h : HandleOutcome P w pre e post p w') :
    Placed w'.events.nodes ∧ w'.events.addrs.Nodup := by
  rw [hw.nodes] at hplaced
  -- the events around the handled one keep their positions
  have hpre : Placed pre := fun x hx => hplaced x (by simp [hx])
  have hpost : Placed post := fun x hx => hplaced x (by simp [hx])
  cases h with
  | node _ _ heff hnodup hsub _ =>
      obtain ⟨outputs, data, hcopies, -⟩ := nodeEffect_copies heff
      rw [hcopies] at hsub
      exact ⟨hpre.append ((placed_of_sublist_copiesFor outputs data hsub).append hpost), hnodup⟩
  | window _ _ hrun =>
      obtain ⟨outs, e', outs', hnodes, houts, houts', hposition', hnodup⟩ :=
        windowHandleEvent_split hw hposition hrun
      rw [hnodes]
      have he' : e'.position ≠ none := by
        rw [hposition']
        exact Option.some_ne_none _
      exact ⟨hpre.append (houts.append (.cons he' (houts'.append hpost))), hnodup⟩
  | dropped _ _ => exact ⟨hpre.append hpost, (World.destroyEvent_eq hw).2⟩
  | @delivered _ target _ e' _ _ hdelivered _ =>
      obtain ⟨-, haddr, hposition', -⟩ := delivered_eq_some hdelivered
      have he' : e'.position ≠ none := by
        rw [hposition']
        exact Option.some_ne_none _
      refine ⟨hpre.append (.cons he' hpost), ?_⟩
      have hnodup := hw.nodup_split
      simpa [EventList.addrs, World.setNode, haddr] using hnodup

/-! ## Runs -/

theorem SystemStep.placed_iff (hA : P.allocator.Succeeds) {c : SystemCall}
    (hnodup : w.events.addrs.Nodup) (hplaced : Placed w.events.nodes) (h : SystemStep P w c w') :
    w'.events.addrs.Nodup ∧ (Placed w'.events.nodes ↔ ReadsConnected ⟨w, c, w'⟩) := by
  cases h with
  | handle he hp hrun =>
      obtain ⟨pre, post, hw⟩ := World.splitAt_of_mem hnodup he
      obtain ⟨hplaced', hnodup'⟩ := (handleEvent_outcome hw hrun).placed hw hp hplaced
      refine ⟨hnodup', iff_of_true hplaced' ?_⟩
      intro n input node hlabel
      cases hlabel
  | @read _ n input hrun =>
      obtain ⟨node, kind, hnode, rfl, -, -⟩ := handleIo_cases hrun
      refine ⟨(createAll_adds _ _ _ hnodup).nodup, ?_⟩
      rw [createAll_placed_iff hA _ hnodup hplaced]
      constructor
      · intro hconnected n' input' node' hlabel hnode'
        cases hlabel
        rw [hnode] at hnode'
        cases hnode'
        exact hconnected
      · intro hconnected
        exact hconnected n input node rfl hnode

/-- Along a run every event has a position after every call if and only if no read creates events
at a source with a gap in its outputs. -/
theorem no_orphans_iff (hA : P.allocator.Succeeds) {τ : List SystemTransition}
    (hrun : Run (SystemStep P) w τ w') (hnodup : w.events.addrs.Nodup)
    (hplaced : Placed w.events.nodes) :
    (∀ x ∈ τ, Placed x.after.events.nodes) ↔ ∀ x ∈ τ, ReadsConnected x := by
  induction hrun with
  | nil _ => simp
  | cons hstep _ ih =>
      obtain ⟨hnodup', hiff⟩ := hstep.placed_iff hA hnodup hplaced
      simp only [List.mem_cons, forall_eq_or_imp]
      constructor
      · rintro ⟨hafter, hrest⟩
        exact ⟨hiff.mp hafter, (ih hnodup' hafter).mp hrest⟩
      · rintro ⟨hconnected, hrest⟩
        have hafter := hiff.mpr hconnected
        exact ⟨hafter, (ih hnodup' hafter).mpr hrest⟩

end

/-- A `getchar` source with the given outputs, the last of them a channel to a `print` node. -/
def getcharGraph (outputs : List (Option Nat)) : World where
  events := .empty
  nodes := [⟨false, [], outputs, .getchar (sourceCreate 0)⟩, ⟨false, [some 0], [], .print⟩]
  channels := [⟨false, some 0, some 1, outputs.length - 1, 0⟩]
  predicates := []
  deliveries := []
  draws := 0
  log := []

def readByte : SystemCall := .read 0 (.getchar ⟨.byte 97, ⟨⟨1, 0⟩⟩⟩)

theorem no_orphans_connected :
    ∃ w', Run (SystemStep simplePlatform) (getcharGraph [some 0])
        [⟨getcharGraph [some 0], readByte, w'⟩] w' ∧
      w'.events.nodes.length = 1 ∧ Placed w'.events.nodes := by
  obtain ⟨w', hread, hlength⟩ : ∃ w', handleIo simplePlatform (getcharGraph [some 0]) 0
      (.getchar ⟨.byte 97, ⟨⟨1, 0⟩⟩⟩) = .ok w' ∧ w'.events.nodes.length = 1 := ⟨_, rfl, rfl⟩
  have hrun := Run.single (SystemStep.read hread)
  refine ⟨w', hrun, hlength, ?_⟩
  have hafter := (no_orphans_iff Allocator.next_succeeds hrun (by decide) (fun x hx => by cases hx)).mpr
    (by
      intro x hx n input node hlabel hnode _
      obtain rfl := List.mem_singleton.mp hx
      cases hlabel
      cases hnode
      decide)
  exact hafter _ (List.mem_singleton.mpr rfl)

/-- With a gap below the connected output the event made for it has no position. -/
theorem getchar_gap_leaves_orphan :
    ∃ w', SystemStep simplePlatform (getcharGraph [none, some 0]) readByte w' ∧
      w'.events.nodes.map EventNode.position = [none, some (.channel 0)] ∧
      ¬Placed w'.events.nodes := by
  refine ⟨_, .read rfl, rfl, fun hplaced => ?_⟩
  exact hplaced _ List.mem_cons_self rfl

end EventSeq
