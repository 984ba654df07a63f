import EventSeq.PredicateFrame
import EventSeq.WindowInvariant

/-!
# What stays as configured

Handlers and source reads change the counters and the buffers of nodes, and the flags of those
predicates that `modify_predicate` nodes have as targets.  The options of the nodes, the channels and
all other predicates stay as they were configured, in any order of calls.
-/

namespace EventSeq

open Lib

/-! ## The configured part of a node -/

/-- The state of a node without what its calls count and keep. -/
def NodeKind.configured : NodeKind → NodeKind
  | .differentiate _ => .differentiate ⟨0⟩
  | .integrate _ => .integrate ⟨0⟩
  | .scale node => .scale { node with defect := 0 }
  | .window node => .window (node.withBuffer emptyQueue (createTable 5 ⟨1, 0⟩) 0)
  | .evdev source => .evdev { source with enabled := true }
  | .getchar source => .getchar { source with enabled := true }
  | kind => kind

def GraphNode.configured (node : GraphNode) : GraphNode :=
  { node with waitingNewEvent := false, kind := node.kind.configured }

/-- The predicate that a node may switch. -/
def NodeKind.target : NodeKind → Option Int
  | .modifyPredicate node => some node.target
  | _ => none

theorem NodeKind.target_configured (kind : NodeKind) : kind.configured.target = kind.target := by
  cases kind <;> rfl

section

variable {P : Platform} {w w' : World} {n : Nat} {node : GraphNode} {e : EventNode}
  {predicates : EventPredicateList} {eff : NodeEffect} {pre post : List EventNode}

theorem map_configured_modify {nodes : List GraphNode} {f : GraphNode → GraphNode}
    (hnode : nodes[n]? = some node) (hf : (f node).configured = node.configured) :
    (nodes.modify n f).map GraphNode.configured = nodes.map GraphNode.configured := by
  apply List.ext_getElem?
  intro i
  rw [List.getElem?_map, List.getElem?_map, List.getElem?_modify]
  by_cases hi : n = i
  · subst hi
    simp [hnode, hf]
  · simp [hi]

theorem nodeEffect_configured (h : nodeEffect n node predicates e = .ok eff) :
    eff.kind.configured = node.kind.configured := by
  have htransform : ∀ update : EventData → EventData × NodeKind,
      (update e.data).2.configured = node.kind.configured →
      (transformEffect node predicates e update).kind.configured = node.kind.configured := by
    intro update hupdate
    rw [transformEffect]
    split
    · rfl
    · exact hupdate
  rw [nodeEffect] at h
  split at h
  case h_1 | h_9 | h_10 =>
    cases h
    rfl
  case h_2 | h_4 =>
    obtain ⟨_, -, ⟨⟩⟩ := (bind_eq_ok_iff _ _ _).mp h
    rfl
  case h_8 node' hkind =>
    split at h
    · cases h
    · cases h
      apply htransform
      rw [hkind]
      unfold scaleUpdate
      dsimp only
      split <;> rfl
  case h_11 | h_12 | h_13 => cases h
  all_goals
    rename_i hkind
    cases h
    exact htransform _ (by rw [hkind]; rfl)

/-! ## Predicates -/

/-- The predicates are the same but for the flags of those that `switched` holds of. -/
structure KeepsPredicates (switched : Int → Prop) (predicates predicates' : EventPredicateList) :
    Prop where
  length : predicates'.length = predicates.length
  types : ∀ handle, (eventPredicateGetPtr predicates' handle).map EventPredicate.type =
    (eventPredicateGetPtr predicates handle).map EventPredicate.type
  others : ∀ handle, ¬switched handle →
    eventPredicateGetPtr predicates' handle = eventPredicateGetPtr predicates handle

variable {switched : Int → Prop} {predicates' predicates'' : EventPredicateList}

theorem KeepsPredicates.refl : KeepsPredicates switched predicates predicates :=
  ⟨rfl, fun _ => rfl, fun _ _ => rfl⟩

theorem KeepsPredicates.trans (h : KeepsPredicates switched predicates predicates')
    (h' : KeepsPredicates switched predicates' predicates'') :
    KeepsPredicates switched predicates predicates'' :=
  ⟨h'.length.trans h.length, fun handle => (h'.types handle).trans (h.types handle),
    fun handle hnot => (h'.others handle hnot).trans (h.others handle hnot)⟩

/-- What a predicate refers to is a matter of its type. -/
theorem KeepsPredicates.acyclic (h : KeepsPredicates switched predicates predicates')
    (hacyclic : Acyclic predicates) : Acyclic predicates' := by
  intro i ptr hptr child hchild
  have htypes := h.types i
  unfold eventPredicateGetPtr at htypes
  rw [if_neg (by omega), if_neg (by omega), Int.toNat_natCast, hptr] at htypes
  obtain ⟨old, hold, htype⟩ := Option.map_eq_some_iff.mp htypes.symm
  exact hacyclic i old hold child (htype ▸ hchild)

/-- A predicate that contains none of the switched ones decides as before. -/
theorem KeepsPredicates.apply (h : KeepsPredicates switched predicates predicates') {handle : Int}
    (hfree : ∀ target, switched target →
      ¬Relation.ReflTransGen (ArgumentOf predicates) target handle) (event : EventNode) :
    eventPredicateApply predicates' handle event = eventPredicateApply predicates handle event := by
  rw [eventPredicateApply, eventPredicateApply, h.length]
  apply eventPredicateApplyFrom_frame
    (fun handle => ∀ target, switched target →
      ¬Relation.ReflTransGen (ArgumentOf predicates) target handle) _ _ event _ hfree
  · intro child parent hargument hparent target htarget hreach
    exact hparent target htarget (hreach.tail hargument)
  · intro handle hfree
    apply h.others
    intro htarget
    exact hfree handle htarget .refl

theorem modifyPredicateUpdate_keeps {node' : ModifyPredicateGraphNode}
    (h : modifyPredicateUpdate node' predicates e = .ok predicates') :
    KeepsPredicates (· = node'.target) predicates predicates' := by
  obtain ⟨changes, -, ⟨⟩⟩ := (bind_eq_ok_iff _ _ _).mp h
  refine ⟨PredicateChanges.apply_length _ _ _, fun handle => ?_, fun handle hne => ?_⟩
  · rw [PredicateChanges.getPtr_apply]
    split
    · cases eventPredicateGetPtr predicates handle <;> rfl
    · rfl
  · rw [PredicateChanges.getPtr_apply, if_neg hne]

theorem nodeEffect_keeps (h : nodeEffect n node predicates e = .ok eff) :
    KeepsPredicates (fun handle => node.kind.target = some handle) predicates eff.predicates := by
  have htransform : ∀ update, (transformEffect node predicates e update).predicates = predicates := by
    intro update
    rw [transformEffect]
    split <;> rfl
  rw [nodeEffect] at h
  split at h
  case h_2 =>
    obtain ⟨_, -, ⟨⟩⟩ := (bind_eq_ok_iff _ _ _).mp h
    exact .refl
  case h_4 node' hkind =>
    obtain ⟨predicates', hupdate, ⟨⟩⟩ := (bind_eq_ok_iff _ _ _).mp h
    have hkeeps := modifyPredicateUpdate_keeps hupdate
    refine ⟨hkeeps.length, hkeeps.types, fun handle hnot => hkeeps.others handle ?_⟩
    rintro rfl
    exact hnot (by rw [hkind]; rfl)
  case h_8 =>
    split at h
    · cases h
    · cases h
      rw [htransform]
      exact .refl
  case h_11 | h_12 | h_13 => cases h
  case h_1 | h_9 | h_10 =>
    cases h
    exact .refl
  all_goals
    cases h
    rw [htransform]
    exact .refl

/-! ## Windows -/

variable {s s' : WindowState} {source : GraphNode} {window : WindowGraphNode}

theorem popLoop_sameOptions {step rest : Nat} (h : popLoop P step s = .ok (rest, s')) :
    s.node.SameOptions s'.node := by
  induction step generalizing s with
  | zero =>
      cases h
      exact .refl _
  | succ step ih =>
      rw [popLoop] at h
      obtain ⟨⟨event, buffer⟩, -, h⟩ := (bind_eq_ok_iff _ _ _).mp h
      cases event with
      | none =>
          cases h
          exact .refl _
      | some event =>
          obtain ⟨set, -, h⟩ := (bind_eq_ok_iff _ _ _).mp h
          have hpopped : s.node.SameOptions { s.node with buffer := buffer, bufferedSet := set } :=
            ⟨buffer, set, s.node.skipNext, rfl⟩
          have hrest := ih h
          exact hpopped.trans hrest

theorem triggerNewWindow_sameOptions {base : Option Addr}
    (h : triggerNewWindow P source base s = .ok s') : s.node.SameOptions s'.node := by
  cases base with
  | none =>
      cases h
      exact .refl _
  | some base =>
      obtain ⟨⟨base', events⟩, -, h⟩ := (bind_eq_ok_iff _ _ _).mp h
      obtain ⟨⟨rest, popped⟩, hpop, h⟩ := (bind_eq_ok_iff _ _ _).mp h
      obtain ⟨indices, -, h⟩ := (bind_eq_ok_iff _ _ _).mp h
      obtain ⟨⟨base'', events'⟩, -, h⟩ := (bind_eq_ok_iff _ _ _).mp h
      obtain ⟨destroyed, -, ⟨⟩⟩ := (bind_eq_ok_iff _ _ _).mp h
      have hpopped := popLoop_sameOptions hpop
      exact hpopped.trans ⟨popped.node.buffer, popped.node.bufferedSet, _, rfl⟩

theorem timeLoop_sameOptions {self fuel : Nat} {newTime : AbsoluteTime} {event : Addr}
    {result : Option Addr} (h : timeLoop P self source newTime fuel event s = .ok (result, s')) :
    s.node.SameOptions s'.node := by
  induction fuel generalizing event s with
  | zero => cases h
  | succ fuel ih =>
      rw [timeLoop] at h
      obtain ⟨outlived, -, h⟩ := (bind_eq_ok_iff _ _ _).mp h
      cases outlived with
      | false =>
          cases h
          exact .refl _
      | true =>
          obtain ⟨⟨replacement, event', events⟩, -, h⟩ := (bind_eq_ok_iff _ _ _).mp h
          cases replacement with
          | none =>
              cases h
              exact .refl _
          | some replacement =>
              obtain ⟨_, -, h⟩ := (bind_eq_ok_iff _ _ _).mp h
              obtain ⟨_, -, h⟩ := (bind_eq_ok_iff _ _ _).mp h
              obtain ⟨s₁, htrigger, h⟩ := (bind_eq_ok_iff _ _ _).mp h
              exact (triggerNewWindow_sameOptions htrigger).trans (ih h)

theorem lengthLoop_sameOptions {threshold fuel : Nat} {replacement last : Addr}
    (h : lengthLoop P source threshold fuel replacement s = .ok (last, s')) :
    s.node.SameOptions s'.node := by
  induction fuel generalizing replacement s with
  | zero => cases h
  | succ fuel ih =>
      rw [lengthLoop] at h
      split at h
      · obtain ⟨⟨base, replacement', events⟩, -, h⟩ := (bind_eq_ok_iff _ _ _).mp h
        obtain ⟨s₁, htrigger, h⟩ := (bind_eq_ok_iff _ _ _).mp h
        exact (triggerNewWindow_sameOptions htrigger).trans (ih h)
      · cases h
        exact .refl _

theorem closeByLength_sameOptions {replacement last : Addr}
    (h : closeByLength P source replacement s = .ok (last, s')) : s.node.SameOptions s'.node := by
  unfold closeByLength at h
  split at h
  · exact lengthLoop_sameOptions h
  · cases h
    exact .refl _

theorem windowAccept_sameOptions {event : Addr} (h : windowAccept P source event s = .ok s') :
    s.node.SameOptions s'.node := by
  obtain ⟨⟨replicated, events⟩, -, h⟩ := (bind_eq_ok_iff _ _ _).mp h
  obtain ⟨s₁, hpass, h⟩ := (bind_eq_ok_iff _ _ _).mp h
  obtain ⟨s₂, hbuffer, h⟩ := (bind_eq_ok_iff _ _ _).mp h
  obtain ⟨-, -, -, hnode, -⟩ := passThrough_log hpass
  obtain ⟨index, buffer, set, draws, -, -, rfl⟩ := bufferEvent_cases hbuffer
  have hbuffered : s.node.SameOptions { s₁.node with buffer := buffer, bufferedSet := set } := by
    rw [hnode]
    exact ⟨buffer, set, s.node.skipNext, rfl⟩
  dsimp only at h
  split at h
  · cases h
    exact hbuffered
  · obtain ⟨⟨last, s₃⟩, hclose, h⟩ := (bind_eq_ok_iff _ _ _).mp h
    obtain ⟨destroyed, -, ⟨⟩⟩ := (bind_eq_ok_iff _ _ _).mp h
    have hclosed := closeByLength_sameOptions hclose
    exact hbuffered.trans hclosed

theorem windowHandleEvent_sameOptions {event : Addr} {result : Bool}
    (h : windowHandleEvent P w n window event = .ok (result, w')) :
    w' = w ∨ ∃ s waiting, w' = w.putWindow n s waiting ∧ window.SameOptions s.node := by
  simp only [windowHandleEvent, bind_eq_ok_iff] at h
  obtain ⟨source, -, e, -, hidden, -, h⟩ := h
  cases hidden with
  | true =>
      cases h
      exact .inl rfl
  | false =>
      simp only [Bool.false_eq_true, if_false, bind_eq_ok_iff] at h
      obtain ⟨⟨event, s⟩, htime, h⟩ := h
      have hclosed := timeLoop_sameOptions htime
      cases event with
      | none =>
          cases h
          exact .inr ⟨s, _, rfl, hclosed⟩
      | some event =>
          dsimp only at h
          split at h
          · cases h
            exact .inr ⟨_, _, rfl, hclosed.trans ⟨s.node.buffer, s.node.bufferedSet, _, rfl⟩⟩
          · obtain ⟨s₁, haccept, ⟨⟩⟩ := (bind_eq_ok_iff _ _ _).mp h
            exact .inr ⟨s₁, true, rfl, hclosed.trans (windowAccept_sameOptions haccept)⟩

theorem WindowGraphNode.SameOptions.configured {window' : WindowGraphNode}
    (h : window.SameOptions window') :
    (NodeKind.window window').configured = (NodeKind.window window).configured := by
  obtain ⟨buffer, set, skipNext, rfl⟩ := h
  rfl

/-! ## The system -/

/-- The two states of the system were configured alike, and only targets were switched in between. -/
structure World.SameConfiguration (w w' : World) : Prop where
  nodes : w'.nodes.map GraphNode.configured = w.nodes.map GraphNode.configured
  channels : w'.channels = w.channels
  predicates : KeepsPredicates
    (fun handle => ∃ node ∈ w.nodes, node.kind.target = some handle) w.predicates w'.predicates

theorem World.SameConfiguration.refl (w : World) : w.SameConfiguration w := ⟨rfl, rfl, .refl⟩

/-- Which predicates are targets is part of the configuration. -/
theorem World.targets_congr (h : w'.nodes.map GraphNode.configured = w.nodes.map GraphNode.configured)
    {handle : Int} (htarget : ∃ node ∈ w'.nodes, node.kind.target = some handle) :
    ∃ node ∈ w.nodes, node.kind.target = some handle := by
  obtain ⟨node, hnode, htarget⟩ := htarget
  have hmem : node.configured ∈ w.nodes.map GraphNode.configured := by
    rw [← h]
    exact List.mem_map_of_mem hnode
  obtain ⟨old, hold, heq⟩ := List.mem_map.mp hmem
  refine ⟨old, hold, ?_⟩
  have hkind := congrArg (fun node => node.kind.target) heq
  simp only [GraphNode.configured, NodeKind.target_configured] at hkind
  rw [hkind, htarget]

theorem World.SameConfiguration.trans {w'' : World} (h : w.SameConfiguration w')
    (h' : w'.SameConfiguration w'') : w.SameConfiguration w'' := by
  refine ⟨h'.nodes.trans h.nodes, h'.channels.trans h.channels, h.predicates.trans ?_⟩
  refine ⟨h'.predicates.length, h'.predicates.types, fun handle hnot => ?_⟩
  apply h'.predicates.others
  exact fun htarget => hnot (World.targets_congr h.nodes htarget)

theorem HandleOutcome.sameConfiguration {position : Position}
    (h : HandleOutcome P w pre e post position w') : w.SameConfiguration w' := by
  cases h with
  | @node n mallocs node eff outs hnode htype heff _ _ _ =>
      refine ⟨map_configured_modify hnode ?_, rfl, ?_⟩
      · rw [GraphNode.configured, GraphNode.configured, nodeEffect_configured heff]
      · have hkeeps := nodeEffect_keeps heff
        refine ⟨hkeeps.length, hkeeps.types, fun handle hnot => hkeeps.others handle fun htarget => ?_⟩
        exact hnot ⟨node, List.mem_of_getElem? hnode, htarget⟩
  | window hnode hkind hrun =>
      rcases windowHandleEvent_sameOptions hrun with rfl | ⟨s, waiting, rfl, hoptions⟩
      · exact .refl _
      · refine ⟨map_configured_modify hnode ?_, rfl, .refl⟩
        rw [GraphNode.configured, GraphNode.configured, hkind, hoptions.configured]
  | dropped _ _ => exact ⟨rfl, rfl, .refl⟩
  | delivered _ _ hnode => exact ⟨map_configured_modify hnode rfl, rfl, .refl⟩

/-- Only a source has a callback for reads. -/
theorem handleIo_source {input : SourceInput} (h : handleIo P w n input = .ok w') :
    ∃ node source, w.nodes[n]? = some node ∧
      (node.kind = .evdev source ∨ node.kind = .getchar source) := by
  obtain ⟨node, hget, h⟩ := (bind_eq_ok_iff _ _ _).mp h
  have hnode : w.nodes[n]? = some node := by
    unfold World.node at hget
    split at hget
    · cases hget
    · rename_i heq
      cases hget
      exact heq
  split at h
  · rename_i source _ hkind _
    exact ⟨node, source, hnode, .inl hkind⟩
  · rename_i source _ hkind _
    exact ⟨node, source, hnode, .inr hkind⟩
  · cases h

/-- A source is configured by its type and its namespace. -/
theorem configured_of_source {kind kind' : NodeKind} {source : SourceGraphNode}
    (hkind : kind = .evdev source ∨ kind = .getchar source) (htype : kind'.type = kind.type)
    (hnamespace : kind'.sourceNamespace = kind.sourceNamespace) :
    kind'.configured = kind.configured := by
  rcases hkind with rfl | rfl
  · cases kind' with
    | evdev source' =>
        have heq : source'.namespace_ = source.namespace_ := Option.some.inj hnamespace
        simp only [NodeKind.configured, heq]
    | _ => cases htype
  · cases kind' with
    | getchar source' =>
        have heq : source'.namespace_ = source.namespace_ := Option.some.inj hnamespace
        simp only [NodeKind.configured, heq]
    | _ => cases htype

theorem handleIo_sameConfiguration {input : SourceInput} (h : handleIo P w n input = .ok w') :
    w.SameConfiguration w' := by
  obtain ⟨node, source, hnode, hkind⟩ := handleIo_source h
  obtain ⟨node', kind, hnode', rfl, htype, hnamespace⟩ := handleIo_cases h
  obtain rfl : node' = node := Option.some.inj (hnode'.symm.trans hnode)
  refine ⟨map_configured_modify hnode ?_, rfl, .refl⟩
  rw [GraphNode.configured, GraphNode.configured, configured_of_source hkind htype hnamespace]

theorem SystemStep.sameConfiguration {c : SystemCall} (hnodup : w.events.addrs.Nodup)
    (h : SystemStep P w c w') : w.SameConfiguration w' := by
  cases h with
  | handle hmem _ hrun =>
      obtain ⟨pre, post, hw⟩ := World.splitAt_of_mem hnodup hmem
      exact (handleEvent_outcome hw hrun).sameConfiguration
  | read hread => exact handleIo_sameConfiguration hread

/-- A call changes the list in one place, or only adds to it. -/
theorem SystemStep.nodup {c : SystemCall} (hnodup : w.events.addrs.Nodup) (h : SystemStep P w c w') :
    w'.events.addrs.Nodup := by
  cases h with
  | handle hmem hposition hrun =>
      obtain ⟨pre, post, hw⟩ := World.splitAt_of_mem hnodup hmem
      cases handleEvent_outcome hw hrun with
      | node _ _ _ hnodup' _ _ => exact hnodup'
      | window _ _ hrun =>
          obtain ⟨-, -, -, -, -, -, -, hnodup'⟩ := windowHandleEvent_split hw hposition hrun
          exact hnodup'
      | dropped _ _ => exact (World.destroyEvent_eq hw).2
      | delivered _ hdelivered _ =>
          have hsplit := hw.nodup_split
          simpa [EventList.addrs, World.setNode, (delivered_eq_some hdelivered).2.1] using hsplit
  | read hread =>
      obtain ⟨node, kind, -, rfl, -, -⟩ := handleIo_cases hread
      exact (createAll_adds _ _ _ hnodup).nodup

theorem sameConfiguration_of_run {τ : List SystemTransition} (hrun : Run (SystemMove P) w τ w')
    (hnodup : w.events.addrs.Nodup) : w'.events.addrs.Nodup ∧ w.SameConfiguration w' := by
  let inv : World → Prop := fun s => s.events.addrs.Nodup ∧ w.SameConfiguration s
  have hkeep : ∀ s c s', SystemMove P s c s' → inv s → inv s' := by
    rintro s c s' ⟨depth, hstep⟩ ⟨hnodup, hsame⟩
    exact ⟨hstep.nodup hnodup, hsame.trans (hstep.sameConfiguration hnodup)⟩
  have hend : inv w' := hrun.invariant hkeep ⟨hnodup, .refl w⟩
  exact hend

/-- Along every run the nodes keep their options and connections, the predicates keep their types and
arguments, and a predicate decides as in the beginning unless it contains a target of a
`modify_predicate` node. -/
theorem configuration_is_permanent {τ : List SystemTransition} (hrun : Run (SystemMove P) w τ w')
    (hnodup : w.events.addrs.Nodup) :
    w'.nodes.map GraphNode.configured = w.nodes.map GraphNode.configured ∧
      w'.channels = w.channels ∧
      (∀ handle, (eventPredicateGetPtr w'.predicates handle).map EventPredicate.type =
        (eventPredicateGetPtr w.predicates handle).map EventPredicate.type) ∧
      ∀ handle, (∀ node ∈ w.nodes, ∀ target, node.kind.target = some target →
          ¬Relation.ReflTransGen (ArgumentOf w.predicates) target handle) →
        ∀ event, eventPredicateApply w'.predicates handle event =
          eventPredicateApply w.predicates handle event := by
  obtain ⟨-, hsame⟩ := sameConfiguration_of_run hrun hnodup
  refine ⟨hsame.nodes, hsame.channels, hsame.predicates.types, fun handle hfree event => ?_⟩
  apply hsame.predicates.apply
  rintro target ⟨node, hnode, htarget⟩
  exact hfree node hnode target htarget

end

def singleEventAtNode : EventNode := ⟨7, some (.node 0), 0, default⟩

/-- The node disables the first predicate when the second accepts. -/
def switchingWorld : World where
  events := ⟨[singleEventAtNode], 0⟩
  nodes := [⟨false, [], [some 4], .modifyPredicate ⟨0, -1, 1, -1, -1⟩⟩]
  channels := []
  predicates := [⟨.accept, true, false⟩, ⟨.accept, true, false⟩]
  deliveries := []
  draws := 0
  log := []

theorem configuration_is_permanent_switching :
    ∃ τ w, Run (SystemMove simplePlatform) switchingWorld τ w ∧
      eventPredicateApply w.predicates 0 singleEventAtNode = .ok .disabled ∧
      eventPredicateApply w.predicates 1 singleEventAtNode = .ok .accepted := by
  obtain ⟨w, hrun, hfirst⟩ : ∃ w,
      switchingWorld.handleEvent simplePlatform (.node 0) singleEventAtNode = .ok (true, w) ∧
      eventPredicateApply w.predicates 0 singleEventAtNode = .ok .disabled :=
    ⟨_, rfl, rfl⟩
  have hmove : SystemMove simplePlatform switchingWorld (.handle (.node 0) singleEventAtNode) w :=
    ⟨8, .handle (List.mem_singleton_self _) rfl hrun⟩
  obtain ⟨-, -, -, hother⟩ := configuration_is_permanent (.single hmove) (by decide)
  refine ⟨_, w, .single hmove, hfirst, (hother 1 ?_ singleEventAtNode).trans rfl⟩
  -- the second predicate has no arguments
  rintro node hnode target htarget hreach
  rw [List.mem_singleton.mp hnode] at htarget
  cases htarget
  rcases Relation.ReflTransGen.cases_tail hreach with heq | ⟨child, -, ptr, hptr, hchild⟩
  · cases heq
  · cases hptr
    cases hchild

end EventSeq
