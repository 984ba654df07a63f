import EventSeq.Handlers

/-!
# The namespace of an event and the source it descends from

The system is run together with the source of every event: a read is the source of what it creates,
and a handler hands the source of its event on.  `evdev` stamps the configured namespace on its
events, `getchar` stamps 0 whatever its configuration.
-/

namespace EventSeq

open Lib

/-- A state of the system and, for the address of each event, the node from whose read it descends. -/
structure Traced where
  world : World
  origin : Addr → Nat

def Traced.callOrigin (s : Traced) : SystemCall → Nat
  | .read n _ => n
  | .handle _ e => s.origin e.addr

/-- Addresses that are in the list before a call keep their source, also the one that is handled. -/
def Traced.after (s : Traced) (c : SystemCall) (w' : World) : Traced where
  world := w'
  origin a := if a ∈ s.world.events.addrs then s.origin a else s.callOrigin c

def TracedStep (P : Platform) (s : Traced) (c : SystemCall) (s' : Traced) : Prop :=
  SystemStep P s.world c s'.world ∧ s' = s.after c s'.world

abbrev TracedTransition := Transition Traced SystemCall

/-- A predicate that is enabled, not inverted and accepts the namespace `n` only. -/
def namespacePredicate (n : UInt32) : EventPredicate where
  type := .range .codeNs (Int64.ofNat n.toNat) (Int64.ofNat n.toNat)
  enabled := true
  inverted := false

/-- A graph of sources configured with the namespaces `config` and of nodes that keep the namespace. -/
structure NamespaceGraph (config : Nat → UInt32) (w : World) : Prop where
  nodup : w.events.addrs.Nodup
  windowless : ∀ node ∈ w.nodes, node.kind.type ≠ .window
  assignless : ∀ node ∈ w.nodes, node.kind.type ≠ .assign
  configured : ∀ (n : Nat) node ns, w.nodes[n]? = some node → node.kind.sourceNamespace = some ns →
    ns = (sourceCreate (config n).toNat).namespace_

/-- Every event carries the namespace of its source, and a predicate on that namespace tells the
events of the source apart. -/
structure Stamped (config : Nat → UInt32) (s : Traced) : Prop where
  namespace_eq : ∀ e ∈ s.world.events.nodes, e.data.code.ns = config (s.origin e.addr)
  accepted_iff : ∀ e ∈ s.world.events.nodes, ∀ predicates handle n,
    eventPredicateGetPtr predicates handle = some (namespacePredicate n) →
      (eventPredicateApply predicates handle e = .ok .accepted ↔ config (s.origin e.addr) = n)

/-- The call, if it is a read of `getchar` that creates events, is at a source configured with
namespace 0.  Such a read creates none if it gets nothing, has no outputs or has no memory. -/
def ReadsStamped (P : Platform) (config : Nat → UInt32) (x : TracedTransition) : Prop :=
  ∀ n input node, x.label = .read n input → x.before.world.nodes[n]? = some node →
    node.kind.type = .getchar → readData node.kind input ≠ [] → node.outputs ≠ [] →
    P.allocator.malloc x.before.world.events.mallocs x.before.world.events.addrs.toFinset ≠ none →
    config n = 0

section

variable {P : Platform} {config : Nat → UInt32} {s s' : Traced} {w w' : World} {c : SystemCall}
  {e : EventNode} {p : Position}

/-! ## Namespaces -/

/-- The cast to `int32_t` in `create` and the one back in `handle_io` keep the namespace. -/
theorem sourceCreate_namespace (n : UInt32) :
    (sourceCreate n.toNat).namespace_.toUInt32 = n := by
  show (Int32.ofInt n.toNat).toUInt32 = n
  apply UInt32.toBitVec_inj.mp
  show (Int32.ofInt n.toNat).toBitVec = n.toBitVec
  rw [Int32.toBitVec_ofInt, BitVec.ofInt_natCast]
  exact BitVec.eq_of_toNat_eq (by simp)

theorem codeNs_le_iff (a n : UInt32) :
    Int64.ofNat n.toNat ≤ Int64.ofNat a.toNat ↔ n.toNat ≤ a.toNat := by
  have hn := n.toNat_lt
  have ha := a.toNat_lt
  rw [Int64.le_iff_toInt_le, Int64.toInt_ofNat_of_lt (by omega), Int64.toInt_ofNat_of_lt (by omega)]
  omega

theorem eventPredicateApply_namespace {predicates : EventPredicateList} {handle : Int} {n : UInt32}
    (hptr : eventPredicateGetPtr predicates handle = some (namespacePredicate n)) (e : EventNode) :
    eventPredicateApply predicates handle e = .ok .accepted ↔ e.data.code.ns = n := by
  have hrange : n.toNat ≤ e.data.code.ns.toNat ∧ e.data.code.ns.toNat ≤ n.toNat ↔
      e.data.code.ns = n := by
    rw [← UInt32.toNat_inj]
    omega
  unfold eventPredicateApply eventPredicateApplyFrom
  simp only [hptr, namespacePredicate, baseCondition, RangeField.actual, bind, Except.bind]
  rw [← hrange, ← codeNs_le_iff, ← codeNs_le_iff]
  by_cases hmin : Int64.ofNat n.toNat ≤ Int64.ofNat e.data.code.ns.toNat <;>
    by_cases hmax : Int64.ofNat e.data.code.ns.toNat ≤ Int64.ofNat n.toNat <;> simp [hmin, hmax]

theorem stamped_of_namespace_eq
    (h : ∀ e ∈ s.world.events.nodes, e.data.code.ns = config (s.origin e.addr)) :
    Stamped config s where
  namespace_eq := h
  accepted_iff e he predicates handle n hptr := by
    rw [eventPredicateApply_namespace hptr, h e he]

/-! ## Reads -/

/-- What the sources stamp on their events. -/
theorem readData_namespace {kind : NodeKind} {input : SourceInput} {ns : Int32}
    (hns : kind.sourceNamespace = some ns) :
    ∀ data ∈ readData kind input,
      data.code.ns = if kind.type = .getchar then 0 else ns.toUInt32 := by
  intro data hdata
  unfold readData at hdata
  split at hdata
  · rename_i source input
    obtain ⟨buf, -, rfl⟩ := List.mem_map.mp hdata
    cases hns
    rfl
  · obtain rfl := List.mem_singleton.mp hdata
    rfl
  · obtain rfl := List.mem_singleton.mp hdata
    rfl
  · cases hdata

theorem sourceNamespace_of_readData {kind : NodeKind} {input : SourceInput}
    (h : readData kind input ≠ []) : ∃ ns, kind.sourceNamespace = some ns := by
  unfold readData at h
  split at h
  · exact ⟨_, rfl⟩
  · exact ⟨_, rfl⟩
  · exact ⟨_, rfl⟩
  · exact absurd rfl h

/-- A source stamps its configured namespace on what it reads, unless it is a `getchar` with another
namespace than 0. -/
theorem NamespaceGraph.readData_eq (hgraph : NamespaceGraph config w) {n : Nat} {node : GraphNode}
    {input : SourceInput} (hnode : w.nodes[n]? = some node) {data : EventData}
    (hdata : data ∈ readData node.kind input) :
    data.code.ns = config n ↔ (node.kind.type = .getchar → config n = 0) := by
  obtain ⟨ns, hns⟩ := sourceNamespace_of_readData (List.ne_nil_of_mem hdata)
  have hconfigured := hgraph.configured n node ns hnode hns
  rw [readData_namespace hns data hdata, hconfigured, sourceCreate_namespace]
  by_cases hgetchar : node.kind.type = .getchar
  · rw [if_pos hgetchar]
    exact ⟨fun h _ => h.symm, fun h => (h hgetchar).symm⟩
  · rw [if_neg hgetchar]
    exact iff_of_true rfl fun h => absurd h hgetchar

theorem readData_getchar {kind : NodeKind} {input : SourceInput} (h : kind.type = .getchar)
    {data : EventData} (hdata : data ∈ readData kind input) : readData kind input = [data] := by
  unfold readData at hdata ⊢
  split at hdata
  · cases h
  · rw [List.mem_singleton.mp hdata]
  · rw [List.mem_singleton.mp hdata]
  · cases hdata

theorem NamespaceGraph.read_iff (hgraph : NamespaceGraph config s.world) (hstamped : Stamped config s) {n : Nat}
    {input : SourceInput} (hrun : handleIo P s.world n input = .ok w') :
    Stamped config (s.after (.read n input) w') ↔
      ReadsStamped P config ⟨s, .read n input, s.after (.read n input) w'⟩ := by
  obtain ⟨node, kind, hnode, rfl, -, -⟩ := handleIo_cases hrun
  have hadds := createAll_adds P.allocator node.outputs (readData node.kind input) hgraph.nodup
  constructor
  · intro hafter n' input' node' hlabel hnode' hgetchar hdatas houtputs hm
    cases hlabel
    rw [hnode] at hnode'
    cases hnode'
    -- the new event at the first output shows what the source stamps
    obtain ⟨first, outputs, houtputs⟩ := List.exists_cons_of_ne_nil houtputs
    obtain ⟨data, hdata⟩ := List.exists_mem_of_ne_nil _ hdatas
    obtain ⟨x, hx, hfresh, hxdata, -⟩ :=
      createForOutputs_creates_first data first outputs hgraph.nodup hm
    rw [houtputs, readData_getchar hgetchar hdata] at hafter
    have hns := hafter.namespace_eq x hx
    rw [show (s.after (.read n input) _).origin x.addr = n from if_neg hfresh, hxdata] at hns
    exact (hgraph.readData_eq hnode hdata).mp hns hgetchar
  · intro hstamps
    apply stamped_of_namespace_eq
    intro x hx
    rcases hadds.added x hx with hold | ⟨hfresh, hdata, output, houtput, -⟩
    · rw [show (s.after (.read n input) _).origin x.addr = s.origin x.addr from
        if_pos (List.mem_map_of_mem hold)]
      exact hstamped.namespace_eq x hold
    · rw [show (s.after (.read n input) _).origin x.addr = n from if_neg hfresh]
      refine (hgraph.readData_eq hnode hdata).mpr fun hgetchar =>
        hstamps n input node rfl hnode hgetchar (List.ne_nil_of_mem hdata)
          (List.ne_nil_of_mem houtput) fun hm => ?_
      -- without memory a `getchar` creates nothing
      rw [readData_getchar hgetchar hdata] at hx
      exact hfresh (List.mem_map_of_mem (createForOutputs_no_memory hm ▸ hx))

/-! ## Handlers -/

theorem NamespaceGraph.sameGraph (hgraph : NamespaceGraph config w) (hsame : w.SameGraph w')
    (hnodup : w'.events.addrs.Nodup) : NamespaceGraph config w' where
  nodup := hnodup
  windowless := hsame.forall_mem (fun shape => shape.2.1 ≠ .window) hgraph.windowless
  assignless := hsame.forall_mem (fun shape => shape.2.1 ≠ .assign) hgraph.assignless
  configured n node' ns hnode' hns := by
    have hlen := (List.getElem?_eq_some_iff.mp hnode').1
    have hshapes := congrArg List.length hsame.shapes
    rw [List.length_map, List.length_map] at hshapes
    obtain ⟨node, hnode⟩ : ∃ node, w.nodes[n]? = some node :=
      ⟨_, List.getElem?_eq_getElem (hshapes ▸ hlen)⟩
    obtain ⟨node'', hnode'', hshape⟩ := hsame.getElem? hnode
    rw [hnode'] at hnode''
    cases hnode''
    have hkind : node.kind.sourceNamespace = some ns :=
      (congrArg (fun shape => shape.2.2) hshape).symm.trans hns
    exact hgraph.configured n node ns hnode hkind

theorem Successors.namespace_eq {outs : List EventNode} (hgraph : NamespaceGraph config w)
    (h : Successors w e p outs) : ∀ o ∈ outs, o.data.code.ns = e.data.code.ns := by
  cases h with
  | copies hnode _ _ _ hns => exact hns (hgraph.assignless _ (List.mem_of_getElem? hnode))
  | dropped => simp
  | delivered hdelivered =>
      obtain ⟨-, -, -, hdata⟩ := delivered_eq_some hdelivered
      intro o ho
      rw [List.mem_singleton.mp ho, hdata]

/-- An event in the place of the handled one has its address, which keeps its source, or a new
address, which gets it. -/
theorem Traced.origin_of_replaced {pre post outs : List EventNode} {o : EventNode}
    (hnodes : s.world.events.nodes = pre ++ e :: post)
    (hnodup : ((pre ++ (outs ++ post)).map EventNode.addr).Nodup) (ho : o ∈ outs) :
    (s.after (.handle p e) w').origin o.addr = s.origin e.addr := by
  show (if o.addr ∈ s.world.events.addrs then s.origin o.addr else s.origin e.addr) = _
  split
  · rename_i hmem
    have haddr : o.addr ∈ outs.map EventNode.addr := List.mem_map_of_mem ho
    rw [EventList.addrs, hnodes] at hmem
    simp only [List.map_append, List.map_cons, List.mem_append, List.mem_cons] at hmem hnodup
    rcases hmem with hpre | heq | hpost
    · exact absurd (List.mem_append_left _ haddr) (List.disjoint_of_nodup_append hnodup hpre)
    · rw [heq]
    · have hrest := (List.nodup_append.mp hnodup).2.1
      exact absurd hpost (List.disjoint_of_nodup_append hrest haddr)
  · rfl

theorem NamespaceGraph.handle_stamped (hgraph : NamespaceGraph config s.world)
    (hstamped : Stamped config s) (he : e ∈ s.world.events.nodes) {result : Bool}
    (hrun : s.world.handleEvent P p e = .ok (result, w')) :
    Stamped config (s.after (.handle p e) w') ∧ w'.events.addrs.Nodup := by
  obtain ⟨pre, post, hw⟩ := World.splitAt_of_mem hgraph.nodup he
  obtain ⟨outs, hnodes, hnodup, hsucc⟩ :=
    (handleEvent_outcome hw hrun).replaces hw hgraph.windowless
  refine ⟨stamped_of_namespace_eq fun x hx => ?_, hnodup⟩
  have hold : ∀ y ∈ s.world.events.nodes, y.data.code.ns =
      config ((s.after (.handle p e) w').origin y.addr) := by
    intro y hy
    rw [show (s.after (.handle p e) w').origin y.addr = s.origin y.addr from
      if_pos (List.mem_map_of_mem hy)]
    exact hstamped.namespace_eq y hy
  change x ∈ w'.events.nodes at hx
  rw [hnodes] at hx
  simp only [List.mem_append] at hx
  rcases hx with hpre | hout | hpost
  · exact hold x (by simp [hw.nodes, hpre])
  · rw [Traced.origin_of_replaced hw.nodes (by rwa [EventList.addrs, hnodes] at hnodup) hout,
      hsucc.namespace_eq hgraph x hout]
    exact hstamped.namespace_eq e he
  · exact hold x (by simp [hw.nodes, hpost])

/-! ## Runs -/

theorem TracedStep.stamped_iff (hgraph : NamespaceGraph config s.world)
    (hstamped : Stamped config s) (h : TracedStep P s c s') :
    NamespaceGraph config s'.world ∧ (Stamped config s' ↔ ReadsStamped P config ⟨s, c, s'⟩) := by
  obtain ⟨hstep, hafter⟩ := h
  cases hstep with
  | handle he _ hrun =>
      obtain ⟨hstamped', hnodup⟩ := hgraph.handle_stamped hstamped he hrun
      obtain ⟨pre, post, hw⟩ := World.splitAt_of_mem hgraph.nodup he
      refine ⟨hgraph.sameGraph (handleEvent_outcome hw hrun).sameGraph hnodup, ?_⟩
      rw [hafter]
      refine iff_of_true hstamped' fun n input node hlabel => ?_
      cases hlabel
  | read hrun =>
      obtain ⟨node, kind, -, hw', -, -⟩ := handleIo_cases hrun
      have hnodup : s'.world.events.addrs.Nodup := by
        rw [hw']
        exact (createAll_adds _ _ _ hgraph.nodup).nodup
      refine ⟨hgraph.sameGraph (handleIo_sameGraph hrun) hnodup, ?_⟩
      rw [hafter]
      exact hgraph.read_iff hstamped hrun

/-- Every run of the system has one trace of sources. -/
theorem exists_traced_run {τ : List (Transition World SystemCall)}
    (hrun : Run (SystemStep P) w τ w') (origin : Addr → Nat) :
    ∃ υ s', Run (TracedStep P) ⟨w, origin⟩ υ s' ∧ s'.world = w' ∧
      υ.map (fun x => Transition.mk x.before.world x.label x.after.world) = τ := by
  induction hrun generalizing origin with
  | nil w => exact ⟨[], _, .nil _, rfl, rfl⟩
  | @cons w w' t c τ hstep _ ih =>
      let s : Traced := ⟨w, origin⟩
      obtain ⟨υ, s', hrest, hworld, hmap⟩ := ih (s.after c w').origin
      have hfirst : TracedStep P s c (s.after c w') := ⟨hstep, rfl⟩
      exact ⟨_, s', .cons hfirst hrest, hworld, by rw [List.map_cons, hmap]; rfl⟩

/-- Along a run every event carries the namespace of the source it descends from, and is told apart
by it, after every call if and only if no `getchar` with another namespace than 0 creates events. -/
theorem namespace_provenance_iff {τ : List TracedTransition}
    (hrun : Run (TracedStep P) s τ s') (hgraph : NamespaceGraph config s.world)
    (hempty : s.world.events.nodes = []) :
    (∀ x ∈ τ, Stamped config x.after) ↔ ∀ x ∈ τ, ReadsStamped P config x := by
  have hstamped : Stamped config s := stamped_of_namespace_eq (by simp [hempty])
  clear hempty
  induction hrun with
  | nil _ => simp
  | cons hstep _ ih =>
      obtain ⟨hgraph', hiff⟩ := hstep.stamped_iff hgraph hstamped
      simp only [List.mem_cons, forall_eq_or_imp]
      constructor
      · rintro ⟨hafter, hrest⟩
        exact ⟨hiff.mp hafter, (ih hgraph' hafter).mp hrest⟩
      · rintro ⟨hreads, hrest⟩
        have hafter := hiff.mpr hreads
        exact ⟨hafter, (ih hgraph' hafter).mpr hrest⟩

end

/-- An `evdev` source and a `getchar` source, each with a channel to the same `print` node. -/
def twoSourceGraph (config : Nat → UInt32) : World where
  events := .empty
  nodes := [⟨false, [], [some 0], .evdev (sourceCreate (config 0).toNat)⟩,
    ⟨false, [], [some 1], .getchar (sourceCreate (config 1).toNat)⟩,
    ⟨false, [some 0, some 1], [], .print⟩]
  channels := [⟨false, some 0, some 2, 0, 0⟩, ⟨false, some 1, some 2, 0, 1⟩]
  predicates := []
  deliveries := []
  draws := 0
  log := []

theorem twoSourceGraph_namespaces (config : Nat → UInt32) :
    NamespaceGraph config (twoSourceGraph config) where
  nodup := List.nodup_nil
  windowless := by simp [twoSourceGraph, NodeKind.type]
  assignless := by simp [twoSourceGraph, NodeKind.type]
  configured n node ns hnode hns := by
    match n with
    | 0 | 1 | 2 =>
        cases hnode
        cases hns <;> rfl
    | n + 3 => cases hnode

def readPressedByte : SystemCall := .read 1 (.getchar ⟨.byte 97, ⟨⟨1, 0⟩⟩⟩)

/-- The first source in namespace 7 and the second in `n`. -/
def sevenAnd (n : UInt32) : Nat → UInt32
  | 0 => 7
  | _ => n

def readKey : SystemCall := .read 0 (.evdev ⟨⟨⟨2, 0⟩⟩, ⟨⟨1, 0⟩⟩, [⟨2, 0, 1, 30, 1⟩], .again⟩)

theorem namespace_provenance_seven_and_zero :
    ∃ s₁ s₂, Run (TracedStep simplePlatform) ⟨twoSourceGraph (sevenAnd 0), fun _ => 0⟩
        [⟨⟨twoSourceGraph (sevenAnd 0), fun _ => 0⟩, readKey, s₁⟩, ⟨s₁, readPressedByte, s₂⟩] s₂ ∧
      s₂.world.events.nodes.map (fun e => e.data.code.ns) = [7, 0] ∧ Stamped (sevenAnd 0) s₂ := by
  let s : Traced := ⟨twoSourceGraph (sevenAnd 0), fun _ => 0⟩
  obtain ⟨w₁, w₂, hkey, hbyte, hns⟩ : ∃ w₁ w₂,
      handleIo simplePlatform s.world 0
        (.evdev ⟨⟨⟨2, 0⟩⟩, ⟨⟨1, 0⟩⟩, [⟨2, 0, 1, 30, 1⟩], .again⟩) = .ok w₁ ∧
      handleIo simplePlatform w₁ 1 (.getchar ⟨.byte 97, ⟨⟨1, 0⟩⟩⟩) = .ok w₂ ∧
      w₂.events.nodes.map (fun e => e.data.code.ns) = [7, 0] := ⟨_, _, rfl, rfl, rfl⟩
  have hrun : Run (TracedStep simplePlatform) s
      [⟨s, readKey, s.after readKey w₁⟩,
        ⟨s.after readKey w₁, readPressedByte, (s.after readKey w₁).after readPressedByte w₂⟩]
      ((s.after readKey w₁).after readPressedByte w₂) :=
    .cons ⟨.read hkey, rfl⟩ (.single ⟨.read hbyte, rfl⟩)
  have hstamped := (namespace_provenance_iff hrun (twoSourceGraph_namespaces _) rfl).mpr (by
    intro x hx n input node hlabel hnode hgetchar _ _ _
    simp only [List.mem_cons, List.not_mem_nil, or_false] at hx
    rcases hx with rfl | rfl
    · cases hlabel
      cases hnode
      cases hgetchar
    · cases hlabel
      rfl)
  exact ⟨_, _, hrun, hns, hstamped _ (List.mem_cons_of_mem _ (List.mem_singleton.mpr rfl))⟩

/-- A `getchar` source configured with namespace 5 stamps 0. -/
theorem getchar_ignores_namespace :
    ∃ s', TracedStep simplePlatform ⟨twoSourceGraph (sevenAnd 5), fun _ => 0⟩ readPressedByte s' ∧
      s'.world.events.nodes.map (fun e => (e.data.code.ns, s'.origin e.addr)) = [(0, 1)] ∧
      ¬Stamped (sevenAnd 5) s' := by
  let s : Traced := ⟨twoSourceGraph (sevenAnd 5), fun _ => 0⟩
  obtain ⟨w', hread, hstamps⟩ : ∃ w',
      handleIo simplePlatform s.world 1 (.getchar ⟨.byte 97, ⟨⟨1, 0⟩⟩⟩) = .ok w' ∧
      w'.events.nodes.map (fun e => (e.data.code.ns, (s.after readPressedByte w').origin e.addr)) =
        [(0, 1)] := ⟨_, rfl, rfl⟩
  refine ⟨s.after readPressedByte w', ⟨.read hread, rfl⟩, hstamps, fun hstamped => ?_⟩
  obtain ⟨e, he, hpair⟩ := List.mem_map.mp (hstamps ▸ List.mem_singleton.mpr rfl :
    ((0, 1) : UInt32 × Nat) ∈ w'.events.nodes.map
      (fun e => (e.data.code.ns, (s.after readPressedByte w').origin e.addr)))
  have hns := hstamped.namespace_eq e he
  rw [(Prod.mk.inj hpair).1, (Prod.mk.inj hpair).2] at hns
  exact absurd hns (by decide)

end EventSeq
