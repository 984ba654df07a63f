import EventSeq.ConnectionRuns
import EventSeq.ConnectorLists
import EventSeq.Handlers
import EventSeq.NodeConfiguration

/-!
# The graph that is started

What a configuration says about the graph, and that `main` builds it: a node for each entry, in the
state its options describe, and a channel between the last nodes of two names.
-/

namespace EventSeq

open Lib GraphMemory

variable {Setting : Type}

/-! ## The configured graph -/

/-- The number of the last node of a name. -/
def lastNamed (nodes : List (GraphNodeConfig Setting)) (name : String) : Option Nat :=
  ((nodes.zipIdx.filter fun entry => entry.1.name == some name).getLast?).map Prod.snd

/-- What a channel is configured with on a side. -/
def ChannelSide.configured : ChannelSide → GraphChannelConfig → GraphChannelEnd
  | .start, config => config.from_
  | .end_, config => config.to_

/-- The connector that a channel is configured to have on a side. -/
def configuredConnector (nodes : List (GraphNodeConfig Setting)) (side : ChannelSide)
    (config : GraphChannelConfig) : Option (Nat × Nat) :=
  ((side.configured config).name.bind (lastNamed nodes)).map fun n =>
    (n, (side.configured config).index.toNat)

/-- The last channel that is configured for a connector. -/
def lastChannel (config : FullConfig Setting) (side : ChannelSide) (a : Nat × Nat) : Option Nat :=
  ((config.channels.zipIdx.filter fun entry =>
    configuredConnector config.nodes side entry.1 == some a).getLast?).map Prod.snd

/-- The initialisation of a channel with its number. -/
def configuredCall (nodes : List (GraphNodeConfig Setting)) (entry : GraphChannelConfig × Nat) :
    GraphCall :=
  .init entry.2 (entry.1.from_.name.bind (lastNamed nodes)) entry.1.from_.index.toNat
    (entry.1.to_.name.bind (lastNamed nodes)) entry.1.to_.index.toNat

section

variable {nodes : List (GraphNodeConfig Setting)} {config : FullConfig Setting} {side : ChannelSide}
  {a : Nat × Nat} {name : String} {n c : Nat}

theorem lastNamed_append (nodes : List (GraphNodeConfig Setting)) (config : GraphNodeConfig Setting) :
    lastNamed (nodes ++ [config]) =
      match config.name with
      | none => lastNamed nodes
      | some name => Function.update (lastNamed nodes) name (some nodes.length) := by
  have hsnoc : ∀ name, lastNamed (nodes ++ [config]) name =
      if config.name = some name then some nodes.length else lastNamed nodes name := by
    intro name
    unfold lastNamed
    rw [List.zipIdx_append, List.filter_append]
    by_cases h : config.name = some name
    · simp [h]
    · simp [h]
  funext name
  rw [hsnoc]
  cases config.name with
  | none => rfl
  | some other =>
      show (if some other = some name then some nodes.length else lastNamed nodes name) =
        Function.update (lastNamed nodes) other (some nodes.length) name
      rw [Function.update_apply]
      exact if_congr (Option.some_inj.trans eq_comm) rfl rfl

theorem lt_of_lastNamed (h : lastNamed nodes name = some n) : n < nodes.length := by
  obtain ⟨entry, hentry, rfl⟩ := Option.map_eq_some_iff.mp h
  have hmem := (List.mem_filter.mp (List.mem_of_getLast? hentry)).1
  exact List.snd_lt_of_mem_zipIdx hmem

/-- The call asks for the configured connector on either side. -/
theorem connects_configuredCall (nodes : List (GraphNodeConfig Setting)) (side : ChannelSide)
    (a : Nat × Nat) (entry : GraphChannelConfig × Nat) :
    (configuredCall nodes entry).connects side a =
      if configuredConnector nodes side entry.1 = some a then some entry.2 else none := by
  have hside : ∀ (side : ChannelSide) (asked : GraphChannel),
      side.node asked = (side.configured entry.1).name.bind (lastNamed nodes) →
      side.idx asked = (side.configured entry.1).index.toNat →
      ((side.node asked = some a.1 ∧ side.idx asked = a.2) ↔
        configuredConnector nodes side entry.1 = some a) := by
    intro side asked hnode hidx
    rw [hnode, hidx, configuredConnector, Option.map_eq_some_iff]
    constructor
    · rintro ⟨hn, hi⟩
      exact ⟨a.1, hn, Prod.ext rfl hi⟩
    · rintro ⟨n, hn, rfl⟩
      exact ⟨hn, rfl⟩
  unfold GraphCall.connects
  show (if _ then some entry.2 else none) = _
  apply if_congr _ rfl rfl
  cases side
  · exact hside .start _ rfl rfl
  · exact hside .end_ _ rfl rfl

theorem lastConnected_configured (config : FullConfig Setting) (side : ChannelSide) (a : Nat × Nat) :
    lastConnected side a (config.channels.zipIdx.map (configuredCall config.nodes)) =
      lastChannel config side a := by
  have hfilter : ∀ entries : List (GraphChannelConfig × Nat),
      entries.filterMap (fun entry => (configuredCall config.nodes entry).connects side a) =
        (entries.filter fun entry =>
          configuredConnector config.nodes side entry.1 == some a).map Prod.snd := by
    intro entries
    rw [← List.filterMap_eq_map, ← List.filterMap_eq_filter, List.filterMap_filterMap]
    apply List.filterMap_congr
    intro entry _
    rw [connects_configuredCall]
    by_cases h : configuredConnector config.nodes side entry.1 = some a
    · simp [h, Option.guard]
    · simp [h, Option.guard]
  rw [lastConnected, lastChannel, List.filterMap_map, ← List.getLast?_map]
  exact congrArg List.getLast? (hfilter _)

/-- The channel is configured for the connector. -/
theorem lastChannel_configured (h : lastChannel config side a = some c) :
    ∃ channelConfig, config.channels[c]? = some channelConfig ∧
      configuredConnector config.nodes side channelConfig = some a := by
  obtain ⟨entry, hentry, rfl⟩ := Option.map_eq_some_iff.mp h
  obtain ⟨hmem, hconnector⟩ := List.mem_filter.mp (List.mem_of_getLast? hentry)
  exact ⟨entry.1, List.mk_mem_zipIdx_iff_getElem?.mp hmem, by simpa using hconnector⟩

end

/-! ## What an initialisation does not touch -/

namespace GraphMemory

/-- The part of a node that connecting it leaves alone. -/
def unconnected (node : GraphNode) : GraphNode := { node with inputs := [], outputs := [] }

/-- No list of connectors has become longer than a `size_t` counts. -/
def ShortLists (m : GraphMemory) : Prop :=
  ∀ node, some node ∈ m.nodes → ∀ side : ChannelSide, (side.connectors node).length < sizeModulus

structure KeepsShape (m m' : GraphMemory) : Prop where
  nodes : m'.nodes.map (Option.map unconnected) = m.nodes.map (Option.map unconnected)
  channels : m'.channels.length = m.channels.length
  short : m.ShortLists → m'.ShortLists

section

variable {fits : Nat → Bool} {m m' m'' : GraphMemory} {side : ChannelSide} {ch n idx : Nat}
  {target : Option Nat} {node : GraphNode}

theorem KeepsShape.refl (m : GraphMemory) : KeepsShape m m := ⟨rfl, rfl, id⟩

theorem KeepsShape.trans (h : KeepsShape m m') (h' : KeepsShape m' m'') : KeepsShape m m'' :=
  ⟨h'.nodes.trans h.nodes, h'.channels.trans h.channels, h'.short ∘ h.short⟩

theorem live_of_channelAt {a : Nat × Nat} (h : m.channelAt side a = some ch) : m.Live a.1 := by
  unfold GraphMemory.channelAt at h
  split at h
  · rename_i node hnode
    exact ⟨node, hnode⟩
  · cases h

theorem unconnected_setConnectors (side : ChannelSide) (node : GraphNode) (l : List (Option Nat)) :
    unconnected (side.setConnectors node l) = unconnected node := by
  cases side <;> rfl

theorem detachChannel_keepsShape {old : Option Nat} {cond : GraphChannel → Bool}
    (h : m.detachChannel side old cond = .ok m') : KeepsShape m m' := by
  have hnodes := (detachChannel_spec h).nodes
  refine ⟨by rw [hnodes], ?_, fun hshort node hnode => hshort node (hnodes ▸ hnode)⟩
  unfold detachChannel at h
  split at h
  · cases h
    rfl
  · split at h
    · cases h
    · cases h
      rfl
    · split at h
      · cases h
        exact List.length_set
      · cases h
        rfl

/-- A list is enlarged to a length that a `size_t` holds. -/
theorem graphChannelListEnsure_short {lst lst' : List (Option Nat)} (hlst : lst.length < sizeModulus)
    (h : graphChannelListEnsure fits lst idx = .ok lst') : lst'.length < sizeModulus := by
  have hmod : (idx + 1) % sizeModulus < sizeModulus := Nat.mod_lt _ (by decide)
  unfold graphChannelListEnsure at h
  dsimp only at h
  generalize hgrown : (if lst.length < (idx + 1) % sizeModulus then
    graphChannelListResize fits lst ((idx + 1) % sizeModulus) else lst) = grown at h
  have hle : grown.length < sizeModulus := by
    subst hgrown
    split
    · rename_i hlong
      unfold graphChannelListResize
      rw [if_pos hlong]
      split
      · rw [List.length_append, List.length_replicate]
        omega
      · exact hlst
    · exact hlst
  split at h
  · cases h
  · cases h
    exact hle

theorem attachChannel_keepsShape (h : m.attachChannel fits side ch target idx = .ok m') :
    KeepsShape m m' := by
  cases target with
  | none =>
      cases h
      exact .refl m
  | some n =>
      obtain ⟨node, hnode, h⟩ := (bind_eq_ok_iff _ _ _).mp h
      obtain ⟨elements, hensure, h⟩ := (bind_eq_ok_iff _ _ _).mp h
      rw [node_eq_ok_iff] at hnode
      split at h
      · cases h
      · obtain ⟨m₁, hdetach, ⟨⟩⟩ := (bind_eq_ok_iff _ _ _).mp h
        have hdetached := detachChannel_keepsShape hdetach
        have hnode₁ : m₁.nodes[n]? = some (some node) := by
          rw [(detachChannel_spec hdetach).nodes]
          exact hnode
        refine hdetached.trans ⟨?_, rfl, fun hshort other hother side' => ?_⟩
        · -- the node differs from what it was in its connectors only
          apply List.ext_getElem?
          intro k
          rw [List.getElem?_map, List.getElem?_map]
          by_cases hk : k = n
          · subst hk
            rw [setNode_self _ hnode₁, hnode₁, Option.map_some, Option.map_some, Option.map_some,
              Option.map_some, unconnected_setConnectors]
          · rw [setNode_other _ hk]
        · rcases List.mem_or_eq_of_mem_set hother with hother | heq
          · exact hshort other hother side'
          · cases heq
            have hmem := List.mem_of_getElem? hnode₁
            by_cases hside : side' = side
            · subst hside
              rw [ChannelSide.connectors_set, List.length_set]
              exact graphChannelListEnsure_short (hshort node hmem side') hensure
            · rw [ChannelSide.connectors_set_other hside]
              exact hshort node hmem side'

/-- The last index of a `size_t` would have left the list. -/
theorem attachChannel_index (hshort : m.ShortLists)
    (h : m.attachChannel fits side ch (some n) idx = .ok m') (hidx : idx < sizeModulus) :
    m.Live n ∧ idx + 1 < sizeModulus := by
  have hattach := h
  obtain ⟨node, hnode, -⟩ := (bind_eq_ok_iff _ _ _).mp h
  rw [node_eq_ok_iff] at hnode
  refine ⟨⟨node, hnode⟩, ?_⟩
  rw [← attachChannel_ne_outOfRange_iff hnode (hshort node (List.mem_of_getElem? hnode) side) hidx,
    hattach]
  simp

theorem graphChannelInit_keepsShape {start end_ : Option Nat} {i j : Nat}
    (h : graphChannelInit fits m ch start i end_ j = .ok m') : KeepsShape m m' := by
  obtain ⟨m₁, h₁, h⟩ := (bind_eq_ok_iff _ _ _).mp h
  obtain ⟨m₂, h₂, ⟨⟩⟩ := (bind_eq_ok_iff _ _ _).mp h
  have hkeeps := (attachChannel_keepsShape h₁).trans (attachChannel_keepsShape h₂)
  exact ⟨hkeeps.nodes, List.length_set.trans hkeeps.channels, hkeeps.short⟩

/-- An initialisation between two nodes that returns was a valid call. -/
theorem graphChannelInit_valid {start end_ i j : Nat} (hshort : m.ShortLists)
    (h : graphChannelInit fits m ch (some start) i (some end_) j = .ok m') (hi : i < sizeModulus)
    (hj : j < sizeModulus) (hch : m.channels[ch]? = some none) (hlive : m.Live end_) :
    (GraphCall.init ch (some start) i (some end_) j).Valid m := by
  obtain ⟨m₁, h₁, h⟩ := (bind_eq_ok_iff _ _ _).mp h
  obtain ⟨m₂, h₂, -⟩ := (bind_eq_ok_iff _ _ _).mp h
  obtain ⟨hstart, hi'⟩ := attachChannel_index hshort h₁ hi
  obtain ⟨-, hj'⟩ := attachChannel_index ((attachChannel_keepsShape h₁).short hshort) h₂ hj
  refine ⟨hch, hi', hj', ?_, ?_⟩
  · rintro n ⟨⟩
    exact hstart
  · rintro n ⟨⟩
    exact hlive

end

end GraphMemory

/-! ## The loop over the nodes -/

theorem orCrash_eq_ok_iff {α : Type} {x : Except Fault α} {a : α} : orCrash x = .ok a ↔ x = .ok a := by
  cases x <;> simp [orCrash]

theorem orExit_eq_ok_iff {α : Type} {x : Except Fault α} {a : α} {exit : Exit} :
    orExit exit x = .ok a ↔ x = .ok a := by
  cases x with
  | error fault => cases fault <;> simp [orExit]
  | ok b => simp [orExit]

section

variable {p : ProgramPlatform Setting} {configRoot : Setting} {env : FullConfig Setting}
  {registry : TableState String (Option NodeType)} {predicates₀ : EventPredicateList}
  {configs : List (GraphNodeConfig Setting)} {s s' : NodesState}

/-- The node has the type of its entry, which a module provides, and once the predicates are
registered it is as its options say. -/
structure NodeFollows (p : ProgramPlatform Setting) (configRoot : Setting)
    (predicates : EventPredicateList) (config : GraphNodeConfig Setting) (kind : NodeKind) : Prop where
  type : kind.type ∈ p.modules ∧ config.type = some kind.type.name
  follows : predicates.length < int32Max →
    kind.Follows p.config configRoot p.toPlatform predicates config.options

theorem NodeFollows.mono {predicates predicates' : EventPredicateList}
    {config : GraphNodeConfig Setting} {kind : NodeKind}
    (h : NodeFollows p configRoot predicates config kind) (hchildren : ChildrenBelow predicates)
    (hloaded : Loaded predicates predicates') : NodeFollows p configRoot predicates' config kind := by
  refine ⟨h.type, fun hroom => ?_⟩
  have hle := hloaded.length_le
  exact (h.follows (by omega)).mono hchildren hloaded.grows

/-- What `main` has after the first nodes. -/
structure NodesCreated (p : ProgramPlatform Setting) (configRoot : Setting) (env : FullConfig Setting)
    (predicates₀ : EventPredicateList) (configs : List (GraphNodeConfig Setting)) (s : NodesState) :
    Prop where
  nodes : List.Forall₂ (fun config node => NodeFollows p configRoot s.predicates config node.kind)
    configs s.nodes
  subscribed : ∀ node ∈ s.nodes, node.fd.isSome = !node.kind.type.hasHandler
  files : ∀ (i : Nat) node, s.nodes[i]? = some node → ∀ fd ∈ node.fd, ∃ config,
    configs[i]? = some config ∧ ReadsFile p env i config.options fd node.kind.type
  reading : ∀ node ∈ s.nodes, node.kind.reading = node.kind
  windows : ∀ node ∈ s.nodes, ∀ window, node.kind = .window window →
    ∃ options draws, window = (windowCreate p.toPlatform options draws).1
  names : s.names.ht.Holds (lastNamed configs)
  ordered : EnvironmentOrdered env s.predicates
  grows : predicates₀ <+: s.predicates

/-- What a round that returns has done. -/
theorem createNode_cases {config : GraphNodeConfig Setting} (hmodules : HoldsModules p.modules registry)
    (h : createNode p registry.ht env s config = .ok s') :
    ∃ spec ∈ p.modules, ∃ created after names, config.type = some spec.name ∧
      specCreate p env s.nodes.length config.options ⟨s.predicates, s.names.draws⟩ spec =
        .ok (some created, after) ∧
      insertNodeName p ⟨s.names.ht, after.draws⟩ config.name s.nodes.length = .ok names ∧
      s' = ⟨s.nodes ++ [created], names, after.predicates⟩ := by
  unfold createNode at h
  dsimp only at h
  split at h
  · cases h
  · rename_i typeName htype
    obtain ⟨found, hfound, h⟩ := (bind_eq_ok_iff _ _ _).mp h
    rw [orCrash_eq_ok_iff, hmodules.lookup, Except.ok.injEq] at hfound
    cases found with
    | none => cases h
    | some spec =>
        obtain ⟨hspec, rfl⟩ := registered_eq_some_iff.mp hfound
        obtain ⟨⟨created, after⟩, hcreate, h⟩ := (bind_eq_ok_iff _ _ _).mp h
        rw [orCrash_eq_ok_iff] at hcreate
        cases created with
        | none => cases h
        | some created =>
            obtain ⟨names, hnames, ⟨⟩⟩ := (bind_eq_ok_iff _ _ _).mp h
            rw [orCrash_eq_ok_iff] at hnames
            exact ⟨spec, hspec, created, after, names, htype, hcreate, hnames, rfl⟩

theorem insertNodeName_holds {names names' : TableState String Nat} {config : GraphNodeConfig Setting}
    (h : names.ht.Holds (lastNamed configs))
    (hinsert : insertNodeName p names config.name configs.length = .ok names') :
    names'.ht.Holds (lastNamed (configs ++ [config])) := by
  rw [lastNamed_append]
  cases hname : config.name with
  | none =>
      rw [hname] at hinsert
      cases hinsert
      exact h
  | some name =>
      rw [hname] at hinsert
      exact insertName_holds h hinsert

theorem NodesCreated.create {config : GraphNodeConfig Setting}
    (hmodules : HoldsModules p.modules registry)
    (henv : predicates₀.length < int32Max → EnvironmentCompiles p.config configRoot env predicates₀)
    (h : NodesCreated p configRoot env predicates₀ configs s)
    (hcreate : createNode p registry.ht env s config = .ok s') :
    NodesCreated p configRoot env predicates₀ (configs ++ [config]) s' := by
  obtain ⟨spec, hspec, created, after, names, htype, hspecCreate, hnames, rfl⟩ :=
    createNode_cases hmodules hcreate
  have hloaded : Loaded s.predicates after.predicates := specCreate_loaded h.ordered hspecCreate
  have hlength : s.nodes.length = configs.length := h.nodes.length_eq.symm
  have htyped := specCreate_type hspecCreate created rfl
  have hcreated : NodeFollows p configRoot after.predicates config created.kind := by
    have hle := h.grows.length_le
    have hle' := hloaded.length_le
    constructor
    · rw [htyped]
      exact ⟨hspec, htype⟩
    · intro hroom
      -- the predicates of the configuration are the first ones that are registered
      have henv₀ := henv (by omega)
      have henv' : EnvironmentCompiles p.config configRoot env s.predicates :=
        henv₀.mono ⟨h.ordered.children, h.grows⟩
      exact specCreate_follows henv' hspecCreate hroom created rfl
  constructor
  · refine List.rel_append (h.nodes.imp fun _ _ hnode => ?_) (.cons hcreated .nil)
    exact hnode.mono h.ordered.children hloaded
  · intro node hnode
    rcases List.mem_append.mp hnode with hnode | hnode
    · exact h.subscribed node hnode
    · rw [List.mem_singleton.mp hnode, htyped]
      exact (specCreate_fd hspecCreate created rfl).1
  · intro i node hnode fd hfd
    rcases Nat.lt_or_ge i s.nodes.length with hlt | hge
    · rw [List.getElem?_append_left hlt] at hnode
      obtain ⟨entry, hentry, hfile⟩ := h.files i node hnode fd hfd
      exact ⟨entry, by rw [List.getElem?_append_left (hlength ▸ hlt), hentry], hfile⟩
    · have hlast := (List.getElem?_eq_some_iff.mp hnode).1
      rw [List.length_append, List.length_singleton] at hlast
      obtain rfl : i = s.nodes.length := by omega
      rw [List.getElem?_concat_length, Option.some_inj] at hnode
      subst hnode
      refine ⟨config, by rw [hlength, List.getElem?_concat_length], ?_⟩
      rw [htyped]
      exact specCreate_readsFile hspecCreate created rfl fd hfd
  · intro node hnode
    rcases List.mem_append.mp hnode with hnode | hnode
    · exact h.reading node hnode
    · rw [List.mem_singleton.mp hnode]
      exact (specCreate_fd hspecCreate created rfl).2
  · intro node hnode window hkind
    rcases List.mem_append.mp hnode with hnode | hnode
    · exact h.windows node hnode window hkind
    · rw [List.mem_singleton.mp hnode] at hkind
      exact specCreate_window hspecCreate created rfl hkind
  · rw [hlength] at hnames
    have hheld : (⟨s.names.ht, after.draws⟩ : TableState String Nat).ht.Holds (lastNamed configs) := h.names
    exact insertNodeName_holds hheld hnames
  · exact h.ordered.mono hloaded
  · exact h.grows.trans hloaded.grows

end

/-! ## The loop over the channels -/

section

variable {p : ProgramPlatform Setting} {nodes : List (GraphNodeConfig Setting)}
  {names : HashTable String Nat} {m₀ : GraphMemory} {configs : List GraphChannelConfig}
  {s s' : Nat × GraphMemory}

theorem lookupEnd_eq_ok {channelEnd : GraphChannelEnd} {n : Nat} (hnames : names.Holds (lastNamed nodes))
    (h : lookupEnd names channelEnd = .ok n) : channelEnd.name.bind (lastNamed nodes) = some n := by
  obtain ⟨name, hname, h⟩ := (bind_eq_ok_iff _ _ _).mp h
  obtain ⟨found, hfound, h⟩ := (bind_eq_ok_iff _ _ _).mp h
  rw [orCrash_eq_ok_iff] at hname hfound
  rw [findName_eq hnames, Except.ok.injEq] at hfound
  cases hend : channelEnd.name with
  | none =>
      rw [hend] at hname
      cases hname
  | some endName =>
      rw [hend] at hname
      cases hname
      rw [Option.bind_some, hfound]
      cases found with
      | none => cases h
      | some found =>
          cases h
          rfl

/-- What `main` has after the first channels. -/
structure ChannelsCreated (p : ProgramPlatform Setting) (nodes : List (GraphNodeConfig Setting))
    (m₀ : GraphMemory) (configs : List GraphChannelConfig) (s : Nat × GraphMemory) : Prop where
  count : s.1 = configs.length
  run : ∃ τ, Run (GraphStep p.fits) m₀ τ s.2 ∧
    τ.map Transition.label = configs.zipIdx.map (configuredCall nodes)
  shape : KeepsShape m₀ s.2
  zeroed : ∀ c, configs.length ≤ c → c < m₀.channels.length → s.2.channels[c]? = some none
  named : ∀ config ∈ configs, ∀ side : ChannelSide, (configuredConnector nodes side config).isSome

theorem ChannelsCreated.create {config : GraphChannelConfig} (hnames : names.Holds (lastNamed nodes))
    (hfresh : m₀.Fresh) (hshort : m₀.ShortLists) (hlive : ∀ n < nodes.length, m₀.Live n)
    (hroom : configs.length < m₀.channels.length) (h : ChannelsCreated p nodes m₀ configs s)
    (hcreate : createChannel p names s config = .ok s') :
    ChannelsCreated p nodes m₀ (configs ++ [config]) s' := by
  obtain ⟨τ, hrun, hlabels⟩ := h.run
  have hrecorded := Recorded.of_run hfresh hrun
  obtain ⟨i, m⟩ := s
  obtain rfl : i = configs.length := h.count
  obtain ⟨start, hstart, hcreate⟩ := (bind_eq_ok_iff _ _ _).mp hcreate
  obtain ⟨end_, hend, hcreate⟩ := (bind_eq_ok_iff _ _ _).mp hcreate
  obtain ⟨m', hinit, ⟨⟩⟩ := (bind_eq_ok_iff _ _ _).mp hcreate
  rw [orExit_eq_ok_iff] at hinit
  have hstart' := lookupEnd_eq_ok hnames hstart
  have hend' := lookupEnd_eq_ok hnames hend
  have hlt : end_ < nodes.length := by
    obtain ⟨name, -, hname⟩ := Option.bind_eq_some_iff.mp hend'
    exact lt_of_lastNamed hname
  have hch : m.channels[configs.length]? = some none := h.zeroed _ le_rfl hroom
  have hlive' : m.Live end_ := by
    rw [hrecorded.live]
    refine ⟨hlive end_ hlt, ?_⟩
    rw [hlabels]
    simp [configuredCall]
  have hvalid := graphChannelInit_valid (h.shape.short hshort) hinit (UInt64.toNat_lt _)
    (UInt64.toNat_lt _) hch hlive'
  have hcall : configuredCall nodes (config, configs.length) =
      .init configs.length (some start) config.from_.index.toNat (some end_) config.to_.index.toNat := by
    rw [configuredCall, hstart', hend']
  have hstep : GraphStep p.fits m (configuredCall nodes (config, configs.length)) m' := by
    rw [hcall]
    exact ⟨hvalid, hinit⟩
  obtain ⟨starts, hstarts⟩ := hrecorded.shows .start
  obtain ⟨ends, hends⟩ := hrecorded.shows .end_
  have hinitialised := graphChannelInit_spec hstarts hends hch hinit
  constructor
  · rw [List.length_append, List.length_singleton]
  · refine ⟨τ ++ [⟨m, configuredCall nodes (config, configs.length), m'⟩], hrun.append (.single hstep),
      ?_⟩
    rw [List.map_append, hlabels, List.zipIdx_append, List.map_append]
    simp
  · exact h.shape.trans (graphChannelInit_keepsShape hinit)
  · -- the other channels are still zeroed
    intro c hc hlt'
    rw [List.length_append, List.length_singleton] at hc
    exact zeroed_of_indicesOf (hinitialised.indicesOf_other c (by omega)) (h.zeroed c (by omega) hlt')
  · intro other hother side
    rcases List.mem_append.mp hother with hother | hother
    · exact h.named other hother side
    · rw [List.mem_singleton.mp hother]
      cases side
      · rw [configuredConnector]
        show (Option.map _ (config.from_.name.bind (lastNamed nodes))).isSome
        rw [hstart']
        rfl
      · rw [configuredConnector]
        show (Option.map _ (config.to_.name.bind (lastNamed nodes))).isSome
        rw [hend']
        rfl

/-- The induction is on the channels still to come. -/
theorem ChannelsCreated.create_all {rest : List GraphChannelConfig}
    (hnames : names.Holds (lastNamed nodes)) (hfresh : m₀.Fresh) (hshort : m₀.ShortLists)
    (hlive : ∀ n < nodes.length, m₀.Live n) (hroom : configs.length + rest.length ≤ m₀.channels.length)
    (h : ChannelsCreated p nodes m₀ configs s)
    (hcreate : rest.foldlM (createChannel p names) s = .ok s') :
    ChannelsCreated p nodes m₀ (configs ++ rest) s' := by
  induction rest generalizing configs s with
  | nil =>
      cases hcreate
      rw [List.append_nil]
      exact h
  | cons config rest ih =>
      rw [List.foldlM_cons] at hcreate
      obtain ⟨s₁, hfirst, hcreate⟩ := (bind_eq_ok_iff _ _ _).mp hcreate
      rw [List.length_cons] at hroom
      have h₁ := h.create hnames hfresh hshort hlive (by omega) hfirst
      rw [List.append_cons]
      exact ih (by rw [List.length_append, List.length_singleton]; omega) h₁ hcreate

end

/-! ## The program that is started -/

/-- The world is the one that the configuration describes.  A connector has the last channel that is
configured for it, and a channel that is not the last one is detached. -/
structure World.Configured (p : ProgramPlatform Setting) (configRoot : Setting)
    (config : FullConfig Setting) (w : World) : Prop where
  nodes : List.Forall₂ (fun nodeConfig node =>
    NodeFollows p configRoot w.predicates nodeConfig node.kind) config.nodes w.nodes
  channels : w.channels.length = config.channels.length
  connectors : ∀ n node, w.nodes[n]? = some node → ∀ (side : ChannelSide) i,
    ((side.connectors node)[i]?).join = lastChannel config side (n, i)
  ends : ∀ c channelConfig, config.channels[c]? = some channelConfig →
    ∃ channel, w.channels[c]? = some channel ∧ ∀ side : ChannelSide, ∃ n < w.nodes.length,
      configuredConnector config.nodes side channelConfig = some (n, side.idx channel) ∧
      side.node channel = if lastChannel config side (n, side.idx channel) = some c then some n else none
  ordered : ChildrenBelow w.predicates

theorem exists_related {α β : Type} {R : α → β → Prop} {l : List α} {l' : List β}
    (h : List.Forall₂ R l l') {x : α} (hx : x ∈ l) : ∃ y ∈ l', R x y := by
  induction h with
  | nil => cases hx
  | cons hhead _ ih =>
      rcases List.mem_cons.mp hx with rfl | hx
      · exact ⟨_, List.mem_cons_self, hhead⟩
      · obtain ⟨y, hy, hrelated⟩ := ih hx
        exact ⟨y, List.mem_cons_of_mem _ hy, hrelated⟩

theorem reduceOption_map_some {α : Type} {l : List (Option α)} (h : ∀ x ∈ l, x ≠ none) :
    l = l.reduceOption.map some := by
  induction l with
  | nil => rfl
  | cons x l ih =>
      cases x with
      | none => exact absurd rfl (h none List.mem_cons_self)
      | some x =>
          rw [List.reduceOption_cons_of_some, List.map_cons,
            ← ih fun y hy => h y (List.mem_cons_of_mem _ hy)]

theorem reduceOption_map_of_some {α β : Type} (f : α → β) (l : List α) :
    (l.map fun x => some (f x)).reduceOption = l.map f := by
  induction l with
  | nil => rfl
  | cons x l ih => rw [List.map_cons, List.reduceOption_cons_of_some, ih, List.map_cons]

theorem getElem?_reduceOption {α : Type} {l : List (Option α)} (h : ∀ x ∈ l, x ≠ none) (i : Nat)
    (x : α) : l.reduceOption[i]? = some x ↔ l[i]? = some (some x) := by
  conv_rhs => rw [reduceOption_map_some h, List.getElem?_map]
  simp

section

variable {p : ProgramPlatform Setting} {configRoot : Setting} {config : FullConfig Setting}
  {created : List CreatedNode} {m : GraphMemory}

/-- The nodes and the zeroed channels before the loop over the channels. -/
def unconnectedMemory (created : List CreatedNode) (channels : List GraphChannelConfig) : GraphMemory :=
  ⟨created.map fun node => some node.node, channels.map fun _ => none⟩

theorem unconnectedMemory_fresh (created : List CreatedNode) (channels : List GraphChannelConfig) :
    (unconnectedMemory created channels).Fresh := by
  constructor
  · intro node hnode
    obtain ⟨created, -, rfl⟩ := List.mem_map.mp hnode
    exact ⟨created.node, rfl, rfl, rfl⟩
  · intro channel hchannel
    obtain ⟨_, -, rfl⟩ := List.mem_map.mp hchannel
    rfl

theorem unconnectedMemory_short (created : List CreatedNode) (channels : List GraphChannelConfig) :
    (unconnectedMemory created channels).ShortLists := by
  intro node hnode side
  obtain ⟨created, -, heq⟩ := List.mem_map.mp hnode
  cases heq
  have hnil : side.connectors created.node = [] := by cases side <;> rfl
  rw [hnil]
  decide

theorem live_unconnectedMemory {channels : List GraphChannelConfig} {n : Nat}
    (hn : n < created.length) : (unconnectedMemory created channels).Live n := by
  refine ⟨created[n].node, ?_⟩
  show (created.map fun node => some node.node)[n]? = _
  rw [List.getElem?_map, List.getElem?_eq_getElem hn]
  rfl

/-- Connecting leaves every node in place. -/
theorem ChannelsCreated.nodes {channels done : List GraphChannelConfig} {i : Nat}
    {nodes : List (GraphNodeConfig Setting)}
    (h : ChannelsCreated p nodes (unconnectedMemory created channels) done (i, m)) :
    (∀ node ∈ m.nodes, node ≠ none) ∧
      m.nodes.reduceOption.map unconnected = created.map CreatedNode.node := by
  have hnodes : m.nodes.map (Option.map unconnected) = created.map fun node => some node.node := by
    rw [h.shape.nodes]
    show (created.map fun node => some node.node).map (Option.map unconnected) = _
    rw [List.map_map]
    rfl
  have hlive : ∀ node ∈ m.nodes, node ≠ none := by
    rintro _ hnode rfl
    have hmem : Option.map unconnected none ∈ m.nodes.map (Option.map unconnected) :=
      List.mem_map_of_mem hnode
    rw [hnodes] at hmem
    obtain ⟨_, -, heq⟩ := List.mem_map.mp hmem
    cases heq
  refine ⟨hlive, ?_⟩
  rw [← List.reduceOption_map, hnodes, reduceOption_map_of_some]

/-- After the loop over all channels the memory is the configured graph. -/
theorem ChannelsCreated.ends {i : Nat}
    (h : ChannelsCreated p config.nodes (unconnectedMemory created config.channels) config.channels
      (i, m)) (hlength : created.length = config.nodes.length) :
    (∀ channel ∈ m.channels, channel ≠ none) ∧
    (∀ (n : Nat) node, m.nodes[n]? = some (some node) → ∀ (side : ChannelSide) i,
      ((side.connectors node)[i]?).join = lastChannel config side (n, i)) ∧
    ∀ (c : Nat) channelConfig, config.channels[c]? = some channelConfig →
      ∃ channel, m.channels[c]? = some (some channel) ∧ ∀ side : ChannelSide,
        ∃ n < created.length,
          configuredConnector config.nodes side channelConfig = some (n, side.idx channel) ∧
          side.node channel =
            if lastChannel config side (n, side.idx channel) = some c then some n else none := by
  obtain ⟨τ, hrun, hlabels⟩ := h.run
  have hrecorded := Recorded.of_run (unconnectedMemory_fresh created config.channels) hrun
  rw [hlabels] at hrecorded
  have hlive : ∀ n < created.length, m.Live n := by
    intro n hn
    rw [hrecorded.live]
    exact ⟨live_unconnectedMemory hn, by simp [configuredCall]⟩
  have hlast : ∀ side a, m.Live a.1 → m.channelAt side a = lastChannel config side a := by
    intro side a ha
    rw [hrecorded.last side a ha, lastConnected_configured]
  have hends : ∀ (c : Nat) channelConfig, config.channels[c]? = some channelConfig →
      ∃ channel, m.channels[c]? = some (some channel) ∧ ∀ side : ChannelSide,
        side.idx channel = (side.configured channelConfig).index.toNat := by
    intro c channelConfig hc
    have hmem : configuredCall config.nodes (channelConfig, c) ∈
        config.channels.zipIdx.map (configuredCall config.nodes) :=
      List.mem_map_of_mem (List.mk_mem_zipIdx_iff_getElem?.mpr hc)
    have hindices := hrecorded.indices _ hmem c _ rfl
    obtain ⟨found, hfound, hmap⟩ := Option.map_eq_some_iff.mp hindices
    obtain ⟨channel, rfl, hpair⟩ := Option.map_eq_some_iff.mp hmap
    obtain ⟨hstart, hend⟩ := Prod.mk.inj hpair
    refine ⟨channel, hfound, fun side => ?_⟩
    cases side
    · exact hstart
    · exact hend
  refine ⟨?_, ?_, ?_⟩
  · rintro _ hchannel rfl
    obtain ⟨c, hc⟩ := List.mem_iff_getElem?.mp hchannel
    have hlt : c < config.channels.length := by
      have hlt := (List.getElem?_eq_some_iff.mp hc).1
      have hkept : m.channels.length = config.channels.length :=
        h.shape.channels.trans (List.length_map _)
      omega
    obtain ⟨channel, hchannel, -⟩ := hends c _ (List.getElem?_eq_getElem hlt)
    rw [hc] at hchannel
    cases hchannel
  · intro n node hnode side i
    rw [← channelAt_eq hnode, hlast side (n, i) ⟨node, hnode⟩]
  · intro c channelConfig hc
    obtain ⟨channel, hchannel, hidx⟩ := hends c channelConfig hc
    refine ⟨channel, hchannel, fun side => ?_⟩
    obtain ⟨a, ha⟩ := Option.isSome_iff_exists.mp
      (h.named channelConfig (List.mem_of_getElem? hc) side)
    obtain ⟨n, hn, rfl⟩ := Option.map_eq_some_iff.mp ha
    have hlt : n < created.length := by
      obtain ⟨name, -, hname⟩ := Option.bind_eq_some_iff.mp hn
      have := lt_of_lastNamed hname
      omega
    rw [← hidx side] at ha
    refine ⟨n, hlt, ha, ?_⟩
    -- the channel has the end that it asked for as long as the connector has the channel
    obtain ⟨links, hshows⟩ := hrecorded.shows side
    have hiff : ∀ k, side.node channel = some k ↔
        m.Live k ∧ lastChannel config side (k, side.idx channel) = some c := by
      intro k
      have hof : m.connectorOf side c = some (k, side.idx channel) ↔ side.node channel = some k := by
        rw [connectorOf_eq hchannel, Option.map_eq_some_iff]
        simp
      rw [← hof, ← hshows.channelAt_iff]
      constructor
      · intro hat
        have hk : m.Live k := live_of_channelAt hat
        exact ⟨hk, (hlast side (k, side.idx channel) hk) ▸ hat⟩
      · rintro ⟨hk, hat⟩
        rw [hlast side (k, side.idx channel) hk, hat]
    split
    · rename_i hat
      exact (hiff n).mpr ⟨hlive n hlt, hat⟩
    · rename_i hnot
      cases hnode : side.node channel with
      | none => rfl
      | some k =>
          obtain ⟨hk, hat⟩ := (hiff k).mp hnode
          obtain ⟨other, hother, hconnector⟩ := lastChannel_configured hat
          rw [hc] at hother
          cases hother
          rw [ha] at hconnector
          cases hconnector
          exact absurd hat hnot

theorem loadConfig_ordered {p : ConfigPlatform Setting} {predicates : EventPredicateList}
    {draws draws' : Nat}
    (hload : loadConfig p (some configRoot) [] draws = .ok (some (config, predicates, draws'))) :
    EnvironmentOrdered config predicates := by
  unfold loadConfig at hload
  dsimp only at hload
  obtain ⟨constants, -, hload⟩ := (bind_eq_ok_iff _ _ _).mp hload
  obtain ⟨s, hsection, hload⟩ := (bind_eq_ok_iff _ _ _).mp hload
  obtain ⟨channels, -, ⟨⟩⟩ := (bind_eq_ok_iff _ _ _).mp hload
  have hfresh := PredicateState.fresh_ordered p constants.draws
  have hcall : (PredicateState.fresh p constants.draws).call p (some constants.ht)
      (.loadSection (p.library.getMember configRoot "predicates")) = .ok s := hsection
  have hordered : s.Ordered := hfresh.call hcall
  exact ⟨hordered.children, hordered.names⟩

/-- The names before the loop over the nodes. -/
def NodesState.start (p : ProgramPlatform Setting) (predicates : EventPredicateList) (draws : Nat) :
    NodesState :=
  match hashTableInitImpl p.members draws with
  | (ht, draws) => ⟨[], ⟨ht, draws⟩, predicates⟩

theorem createNodes_created {registry : TableState String (Option NodeType)}
    {predicates : EventPredicateList} {draws draws' : Nat} {configs : List (GraphNodeConfig Setting)}
    {s : NodesState} (hmodules : HoldsModules p.modules registry)
    (hload : loadConfig p.config (some configRoot) [] draws =
      .ok (some (config, predicates, draws')))
    (hcreate : configs.foldlM (createNode p registry.ht config) (.start p predicates draws') = .ok s) :
    NodesCreated p configRoot config predicates configs s := by
  have hstart : NodesCreated p configRoot config predicates [] (.start p predicates draws') :=
    ⟨.nil, fun _ hnode => (nomatch hnode), fun _ _ hnode => (nomatch hnode),
      fun _ hnode => (nomatch hnode), fun _ hnode => (nomatch hnode), emptyNames_holds p.members draws',
      loadConfig_ordered hload, List.prefix_rfl⟩
  have hcreated := foldlM_simulates (g := fun configs config => configs ++ [config])
    (fun _ _ _ _ hcreated hcreate =>
      hcreated.create hmodules (fun hroom => loadConfig_environment hload hroom) hcreate) hstart hcreate
  have hall : configs.foldl (fun configs config => configs ++ [config]) [] = configs := by
    rw [List.foldl_append_eq_append, List.nil_append, ← List.flatMap_def, List.flatMap_singleton']
  rw [hall] at hcreated
  exact hcreated

/-- The world that `main` makes of its nodes and channels. -/
def startedWorld (m : GraphMemory) (predicates : EventPredicateList) (draws : Nat) : World where
  events := ⟨[], 0⟩
  nodes := m.nodes.reduceOption
  channels := m.channels.reduceOption
  predicates := predicates
  deliveries := []
  draws := draws
  log := []

/-- The stages of a start that succeeds. -/
theorem startProgram_cases {program : StartedProgram}
    (h : startProgram p (some configRoot) = .ok program) :
    ∃ registry config predicates draws s m lists,
      registerModules p.config p.modules = .ok registry ∧
      loadConfig p.config (some configRoot) [] registry.draws =
        .ok (some (config, predicates, draws)) ∧
      NodesCreated p configRoot config predicates config.nodes s ∧
      ChannelsCreated p config.nodes (unconnectedMemory s.nodes config.channels) config.channels
        (config.channels.length, m) ∧ lists.Holds (registerIo s.nodes) ∧
      program = ⟨startedWorld m s.predicates s.names.draws, registerIo s.nodes, lists⟩ := by
  obtain ⟨registry, hregistry, h⟩ := (bind_eq_ok_iff _ _ _).mp h
  obtain ⟨loaded, hload, h⟩ := (bind_eq_ok_iff _ _ _).mp h
  rw [orCrash_eq_ok_iff] at hregistry hload
  cases loaded with
  | none => cases h
  | some loaded =>
      obtain ⟨config, predicates, draws⟩ := loaded
      obtain ⟨s, hnodes, h⟩ := (bind_eq_ok_iff _ _ _).mp h
      obtain ⟨⟨i, m⟩, hchannels, h⟩ := (bind_eq_ok_iff _ _ _).mp h
      obtain ⟨waitInput, hregister, ⟨⟩⟩ := (bind_eq_ok_iff _ _ _).mp h
      have hcreated := createNodes_created (registerModules_holds hregistry) hload hnodes
      -- the loop over the channels
      have hlength : s.nodes.length = config.nodes.length := hcreated.nodes.length_eq.symm
      have hmemory : (unconnectedMemory s.nodes config.channels).channels.length =
          config.channels.length := List.length_map _
      have hzeroed : ChannelsCreated p config.nodes (unconnectedMemory s.nodes config.channels) []
          (0, unconnectedMemory s.nodes config.channels) := by
        refine ⟨rfl, ⟨[], .nil _, rfl⟩, .refl _, fun c _ hlt => ?_, by simp⟩
        show (config.channels.map fun _ => none)[c]? = some none
        rw [List.getElem?_map, List.getElem?_eq_getElem (hmemory ▸ hlt)]
        rfl
      have hconnected := hzeroed.create_all hcreated.names
        (unconnectedMemory_fresh s.nodes config.channels)
        (unconnectedMemory_short s.nodes config.channels)
        (fun n hn => live_unconnectedMemory (by omega))
        (by rw [hmemory, List.length_nil, Nat.zero_add]) hchannels
      rw [List.nil_append] at hconnected
      obtain rfl : i = config.channels.length := hconnected.count
      -- the subscriptions
      rw [orExit_eq_ok_iff] at hregister
      have hlists : WaitLists.Holds ⟨waitInput, ioSubscriptionListInit p.arrays 5⟩ (registerIo s.nodes) :=
        ⟨registerNodes_eq_ok hregister, ioSubscriptionListInit_holds p.arrays 5⟩
      exact ⟨registry, config, predicates, draws, s, m, _, hregistry, hload, hcreated, hconnected, hlists,
        rfl⟩

theorem ChannelsCreated.kinds {i : Nat}
    (h : ChannelsCreated p config.nodes (unconnectedMemory created config.channels) config.channels
      (i, m)) : m.nodes.reduceOption.map GraphNode.kind = created.map CreatedNode.kind := by
  have hkinds := congrArg (List.map GraphNode.kind) h.nodes.2
  rw [List.map_map, List.map_map] at hkinds
  exact hkinds

theorem ChannelsCreated.configured {i : Nat} {s : NodesState} {predicates : EventPredicateList}
    (h : ChannelsCreated p config.nodes (unconnectedMemory s.nodes config.channels) config.channels
      (i, m)) (hcreated : NodesCreated p configRoot config predicates config.nodes s) (draws : Nat) :
    (startedWorld m s.predicates draws).Configured p configRoot config := by
  have hlength : s.nodes.length = config.nodes.length := hcreated.nodes.length_eq.symm
  have hlive := h.nodes.1
  have hkinds := h.kinds
  obtain ⟨hinitialised, hconnectors, hends⟩ := h.ends hlength
  have hcount : m.nodes.reduceOption.length = s.nodes.length := by
    have hcount := congrArg List.length hkinds
    rw [List.length_map, List.length_map] at hcount
    exact hcount
  constructor
  · have hfollows := List.forall₂_map_right_iff.mpr hcreated.nodes
    rw [← hkinds] at hfollows
    exact List.forall₂_map_right_iff.mp hfollows
  · have hall := congrArg List.length (reduceOption_map_some hinitialised)
    rw [List.length_map] at hall
    exact hall.symm.trans (h.shape.channels.trans (List.length_map _))
  · intro n node hnode side i
    exact hconnectors n node ((getElem?_reduceOption hlive n node).mp hnode) side i
  · intro c channelConfig hc
    obtain ⟨channel, hchannel, hsides⟩ := hends c channelConfig hc
    refine ⟨channel, (getElem?_reduceOption hinitialised c channel).mpr hchannel, fun side => ?_⟩
    obtain ⟨n, hn, hconnector, hnode⟩ := hsides side
    exact ⟨n, hcount ▸ hn, hconnector, hnode⟩
  · exact hcreated.ordered.children

/-- The configuration that `load_config` reads. -/
def LoadedFrom (p : ProgramPlatform Setting) (configRoot : Setting) (config : FullConfig Setting) : Prop :=
  ∃ (registry : TableState String (Option NodeType)) (predicates : EventPredicateList) (draws : Nat),
    registerModules p.config p.modules = .ok registry ∧
    loadConfig p.config (some configRoot) [] registry.draws = .ok (some (config, predicates, draws))

theorem startProgram_configured {program : StartedProgram}
    (hstart : startProgram p (some configRoot) = .ok program) :
    ∃ config, LoadedFrom p configRoot config ∧ program.world.Configured p configRoot config ∧
      program.world.events.nodes = [] := by
  obtain ⟨registry, config, predicates, draws, s, m, lists, hregistry, hload, hcreated, hconnected, -,
    rfl⟩ := startProgram_cases hstart
  exact ⟨config, ⟨registry, predicates, draws, hregistry, hload⟩,
    hconnected.configured hcreated s.names.draws, rfl⟩

/-- The sources are subscribed in the order of the nodes. -/
theorem registerIo_nodes {created : List CreatedNode} {nodes : List GraphNode}
    (hkinds : nodes.map GraphNode.kind = created.map CreatedNode.kind)
    (hsubscribed : ∀ node ∈ created, node.fd.isSome = !node.kind.type.hasHandler) :
    (registerIo created).map Prod.snd =
      (nodes.zipIdx.filter fun entry => !entry.1.kind.type.hasHandler).map Prod.snd := by
  have hfrom : ∀ (start : Nat) (nodes : List GraphNode),
      nodes.map GraphNode.kind = created.map CreatedNode.kind →
      ((created.zipIdx start).filterMap fun entry => entry.1.fd.map fun fd => (fd, entry.2)).map
        Prod.snd =
      ((nodes.zipIdx start).filter fun entry => !entry.1.kind.type.hasHandler).map Prod.snd := by
    clear hkinds nodes
    induction created with
    | nil =>
        intro start nodes hkinds
        rw [List.map_eq_nil_iff.mp hkinds]
        rfl
    | cons node created ih =>
        intro start nodes hkinds
        obtain ⟨other, nodes, rfl⟩ : ∃ other rest, nodes = other :: rest := by
          cases nodes with
          | nil => cases hkinds
          | cons other rest => exact ⟨other, rest, rfl⟩
        rw [List.map_cons, List.map_cons, List.cons.injEq] at hkinds
        obtain ⟨hkind, hkinds⟩ := hkinds
        have hrest := ih (fun node hnode => hsubscribed node (List.mem_cons_of_mem _ hnode)) (start + 1)
          nodes hkinds
        have hnode := hsubscribed node List.mem_cons_self
        rw [List.zipIdx_cons, List.zipIdx_cons, List.filterMap_cons, List.filter_cons, hkind, ← hnode]
        dsimp only
        cases node.fd with
        | none => exact hrest
        | some fd => exact congrArg (start :: ·) hrest
  exact hfrom 0 nodes hkinds

end

/-- A program that starts is the one of its configuration: each node has the type of its entry and the
state that the options describe, each connector the last channel that is configured for it between
the last nodes of two names, and the sources wait for input.  No event is there yet. -/
theorem start_program_builds_configuration {p : ProgramPlatform Setting} {configRoot : Setting}
    {program : StartedProgram} (hstart : startProgram p (some configRoot) = .ok program) :
    ∃ registry config predicates draws, registerModules p.config p.modules = .ok registry ∧
      loadConfig p.config (some configRoot) [] registry.draws =
        .ok (some (config, predicates, draws)) ∧
      predicates <+: program.world.predicates ∧ program.world.Configured p configRoot config ∧
      program.world.events.nodes = [] ∧
      program.sources.map Prod.snd =
        (program.world.nodes.zipIdx.filter fun entry => !entry.1.kind.type.hasHandler).map Prod.snd := by
  obtain ⟨registry, config, predicates, draws, s, m, lists, hregistry, hload, hcreated, hconnected, -,
    rfl⟩ := startProgram_cases hstart
  exact ⟨registry, config, predicates, draws, hregistry, hload, hcreated.grows,
    hconnected.configured hcreated s.names.draws, rfl,
    registerIo_nodes hconnected.kinds hcreated.subscribed⟩

/-- A program with all modules and without devices, on settings that are trees. -/
def treeProgram : ProgramPlatform SettingTree where
  toPlatform := simplePlatform
  library := SettingTree.library
  eventCodes := []
  modules := linkedModules
  openEvdev _ _ _ := none
  uinputCreated _ := false
  uninitialised _ := none
  fits _ := true
  arrays := wholeMemory

def SettingTree.connector (node : String) (i : Int64) : SettingTree :=
  .list none [.string none node, .int none i]

/-- Bytes from the standard input go to the first output of `pick` below 100, and to the second one
anyway; the first channel to that output is replaced by the last. -/
def pickingConfig : SettingTree :=
  .group none
    [.group (some "nodes")
      [.group (some "in") [.string (some "type") "getchar"],
        .group (some "pick")
          [.string (some "type") "router",
            .group (some "options")
              [.list (some "predicates")
                [.group none [.string (some "type") "payload", .int (some "max") 99],
                  .group none [.string (some "type") "accept"]]]],
        .group (some "out") [.string (some "type") "print"]],
      .list (some "channels")
        [.list none [.connector "in" 0, .connector "pick" 0],
          .list none [.connector "pick" 0, .connector "out" 0],
          .list none [.connector "pick" 1, .connector "out" 1],
          .list none [.connector "pick" 0, .connector "out" 2]]]

def pickingWorld : World where
  events := ⟨[], 0⟩
  nodes :=
    [⟨false, [], [some 0], .getchar ⟨true, 0⟩⟩,
      ⟨false, [some 0], [some 3, some 2], .router ⟨[0, 1]⟩⟩,
      ⟨false, [some 1, some 2, some 3], [], .print⟩]
  channels :=
    [⟨false, some 0, some 1, 0, 0⟩, ⟨false, none, some 2, 0, 0⟩, ⟨false, some 1, some 2, 1, 1⟩,
      ⟨false, some 1, some 2, 0, 2⟩]
  predicates := [⟨.range .payload Int64.minValue 99, true, false⟩, ⟨.accept, true, false⟩]
  deliveries := []
  draws := 4
  log := []

/-- The source of number 0 is subscribed to the standard input. -/
def inputSubscribed : WaitLists where
  waitInput :=
    ⟨1, 5, [some 0, some 0, some 0, some 0, some 0],
      [some (some 0), some none, some none, some none, some none]⟩
  waitOutput := ioSubscriptionListInit wholeMemory 5

theorem picking_starts :
    startProgram treeProgram (some pickingConfig) = .ok ⟨pickingWorld, [(0, 0)], inputSubscribed⟩ := by
  decide +kernel

theorem start_program_builds_configuration_picking :
    ∃ (config : FullConfig SettingTree) (predicates : EventPredicateList),
      predicates <+: pickingWorld.predicates ∧
      pickingWorld.Configured treeProgram pickingConfig config ∧ config.nodes.length = 3 ∧
      lastChannel config .start (1, 0) = some 3 := by
  obtain ⟨_, config, predicates, _, -, -, hgrows, hconfigured, -, -⟩ :=
    start_program_builds_configuration picking_starts
  exact ⟨config, predicates, hgrows, hconfigured, hconfigured.nodes.length_eq,
    (hconfigured.connectors 1 _ rfl .start 0).symm⟩

end EventSeq
