import EventSeq.Configured
import EventSeq.FanOut
import EventSeq.StartupGraph

/-!
# Routing as configured

A router of a running program, described by the configuration alone: the conditions that are written
for its outputs, and the channels that are written for them.
-/

namespace EventSeq

open Lib

variable {Setting : Type}

/-- The channels that the configuration sends an event to that comes to a router: of those outputs
whose conditions it meets, the last ones that are written. -/
def configuredRoute (p : ConfigPlatform Setting) (configRoot : Setting) (config : FullConfig Setting)
    (n : Nat) (conditions : List (Option Setting)) (e : EventNode) : List Nat :=
  conditions.zipIdx.filterMap fun entry =>
    if (configMeaning p configRoot entry.1).getD .disabled e = .accepted then
      lastChannel config .start (n, entry.2)
    else none

theorem copiesFor_eq_map (outputs : List (Option Nat)) (data : EventData) :
    copiesFor outputs data = outputs.reduceOption.map fun c => (some (.channel c), data) := by
  induction outputs with
  | nil => rfl
  | cons output outputs ih =>
      cases output with
      | none => exact ih
      | some c =>
          rw [List.reduceOption_cons_of_some, List.map_cons, ← ih]
          rfl

section

variable {predicates : EventPredicateList} {meaning : Option Setting → Option PredicateMeaning}
  {handles : List Int} {conditions : List (Option Setting)} {e : EventNode}

/-- The outputs beyond the list of connectors have no channel, and the connectors beyond the list of
conditions are never chosen. -/
theorem acceptedConnectors_compiled
    (h : List.Forall₂ (fun handle condition => Compiles predicates handle (meaning condition)) handles
      conditions) (start : Nat) (channelAt : Nat → Option Nat) (outputs : List (Option Nat))
    (houtputs : ∀ i, (outputs[i]?).join = channelAt (start + i)) :
    (acceptedConnectors predicates handles outputs e).reduceOption =
      (conditions.zipIdx start).filterMap fun entry =>
        if (meaning entry.1).getD .disabled e = .accepted then channelAt entry.2 else none := by
  induction h generalizing start outputs with
  | nil => rfl
  | @cons handle condition handles conditions hhead htail ih =>
      have hfirst := houtputs 0
      rw [Nat.add_zero] at hfirst
      have haccepts : eventPredicateApply predicates handle e = .ok .accepted ↔
          (meaning condition).getD .disabled e = .accepted := by
        rw [hhead.apply e, Except.ok.injEq]
      rw [List.zipIdx_cons, List.filterMap_cons, ← hfirst]
      cases outputs with
      | nil =>
          -- no connector is left for this condition, nor for any other
          have hrest := ih (start + 1) [] fun i => by
            rw [Nat.add_right_comm, Nat.add_assoc, ← houtputs (i + 1)]
            rfl
          have hnil : acceptedConnectors predicates handles [] e = [] := by
            rw [acceptedConnectors, List.zip_nil_right]
            rfl
          rw [hnil] at hrest
          rw [← hrest, acceptedConnectors, List.zip_nil_right]
          simp
      | cons output outputs =>
          have hrest := ih (start + 1) outputs fun i => by
            rw [Nat.add_right_comm, Nat.add_assoc, ← houtputs (i + 1)]
            rfl
          rw [← hrest]
          unfold acceptedConnectors
          rw [List.zip_cons_cons, List.filter_cons]
          by_cases haccepted : eventPredicateApply predicates handle e = .ok .accepted
          · rw [if_pos (decide_eq_true haccepted), if_pos (haccepts.mp haccepted), List.map_cons]
            cases output with
            | none => rfl
            | some c => rfl
          · rw [if_neg (by simpa using haccepted), if_neg fun hmeets => haccepted (haccepts.mpr hmeets)]

end

section

variable {w w' : World} {n : Nat} {node : GraphNode}

theorem World.SameConfiguration.getElem? (h : w.SameConfiguration w') (hnode : w.nodes[n]? = some node) :
    ∃ node', w'.nodes[n]? = some node' ∧ node'.configured = node.configured := by
  have hmap := congrArg (·[n]?) h.nodes
  simp only [List.getElem?_map, hnode, Option.map_some] at hmap
  obtain ⟨node', hnode', heq⟩ := Option.map_eq_some_iff.mp hmap
  exact ⟨node', hnode', heq⟩

/-- All of a router is configured but its flag. -/
theorem configured_router {node' : GraphNode} {router : RouterGraphNode}
    (h : node'.configured = node.configured) (hkind : node.kind = .router router) :
    node'.kind = .router router ∧ node'.outputs = node.outputs := by
  unfold GraphNode.configured at h
  obtain ⟨-, -, houtputs, hconfigured⟩ := GraphNode.mk.inj h
  refine ⟨?_, houtputs⟩
  rw [hkind] at hconfigured
  cases hkind' : node'.kind with
  | router router' =>
      rw [hkind'] at hconfigured
      exact hconfigured
  | _ =>
      rw [hkind'] at hconfigured
      cases hconfigured

theorem forall₂_of_mem {α β : Type} {R S : α → β → Prop} {l : List α} {l' : List β}
    (h : List.Forall₂ R l l') (himp : ∀ x y, x ∈ l → R x y → S x y) : List.Forall₂ S l l' := by
  induction h with
  | nil => exact .nil
  | cons hhead _ ih =>
      exact .cons (himp _ _ List.mem_cons_self hhead)
        (ih fun x y hx => himp x y (List.mem_cons_of_mem _ hx))

/-- A handle that decides as before has the meaning it had. -/
theorem Compiles.congr {predicates predicates' : EventPredicateList} {handle : Int}
    {defined : Option PredicateMeaning} (h : Compiles predicates handle defined)
    (hlength : predicates'.length = predicates.length)
    (happly : ∀ event, eventPredicateApply predicates' handle event =
      eventPredicateApply predicates handle event) : Compiles predicates' handle defined := by
  cases defined with
  | none => exact h
  | some meaning =>
      refine ⟨hlength ▸ h.1, fun event => ?_⟩
      rw [happly]
      exact h.2 event

theorem related_at {α β : Type} {R : α → β → Prop} {l : List α} {l' : List β} {i : Nat} {y : β}
    (h : List.Forall₂ R l l') (hy : l'[i]? = some y) : ∃ x, l[i]? = some x ∧ R x y := by
  obtain ⟨hlt, rfl⟩ := List.getElem?_eq_some_iff.mp hy
  have hlt' : i < l.length := h.length_eq ▸ hlt
  exact ⟨l[i], List.getElem?_eq_getElem hlt', h.get hlt' hlt⟩

end

/-- In every state that a program reaches from its start, a router replaces an event, in place, by one
copy for each output whose configured condition the event meets and that the configuration connects,
as long as no `modify_predicate` node has one of the conditions, or a part of it, as its target. -/
theorem running_router_follows_configuration {p : ProgramPlatform Setting} {configRoot : Setting}
    {program : StartedProgram} {w : World} {τ : List SystemTransition} {n : Nat} {node : GraphNode}
    {router : RouterGraphNode} {e : EventNode} {pre post : List EventNode}
    (hstart : startProgram p (some configRoot) = .ok program)
    (hroom : program.world.predicates.length < int32Max) (hA : p.allocator.Succeeds)
    (hnode : program.world.nodes[n]? = some node) (hkind : node.kind = .router router)
    (hfixed : ∀ other ∈ program.world.nodes, ∀ target, other.kind.target = some target →
      ∀ handle ∈ router.predicates,
        ¬Relation.ReflTransGen (ArgumentOf program.world.predicates) target handle)
    (hrun : Run (SystemMove p.toPlatform) program.world τ w) (hw : w.SplitAt pre e post) :
    ∃ (config : FullConfig Setting) (nodeConfig : GraphNodeConfig Setting) (conditions : Setting)
      (outs : List EventNode) (mallocs : Nat),
      LoadedFrom p configRoot config ∧ config.nodes[n]? = some nodeConfig ∧
      nodeConfig.type = some "router" ∧
      nodeOption p.config nodeConfig.options "predicates" = some conditions ∧
      nodeHandleEvent p.toPlatform w n e.addr =
        .ok (true, { w with events := ⟨pre ++ (outs ++ post), mallocs⟩ }) ∧
      outs.map EventNode.placed =
        (configuredRoute p.config configRoot config n (p.library.elems conditions) e).map
          fun c => (some (.channel c), e.data) := by
  obtain ⟨config, hloaded, hconfigured, hempty⟩ := startProgram_configured hstart
  obtain ⟨-, hsame⟩ := sameConfiguration_of_run hrun (by simp [EventList.addrs, hempty])
  -- what the configuration says about the node
  obtain ⟨nodeConfig, hnodeConfig, hfollows⟩ := related_at hconfigured.nodes hnode
  obtain ⟨-, htype⟩ := hfollows.type
  have hfollows := hfollows.follows hroom
  rw [hkind] at htype hfollows
  obtain ⟨conditions, hconditions, hcompiles⟩ := hfollows
  -- the node in the state that is reached
  obtain ⟨node', hnode', hnodeSame⟩ := hsame.getElem? hnode
  obtain ⟨hkind', houtputs⟩ := configured_router hnodeSame hkind
  have happly : ∀ handle ∈ router.predicates, ∀ event,
      eventPredicateApply w.predicates handle event =
        eventPredicateApply program.world.predicates handle event := by
    intro handle hhandle event
    apply hsame.predicates.apply
    rintro target ⟨other, hother, htarget⟩
    exact hfixed other hother target htarget handle hhandle
  have hlast : ∀ i, (node'.outputs[i]?).join = lastChannel config .start (n, i) := by
    intro i
    rw [houtputs]
    exact hconfigured.connectors n node hnode .start i
  have hcompiles' : List.Forall₂ (fun handle condition => Compiles w.predicates handle
      (configMeaning p.config configRoot condition)) router.predicates (p.library.elems conditions) := by
    apply forall₂_of_mem hcompiles
    intro handle condition hhandle hcompiles
    exact hcompiles.congr hsame.predicates.length (happly handle hhandle)
  obtain ⟨outs, mallocs, hrouted, -, hplaced⟩ :=
    nodeHandleEvent_router p.toPlatform hA hw hnode' hkind'
    fun q hq => by
      obtain ⟨condition, -, hcompiles⟩ := exists_related hcompiles' (List.of_mem_zip hq).1
      exact ⟨_, hcompiles.apply e⟩
  refine ⟨config, nodeConfig, conditions, outs, mallocs, hloaded, hnodeConfig, htype, hconditions, hrouted, ?_⟩
  rw [hplaced, copiesFor_eq_map, acceptedConnectors_compiled hcompiles' 0
    (fun i => lastChannel config .start (n, i)) node'.outputs fun i => by rw [hlast i, Nat.zero_add]]
  rfl

/-- A byte is read and comes to the router. -/
theorem picking_reaches (b : UInt8) :
    ∃ τ w e, Run (SystemMove treeProgram.toPlatform) pickingWorld τ w ∧ w.SplitAt [] e [] ∧
      e.data.payload = Int64.ofNat b.toNat := by
  obtain ⟨w₁, w₂, e₁, e₂, hread, he₁, hp₁, hdeliver, hw₂, hpayload⟩ :
      ∃ w₁ w₂ e₁ e₂, handleIo treeProgram.toPlatform pickingWorld 0
          (.getchar ⟨.byte b, ⟨⟨1, 0⟩⟩⟩) = .ok w₁ ∧
        e₁ ∈ w₁.events.nodes ∧ e₁.position = some (.channel 0) ∧
        w₁.handleEvent treeProgram.toPlatform (.channel 0) e₁ = .ok (true, w₂) ∧
        w₂.events.nodes = [e₂] ∧ e₂.data.payload = Int64.ofNat b.toNat :=
    ⟨_, _, _, _, rfl, List.mem_singleton_self _, rfl, rfl, rfl, rfl⟩
  have hsplit : w₂.SplitAt [] e₂ [] := ⟨hw₂, by simp [EventList.addrs, hw₂]⟩
  exact ⟨_, w₂, e₂, .cons ⟨8, .read hread⟩ (.single ⟨8, .handle he₁ hp₁ hdeliver⟩), hsplit, hpayload⟩

theorem running_router_follows_configuration_picking :
    ∃ (τ : List SystemTransition) (w : World) (e : EventNode) (config : FullConfig SettingTree)
      (conditions : SettingTree) (outs : List EventNode),
      Run (SystemMove treeProgram.toPlatform) pickingWorld τ w ∧
      e.data.payload = 97 ∧
      (nodeHandleEvent treeProgram.toPlatform w 1 e.addr).map (fun r => r.2.events.nodes) = .ok outs ∧
      outs.map EventNode.placed =
        (configuredRoute treeProgram.config pickingConfig config 1
          (SettingTree.library.elems conditions) e).map fun c => (some (.channel c), e.data) := by
  obtain ⟨τ, w, e, hrun, hw, hpayload⟩ := picking_reaches 97
  have hfixed : ∀ other ∈ pickingWorld.nodes, other.kind.target = none := by decide
  obtain ⟨config, _, conditions, outs, mallocs, -, -, -, -, hrouted, hplaced⟩ :=
    running_router_follows_configuration picking_starts (by decide) Allocator.next_succeeds
      (n := 1) rfl rfl
      (fun other hother target htarget => by
        rw [hfixed other hother] at htarget
        cases htarget) hrun hw
  refine ⟨τ, w, e, config, conditions, outs, hrun, hpayload, ?_, hplaced⟩
  rw [hrouted]
  simp [Except.map]

end EventSeq
