import EventSeq.Handlers
import EventSeq.PredicateSemantics

/-!
# What `modify_predicate` changes

Its handler assigns the two flags of its target and nothing else, and the flags depend on the state
before the event only.  A predicate from which the target cannot be reached evaluates as before.
-/

namespace EventSeq

section

variable {predicates predicates' : EventPredicateList} {event : EventNode}

/-! ## Two registries that agree on some handles -/

section

variable {apply apply' : Int → Except Fault EventPredicateResult}

theorem aggregateLoop_congr (disjunction : Bool) {handles : List Int}
    (h : ∀ handle ∈ handles, apply handle = apply' handle) :
    aggregateLoop apply disjunction handles = aggregateLoop apply' disjunction handles := by
  induction handles with
  | nil => rfl
  | cons handle handles ih =>
      simp only [aggregateLoop]
      rw [h handle List.mem_cons_self, ih fun child hchild => h child (List.mem_cons_of_mem _ hchild)]

theorem baseCondition_congr (type : EventPredicateType)
    (h : ∀ handle ∈ type.handles, apply handle = apply' handle) :
    baseCondition apply event type = baseCondition apply' event type := by
  cases type with
  | conjunction handles | disjunction handles =>
      cases handles with
      | none => rfl
      | some handles =>
          have h' : ∀ handle ∈ handles, apply handle = apply' handle := h
          simp only [baseCondition, aggregateLoop_congr _ h']
  | _ => rfl

end

/-- A predicate evaluates alike in two registries that agree on a set of handles which contains it
and, with an aggregate, its arguments. -/
theorem eventPredicateApplyFrom_frame (agree : Int → Prop)
    (hclosed : ∀ child parent, ArgumentOf predicates child parent → agree parent → agree child)
    (hsame : ∀ handle, agree handle →
      eventPredicateGetPtr predicates' handle = eventPredicateGetPtr predicates handle)
    (event : EventNode) (depth : Nat) {handle : Int} (hagree : agree handle) :
    eventPredicateApplyFrom predicates' event depth handle =
      eventPredicateApplyFrom predicates event depth handle := by
  induction depth generalizing handle with
  | zero => rfl
  | succ depth ih =>
      simp only [eventPredicateApplyFrom]
      rw [hsame handle hagree]
      cases hptr : eventPredicateGetPtr predicates handle with
      | none => rfl
      | some ptr =>
          have hbase : baseCondition (eventPredicateApplyFrom predicates' event depth) event ptr.type =
              baseCondition (eventPredicateApplyFrom predicates event depth) event ptr.type := by
            apply baseCondition_congr
            intro child hchild
            exact ih (hclosed child handle ⟨ptr, hptr, hchild⟩ hagree)
          simp only [hbase]

/-! ## Assignments to one predicate -/

theorem getPtr_assign_of_ne {handle target : Int} (hne : handle ≠ target)
    (f : EventPredicate → EventPredicate) :
    eventPredicateGetPtr (eventPredicateAssign predicates target f) handle =
      eventPredicateGetPtr predicates handle := by
  unfold eventPredicateGetPtr eventPredicateAssign
  split
  · rfl
  · split
    · rfl
    · rw [List.getElem?_modify]
      simp only [show target.toNat ≠ handle.toNat by omega, if_false]
      exact Option.map_id_apply

theorem getPtr_assign_self (target : Int) (f : EventPredicate → EventPredicate) :
    eventPredicateGetPtr (eventPredicateAssign predicates target f) target =
      (eventPredicateGetPtr predicates target).map f := by
  unfold eventPredicateGetPtr eventPredicateAssign
  split
  · rfl
  · rw [List.getElem?_modify]
    simp

/-- An assignment that depends on a flag of the handler. -/
theorem getPtr_assign_if (b : Bool) (target handle : Int) (f : EventPredicate → EventPredicate) :
    eventPredicateGetPtr (if b then eventPredicateAssign predicates target f else predicates) handle =
      if handle = target then (eventPredicateGetPtr predicates handle).map fun ptr =>
        if b then f ptr else ptr
      else eventPredicateGetPtr predicates handle := by
  cases b with
  | false => simp
  | true =>
      by_cases htarget : handle = target
      · subst htarget
        simpa using getPtr_assign_self handle f
      · simpa [htarget] using getPtr_assign_of_ne htarget f

theorem assign_if_length (b : Bool) (target : Int) (f : EventPredicate → EventPredicate) :
    (if b then eventPredicateAssign predicates target f else predicates).length =
      predicates.length := by
  split
  · exact eventPredicateAssign_length predicates target f
  · rfl

/-- The flags after the four assignments of the handler. -/
def PredicateChanges.flags (changes : PredicateChanges) (ptr : EventPredicate) : EventPredicate :=
  { ptr with
    enabled := !changes.shouldDisable && (changes.shouldEnable || ptr.enabled)
    inverted := !changes.shouldUninvert && (changes.shouldInvert || ptr.inverted) }

theorem PredicateChanges.apply_length (changes : PredicateChanges) (target : Int)
    (predicates : EventPredicateList) :
    (changes.apply target predicates).length = predicates.length := by
  simp only [PredicateChanges.apply, eventPredicateSetEnabled, eventPredicateSetInverted]
  rw [assign_if_length, assign_if_length, assign_if_length, assign_if_length]

/-- The four assignments are one. -/
theorem PredicateChanges.getPtr_apply (changes : PredicateChanges) (target handle : Int)
    (predicates : EventPredicateList) :
    eventPredicateGetPtr (changes.apply target predicates) handle =
      if handle = target then (eventPredicateGetPtr predicates handle).map changes.flags
      else eventPredicateGetPtr predicates handle := by
  -- Each assignment is a map over the one entry, and the four maps compose to one.
  obtain ⟨enable, disable, invert, uninvert⟩ := changes
  simp only [PredicateChanges.apply, eventPredicateSetEnabled, eventPredicateSetInverted]
  rw [getPtr_assign_if, getPtr_assign_if, getPtr_assign_if, getPtr_assign_if]
  split
  · rw [Option.map_map, Option.map_map, Option.map_map]
    congr 1
    funext ptr
    cases enable <;> cases disable <;> cases invert <;> cases uninvert <;> rfl
  · rfl

end

/-! ## The handler -/

/-- The target after the handler, from its state and the four conditions before it. -/
def modifiedFlags (predicates : EventPredicateList) (node : ModifyPredicateGraphNode)
    (event : EventNode) (ptr : EventPredicate) : EventPredicate :=
  let accepts handle := decide (eventPredicateApply predicates handle event = .ok .accepted)
  { ptr with
    enabled := if ptr.enabled then !accepts node.disableOn else accepts node.enableOn
    inverted := if ptr.inverted then !accepts node.uninvertOn else accepts node.invertOn }

/-- The handler evaluates its conditions before it writes. -/
theorem modifyPredicateUpdate_eq {predicates : EventPredicateList} (hacyclic : NoCycles predicates)
    (node : ModifyPredicateGraphNode) (e : EventNode) :
    ∃ predicates', modifyPredicateUpdate node predicates e = .ok predicates' ∧
      predicates'.length = predicates.length ∧
      ∀ handle, eventPredicateGetPtr predicates' handle =
        if handle = node.target then
          (eventPredicateGetPtr predicates handle).map (modifiedFlags predicates node e)
        else eventPredicateGetPtr predicates handle := by
  have haccepts : ∀ handle, eventPredicateAccepts predicates e handle =
      .ok (decide (eventPredicateApply predicates handle e = .ok .accepted)) := by
    intro handle
    obtain ⟨res, hres⟩ := eventPredicateApply_returns hacyclic e handle
    exact eventPredicateAccepts_eq hres
  -- All four conditions are evaluated in the old registry.
  simp only [modifyPredicateUpdate, predicateChanges, haccepts, bind, Except.bind]
  refine ⟨_, rfl, PredicateChanges.apply_length _ _ _, fun handle => ?_⟩
  rw [PredicateChanges.getPtr_apply]
  split
  · rename_i htarget
    subst htarget
    cases hptr : eventPredicateGetPtr predicates node.target with
    | none => rfl
    | some ptr =>
        have hget : eventPredicateGet predicates node.target = ptr := by
          rw [eventPredicateGet, hptr, Option.getD_some]
        rw [hget, Option.map_some, Option.map_some]
        simp only [PredicateChanges.flags, modifiedFlags]
        cases ptr.enabled <;> cases ptr.inverted <;> simp
  · rfl

/-- A `modify_predicate` node sets the flags of its target by the conditions evaluated before the
event, and no predicate from which the target cannot be reached evaluates differently afterwards. -/
theorem modify_predicate_touches_target (P : Platform) {w : World} {n : Nat} {node : GraphNode}
    {modify : ModifyPredicateGraphNode} {e : EventNode} {pre post : List EventNode}
    (hacyclic : NoCycles w.predicates) (hw : w.SplitAt pre e post) (hnode : w.nodes[n]? = some node)
    (hkind : node.kind = .modifyPredicate modify) :
    ∃ predicates',
      nodeHandleEvent P w n e.addr = .ok (true, { w with
        predicates := predicates', events := ⟨pre ++ post, w.events.mallocs⟩ }) ∧
      eventPredicateGetPtr predicates' modify.target =
        (eventPredicateGetPtr w.predicates modify.target).map (modifiedFlags w.predicates modify e) ∧
      (∀ handle, handle ≠ modify.target →
        eventPredicateGetPtr predicates' handle = eventPredicateGetPtr w.predicates handle) ∧
      ∀ handle, ¬Relation.ReflTransGen (ArgumentOf w.predicates) modify.target handle →
        ∀ event, eventPredicateApply predicates' handle event =
          eventPredicateApply w.predicates handle event := by
  obtain ⟨predicates', hupdate, hlength, hget⟩ := modifyPredicateUpdate_eq hacyclic modify e
  refine ⟨predicates', ?_, ?_, ?_, ?_⟩
  · have hw' : { w with predicates := predicates' }.SplitAt pre e post := ⟨hw.nodes, hw.nodup⟩
    simp only [nodeHandleEvent, World.node_eq hnode, hkind, modifyPredicateHandleEvent,
      World.lookup_eq hw, hupdate, bind, Except.bind, (World.destroyEvent_eq hw').1,
      List.nil_append]
  · rw [hget, if_pos rfl]
  · intro handle hne
    rw [hget, if_neg hne]
  · intro handle hunreached event
    rw [eventPredicateApply, eventPredicateApply, hlength]
    -- The handles that do not reach the target are closed under arguments.
    refine eventPredicateApplyFrom_frame
      (fun h => ¬Relation.ReflTransGen (ArgumentOf w.predicates) modify.target h)
      ?_ ?_ event _ hunreached
    · intro child parent hargument hparent hchild
      exact hparent (hchild.tail hargument)
    · intro h hh
      have hne : h ≠ modify.target := by
        rintro rfl
        exact hh .refl
      rw [hget, if_neg hne]

/-- The target is an argument of its own condition, and the first predicate is not above it. -/
def modifyPredicates : EventPredicateList :=
  [⟨.accept, true, false⟩, ⟨.accept, true, true⟩, ⟨.disjunction (some [0, 1]), true, false⟩]

def modifyNode : GraphNode where
  waitingNewEvent := false
  inputs := []
  outputs := []
  kind := .modifyPredicate
    { target := 1, enableOn := -1, disableOn := -1, invertOn := 2, uninvertOn := 2 }

def modifyWorld : World where
  events := ⟨[⟨7, some (.node 0), 0, default⟩], 0⟩
  nodes := [modifyNode]
  channels := []
  predicates := modifyPredicates
  deliveries := []
  draws := 0
  log := []

theorem modify_predicate_touches_target_uninverts :
    ∃ predicates',
      nodeHandleEvent simplePlatform modifyWorld 0 7 =
        .ok (true, { modifyWorld with predicates := predicates', events := ⟨[], 0⟩ }) ∧
      eventPredicateGetPtr predicates' 1 = some ⟨.accept, true, false⟩ ∧
      ∀ event, eventPredicateApply predicates' 0 event = eventPredicateApply modifyPredicates 0 event := by
  have hacyclic : Acyclic modifyPredicates := by decide
  have hw : modifyWorld.SplitAt [] ⟨7, some (.node 0), 0, default⟩ [] := ⟨rfl, by decide⟩
  have hnode : modifyWorld.nodes[0]? = some modifyNode := rfl
  obtain ⟨predicates', hrun, htarget, -, hframe⟩ :=
    modify_predicate_touches_target simplePlatform hacyclic.noCycles hw hnode rfl
  refine ⟨predicates', hrun, htarget.trans rfl, hframe 0 ?_⟩
  -- The first predicate has no arguments, so only itself is reached from it.
  intro hreach
  rcases hreach.cases_tail with heq | ⟨_, _, ptr, hptr, hmem⟩
  · cases heq
  · cases hptr
    cases hmem

end EventSeq
