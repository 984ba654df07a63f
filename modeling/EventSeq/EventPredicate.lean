import EventSeq.Fault
import EventSeq.Events

/-!
# Event predicates (`event_predicate.h`, `event_predicate.c`)

The registry is the array `predicates.values`, and a handle is an integer that indexes it.
Predicates refer to each other by handles; `event_predicate_apply` recurses along them and never
returns on a cycle.  A call that nests deeper than there are predicates has met a handle twice and
is such a call.
-/

namespace EventSeq

/-- The event fields with a range predicate, from `EVPRED_CODE_NS` to `EVPRED_INPUT_INDEX`. -/
inductive RangeField where
  | codeNs
  | codeMajor
  | codeMinor
  | payload
  | inputIndex
deriving DecidableEq, Repr

inductive EventPredicateType where
  | invalid
  | accept
  | range (field : RangeField) (minValue maxValue : Int64)
  | conjunction (handles : Option (List Int))
  | disjunction (handles : Option (List Int))
  | modifier (singleModifier : Modifier)
deriving DecidableEq, Repr

structure EventPredicate where
  type : EventPredicateType
  enabled : Bool
  inverted : Bool
deriving DecidableEq, Repr

inductive EventPredicateResult where
  | disabled
  | rejected
  | accepted
deriving DecidableEq, Repr

abbrev EventPredicateList := List EventPredicate

def int32Max : Int := 2147483647

/-- The array grows as needed; the loop that grows it does not return when memory runs out. -/
def eventPredicateRegister (predicates : EventPredicateList) (predicate : EventPredicate) :
    Int × EventPredicateList :=
  if (predicates.length : Int) ≥ int32Max then (-1, predicates)
  else (predicates.length, predicates ++ [predicate])

def eventPredicateGetPtr (predicates : EventPredicateList) (handle : Int) :
    Option EventPredicate :=
  if handle < 0 then none else predicates[handle.toNat]?

def eventPredicateGet (predicates : EventPredicateList) (handle : Int) :
    EventPredicate :=
  (eventPredicateGetPtr predicates handle).getD ⟨.invalid, false, false⟩

/-- `actual`, widened to 64 bits. -/
def RangeField.actual (event : EventNode) : RangeField → Int64
  | .codeNs => Int64.ofNat event.data.code.ns.toNat
  | .codeMajor => Int64.ofNat event.data.code.major.toNat
  | .codeMinor => Int64.ofNat event.data.code.minor.toNat
  | .payload => event.data.payload
  | .inputIndex => Int64.ofNat event.inputIndex

/-- The loop over the children of a conjunction or a disjunction; disabled ones are passed over. -/
def aggregateLoop (apply : Int → Except Fault EventPredicateResult)
    (disjunction : Bool) : List Int → Except Fault Bool
  | [] => .ok (!disjunction)
  | handle :: handles => do
      match ← apply handle with
      | .disabled => aggregateLoop apply disjunction handles
      | childResult =>
          -- A conjunction stops at a rejected child, a disjunction at an accepted one.
          let shouldStop := childResult == .rejected
          let shouldStop := if disjunction then !shouldStop else shouldStop
          if shouldStop then .ok disjunction else aggregateLoop apply disjunction handles

/-- The value of `accepted` before inversion; `none` where the code returns early. -/
def baseCondition (apply : Int → Except Fault EventPredicateResult)
    (event : EventNode) : EventPredicateType → Except Fault (Option Bool)
  | .invalid => .ok none
  | .accept => .ok (some true)
  | .range field minValue maxValue =>
      let actual := field.actual event
      .ok (some (minValue ≤ actual && actual ≤ maxValue))
  -- The array of handles is a null pointer.
  | .conjunction none | .disjunction none => .ok none
  | .conjunction (some handles) => do .ok (some (← aggregateLoop apply false handles))
  | .disjunction (some handles) => do .ok (some (← aggregateLoop apply true handles))
  | .modifier singleModifier => .ok (some (modifierSetHas event.data.modifiers singleModifier))

/-- `event_predicate_apply` with at most `depth` nested calls. -/
def eventPredicateApplyFrom (predicates : EventPredicateList) (event : EventNode) :
    Nat → Int → Except Fault EventPredicateResult
  | 0, _ => .error .diverges
  | depth + 1, handle =>
      match eventPredicateGetPtr predicates handle with
      | none => .ok .disabled
      | some ptr =>
          if !ptr.enabled then .ok .disabled
          else do
            match ← baseCondition (eventPredicateApplyFrom predicates event depth) event ptr.type with
            | none => .ok .disabled
            | some accepted =>
                let accepted := if ptr.inverted then !accepted else accepted
                .ok (if accepted then .accepted else .rejected)

def eventPredicateApply (predicates : EventPredicateList) (handle : Int)
    (event : EventNode) : Except Fault EventPredicateResult :=
  eventPredicateApplyFrom predicates event (predicates.length + 1) handle

/-- Both setters: an assignment to fields of a registered predicate. -/
def eventPredicateAssign (predicates : EventPredicateList) (handle : Int)
    (f : EventPredicate → EventPredicate) : EventPredicateList :=
  if handle < 0 then predicates else predicates.modify handle.toNat f

theorem eventPredicateAssign_length (predicates : EventPredicateList) (handle : Int)
    (f : EventPredicate → EventPredicate) :
    (eventPredicateAssign predicates handle f).length = predicates.length := by
  unfold eventPredicateAssign
  split
  · rfl
  · exact List.length_modify ..

def eventPredicateSetEnabled (predicates : EventPredicateList) (handle : Int)
    (enabled : Bool) : EventPredicateList :=
  eventPredicateAssign predicates handle fun ptr => { ptr with enabled := enabled }

def eventPredicateSetInverted (predicates : EventPredicateList) (handle : Int)
    (inverted : Bool) : EventPredicateList :=
  eventPredicateAssign predicates handle fun ptr => { ptr with inverted := inverted }

/-! ## Registries without cycles -/

def EventPredicateType.handles : EventPredicateType → List Int
  | .conjunction (some handles) | .disjunction (some handles) => handles
  | _ => []

/-- Every predicate refers to predicates registered before it only, or to none. -/
def Acyclic (predicates : EventPredicateList) : Prop :=
  ∀ (i : Nat) ptr, predicates[i]? = some ptr → ∀ child ∈ ptr.type.handles, child < i

instance (predicates : EventPredicateList) : Decidable (Acyclic predicates) :=
  decidable_of_iff
    (∀ i : Fin predicates.length, ∀ child ∈ (predicates.get i).type.handles, child < (i.val : Int))
    ⟨fun h i ptr hptr => by
      obtain ⟨hi, rfl⟩ := List.getElem?_eq_some_iff.mp hptr
      exact h ⟨i, hi⟩,
    fun h i => h i.val _ (List.getElem?_eq_getElem i.isLt)⟩

theorem aggregateLoop_ok {apply : Int → Except Fault EventPredicateResult}
    (disjunction : Bool) {handles : List Int}
    (happly : ∀ h ∈ handles, ∃ r, apply h = .ok r) :
    ∃ b, aggregateLoop apply disjunction handles = .ok b := by
  induction handles with
  | nil => exact ⟨_, rfl⟩
  | cons handle handles ih =>
      obtain ⟨r, hr⟩ := happly handle List.mem_cons_self
      obtain ⟨b, hb⟩ := ih fun h hh => happly h (List.mem_cons_of_mem _ hh)
      cases r <;> cases disjunction <;> simp [aggregateLoop, hr, hb, bind, Except.bind]

theorem baseCondition_ok {apply : Int → Except Fault EventPredicateResult}
    (event : EventNode) (type : EventPredicateType)
    (happly : ∀ h ∈ type.handles, ∃ r, apply h = .ok r) :
    ∃ b, baseCondition apply event type = .ok b := by
  unfold baseCondition
  split
  case h_6 handles =>
    obtain ⟨b, hb⟩ := aggregateLoop_ok false happly
    exact ⟨some b, (bind_eq_ok_iff _ _ _).mpr ⟨b, hb, rfl⟩⟩
  case h_7 handles =>
    obtain ⟨b, hb⟩ := aggregateLoop_ok true happly
    exact ⟨some b, (bind_eq_ok_iff _ _ _).mpr ⟨b, hb, rfl⟩⟩
  all_goals exact ⟨_, rfl⟩

/-! ## Registries in which no predicate contains itself -/

/-- The registered predicate `parent` has the argument `child`. -/
def ArgumentOf (predicates : EventPredicateList) (child parent : Int) : Prop :=
  ∃ ptr, eventPredicateGetPtr predicates parent = some ptr ∧ child ∈ ptr.type.handles

def NoCycles (predicates : EventPredicateList) : Prop :=
  ∀ handle, ¬Relation.TransGen (ArgumentOf predicates) handle handle

section

variable {predicates : EventPredicateList}

theorem eventPredicateGetPtr_eq_some_iff {handle : Int} {ptr : EventPredicate} :
    eventPredicateGetPtr predicates handle = some ptr ↔
      0 ≤ handle ∧ predicates[handle.toNat]? = some ptr := by
  rw [eventPredicateGetPtr]
  split
  · rename_i hneg
    simp [not_le.mpr hneg]
  · rename_i hpos
    simp [not_lt.mp hpos]

theorem lt_length_of_getPtr {handle : Int} {ptr : EventPredicate}
    (h : eventPredicateGetPtr predicates handle = some ptr) :
    0 ≤ handle ∧ handle < predicates.length := by
  obtain ⟨hpos, hptr⟩ := eventPredicateGetPtr_eq_some_iff.mp h
  have hlt := (List.getElem?_eq_some_iff.mp hptr).1
  omega

/-- Arguments that come before the aggregate, or are no handles, lead to no cycle. -/
theorem noCycles_of_smaller
    (hsmaller : ∀ (i : Nat) ptr, predicates[i]? = some ptr → ∀ child ∈ ptr.type.handles,
      child < i ∨ eventPredicateGetPtr predicates child = none) : NoCycles predicates := by
  have hstep : ∀ {child parent}, ArgumentOf predicates child parent →
      (eventPredicateGetPtr predicates parent).isSome ∧
        ((eventPredicateGetPtr predicates child).isSome → child < parent) := by
    intro child parent ⟨ptr, hptr, hchild⟩
    refine ⟨by rw [hptr]; rfl, fun hsome => ?_⟩
    obtain ⟨hpos, hget⟩ := eventPredicateGetPtr_eq_some_iff.mp hptr
    rcases hsmaller _ ptr hget child hchild with hlt | hnone
    · omega
    · rw [hnone] at hsome
      cases hsome
  have hpath : ∀ {a b}, Relation.TransGen (ArgumentOf predicates) a b →
      (eventPredicateGetPtr predicates b).isSome ∧
        ((eventPredicateGetPtr predicates a).isSome → a < b) := by
    intro a b h
    induction h with
    | single h => exact hstep h
    | tail _ h ih => exact ⟨(hstep h).1, fun ha => lt_trans (ih.2 ha) ((hstep h).2 ih.1)⟩
  intro handle h
  exact lt_irrefl _ ((hpath h).2 (hpath h).1)

theorem Acyclic.noCycles (hacyclic : Acyclic predicates) : NoCycles predicates :=
  noCycles_of_smaller fun i ptr hptr child hchild => .inl (hacyclic i ptr hptr child hchild)

/-- The nested calls from the outermost one to the current one are about different predicates, so
there are never more of them than predicates; `visited` holds the handles they are about. -/
theorem eventPredicateApplyFrom_returns (hacyclic : NoCycles predicates) (event : EventNode)
    (depth : Nat) (handle : Int) (visited : Finset Int)
    (hvisited : ∀ v ∈ visited, (eventPredicateGetPtr predicates v).isSome ∧
      Relation.TransGen (ArgumentOf predicates) handle v)
    (hdepth : predicates.length < depth + visited.card) :
    ∃ res, eventPredicateApplyFrom predicates event depth handle = .ok res := by
  induction depth generalizing handle visited with
  | zero =>
      -- no depth is left: the handles visited would be more than there are predicates
      have hsub : visited ⊆ (Finset.range predicates.length).image Int.ofNat := by
        intro v hv
        obtain ⟨ptr, hptr⟩ := Option.isSome_iff_exists.mp (hvisited v hv).1
        have hrange := lt_length_of_getPtr hptr
        refine Finset.mem_image.mpr ⟨v.toNat, Finset.mem_range.mpr (by omega), ?_⟩
        exact Int.toNat_of_nonneg hrange.1
      have hcard : visited.card ≤ predicates.length := by
        apply (Finset.card_le_card hsub).trans
        apply Finset.card_image_le.trans
        rw [Finset.card_range]
      omega
  | succ depth ih =>
      rw [eventPredicateApplyFrom]
      cases hptr : eventPredicateGetPtr predicates handle with
      | none => exact ⟨.disabled, rfl⟩
      | some ptr =>
          -- the current handle joins those visited, which it is not one of
          have hfresh : handle ∉ visited := fun hmem => hacyclic handle (hvisited handle hmem).2
          have hchildren : ∀ child ∈ ptr.type.handles,
              ∃ res, eventPredicateApplyFrom predicates event depth child = .ok res := by
            intro child hchild
            have hargument : ArgumentOf predicates child handle := ⟨ptr, hptr, hchild⟩
            apply ih child (insert handle visited)
            · intro v hv
              rcases Finset.mem_insert.mp hv with rfl | hv
              · exact ⟨by rw [hptr]; rfl, .single hargument⟩
              · exact ⟨(hvisited v hv).1, .head hargument (hvisited v hv).2⟩
            · rw [Finset.card_insert_of_notMem hfresh]
              omega
          obtain ⟨b, hb⟩ := baseCondition_ok event ptr.type hchildren
          cases henabled : ptr.enabled with
          | false => exact ⟨.disabled, by simp [henabled]⟩
          | true => cases b <;> simp [henabled, hb, bind, Except.bind]

theorem eventPredicateApply_returns (hacyclic : NoCycles predicates) (event : EventNode)
    (handle : Int) : ∃ res, eventPredicateApply predicates handle event = .ok res := by
  apply eventPredicateApplyFrom_returns hacyclic event _ handle ∅
  · intro v hv
    cases hv
  · simp

theorem eventPredicateApply_ok (hacyclic : Acyclic predicates) (event : EventNode) (handle : Int) :
    ∃ r, eventPredicateApply predicates handle event = .ok r :=
  eventPredicateApply_returns hacyclic.noCycles event handle

end

/-- The setters do not touch what a predicate refers to. -/
theorem Acyclic.assign {predicates : EventPredicateList} (hacyclic : Acyclic predicates)
    (handle : Int) {f : EventPredicate → EventPredicate}
    (hf : ∀ ptr, (f ptr).type = ptr.type) : Acyclic (eventPredicateAssign predicates handle f) := by
  rw [eventPredicateAssign]
  split
  · exact hacyclic
  · intro i ptr hptr
    rw [List.getElem?_modify] at hptr
    obtain ⟨old, hold, hnew⟩ := Option.map_eq_some_iff.mp hptr
    have htype : ptr.type = old.type := by
      rw [← hnew]
      split
      · exact hf old
      · rfl
    rw [htype]
    exact hacyclic i old hold

end EventSeq
