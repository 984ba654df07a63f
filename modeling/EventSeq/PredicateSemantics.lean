import EventSeq.EventPredicate

/-!
# What `event_predicate_apply` computes

The results of the recursive evaluation satisfy the documented description of the predicate types, in
which an aggregate is a statement about all of its arguments.
-/

namespace EventSeq

/-! ## One level of the evaluation -/

section

variable {predicates : EventPredicateList} {event : EventNode}

/-- Where `apply` returns, `apply'` returns the same. -/
def Extends (apply apply' : Int → Except Fault EventPredicateResult) : Prop :=
  ∀ handle res, apply handle = .ok res → apply' handle = .ok res

section

variable {apply apply' : Int → Except Fault EventPredicateResult}

theorem Extends.aggregateLoop (hext : Extends apply apply') (disjunction : Bool)
    {handles : List Int} {b : Bool} (h : aggregateLoop apply disjunction handles = .ok b) :
    aggregateLoop apply' disjunction handles = .ok b := by
  induction handles with
  | nil => exact h
  | cons handle handles ih =>
      obtain ⟨res, hres, hrest⟩ := (bind_eq_ok_iff _ _ _).mp h
      refine (bind_eq_ok_iff _ _ _).mpr ⟨res, hext handle res hres, ?_⟩
      cases res with
      | disabled => exact ih hrest
      | rejected | accepted =>
          -- One of the two results ends the loop, which one depends on the type of the aggregate.
          cases disjunction <;> first | exact hrest | exact ih hrest

theorem Extends.baseCondition (hext : Extends apply apply') {type : EventPredicateType}
    {b : Option Bool} (h : baseCondition apply event type = .ok b) :
    baseCondition apply' event type = .ok b := by
  unfold EventSeq.baseCondition at h ⊢
  split at h
  case h_6 | h_7 =>
    obtain ⟨b, hb, hrest⟩ := (bind_eq_ok_iff _ _ _).mp h
    exact (bind_eq_ok_iff _ _ _).mpr ⟨b, hext.aggregateLoop _ hb, hrest⟩
  all_goals exact h

end

/-- More room for nested calls does not change the result of a call that returns. -/
theorem eventPredicateApplyFrom_extends (predicates : EventPredicateList) (event : EventNode)
    (depth : Nat) :
    Extends (eventPredicateApplyFrom predicates event depth)
      (eventPredicateApplyFrom predicates event (depth + 1)) := by
  induction depth with
  | zero =>
      intro handle res h
      cases h
  | succ depth ih =>
      intro handle res h
      rw [eventPredicateApplyFrom] at h ⊢
      cases hptr : eventPredicateGetPtr predicates handle with
      | none =>
          rw [hptr] at h
          exact h
      | some ptr =>
          simp only [hptr] at h ⊢
          split at h
          · rename_i hdisabled
            rw [if_pos hdisabled]
            exact h
          · rename_i henabled
            rw [if_neg henabled]
            obtain ⟨b, hb, hrest⟩ := (bind_eq_ok_iff _ _ _).mp h
            exact (bind_eq_ok_iff _ _ _).mpr ⟨b, ih.baseCondition hb, hrest⟩

/-- A call that returns leaves room for a further level, so that its arguments are evaluated with
as much room as a call from outside. -/
theorem eventPredicateApply_eq {handle : Int} {res : EventPredicateResult}
    (h : eventPredicateApply predicates handle event = .ok res) :
    eventPredicateApplyFrom predicates event (predicates.length + 1 + 1) handle = .ok res :=
  eventPredicateApplyFrom_extends predicates event (predicates.length + 1) handle res h

/-! ## The documented results -/

end

/-- What has to hold for a predicate of this type to accept the event, before inversion. -/
def EventPredicateType.Holds (value : Int → EventPredicateResult) (event : EventNode) :
    EventPredicateType → Prop
  | .invalid => False
  | .accept => True
  | .range field minValue maxValue => minValue ≤ field.actual event ∧ field.actual event ≤ maxValue
  | .conjunction handles => ∀ handle ∈ handles.getD [], value handle ≠ .rejected
  | .disjunction handles => ∃ handle ∈ handles.getD [], value handle = .accepted
  | .modifier singleModifier => modifierSetHas event.data.modifiers singleModifier = true

/-- The results are those the documentation of the predicates describes. -/
structure Documented (predicates : EventPredicateList) (event : EventNode)
    (value : Int → EventPredicateResult) : Prop where
  disabled_iff : ∀ handle, value handle = .disabled ↔
    eventPredicateGetPtr predicates handle = none ∨
      ∃ ptr, eventPredicateGetPtr predicates handle = some ptr ∧
        (ptr.enabled = false ∨ ptr.type = .invalid)
  accepted_iff : ∀ handle ptr, eventPredicateGetPtr predicates handle = some ptr →
    value handle ≠ .disabled →
    (value handle = .accepted ↔ Xor (ptr.type.Holds value event) (ptr.inverted = true))

/-- Aggregates refer to smaller handles or to no predicate, and have an argument. -/
structure Grounded (predicates : EventPredicateList) : Prop where
  smaller : ∀ (i : Nat) ptr, predicates[i]? = some ptr → ∀ child ∈ ptr.type.handles,
    child < i ∨ eventPredicateGetPtr predicates child = none
  arguments : ∀ ptr ∈ predicates, ∀ handles,
    ptr.type = .conjunction handles ∨ ptr.type = .disjunction handles →
      ∃ handle rest, handles = some (handle :: rest)

section

variable {predicates : EventPredicateList} {event : EventNode}
  {value : Int → EventPredicateResult} {apply : Int → Except Fault EventPredicateResult}

theorem aggregateLoop_conjunction {handles : List Int}
    (happly : ∀ handle ∈ handles, apply handle = .ok (value handle)) :
    aggregateLoop apply false handles = .ok (decide (∀ handle ∈ handles, value handle ≠ .rejected)) := by
  induction handles with
  | nil => rfl
  | cons handle handles ih =>
      have ih' := ih fun child hchild => happly child (List.mem_cons_of_mem _ hchild)
      rw [aggregateLoop, happly handle List.mem_cons_self]
      simp only [bind, Except.bind]
      cases hvalue : value handle with
      | disabled | accepted => simp [hvalue, ih']
      | rejected => simp [hvalue]

theorem aggregateLoop_disjunction {handles : List Int}
    (happly : ∀ handle ∈ handles, apply handle = .ok (value handle)) :
    aggregateLoop apply true handles = .ok (decide (∃ handle ∈ handles, value handle = .accepted)) := by
  induction handles with
  | nil => rfl
  | cons handle handles ih =>
      have ih' := ih fun child hchild => happly child (List.mem_cons_of_mem _ hchild)
      rw [aggregateLoop, happly handle List.mem_cons_self]
      simp only [bind, Except.bind]
      cases hvalue : value handle with
      | disabled | rejected => simp [hvalue, ih']
      | accepted => simp [hvalue]

/-- The early exit does not show: the loop computes a statement about all arguments. -/
theorem baseCondition_eq (event : EventNode)
    (happly : ∀ handle, apply handle = .ok (value handle))
    {type : EventPredicateType} (hinvalid : type ≠ .invalid)
    (harguments : ∀ handles, type = .conjunction handles ∨ type = .disjunction handles →
      ∃ handle rest, handles = some (handle :: rest)) :
    ∃ accepted, baseCondition apply event type = .ok (some accepted) ∧
      (accepted = true ↔ type.Holds value event) := by
  cases type with
  | invalid => exact absurd rfl hinvalid
  | accept => exact ⟨true, rfl, by simp [EventPredicateType.Holds]⟩
  | range field minValue maxValue => exact ⟨_, rfl, by simp [EventPredicateType.Holds]⟩
  | conjunction handles =>
      obtain ⟨handle, rest, rfl⟩ := harguments handles (.inl rfl)
      refine ⟨decide (∀ child ∈ handle :: rest, value child ≠ .rejected), ?_, decide_eq_true_iff⟩
      rw [baseCondition, aggregateLoop_conjunction fun child _ => happly child]
      rfl
  | disjunction handles =>
      obtain ⟨handle, rest, rfl⟩ := harguments handles (.inr rfl)
      refine ⟨decide (∃ child ∈ handle :: rest, value child = .accepted), ?_, decide_eq_true_iff⟩
      rw [baseCondition, aggregateLoop_disjunction fun child _ => happly child]
      rfl
  | modifier singleModifier => exact ⟨_, rfl, Iff.rfl⟩

/-- The result for one predicate, from those of its arguments. -/
theorem eventPredicateApply_level
    (happly : ∀ handle, eventPredicateApply predicates handle event = .ok (value handle))
    (harguments : ∀ ptr ∈ predicates, ∀ handles,
      ptr.type = .conjunction handles ∨ ptr.type = .disjunction handles →
        ∃ handle rest, handles = some (handle :: rest))
    {handle : Int} {ptr : EventPredicate} (hptr : eventPredicateGetPtr predicates handle = some ptr) :
    if ptr.enabled = false ∨ ptr.type = .invalid then value handle = .disabled
    else value handle ≠ .disabled ∧
      (value handle = .accepted ↔ Xor (ptr.type.Holds value event) (ptr.inverted = true)) := by
  have hrun := eventPredicateApply_eq (happly handle)
  rw [eventPredicateApplyFrom, hptr] at hrun
  dsimp only at hrun
  cases henabled : ptr.enabled with
  | false =>
      rw [if_pos (.inl rfl)]
      rw [henabled] at hrun
      exact (Except.ok.inj hrun).symm
  | true =>
      rw [henabled] at hrun
      by_cases hinvalid : ptr.type = .invalid
      · rw [if_pos (.inr hinvalid)]
        rw [hinvalid] at hrun
        exact (Except.ok.inj hrun).symm
      · rw [if_neg (by simp [hinvalid])]
        -- an enabled predicate: the condition of its type, and then the inversion
        have hmem : ptr ∈ predicates :=
          List.mem_of_getElem? (eventPredicateGetPtr_eq_some_iff.mp hptr).2
        obtain ⟨accepted, hbase, hholds⟩ :=
          baseCondition_eq event happly hinvalid (harguments ptr hmem)
        rw [show eventPredicateApplyFrom predicates event (predicates.length + 1) =
          fun child => eventPredicateApply predicates child event from rfl, hbase] at hrun
        rw [← hholds]
        have hvalue := Except.ok.inj hrun
        rw [← hvalue]
        cases ptr.inverted <;> cases accepted <;> simp [Xor]

/-- Every registry of which the results are known is evaluated as documented. -/
theorem documented_of_apply (happly : ∀ handle,
      eventPredicateApply predicates handle event = .ok (value handle))
    (harguments : ∀ ptr ∈ predicates, ∀ handles,
      ptr.type = .conjunction handles ∨ ptr.type = .disjunction handles →
        ∃ handle rest, handles = some (handle :: rest)) :
    Documented predicates event value := by
  constructor
  · intro handle
    cases hptr : eventPredicateGetPtr predicates handle with
    | none =>
        have hrun := eventPredicateApply_eq (happly handle)
        rw [eventPredicateApplyFrom, hptr] at hrun
        simp [← Except.ok.inj hrun]
    | some ptr =>
        have hres := eventPredicateApply_level happly harguments hptr
        split at hres
        · rename_i hskipped
          simp [hres, hskipped]
        · rename_i hcounts
          simp [hres.1, hcounts]
  · intro handle ptr hptr hne
    have hres := eventPredicateApply_level happly harguments hptr
    split at hres
    · exact absurd hres hne
    · exact hres.2

/-! ## Arguments as a set, and De Morgan -/

/-- The loop sees which arguments there are, not in which order or how often. -/
theorem aggregateLoop_of_same_arguments (happly : ∀ handle, apply handle = .ok (value handle))
    (disjunction : Bool) {args args' : List Int} (hsame : ∀ handle, handle ∈ args ↔ handle ∈ args') :
    aggregateLoop apply disjunction args = aggregateLoop apply disjunction args' := by
  cases disjunction with
  | false =>
      rw [aggregateLoop_conjunction fun child _ => happly child,
        aggregateLoop_conjunction fun child _ => happly child]
      simp only [hsame]
  | true =>
      rw [aggregateLoop_disjunction fun child _ => happly child,
        aggregateLoop_disjunction fun child _ => happly child]
      simp only [hsame]

end

/-- The result with `ACCEPTED` and `REJECTED` exchanged. -/
def EventPredicateResult.opposite : EventPredicateResult → EventPredicateResult
  | .disabled => .disabled
  | .rejected => .accepted
  | .accepted => .rejected

/-- The second handle is the first one negated: by its `inverted` flag, or argument by argument. -/
inductive Opposite (predicates : EventPredicateList) : Int → Int → Prop where
  | unregistered {handle handle' : Int} :
      eventPredicateGetPtr predicates handle = none →
      eventPredicateGetPtr predicates handle' = none → Opposite predicates handle handle'
  | flipped {handle handle' : Int} {type : EventPredicateType} {enabled inverted : Bool} :
      eventPredicateGetPtr predicates handle = some ⟨type, enabled, inverted⟩ →
      eventPredicateGetPtr predicates handle' = some ⟨type, enabled, !inverted⟩ →
      Opposite predicates handle handle'
  | disjunction {handle handle' : Int} {args args' : List Int} {enabled inverted : Bool} :
      eventPredicateGetPtr predicates handle = some ⟨.disjunction (some args), enabled, inverted⟩ →
      eventPredicateGetPtr predicates handle' = some ⟨.conjunction (some args'), enabled, inverted⟩ →
      args.length = args'.length → (∀ p ∈ args.zip args', Opposite predicates p.1 p.2) →
      Opposite predicates handle handle'
  | conjunction {handle handle' : Int} {args args' : List Int} {enabled inverted : Bool} :
      eventPredicateGetPtr predicates handle = some ⟨.conjunction (some args), enabled, inverted⟩ →
      eventPredicateGetPtr predicates handle' = some ⟨.disjunction (some args'), enabled, inverted⟩ →
      args.length = args'.length → (∀ p ∈ args.zip args', Opposite predicates p.1 p.2) →
      Opposite predicates handle handle'

section

variable {predicates : EventPredicateList} {event : EventNode} {value : Int → EventPredicateResult}

theorem EventPredicateResult.eq_opposite {res res' : EventPredicateResult}
    (hdisabled : res = .disabled ↔ res' = .disabled)
    (haccepted : res ≠ .disabled → (res' = .accepted ↔ ¬res = .accepted)) : res' = res.opposite := by
  cases res <;> cases res' <;> simp_all [opposite]

theorem EventPredicateResult.eq_of_same {res res' : EventPredicateResult}
    (hdisabled : res = .disabled ↔ res' = .disabled)
    (haccepted : res ≠ .disabled → (res = .accepted ↔ res' = .accepted)) : res = res' := by
  cases res <;> cases res' <;> simp_all

/-- No negated argument is rejected if and only if no argument is accepted. -/
theorem conjunction_of_opposites {args args' : List Int}
    (h : List.Forall₂ (fun handle handle' => value handle' = (value handle).opposite) args args') :
    (∀ handle ∈ args', value handle ≠ .rejected) ↔ ¬∃ handle ∈ args, value handle = .accepted := by
  induction h with
  | nil => simp
  | @cons handle handle' _ _ hhead _ ih =>
      cases hvalue : value handle <;> simp_all [EventPredicateResult.opposite]

theorem disjunction_of_opposites {args args' : List Int}
    (h : List.Forall₂ (fun handle handle' => value handle' = (value handle).opposite) args args') :
    (∃ handle ∈ args', value handle = .accepted) ↔ ¬∀ handle ∈ args, value handle ≠ .rejected := by
  induction h with
  | nil => simp
  | @cons handle handle' _ _ hhead _ ih =>
      cases hvalue : value handle <;> simp_all [EventPredicateResult.opposite]

/-- Predicates that are enabled alike are disabled alike, unless one of the types is invalid. -/
theorem Documented.disabled_congr (hdoc : Documented predicates event value) {handle handle' : Int}
    {ptr ptr' : EventPredicate} (hptr : eventPredicateGetPtr predicates handle = some ptr)
    (hptr' : eventPredicateGetPtr predicates handle' = some ptr')
    (henabled : ptr.enabled = ptr'.enabled) (htype : ptr.type = .invalid ↔ ptr'.type = .invalid) :
    value handle = .disabled ↔ value handle' = .disabled := by
  rw [hdoc.disabled_iff, hdoc.disabled_iff]
  simp [hptr, hptr', henabled, htype]

/-- A negated handle has the opposite result, at whatever depth the negations are. -/
theorem Documented.opposite (hdoc : Documented predicates event value) {handle handle' : Int}
    (h : Opposite predicates handle handle') : value handle' = (value handle).opposite := by
  -- the arguments are opposite pairwise
  have hpairs : ∀ {args args' : List Int}, args.length = args'.length →
      (∀ p ∈ args.zip args', value p.2 = (value p.1).opposite) →
      List.Forall₂ (fun handle handle' => value handle' = (value handle).opposite) args args' :=
    fun hlen hall => List.forall₂_iff_zip.mpr ⟨hlen, fun hmem => hall _ hmem⟩
  induction h with
  | unregistered hnone hnone' =>
      have hdisabled := (hdoc.disabled_iff _).mpr (.inl hnone)
      have hdisabled' := (hdoc.disabled_iff _).mpr (.inl hnone')
      rw [hdisabled, hdisabled']
      rfl
  | flipped hptr hptr' =>
      have hdisabled := hdoc.disabled_congr hptr hptr' rfl Iff.rfl
      apply EventPredicateResult.eq_opposite hdisabled
      intro hne
      rw [hdoc.accepted_iff _ _ hptr hne, hdoc.accepted_iff _ _ hptr' (mt hdisabled.mpr hne)]
      rw [Bool.not_eq_true', ← Bool.not_eq_true, xor_not_right, xor_iff_not_iff, not_not]
  | disjunction hptr hptr' hlen _ ih =>
      have hdisabled := hdoc.disabled_congr hptr hptr' rfl (by simp)
      have hholds := conjunction_of_opposites (hpairs hlen ih)
      apply EventPredicateResult.eq_opposite hdisabled
      intro hne
      rw [hdoc.accepted_iff _ _ hptr hne, hdoc.accepted_iff _ _ hptr' (mt hdisabled.mpr hne)]
      simp only [EventPredicateType.Holds, Option.getD_some, hholds]
      rw [xor_not_left, xor_iff_not_iff, not_not]
  | conjunction hptr hptr' hlen _ ih =>
      have hdisabled := hdoc.disabled_congr hptr hptr' rfl (by simp)
      have hholds := disjunction_of_opposites (hpairs hlen ih)
      apply EventPredicateResult.eq_opposite hdisabled
      intro hne
      rw [hdoc.accepted_iff _ _ hptr hne, hdoc.accepted_iff _ _ hptr' (mt hdisabled.mpr hne)]
      simp only [EventPredicateType.Holds, Option.getD_some, hholds]
      rw [xor_not_left, xor_iff_not_iff, not_not]

/-- A disjunction is the inverted conjunction of the negated arguments. -/
theorem Documented.deMorgan (hdoc : Documented predicates event value) {handle handle' : Int}
    {args args' : List Int} {enabled inverted : Bool}
    (hptr : eventPredicateGetPtr predicates handle = some ⟨.disjunction (some args), enabled, inverted⟩)
    (hptr' : eventPredicateGetPtr predicates handle' =
      some ⟨.conjunction (some args'), enabled, !inverted⟩)
    (hargs : List.Forall₂ (Opposite predicates) args args') : value handle = value handle' := by
  have hdisabled := hdoc.disabled_congr hptr hptr' rfl (by simp)
  have hholds := conjunction_of_opposites (hargs.imp fun _ _ h => hdoc.opposite h)
  apply EventPredicateResult.eq_of_same hdisabled
  intro hne
  rw [hdoc.accepted_iff _ _ hptr hne, hdoc.accepted_iff _ _ hptr' (mt hdisabled.mpr hne)]
  simp only [EventPredicateType.Holds, Option.getD_some, hholds]
  rw [Bool.not_eq_true', ← Bool.not_eq_true, xor_not_not]

end

/-- On a registry as the configuration builds it, every predicate evaluates as documented; so order
and repetition of arguments do not matter, and a disjunction is the inverted conjunction of the
negated arguments. -/
theorem event_predicate_apply_documented {predicates : EventPredicateList}
    (hgrounded : Grounded predicates) (event : EventNode) :
    ∃ value : Int → EventPredicateResult,
      (∀ handle, eventPredicateApply predicates handle event = .ok (value handle)) ∧
      Documented predicates event value ∧
      (∀ disjunction args args', (∀ handle, handle ∈ args ↔ handle ∈ args') →
        aggregateLoop (fun child => eventPredicateApply predicates child event) disjunction args =
          aggregateLoop (fun child => eventPredicateApply predicates child event) disjunction args') ∧
      ∀ handle handle' args args' enabled inverted,
        eventPredicateGetPtr predicates handle =
          some ⟨.disjunction (some args), enabled, inverted⟩ →
        eventPredicateGetPtr predicates handle' =
          some ⟨.conjunction (some args'), enabled, !inverted⟩ →
        List.Forall₂ (Opposite predicates) args args' → value handle = value handle' := by
  have hreturns := eventPredicateApply_returns (noCycles_of_smaller hgrounded.smaller) event
  choose value hvalue using hreturns
  have hdoc := documented_of_apply hvalue hgrounded.arguments
  refine ⟨value, hvalue, hdoc, ?_, ?_⟩
  · intro disjunction args args' hsame
    exact aggregateLoop_of_same_arguments hvalue disjunction hsame
  · intro handle handle' args args' enabled inverted hptr hptr' hargs
    exact hdoc.deMorgan hptr hptr' hargs

/-- Predicates 1 and 3 are 0 and 2 negated, 2 and 3 are disabled, and 9 is no handle. -/
def negatedArguments : EventPredicateList :=
  [⟨.accept, true, false⟩, ⟨.accept, true, true⟩, ⟨.range .payload 1 5, false, false⟩,
    ⟨.range .payload 1 5, false, true⟩, ⟨.disjunction (some [2, 0, 9]), true, false⟩,
    ⟨.conjunction (some [3, 1, 9]), true, true⟩]

theorem event_predicate_apply_documented_negated :
    Grounded negatedArguments ∧ ∃ value : Int → EventPredicateResult,
      (∀ handle, eventPredicateApply negatedArguments handle ⟨7, none, 0, default⟩ =
        .ok (value handle)) ∧
      value 4 = value 5 ∧ value 2 = .disabled := by
  have hsmaller : ∀ i : Fin negatedArguments.length, ∀ child ∈ negatedArguments[i].type.handles,
      child < (i : Nat) ∨ eventPredicateGetPtr negatedArguments child = none := by decide
  have hgrounded : Grounded negatedArguments := by
    constructor
    · intro i ptr hptr child hchild
      obtain ⟨hi, rfl⟩ := List.getElem?_eq_some_iff.mp hptr
      exact hsmaller ⟨i, hi⟩ child hchild
    · intro ptr hptr handles htype
      simp only [negatedArguments, List.mem_cons, List.not_mem_nil, or_false] at hptr
      rcases hptr with rfl | rfl | rfl | rfl | rfl | rfl
      case inr.inr.inr.inr.inl | inr.inr.inr.inr.inr =>
        rcases htype with ⟨⟨⟩⟩ | ⟨⟨⟩⟩
        exact ⟨_, _, rfl⟩
      all_goals rcases htype with ⟨⟨⟩⟩ | ⟨⟨⟩⟩
  obtain ⟨value, hvalue, hdoc, -, hdeMorgan⟩ :=
    event_predicate_apply_documented hgrounded ⟨7, none, 0, default⟩
  refine ⟨hgrounded, value, hvalue, ?_, ?_⟩
  · apply hdeMorgan 4 5 [2, 0, 9] [3, 1, 9] true false rfl rfl
    exact .cons (.flipped rfl rfl) (.cons (.flipped rfl rfl) (.cons (.unregistered rfl rfl) .nil))
  · exact (hdoc.disabled_iff 2).mpr (.inr ⟨_, rfl, .inl rfl⟩)

end EventSeq
