import EventSeq.Config
import EventSeq.Graph

/-!
# Creating nodes (`create` in `nodes/*.c`)

The state of a new node is read from the options of its configuration; without options it has the
defaults.
-/

namespace EventSeq

variable {Setting : Type}

/-- `env_resolve_constant_or` on a member of the options. -/
def optionOr (p : ConfigPlatform Setting) (constants : ConstantRegistry) (options : Setting)
    (name : String) (dflt : Int64) : Except Fault Int64 :=
  resolveConstantOr p (some constants) (p.library.getMember options name) dflt

def scaleCreate (p : ConfigPlatform Setting) (constants : ConstantRegistry)
    (options : Option Setting) : Except Fault ScaleGraphNode :=
  match options with
  | none =>
      .ok
        { numerator := 1
          denominator := 1
          center := 0
          defect := 0
          amortizeRoundingError := false }
  | some options => do
      let numerator ← optionOr p constants options "numerator" 1
      let denominator ← optionOr p constants options "denominator" 1
      let center ← optionOr p constants options "center" 0
      let amortizeRoundingError ← optionOr p constants options "amortize_rounding_error" 0
      .ok
        { numerator := numerator
          denominator := denominator
          center := center
          defect := 0
          amortizeRoundingError := amortizeRoundingError != 0 }

/-- A new node has no rounding error to make up for. -/
theorem scaleCreate_defect {p : ConfigPlatform Setting} {constants : ConstantRegistry}
    {options : Option Setting} {node : ScaleGraphNode}
    (h : scaleCreate p constants options = .ok node) : node.defect = 0 := by
  cases options with
  | none =>
      cases h
      rfl
  | some options =>
      simp only [scaleCreate, bind_eq_ok_iff] at h
      obtain ⟨_, -, _, -, _, -, _, -, ⟨⟩⟩ := h
      rfl

def differentiateCreate (p : ConfigPlatform Setting) (constants : ConstantRegistry)
    (options : Option Setting) : Except Fault DifferentiateGraphNode :=
  match options with
  | none => .ok ⟨0⟩
  | some options => do .ok ⟨← optionOr p constants options "initial" 0⟩

def integrateCreate (p : ConfigPlatform Setting) (constants : ConstantRegistry)
    (options : Option Setting) : Except Fault IntegrateGraphNode :=
  match options with
  | none => .ok ⟨0⟩
  | some options => do .ok ⟨← optionOr p constants options "initial" 0⟩

/-- One round of the loop of `modifiers`' `create`; values that are no modifiers are passed over. -/
def collectModifier (p : ConfigPlatform Setting) (constants : ConstantRegistry)
    (modifierSet : ModifierSet) (setting : Option Setting) : Except Fault ModifierSet := do
  let mod ← resolveConstantOr p (some constants) setting (-1)
  if mod.toInt < 0 ∨ mod.toInt > modifierMax then .ok modifierSet
  else .ok (modifierSetSet modifierSet mod.toInt)

/-- The set that a `modifiers` node is created with. -/
def collectModifiers (p : ConfigPlatform Setting) (constants : ConstantRegistry)
    (modifiersSetting : Setting) : Except Fault ModifierSet :=
  (p.library.elems modifiersSetting).foldlM (collectModifier p constants) emptyModifierSet

/-! ## Nodes with predicates -/

/-- `env_resolve_event_predicate`; the environment is the two tables of the configuration. -/
def envResolveEventPredicate (p : ConfigPlatform Setting) (env : FullConfig Setting) :
    PredicateResolver Setting :=
  resolveEventPredicate p (some env.predicates) (some env.constants)

/-- `create` of `router`; `none` is a null pointer. -/
def routerCreate (p : ConfigPlatform Setting) (env : FullConfig Setting)
    (predicates : EventPredicateList) (options : Option Setting) :
    Except Fault (Option RouterGraphNode × EventPredicateList) :=
  match options with
  | none => .ok (none, predicates)
  | some options =>
      match p.library.getMember options "predicates" with
      | none => .ok (none, predicates)
      | some predicatesSetting =>
          -- A negative length is a `size_t` for which there is no memory.
          if p.library.length predicatesSetting < 0 then .ok (none, predicates)
          else do
            let (handles, predicates) ←
              loadHandles (envResolveEventPredicate p env) (p.library.elems predicatesSetting) predicates
            .ok (some ⟨handles⟩, predicates)

/-- `create` of `modify_predicate`, with the four conditions in the order of the initializer. -/
def modifyPredicateCreate (p : ConfigPlatform Setting) (env : FullConfig Setting)
    (predicates : EventPredicateList) (options : Option Setting) :
    Except Fault (Option ModifyPredicateGraphNode × EventPredicateList) :=
  match options with
  | none => .ok (none, predicates)
  | some options => do
      let (target, predicates) ←
        envResolveEventPredicate p env predicates (p.library.getMember options "target")
      if target < 0 then .ok (none, predicates)
      else do
        let (enableOn, predicates) ←
          envResolveEventPredicate p env predicates (p.library.getMember options "enable_on")
        let (disableOn, predicates) ←
          envResolveEventPredicate p env predicates (p.library.getMember options "disable_on")
        let (invertOn, predicates) ←
          envResolveEventPredicate p env predicates (p.library.getMember options "invert_on")
        let (uninvertOn, predicates) ←
          envResolveEventPredicate p env predicates (p.library.getMember options "uninvert_on")
        .ok (some ⟨target, enableOn, disableOn, invertOn, uninvertOn⟩, predicates)

/-! ## Nodes that change the data of an event -/

/-- `none` is the value -1. -/
def modifierOperationParse (name : Option String) : Option ModifierOperation :=
  match name with
  | none => none
  | some name =>
      if name = "set" then some .set
      else if name = "unset" then some .unset
      else if name = "reset" then some .unset
      else if name = "toggle" then some .toggle
      else none

/-- `create` of `modifiers`; `operationName` is what the variable holds before the lookup, which
leaves it alone when it fails. -/
def modifiersCreate (p : ConfigPlatform Setting) (constants : ConstantRegistry)
    (operationName : Option String) (options : Option Setting) :
    Except Fault (Option ModifiersGraphNode) :=
  match options with
  | none => .ok none
  | some options =>
      match p.library.getMember options "modifiers" with
      | none => .ok none
      | some modifiersSetting => do
          let modifiers ← collectModifiers p constants modifiersSetting
          match modifierOperationParse ((p.library.lookupString options "operation").or operationName) with
          | some operation => .ok (some ⟨modifiers, operation⟩)
          -- The enumeration is unsigned, so -1 is not below 0 and is let through.  It is no case of
          -- the switch over operations: the node acts like one that sets no modifiers.
          | none => .ok (some ⟨emptyModifierSet, .set⟩)

/-- The constant of an option, unless the option is missing. -/
def optionalConstant (p : ConfigPlatform Setting) (constants : ConstantRegistry) (options : Setting)
    (name : String) : Except Fault (Option Int64) :=
  match p.library.getMember options name with
  | none => .ok none
  | some setting => do .ok (some (← resolveConstant p (some constants) (some setting)))

/-- `create` of `assign`.  The fields of `source` that have no option are not read; they are 0 here. -/
def assignCreate (p : ConfigPlatform Setting) (constants : ConstantRegistry)
    (options : Option Setting) : Except Fault AssignGraphNode :=
  match options with
  | none =>
      .ok
        { hasNs := false
          hasMaj := false
          hasMin := false
          hasPayload := false
          source := { (default : EventData) with code := ⟨0, 0, 0⟩, payload := 0 } }
  | some options => do
      let ns ← optionalConstant p constants options "namespace"
      let major ← optionalConstant p constants options "major"
      let minor ← optionalConstant p constants options "minor"
      let payload ← optionalConstant p constants options "payload"
      .ok
        { hasNs := ns.isSome
          hasMaj := major.isSome
          hasMin := minor.isSome
          hasPayload := payload.isSome
          source :=
            { (default : EventData) with
              code :=
                ⟨(ns.getD 0).toUInt64.toUInt32, (major.getD 0).toUInt64.toUInt16,
                  (minor.getD 0).toUInt64.toUInt16⟩
              payload := payload.getD 0 } }

end EventSeq
