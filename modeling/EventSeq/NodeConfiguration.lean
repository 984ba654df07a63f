import EventSeq.ModifierSets
import EventSeq.PredicateMeaning
import EventSeq.Startup

/-!
# What the options of a node say

The state of a new node, read off its options: a number or the name of a constant stands for a value, a
missing option for its default, and a predicate for what it means.
-/

namespace EventSeq

variable {Setting : Type}

/-! ## The options -/

section

variable (p : ConfigPlatform Setting) (configRoot : Setting)

def nodeOption (options : Option Setting) (name : String) : Option Setting :=
  options.bind fun options => p.library.getMember options name

/-- The value of an option, with the constants of the configuration. -/
def configuredOption (options : Option Setting) (name : String) (dflt : Int64) : Int64 :=
  (settingValue p (definitions p configRoot) (nodeOption p options name)).getD dflt

def configuredScale (options : Option Setting) : ScaleGraphNode where
  numerator := configuredOption p configRoot options "numerator" 1
  denominator := configuredOption p configRoot options "denominator" 1
  center := configuredOption p configRoot options "center" 0
  defect := 0
  amortizeRoundingError := configuredOption p configRoot options "amortize_rounding_error" 0 != 0

/-- The fields without an option are not assigned. -/
def configuredAssign (options : Option Setting) : AssignGraphNode where
  hasNs := (nodeOption p options "namespace").isSome
  hasMaj := (nodeOption p options "major").isSome
  hasMin := (nodeOption p options "minor").isSome
  hasPayload := (nodeOption p options "payload").isSome
  source :=
    { (default : EventData) with
      code :=
        ⟨(configuredOption p configRoot options "namespace" 0).toUInt64.toUInt32,
          (configuredOption p configRoot options "major" 0).toUInt64.toUInt16,
          (configuredOption p configRoot options "minor" 0).toUInt64.toUInt16⟩
      payload := configuredOption p configRoot options "payload" 0 }

/-- The value of an option that has no default. -/
def presentOption (options : Option Setting) (name : String) : Option Int :=
  (nodeOption p options name).map fun _ => (configuredOption p configRoot options name 0).toInt

def configuredTerminator (setting : Setting) : TerminatorOptions where
  namespace_ := (configuredOption p configRoot (some setting) "namespace" 0).toInt
  major := (configuredOption p configRoot (some setting) "major" 0).toInt
  minor := (configuredOption p configRoot (some setting) "minor" 0).toInt
  payload := (configuredOption p configRoot (some setting) "payload" 0).toInt

def configuredWindow (options : Option Setting) : WindowOptions where
  isJumping := (configuredOption p configRoot options "is_jumping" 0).toInt
  additionalStep := (configuredOption p configRoot options "additional_step" 0).toInt
  maxLength := presentOption p configRoot options "max_length"
  maxMilliseconds := presentOption p configRoot options "max_milliseconds"
  terminator := (nodeOption p options "terminator").map (configuredTerminator p configRoot)

/-- The values of a list of modifiers that are modifiers. -/
def ConfiguredModifier (modifiersSetting : Setting) (m : Modifier) : Prop :=
  ∃ setting ∈ p.library.elems modifiersSetting,
    ((settingValue p (definitions p configRoot) setting).getD (-1)).toInt = m

/-- The handle decides what the option means. -/
def CompilesOption (predicates : EventPredicateList) (options : Option Setting) (name : String)
    (handle : Int) : Prop :=
  Compiles predicates handle (configMeaning p configRoot (nodeOption p options name))

/-- The kind of a source that has not ended. -/
def NodeKind.reading : NodeKind → NodeKind
  | .evdev source => .evdev { source with enabled := true }
  | .getchar source => .getchar { source with enabled := true }
  | kind => kind

/-- The state of a new node is as its options say. -/
def NodeKind.Follows (P : Platform) (predicates : EventPredicateList) (options : Option Setting) :
    NodeKind → Prop
  | .router node => ∃ args, nodeOption p options "predicates" = some args ∧
      List.Forall₂ (fun handle arg => Compiles predicates handle (configMeaning p configRoot arg))
        node.predicates (p.library.elems args)
  | .modifiers node => ∃ args, nodeOption p options "modifiers" = some args ∧
      ∀ text, (options.bind fun options => p.library.lookupString options "operation") = some text →
        ∀ operation, modifierOperationParse (some text) = some operation →
          node.operation = operation ∧ ∀ m, m.Valid →
            (modifierSetHas node.modifiers m = true ↔ ConfiguredModifier p configRoot args m)
  | .modifyPredicate node =>
      (configMeaning p configRoot (nodeOption p options "target")).isSome ∧
        CompilesOption p configRoot predicates options "target" node.target ∧
        CompilesOption p configRoot predicates options "enable_on" node.enableOn ∧
        CompilesOption p configRoot predicates options "disable_on" node.disableOn ∧
        CompilesOption p configRoot predicates options "invert_on" node.invertOn ∧
        CompilesOption p configRoot predicates options "uninvert_on" node.uninvertOn
  | .assign node => node = configuredAssign p configRoot options
  | .differentiate node => node.previous = configuredOption p configRoot options "initial" 0
  | .integrate node => node.total = configuredOption p configRoot options "initial" 0
  | .scale node => node = configuredScale p configRoot options
  | .window node => ∃ draws, node = (windowCreate P (configuredWindow p configRoot options) draws).1
  | .evdev node | .getchar node =>
      node = sourceCreate (configuredOption p configRoot options "namespace" 0).toInt
  | .tee | .print | .uinput => True

end

/-! ## Creating follows the options -/

section

variable {p : ConfigPlatform Setting} {configRoot setting : Setting} {constants : ConstantRegistry}
  {env : FullConfig Setting} {options : Option Setting} {name : String} {dflt value : Int64}
  {predicates predicates' : EventPredicateList} {handle : Int}

/-- The table holds the constants of the configuration. -/
def HoldsConstants (p : ConfigPlatform Setting) (configRoot : Setting) (constants : ConstantRegistry) :
    Prop :=
  constants.Holds (lastDefinition (definitions p configRoot))

theorem resolveConstantOr_configured (h : HoldsConstants p configRoot constants)
    {setting : Option Setting}
    (hresolve : resolveConstantOr p (some constants) setting dflt = .ok value) :
    value = (settingValue p (definitions p configRoot) setting).getD dflt := by
  have hholds : HoldsDefinitions (definitions p configRoot) ⟨constants, 0⟩ := h
  exact resolveConstantOr_eq hholds hresolve

theorem optionOr_configured (h : HoldsConstants p configRoot constants) {options : Setting}
    (hoption : optionOr p constants options name dflt = .ok value) :
    value = configuredOption p configRoot (some options) name dflt :=
  resolveConstantOr_configured h hoption

theorem optionalConstant_configured (h : HoldsConstants p configRoot constants) {options : Setting}
    {found : Option Int64} (hoption : optionalConstant p constants options name = .ok found) :
    found = (nodeOption p (some options) name).map fun _ =>
      configuredOption p configRoot (some options) name 0 := by
  have hmember : nodeOption p (some options) name = p.library.getMember options name := rfl
  unfold optionalConstant at hoption
  rw [configuredOption, hmember]
  split at hoption
  · rename_i hnone
    cases hoption
    rw [hnone]
    rfl
  · rename_i setting hsome
    obtain ⟨value, hvalue, ⟨⟩⟩ := (bind_eq_ok_iff _ _ _).mp hoption
    rw [hsome, resolveConstantOr_configured h hvalue]
    rfl

/-- The value that is used for an option that may be missing. -/
theorem presentValue_getD (options : Option Setting) (name : String) :
    ((nodeOption p options name).map fun _ => configuredOption p configRoot options name 0).getD 0 =
      configuredOption p configRoot options name 0 := by
  rw [configuredOption]
  cases nodeOption p options name <;> rfl

theorem scaleCreate_configured (h : HoldsConstants p configRoot constants) {node : ScaleGraphNode}
    (hcreate : scaleCreate p constants options = .ok node) :
    node = configuredScale p configRoot options := by
  cases options with
  | none =>
      cases hcreate
      rfl
  | some options =>
      simp only [scaleCreate, bind_eq_ok_iff] at hcreate
      obtain ⟨numerator, hnumerator, denominator, hdenominator, center, hcenter, amortize, hamortize,
        ⟨⟩⟩ := hcreate
      rw [optionOr_configured h hnumerator, optionOr_configured h hdenominator,
        optionOr_configured h hcenter, optionOr_configured h hamortize]
      rfl

theorem assignCreate_configured (h : HoldsConstants p configRoot constants) {node : AssignGraphNode}
    (hcreate : assignCreate p constants options = .ok node) :
    node = configuredAssign p configRoot options := by
  cases options with
  | none =>
      cases hcreate
      rfl
  | some options =>
      simp only [assignCreate, bind_eq_ok_iff] at hcreate
      obtain ⟨ns, hns, major, hmajor, minor, hminor, payload, hpayload, ⟨⟩⟩ := hcreate
      rw [optionalConstant_configured h hns, optionalConstant_configured h hmajor,
        optionalConstant_configured h hminor, optionalConstant_configured h hpayload]
      simp only [presentValue_getD, Option.isSome_map]
      rfl

theorem loadWindowOptions_configured (h : HoldsConstants p configRoot constants)
    {windowOptions : WindowOptions}
    (hload : loadWindowOptions p constants options = .ok windowOptions) :
    windowOptions = configuredWindow p configRoot options := by
  cases options with
  | none =>
      cases hload
      rfl
  | some options =>
      simp only [loadWindowOptions, bind_eq_ok_iff] at hload
      obtain ⟨isJumping, hjumping, step, hstep, maxLength, hlength, maxMilliseconds, hmilliseconds,
        terminator, hterminator, ⟨⟩⟩ := hload
      have hconfigured : terminator = (nodeOption p (some options) "terminator").map
          (configuredTerminator p configRoot) := by
        show terminator = (p.library.getMember options "terminator").map _
        unfold loadEventPrototypeOption at hterminator
        split at hterminator
        · rename_i hnone
          cases hterminator
          rw [hnone]
          rfl
        · rename_i setting hsome
          obtain ⟨result, hresult, ⟨⟩⟩ := (bind_eq_ok_iff _ _ _).mp hterminator
          simp only [loadWindowTerminator, bind_eq_ok_iff] at hresult
          obtain ⟨ns, hns, major, hmajor, minor, hminor, payload, hpayload, ⟨⟩⟩ := hresult
          rw [hsome, optionOr_configured h hns, optionOr_configured h hmajor,
            optionOr_configured h hminor, optionOr_configured h hpayload]
          rfl
      rw [optionOr_configured h hjumping, optionOr_configured h hstep,
        optionalConstant_configured h hlength, optionalConstant_configured h hmilliseconds, hconfigured,
        Option.map_map, Option.map_map]
      rfl

theorem collectModifiers_configured (h : HoldsConstants p configRoot constants) {args : Setting}
    {modifiers : ModifierSet} (hcollect : collectModifiers p constants args = .ok modifiers)
    {m : Modifier} (hm : m.Valid) :
    modifierSetHas modifiers m = true ↔ ConfiguredModifier p configRoot args m := by
  rw [collectModifiers_members hcollect hm]
  constructor
  · rintro ⟨setting, hsetting, mod, hmod, hvalue⟩
    refine ⟨setting, hsetting, ?_⟩
    rw [← resolveConstantOr_configured h hmod, hvalue]
  · rintro ⟨setting, hsetting, hvalue⟩
    -- the loop has resolved every element
    obtain ⟨_, _, hround⟩ := foldlM_round hcollect hsetting
    obtain ⟨mod, hmod, -⟩ := (bind_eq_ok_iff _ _ _).mp hround
    refine ⟨setting, hsetting, mod, hmod, ?_⟩
    rw [resolveConstantOr_configured h hmod, hvalue]

/-! ## Nodes with predicates -/

theorem CompilesOption.mono (h : CompilesOption p configRoot predicates options name handle)
    (hchildren : ChildrenBelow predicates) (hgrows : predicates <+: predicates') :
    CompilesOption p configRoot predicates' options name handle :=
  Compiles.mono h hchildren hgrows

/-- The resolver of the nodes is the one that the names of the configuration are for. -/
theorem EnvironmentCompiles.resolver (henv : EnvironmentCompiles p configRoot env predicates) :
    CompilesTo predicates (envResolveEventPredicate p env) (configMeaning p configRoot) := by
  have hholds : HoldsDefinitions (definitions p configRoot) ⟨env.constants, 0⟩ := henv.constants
  exact resolveEventPredicateFrom_compiles hholds henv.names henv.children p.depth

/-- The names that nodes refer to stand for registered predicates, each with smaller arguments. -/
structure EnvironmentOrdered (env : FullConfig Setting) (predicates : EventPredicateList) : Prop where
  children : ChildrenBelow predicates
  names : NamesBelow env.predicates predicates.length

theorem EnvironmentCompiles.ordered (henv : EnvironmentCompiles p configRoot env predicates) :
    EnvironmentOrdered env predicates :=
  ⟨henv.children, henv.names.below⟩

theorem EnvironmentOrdered.mono (henv : EnvironmentOrdered env predicates)
    (hloaded : Loaded predicates predicates') : EnvironmentOrdered env predicates' :=
  ⟨hloaded.children, henv.names.mono hloaded.length_le⟩

theorem EnvironmentOrdered.resolver (henv : EnvironmentOrdered env predicates) :
    ResolvesBelow (envResolveEventPredicate p env) predicates.length := by
  apply resolveEventPredicateFrom_loaded
  rintro names ⟨⟩
  exact henv.names

theorem EnvironmentOrdered.resolves (henv : EnvironmentOrdered env predicates)
    {setting : Option Setting}
    (hresolve : envResolveEventPredicate p env predicates setting = .ok (handle, predicates')) :
    Loaded predicates predicates' :=
  (henv.resolver le_rfl henv.children hresolve).1

theorem routerCreate_loaded (henv : EnvironmentOrdered env predicates)
    {router : Option RouterGraphNode}
    (hcreate : routerCreate p env predicates options = .ok (router, predicates')) :
    Loaded predicates predicates' := by
  unfold routerCreate at hcreate
  split at hcreate
  · cases hcreate
    exact .refl henv.children
  · split at hcreate
    · cases hcreate
      exact .refl henv.children
    · split at hcreate
      · cases hcreate
        exact .refl henv.children
      · obtain ⟨⟨handles, after⟩, hload, ⟨⟩⟩ := (bind_eq_ok_iff _ _ _).mp hcreate
        exact (loadHandles_loaded henv.resolver le_rfl henv.children hload).1

theorem routerCreate_follows (henv : EnvironmentCompiles p configRoot env predicates)
    {router : Option RouterGraphNode}
    (hcreate : routerCreate p env predicates options = .ok (router, predicates'))
    (hroom : predicates'.length < int32Max) (P : Platform) :
    ∀ node ∈ router, (NodeKind.router node).Follows p configRoot P predicates' options := by
  intro node hnode
  unfold routerCreate at hcreate
  split at hcreate
  · cases hcreate
    cases hnode
  · split at hcreate
    · cases hcreate
      cases hnode
    · rename_i args hargs
      split at hcreate
      · cases hcreate
        cases hnode
      · obtain ⟨⟨handles, after⟩, hload, ⟨⟩⟩ := (bind_eq_ok_iff _ _ _).mp hcreate
        cases hnode
        exact ⟨args, hargs, loadHandles_compiles henv.resolver henv.ordered.resolver List.prefix_rfl
          henv.children hload hroom⟩

/-- The five options that `create` of `modify_predicate` resolves, one after the other. -/
theorem modifyPredicateCreate_cases {created : Option ModifyPredicateGraphNode}
    (hcreate : modifyPredicateCreate p env predicates options = .ok (created, predicates')) :
    (created = none ∧ (predicates' = predicates ∨ ∃ target setting,
      envResolveEventPredicate p env predicates setting = .ok (target, predicates'))) ∨
    ∃ node opts ps₁ ps₂ ps₃ ps₄, created = some node ∧ options = some opts ∧ 0 ≤ node.target ∧
      envResolveEventPredicate p env predicates (p.library.getMember opts "target") =
        .ok (node.target, ps₁) ∧
      envResolveEventPredicate p env ps₁ (p.library.getMember opts "enable_on") =
        .ok (node.enableOn, ps₂) ∧
      envResolveEventPredicate p env ps₂ (p.library.getMember opts "disable_on") =
        .ok (node.disableOn, ps₃) ∧
      envResolveEventPredicate p env ps₃ (p.library.getMember opts "invert_on") =
        .ok (node.invertOn, ps₄) ∧
      envResolveEventPredicate p env ps₄ (p.library.getMember opts "uninvert_on") =
        .ok (node.uninvertOn, predicates') := by
  unfold modifyPredicateCreate at hcreate
  split at hcreate
  · cases hcreate
    exact .inl ⟨rfl, .inl rfl⟩
  · rename_i opts
    obtain ⟨⟨target, ps₁⟩, htarget, hcreate⟩ := (bind_eq_ok_iff _ _ _).mp hcreate
    dsimp only at hcreate
    split at hcreate
    · cases hcreate
      exact .inl ⟨rfl, .inr ⟨target, _, htarget⟩⟩
    · rename_i hregistered
      obtain ⟨⟨enableOn, ps₂⟩, henable, hcreate⟩ := (bind_eq_ok_iff _ _ _).mp hcreate
      obtain ⟨⟨disableOn, ps₃⟩, hdisable, hcreate⟩ := (bind_eq_ok_iff _ _ _).mp hcreate
      obtain ⟨⟨invertOn, ps₄⟩, hinvert, hcreate⟩ := (bind_eq_ok_iff _ _ _).mp hcreate
      obtain ⟨⟨uninvertOn, ps₅⟩, huninvert, ⟨⟩⟩ := (bind_eq_ok_iff _ _ _).mp hcreate
      exact .inr ⟨_, opts, ps₁, ps₂, ps₃, ps₄, rfl, rfl, not_lt.mp hregistered, htarget, henable,
        hdisable, hinvert, huninvert⟩

theorem modifyPredicateCreate_loaded (henv : EnvironmentOrdered env predicates)
    {created : Option ModifyPredicateGraphNode}
    (hcreate : modifyPredicateCreate p env predicates options = .ok (created, predicates')) :
    Loaded predicates predicates' := by
  rcases modifyPredicateCreate_cases hcreate with ⟨-, rfl | ⟨target, setting, hresolve⟩⟩ |
    ⟨node, opts, ps₁, ps₂, ps₃, ps₄, -, -, -, h₁, h₂, h₃, h₄, h₅⟩
  · exact .refl henv.children
  · exact henv.resolves hresolve
  · have hto₁ := henv.resolves h₁
    have hto₂ := hto₁.trans ((henv.mono hto₁).resolves h₂)
    have hto₃ := hto₂.trans ((henv.mono hto₂).resolves h₃)
    have hto₄ := hto₃.trans ((henv.mono hto₃).resolves h₄)
    exact hto₄.trans ((henv.mono hto₄).resolves h₅)

/-- One option of a node that refers to a predicate. -/
theorem EnvironmentCompiles.resolveOption (henv : EnvironmentCompiles p configRoot env predicates)
    {options : Setting} (hresolve : envResolveEventPredicate p env predicates
      (p.library.getMember options name) = .ok (handle, predicates')) :
    EnvironmentCompiles p configRoot env predicates' ∧ predicates <+: predicates' ∧
      (predicates'.length < int32Max →
        CompilesOption p configRoot predicates' (some options) name handle) := by
  have hloaded := henv.loaded hresolve
  exact ⟨henv.mono hloaded, hloaded.grows, fun hroom => henv.resolves hresolve hroom⟩

theorem modifyPredicateCreate_follows (henv : EnvironmentCompiles p configRoot env predicates)
    {created : Option ModifyPredicateGraphNode}
    (hcreate : modifyPredicateCreate p env predicates options = .ok (created, predicates'))
    (hroom : predicates'.length < int32Max) (P : Platform) :
    ∀ node ∈ created, (NodeKind.modifyPredicate node).Follows p configRoot P predicates' options := by
  intro node' hnode
  rcases modifyPredicateCreate_cases hcreate with ⟨rfl, -⟩ |
    ⟨node, opts, ps₁, ps₂, ps₃, ps₄, rfl, rfl, hregistered, h₁, h₂, h₃, h₄, h₅⟩
  · cases hnode
  · cases hnode
    obtain ⟨henv₁, -, hcompiles₁⟩ := henv.resolveOption h₁
    obtain ⟨henv₂, hgrows₂, hcompiles₂⟩ := henv₁.resolveOption h₂
    obtain ⟨henv₃, hgrows₃, hcompiles₃⟩ := henv₂.resolveOption h₃
    obtain ⟨henv₄, hgrows₄, hcompiles₄⟩ := henv₃.resolveOption h₄
    obtain ⟨-, hto₄, hcompiles₅⟩ := henv₄.resolveOption h₅
    have hto₃ := hgrows₄.trans hto₄
    have hto₂ := hgrows₃.trans hto₃
    have hto₁ := hgrows₂.trans hto₂
    -- there was room for each of the options, since the registry only grew
    have hbefore : ∀ {ps : EventPredicateList}, ps <+: predicates' → (ps.length : Int) < int32Max := by
      intro ps hgrows
      have hle := hgrows.length_le
      omega
    have htarget := hcompiles₁ (hbefore hto₁)
    refine ⟨?_, htarget.mono henv₁.children hto₁, (hcompiles₂ (hbefore hto₂)).mono henv₂.children hto₂,
      (hcompiles₃ (hbefore hto₃)).mono henv₃.children hto₃,
      (hcompiles₄ (hbefore hto₄)).mono henv₄.children hto₄, hcompiles₅ hroom⟩
    unfold CompilesOption at htarget
    cases hmeaning : configMeaning p configRoot (nodeOption p (some opts) "target") with
    | none =>
        rw [hmeaning] at htarget
        have hmissing : node'.target = -1 := htarget
        omega
    | some meaning => rfl

/-! ## Any node -/

theorem uinputCreate_kind {operationName : Option String} {created : Bool}
    {calls : List LibevdevCall} {node : Option GraphNode}
    (hcreate : uinputCreate p constants operationName created options = .ok (calls, node)) :
    ∀ node' ∈ node, node'.kind = .uinput := by
  intro node' hnode
  obtain ⟨setup, -, hcreate⟩ := (bind_eq_ok_iff _ _ _).mp hcreate
  cases setup with
  | none =>
      cases hcreate
      cases hnode
  | some setup =>
      cases hcreate
      split at hnode
      · cases hnode
        rfl
      · cases hnode

theorem NodeKind.Follows.mono {P : Platform} {kind : NodeKind}
    (h : kind.Follows p configRoot P predicates options) (hchildren : ChildrenBelow predicates)
    (hgrows : predicates <+: predicates') : kind.Follows p configRoot P predicates' options := by
  cases kind with
  | router node =>
      obtain ⟨args, hargs, hcompiles⟩ := h
      exact ⟨args, hargs, hcompiles.imp fun _ _ hcompile => hcompile.mono hchildren hgrows⟩
  | modifyPredicate node =>
      obtain ⟨hmeaning, h₁, h₂, h₃, h₄, h₅⟩ := h
      exact ⟨hmeaning, h₁.mono hchildren hgrows, h₂.mono hchildren hgrows, h₃.mono hchildren hgrows,
        h₄.mono hchildren hgrows, h₅.mono hchildren hgrows⟩
  | _ => exact h

theorem modifiersCreate_follows (h : HoldsConstants p configRoot constants) {operationName : Option String}
    {created : Option ModifiersGraphNode}
    (hcreate : modifiersCreate p constants operationName options = .ok created) (P : Platform) :
    ∀ node ∈ created, (NodeKind.modifiers node).Follows p configRoot P predicates options := by
  intro node hnode
  unfold modifiersCreate at hcreate
  split at hcreate
  · cases hcreate
    cases hnode
  · rename_i options
    split at hcreate
    · cases hcreate
      cases hnode
    · rename_i args hargs
      obtain ⟨modifiers, hcollect, hcreate⟩ := (bind_eq_ok_iff _ _ _).mp hcreate
      refine ⟨args, hargs, fun text htext operation hparse => ?_⟩
      have htext' : p.library.lookupString options "operation" = some text := htext
      rw [htext', Option.some_or, hparse] at hcreate
      cases hcreate
      cases hnode
      exact ⟨rfl, fun m hm => collectModifiers_configured h hcollect hm⟩

end

section

variable {p : ProgramPlatform Setting} {configRoot : Setting} {env : FullConfig Setting} {i : Nat}
  {options : Option Setting} {s s' : CreationState} {spec : NodeType} {created : Option CreatedNode}

/-- With a file that can be opened there is a node. -/
theorem evdevCreate_cases {constants : ConstantRegistry}
    {i : Nat} (hcreate : evdevCreate p constants i options = .ok created) :
    ∀ node ∈ created, ∃ opts ns grab file fd, options = some opts ∧
      optionOr p.config constants opts "namespace" 0 = .ok ns ∧
      optionOr p.config constants opts "grab" 0 = .ok grab ∧
      p.library.lookupString opts "file" = some file ∧ p.openEvdev i file (grab != 0) = some fd ∧
      node = ⟨.evdev (sourceCreate ns.toInt), some fd⟩ := by
  intro node hnode
  cases options with
  | none =>
      cases hcreate
      cases hnode
  | some opts =>
      obtain ⟨ns, hns, hcreate⟩ := (bind_eq_ok_iff _ _ _).mp hcreate
      obtain ⟨grab, hgrab, hcreate⟩ := (bind_eq_ok_iff _ _ _).mp hcreate
      split at hcreate
      · cases hcreate
        cases hnode
      · rename_i file hfile
        cases hcreate
        obtain ⟨fd, hfd, rfl⟩ := Option.map_eq_some_iff.mp hnode
        exact ⟨opts, ns, grab, file, fd, rfl, hns, hgrab, hfile, hfd, rfl⟩

/-- The registry of predicates is all that nodes share, and it only grows. -/
theorem specCreate_loaded (henv : EnvironmentOrdered env s.predicates)
    (hcreate : specCreate p env i options s spec = .ok (created, s')) :
    Loaded s.predicates s'.predicates := by
  have hrefl : Loaded s.predicates s.predicates := .refl henv.children
  cases spec with
  | tee | print =>
      cases hcreate
      exact hrefl
  | router =>
      obtain ⟨⟨router, predicates⟩, hrouter, ⟨⟩⟩ := (bind_eq_ok_iff _ _ _).mp hcreate
      exact routerCreate_loaded henv hrouter
  | modifyPredicate =>
      obtain ⟨⟨node, predicates⟩, hnode, ⟨⟩⟩ := (bind_eq_ok_iff _ _ _).mp hcreate
      exact modifyPredicateCreate_loaded henv hnode
  | modifiers | assign | differentiate | integrate | scale | uinput | window | evdev | getchar =>
      obtain ⟨_, -, ⟨⟩⟩ := (bind_eq_ok_iff _ _ _).mp hcreate
      exact hrefl

/-- A specification creates nodes of its own type. -/
theorem specCreate_type (hcreate : specCreate p env i options s spec = .ok (created, s')) :
    ∀ node ∈ created, node.kind.type = spec := by
  intro node hnode
  cases spec with
  | tee | print =>
      cases hcreate
      cases hnode
      rfl
  | router | modifiers | modifyPredicate =>
      obtain ⟨_, -, ⟨⟩⟩ := (bind_eq_ok_iff _ _ _).mp hcreate
      obtain ⟨_, -, rfl⟩ := Option.map_eq_some_iff.mp hnode
      rfl
  | assign | differentiate | integrate | scale | window =>
      obtain ⟨_, -, ⟨⟩⟩ := (bind_eq_ok_iff _ _ _).mp hcreate
      cases hnode
      rfl
  | uinput =>
      obtain ⟨⟨calls, uinput⟩, huinput, ⟨⟩⟩ := (bind_eq_ok_iff _ _ _).mp hcreate
      obtain ⟨uinput, rfl, rfl⟩ := Option.map_eq_some_iff.mp hnode
      rw [uinputCreate_kind huinput uinput rfl]
      rfl
  | evdev =>
      obtain ⟨evdev, hevdev, ⟨⟩⟩ := (bind_eq_ok_iff _ _ _).mp hcreate
      obtain ⟨options, ns, grab, file, fd, -, -, -, -, -, rfl⟩ := evdevCreate_cases hevdev node hnode
      rfl
  | getchar =>
      obtain ⟨getchar, hgetchar, ⟨⟩⟩ := (bind_eq_ok_iff _ _ _).mp hcreate
      obtain ⟨ns, -, ⟨⟩⟩ := (bind_eq_ok_iff _ _ _).mp hgetchar
      cases hnode
      rfl

/-- A window node starts with an empty buffer. -/
theorem specCreate_window {window : WindowGraphNode}
    (hcreate : specCreate p env i options s spec = .ok (created, s')) :
    ∀ node ∈ created, node.kind = .window window →
      ∃ windowOptions draws, window = (windowCreate p.toPlatform windowOptions draws).1 := by
  intro node hnode hkind
  have htype := specCreate_type hcreate node hnode
  rw [hkind] at htype
  subst htype
  obtain ⟨windowOptions, -, ⟨⟩⟩ := (bind_eq_ok_iff _ _ _).mp hcreate
  cases hnode
  cases hkind
  exact ⟨windowOptions, s.draws, rfl⟩

/-- The file that a new node reads, by its options: the standard input, or what opening the device
gives. -/
def ReadsFile (p : ProgramPlatform Setting) (env : FullConfig Setting) (i : Nat)
    (options : Option Setting) (fd : Int) : NodeType → Prop
  | .getchar => fd = 0
  | .evdev => ∃ opts grab file, options = some opts ∧
      optionOr p.config env.constants opts "grab" 0 = .ok grab ∧
      p.library.lookupString opts "file" = some file ∧ p.openEvdev i file (grab != 0) = some fd
  | _ => False

/-- Those nodes are subscribed for input that handle no events, and they are enabled. -/
theorem specCreate_fd (hcreate : specCreate p env i options s spec = .ok (created, s')) :
    ∀ node ∈ created, (node.fd.isSome = !spec.hasHandler) ∧ node.kind.reading = node.kind := by
  intro node hnode
  cases spec with
  | tee | print =>
      cases hcreate
      cases hnode
      exact ⟨rfl, rfl⟩
  | router | modifiers | modifyPredicate =>
      obtain ⟨_, -, ⟨⟩⟩ := (bind_eq_ok_iff _ _ _).mp hcreate
      obtain ⟨_, -, rfl⟩ := Option.map_eq_some_iff.mp hnode
      exact ⟨rfl, rfl⟩
  | uinput =>
      obtain ⟨⟨calls, uinput⟩, huinput, ⟨⟩⟩ := (bind_eq_ok_iff _ _ _).mp hcreate
      obtain ⟨uinput, rfl, rfl⟩ := Option.map_eq_some_iff.mp hnode
      dsimp only
      rw [uinputCreate_kind huinput uinput rfl]
      exact ⟨rfl, rfl⟩
  | assign | differentiate | integrate | scale | window =>
      obtain ⟨_, -, ⟨⟩⟩ := (bind_eq_ok_iff _ _ _).mp hcreate
      cases hnode
      exact ⟨rfl, rfl⟩
  | evdev =>
      obtain ⟨evdev, hevdev, ⟨⟩⟩ := (bind_eq_ok_iff _ _ _).mp hcreate
      obtain ⟨options, ns, grab, file, fd, -, -, -, -, -, rfl⟩ := evdevCreate_cases hevdev node hnode
      exact ⟨rfl, rfl⟩
  | getchar =>
      obtain ⟨getchar, hgetchar, ⟨⟩⟩ := (bind_eq_ok_iff _ _ _).mp hcreate
      obtain ⟨ns, -, ⟨⟩⟩ := (bind_eq_ok_iff _ _ _).mp hgetchar
      cases hnode
      exact ⟨rfl, rfl⟩

theorem specCreate_readsFile (hcreate : specCreate p env i options s spec = .ok (created, s')) :
    ∀ node ∈ created, ∀ fd ∈ node.fd, ReadsFile p env i options fd spec := by
  intro node hnode fd hfd
  have hsome := (specCreate_fd hcreate node hnode).1
  rw [Option.mem_def.mp hfd] at hsome
  cases spec with
  | evdev =>
      obtain ⟨evdev, hevdev, ⟨⟩⟩ := (bind_eq_ok_iff _ _ _).mp hcreate
      obtain ⟨opts, ns, grab, file, fd', rfl, -, hgrab, hfile, hopen, rfl⟩ :=
        evdevCreate_cases hevdev node hnode
      cases hfd
      exact ⟨opts, grab, file, rfl, hgrab, hfile, hopen⟩
  | getchar =>
      obtain ⟨getchar, hgetchar, ⟨⟩⟩ := (bind_eq_ok_iff _ _ _).mp hcreate
      obtain ⟨ns, -, ⟨⟩⟩ := (bind_eq_ok_iff _ _ _).mp hgetchar
      cases hnode
      cases hfd
      rfl
  | _ => cases hsome

/-- The state of a new node is the one that its options describe. -/
theorem specCreate_follows (henv : EnvironmentCompiles p.config configRoot env s.predicates)
    (hcreate : specCreate p env i options s spec = .ok (created, s'))
    (hroom : s'.predicates.length < int32Max) :
    ∀ node ∈ created,
      node.kind.Follows p.config configRoot p.toPlatform s'.predicates options := by
  have hconstants : HoldsConstants p.config configRoot env.constants := henv.constants
  intro node hnode
  cases spec with
  | tee | print =>
      cases hcreate
      cases hnode
      trivial
  | router =>
      obtain ⟨⟨router, predicates⟩, hrouter, ⟨⟩⟩ := (bind_eq_ok_iff _ _ _).mp hcreate
      obtain ⟨router, rfl, rfl⟩ := Option.map_eq_some_iff.mp hnode
      exact routerCreate_follows henv hrouter hroom p.toPlatform router rfl
  | modifiers =>
      obtain ⟨modifiers, hmodifiers, ⟨⟩⟩ := (bind_eq_ok_iff _ _ _).mp hcreate
      obtain ⟨modifiers, rfl, rfl⟩ := Option.map_eq_some_iff.mp hnode
      exact modifiersCreate_follows hconstants hmodifiers p.toPlatform modifiers rfl
  | modifyPredicate =>
      obtain ⟨⟨modify, predicates⟩, hmodify, ⟨⟩⟩ := (bind_eq_ok_iff _ _ _).mp hcreate
      obtain ⟨modify, rfl, rfl⟩ := Option.map_eq_some_iff.mp hnode
      exact modifyPredicateCreate_follows henv hmodify hroom p.toPlatform modify rfl
  | assign =>
      obtain ⟨assign, hassign, ⟨⟩⟩ := (bind_eq_ok_iff _ _ _).mp hcreate
      cases hnode
      exact assignCreate_configured hconstants hassign
  | differentiate =>
      obtain ⟨differentiate, hdifferentiate, ⟨⟩⟩ := (bind_eq_ok_iff _ _ _).mp hcreate
      cases hnode
      cases options with
      | none =>
          cases hdifferentiate
          rfl
      | some options =>
          obtain ⟨initial, hinitial, ⟨⟩⟩ := (bind_eq_ok_iff _ _ _).mp hdifferentiate
          exact optionOr_configured hconstants hinitial
  | integrate =>
      obtain ⟨integrate, hintegrate, ⟨⟩⟩ := (bind_eq_ok_iff _ _ _).mp hcreate
      cases hnode
      cases options with
      | none =>
          cases hintegrate
          rfl
      | some options =>
          obtain ⟨initial, hinitial, ⟨⟩⟩ := (bind_eq_ok_iff _ _ _).mp hintegrate
          exact optionOr_configured hconstants hinitial
  | scale =>
      obtain ⟨scale, hscale, ⟨⟩⟩ := (bind_eq_ok_iff _ _ _).mp hcreate
      cases hnode
      exact scaleCreate_configured hconstants hscale
  | uinput =>
      obtain ⟨⟨calls, uinput⟩, huinput, ⟨⟩⟩ := (bind_eq_ok_iff _ _ _).mp hcreate
      obtain ⟨uinput, rfl, rfl⟩ := Option.map_eq_some_iff.mp hnode
      have hkind := uinputCreate_kind huinput uinput rfl
      rw [hkind]
      trivial
  | window =>
      obtain ⟨windowOptions, hoptions, ⟨⟩⟩ := (bind_eq_ok_iff _ _ _).mp hcreate
      obtain rfl := loadWindowOptions_configured hconstants hoptions
      cases hnode
      exact ⟨s.draws, rfl⟩
  | evdev =>
      obtain ⟨evdev, hevdev, ⟨⟩⟩ := (bind_eq_ok_iff _ _ _).mp hcreate
      obtain ⟨options, ns, grab, file, fd, rfl, hns, -, -, -, rfl⟩ := evdevCreate_cases hevdev node hnode
      rw [optionOr_configured hconstants hns]
      rfl
  | getchar =>
      obtain ⟨getchar, hgetchar, ⟨⟩⟩ := (bind_eq_ok_iff _ _ _).mp hcreate
      obtain ⟨ns, hns, ⟨⟩⟩ := (bind_eq_ok_iff _ _ _).mp hgetchar
      cases hnode
      cases options with
      | none =>
          cases hns
          rfl
      | some options =>
          rw [optionOr_configured hconstants hns]
          rfl

end

end EventSeq
