import EventSeq.Constants
import EventSeq.PredicateFrame
import EventSeq.PredicateLoading

/-!
# What the predicates of a configuration mean

A definition is read as a function from events to results, without handles and without a registry;
the names in it stand for what they meant when it was made.  Loading compiles these functions: a
handle evaluates to the function of its definition, whatever is registered afterwards.
-/

namespace EventSeq

abbrev PredicateMeaning := EventNode → EventPredicateResult

/-- What the names that are defined so far mean. -/
abbrev PredicateScope := String → Option PredicateMeaning

namespace PredicateMeaning

def disabled : PredicateMeaning := fun _ => .disabled

/-- A condition with the two flags of a predicate; where it decides nothing, neither do they. -/
def ofCondition (enabled inverted : Bool) (condition : EventNode → Option Bool) : PredicateMeaning :=
  fun event =>
    match enabled, condition event with
    | true, some accepted => if accepted = inverted then .rejected else .accepted
    | _, _ => .disabled

/-- All arguments that are enabled accept the event. -/
def conjunction (args : List PredicateMeaning) (event : EventNode) : Option Bool :=
  if args.isEmpty then none else some (args.all fun arg => arg event != .rejected)

/-- Some argument accepts the event. -/
def disjunction (args : List PredicateMeaning) (event : EventNode) : Option Bool :=
  if args.isEmpty then none else some (args.any fun arg => arg event == .accepted)

end PredicateMeaning

section

variable {Setting : Type} (p : ConfigPlatform Setting) (defs : Definitions)

/-- The meanings of the arguments; one that is no predicate counts as a disabled one. -/
def argumentMeanings (meaning : Option Setting → Option PredicateMeaning) (setting : Setting) :
    List PredicateMeaning :=
  match p.library.getMember setting "args" with
  | none => []
  | some args => (p.library.elems args).map fun arg => (meaning arg).getD .disabled

/-- The condition that a definition of this type states, if it is a definition. -/
def definedCondition (meaning : Option Setting → Option PredicateMeaning) (setting : Setting) :
    NamedPredicateType → Option (EventNode → Option Bool)
  | .invalid => none
  | .accept => some fun _ => some true
  | .range field =>
      let minValue := (settingValue p defs (p.library.getMember setting "min")).getD Int64.minValue
      let maxValue := (settingValue p defs (p.library.getMember setting "max")).getD Int64.maxValue
      some fun event => some (minValue ≤ field.actual event && field.actual event ≤ maxValue)
  | .conjunction => some (PredicateMeaning.conjunction (argumentMeanings p meaning setting))
  | .disjunction => some (PredicateMeaning.disjunction (argumentMeanings p meaning setting))
  | .modifier =>
      let modifier := (settingValue p defs (p.library.getMember setting "modifier")).getD (-1)
      if modifier.toInt < 0 ∨ modifier.toInt > modifierMax then none
      else some fun event => some (modifierSetHas event.data.modifiers modifier.toInt)

/-- A flag of a definition, which a number or a constant other than 0 sets. -/
def definedFlag (setting : Setting) (name : String) (dflt : Int64) : Bool :=
  (settingValue p defs (p.library.getMember setting name)).getD dflt != 0

def definedMeaning (meaning : Option Setting → Option PredicateMeaning) (setting : Setting) :
    Option PredicateMeaning :=
  match p.library.lookupString setting "type" with
  | none => none
  | some typeName =>
      (definedCondition p defs meaning setting (parseEventPredicateType typeName)).map
        (PredicateMeaning.ofCondition (definedFlag p defs setting "enabled" 1)
          (definedFlag p defs setting "inverted" 0))

/-- The meaning of a setting, definitions nested at most `depth` deep: a string stands for what its
name means, anything else is a definition of its own. -/
def settingMeaning (scope : PredicateScope) : Nat → Option Setting → Option PredicateMeaning
  | 0, _ => none
  | _ + 1, none => none
  | depth + 1, some setting =>
      if p.library.type setting = .string then (p.library.getString setting).bind scope
      else definedMeaning p defs (settingMeaning scope depth) setting

/-- A definition that has a meaning gives it to its name, also if the name had one already. -/
def definePredicate (scope : PredicateScope) (predicateDef : Setting) : PredicateScope :=
  match p.library.name predicateDef, settingMeaning p defs scope p.depth (some predicateDef) with
  | some name, some meaning => Function.update scope name (some meaning)
  | _, _ => scope

/-- The names after a section, which are defined from its first entry to its last. -/
def sectionScope (configSection : Option Setting) : PredicateScope :=
  (presentElems p configSection).foldl (definePredicate p defs) fun _ => none

/-- The names of a configuration. -/
def configScope (configRoot : Setting) : PredicateScope :=
  sectionScope p (definitions p configRoot) (p.library.getMember configRoot "predicates")

/-- The meaning of a setting that a node of the configuration resolves. -/
def configMeaning (configRoot : Setting) (setting : Option Setting) : Option PredicateMeaning :=
  settingMeaning p (definitions p configRoot) (configScope p configRoot) p.depth setting

end

/-! ## Registries that grow -/

section

variable {predicates predicates' : EventPredicateList} {handle : Int} {event : EventNode}

theorem eventPredicateApplyFrom_mono {depth depth' : Nat} (hle : depth ≤ depth')
    {res : EventPredicateResult}
    (h : eventPredicateApplyFrom predicates event depth handle = .ok res) :
    eventPredicateApplyFrom predicates event depth' handle = .ok res := by
  induction depth', hle using Nat.le_induction with
  | base => exact h
  | succ depth' _ ih => exact eventPredicateApplyFrom_extends predicates event depth' handle res ih

theorem getPtr_extended (hgrows : predicates <+: predicates')
    (hbelow : HandleBelow predicates.length handle) :
    eventPredicateGetPtr predicates' handle = eventPredicateGetPtr predicates handle := by
  unfold HandleBelow at hbelow
  unfold eventPredicateGetPtr
  split
  · rfl
  · obtain ⟨added, rfl⟩ := hgrows
    rw [List.getElem?_append_left (by omega)]

/-- The handles of a registry are closed under arguments, so nothing above them is looked at. -/
theorem eventPredicateApplyFrom_extended (h : ChildrenBelow predicates)
    (hgrows : predicates <+: predicates') (hbelow : HandleBelow predicates.length handle)
    (depth : Nat) :
    eventPredicateApplyFrom predicates' event depth handle =
      eventPredicateApplyFrom predicates event depth handle := by
  apply eventPredicateApplyFrom_frame (HandleBelow predicates.length) _ _ event depth hbelow
  · intro child parent ⟨ptr, hptr, hchild⟩ _
    obtain ⟨hpos, hget⟩ := eventPredicateGetPtr_eq_some_iff.mp hptr
    have hlt : parent.toNat < predicates.length := (List.getElem?_eq_some_iff.mp hget).1
    exact (h parent.toNat ptr hget child hchild).mono hlt.le
  · intro handle hbelow
    exact getPtr_extended hgrows hbelow

/-- What is registered later does not change what an earlier handle decides. -/
theorem eventPredicateApply_extended (h : ChildrenBelow predicates)
    (hgrows : predicates <+: predicates') (hbelow : HandleBelow predicates.length handle)
    (event : EventNode) :
    eventPredicateApply predicates' handle event = eventPredicateApply predicates handle event := by
  obtain ⟨res, hres⟩ := eventPredicateApply_ok h.acyclic event handle
  rw [hres]
  show eventPredicateApplyFrom predicates' event (predicates'.length + 1) handle = .ok res
  rw [eventPredicateApplyFrom_extended h hgrows hbelow]
  have hle : predicates.length + 1 ≤ predicates'.length + 1 :=
    Nat.succ_le_succ hgrows.length_le
  exact eventPredicateApplyFrom_mono hle hres

end

/-! ## Handles that stand for a meaning -/

/-- The handle decides what the meaning says; it is -1 where there is none. -/
def Compiles (predicates : EventPredicateList) (handle : Int) : Option PredicateMeaning → Prop
  | none => handle = -1
  | some meaning => (0 ≤ handle ∧ handle < predicates.length) ∧
      ∀ event, eventPredicateApply predicates handle event = .ok (meaning event)

/-- Each name has a handle for what it means. -/
def NamesCompile (names : EventPredicateHandleRegistry) (predicates : EventPredicateList)
    (scope : PredicateScope) : Prop :=
  ∃ m, names.Holds m ∧
    ∀ name, Option.Rel (fun handle meaning => Compiles predicates handle (some meaning))
      (m name) (scope name)

section

variable {predicates predicates' : EventPredicateList} {handle : Int} {meaning : PredicateMeaning}
  {defined : Option PredicateMeaning} {scope : PredicateScope}

theorem Compiles.apply (h : Compiles predicates handle defined) (event : EventNode) :
    eventPredicateApply predicates handle event = .ok ((defined.getD .disabled) event) := by
  cases defined with
  | none =>
      obtain rfl : handle = -1 := h
      rfl
  | some meaning => exact h.2 event

theorem Compiles.mono (h : Compiles predicates handle defined) (hchildren : ChildrenBelow predicates)
    (hgrows : predicates <+: predicates') : Compiles predicates' handle defined := by
  cases defined with
  | none => exact h
  | some meaning =>
      have hlength := hgrows.length_le
      refine ⟨⟨h.1.1, by have := h.1.2; omega⟩, fun event => ?_⟩
      rw [eventPredicateApply_extended hchildren hgrows (.inr h.1)]
      exact h.2 event

theorem NamesCompile.mono {names : EventPredicateHandleRegistry}
    (h : NamesCompile names predicates scope) (hchildren : ChildrenBelow predicates)
    (hgrows : predicates <+: predicates') : NamesCompile names predicates' scope := by
  obtain ⟨m, hholds, hnames⟩ := h
  refine ⟨m, hholds, fun name => ?_⟩
  have hname := hnames name
  revert hname
  cases m name <;> cases scope name <;> intro hname <;> cases hname
  · exact .none
  · rename_i hcompiles
    exact .some (hcompiles.mono hchildren hgrows)

theorem NamesCompile.below {names : EventPredicateHandleRegistry}
    (h : NamesCompile names predicates scope) : NamesBelow names predicates.length := by
  obtain ⟨m, hholds, hnames⟩ := h
  refine ⟨m, hholds, fun name handle hm => ?_⟩
  have hname := hnames name
  rw [hm] at hname
  revert hname
  cases scope name <;> intro hname <;> cases hname
  rename_i hcompiles
  exact hcompiles.1

theorem NamesCompile.find {names : EventPredicateHandleRegistry}
    (h : NamesCompile names predicates scope) (name : String) :
    ∃ found, findName names name = .ok found ∧ Compiles predicates (found.getD (-1)) (scope name) := by
  obtain ⟨m, hholds, hnames⟩ := h
  refine ⟨m name, findName_eq hholds name, ?_⟩
  have hname := hnames name
  revert hname
  cases m name <;> cases scope name <;> intro hname <;> cases hname
  · rfl
  · assumption

end

/-! ## Loading compiles -/

/-- The loop ends early, but the arguments it has not looked at would not change its result. -/
theorem aggregateLoop_meanings {apply : Int → Except Fault EventPredicateResult} {event : EventNode}
    {handles : List Int} {args : List PredicateMeaning}
    (h : handles.map apply = args.map fun arg => .ok (arg event)) :
    aggregateLoop apply false handles = .ok (args.all fun arg => arg event != .rejected) ∧
      aggregateLoop apply true handles = .ok (args.any fun arg => arg event == .accepted) := by
  induction handles generalizing args with
  | nil =>
      obtain rfl : args = [] := List.map_eq_nil_iff.mp h.symm
      exact ⟨rfl, rfl⟩
  | cons handle handles ih =>
      cases args with
      | nil => cases h
      | cons arg args =>
          rw [List.map_cons, List.map_cons, List.cons.injEq] at h
          obtain ⟨hhead, htail⟩ := h
          obtain ⟨hall, hany⟩ := ih htail
          rw [aggregateLoop, aggregateLoop, hhead, List.all_cons, List.any_cons]
          cases hres : arg event <;> simp [bind, Except.bind, hall, hany]

/-- The condition of a predicate type, evaluated in the registry. -/
def Decides (predicates : EventPredicateList) (type : EventPredicateType)
    (condition : EventNode → Option Bool) : Prop :=
  ∀ event, baseCondition (fun child => eventPredicateApply predicates child event) event type =
    .ok (condition event)

/-- The resolver compiles the meaning of every setting, in any registry that extends the given one
and has room for what it registers. -/
def CompilesTo {Setting : Type} (predicates₀ : EventPredicateList) (resolve : PredicateResolver Setting)
    (meaning : Option Setting → Option PredicateMeaning) : Prop :=
  ∀ ⦃predicates predicates' setting handle⦄, predicates₀ <+: predicates → ChildrenBelow predicates →
    resolve predicates setting = .ok (handle, predicates') → predicates'.length < int32Max →
    Compiles predicates' handle (meaning setting)

section

variable {Setting : Type} {p : ConfigPlatform Setting} {defs : Definitions}
  {constants : TableState String Int64} {resolve : PredicateResolver Setting}
  {meaning : Option Setting → Option PredicateMeaning}
  {predicates₀ predicates predicates' : EventPredicateList} {handle : Int}

theorem loadHandles_compiles (hresolve : CompilesTo predicates₀ resolve meaning)
    (hbelow : ResolvesBelow resolve predicates₀.length) {args : List (Option Setting)}
    {handles : List Int} (hgrown : predicates₀ <+: predicates) (h : ChildrenBelow predicates)
    (hload : loadHandles resolve args predicates = .ok (handles, predicates'))
    (hroom : predicates'.length < int32Max) :
    List.Forall₂ (fun handle arg => Compiles predicates' handle (meaning arg)) handles args := by
  induction args generalizing predicates handles with
  | nil =>
      cases hload
      exact .nil
  | cons arg args ih =>
      obtain ⟨⟨handle, predicates₁⟩, hfirst, hload⟩ := (bind_eq_ok_iff _ _ _).mp hload
      obtain ⟨⟨rest, predicates₂⟩, hrest, ⟨⟩⟩ := (bind_eq_ok_iff _ _ _).mp hload
      -- the registry grows with every argument, so there was room for each of them
      have hloaded := (hbelow hgrown.length_le h hfirst).1
      have hgrown₁ := hgrown.trans hloaded.grows
      have hrestLoaded := (loadHandles_loaded hbelow hgrown₁.length_le hloaded.children hrest).1
      have hroom₁ : (predicates₁.length : Int) < int32Max := by
        have hle := hrestLoaded.length_le
        omega
      have hcompiles := hresolve hgrown h hfirst hroom₁
      exact .cons (hcompiles.mono hloaded.children hrestLoaded.grows)
        (ih hgrown₁ hloaded.children hrest)

theorem apply_compiled {handles : List Int} {args : List (Option Setting)}
    (h : List.Forall₂ (fun handle arg => Compiles predicates handle (meaning arg)) handles args)
    (event : EventNode) :
    handles.map (fun child => eventPredicateApply predicates child event) =
      args.map fun arg => .ok (((meaning arg).getD .disabled) event) := by
  induction h with
  | nil => rfl
  | cons hhead _ ih => rw [List.map_cons, List.map_cons, ih, hhead.apply event]

/-- No array of handles stands for no arguments. -/
theorem loadArgs_compiles (hresolve : CompilesTo predicates₀ resolve meaning)
    (hbelow : ResolvesBelow resolve predicates₀.length) {setting : Setting}
    {handles : Option (List Int)} (hgrown : predicates₀ <+: predicates) (h : ChildrenBelow predicates)
    (hload : loadArgs p resolve predicates (p.library.getMember setting "args") =
      .ok (handles, predicates'))
    (hroom : predicates'.length < int32Max) :
    (handles = none ↔ argumentMeanings p meaning setting = []) ∧
      ∀ event, (handles.getD []).map (fun child => eventPredicateApply predicates' child event) =
        (argumentMeanings p meaning setting).map fun arg => .ok (arg event) := by
  unfold loadArgs at hload
  unfold argumentMeanings
  cases hargs : p.library.getMember setting "args" with
  | none =>
      rw [hargs] at hload
      obtain ⟨length, -, hload⟩ := (bind_eq_ok_iff _ _ _).mp hload
      split at hload
      · cases hload
      · cases hload
        simp
  | some args =>
      rw [hargs] at hload
      dsimp only at hload ⊢
      split at hload
      · rename_i hpositive
        obtain ⟨⟨list, predicates₁⟩, hlist, ⟨⟩⟩ := (bind_eq_ok_iff _ _ _).mp hload
        have hall := loadHandles_compiles hresolve hbelow hgrown h hlist hroom
        constructor
        · have hsome : (p.library.elems args).length ≠ 0 := by
            simp only [SettingLibrary.elems, List.length_map, List.length_range]
            omega
          simp only [reduceCtorEq, List.map_eq_nil_iff, false_iff]
          rintro hnil
          exact hsome (by rw [hnil]; rfl)
        · intro event
          rw [List.map_map, Option.getD_some]
          exact apply_compiled hall event
      · rename_i hempty
        cases hload
        have hnil : p.library.elems args = [] := by
          simp only [SettingLibrary.elems, List.map_eq_nil_iff, List.range_eq_nil]
          omega
        simp [hnil]

theorem loadArgs_decides (hresolve : CompilesTo predicates₀ resolve meaning)
    (hbelow : ResolvesBelow resolve predicates₀.length) {setting : Setting}
    {handles : Option (List Int)} (hgrown : predicates₀ <+: predicates) (h : ChildrenBelow predicates)
    (hload : loadArgs p resolve predicates (p.library.getMember setting "args") =
      .ok (handles, predicates'))
    (hroom : predicates'.length < int32Max) :
    Decides predicates' (.conjunction handles)
        (PredicateMeaning.conjunction (argumentMeanings p meaning setting)) ∧
      Decides predicates' (.disjunction handles)
        (PredicateMeaning.disjunction (argumentMeanings p meaning setting)) := by
  obtain ⟨hnone, hmap⟩ := loadArgs_compiles hresolve hbelow hgrown h hload hroom
  cases handles with
  | none =>
      have hnil := hnone.mp rfl
      rw [hnil]
      exact ⟨fun _ => rfl, fun _ => rfl⟩
  | some handles =>
      have hne : (argumentMeanings p meaning setting).isEmpty = false := by
        cases hargs : argumentMeanings p meaning setting with
        | nil => cases hnone.mpr hargs
        | cons _ _ => rfl
      constructor <;> intro event
      · apply (bind_eq_ok_iff _ _ _).mpr ⟨_, (aggregateLoop_meanings (hmap event)).1, _⟩
        rw [PredicateMeaning.conjunction, hne]
        rfl
      · apply (bind_eq_ok_iff _ _ _).mpr ⟨_, (aggregateLoop_meanings (hmap event)).2, _⟩
        rw [PredicateMeaning.disjunction, hne]
        rfl

theorem loadPredicateData_decides (hholds : HoldsDefinitions defs constants)
    (hresolve : CompilesTo predicates₀ resolve meaning)
    (hbelow : ResolvesBelow resolve predicates₀.length) {setting : Setting}
    {named : NamedPredicateType} {data : Option EventPredicateType}
    (hgrown : predicates₀ <+: predicates) (h : ChildrenBelow predicates)
    (hload : loadPredicateData p resolve (some constants.ht) predicates setting named =
      .ok (data, predicates'))
    (hroom : predicates'.length < int32Max) :
    Option.Rel (Decides predicates') data (definedCondition p defs meaning setting named) := by
  cases named with
  | invalid =>
      cases hload
      exact .none
  | accept =>
      cases hload
      exact .some fun _ => rfl
  | range field =>
      obtain ⟨minValue, hmin, hload⟩ := (bind_eq_ok_iff _ _ _).mp hload
      obtain ⟨maxValue, hmax, ⟨⟩⟩ := (bind_eq_ok_iff _ _ _).mp hload
      rw [resolveConstantOr_eq hholds hmin, resolveConstantOr_eq hholds hmax]
      exact .some fun _ => rfl
  | conjunction =>
      obtain ⟨⟨handles, predicates₁⟩, hargs, ⟨⟩⟩ := (bind_eq_ok_iff _ _ _).mp hload
      exact .some (loadArgs_decides hresolve hbelow hgrown h hargs hroom).1
  | disjunction =>
      obtain ⟨⟨handles, predicates₁⟩, hargs, ⟨⟩⟩ := (bind_eq_ok_iff _ _ _).mp hload
      exact .some (loadArgs_decides hresolve hbelow hgrown h hargs hroom).2
  | modifier =>
      obtain ⟨modifier, hmodifier, hload⟩ := (bind_eq_ok_iff _ _ _).mp hload
      rw [definedCondition, ← resolveConstantOr_eq hholds hmodifier]
      split at hload
      · rename_i hrange
        cases hload
        rw [if_pos hrange]
        exact .none
      · rename_i hrange
        cases hload
        rw [if_neg hrange]
        exact .some fun _ => rfl

/-- A predicate that is registered after its arguments decides by its condition and its flags. -/
theorem eventPredicateRegister_compiles {type : EventPredicateType}
    {condition : EventNode → Option Bool} {enabled inverted : Bool} (h : ChildrenBelow predicates)
    (hchildren : ∀ child ∈ type.handles, HandleBelow predicates.length child)
    (hdecides : Decides predicates type condition)
    (hregister : eventPredicateRegister predicates ⟨type, enabled, inverted⟩ = (handle, predicates'))
    (hroom : predicates'.length < int32Max) :
    Compiles predicates' handle (some (.ofCondition enabled inverted condition)) := by
  unfold eventPredicateRegister at hregister
  split at hregister
  · cases hregister
    omega
  · cases hregister
    have hgrows : predicates <+: predicates ++ [⟨type, enabled, inverted⟩] := List.prefix_append _ _
    have hlength : (predicates ++ [EventPredicate.mk type enabled inverted]).length =
        predicates.length + 1 := by
      rw [List.length_append, List.length_singleton]
    have hptr : eventPredicateGetPtr (predicates ++ [⟨type, enabled, inverted⟩]) predicates.length =
        some ⟨type, enabled, inverted⟩ := by
      rw [eventPredicateGetPtr, if_neg (by omega), Int.toNat_natCast, List.getElem?_concat_length]
    refine ⟨⟨by omega, by omega⟩, fun event => ?_⟩
    -- the arguments are evaluated as in the registry before
    have hbase : baseCondition (eventPredicateApplyFrom
        (predicates ++ [⟨type, enabled, inverted⟩]) event (predicates.length + 1)) event type =
        .ok (condition event) := by
      rw [← hdecides event]
      apply baseCondition_congr
      intro child hchild
      exact eventPredicateApplyFrom_extended h hgrows (hchildren child hchild) _
    rw [eventPredicateApply, hlength, eventPredicateApplyFrom, hptr]
    dsimp only
    rw [hbase]
    cases enabled with
    | false => rfl
    | true =>
        unfold PredicateMeaning.ofCondition
        cases condition event with
        | none => rfl
        | some accepted => cases accepted <;> cases inverted <;> rfl

theorem loadSinglePredicate_compiles (hholds : HoldsDefinitions defs constants)
    (hresolve : CompilesTo predicates₀ resolve meaning)
    (hbelow : ResolvesBelow resolve predicates₀.length) {setting : Setting}
    (hgrown : predicates₀ <+: predicates) (h : ChildrenBelow predicates)
    (hload : loadSinglePredicate p resolve (some constants.ht) predicates setting =
      .ok (handle, predicates'))
    (hroom : predicates'.length < int32Max) :
    Compiles predicates' handle (definedMeaning p defs meaning setting) := by
  unfold loadSinglePredicate at hload
  unfold definedMeaning
  cases hname : p.library.lookupString setting "type" with
  | none =>
      rw [hname] at hload
      cases hload
      rfl
  | some typeName =>
      rw [hname] at hload
      obtain ⟨⟨data, predicates₁⟩, hdata, hload⟩ := (bind_eq_ok_iff _ _ _).mp hload
      obtain ⟨hloaded, hchildren⟩ := loadPredicateData_loaded hbelow hgrown.length_le h hdata
      dsimp only at hload ⊢
      cases data with
      | none =>
          cases hload
          have hdecides := loadPredicateData_decides hholds hresolve hbelow hgrown h hdata hroom
          revert hdecides
          cases definedCondition p defs meaning setting (parseEventPredicateType typeName) <;>
            intro hdecides <;> cases hdecides
          rfl
      | some type =>
          obtain ⟨enabled, henabled, hload⟩ := (bind_eq_ok_iff _ _ _).mp hload
          obtain ⟨inverted, hinverted, hload⟩ := (bind_eq_ok_iff _ _ _).mp hload
          have hregister := Except.ok.inj hload
          have hle := (eventPredicateRegister_loaded hloaded.children (hchildren type rfl)
            hregister).1.length_le
          have hdecides := loadPredicateData_decides hholds hresolve hbelow hgrown h hdata
            (show (predicates₁.length : Int) < int32Max by omega)
          revert hdecides
          cases definedCondition p defs meaning setting (parseEventPredicateType typeName) <;>
            intro hdecides <;> cases hdecides
          rename_i hdecides
          rw [Option.map_some, definedFlag, definedFlag, ← resolveConstantOr_eq hholds henabled,
            ← resolveConstantOr_eq hholds hinverted]
          exact eventPredicateRegister_compiles hloaded.children (hchildren type rfl) hdecides
            hregister hroom

/-- The induction is on the nesting of definitions: the arguments of one are a level deeper. -/
theorem resolveEventPredicateFrom_compiles (hholds : HoldsDefinitions defs constants)
    {names : EventPredicateHandleRegistry} {scope : PredicateScope}
    (hnames : NamesCompile names predicates₀ scope) (hchildren : ChildrenBelow predicates₀)
    (depth : Nat) :
    CompilesTo predicates₀ (resolveEventPredicateFrom p (some names) (some constants.ht) depth)
      (settingMeaning p defs scope depth) := by
  have hbelow : ∀ depth, ResolvesBelow
      (resolveEventPredicateFrom p (some names) (some constants.ht) depth) predicates₀.length := by
    apply resolveEventPredicateFrom_loaded
    rintro names ⟨⟩
    exact hnames.below
  induction depth with
  | zero =>
      intro predicates predicates' setting handle _ _ hresolve
      cases hresolve
  | succ depth ih =>
      intro predicates predicates' setting handle hgrown h hresolve hroom
      cases setting with
      | none =>
          cases hresolve
          rfl
      | some setting =>
          unfold resolveEventPredicateFrom at hresolve
          unfold settingMeaning
          by_cases hstring : p.library.type setting = .string
          · -- a name stands for the handle that it has
            rw [if_pos hstring] at hresolve ⊢
            obtain ⟨name, hname, hresolve⟩ := (bind_eq_ok_iff _ _ _).mp hresolve
            obtain ⟨found, hfound, ⟨⟩⟩ := (bind_eq_ok_iff _ _ _).mp hresolve
            cases htext : p.library.getString setting with
            | none =>
                rw [htext] at hname
                cases hname
            | some text =>
                rw [htext] at hname
                obtain rfl : text = name := Except.ok.inj hname
                obtain ⟨handle, hhandle, hcompiles⟩ := (hnames.mono hchildren hgrown).find text
                rw [hhandle] at hfound
                cases hfound
                exact hcompiles
          · rw [if_neg hstring] at hresolve ⊢
            exact loadSinglePredicate_compiles hholds ih (hbelow depth) hgrown h hresolve hroom

/-! ## Whole configurations -/

/-- The loaded definitions have the meanings of the scope, if the registry never was full. -/
structure ScopeLoaded (scope : PredicateScope) (s : PredicateState) : Prop where
  ordered : s.Ordered
  compiles : (s.predicates.length : Int) < int32Max → NamesCompile s.names.ht s.predicates scope

theorem loadPredicate_compiles (hholds : HoldsDefinitions defs constants) {scope : PredicateScope}
    {s s' : PredicateState} {predicateDef : Setting} (h : ScopeLoaded scope s)
    (hload : loadPredicate p (some constants.ht) s (some predicateDef) = .ok s') :
    ScopeLoaded (definePredicate p defs scope predicateDef) s' := by
  refine ⟨h.ordered.loadPredicate hload, fun hroom => ?_⟩
  obtain ⟨⟨handle, predicates'⟩, hresolve, hload⟩ := (bind_eq_ok_iff _ _ _).mp hload
  have hloaded := (resolveEventPredicateFrom_loaded (by rintro names ⟨⟩; exact h.ordered.names) p.depth
    le_rfl h.ordered.children hresolve).1
  have hle := hloaded.length_le
  unfold definePredicate
  cases hname : p.library.name predicateDef with
  | none =>
      rw [hname] at hload
      cases hload
      have hroom' : (predicates'.length : Int) < int32Max := hroom
      exact (h.compiles (by omega)).mono h.ordered.children hloaded.grows
  | some name =>
      rw [hname] at hload
      dsimp only at hload ⊢
      have hroom' : (predicates'.length : Int) < int32Max := by
        split at hload
        · obtain ⟨names, -, ⟨⟩⟩ := (bind_eq_ok_iff _ _ _).mp hload
          exact hroom
        · cases hload
          exact hroom
      have hnames := h.compiles (by omega)
      have hcompiles := resolveEventPredicateFrom_compiles hholds hnames h.ordered.children p.depth
        List.prefix_rfl h.ordered.children hresolve hroom'
      have hgrown := hnames.mono h.ordered.children hloaded.grows
      cases hmeaning : settingMeaning p defs scope p.depth (some predicateDef) with
      | none =>
          rw [hmeaning] at hcompiles
          obtain rfl : handle = -1 := hcompiles
          rw [if_neg (by omega)] at hload
          cases hload
          exact hgrown
      | some meaning =>
          rw [hmeaning] at hcompiles
          rw [if_pos hcompiles.1.1] at hload
          obtain ⟨names, hinsert, ⟨⟩⟩ := (bind_eq_ok_iff _ _ _).mp hload
          obtain ⟨m, hm, hrel⟩ := hgrown
          refine ⟨_, insertName_holds hm hinsert, fun other => ?_⟩
          show Option.Rel _ (Function.update m name (some handle) other)
            (Function.update scope name (some meaning) other)
          rw [Function.update_apply, Function.update_apply]
          split
          · exact .some hcompiles
          · exact hrel other

theorem loadPredicatesSection_compiles (hholds : HoldsDefinitions defs constants)
    {configSection : Option Setting} {draws : Nat} {s : PredicateState}
    (hload : loadPredicatesSection p configSection (some constants.ht) (.fresh p draws) = .ok s) :
    ScopeLoaded (sectionScope p defs configSection) s := by
  have hfresh : ScopeLoaded (fun _ => none) (.fresh p draws) :=
    ⟨PredicateState.fresh_ordered p draws,
      fun _ => ⟨fun _ => none, emptyNames_holds p.members draws, fun _ => .none⟩⟩
  cases configSection with
  | none =>
      cases hload
      exact hfresh
  | some configSection =>
      exact foldlM_present (fun _ => rfl) (fun _ _ _ _ h hload => loadPredicate_compiles hholds h hload)
        hfresh hload

/-- What the nodes of a configuration are created with: its constants, and its names for the
predicates registered so far. -/
structure EnvironmentCompiles (p : ConfigPlatform Setting) (configRoot : Setting)
    (config : FullConfig Setting) (predicates : EventPredicateList) : Prop where
  constants : config.constants.Holds (lastDefinition (definitions p configRoot))
  names : NamesCompile config.predicates predicates (configScope p configRoot)
  children : ChildrenBelow predicates

variable {configRoot : Setting} {config : FullConfig Setting}

theorem EnvironmentCompiles.mono (h : EnvironmentCompiles p configRoot config predicates)
    (hloaded : Loaded predicates predicates') :
    EnvironmentCompiles p configRoot config predicates' :=
  ⟨h.constants, h.names.mono h.children hloaded.grows, hloaded.children⟩

theorem EnvironmentCompiles.loaded (h : EnvironmentCompiles p configRoot config predicates)
    {setting : Option Setting}
    (hresolve : resolveEventPredicate p (some config.predicates) (some config.constants) predicates
      setting = .ok (handle, predicates')) : Loaded predicates predicates' := by
  refine (resolveEventPredicateFrom_loaded ?_ p.depth le_rfl h.children hresolve).1
  rintro names ⟨⟩
  exact h.names.below

theorem EnvironmentCompiles.resolves (h : EnvironmentCompiles p configRoot config predicates)
    {setting : Option Setting}
    (hresolve : resolveEventPredicate p (some config.predicates) (some config.constants) predicates
      setting = .ok (handle, predicates'))
    (hroom : predicates'.length < int32Max) :
    Compiles predicates' handle (configMeaning p configRoot setting) := by
  have hholds : HoldsDefinitions (definitions p configRoot) ⟨config.constants, 0⟩ := h.constants
  exact resolveEventPredicateFrom_compiles hholds h.names h.children p.depth List.prefix_rfl
    h.children hresolve hroom

theorem loadConfig_environment {draws draws' : Nat}
    (hload : loadConfig p (some configRoot) [] draws = .ok (some (config, predicates, draws')))
    (hroom : predicates.length < int32Max) : EnvironmentCompiles p configRoot config predicates := by
  unfold loadConfig at hload
  dsimp only at hload
  obtain ⟨constants, hconstants, hload⟩ := (bind_eq_ok_iff _ _ _).mp hload
  obtain ⟨s, hsection, hload⟩ := (bind_eq_ok_iff _ _ _).mp hload
  obtain ⟨channels, -, ⟨⟩⟩ := (bind_eq_ok_iff _ _ _).mp hload
  have hholds := loadAllConstants_follows hconstants
  have hscope := loadPredicatesSection_compiles hholds hsection
  exact ⟨hholds, hscope.compiles hroom, hscope.ordered.children⟩

/-- After `load_config` every name refers to a predicate that decides as its definition says, and so
does every setting that is resolved with these names.  What is registered in between or afterwards
makes no difference. -/
theorem load_config_compiles_predicates {draws draws' : Nat}
    (hload : loadConfig p (some configRoot) [] draws = .ok (some (config, predicates, draws')))
    (hroom : predicates.length < int32Max) :
    (∀ name, ∃ found, findName config.predicates name = .ok found ∧
      ∀ {predicates'}, Loaded predicates predicates' →
        Compiles predicates' (found.getD (-1)) (configScope p configRoot name)) ∧
    ∀ {predicates₁ predicates₂ setting handle}, Loaded predicates predicates₁ →
      resolveEventPredicate p (some config.predicates) (some config.constants) predicates₁ setting =
        .ok (handle, predicates₂) →
      predicates₂.length < int32Max →
      Loaded predicates₁ predicates₂ ∧ ∀ {predicates'}, Loaded predicates₂ predicates' →
        Compiles predicates' handle (configMeaning p configRoot setting) := by
  have henv := loadConfig_environment hload hroom
  constructor
  · intro name
    obtain ⟨found, hfound, hcompiles⟩ := henv.names.find name
    exact ⟨found, hfound, fun hlater => hcompiles.mono henv.children hlater.grows⟩
  · intro predicates₁ predicates₂ setting handle hgrown hresolve hroom₂
    have hloaded := (henv.mono hgrown).loaded hresolve
    have hcompiles := (henv.mono hgrown).resolves hresolve hroom₂
    exact ⟨hloaded, fun hlater => hcompiles.mono hloaded.children hlater.grows⟩

end

/-- `both` refers to `low` by its name and contains a negated predicate; `missing` is not defined. -/
def bothConfig : SettingTree :=
  .group none
    [.group (some "constants") [.int (some "base") 3],
      .group (some "predicates")
        [.group (some "low") [.string (some "type") "payload", .string (some "max") "base"],
          .group (some "both")
            [.string (some "type") "and",
              .list (some "args")
                [.string none "low", .string none "missing",
                  .group none [.string (some "type") "code_major", .int (some "min") 1,
                    .int (some "inverted") 1]]],
          .string (some "alias") "both"]]

theorem load_config_compiles_predicates_both :
    ∃ (config : FullConfig SettingTree) (predicates : EventPredicateList) (found : Option Int),
      findName config.predicates "alias" = .ok found ∧
      eventPredicateApply predicates (found.getD (-1))
        ⟨7, none, 0, ⟨⟨0, 0, 5⟩, 100, 10, 3, emptyModifierSet, default⟩⟩ = .ok .accepted := by
  have hlength : (loadConfig treePlatform (some bothConfig) [] 0).map (Option.map fun r => r.2.1.length) =
      .ok (some 3) := by
    decide +kernel
  obtain ⟨result, hload, hresult⟩ := map_eq_ok_iff.mp hlength
  obtain ⟨⟨config, predicates, draws⟩, rfl, hthree⟩ := Option.map_eq_some_iff.mp hresult
  have hroom : (predicates.length : Int) < int32Max := by
    rw [show predicates.length = 3 from hthree]
    decide
  obtain ⟨hnames, -⟩ := load_config_compiles_predicates hload hroom
  obtain ⟨found, hfound, hcompiles⟩ := hnames "alias"
  have henv := loadConfig_environment hload hroom
  refine ⟨config, predicates, found, hfound, ?_⟩
  rw [(hcompiles (.refl henv.children)).apply]
  rfl

end EventSeq
