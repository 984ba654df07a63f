import EventSeq.Config

/-!
# Constants

A configuration is a list of definitions, in the order in which they are made, and a name stands for
the value of its last definition.  The table that `load_config` fills holds exactly that.
-/

namespace EventSeq

/-! ## Definitions -/

abbrev Definitions := List (String × Int64)

def lastDefinition (defs : Definitions) (name : String) : Option Int64 :=
  ((defs.filter fun d => d.1 == name).getLast?).map Prod.snd

theorem lastDefinition_append (defs : Definitions) (name : String) (value : Int64) :
    lastDefinition (defs ++ [(name, value)]) =
      Function.update (lastDefinition defs) name (some value) := by
  funext other
  unfold lastDefinition
  rw [List.filter_append, Function.update_apply]
  by_cases h : name = other
  · simp [h]
  · simp [h, Ne.symm h]

theorem lastDefinition_eq_none_iff {defs : Definitions} {name : String} :
    lastDefinition defs name = none ↔ ∀ d ∈ defs, d.1 ≠ name := by
  unfold lastDefinition
  rw [Option.map_eq_none_iff, List.getLast?_eq_none_iff, List.filter_eq_nil_iff]
  simp

section

variable {Setting : Type} (p : ConfigPlatform Setting)

/-- The settings in a section, in the order of the file. -/
def presentElems (configSection : Option Setting) : List Setting :=
  match configSection with
  | none => []
  | some configSection => (p.library.elems configSection).reduceOption

/-- An event code is known under two names. -/
def eventCodeDefinitions (code : EventCodeDeclaration) : Definitions :=
  [(code.prefixName ++ "_" ++ code.unqualifiedName, code.value),
    (code.enumName ++ "." ++ code.unqualifiedName, code.value)]

def builtinDefinitions : Definitions :=
  [("false", 0), ("true", 1)] ++ p.eventCodes.flatMap eventCodeDefinitions

def constantValue (item : Setting) : Option Int64 :=
  if (p.library.type item).isScalar then some (p.library.getInt64 item)
  else if p.library.type item = .group then p.library.lookupInt64 item "value"
  else none

/-- An entry without a name or a usable value defines nothing. -/
def constantDefinition (item : Setting) : Option (String × Int64) :=
  match p.library.nameOrMember item, constantValue p item with
  | some name, some value => some (name, value)
  | _, _ => none

/-- The value of a setting: a number, or a name that is defined already. -/
def settingValue (defs : Definitions) (setting : Option Setting) : Option Int64 :=
  match setting with
  | none => none
  | some setting =>
      if p.library.type setting = .string then
        (p.library.getString setting).bind (lastDefinition defs)
      else if (p.library.type setting).isNumber then some (p.library.getInt64 setting)
      else none

/-- A bare string is the name of a member, too. -/
def memberName (member : Setting) : Option String :=
  (p.library.nameOrMember member).or (p.library.getString member)

/-- The value that is written for a member, if any. -/
def memberValue (defs : Definitions) (member : Setting) : Option Int64 :=
  if (p.library.nameOrMember member).isNone then none
  else if (p.library.type member).isAggregate then
    settingValue p defs (p.library.getMember member "value")
  else settingValue p defs (some member)

/-- A member is defined after those before it, of which the last had the value `previous`. -/
def defineMember (enumName : String) (state : Definitions × Option Int64) (member : Setting) :
    Definitions × Option Int64 :=
  match memberName p member with
  | none => state
  | some name =>
      let value := (memberValue p state.1 member).getD (state.2.elim 0 (· + 1))
      (state.1 ++ [(enumName ++ "." ++ name, value)], some value)

def defineEnum (defs : Definitions) (enumDef : Setting) : Definitions :=
  match p.library.name enumDef with
  | none => defs
  | some name => ((presentElems p (some enumDef)).foldl (defineMember p name) (defs, none)).1

/-- All definitions of a configuration. -/
def definitions (configRoot : Setting) : Definitions :=
  (presentElems p (p.library.getMember configRoot "enums")).foldl (defineEnum p)
    (builtinDefinitions p ++
      (presentElems p (p.library.getMember configRoot "constants")).filterMap (constantDefinition p))

end

/-! ## The table follows the definitions -/

section

variable {Setting : Type} {p : ConfigPlatform Setting} {defs : Definitions}
  {table table' : TableState String Int64} {name : String} {value dflt : Int64}

/-- The table holds the definitions made so far. -/
def HoldsDefinitions (defs : Definitions) (table : TableState String Int64) : Prop :=
  table.ht.Holds (lastDefinition defs)

theorem HoldsDefinitions.insertName (h : HoldsDefinitions defs table)
    (hinsert : insertName p table name value = .ok table') :
    HoldsDefinitions (defs ++ [(name, value)]) table' := by
  unfold HoldsDefinitions
  rw [lastDefinition_append]
  exact insertName_holds h hinsert

theorem resolveConstantOr_eq (h : HoldsDefinitions defs table) {setting : Option Setting}
    (hresolve : resolveConstantOr p (some table.ht) setting dflt = .ok value) :
    value = (settingValue p defs setting).getD dflt := by
  unfold resolveConstantOr at hresolve
  unfold settingValue
  cases setting with
  | none =>
      cases hresolve
      rfl
  | some setting =>
      dsimp only at hresolve ⊢
      split at hresolve
      · -- a string names a constant, which the table has if it has been defined
        rename_i hstring
        rw [if_pos hstring]
        obtain ⟨name, hname, hresolve⟩ := (bind_eq_ok_iff _ _ _).mp hresolve
        obtain ⟨found, hfound, ⟨⟩⟩ := (bind_eq_ok_iff _ _ _).mp hresolve
        rw [findName_eq h] at hfound
        cases hfound
        cases htext : p.library.getString setting with
        | none =>
            rw [htext] at hname
            cases hname
        | some text =>
            rw [htext] at hname
            cases hname
            rfl
      · rename_i hstring
        rw [if_neg hstring]
        split at hresolve
        · rename_i hnumber
          rw [if_pos hnumber]
          cases hresolve
          rfl
        · rename_i hnumber
          rw [if_neg hnumber]
          cases hresolve
          rfl

theorem declareEventCode_follows {code : EventCodeDeclaration} (h : HoldsDefinitions defs table)
    (hdeclare : declareEventCode p table code = .ok table') :
    HoldsDefinitions (defs ++ eventCodeDefinitions code) table' := by
  obtain ⟨table₁, hfirst, hsecond⟩ := (bind_eq_ok_iff _ _ _).mp hdeclare
  have h₂ := (h.insertName hfirst).insertName hsecond
  rw [List.append_assoc] at h₂
  exact h₂

theorem populateEventCodes_follows (h : HoldsDefinitions defs table)
    (hpopulate : populateEventCodes p table = .ok table') :
    HoldsDefinitions (defs ++ p.eventCodes.flatMap eventCodeDefinitions) table' := by
  have hfollows := foldlM_simulates (g := fun defs code => defs ++ eventCodeDefinitions code)
    (fun _ _ _ _ h hdeclare => declareEventCode_follows h hdeclare) h hpopulate
  rw [List.foldl_append_eq_append] at hfollows
  exact hfollows

/-- A loop over the elements of a section passes over those that are missing. -/
theorem foldlM_present {σ τ : Type} {f : σ → Option Setting → Except Fault σ} {g : τ → Setting → τ}
    {R : τ → σ → Prop} (hmissing : ∀ s, f s none = .ok s)
    (hstep : ∀ a s x s', R a s → f s (some x) = .ok s' → R (g a x) s') {l : List (Option Setting)}
    {a : τ} {s s' : σ} (hrel : R a s) (h : l.foldlM f s = .ok s') :
    R (l.reduceOption.foldl g a) s' := by
  induction l generalizing a s with
  | nil =>
      cases h
      exact hrel
  | cons x l ih =>
      rw [List.foldlM_cons] at h
      obtain ⟨s₁, hfirst, hrest⟩ := (bind_eq_ok_iff _ _ _).mp h
      cases x with
      | none =>
          rw [hmissing] at hfirst
          cases hfirst
          exact ih hrel hrest
      | some x =>
          rw [List.reduceOption_cons_of_some]
          exact ih (hstep a s x s₁ hrel hfirst) hrest

theorem loadConstant_follows {item : Setting} (h : HoldsDefinitions defs table)
    (hload : loadConstant p table (some item) = .ok table') :
    HoldsDefinitions (defs ++ (constantDefinition p item).toList) table' := by
  unfold loadConstant at hload
  unfold constantDefinition constantValue
  cases hname : p.library.nameOrMember item with
  | none =>
      simp only [hname] at hload
      cases hload
      simpa using h
  | some name =>
      simp only [hname] at hload
      split at hload
      · rename_i hscalar
        rw [if_pos hscalar]
        exact h.insertName hload
      · rename_i hscalar
        rw [if_neg hscalar]
        split at hload
        · -- a group defines a constant by its member `value`, or none
          rename_i hgroup
          rw [if_pos hgroup]
          cases hvalue : p.library.lookupInt64 item "value" with
          | none =>
              simp only [hvalue] at hload
              cases hload
              simpa using h
          | some value =>
              simp only [hvalue] at hload
              exact h.insertName hload
        · rename_i hgroup
          rw [if_neg hgroup]
          cases hload
          simpa using h

theorem loadConstantsSection_follows {configSection : Option Setting} (h : HoldsDefinitions defs table)
    (hload : loadConstantsSection p configSection table = .ok table') :
    HoldsDefinitions (defs ++ (presentElems p configSection).filterMap (constantDefinition p)) table' := by
  cases configSection with
  | none =>
      cases hload
      show HoldsDefinitions (defs ++ []) table
      rw [List.append_nil]
      exact h
  | some configSection =>
      have hfollows := foldlM_present
        (g := fun defs item => defs ++ (constantDefinition p item).toList) (fun _ => rfl)
        (fun _ _ _ _ h hload => loadConstant_follows h hload) h hload
      rw [List.foldl_append_eq_append] at hfollows
      rw [List.filterMap_eq_flatMap_toList]
      exact hfollows

/-- The table and the value of the previous member, which starts out as -1. -/
def HoldsMembers (state : Definitions × Option Int64) (loaded : TableState String Int64 × Int64) :
    Prop :=
  HoldsDefinitions state.1 loaded.1 ∧ loaded.2 = state.2.getD (-1)

theorem loadEnumMember_follows {enumName : String} {state : Definitions × Option Int64}
    {loaded loaded' : TableState String Int64 × Int64} {member : Setting}
    (h : HoldsMembers state loaded)
    (hload : loadEnumMember p enumName loaded (some member) = .ok loaded') :
    HoldsMembers (defineMember p enumName state member) loaded' := by
  obtain ⟨defs, previous⟩ := state
  obtain ⟨constants, prevValue⟩ := loaded
  obtain ⟨hfollows, hprev⟩ := h
  dsimp only at hfollows hprev
  -- the numbering goes on from the previous member, or starts with 0
  have hnext : prevValue + 1 = previous.elim 0 (· + 1) := by
    rw [hprev]
    cases previous <;> rfl
  unfold loadEnumMember at hload
  unfold defineMember memberName memberValue
  dsimp only at hload ⊢
  cases hname : p.library.nameOrMember member with
  | some name =>
      simp only [hname, Bool.false_eq_true, if_false] at hload
      obtain ⟨value, hvalue, hload⟩ := (bind_eq_ok_iff _ _ _).mp hload
      obtain ⟨constants', hput, ⟨⟩⟩ := (bind_eq_ok_iff _ _ _).mp hload
      have hresolved := resolveConstantOr_eq hfollows hvalue
      have hsetting : settingValue p defs
          (if (p.library.type member).isAggregate = true then p.library.getMember member "value"
            else some member) =
          if (p.library.type member).isAggregate = true then
            settingValue p defs (p.library.getMember member "value")
          else settingValue p defs (some member) := by
        split <;> rfl
      rw [hsetting, hnext] at hresolved
      simp only [Option.some_or, Option.isNone_some, Bool.false_eq_true, if_false]
      rw [← hresolved]
      exact ⟨hfollows.insertName hput, rfl⟩
  | none =>
      simp only [hname, if_true] at hload
      cases htext : p.library.getString member with
      | none =>
          simp only [htext] at hload
          cases hload
          exact ⟨hfollows, hprev⟩
      | some name =>
          simp only [htext] at hload
          obtain ⟨value, ⟨⟩, hload⟩ := (bind_eq_ok_iff _ _ _).mp hload
          obtain ⟨constants', hput, ⟨⟩⟩ := (bind_eq_ok_iff _ _ _).mp hload
          simp only [Option.none_or, Option.isNone_none, if_true, Option.getD_none]
          rw [← hnext]
          exact ⟨hfollows.insertName hput, rfl⟩

theorem loadEnum_follows {enumDef : Setting} (h : HoldsDefinitions defs table)
    (hload : loadEnum p table (some enumDef) = .ok table') :
    HoldsDefinitions (defineEnum p defs enumDef) table' := by
  unfold loadEnum at hload
  unfold defineEnum
  cases hname : p.library.name enumDef with
  | none =>
      simp only [hname] at hload
      cases hload
      exact h
  | some name =>
      simp only [hname] at hload
      obtain ⟨⟨constants, last⟩, hmembers, ⟨⟩⟩ := (bind_eq_ok_iff _ _ _).mp hload
      have hfollows := foldlM_present (R := HoldsMembers) (g := defineMember p name)
        (a := (defs, none)) (fun _ => rfl) (fun _ _ _ _ h hload => loadEnumMember_follows h hload)
        ⟨h, rfl⟩ hmembers
      exact hfollows.1

theorem loadEnumsSection_follows {configSection : Option Setting} (h : HoldsDefinitions defs table)
    (hload : loadEnumsSection p configSection table = .ok table') :
    HoldsDefinitions ((presentElems p configSection).foldl (defineEnum p) defs) table' := by
  cases configSection with
  | none =>
      cases hload
      exact h
  | some configSection =>
      exact foldlM_present (fun _ => rfl) (fun _ _ _ _ h hload => loadEnum_follows h hload) h hload

/-- The sections are loaded one after the other into a table that starts out empty. -/
theorem loadAllConstants_follows {configRoot : Setting} {draws : Nat}
    (hload : loadAllConstants p configRoot draws = .ok table) :
    HoldsDefinitions (definitions p configRoot) table := by
  unfold loadAllConstants at hload
  dsimp only at hload
  obtain ⟨table₁, hfalse, hload⟩ := (bind_eq_ok_iff _ _ _).mp hload
  obtain ⟨table₂, htrue, hload⟩ := (bind_eq_ok_iff _ _ _).mp hload
  obtain ⟨table₃, hcodes, hload⟩ := (bind_eq_ok_iff _ _ _).mp hload
  obtain ⟨table₄, hconstants, henums⟩ := (bind_eq_ok_iff _ _ _).mp hload
  have hempty : HoldsDefinitions [] (.mk (createTable 5 (p.members draws)) (draws + 1)) :=
    emptyNames_holds p.members draws
  have hbuiltin := populateEventCodes_follows ((hempty.insertName hfalse).insertName htrue) hcodes
  exact loadEnumsSection_follows (loadConstantsSection_follows hbuiltin hconstants) henums

/-- After `load_config` a string stands for the value of its last definition, and a default is
returned for those that have none. -/
theorem constants_last_definition_wins {configRoot setting : Setting} {config : FullConfig Setting}
    {predicates predicates' : EventPredicateList} {draws draws' : Nat}
    (hload : loadConfig p (some configRoot) predicates draws = .ok (some (config, predicates', draws')))
    (htype : p.library.type setting = .string) (hname : p.library.getString setting = some name) :
    (∀ dflt, resolveConstantOr p (some config.constants) (some setting) dflt =
      .ok ((lastDefinition (definitions p configRoot) name).getD dflt)) ∧
    ((∀ dflt, resolveConstantOr p (some config.constants) (some setting) dflt = .ok dflt) ↔
      ∀ d ∈ definitions p configRoot, d.1 ≠ name) := by
  unfold loadConfig at hload
  dsimp only at hload
  obtain ⟨constants, hconstants, hload⟩ := (bind_eq_ok_iff _ _ _).mp hload
  obtain ⟨s, -, hload⟩ := (bind_eq_ok_iff _ _ _).mp hload
  obtain ⟨channels, -, ⟨⟩⟩ := (bind_eq_ok_iff _ _ _).mp hload
  have hresolve : ∀ dflt, resolveConstantOr p (some constants.ht) (some setting) dflt =
      .ok ((lastDefinition (definitions p configRoot) name).getD dflt) := by
    intro dflt
    unfold resolveConstantOr
    dsimp only
    rw [if_pos htype, hname]
    exact (bind_eq_ok_iff _ _ _).mpr ⟨name, rfl,
      (bind_eq_ok_iff _ _ _).mpr ⟨_, findName_eq (loadAllConstants_follows hconstants) name, rfl⟩⟩
  refine ⟨hresolve, ?_⟩
  rw [← lastDefinition_eq_none_iff]
  constructor
  · intro hdefault
    cases hlast : lastDefinition (definitions p configRoot) name with
    | none => rfl
    | some value =>
        -- two different defaults cannot both be the value
        have hzero := (hresolve 0).symm.trans (hdefault 0)
        have hone := (hresolve 1).symm.trans (hdefault 1)
        rw [hlast] at hzero hone
        cases hzero
        cases hone
  · intro hnone dflt
    rw [hresolve, hnone]
    rfl

end

/-- `base` and `true` are defined twice, and the second member of `color` has the value of `base`. -/
def colorConfig : SettingTree :=
  .group none
    [.group (some "constants")
      [.int (some "base") 3, .int (some "true") 2, .int (some "base") 7, .string (some "text") "base"],
      .group (some "enums")
        [.list (some "color")
          [.string none "red",
            .group none [.string (some "name") "green", .string (some "value") "base"],
            .string none "blue", .int none 9, .group (some "red") []]]]

theorem constants_last_definition_wins_color :
    ∃ config : FullConfig SettingTree, ∀ dflt,
      resolveConstantOr treePlatform (some config.constants) (some (.string none "color.blue")) dflt =
        .ok 8 := by
  have hloads : (loadConfig treePlatform (some colorConfig) [] 0).toOption.join.isSome := by
    decide +kernel
  obtain ⟨⟨config, predicates, draws⟩, hjoin⟩ := Option.isSome_iff_exists.mp hloads
  have hload : loadConfig treePlatform (some colorConfig) [] 0 =
      .ok (some (config, predicates, draws)) := by
    cases h : loadConfig treePlatform (some colorConfig) [] 0 with
    | error e =>
        rw [h] at hjoin
        cases hjoin
    | ok result =>
        rw [h] at hjoin
        exact congrArg _ (Option.some.inj (Option.join_eq_some_iff.mp hjoin))
  have hlast : lastDefinition (definitions treePlatform colorConfig) "color.blue" = some 8 := by
    decide +kernel
  refine ⟨config, fun dflt => ?_⟩
  have htype : treePlatform.library.type (.string none "color.blue") = .string := rfl
  have hresolve := (constants_last_definition_wins hload htype rfl).1 dflt
  rw [hlast] at hresolve
  exact hresolve

end EventSeq
