import EventSeq.NodeCreation

/-!
# Creating a uinput node (`create` in `nodes/uinput.c`)

The calls of libevdev that set up the virtual device are recorded.  The properties are read from one
list of the options, and counted in another.
-/

namespace EventSeq

variable {Setting : Type}

/-! ## The function -/

structure InputAbsinfo where
  value : Int32
  minimum : Int32
  maximum : Int32
  fuzz : Int32
  flat : Int32
  resolution : Int32
deriving DecidableEq, Repr

inductive CodeSpecData where
  | none
  | int (asInt : Int32)
  | absinfo (asAbsinfo : InputAbsinfo)
deriving DecidableEq, Repr

def intMin : Int64 := -0x80000000

def intMax : Int64 := 0x7FFFFFFF

def loadCodeSpecData (p : ConfigPlatform Setting) (constants : ConstantRegistry)
    (setting : Option Setting) : Except Fault CodeSpecData :=
  match setting with
  | none => .ok .none
  | some setting =>
      if p.library.type setting = .group then do
        let value ← optionOr p constants setting "value" 0
        let minimum ← optionOr p constants setting "minimum" intMin
        let maximum ← optionOr p constants setting "maximum" intMax
        let fuzz ← optionOr p constants setting "fuzz" 0
        let flat ← optionOr p constants setting "flat" 0
        let resolution ← optionOr p constants setting "resolution" 1
        .ok (.absinfo
          { value := value.toInt32
            minimum := minimum.toInt32
            maximum := maximum.toInt32
            fuzz := fuzz.toInt32
            flat := flat.toInt32
            resolution := resolution.toInt32 })
      else if (p.library.type setting).isScalar then do
        let asInt ← resolveConstant p (some constants) (some setting)
        .ok (.int asInt.toInt32)
      else .ok .none

/-- The calls that are made on the device before it is created. -/
inductive LibevdevCall where
  | setName (name : String)
  | enableEventCode (type code : Int32) (data : CodeSpecData)
  | enableProperty (prop : UInt32)
deriving DecidableEq, Repr

def loadEnableCode (p : ConfigPlatform Setting) (constants : ConstantRegistry)
    (setting : Option Setting) : Except Fault (List LibevdevCall) :=
  match setting with
  | none => .ok []
  | some setting => do
      let type ← optionOr p constants setting "major" 0
      let code ← optionOr p constants setting "minor" 0
      let data ← loadCodeSpecData p constants (p.library.getMember setting "data")
      .ok [.enableEventCode type.toInt32 code.toInt32 data]

/-- One round of the loop over the properties. -/
def loadEnableProperty (p : ConfigPlatform Setting) (constants : ConstantRegistry)
    (setting : Option Setting) : Except Fault UInt32 := do
  let prop ← resolveConstant p (some constants) setting
  .ok prop.toUInt64.toUInt32

/-- What `create` has done when it reaches the creation of the virtual device. -/
structure UinputSetup where
  codes : List LibevdevCall
  properties : List UInt32
  name : String
deriving DecidableEq, Repr

def UinputSetup.calls (setup : UinputSetup) : List LibevdevCall :=
  .setName setup.name :: setup.codes ++ setup.properties.map .enableProperty

/-- `name` is what the variable holds before the lookup, which leaves it alone when it fails.  `none`
is a return with a null pointer. -/
def uinputSetup (p : ConfigPlatform Setting) (constants : ConstantRegistry) (name : Option String)
    (options : Option Setting) : Except Fault (Option UinputSetup) :=
  match options with
  | none => .ok none
  | some options =>
      match (p.library.lookupString options "name").or name with
      | none => .ok none
      | some name =>
          match p.library.getMember options "enabled_codes" with
          | none => .ok none
          | some enabledCodesSetting => do
              let codes ← (p.library.elems enabledCodesSetting).mapM (loadEnableCode p constants)
              let properties ←
                match p.library.getMember options "properties" with
                | none => .ok []
                | some propertiesSetting =>
                    -- The bound of the loop is the length of the other list.
                    let propertiesLength := (p.library.length enabledCodesSetting).toNat
                    (List.range propertiesLength).mapM fun i =>
                      loadEnableProperty p constants (p.library.getElem propertiesSetting i)
              .ok (some ⟨codes.flatten, properties, name⟩)

/-- `created` tells whether the virtual device can be created. -/
def uinputCreate (p : ConfigPlatform Setting) (constants : ConstantRegistry) (name : Option String)
    (created : Bool) (options : Option Setting) :
    Except Fault (List LibevdevCall × Option GraphNode) := do
  match ← uinputSetup p constants name options with
  | none => .ok ([], none)
  | some setup => .ok (setup.calls, if created then some ⟨false, [], [], .uinput⟩ else none)

/-! ## The properties -/

/-- The property that a call enables. -/
def LibevdevCall.property : LibevdevCall → Option UInt32
  | .enableProperty prop => some prop
  | _ => none

/-- The resolved elements of the option. -/
def configuredProperties (p : ConfigPlatform Setting) (constants : ConstantRegistry)
    (options : Setting) : Except Fault (List UInt32) :=
  match p.library.getMember options "properties" with
  | none => .ok []
  | some propertiesSetting =>
      (p.library.elems propertiesSetting).mapM (loadEnableProperty p constants)

/-- There are as many properties as enabled codes, if there is a list of properties. -/
def AsManyProperties (library : SettingLibrary Setting) (options : Setting) : Prop :=
  ∀ properties codes, library.getMember options "properties" = some properties →
    library.getMember options "enabled_codes" = some codes →
    (library.length properties).toNat = (library.length codes).toNat

section

variable {p : ConfigPlatform Setting} {constants : ConstantRegistry} {name : Option String}
  {created : Bool} {options : Setting} {calls : List LibevdevCall} {node : Option GraphNode}

/-- The calls for the codes enable no property. -/
theorem loadEnableCode_property {setting : Option Setting} {calls : List LibevdevCall}
    (h : loadEnableCode p constants setting = .ok calls) :
    calls.filterMap LibevdevCall.property = [] := by
  cases setting with
  | none =>
      cases h
      rfl
  | some setting =>
      simp only [loadEnableCode, bind_eq_ok_iff] at h
      obtain ⟨type, -, code, -, data, -, ⟨⟩⟩ := h
      rfl

theorem loadEnableCodes_property {settings : List (Option Setting)} {codes : List (List LibevdevCall)}
    (h : settings.mapM (loadEnableCode p constants) = .ok codes) :
    codes.flatten.filterMap LibevdevCall.property = [] := by
  have hcodes := mapM_eq_ok h
  clear h
  induction hcodes with
  | nil => rfl
  | cons hfirst _ ih =>
      rw [List.flatten_cons, List.filterMap_append, loadEnableCode_property hfirst, ih]
      rfl

theorem UinputSetup.calls_property {setup : UinputSetup}
    (hcodes : setup.codes.filterMap LibevdevCall.property = []) :
    setup.calls.filterMap LibevdevCall.property = setup.properties := by
  have hproperties : (setup.properties.map LibevdevCall.enableProperty).filterMap
      LibevdevCall.property = setup.properties := by
    rw [List.filterMap_map]
    exact List.filterMap_some
  rw [calls, List.cons_append, List.filterMap_cons_none rfl, List.filterMap_append, hcodes,
    hproperties]
  rfl

/-- The loop over the properties reads the list of the option as far as there are codes. -/
theorem uinputCreate_properties
    (h : uinputCreate p constants name created (some options) = .ok (calls, node))
    (hcalls : calls ≠ []) :
    ∃ enabledCodesSetting, p.library.getMember options "enabled_codes" = some enabledCodesSetting ∧
      match p.library.getMember options "properties" with
      | none => calls.filterMap LibevdevCall.property = []
      | some propertiesSetting =>
          ((List.range (p.library.length enabledCodesSetting).toNat).map
            (p.library.getElem propertiesSetting)).mapM (loadEnableProperty p constants) =
              .ok (calls.filterMap LibevdevCall.property) := by
  obtain ⟨setup, hsetup, h⟩ := (bind_eq_ok_iff _ _ _).mp h
  cases setup with
  | none =>
      cases h
      exact absurd rfl hcalls
  | some setup =>
      cases h
      simp only [uinputSetup] at hsetup
      split at hsetup
      · cases hsetup
      · split at hsetup
        · cases hsetup
        · -- the name and the list of codes are there, so that both loops are run
          rename_i enabledCodesSetting hmember
          refine ⟨enabledCodesSetting, hmember, ?_⟩
          obtain ⟨codes, hcodes, hsetup⟩ := (bind_eq_ok_iff _ _ _).mp hsetup
          have hnone := loadEnableCodes_property hcodes
          cases hoption : p.library.getMember options "properties" with
          | none =>
              rw [hoption] at hsetup
              cases hsetup
              exact UinputSetup.calls_property hnone
          | some propertiesSetting =>
              rw [hoption] at hsetup
              obtain ⟨properties, hproperties, ⟨⟩⟩ := (bind_eq_ok_iff _ _ _).mp hsetup
              dsimp only
              rw [UinputSetup.calls_property hnone, List.mapM_map]
              exact hproperties

/-- Once it sets up a device, `create` enables the configured properties, each once and in their
order, just when there are as many of them as there are enabled codes, or the option is left out. -/
theorem uinput_enables_configured_properties
    (h : uinputCreate p constants name created (some options) = .ok (calls, node))
    (hcalls : calls ≠ []) :
    configuredProperties p constants options = .ok (calls.filterMap LibevdevCall.property) ↔
      AsManyProperties p.library options := by
  obtain ⟨enabledCodesSetting, hmember, hloop⟩ := uinputCreate_properties h hcalls
  unfold configuredProperties AsManyProperties
  cases hoption : p.library.getMember options "properties" with
  | none =>
      rw [hoption] at hloop
      dsimp only at hloop ⊢
      rw [hloop]
      simp
  | some propertiesSetting =>
      rw [hoption] at hloop
      dsimp only at hloop ⊢
      constructor
      · rintro hconfigured _ _ ⟨⟩ hcodes
        cases hmember.symm.trans hcodes
        -- both loops have made the same calls, so they are equally long
        have hlength := (mapM_eq_ok hconfigured).length_eq
        have hlength' := (mapM_eq_ok hloop).length_eq
        rw [SettingLibrary.elems, List.length_map, List.length_range] at hlength
        rw [List.length_map, List.length_range] at hlength'
        exact hlength.trans hlength'.symm
      · intro hmany
        rw [SettingLibrary.elems, hmany propertiesSetting enabledCodesSetting rfl hmember]
        exact hloop

end

/-! ## A keyboard -/

/-- `code_type.KEY` with a minor code. -/
def keyCode (minor : Int64) : SettingTree :=
  .group none [.int (some "major") 1, .int (some "minor") minor]

def keyboardOptions (codes : List SettingTree) (properties : List SettingTree) : SettingTree :=
  .group none [.string (some "name") "keyboard", .list (some "enabled_codes") codes,
    .list (some "properties") properties]

/-- Two codes and two properties, which are enabled in their order. -/
theorem uinput_enables_configured_properties_two :
    ∃ calls node, uinputCreate treePlatform (createTable 5 ⟨1, 0⟩) none true
        (some (keyboardOptions [keyCode 30, keyCode 48] [.int none 5, .int none 3])) =
          .ok (calls, some node) ∧
      calls.filterMap LibevdevCall.property = [5, 3] ∧
      configuredProperties treePlatform (createTable 5 ⟨1, 0⟩)
        (keyboardOptions [keyCode 30, keyCode 48] [.int none 5, .int none 3]) =
          .ok (calls.filterMap LibevdevCall.property) := by
  have hcreate : uinputCreate treePlatform (createTable 5 ⟨1, 0⟩) none true
      (some (keyboardOptions [keyCode 30, keyCode 48] [.int none 5, .int none 3])) =
        .ok ([.setName "keyboard", .enableEventCode 1 30 .none, .enableEventCode 1 48 .none,
          .enableProperty 5, .enableProperty 3], some ⟨false, [], [], .uinput⟩) := rfl
  have hmany : AsManyProperties treePlatform.library
      (keyboardOptions [keyCode 30, keyCode 48] [.int none 5, .int none 3]) := by
    rintro properties codes ⟨⟩ ⟨⟩
    rfl
  exact ⟨_, _, hcreate, rfl,
    (uinput_enables_configured_properties hcreate (List.cons_ne_nil _ _)).mpr hmany⟩

/-- Of two codes and the one property 5, the second round reads behind the list and enables the
property 0. -/
theorem uinput_enables_unlisted_property :
    ∃ calls node, uinputCreate treePlatform (createTable 5 ⟨1, 0⟩) none true
        (some (keyboardOptions [keyCode 30, keyCode 48] [.int none 5])) = .ok (calls, some node) ∧
      calls.filterMap LibevdevCall.property = [5, 0] ∧
      configuredProperties treePlatform (createTable 5 ⟨1, 0⟩)
        (keyboardOptions [keyCode 30, keyCode 48] [.int none 5]) = .ok [5] ∧
      configuredProperties treePlatform (createTable 5 ⟨1, 0⟩)
        (keyboardOptions [keyCode 30, keyCode 48] [.int none 5]) ≠
          .ok (calls.filterMap LibevdevCall.property) := by
  refine ⟨_, _, rfl, rfl, rfl, fun h => ?_⟩
  cases h

end EventSeq
