import EventSeq.EventPredicate
import EventSeq.HashTableRuns

/-!
# Configuration (`config.h`, `config.c`)

Settings are libconfig's, which is a parameter here, and so is the stream of hash functions and the
table of event codes that the kernel headers define.  The constants and the names of the predicates
are hash tables with strings as keys.  Allocations succeed; the lengths of two names in memory do
not add up to more than a `size_t` holds.
-/

namespace EventSeq

/-! ## Settings -/

inductive SettingType where
  | none
  | group
  | int
  | int64
  | float
  | string
  | bool
  | array
  | list
deriving DecidableEq, Repr

namespace SettingType

def isNumber : SettingType → Bool
  | .int | .int64 | .float => true
  | _ => false

def isScalar : SettingType → Bool
  | .int | .int64 | .float | .bool | .string => true
  | _ => false

def isAggregate : SettingType → Bool
  | .group | .array | .list => true
  | _ => false

end SettingType

/-- The functions of libconfig that the program calls, where `none` is the null pointer or a failed
lookup.  `lengthNull` is what `config_setting_length` does with a null pointer. -/
structure SettingLibrary (Setting : Type) where
  type : Setting → SettingType
  name : Setting → Option String
  length : Setting → Int
  lengthNull : Except Fault Int
  getElem : Setting → Nat → Option Setting
  getMember : Setting → String → Option Setting
  getString : Setting → Option String
  getStringElem : Setting → Nat → Option String
  getInt64 : Setting → Int64
  lookupString : Setting → String → Option String
  lookupInt64 : Setting → String → Option Int64

/-- `DECLARE_EVENT_CODE(enumName, prefixName, unqualifiedName)`, with the value of the constant. -/
structure EventCodeDeclaration where
  enumName : String
  prefixName : String
  unqualifiedName : String
  value : Int64
deriving DecidableEq, Repr

/-- What loading a configuration depends on.  Calls that nest deeper than `depth` are cut off. -/
structure ConfigPlatform (Setting : Type) where
  library : SettingLibrary Setting
  eventCodes : List EventCodeDeclaration
  members : Nat → HashFamilyMember
  depth : Nat

variable {Setting : Type}

/-- The settings that a loop from 0 to the length gets. -/
def SettingLibrary.elems (library : SettingLibrary Setting) (setting : Setting) :
    List (Option Setting) :=
  (List.range (library.length setting).toNat).map (library.getElem setting)

/-! ## Tables of names -/

def namePreHash (s : String) : UInt64 := fnv1a s.toUTF8.toList

def hashTableKeyFromCstr (s : String) : HashTableKey String :=
  hashTableKeyFromBytes namePreHash (some s)

variable {ν : Type}

/-- `hash_table_insert` with a name as the key; the callers do not look at the index. -/
def insertName [Inhabited ν] (p : ConfigPlatform Setting) (table : TableState String ν) (name : String)
    (value : ν) : Except Fault (TableState String ν) := do
  let (_, ht, draws) ←
    hashTableInsertImpl p.members p.depth table.ht (hashTableKeyFromCstr name) value table.draws
  .ok ⟨ht, draws⟩

/-- `hash_table_find`, and the value at the index unless that is negative. -/
def findName (ht : HashTable String ν) (name : String) : Except Fault (Option ν) := do
  let idx ← hashTableFindImpl ht (hashTableKeyFromCstr name)
  if idx < 0 then .ok none
  else
    match ht.valueArray[idx.toNat]? with
    | none => .error .outOfRange
    | some value => .ok (some value)

/-- A table from which nothing was deleted holds the map. -/
structure HashTable.Holds (ht : HashTable String ν) (m : String → Option ν) : Prop where
  wellFormed : ht.WellFormed namePreHash
  represents : ht.Represents m
  compact : ht.Compact namePreHash

section

variable {p : ConfigPlatform Setting} {m : String → Option ν} {name : String} {value : ν}

theorem emptyNames_holds [Inhabited ν] (members : Nat → HashFamilyMember) (draws : Nat) :
    (hashTableInitImpl members draws : HashTable String ν × Nat).1.Holds fun _ => none := by
  have wf : (createTable 5 (members draws) : HashTable String ν).WellFormed namePreHash :=
    HashTable.createTable_wellFormed le_rfl _
  have hr := HashTable.createTable_represents (κ := String) (ν := ν) 5 (members draws)
  exact ⟨wf, hr, fun k => hr.noHoleBefore_of_none wf.shaped rfl⟩

/-- Inserting a name makes it stand for the value. -/
theorem insertName_holds [Inhabited ν] {table table' : TableState String ν} (h : table.ht.Holds m)
    (hinsert : insertName p table name value = .ok table') :
    table'.ht.Holds (Function.update m name (some value)) := by
  unfold insertName at hinsert
  obtain ⟨⟨i, ht, draws⟩, hrun, ⟨⟩⟩ := (bind_eq_ok_iff _ _ _).mp hinsert
  have hinserted := HashTable.hashTableInsertImpl_spec p.members p.depth h.wellFormed h.represents
    (.inr (h.compact name)) hrun
  exact ⟨hinserted.wellFormed, hinserted.represents, hinserted.compact h.compact⟩

theorem findName_eq {ht : HashTable String ν} (h : ht.Holds m) (name : String) :
    findName ht name = .ok (m name) := by
  obtain ⟨i, hfind, hi⟩ := HashTable.hashTableFindImpl_spec h.wellFormed h.represents name
  refine (bind_eq_ok_iff _ _ _).mpr ⟨i, hfind, ?_⟩
  cases hm : m name with
  | none =>
      rw [hm] at hi
      subst hi
      rfl
  | some v =>
      rw [hm] at hi
      obtain ⟨j, rfl, -, hv⟩ := hi
      rw [if_neg (by omega), Int.toNat_natCast, hv]

end

abbrev ConstantRegistry := HashTable String Int64

abbrev EventPredicateHandleRegistry := HashTable String Int

/-- `strlen` follows the pointer to a name. -/
def followName : Option String → Except Fault String
  | none => .error .dangling
  | some name => .ok name

/-! ## Constants -/

def resolveConstantOr (p : ConfigPlatform Setting) (registry : Option ConstantRegistry)
    (setting : Option Setting) (dflt : Int64) : Except Fault Int64 :=
  match setting with
  | none => .ok dflt
  | some setting =>
      if p.library.type setting = .string then
        match registry with
        | none => .ok dflt
        | some registry => do
            let name ← followName (p.library.getString setting)
            let value ← findName registry name
            .ok (value.getD dflt)
      else if (p.library.type setting).isNumber then .ok (p.library.getInt64 setting)
      else .ok dflt

def resolveConstant (p : ConfigPlatform Setting) (registry : Option ConstantRegistry)
    (setting : Option Setting) : Except Fault Int64 :=
  resolveConstantOr p registry setting 0

/-- One round of `populate_event_codes`. -/
def declareEventCode (p : ConfigPlatform Setting) (registry : TableState String Int64)
    (code : EventCodeDeclaration) : Except Fault (TableState String Int64) := do
  let registry ← insertName p registry (code.prefixName ++ "_" ++ code.unqualifiedName) code.value
  insertName p registry (code.enumName ++ "." ++ code.unqualifiedName) code.value

def populateEventCodes (p : ConfigPlatform Setting) (registry : TableState String Int64) :
    Except Fault (TableState String Int64) :=
  p.eventCodes.foldlM (declareEventCode p) registry

/-- `config_setting_name`, or else the string under the key "name". -/
def SettingLibrary.nameOrMember (library : SettingLibrary Setting) (setting : Setting) : Option String :=
  match library.name setting with
  | some name => some name
  | none => library.lookupString setting "name"

/-- One round of `load_constants_section`. -/
def loadConstant (p : ConfigPlatform Setting) (constants : TableState String Int64) :
    Option Setting → Except Fault (TableState String Int64)
  | none => .ok constants
  | some item =>
      match p.library.nameOrMember item with
      | none => .ok constants
      | some name =>
          if (p.library.type item).isScalar then insertName p constants name (p.library.getInt64 item)
          else if p.library.type item = .group then
            match p.library.lookupInt64 item "value" with
            | none => .ok constants
            | some value => insertName p constants name value
          else .ok constants

def loadConstantsSection (p : ConfigPlatform Setting) (configSection : Option Setting)
    (constants : TableState String Int64) : Except Fault (TableState String Int64) :=
  match configSection with
  | none => .ok constants
  | some configSection => (p.library.elems configSection).foldlM (loadConstant p) constants

def putEnumValue (p : ConfigPlatform Setting) (registry : TableState String Int64)
    (enumName memberName : String) (value : Int64) : Except Fault (TableState String Int64) :=
  insertName p registry (enumName ++ "." ++ memberName) value

/-- One round of `load_single_enum`, which also passes `prev_value` on. -/
def loadEnumMember (p : ConfigPlatform Setting) (enumName : String)
    (state : TableState String Int64 × Int64) :
    Option Setting → Except Fault (TableState String Int64 × Int64)
  | none => .ok state
  | some member => do
      let (constants, prevValue) := state
      let value := prevValue + 1
      let (name, onlyName) :=
        match p.library.nameOrMember member with
        | some name => (some name, false)
        | none => (p.library.getString member, true)
      match name with
      | none => .ok state
      | some name => do
          let valueSetting :=
            if (p.library.type member).isAggregate then p.library.getMember member "value"
            else some member
          let value ←
            if onlyName then .ok value
            else resolveConstantOr p (some constants.ht) valueSetting value
          let constants ← putEnumValue p constants enumName name value
          .ok (constants, value)

def loadSingleEnum (p : ConfigPlatform Setting) (enumName : String) (enumDef : Setting)
    (constants : TableState String Int64) : Except Fault (TableState String Int64) := do
  let (constants, _) ← (p.library.elems enumDef).foldlM (loadEnumMember p enumName) (constants, -1)
  .ok constants

/-- One round of `load_enums_section`. -/
def loadEnum (p : ConfigPlatform Setting) (constants : TableState String Int64) :
    Option Setting → Except Fault (TableState String Int64)
  | none => .ok constants
  | some enumDef =>
      match p.library.name enumDef with
      | none => .ok constants
      | some name => loadSingleEnum p name enumDef constants

def loadEnumsSection (p : ConfigPlatform Setting) (configSection : Option Setting)
    (constants : TableState String Int64) : Except Fault (TableState String Int64) :=
  match configSection with
  | none => .ok constants
  | some configSection => (p.library.elems configSection).foldlM (loadEnum p) constants

/-! ## Predicates -/

/-- The types that a configuration can name. -/
inductive NamedPredicateType where
  | invalid
  | accept
  | range (field : RangeField)
  | conjunction
  | disjunction
  | modifier
deriving DecidableEq, Repr

def parseEventPredicateType (name : String) : NamedPredicateType :=
  if name = "accept" then .accept
  else if name = "code_ns" then .range .codeNs
  else if name = "code_major" then .range .codeMajor
  else if name = "code_minor" then .range .codeMinor
  else if name = "payload" then .range .payload
  else if name = "input_index" then .range .inputIndex
  else if name = "conjunction" ∨ name = "and" then .conjunction
  else if name = "disjunction" ∨ name = "or" then .disjunction
  else if name = "modifier" then .modifier
  else .invalid

/-- `resolve_event_predicate`, with its first two arguments in place. -/
abbrev PredicateResolver (Setting : Type) :=
  EventPredicateList → Option Setting → Except Fault (Int × EventPredicateList)

/-- The loop over the arguments of a conjunction or a disjunction. -/
def loadHandles (resolve : PredicateResolver Setting) :
    List (Option Setting) → EventPredicateList → Except Fault (List Int × EventPredicateList)
  | [], predicates => .ok ([], predicates)
  | arg :: args, predicates => do
      let (handle, predicates) ← resolve predicates arg
      let (handles, predicates) ← loadHandles resolve args predicates
      .ok (handle :: handles, predicates)

def loadArgs (p : ConfigPlatform Setting) (resolve : PredicateResolver Setting)
    (predicates : EventPredicateList) :
    Option Setting → Except Fault (Option (List Int) × EventPredicateList)
  | none => do
      let length ← p.library.lengthNull
      if length > 0 then .error .dangling else .ok (none, predicates)
  | some args =>
      if p.library.length args > 0 then do
        let (handles, predicates) ← loadHandles resolve (p.library.elems args) predicates
        .ok (some handles, predicates)
      else .ok (none, predicates)

/-- The `switch` of `load_single_predicate`; `none` where the function returns -1. -/
def loadPredicateData (p : ConfigPlatform Setting) (resolve : PredicateResolver Setting)
    (constants : Option ConstantRegistry) (predicates : EventPredicateList) (setting : Setting) :
    NamedPredicateType → Except Fault (Option EventPredicateType × EventPredicateList)
  | .invalid => .ok (none, predicates)
  | .accept => .ok (some .accept, predicates)
  | .range field => do
      let minValue ←
        resolveConstantOr p constants (p.library.getMember setting "min") Int64.minValue
      let maxValue ←
        resolveConstantOr p constants (p.library.getMember setting "max") Int64.maxValue
      .ok (some (.range field minValue maxValue), predicates)
  | .conjunction => do
      let (handles, predicates) ← loadArgs p resolve predicates (p.library.getMember setting "args")
      .ok (some (.conjunction handles), predicates)
  | .disjunction => do
      let (handles, predicates) ← loadArgs p resolve predicates (p.library.getMember setting "args")
      .ok (some (.disjunction handles), predicates)
  | .modifier => do
      let modifier ← resolveConstantOr p constants (p.library.getMember setting "modifier") (-1)
      if modifier.toInt < 0 ∨ modifier.toInt > modifierMax then .ok (none, predicates)
      else .ok (some (.modifier modifier.toInt), predicates)

def loadSinglePredicate (p : ConfigPlatform Setting) (resolve : PredicateResolver Setting)
    (constants : Option ConstantRegistry) (predicates : EventPredicateList) (setting : Setting) :
    Except Fault (Int × EventPredicateList) :=
  match p.library.lookupString setting "type" with
  | none => .ok (-1, predicates)
  | some typeName => do
      let (data, predicates) ←
        loadPredicateData p resolve constants predicates setting (parseEventPredicateType typeName)
      match data with
      | none => .ok (-1, predicates)
      | some type => do
          let enabled ← resolveConstantOr p constants (p.library.getMember setting "enabled") 1
          let inverted ← resolveConstantOr p constants (p.library.getMember setting "inverted") 0
          .ok (eventPredicateRegister predicates ⟨type, enabled != 0, inverted != 0⟩)

/-- `resolve_event_predicate` with at most `depth` nested calls. -/
def resolveEventPredicateFrom (p : ConfigPlatform Setting)
    (registry : Option EventPredicateHandleRegistry) (constants : Option ConstantRegistry) :
    Nat → PredicateResolver Setting
  | 0, _, _ => .error .diverges
  | _ + 1, predicates, none => .ok (-1, predicates)
  | depth + 1, predicates, some setting =>
      if p.library.type setting = .string then
        match registry with
        | none => .ok (-1, predicates)
        | some registry => do
            let name ← followName (p.library.getString setting)
            let handle ← findName registry name
            .ok (handle.getD (-1), predicates)
      else
        loadSinglePredicate p (resolveEventPredicateFrom p registry constants depth) constants
          predicates setting

def resolveEventPredicate (p : ConfigPlatform Setting)
    (registry : Option EventPredicateHandleRegistry) (constants : Option ConstantRegistry) :
    PredicateResolver Setting :=
  resolveEventPredicateFrom p registry constants p.depth

/-- The registered predicates and their names. -/
structure PredicateState where
  predicates : EventPredicateList
  names : TableState String Int
deriving DecidableEq, Repr

/-- One round of `load_predicates_section`. -/
def loadPredicate (p : ConfigPlatform Setting) (constants : Option ConstantRegistry)
    (s : PredicateState) : Option Setting → Except Fault PredicateState
  | none => .ok s
  | some predicateDef => do
      let (handle, predicates) ←
        resolveEventPredicate p (some s.names.ht) constants s.predicates (some predicateDef)
      match p.library.name predicateDef with
      | none => .ok { s with predicates := predicates }
      | some name =>
          if handle ≥ 0 then do
            let names ← insertName p s.names name handle
            .ok ⟨predicates, names⟩
          else .ok { s with predicates := predicates }

def loadPredicatesSection (p : ConfigPlatform Setting) (configSection : Option Setting)
    (constants : Option ConstantRegistry) (s : PredicateState) : Except Fault PredicateState :=
  match configSection with
  | none => .ok s
  | some configSection => (p.library.elems configSection).foldlM (loadPredicate p constants) s

/-! ## Nodes and channels -/

structure GraphNodeConfig (Setting : Type) where
  name : Option String
  type : Option String
  options : Option Setting

def loadSingleNodeConfig (p : ConfigPlatform Setting) :
    Option Setting → GraphNodeConfig Setting
  | none => ⟨none, none, none⟩
  | some configMember =>
      { name := p.library.nameOrMember configMember
        type := p.library.lookupString configMember "type"
        options := p.library.getMember configMember "options" }

def loadNodesSection (p : ConfigPlatform Setting) :
    Option Setting → List (GraphNodeConfig Setting)
  | none => []
  | some configSection => (p.library.elems configSection).map (loadSingleNodeConfig p)

structure GraphChannelEnd where
  name : Option String
  index : UInt64
deriving DecidableEq, Repr

structure GraphChannelConfig where
  from_ : GraphChannelEnd
  to_ : GraphChannelEnd
deriving DecidableEq, Repr

def loadChannelEndConfig (p : ConfigPlatform Setting) (constants : Option ConstantRegistry)
    (configMember : Setting) : Except Fault GraphChannelEnd :=
  if p.library.length configMember < 1 then .ok ⟨none, 0⟩
  else if p.library.length configMember = 1 then
    match p.library.getElem configMember 0 with
    | none => .ok ⟨none, 0⟩
    | some kv => do
        let index ← resolveConstant p constants (some kv)
        .ok ⟨p.library.name kv, index.toUInt64⟩
  else do
    let index ← resolveConstant p constants (p.library.getElem configMember 1)
    .ok ⟨p.library.getStringElem configMember 0, index.toUInt64⟩

def loadSingleChannelConfig (p : ConfigPlatform Setting) (constants : Option ConstantRegistry) :
    Option Setting → Except Fault GraphChannelConfig
  | none => .ok ⟨⟨none, 0⟩, ⟨none, 0⟩⟩
  | some configMember =>
      match p.library.getElem configMember 0, p.library.getElem configMember 1 with
      | some end₀, some end₁ => do
          let flip := p.library.name end₀ == some "to" && p.library.name end₁ == some "from"
          let (fromEnd, toEnd) := if flip then (end₁, end₀) else (end₀, end₁)
          let from_ ← loadChannelEndConfig p constants fromEnd
          let to_ ← loadChannelEndConfig p constants toEnd
          .ok ⟨from_, to_⟩
      | _, _ => .ok ⟨⟨none, 0⟩, ⟨none, 0⟩⟩

def loadChannelsSection (p : ConfigPlatform Setting) (configSection : Option Setting)
    (constants : Option ConstantRegistry) : Except Fault (List GraphChannelConfig) :=
  match configSection with
  | none => .ok []
  | some configSection => (p.library.elems configSection).mapM (loadSingleChannelConfig p constants)

/-! ## The whole configuration -/

structure FullConfig (Setting : Type) where
  nodes : List (GraphNodeConfig Setting)
  channels : List GraphChannelConfig
  constants : ConstantRegistry
  predicates : EventPredicateHandleRegistry

/-- The constants after both of their sections. -/
def loadAllConstants (p : ConfigPlatform Setting) (configRoot : Setting) (draws : Nat) :
    Except Fault (TableState String Int64) := do
  let (ht, draws) := hashTableInitImpl p.members draws
  let constants ← insertName p ⟨ht, draws⟩ "false" 0
  let constants ← insertName p constants "true" 1
  let constants ← populateEventCodes p constants
  let constants ← loadConstantsSection p (p.library.getMember configRoot "constants") constants
  loadEnumsSection p (p.library.getMember configRoot "enums") constants

/-- `none` is the result `false`, which leaves everything unchanged.  Besides the configuration the
registered predicates are returned, and how many hash functions were drawn. -/
def loadConfig (p : ConfigPlatform Setting) (configRoot : Option Setting)
    (predicates : EventPredicateList) (draws : Nat) :
    Except Fault (Option (FullConfig Setting × EventPredicateList × Nat)) :=
  match configRoot with
  | none => .ok none
  | some configRoot => do
      let constants ← loadAllConstants p configRoot draws
      let (names, draws) := hashTableInitImpl p.members constants.draws
      let s ←
        loadPredicatesSection p (p.library.getMember configRoot "predicates") (some constants.ht)
          ⟨predicates, ⟨names, draws⟩⟩
      let nodes := loadNodesSection p (p.library.getMember configRoot "nodes")
      let channels ←
        loadChannelsSection p (p.library.getMember configRoot "channels") (some constants.ht)
      .ok (some (⟨nodes, channels, constants.ht, s.names.ht⟩, s.predicates, s.names.draws))

/-! ## Settings as trees -/

/-- Settings of a parsed file, enough for examples. -/
inductive SettingTree where
  | int (name : Option String) (value : Int64)
  | string (name : Option String) (value : String)
  | group (name : Option String) (members : List SettingTree)
  | list (name : Option String) (elems : List SettingTree)

namespace SettingTree

def type : SettingTree → SettingType
  | .int _ _ => .int64
  | .string _ _ => .string
  | .group _ _ => .group
  | .list _ _ => .list

def name : SettingTree → Option String
  | .int name _ | .string name _ | .group name _ | .list name _ => name

def children : SettingTree → List SettingTree
  | .group _ children | .list _ children => children
  | _ => []

def member : SettingTree → String → Option SettingTree
  | .group _ members, key => members.find? fun m => m.name == some key
  | _, _ => none

def text : SettingTree → Option String
  | .string _ value => some value
  | _ => none

def integer : SettingTree → Option Int64
  | .int _ value => some value
  | _ => none

def library : SettingLibrary SettingTree where
  type := type
  name := name
  length s := s.children.length
  lengthNull := .error .dangling
  getElem s i := s.children[i]?
  getMember := member
  getString := text
  getStringElem s i := s.children[i]?.bind text
  getInt64 s := s.integer.getD 0
  lookupString s key := (s.member key).bind text
  lookupInt64 s key := (s.member key).bind integer

end SettingTree

/-- A platform without event codes, on which every hash function is the same. -/
def treePlatform : ConfigPlatform SettingTree where
  library := SettingTree.library
  eventCodes := []
  members := sameMember
  depth := 8

end EventSeq
