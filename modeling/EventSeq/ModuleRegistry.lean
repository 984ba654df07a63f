import EventSeq.Config
import EventSeq.Graph

/-!
# The registry of node types (`module_registry.c`)

The constructor of each module registers its specification before `main` runs.  A specification is
looked up by its name, and `--list-modules` walks over the table.
-/

namespace EventSeq

variable {Setting : Type}

/-- The `name` of a specification. -/
def NodeType.name : NodeType → String
  | .tee => "tee"
  | .router => "router"
  | .modifiers => "modifiers"
  | .modifyPredicate => "modify_predicate"
  | .assign => "assign"
  | .differentiate => "differentiate"
  | .integrate => "integrate"
  | .scale => "scale"
  | .print => "print"
  | .uinput => "uinput"
  | .window => "window"
  | .evdev => "evdev"
  | .getchar => "getchar"

theorem NodeType.name_injective : Function.Injective NodeType.name := by
  intro type type' h
  cases type <;> cases type' <;> first | rfl | exact absurd h (by decide)

abbrev GraphNodeSpecificationRegistry := HashTable String (Option NodeType)

def registerGraphNodeSpecification (p : ConfigPlatform Setting)
    (registry : TableState String (Option NodeType)) (spec : NodeType) :
    Except Fault (TableState String (Option NodeType)) :=
  insertName p registry spec.name (some spec)

/-- The constructors of the modules in the order in which they run; the first one initializes the
registry. -/
def registerModules (p : ConfigPlatform Setting) (modules : List NodeType) :
    Except Fault (TableState String (Option NodeType)) :=
  let (ht, draws) := hashTableInitImpl p.members 0
  modules.foldlM (registerGraphNodeSpecification p) ⟨ht, draws⟩

/-- `none` is a null pointer, which an unknown name leads to. -/
def lookupGraphNodeSpecification (registry : GraphNodeSpecificationRegistry) (name : String) :
    Except Fault (Option NodeType) := do
  let value ← findName registry name
  .ok value.join

/-- The names that `--list-modules` prints, in the order of the slots. -/
def listModules (registry : GraphNodeSpecificationRegistry) : List String :=
  (registry.keyArray.take registry.capacity).filterMap fun entry => entry.key.bytes

/-! ## What the registry holds -/

/-- The specification with a name, which is the only one. -/
def registered (modules : List NodeType) (name : String) : Option NodeType :=
  modules.find? fun spec => spec.name == name

theorem registered_eq_some_iff {modules : List NodeType} {name : String} {spec : NodeType} :
    registered modules name = some spec ↔ spec ∈ modules ∧ spec.name = name := by
  constructor
  · intro h
    have hname := List.find?_some h
    exact ⟨List.mem_of_find?_eq_some h, by simpa using hname⟩
  · rintro ⟨hspec, rfl⟩
    cases hfind : registered modules spec.name with
    | none =>
        have hnot := List.find?_eq_none.mp hfind spec hspec
        simp at hnot
    | some other =>
        have hname := List.find?_some hfind
        rw [NodeType.name_injective (by simpa using hname : other.name = spec.name)]

theorem registered_append (modules : List NodeType) (spec : NodeType) :
    registered (modules ++ [spec]) =
      Function.update (registered modules) spec.name (some spec) := by
  funext name
  rw [Function.update_apply]
  apply Option.ext
  intro other
  rw [registered_eq_some_iff, List.mem_append, List.mem_singleton]
  split
  · rename_i hname
    subst hname
    constructor
    · rintro ⟨-, hother⟩
      rw [NodeType.name_injective hother]
    · rintro ⟨⟩
      exact ⟨.inr rfl, rfl⟩
  · rename_i hname
    rw [registered_eq_some_iff]
    constructor
    · rintro ⟨hmem | rfl, hother⟩
      · exact ⟨hmem, hother⟩
      · exact absurd hother.symm hname
    · rintro ⟨hmem, hother⟩
      exact ⟨.inl hmem, hother⟩

/-- The table holds the modules, with pointers that are not null. -/
def HoldsModules (modules : List NodeType) (registry : TableState String (Option NodeType)) : Prop :=
  registry.ht.Holds fun name => (registered modules name).map some

section

variable {p : ConfigPlatform Setting} {modules : List NodeType}
  {registry registry' : TableState String (Option NodeType)} {spec : NodeType}

theorem HoldsModules.register (h : HoldsModules modules registry)
    (hregister : registerGraphNodeSpecification p registry spec = .ok registry') :
    HoldsModules (modules ++ [spec]) registry' := by
  have hinserted := insertName_holds h hregister
  have hmap : (fun name => (registered (modules ++ [spec]) name).map some) =
      Function.update (fun name => (registered modules name).map some) spec.name (some (some spec)) := by
    funext name
    rw [registered_append, Function.update_apply, Function.update_apply]
    split <;> rfl
  unfold HoldsModules
  rw [hmap]
  exact hinserted

theorem registerModules_holds (h : registerModules p modules = .ok registry) :
    HoldsModules modules registry := by
  have hempty : HoldsModules [] ⟨(hashTableInitImpl p.members 0).1, (hashTableInitImpl p.members 0 :
      HashTable String (Option NodeType) × Nat).2⟩ := emptyNames_holds p.members 0
  have hholds := foldlM_simulates (g := fun modules spec => modules ++ [spec])
    (fun _ _ _ _ h hregister => h.register hregister) hempty h
  have hall : modules.foldl (fun modules spec => modules ++ [spec]) [] = modules := by
    rw [List.foldl_append_eq_append, List.nil_append, ← List.flatMap_def, List.flatMap_singleton']
  rw [hall] at hholds
  exact hholds

theorem HoldsModules.lookup (h : HoldsModules modules registry) (name : String) :
    lookupGraphNodeSpecification registry.ht name = .ok (registered modules name) := by
  refine (bind_eq_ok_iff _ _ _).mpr ⟨_, findName_eq h name, ?_⟩
  cases registered modules name <;> rfl

/-- The names in the slots are those of the map. -/
theorem mem_listModules (h : HoldsModules modules registry) (name : String) :
    name ∈ listModules registry.ht ↔ ∃ spec ∈ modules, spec.name = name := by
  have hkeys := h.wellFormed.keys_length
  have hsome := h.represents.isSome_iff h.wellFormed.shaped (k := name)
  rw [Option.isSome_map] at hsome
  have hmodules : (∃ spec ∈ modules, spec.name = name) ↔ (registered modules name).isSome := by
    rw [Option.isSome_iff_exists]
    simp only [registered_eq_some_iff]
  rw [hmodules, hsome, listModules, List.take_of_length_le hkeys.le, List.mem_filterMap]
  constructor
  · rintro ⟨entry, hentry, hbytes⟩
    obtain ⟨j, hj⟩ := List.mem_iff_getElem?.mp hentry
    refine ⟨j, ?_⟩
    rw [HashTable.keyAt, hj]
    exact hbytes
  · rintro ⟨j, hj⟩
    rw [HashTable.keyAt, Option.bind_eq_some_iff] at hj
    obtain ⟨entry, hentry, hbytes⟩ := hj
    exact ⟨entry, List.mem_of_getElem? hentry, hbytes⟩

/-- No two slots have the same key. -/
theorem listModules_nodup (h : HoldsModules modules registry) : (listModules registry.ht).Nodup := by
  have hkeys := h.wellFormed.keys_length
  rw [listModules, List.take_of_length_le hkeys.le, List.Nodup, List.pairwise_filterMap,
    List.pairwise_iff_getElem]
  intro i j hi hj hij name hname name' hname' heq
  subst heq
  have hkeyAt : ∀ {k : Nat} (hk : k < registry.ht.keyArray.length),
      registry.ht.keyAt k = registry.ht.keyArray[k].key.bytes := by
    intro k hk
    rw [HashTable.keyAt, List.getElem?_eq_getElem hk]
    rfl
  have hsame := h.wellFormed.distinct i j name ((hkeyAt hi).trans hname) ((hkeyAt hj).trans hname')
  omega

end

/-- After the constructors have run, in whatever order and however often the table was enlarged, a
name is looked up as the module that has it, and the list of modules has each of their names once. -/
theorem modules_found_and_listed {p : ConfigPlatform Setting} {modules : List NodeType}
    {registry : TableState String (Option NodeType)} (h : registerModules p modules = .ok registry) :
    (∀ name spec, lookupGraphNodeSpecification registry.ht name = .ok (some spec) ↔
      spec ∈ modules ∧ spec.name = name) ∧
    (∀ name, lookupGraphNodeSpecification registry.ht name = .ok none ↔
      ∀ spec ∈ modules, spec.name ≠ name) ∧
    (listModules registry.ht).Perm (modules.dedup.map NodeType.name) := by
  have hholds := registerModules_holds h
  refine ⟨fun name spec => ?_, fun name => ?_, ?_⟩
  · rw [hholds.lookup, Except.ok.injEq, registered_eq_some_iff]
  · rw [hholds.lookup, Except.ok.injEq, registered, List.find?_eq_none]
    simp
  · -- both lists are without repetition
    rw [List.perm_ext_iff_of_nodup (listModules_nodup hholds)
      ((List.nodup_dedup modules).map NodeType.name_injective)]
    intro name
    rw [mem_listModules hholds, List.mem_map]
    simp only [List.mem_dedup]

/-- The modules in the order of the object files. -/
def linkedModules : List NodeType :=
  [.getchar, .print, .evdev, .tee, .router, .modifiers, .modifyPredicate, .uinput, .assign,
    .differentiate, .integrate, .scale, .window]

theorem modules_found_and_listed_linked :
    ∃ registry : TableState String (Option NodeType),
      registerModules treePlatform linkedModules = .ok registry ∧
      lookupGraphNodeSpecification registry.ht "modify_predicate" = .ok (some .modifyPredicate) ∧
      lookupGraphNodeSpecification registry.ht "keyboard" = .ok none ∧
      (listModules registry.ht).Perm (linkedModules.map NodeType.name) := by
  have hreturns : (registerModules treePlatform linkedModules).toOption.isSome = true := by
    decide +kernel
  cases hregister : registerModules treePlatform linkedModules with
  | error fault =>
      rw [hregister] at hreturns
      cases hreturns
  | ok registry =>
      obtain ⟨hfound, hunknown, hlisted⟩ := modules_found_and_listed hregister
      exact ⟨registry, rfl, (hfound _ _).mpr ⟨by decide, rfl⟩, (hunknown _).mpr (by decide), hlisted⟩

end EventSeq
