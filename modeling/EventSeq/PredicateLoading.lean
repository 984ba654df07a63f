import EventSeq.Config
import EventSeq.Lib.Runs

/-!
# Loading predicates

A handle that is stored in a predicate was returned before the predicate was registered, so it is
smaller than the predicate's own.  The names refer to registered predicates only, whatever they are
defined as or how often.
-/

namespace EventSeq

open Lib

variable {Setting : Type}

/-- `handle` is -1 or one of the first `n` handles. -/
def HandleBelow (n : Nat) (handle : Int) : Prop := handle = -1 ∨ 0 ≤ handle ∧ handle < n

/-- Each predicate refers to handles below its own, or to none. -/
def ChildrenBelow (predicates : EventPredicateList) : Prop :=
  ∀ (i : Nat) ptr, predicates[i]? = some ptr → ∀ child ∈ ptr.type.handles, HandleBelow i child

/-- The names stand for registered predicates. -/
def NamesBelow (names : EventPredicateHandleRegistry) (n : Nat) : Prop :=
  ∃ m, names.Holds m ∧ ∀ name handle, m name = some handle → 0 ≤ handle ∧ handle < n

variable {n n' : Nat} {handle : Int} {predicates predicates' : EventPredicateList}

theorem HandleBelow.mono (hle : n ≤ n') (h : HandleBelow n handle) : HandleBelow n' handle := by
  unfold HandleBelow at *
  omega

theorem NamesBelow.mono {names : EventPredicateHandleRegistry} (hle : n ≤ n')
    (h : NamesBelow names n) : NamesBelow names n' := by
  obtain ⟨m, hholds, hbelow⟩ := h
  refine ⟨m, hholds, fun name handle hm => ?_⟩
  have hlt := hbelow name handle hm
  omega

theorem ChildrenBelow.acyclic (h : ChildrenBelow predicates) : Acyclic predicates := by
  intro i ptr hptr child hchild
  have hbelow := h i ptr hptr child hchild
  unfold HandleBelow at hbelow
  omega

/-- The setters do not touch what a predicate refers to. -/
theorem ChildrenBelow.assign (h : ChildrenBelow predicates) (handle : Int)
    {f : EventPredicate → EventPredicate} (hf : ∀ ptr, (f ptr).type = ptr.type) :
    ChildrenBelow (eventPredicateAssign predicates handle f) := by
  rw [eventPredicateAssign]
  split
  · exact h
  · intro i ptr hptr
    rw [List.getElem?_modify] at hptr
    obtain ⟨old, hold, hnew⟩ := Option.map_eq_some_iff.mp hptr
    have htype : ptr.type = old.type := by
      rw [← hnew]
      split
      · exact hf old
      · rfl
    rw [htype]
    exact h i old hold

/-! ## What loading a predicate does -/

/-- Loading returns a handle of the registry it leaves, which only grew. -/
structure Loaded (predicates predicates' : EventPredicateList) : Prop where
  children : ChildrenBelow predicates'
  grows : predicates <+: predicates'

theorem Loaded.refl (h : ChildrenBelow predicates) : Loaded predicates predicates :=
  ⟨h, List.prefix_rfl⟩

theorem Loaded.length_le (h : Loaded predicates predicates') : predicates.length ≤ predicates'.length :=
  h.grows.length_le

theorem Loaded.trans {predicates'' : EventPredicateList} (h : Loaded predicates predicates')
    (h' : Loaded predicates' predicates'') : Loaded predicates predicates'' :=
  ⟨h'.children, h.grows.trans h'.grows⟩

theorem eventPredicateRegister_loaded {predicate : EventPredicate} (h : ChildrenBelow predicates)
    (hchildren : ∀ child ∈ predicate.type.handles, HandleBelow predicates.length child)
    (hregister : eventPredicateRegister predicates predicate = (handle, predicates')) :
    Loaded predicates predicates' ∧ HandleBelow predicates'.length handle := by
  unfold eventPredicateRegister at hregister
  split at hregister
  · cases hregister
    exact ⟨.refl h, .inl rfl⟩
  · cases hregister
    refine ⟨⟨?_, List.prefix_append _ _⟩, .inr ?_⟩
    · intro i ptr hptr
      rcases Nat.lt_trichotomy i predicates.length with hi | rfl | hi
      · rw [List.getElem?_append_left hi] at hptr
        exact h i ptr hptr
      · rw [List.getElem?_concat_length] at hptr
        cases hptr
        exact hchildren
      · rw [List.getElem?_eq_none (by simp; omega)] at hptr
        cases hptr
    · rw [List.length_append, List.length_singleton]
      omega

/-- What a resolver of settings does with any registry that has the named predicates. -/
def ResolvesBelow (resolve : PredicateResolver Setting) (n : Nat) : Prop :=
  ∀ {predicates predicates' setting handle}, n ≤ predicates.length → ChildrenBelow predicates →
    resolve predicates setting = .ok (handle, predicates') →
    Loaded predicates predicates' ∧ HandleBelow predicates'.length handle

variable {p : ConfigPlatform Setting} {resolve : PredicateResolver Setting}
  {constants : Option ConstantRegistry} {names : EventPredicateHandleRegistry}

theorem loadHandles_loaded (hresolve : ResolvesBelow resolve n) {args : List (Option Setting)}
    {handles : List Int} (hn : n ≤ predicates.length) (h : ChildrenBelow predicates)
    (hload : loadHandles resolve args predicates = .ok (handles, predicates')) :
    Loaded predicates predicates' ∧ ∀ child ∈ handles, HandleBelow predicates'.length child := by
  induction args generalizing predicates handles with
  | nil =>
      cases hload
      exact ⟨.refl h, by simp⟩
  | cons arg args ih =>
      obtain ⟨⟨handle, predicates₁⟩, hfirst, hload⟩ := (bind_eq_ok_iff _ _ _).mp hload
      obtain ⟨⟨rest, predicates₂⟩, hrest, ⟨⟩⟩ := (bind_eq_ok_iff _ _ _).mp hload
      obtain ⟨hloaded₁, hhandle⟩ := hresolve hn h hfirst
      obtain ⟨hloaded₂, hhandles⟩ :=
        ih (hn.trans hloaded₁.length_le) hloaded₁.children hrest
      refine ⟨hloaded₁.trans hloaded₂, fun child hchild => ?_⟩
      rcases List.mem_cons.mp hchild with rfl | hchild
      · exact hhandle.mono hloaded₂.length_le
      · exact hhandles child hchild

theorem loadArgs_loaded (hresolve : ResolvesBelow resolve n) {args : Option Setting}
    {handles : Option (List Int)} (hn : n ≤ predicates.length) (h : ChildrenBelow predicates)
    (hload : loadArgs p resolve predicates args = .ok (handles, predicates')) :
    Loaded predicates predicates' ∧ ∀ child ∈ handles.getD [], HandleBelow predicates'.length child := by
  unfold loadArgs at hload
  split at hload
  · obtain ⟨length, -, hload⟩ := (bind_eq_ok_iff _ _ _).mp hload
    split at hload
    · cases hload
    · cases hload
      exact ⟨.refl h, by simp⟩
  · split at hload
    · obtain ⟨⟨list, predicates₁⟩, hlist, ⟨⟩⟩ := (bind_eq_ok_iff _ _ _).mp hload
      exact loadHandles_loaded hresolve hn h hlist
    · cases hload
      exact ⟨.refl h, by simp⟩

theorem handles_conjunction (handles : Option (List Int)) :
    (EventPredicateType.conjunction handles).handles = handles.getD [] := by
  cases handles <;> rfl

theorem handles_disjunction (handles : Option (List Int)) :
    (EventPredicateType.disjunction handles).handles = handles.getD [] := by
  cases handles <;> rfl

theorem loadPredicateData_loaded (hresolve : ResolvesBelow resolve n) {setting : Setting}
    {named : NamedPredicateType} {data : Option EventPredicateType} (hn : n ≤ predicates.length)
    (h : ChildrenBelow predicates)
    (hload : loadPredicateData p resolve constants predicates setting named = .ok (data, predicates')) :
    Loaded predicates predicates' ∧
      ∀ type, data = some type → ∀ child ∈ type.handles, HandleBelow predicates'.length child := by
  cases named with
  | invalid =>
      cases hload
      exact ⟨.refl h, nofun⟩
  | accept =>
      cases hload
      refine ⟨.refl h, ?_⟩
      rintro type ⟨⟩ child hchild
      cases hchild
  | range field =>
      obtain ⟨minValue, -, hload⟩ := (bind_eq_ok_iff _ _ _).mp hload
      obtain ⟨maxValue, -, ⟨⟩⟩ := (bind_eq_ok_iff _ _ _).mp hload
      refine ⟨.refl h, ?_⟩
      rintro type ⟨⟩ child hchild
      cases hchild
  | conjunction =>
      obtain ⟨⟨handles, predicates₁⟩, hargs, ⟨⟩⟩ := (bind_eq_ok_iff _ _ _).mp hload
      obtain ⟨hloaded, hhandles⟩ := loadArgs_loaded hresolve hn h hargs
      refine ⟨hloaded, ?_⟩
      rintro type ⟨⟩
      rw [handles_conjunction]
      exact hhandles
  | disjunction =>
      obtain ⟨⟨handles, predicates₁⟩, hargs, ⟨⟩⟩ := (bind_eq_ok_iff _ _ _).mp hload
      obtain ⟨hloaded, hhandles⟩ := loadArgs_loaded hresolve hn h hargs
      refine ⟨hloaded, ?_⟩
      rintro type ⟨⟩
      rw [handles_disjunction]
      exact hhandles
  | modifier =>
      obtain ⟨modifier, -, hload⟩ := (bind_eq_ok_iff _ _ _).mp hload
      split at hload
      · cases hload
        exact ⟨.refl h, nofun⟩
      · cases hload
        refine ⟨.refl h, ?_⟩
        rintro type ⟨⟩ child hchild
        cases hchild

/-- The arguments are loaded before the predicate itself gets its handle. -/
theorem loadSinglePredicate_loaded (hresolve : ResolvesBelow resolve n) {setting : Setting}
    (hn : n ≤ predicates.length) (h : ChildrenBelow predicates)
    (hload : loadSinglePredicate p resolve constants predicates setting = .ok (handle, predicates')) :
    Loaded predicates predicates' ∧ HandleBelow predicates'.length handle := by
  unfold loadSinglePredicate at hload
  split at hload
  · cases hload
    exact ⟨.refl h, .inl rfl⟩
  · obtain ⟨⟨data, predicates₁⟩, hdata, hload⟩ := (bind_eq_ok_iff _ _ _).mp hload
    obtain ⟨hloaded, hchildren⟩ := loadPredicateData_loaded hresolve hn h hdata
    dsimp only at hload
    split at hload
    · cases hload
      exact ⟨hloaded, .inl rfl⟩
    · rename_i type
      obtain ⟨enabled, -, hload⟩ := (bind_eq_ok_iff _ _ _).mp hload
      obtain ⟨inverted, -, hload⟩ := (bind_eq_ok_iff _ _ _).mp hload
      obtain ⟨hregistered, hhandle⟩ :=
        eventPredicateRegister_loaded hloaded.children (hchildren type rfl) (Except.ok.inj hload)
      exact ⟨hloaded.trans hregistered, hhandle⟩

theorem resolveEventPredicateFrom_loaded {registry : Option EventPredicateHandleRegistry}
    (hnames : ∀ names, registry = some names → NamesBelow names n) (depth : Nat) :
    ResolvesBelow (resolveEventPredicateFrom p registry constants depth) n := by
  induction depth with
  | zero =>
      intro predicates predicates' setting handle _ _ hresolve
      cases hresolve
  | succ depth ih =>
      intro predicates predicates' setting handle hn h hresolve
      unfold resolveEventPredicateFrom at hresolve
      cases setting with
      | none =>
          cases hresolve
          exact ⟨.refl h, .inl rfl⟩
      | some setting =>
          dsimp only at hresolve
          split at hresolve
          · -- a name: the registry of predicates is left alone
            cases registry with
            | none =>
                cases hresolve
                exact ⟨.refl h, .inl rfl⟩
            | some names =>
                obtain ⟨name, -, hresolve⟩ := (bind_eq_ok_iff _ _ _).mp hresolve
                obtain ⟨found, hfound, ⟨⟩⟩ := (bind_eq_ok_iff _ _ _).mp hresolve
                refine ⟨.refl h, ?_⟩
                obtain ⟨m, hholds, hbelow⟩ := hnames names rfl
                rw [findName_eq hholds] at hfound
                cases hfound
                cases hm : m name with
                | none => exact .inl rfl
                | some handle =>
                    have hlt := hbelow name handle hm
                    exact .inr ⟨hlt.1, show handle < _ by omega⟩
          · exact loadSinglePredicate_loaded ih hn h hresolve

/-! ## Runs -/

/-- What happens to the predicates after the program has started. -/
inductive PredicateCall (Setting : Type) where
  | loadSection (configSection : Option Setting)
  | resolve (setting : Option Setting)
  | setEnabled (handle : Int) (enabled : Bool)
  | setInverted (handle : Int) (inverted : Bool)

namespace PredicateState

def fresh (p : ConfigPlatform Setting) (draws : Nat) : PredicateState :=
  match hashTableInitImpl p.members draws with
  | (ht, draws) => ⟨[], ⟨ht, draws⟩⟩

def call (p : ConfigPlatform Setting) (constants : Option ConstantRegistry) (s : PredicateState) :
    PredicateCall Setting → Except Fault PredicateState
  | .loadSection configSection => loadPredicatesSection p configSection constants s
  | .resolve setting => do
      let (_, predicates) ← resolveEventPredicate p (some s.names.ht) constants s.predicates setting
      .ok { s with predicates := predicates }
  | .setEnabled handle enabled =>
      .ok { s with predicates := eventPredicateSetEnabled s.predicates handle enabled }
  | .setInverted handle inverted =>
      .ok { s with predicates := eventPredicateSetInverted s.predicates handle inverted }

structure Ordered (s : PredicateState) : Prop where
  children : ChildrenBelow s.predicates
  names : NamesBelow s.names.ht s.predicates.length

variable {s s' : PredicateState}

theorem fresh_ordered (p : ConfigPlatform Setting) (draws : Nat) : (fresh p draws).Ordered := by
  refine ⟨fun i ptr hptr => ?_, fun _ => none, emptyNames_holds p.members draws, nofun⟩
  cases hptr

theorem Ordered.assign (h : s.Ordered) (handle : Int) {f : EventPredicate → EventPredicate}
    (hf : ∀ ptr, (f ptr).type = ptr.type) :
    Ordered { s with predicates := eventPredicateAssign s.predicates handle f } := by
  refine ⟨h.children.assign handle hf, ?_⟩
  show NamesBelow s.names.ht (eventPredicateAssign s.predicates handle f).length
  rw [eventPredicateAssign_length]
  exact h.names

theorem Ordered.resolved (h : s.Ordered) {setting : Option Setting}
    (hresolve : resolveEventPredicate p (some s.names.ht) constants s.predicates setting =
      .ok (handle, predicates')) :
    Ordered { s with predicates := predicates' } ∧ HandleBelow predicates'.length handle := by
  have hnames : ∀ names, some s.names.ht = some names → NamesBelow names s.predicates.length := by
    rintro names ⟨⟩
    exact h.names
  obtain ⟨hloaded, hhandle⟩ :=
    resolveEventPredicateFrom_loaded hnames p.depth le_rfl h.children hresolve
  exact ⟨⟨hloaded.children, h.names.mono hloaded.length_le⟩, hhandle⟩

/-- A name is given to a handle only after the predicate was registered. -/
theorem Ordered.loadPredicate (h : s.Ordered) {predicateDef : Option Setting}
    (hload : loadPredicate p constants s predicateDef = .ok s') : s'.Ordered := by
  cases predicateDef with
  | none =>
      cases hload
      exact h
  | some predicateDef =>
      obtain ⟨⟨handle, predicates'⟩, hresolve, hload⟩ := (bind_eq_ok_iff _ _ _).mp hload
      obtain ⟨hordered, hhandle⟩ := h.resolved hresolve
      dsimp only at hload
      split at hload
      · cases hload
        exact hordered
      · rename_i name _
        split at hload
        · rename_i hpositive
          obtain ⟨names, hinsert, ⟨⟩⟩ := (bind_eq_ok_iff _ _ _).mp hload
          obtain ⟨m, hholds, hbelow⟩ := hordered.names
          refine ⟨hordered.children, _, insertName_holds hholds hinsert, fun other found hfound => ?_⟩
          -- the new name has the handle just registered, the others have smaller ones
          rw [Function.update_apply] at hfound
          split at hfound
          · cases hfound
            unfold HandleBelow at hhandle
            show 0 ≤ handle ∧ handle < predicates'.length
            omega
          · exact hbelow other found hfound
        · cases hload
          exact hordered

theorem Ordered.call (h : s.Ordered) {l : PredicateCall Setting} (hcall : s.call p constants l = .ok s') :
    s'.Ordered := by
  cases l with
  | loadSection configSection =>
      cases configSection with
      | none =>
          cases hcall
          exact h
      | some configSection =>
          exact foldlM_invariant (fun s x s' hs hload => hs.loadPredicate hload) h hcall
  | resolve setting =>
      obtain ⟨⟨handle, predicates'⟩, hresolve, ⟨⟩⟩ := (bind_eq_ok_iff _ _ _).mp hcall
      exact (h.resolved hresolve).1
  | setEnabled handle enabled =>
      cases hcall
      exact h.assign handle fun _ => rfl
  | setInverted handle inverted =>
      cases hcall
      exact h.assign handle fun _ => rfl

end PredicateState

/-- However predicates are defined, named, used by nodes and switched, each refers to handles below
its own or to none, so that `event_predicate_apply` returns for every handle and every event. -/
theorem predicates_acyclic (p : ConfigPlatform Setting) (constants : Option ConstantRegistry)
    (draws : Nat) {τ : List (Transition PredicateState (PredicateCall Setting))} {s : PredicateState}
    (hrun : Run (fun s l s' => s.call p constants l = .ok s') (.fresh p draws) τ s) :
    (∀ (h : Nat) ptr, s.predicates[h]? = some ptr → ∀ child ∈ ptr.type.handles,
      child = -1 ∨ 0 ≤ child ∧ child < h) ∧
    ∀ handle event, ∃ result, eventPredicateApply s.predicates handle event = .ok result := by
  have hordered : s.Ordered :=
    hrun.invariant (fun _ _ _ hcall h => h.call hcall) (PredicateState.fresh_ordered p draws)
  exact ⟨hordered.children,
    fun handle event => eventPredicateApply_ok hordered.children.acyclic event handle⟩

/-- `first` is a conjunction of itself, of `second`, which comes later, and of a nested predicate. -/
def selfReference : SettingTree :=
  .group none
    [.group (some "first")
      [.string (some "type") "and",
        .list (some "args")
          [.string none "first", .string none "second", .group none [.string (some "type") "accept"]]],
      .group (some "second")
        [.string (some "type") "or", .list (some "args") [.string none "first"]]]

theorem predicates_acyclic_self_reference :
    ∃ s : PredicateState,
      s.predicates =
        [⟨.accept, true, false⟩, ⟨.conjunction (some [-1, -1, 0]), true, false⟩,
          ⟨.disjunction (some [1]), true, false⟩] ∧
      ∀ handle event, ∃ result, eventPredicateApply s.predicates handle event = .ok result := by
  have hload : ((PredicateState.fresh treePlatform 0).call treePlatform none
      (.loadSection (some selfReference))).map PredicateState.predicates =
        .ok [⟨.accept, true, false⟩, ⟨.conjunction (some [-1, -1, 0]), true, false⟩,
          ⟨.disjunction (some [1]), true, false⟩] := by
    decide +kernel
  obtain ⟨s, hcall, hpredicates⟩ := map_eq_ok_iff.mp hload
  exact ⟨s, hpredicates, (predicates_acyclic treePlatform none 0 (Run.single hcall)).2⟩

end EventSeq
