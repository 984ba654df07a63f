import EventSeq.Config
import EventSeq.Connections

/-!
# Configured connector indices (`load_channel_end_config`, `graph_channel_list_ensure`)

A configured index is a signed number of 64 bits that is taken as a `size_t`.  The list of connectors
is made one longer than the index; for `SIZE_MAX`, which -1 becomes, that length is zero.
-/

namespace EventSeq

variable {Setting : Type}

/-! ## The index -/

/-- The value that is configured as the index of an end of a channel, zero without one. -/
def configuredIndex (p : ConfigPlatform Setting) (constants : Option ConstantRegistry)
    (configMember : Setting) : Except Fault Int64 :=
  if p.library.length configMember < 1 then .ok 0
  else if p.library.length configMember = 1 then
    match p.library.getElem configMember 0 with
    | none => .ok 0
    | some kv => resolveConstant p constants (some kv)
  else resolveConstant p constants (p.library.getElem configMember 1)

theorem loadChannelEndConfig_index {p : ConfigPlatform Setting} {constants : Option ConstantRegistry}
    {configMember : Setting} {end_ : GraphChannelEnd}
    (h : loadChannelEndConfig p constants configMember = .ok end_) :
    ∃ value, configuredIndex p constants configMember = .ok value ∧ end_.index = value.toUInt64 := by
  unfold loadChannelEndConfig at h
  rw [configuredIndex]
  split at h
  · -- the branches of the function are those of `configuredIndex`
    rename_i hempty
    cases h
    exact ⟨0, if_pos hempty, rfl⟩
  · rename_i hsome
    rw [if_neg hsome]
    split at h
    · rename_i hone
      rw [if_pos hone]
      cases hkv : p.library.getElem configMember 0 with
      | none =>
          rw [hkv] at h
          cases h
          exact ⟨0, rfl, rfl⟩
      | some kv =>
          rw [hkv] at h
          obtain ⟨value, hvalue, ⟨⟩⟩ := (bind_eq_ok_iff _ _ _).mp h
          exact ⟨value, hvalue, rfl⟩
    · rename_i hmany
      rw [if_neg hmany]
      obtain ⟨value, hvalue, ⟨⟩⟩ := (bind_eq_ok_iff _ _ _).mp h
      exact ⟨value, hvalue, rfl⟩

/-- Of all values only -1 has no successor as a `size_t`. -/
theorem toUInt64_succ_lt_iff (value : Int64) :
    value.toUInt64.toNat + 1 < sizeModulus ↔ value ≠ -1 := by
  have hlt := value.toUInt64.toNat_lt
  have hlast : (-1 : Int64).toUInt64.toNat + 1 = sizeModulus := rfl
  constructor
  · rintro hsucc rfl
    omega
  · intro hne
    have hother : value.toUInt64.toNat ≠ (-1 : Int64).toUInt64.toNat :=
      fun h => hne (Int64.toBitVec_inj.mp (congrArg UInt64.toBitVec (UInt64.toNat_inj.mp h)))
    rw [sizeModulus] at hlast ⊢
    omega

/-! ## The list of connectors -/

variable {fits : Nat → Bool} {lst : List (Option Nat)} {idx : Nat}

/-- When the list has been made ready for the index, it has that element, those it had before, and
otherwise null pointers. -/
def MadeLongEnough (fits : Nat → Bool) (lst : List (Option Nat)) (idx : Nat) : Prop :=
  ∀ lst', graphChannelListEnsure fits lst idx = .ok lst' →
    idx < lst'.length ∧ ∃ added, lst' = lst ++ List.replicate added none

theorem madeLongEnough_of_succ_lt (hidx : idx + 1 < sizeModulus) : MadeLongEnough fits lst idx := by
  intro lst' h
  obtain ⟨hlong, hadded⟩ := GraphMemory.graphChannelListEnsure_spec h
  rw [Nat.mod_eq_of_lt hidx] at hlong
  exact ⟨hlong, hadded⟩

/-- Its only failure is the exit of the program, when there is no memory for the longer list. -/
theorem graphChannelListEnsure_error {f : Fault} (h : graphChannelListEnsure fits lst idx = .error f) :
    f = .aborts ∧ fits ((idx + 1) % sizeModulus) = false := by
  unfold graphChannelListEnsure at h
  dsimp only at h
  rcases ite_eq_iff.mp h with ⟨hshort, hexit⟩ | ⟨-, hreturn⟩
  · cases hexit
    refine ⟨rfl, Bool.eq_false_of_not_eq_true fun hfits => ?_⟩
    rw [graphChannelListResize, hfits] at hshort
    split at hshort
    · rename_i hlt
      rw [if_pos rfl] at hshort
      rw [List.length_append, List.length_replicate] at hshort
      omega
    · contradiction
  · cases hreturn

/-- For the last index the length that is asked for wraps around to zero, and nothing is done. -/
theorem graphChannelListEnsure_last (hidx : idx + 1 = sizeModulus) :
    graphChannelListEnsure fits lst idx = .ok lst := by
  simp [graphChannelListEnsure, hidx]

theorem madeLongEnough_iff (hlst : lst.length < sizeModulus) (hidx : idx < sizeModulus) :
    MadeLongEnough fits lst idx ↔ idx + 1 < sizeModulus := by
  refine ⟨fun hlong => ?_, madeLongEnough_of_succ_lt⟩
  by_contra hlast
  have hensure := @graphChannelListEnsure_last fits lst idx (by omega)
  have hlt := (hlong lst hensure).1
  omega

/-! ## The access of `graph_channel_init` -/

namespace GraphMemory

variable {m : GraphMemory} {side : ChannelSide} {n ch : Nat} {node : GraphNode}

theorem detachChannel_ne_outOfRange (m : GraphMemory) (side : ChannelSide) (old : Option Nat)
    (cond : GraphChannel → Bool) : m.detachChannel side old cond ≠ .error .outOfRange := by
  unfold detachChannel
  split
  · simp
  · split
    · simp
    · simp
    · split <;> simp

/-- With a successor of the index, the list that is accessed is long enough. -/
theorem attachChannel_ne_outOfRange (m : GraphMemory) (side : ChannelSide) (ch : Nat)
    (target : Option Nat) (hidx : idx + 1 < sizeModulus) :
    m.attachChannel fits side ch target idx ≠ .error .outOfRange := by
  intro hrun
  cases target with
  | none => cases hrun
  | some n =>
      cases hnode : m.node n with
      | error f =>
          simp only [attachChannel, hnode, bind, Except.bind] at hrun
          cases hrun
          unfold GraphMemory.node at hnode
          split at hnode <;> cases hnode
      | ok node =>
          cases hensure : graphChannelListEnsure fits (side.connectors node) idx with
          | error f =>
              simp only [attachChannel, hnode, hensure, bind, Except.bind] at hrun
              cases hrun
              cases (graphChannelListEnsure_error hensure).1
          | ok elements =>
              have hlt := (madeLongEnough_of_succ_lt hidx elements hensure).1
              simp only [attachChannel, hnode, hensure, List.getElem?_eq_getElem hlt, bind,
                Except.bind] at hrun
              split at hrun
              · -- the old channel is read by its address, not by the index
                rename_i f hdetach
                cases hrun
                exact detachChannel_ne_outOfRange _ _ _ _ hdetach
              · cases hrun

/-- A channel is attached to a live node without leaving the list of connectors just when the index
has a successor. -/
theorem attachChannel_ne_outOfRange_iff (hnode : m.nodes[n]? = some (some node))
    (hlst : (side.connectors node).length < sizeModulus) (hidx : idx < sizeModulus) :
    m.attachChannel fits side ch (some n) idx ≠ .error .outOfRange ↔ idx + 1 < sizeModulus := by
  refine ⟨fun hrange => ?_, attachChannel_ne_outOfRange m side ch (some n)⟩
  by_contra hlast
  have hensure := @graphChannelListEnsure_last fits (side.connectors node) idx (by omega)
  have hnone : (side.connectors node)[idx]? = none := List.getElem?_eq_none (by omega)
  apply hrange
  simp only [attachChannel, node_eq_ok_iff.mpr hnode, hensure, hnone, bind, Except.bind]

end GraphMemory

theorem graphChannelInit_ne_outOfRange (m : GraphMemory) (ch : Nat) (start end_ : Option Nat)
    {startIdx endIdx : Nat} (hstart : startIdx + 1 < sizeModulus) (hend : endIdx + 1 < sizeModulus) :
    graphChannelInit fits m ch start startIdx end_ endIdx ≠ .error .outOfRange := by
  intro hrun
  cases h₁ : m.attachChannel fits .start ch start startIdx with
  | error f =>
      simp only [graphChannelInit, h₁, bind, Except.bind] at hrun
      cases hrun
      exact m.attachChannel_ne_outOfRange .start ch start hstart h₁
  | ok m₁ =>
      cases h₂ : m₁.attachChannel fits .end_ ch end_ endIdx with
      | error f =>
          simp only [graphChannelInit, h₁, h₂, bind, Except.bind] at hrun
          cases hrun
          exact m₁.attachChannel_ne_outOfRange .end_ ch end_ hend h₂
      | ok m₂ =>
          simp only [graphChannelInit, h₁, h₂, bind, Except.bind] at hrun
          cases hrun

/-- The ends of a channel are configured with indices for which the lists of connectors become long
enough, and are accessed within their bounds, just when these are not -1. -/
theorem connector_lists_long_enough {p : ConfigPlatform Setting}
    {constants : Option ConstantRegistry} {fromMember toMember : Setting}
    {from_ to_ : GraphChannelEnd} (hfrom : loadChannelEndConfig p constants fromMember = .ok from_)
    (hto : loadChannelEndConfig p constants toMember = .ok to_) (fits : Nat → Bool) :
    ∃ fromValue toValue, configuredIndex p constants fromMember = .ok fromValue ∧
      configuredIndex p constants toMember = .ok toValue ∧
      (∀ lst : List (Option Nat), lst.length < sizeModulus →
        (MadeLongEnough fits lst from_.index.toNat ↔ fromValue ≠ -1)) ∧
      (∀ (m : GraphMemory) (side : ChannelSide) (ch n : Nat) (node : GraphNode),
        m.nodes[n]? = some (some node) → (side.connectors node).length < sizeModulus →
        (m.attachChannel fits side ch (some n) from_.index.toNat ≠ .error .outOfRange ↔
          fromValue ≠ -1)) ∧
      (fromValue ≠ -1 → toValue ≠ -1 → ∀ (m : GraphMemory) (ch : Nat) (start end_ : Option Nat),
        graphChannelInit fits m ch start from_.index.toNat end_ to_.index.toNat ≠
          .error .outOfRange) := by
  obtain ⟨fromValue, hfromValue, hfromIndex⟩ := loadChannelEndConfig_index hfrom
  obtain ⟨toValue, htoValue, htoIndex⟩ := loadChannelEndConfig_index hto
  refine ⟨fromValue, toValue, hfromValue, htoValue, fun lst hlst => ?_,
    fun m side ch n node hnode hlst => ?_, fun hne hne' m ch start end_ => ?_⟩
  · rw [madeLongEnough_iff hlst from_.index.toNat_lt, hfromIndex, toUInt64_succ_lt_iff]
  · rw [GraphMemory.attachChannel_ne_outOfRange_iff hnode hlst from_.index.toNat_lt, hfromIndex,
      toUInt64_succ_lt_iff]
  · rw [hfromIndex, htoIndex]
    exact graphChannelInit_ne_outOfRange m ch start end_ ((toUInt64_succ_lt_iff fromValue).mpr hne)
      ((toUInt64_succ_lt_iff toValue).mpr hne')

/-! ## Two configured ends -/

/-- `("pass", i)` in a configuration. -/
def configuredEnd (i : Int64) : SettingTree := .list none [.string none "pass", .int none i]

/-- A graph of one node without connectors, and a channel to be initialised. -/
def bareMemory : GraphMemory := ⟨[some ⟨false, [], [], .print⟩], [none]⟩

theorem connector_lists_long_enough_pair :
    ∃ from_ to_, loadChannelEndConfig treePlatform none (configuredEnd 2) = .ok from_ ∧
      loadChannelEndConfig treePlatform none (configuredEnd 0) = .ok to_ ∧
      MadeLongEnough (fun _ => true) [some 0] from_.index.toNat ∧
      graphChannelInit (fun _ => true) bareMemory 0 (some 0) from_.index.toNat (some 0)
        to_.index.toNat ≠ .error .outOfRange := by
  have hfrom : loadChannelEndConfig treePlatform none (configuredEnd 2) = .ok ⟨some "pass", 2⟩ := rfl
  have hto : loadChannelEndConfig treePlatform none (configuredEnd 0) = .ok ⟨some "pass", 0⟩ := rfl
  obtain ⟨_, _, hfromValue, htoValue, hlong, -, hinit⟩ :=
    connector_lists_long_enough hfrom hto fun _ => true
  cases hfromValue
  cases htoValue
  exact ⟨_, _, hfrom, hto, (hlong [some 0] (by decide)).mpr (by decide),
    hinit (by decide) (by decide) bareMemory 0 (some 0) (some 0)⟩

/-- With the index -1 nothing is done to the empty list, and the access misses it. -/
theorem connector_index_minus_one :
    ∃ end_, loadChannelEndConfig treePlatform none (configuredEnd (-1)) = .ok end_ ∧
      graphChannelListEnsure (fun _ => true) [] end_.index.toNat = .ok [] ∧
      ¬MadeLongEnough (fun _ => true) [] end_.index.toNat ∧
      graphChannelInit (fun _ => true) bareMemory 0 (some 0) end_.index.toNat none 0 =
        .error .outOfRange := by
  have hensure : graphChannelListEnsure (fun _ => true) [] (2 ^ 64 - 1) = .ok [] :=
    graphChannelListEnsure_last rfl
  refine ⟨⟨some "pass", 0xFFFFFFFFFFFFFFFF⟩, rfl, hensure, fun hlong => ?_, rfl⟩
  cases (hlong [] hensure).1

end EventSeq
