import EventSeq.Modifiers
import EventSeq.NodeCreation
import EventSeq.Lib.Bytes

/-!
# Modifier sets as sets

Every operation acts on the bytes of the sets one by one, read with zeros beyond the end.  So it acts
on single modifiers as the operation on sets it is named after, whatever the lengths are, and the
operations with one modifier are those with a singleton.
-/

namespace EventSeq

open Lib

/-- What an operation does to a byte. -/
def ModifierOperation.onBytes : ModifierOperation → UInt8 → UInt8 → UInt8
  | .set, t, s => t ||| s
  | .unset, t, s => t &&& ~~~s
  | .toggle, t, s => t ^^^ s

/-- What an operation does to membership. -/
def ModifierOperation.onMembers : ModifierOperation → Bool → Bool → Bool
  | .set, t, s => t || s
  | .unset, t, s => t && !s
  | .toggle, t, s => t ^^ s

theorem ModifierOperation.testBit_onBytes (op : ModifierOperation) (t s : UInt8) {k : Nat}
    (hk : k < 8) :
    (op.onBytes t s).toNat.testBit k = op.onMembers (t.toNat.testBit k) (s.toNat.testBit k) := by
  cases op with
  | set => rw [onBytes, onMembers, UInt8.toNat_or, Nat.testBit_or]
  | unset => rw [onBytes, onMembers, UInt8.toNat_and, Nat.testBit_and, testBit_not s hk]
  | toggle => rw [onBytes, onMembers, UInt8.toNat_xor, Nat.testBit_xor]

theorem ModifierOperation.onBytes_zero (op : ModifierOperation) (t : UInt8) : op.onBytes t 0 = t := by
  cases op <;> simp [onBytes]

/-! ## The operations byte by byte -/

def ModifierSet.byte (s : ModifierSet) (i : Nat) : UInt8 := byteAt s.bits i

theorem byte_extend (old : ModifierSet) (newByteLength i : Nat) :
    (modifierSetExtend old newByteLength).byte i = old.byte i := by
  unfold modifierSetExtend ModifierSet.byte
  split
  · exact byteAt_append_replicate old.bits _ i
  · rfl

theorem byteLength_extend (old : ModifierSet) (newByteLength : Nat) :
    (modifierSetExtend old newByteLength).byteLength = max old.byteLength newByteLength := by
  unfold modifierSetExtend
  split
  · simp only [ModifierSet.byteLength, List.length_append, List.length_replicate] at *
    omega
  · omega

/-- The loop stops at the end of the shorter array, where the other operand counts as zero. -/
theorem byteAt_modifierBytesFrom {f : UInt8 → UInt8 → UInt8} (hzero : ∀ t, f t 0 = t)
    (target source : List UInt8) (i : Nat) :
    byteAt (modifierBytesFrom f target source) i =
      if i < target.length then f (byteAt target i) (byteAt source i) else 0 := by
  induction target generalizing source i with
  | nil => simp [modifierBytesFrom, byteAt]
  | cons t target ih =>
      cases source with
      | nil =>
          have hrest : modifierBytesFrom f (t :: target) [] = t :: target := rfl
          rw [hrest]
          split
          · have hbeyond : byteAt [] i = 0 := byteAt_of_le (Nat.zero_le i)
            rw [hbeyond, hzero]
          · rename_i hend
            exact byteAt_of_le (not_lt.mp hend)
      | cons s source =>
          cases i with
          | zero => simp [modifierBytesFrom, byteAt]
          | succ i => simpa [modifierBytesFrom, byteAt] using ih source i

theorem byte_of_le {s : ModifierSet} {i : Nat} (h : s.byteLength ≤ i) : s.byte i = 0 := byteAt_of_le h

theorem byte_operationFrom (target source : ModifierSet) (op : ModifierOperation) (i : Nat) :
    (modifierSetOperationFrom target source op).byte i =
      op.onBytes (target.byte i) (source.byte i) := by
  -- Beyond the end of an extended target both bytes are zero.
  have hextended : ∀ f : UInt8 → UInt8 → UInt8, (∀ t, f t 0 = t) →
      byteAt (modifierBytesFrom f (modifierSetExtend target source.byteLength).bits source.bits) i =
        f (target.byte i) (source.byte i) := by
    intro f hzero
    have hbyte := byte_extend target source.byteLength i
    have hlength := byteLength_extend target source.byteLength
    simp only [ModifierSet.byte, ModifierSet.byteLength] at hbyte hlength ⊢
    rw [byteAt_modifierBytesFrom hzero, hbyte]
    split
    · rfl
    · rw [byteAt_of_le (by omega), byteAt_of_le (by omega), hzero]
  cases op with
  | set => exact hextended _ fun t => UInt8.or_zero
  -- Clearing never extends the target, so beyond its end the operand is irrelevant.
  | unset =>
      have hzero : ∀ t : UInt8, t &&& ~~~0 = t := fun t => by simp
      show byteAt (modifierBytesFrom _ target.bits source.bits) i = _
      rw [byteAt_modifierBytesFrom hzero]
      split
      · rfl
      · rename_i hend
        rw [ModifierOperation.onBytes, byte_of_le (not_lt.mp hend), UInt8.zero_and]
  | toggle => exact hextended _ fun t => UInt8.xor_zero

/-- The bytes of a singleton. -/
def elementByte (element : Modifier) (i : Nat) : UInt8 :=
  if i = (modifierIndexAndMask element).1 then (modifierIndexAndMask element).2 else 0

theorem byte_operation (target : ModifierSet) (element : Modifier) (op : ModifierOperation) (i : Nat) :
    (modifierSetOperation target element op).byte i =
      op.onBytes (target.byte i) (elementByte element i) := by
  obtain ⟨⟨byteIndex, mask⟩, hindex⟩ : ∃ r, modifierIndexAndMask element = r := ⟨_, rfl⟩
  have hroom : byteIndex < (modifierSetExtend target (byteIndex + 1)).byteLength := by
    rw [byteLength_extend]
    omega
  -- both operations that set bits make room for them first
  have hextended : ∀ f : UInt8 → UInt8 → UInt8, (∀ t, f t 0 = t) →
      byteAt ((modifierSetExtend target (byteIndex + 1)).bits.modify byteIndex fun byte =>
        f byte mask) i = f (target.byte i) (if i = byteIndex then mask else 0) := by
    intro f hzero
    have hbyte := byte_extend target (byteIndex + 1) i
    rw [ModifierSet.byte] at hbyte
    rw [byteAt_modify _ _ hroom, hbyte]
    split
    · rfl
    · rw [hzero]
  simp only [modifierSetOperation, elementByte, hindex]
  cases op with
  | set =>
      simp only [modifierSetSet, hindex]
      exact hextended _ fun t => UInt8.or_zero
  | unset =>
      simp only [modifierSetUnset, hindex]
      split
      · -- There is no byte to clear the modifier in.
        rename_i hend
        by_cases hi : i = byteIndex
        · subst hi
          rw [byte_of_le hend, ModifierOperation.onBytes, UInt8.zero_and]
        · rw [if_neg hi, ModifierOperation.onBytes_zero]
      · rename_i hinside
        show byteAt _ i = _
        rw [byteAt_modify _ _ (not_le.mp hinside)]
        by_cases hi : i = byteIndex
        · rw [if_pos hi, if_pos hi]
          rfl
        · rw [if_neg hi, if_neg hi, ModifierOperation.onBytes_zero]
          rfl
  | toggle =>
      simp only [modifierSetToggle, hindex]
      exact hextended _ fun t => UInt8.xor_zero

/-! ## Membership -/

theorem modifierSetHas_eq (s : ModifierSet) (m : Modifier) :
    modifierSetHas s m = (s.byte (modifierIndexAndMask m).1).toNat.testBit (m % 8).toNat := by
  have hbit : (m % 8).toNat < 8 := by omega
  unfold modifierSetHas ModifierSet.byte byteAt
  dsimp only
  cases s.bits[(modifierIndexAndMask m).1]? with
  | none => simp
  | some byte => exact and_mask_ne_zero byte hbit

/-- The membership of a modifier is a bit of one byte, so operations on bytes carry over. -/
theorem modifierSetHas_of_byte {result target source : ModifierSet} {op : ModifierOperation}
    (h : ∀ i, result.byte i = op.onBytes (target.byte i) (source.byte i)) (m : Modifier) :
    modifierSetHas result m = op.onMembers (modifierSetHas target m) (modifierSetHas source m) := by
  have hbit : (m % 8).toNat < 8 := by omega
  rw [modifierSetHas_eq, modifierSetHas_eq, modifierSetHas_eq, h, op.testBit_onBytes _ _ hbit]

/-- A modifier that a predicate or a node can be configured with. -/
def Modifier.Valid (m : Modifier) : Prop := 0 ≤ m ∧ m ≤ modifierMax

/-- A valid modifier is determined by its byte and its bit. -/
theorem eq_iff_of_valid {m element : Int} (hm : Modifier.Valid m) (helement : Modifier.Valid element) :
    m = element ↔ (modifierIndexAndMask m).1 = (modifierIndexAndMask element).1 ∧
      (element % 8).toNat = (m % 8).toNat := by
  have hindex : ∀ x : Int, Modifier.Valid x → 0 ≤ x ∧ (modifierIndexAndMask x).1 = (x / 8).toNat := by
    rintro x ⟨hx₀, hx₁⟩
    change (0 : Int) ≤ x at hx₀
    change x ≤ (0xFFFFF : Int) at hx₁
    refine ⟨hx₀, ?_⟩
    rw [modifierIndexAndMask, Int.shiftRight_eq_div_pow]
    show ((x / 8) % 2 ^ 64).toNat = _
    omega
  obtain ⟨hm₀, hmindex⟩ := hindex m hm
  obtain ⟨he₀, heindex⟩ := hindex element helement
  rw [hmindex, heindex]
  omega

theorem modifierSetHas_set {target : ModifierSet} {element m : Modifier} (helement : element.Valid)
    (hm : m.Valid) : modifierSetHas (modifierSetSet target element) m =
      (modifierSetHas target m || decide (m = element)) := by
  have hbit : (m % 8).toNat < 8 := by omega
  have hbit' : (element % 8).toNat < 8 := by omega
  have hsingleton : (elementByte element (modifierIndexAndMask m).1).toNat.testBit (m % 8).toNat =
      decide (m = element) := by
    unfold elementByte
    split
    · rename_i hbyte
      show (1 <<< UInt8.ofNat (element % 8).toNat : UInt8).toNat.testBit _ = _
      rw [testBit_mask hbit', decide_eq_decide, eq_iff_of_valid hm helement, and_iff_right hbyte]
    · rename_i hbyte
      have hne : m ≠ element := fun heq => hbyte (by rw [heq])
      simp [hne]
  rw [modifierSetHas_eq, modifierSetHas_eq,
    show modifierSetSet target element = modifierSetOperation target element .set from rfl,
    byte_operation, ModifierOperation.testBit_onBytes _ _ _ hbit, hsingleton]
  rfl

theorem modifierSetHas_empty (m : Modifier) : modifierSetHas emptyModifierSet m = false := by
  rw [modifierSetHas_eq]
  simp [ModifierSet.byte, byteAt, emptyModifierSet]

/-- Folding `modifier_set_set` over a list adds its elements. -/
theorem modifierSetHas_foldl {elements : List Modifier} (helements : ∀ e ∈ elements, e.Valid)
    {m : Modifier} (hm : m.Valid) (start : ModifierSet) :
    modifierSetHas (elements.foldl modifierSetSet start) m = true ↔
      modifierSetHas start m = true ∨ m ∈ elements := by
  induction elements generalizing start with
  | nil => simp
  | cons element elements ih =>
      have hhead := helements element List.mem_cons_self
      rw [List.foldl_cons, ih (fun e he => helements e (List.mem_cons_of_mem _ he)),
        modifierSetHas_set hhead hm]
      simp [or_assoc]

/-- The byte operations act on membership as the set operations they are named after, whatever the
lengths of the sets; those with one modifier are those with a singleton. -/
theorem modifier_sets_are_sets :
    (∀ target source op (m : Modifier), m.Valid →
      modifierSetHas (modifierSetOperationFrom target source op) m =
        op.onMembers (modifierSetHas target m) (modifierSetHas source m)) ∧
    (∀ target (element : Modifier) op (m : Modifier), element.Valid → m.Valid →
      modifierSetHas (modifierSetOperation target element op) m =
        modifierSetHas (modifierSetOperationFrom target (modifierSetSet emptyModifierSet element) op)
          m) ∧
    (∀ elements : List Modifier, (∀ e ∈ elements, e.Valid) → ∀ m : Modifier, m.Valid →
      (modifierSetHas (elements.foldl modifierSetSet emptyModifierSet) m = true ↔ m ∈ elements)) ∧
    ∀ target source op i, (modifierSetOperationFrom target source op).byte i =
      op.onBytes (target.byte i) (source.byte i) := by
  refine ⟨?_, ?_, ?_, byte_operationFrom⟩
  · intro target source op m _
    exact modifierSetHas_of_byte (byte_operationFrom target source op) m
  · intro target element op m _ _
    have hsingleton : ∀ i, (modifierSetSet emptyModifierSet element).byte i = elementByte element i := by
      intro i
      have hbyte := byte_operation emptyModifierSet element .set i
      have hempty : emptyModifierSet.byte i = 0 := byte_of_le (Nat.zero_le i)
      rw [hempty, ModifierOperation.onBytes, UInt8.zero_or] at hbyte
      exact hbyte
    rw [modifierSetHas_eq, modifierSetHas_eq, byte_operation, byte_operationFrom, hsingleton]
  · intro elements helements m hm
    rw [modifierSetHas_foldl helements hm, modifierSetHas_empty]
    simp

theorem modifier_sets_are_sets_toggle :
    Modifier.Valid 9 ∧ modifierSetHas (modifierSetOperationFrom ⟨[1]⟩ ⟨[1, 2]⟩ .toggle) 9 =
      (modifierSetHas ⟨[1]⟩ 9 ^^ modifierSetHas ⟨[1, 2]⟩ 9) := by
  have hvalid : Modifier.Valid 9 := ⟨by decide, by decide⟩
  exact ⟨hvalid, modifier_sets_are_sets.1 ⟨[1]⟩ ⟨[1, 2]⟩ .toggle 9 hvalid⟩

/-! ## The set of a `modifiers` node -/

section

variable {Setting : Type} {p : ConfigPlatform Setting} {constants : ConstantRegistry} {m : Modifier}

theorem collectModifier_members {start result : ModifierSet} {setting : Option Setting}
    (h : collectModifier p constants start setting = .ok result) (hm : m.Valid) :
    modifierSetHas result m = true ↔ modifierSetHas start m = true ∨
      ∃ mod, resolveConstantOr p (some constants) setting (-1) = .ok mod ∧ mod.toInt = m := by
  obtain ⟨mod, hmod, hrest⟩ := (bind_eq_ok_iff _ _ _).mp h
  have honly : (∃ mod, resolveConstantOr p (some constants) setting (-1) = .ok mod ∧ mod.toInt = m) ↔
      mod.toInt = m := by
    rw [hmod]
    simp
  rw [honly]
  split at hrest
  · -- The value is no modifier, so it is not `m`.
    rename_i hinvalid
    cases hrest
    have hne : mod.toInt ≠ m := by
      rintro rfl
      rcases hinvalid with hneg | hlarge
      · exact absurd hm.1 (not_le.mpr hneg)
      · exact absurd hm.2 (not_le.mpr hlarge)
    simp [hne]
  · rename_i hvalid
    cases hrest
    rw [not_or] at hvalid
    rw [modifierSetHas_set ⟨not_lt.mp hvalid.1, not_lt.mp hvalid.2⟩ hm, Bool.or_eq_true,
      decide_eq_true_iff, eq_comm (a := m)]

/-- A new node has the modifiers among the values that the elements of its option resolve to. -/
theorem collectModifiers_members {modifiersSetting : Setting} {result : ModifierSet}
    (h : collectModifiers p constants modifiersSetting = .ok result) (hm : m.Valid) :
    modifierSetHas result m = true ↔ ∃ setting ∈ p.library.elems modifiersSetting,
      ∃ mod, resolveConstantOr p (some constants) setting (-1) = .ok mod ∧ mod.toInt = m := by
  have hfold : ∀ (settings : List (Option Setting)) (start : ModifierSet),
      settings.foldlM (collectModifier p constants) start = .ok result →
      (modifierSetHas result m = true ↔ modifierSetHas start m = true ∨ ∃ setting ∈ settings,
        ∃ mod, resolveConstantOr p (some constants) setting (-1) = .ok mod ∧ mod.toInt = m) := by
    intro settings
    induction settings with
    | nil =>
        intro start hrun
        cases hrun
        simp
    | cons setting settings ih =>
        intro start hrun
        rw [List.foldlM_cons] at hrun
        obtain ⟨next, hfirst, hrest⟩ := (bind_eq_ok_iff _ _ _).mp hrun
        rw [ih next hrest, collectModifier_members hfirst hm, List.exists_mem_cons_iff, or_assoc]
  rw [hfold _ _ h, modifierSetHas_empty]
  simp

end

end EventSeq
