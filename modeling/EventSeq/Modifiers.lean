import EventSeq.Time

/-!
# Modifier sets (`modifiers.h`)

A modifier set is its byte array; `byte_length` is the length of the list.  The loops over two
arrays stop at the shorter one after `modifier_set_extend` has padded the target with zero bytes.
Allocations succeed.
-/

namespace EventSeq

abbrev Modifier := Int

structure ModifierSet where
  bits : List UInt8
deriving DecidableEq, Repr, Inhabited

def ModifierSet.byteLength (s : ModifierSet) : Nat := s.bits.length

def emptyModifierSet : ModifierSet := ⟨[]⟩

def modifierMax : Modifier := 0xFFFFF

inductive ModifierOperation where
  | set
  | unset
  | toggle
deriving DecidableEq, Repr

def modifierSetExtend (old : ModifierSet) (newByteLength : Nat) : ModifierSet :=
  if newByteLength > old.byteLength then
    ⟨old.bits ++ List.replicate (newByteLength - old.byteLength) 0⟩
  else old

/-- The shared loop of the three `_from` operations: combine byte by byte, leave the rest. -/
def modifierBytesFrom (op : UInt8 → UInt8 → UInt8) : List UInt8 → List UInt8 → List UInt8
  | [], _ => []
  | target, [] => target
  | t :: target, s :: source => op t s :: modifierBytesFrom op target source

def modifierSetSetFrom (target source : ModifierSet) : ModifierSet :=
  ⟨modifierBytesFrom (fun t s => t ||| s) (modifierSetExtend target source.byteLength).bits
    source.bits⟩

def modifierSetUnsetFrom (target source : ModifierSet) : ModifierSet :=
  ⟨modifierBytesFrom (fun t s => t &&& ~~~s) target.bits source.bits⟩

def modifierSetToggleFrom (target source : ModifierSet) : ModifierSet :=
  ⟨modifierBytesFrom (fun t s => t ^^^ s) (modifierSetExtend target source.byteLength).bits
    source.bits⟩

def modifierSetOperationFrom (target source : ModifierSet) : ModifierOperation → ModifierSet
  | .set => modifierSetSetFrom target source
  | .unset => modifierSetUnsetFrom target source
  | .toggle => modifierSetToggleFrom target source

/-- `byte_index`, which is converted to a `size_t`, and `mask`. -/
def modifierIndexAndMask (modifier : Modifier) : Nat × UInt8 :=
  (((modifier >>> (3 : Nat)) % 2 ^ 64).toNat, 1 <<< UInt8.ofNat (modifier % 8).toNat)

def modifierSetHas (collection : ModifierSet) (element : Modifier) : Bool :=
  let (byteIndex, mask) := modifierIndexAndMask element
  match collection.bits[byteIndex]? with
  | none => false
  | some byte => byte &&& mask != 0

/-! ## Single modifiers -/

def modifierSetSet (target : ModifierSet) (element : Modifier) : ModifierSet :=
  let (byteIndex, mask) := modifierIndexAndMask element
  ⟨(modifierSetExtend target (byteIndex + 1)).bits.modify byteIndex fun byte => byte ||| mask⟩

def modifierSetUnset (target : ModifierSet) (element : Modifier) : ModifierSet :=
  let (byteIndex, mask) := modifierIndexAndMask element
  if byteIndex ≥ target.byteLength then target
  else ⟨target.bits.modify byteIndex fun byte => byte &&& ~~~mask⟩

def modifierSetToggle (target : ModifierSet) (element : Modifier) : ModifierSet :=
  let (byteIndex, mask) := modifierIndexAndMask element
  ⟨(modifierSetExtend target (byteIndex + 1)).bits.modify byteIndex fun byte => byte ^^^ mask⟩

def modifierSetOperation (target : ModifierSet) (element : Modifier) :
    ModifierOperation → ModifierSet
  | .set => modifierSetSet target element
  | .unset => modifierSetUnset target element
  | .toggle => modifierSetToggle target element

end EventSeq
