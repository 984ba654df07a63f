import EventSeq.Fault

/-!
# The hash table (`hash_table.h`, `hash_table.c`)

Open addressing with linear probing.  The table is generic in the type `κ` of the key bytes (byte
strings for the configuration registries, pointers for the event sets) and in the type `ν` of the
values, whose default is the all-zero value `calloc` and `memset` write.  Allocations succeed.

Each array access fails outside the bounds, each remainder by a zero capacity fails, and insertion,
which may rebuild the table through nested insertions, fails when it nests deeper than `depth`.
-/

namespace EventSeq

structure HashTableKey (κ : Type) where
  bytes : Option κ
  preHash : UInt64
deriving DecidableEq, Repr

structure HashTableKeyEntry (κ : Type) where
  key : HashTableKey κ
  maxCollisionOffset : Nat
deriving DecidableEq, Repr

structure HashFamilyMember where
  a : UInt64
  b : UInt64
deriving DecidableEq, Repr

structure HashTable (κ ν : Type) where
  valueArray : List ν
  capacity : Nat
  length : Nat
  keyArray : List (HashTableKeyEntry κ)
  familyMember : HashFamilyMember
deriving DecidableEq, Repr

def fnvOffsetBasis : UInt64 := 0xCBF29CE484222325

def fnvPrime : UInt64 := 0x00000100000001B3

def fnv1a (bytes : List UInt8) : UInt64 :=
  bytes.foldl (fun hash b => (hash ^^^ b.toUInt64) * fnvPrime) fnvOffsetBasis

variable {κ ν : Type}

def nullKey : HashTableKey κ := ⟨none, 0⟩

/-- `hash_table_key_from_bytes`, with the pre-hash function as a parameter. -/
def hashTableKeyFromBytes (preHash : κ → UInt64) (bytes : Option κ) : HashTableKey κ :=
  match bytes with
  | none => nullKey
  | some k => ⟨some k, preHash k⟩

def familyPrime : UInt64 := 0x1FFFFFFFFFFFFFFF

def familyMap (member : HashFamilyMember) (preHash : UInt64) : UInt64 :=
  let a := if member.a = 0 then member.a + 1 else member.a
  (preHash * a + member.b) % familyPrime

def hashTableKeyEquals [DecidableEq κ] (lhs rhs : HashTableKey κ) : Bool :=
  lhs.preHash == rhs.preHash && lhs.bytes == rhs.bytes

def initialPosition (key : HashTableKey κ) (ht : HashTable κ ν) : Except Fault Nat :=
  if ht.capacity = 0 then .error .divisionByZero
  else .ok ((familyMap ht.familyMember key.preHash).toNat % ht.capacity)

def probeNext (currentIndex modulo : Nat) : Nat := (currentIndex + 1) % modulo

def createTable [Inhabited ν] (capacity : Nat) (familyMember : HashFamilyMember) : HashTable κ ν where
  valueArray := List.replicate capacity default
  capacity := capacity
  length := 0
  keyArray := List.replicate capacity ⟨nullKey, 0⟩
  familyMember := familyMember

def HashTable.entry (ht : HashTable κ ν) (i : Nat) : Except Fault (HashTableKeyEntry κ) :=
  match ht.keyArray[i]? with
  | none => .error .outOfRange
  | some e => .ok e

def HashTable.value (ht : HashTable κ ν) (i : Nat) : Except Fault ν :=
  match ht.valueArray[i]? with
  | none => .error .outOfRange
  | some v => .ok v

/-- A write to `value_array`. -/
def HashTable.setValue (ht : HashTable κ ν) (i : Nat) (v : ν) : Except Fault (List ν) :=
  if i < ht.valueArray.length then .ok (ht.valueArray.set i v) else .error .outOfRange

/-- Both arrays up to the capacity, as the copying loops read them. -/
def HashTable.slots (ht : HashTable κ ν) : Except Fault (List (HashTableKeyEntry κ × ν)) :=
  (List.range ht.capacity).mapM fun i => do .ok (← ht.entry i, ← ht.value i)

/-! ## Find and delete -/

def findProbe [DecidableEq κ] (ht : HashTable κ ν) (key : HashTableKey κ) :
    Nat → Nat → Except Fault Int
  | 0, _ => .ok (-1)
  | remaining + 1, currentIndex => do
      let entry ← ht.entry currentIndex
      if hashTableKeyEquals key entry.key then .ok currentIndex
      -- An empty slot does not end the search: a deletion may have left it.
      else findProbe ht key remaining (probeNext currentIndex ht.capacity)

def hashTableFindImpl [DecidableEq κ] (ht : HashTable κ ν) (key : HashTableKey κ) :
    Except Fault Int :=
  match key.bytes with
  | none => .ok (-1)
  | some _ => do
      let baseIndex ← initialPosition key ht
      let base ← ht.entry baseIndex
      findProbe ht key (base.maxCollisionOffset + 1) baseIndex

/-- The writes of a deletion at an occupied slot. -/
def HashTable.clearSlot [Inhabited ν] (ht : HashTable κ ν) (index : Nat) : HashTable κ ν :=
  { ht with
    keyArray := ht.keyArray.modify index fun entry => { entry with key := nullKey }
    length := ht.length - 1
    valueArray := ht.valueArray.set index default }

def hashTableDeleteAtIndexImpl [Inhabited ν] (ht : HashTable κ ν) (index : Int) :
    Except Fault (Bool × HashTable κ ν) :=
  -- The bound lets the index behind the last slot through.
  if index < 0 ∨ index.toNat > ht.capacity then .ok (false, ht)
  else do
    let entry ← ht.entry index.toNat
    match entry.key.bytes with
    | none => .ok (false, ht)
    | some _ => do
        -- The value is overwritten with zeros.
        let _ ← ht.setValue index.toNat default
        .ok (true, ht.clearSlot index.toNat)

def hashTableDeleteByKeyImpl [DecidableEq κ] [Inhabited ν] (ht : HashTable κ ν)
    (key : HashTableKey κ) : Except Fault (Bool × HashTable κ ν) := do
  hashTableDeleteAtIndexImpl ht (← hashTableFindImpl ht key)

/-! ## Insert, grow and change of the hash function -/

/-- Where the probing loop of an insertion ends. -/
structure ProbeResult where
  currentIndex : Nat
  collisionOffset : Nat
  overwrite : Bool
  preHashCollision : Bool
deriving DecidableEq, Repr

def insertProbe [DecidableEq κ] (ht : HashTable κ ν) (key : HashTableKey κ) :
    Nat → Nat → Nat → Bool → Except Fault (Option ProbeResult)
  | 0, _, _, _ => .ok none
  | remaining + 1, currentIndex, collisionOffset, preHashCollision => do
      let entry ← ht.entry currentIndex
      -- A slot that a deletion has emptied ends the search too, be the key behind it or not.
      if entry.key.bytes.isNone then
        .ok (some ⟨currentIndex, collisionOffset, false, preHashCollision⟩)
      else if hashTableKeyEquals key entry.key then
        .ok (some ⟨currentIndex, collisionOffset, true, preHashCollision⟩)
      else
        insertProbe ht key remaining (probeNext currentIndex ht.capacity) (collisionOffset + 1)
          (preHashCollision || key.preHash == entry.key.preHash)

/-- The writes of an insertion, after the probing loop has found a slot. -/
def insertAt (ht : HashTable κ ν) (key : HashTableKey κ) (value : ν) (baseIndex length : Nat)
    (r : ProbeResult) : Except Fault (HashTable κ ν) := do
  let base ← ht.entry baseIndex
  let keyArray :=
    if base.maxCollisionOffset < r.collisionOffset then
      ht.keyArray.set baseIndex { base with maxCollisionOffset := r.collisionOffset }
    else ht.keyArray
  let keyArray :=
    if r.overwrite then keyArray
    else keyArray.modify r.currentIndex fun entry => { entry with key := key }
  let valueArray ← ht.setValue r.currentIndex value
  .ok
    { ht with
      keyArray := keyArray
      valueArray := valueArray
      -- The length grows also when the slot is overwritten.
      length := length + 1 }

abbrev InsertFunction (κ ν : Type) :=
  HashTable κ ν → HashTableKey κ → ν → Nat → Except Fault (Int × HashTable κ ν × Nat)

/-- The copying loop of `hash_table_grow` and `hash_table_change_hash`; `none` when an insertion
into the new table fails. -/
def copyEntries (insert : InsertFunction κ ν) :
    List (HashTableKeyEntry κ × ν) → HashTable κ ν → Nat →
      Except Fault (Option (HashTable κ ν) × Nat)
  | [], newHt, draws => .ok (some newHt, draws)
  | (entry, value) :: rest, newHt, draws =>
      match entry.key.bytes with
      | none => copyEntries insert rest newHt draws
      | some _ => do
          let (i, newHt, draws) ← insert newHt entry.key value draws
          if i < 0 then .ok (none, draws) else copyEntries insert rest newHt draws

/-- Both rebuilding functions: a new table of the given capacity and hash function takes the
entries of the old one, which is kept when that fails. -/
def rebuildTable [Inhabited ν] (insert : InsertFunction κ ν) (oldHt : HashTable κ ν)
    (capacity : Nat) (familyMember : HashFamilyMember) (draws : Nat) :
    Except Fault (HashTable κ ν × Nat) := do
  let slots ← oldHt.slots
  let (newHt, draws) ← copyEntries insert slots (createTable capacity familyMember) draws
  .ok (newHt.getD oldHt, draws)

def hashTableGrow [Inhabited ν] (insert : InsertFunction κ ν) (oldHt : HashTable κ ν) (draws : Nat) :
    Except Fault (HashTable κ ν × Nat) :=
  rebuildTable insert oldHt (oldHt.capacity + (oldHt.capacity / 2 + 1)) oldHt.familyMember draws

/-- `members` is the stream `family_random_member` draws from and `draws` how many were drawn. -/
def hashTableChangeHash [Inhabited ν] (members : Nat → HashFamilyMember) (insert : InsertFunction κ ν)
    (oldHt : HashTable κ ν) (draws : Nat) : Except Fault (HashTable κ ν × Nat) :=
  rebuildTable insert oldHt oldHt.capacity (members draws) (draws + 1)

/-- An insertion into this table grows it first. -/
def HashTable.GrowsOnInsert (ht : HashTable κ ν) : Prop :=
  ht.length + ht.length / 2 ≥ ht.capacity

instance (ht : HashTable κ ν) : Decidable ht.GrowsOnInsert := inferInstanceAs (Decidable (_ ≥ _))

/-- `hash_table_insert_impl` after the growth; `length` was read before it. -/
def insertGrown [DecidableEq κ] [Inhabited ν] (members : Nat → HashFamilyMember)
    (insert : InsertFunction κ ν) (length : Nat) : InsertFunction κ ν :=
  fun ht key value draws => do
    let capacity := ht.capacity
    if length ≥ capacity then .ok (-1, ht, draws)
    else do
      let baseIndex ← initialPosition key ht
      match ← insertProbe ht key capacity baseIndex 0 false with
      | none => .ok (-1, ht, draws)
      | some r => do
          let ht ← insertAt ht key value baseIndex length r
          let (ht, draws) ←
            -- No other function would part keys of one pre-hash.
            if !r.preHashCollision && decide (2 * r.collisionOffset > capacity + 6) then
              hashTableChangeHash members insert ht draws
            else .ok (ht, draws)
          .ok (r.currentIndex, ht, draws)

def hashTableInsertImpl [DecidableEq κ] [Inhabited ν] (members : Nat → HashFamilyMember) :
    Nat → InsertFunction κ ν
  | 0, _, _, _, _ => .error .diverges
  | depth + 1, ht, key, value, draws =>
      match key.bytes with
      | none => .ok (-1, ht, draws)
      | some _ => do
          -- The length is read here, the capacity behind the growth.
          let length := ht.length
          let (ht, draws) ←
            if ht.GrowsOnInsert then hashTableGrow (hashTableInsertImpl members depth) ht draws
            else .ok (ht, draws)
          insertGrown members (hashTableInsertImpl members depth) length ht key value draws

def hashTableInitImpl [Inhabited ν] (members : Nat → HashFamilyMember) (draws : Nat) :
    HashTable κ ν × Nat :=
  (createTable 5 (members draws), draws + 1)

end EventSeq
