import EventSeq.HashTable
import EventSeq.Lib.Probing

/-!
# The hash table as a finite map

The invariant of a table that is reached by insertions and deletions, and what each operation does
to the map the table represents.  An insertion is only right when no hole left by a deletion lies
before the slot of its key: the probing loop takes the first empty slot it meets.
-/

namespace EventSeq

open Lib

namespace HashTable

variable {κ ν : Type}

def keyAt (ht : HashTable κ ν) (j : Nat) : Option κ :=
  (ht.keyArray[j]?).bind fun entry => entry.key.bytes

/-- `max_collision_offset` of the slot `b`. -/
def reach (ht : HashTable κ ν) (b : Nat) : Nat :=
  ((ht.keyArray[b]?).map HashTableKeyEntry.maxCollisionOffset).getD 0

def base (preHash : κ → UInt64) (ht : HashTable κ ν) (k : κ) : Nat :=
  (familyMap ht.familyMember (preHash k)).toNat % ht.capacity

/-- The slot the probe for `k` visits after `o` steps. -/
def path (preHash : κ → UInt64) (ht : HashTable κ ν) (k : κ) (o : Nat) : Nat :=
  probe ht.capacity (ht.base preHash k) o

def occupied (ht : HashTable κ ν) : Finset Nat :=
  (Finset.range ht.capacity).filter fun j => (ht.keyAt j).isSome

/-- The arrays have the size the capacity says, and the keys their pre-hashes. -/
structure Shaped (preHash : κ → UInt64) (ht : HashTable κ ν) : Prop where
  keys_length : ht.keyArray.length = ht.capacity
  values_length : ht.valueArray.length = ht.capacity
  preHash_eq : ∀ entry ∈ ht.keyArray, ∀ k, entry.key.bytes = some k → entry.key.preHash = preHash k

/-- What holds of any table: the sizes of the arrays, the pre-hashes, and an empty slot. -/
structure Layout (preHash : κ → UInt64) (ht : HashTable κ ν) : Prop
    extends shaped : Shaped preHash ht where
  capacity_ge : 5 ≤ ht.capacity
  occupied_lt : ht.occupied.card < ht.capacity

structure WellFormed (preHash : κ → UInt64) (ht : HashTable κ ν) : Prop
    extends shaped : Shaped preHash ht where
  capacity_ge : 5 ≤ ht.capacity
  distinct : ∀ i j k, ht.keyAt i = some k → ht.keyAt j = some k → i = j
  covered : ∀ j k, ht.keyAt j = some k →
    ∃ o ≤ ht.reach (ht.base preHash k), j = ht.path preHash k o
  occupied_le : ht.occupied.card ≤ ht.length
  length_lt : ht.length < ht.capacity

/-- The table holds exactly the pairs of the map. -/
def Represents (ht : HashTable κ ν) (m : κ → Option ν) : Prop :=
  ∀ k v, m k = some v ↔ ∃ j, ht.keyAt j = some k ∧ ht.valueArray[j]? = some v

/-- The probe for `k` meets no empty slot before a slot that holds `k`. -/
def NoHoleBefore (preHash : κ → UInt64) (ht : HashTable κ ν) (k : κ) : Prop :=
  ∀ o < ht.capacity, ht.keyAt (ht.path preHash k o) = some k →
    ∀ o' < o, ht.keyAt (ht.path preHash k o') ≠ none

instance [DecidableEq κ] (preHash : κ → UInt64) (ht : HashTable κ ν) (k : κ) :
    Decidable (ht.NoHoleBefore preHash k) :=
  inferInstanceAs (Decidable (∀ o < _, _ → ∀ o' < o, _))

/-- No probe for any key meets a hole, as in a table from which nothing was deleted. -/
def Compact (preHash : κ → UInt64) (ht : HashTable κ ν) : Prop := ∀ k, ht.NoHoleBefore preHash k

section

variable {preHash : κ → UInt64} {ht : HashTable κ ν} {m : κ → Option ν} {k : κ} {v : ν}

theorem entry_eq_ok_iff {i : Nat} {e : HashTableKeyEntry κ} :
    ht.entry i = .ok e ↔ ht.keyArray[i]? = some e := by
  rw [entry]
  cases ht.keyArray[i]? <;> simp

theorem value_eq_ok_iff {i : Nat} : ht.value i = .ok v ↔ ht.valueArray[i]? = some v := by
  rw [value]
  cases ht.valueArray[i]? <;> simp

theorem setValue_eq_ok {i : Nat} (hi : i < ht.valueArray.length) (v : ν) :
    ht.setValue i v = .ok (ht.valueArray.set i v) :=
  if_pos hi

theorem keyAt_lt (hlen : ht.keyArray.length = ht.capacity) {j : Nat} (h : ht.keyAt j = some k) :
    j < ht.capacity := by
  rw [keyAt, Option.bind_eq_some_iff] at h
  obtain ⟨e, he, -⟩ := h
  exact hlen ▸ (List.getElem?_eq_some_iff.mp he).1

theorem WellFormed.layout (wf : ht.WellFormed preHash) : ht.Layout preHash where
  shaped := wf.shaped
  capacity_ge := wf.capacity_ge
  occupied_lt := lt_of_le_of_lt wf.occupied_le wf.length_lt

theorem base_lt (preHash : κ → UInt64) (hpos : 0 < ht.capacity) (k : κ) : ht.base preHash k < ht.capacity :=
  Nat.mod_lt _ hpos

theorem path_lt (preHash : κ → UInt64) (hpos : 0 < ht.capacity) (k : κ) (o : Nat) :
    ht.path preHash k o < ht.capacity :=
  probe_lt hpos

theorem Layout.capacity_pos (lay : ht.Layout preHash) : 0 < ht.capacity := by
  have := lay.capacity_ge
  omega

theorem Layout.base_lt (lay : ht.Layout preHash) (k : κ) : ht.base preHash k < ht.capacity :=
  HashTable.base_lt preHash lay.capacity_pos k

theorem Layout.path_lt (lay : ht.Layout preHash) (k : κ) (o : Nat) :
    ht.path preHash k o < ht.capacity :=
  HashTable.path_lt preHash lay.capacity_pos k o

theorem Shaped.entry_ok (sh : ht.Shaped preHash) {j : Nat} (hj : j < ht.capacity) :
    ∃ e ∈ ht.keyArray, ht.entry j = .ok e ∧ e.key.bytes = ht.keyAt j ∧
      e.maxCollisionOffset = ht.reach j := by
  have hlt : j < ht.keyArray.length := sh.keys_length ▸ hj
  refine ⟨ht.keyArray[j], List.getElem_mem hlt, ?_, ?_, ?_⟩
  · rw [entry_eq_ok_iff, List.getElem?_eq_getElem hlt]
  · rw [keyAt, List.getElem?_eq_getElem hlt, Option.bind_some]
  · rw [reach, List.getElem?_eq_getElem hlt, Option.map_some, Option.getD_some]

theorem Shaped.mem_occupied (sh : ht.Shaped preHash) {j : Nat} (hj : ht.keyAt j = some k) :
    j ∈ ht.occupied := by
  simp [occupied, hj, keyAt_lt sh.keys_length hj]

theorem Represents.isSome_iff (sh : ht.Shaped preHash) (hr : ht.Represents m) :
    (m k).isSome ↔ ∃ j, ht.keyAt j = some k := by
  rw [Option.isSome_iff_exists]
  constructor
  · rintro ⟨v, hv⟩
    obtain ⟨j, hj, -⟩ := (hr k v).mp hv
    exact ⟨j, hj⟩
  · rintro ⟨j, hj⟩
    have hlt : j < ht.valueArray.length := sh.values_length ▸ keyAt_lt sh.keys_length hj
    exact ⟨ht.valueArray[j], (hr k _).mpr ⟨j, hj, List.getElem?_eq_getElem hlt⟩⟩

theorem Represents.eq_none_iff (sh : ht.Shaped preHash) (hr : ht.Represents m) :
    m k = none ↔ ∀ j, ht.keyAt j ≠ some k := by
  rw [← Option.not_isSome_iff_eq_none, hr.isSome_iff sh, not_exists]

theorem Represents.keyAt_ne (sh : ht.Shaped preHash) (hr : ht.Represents m) (hk : m k = none) :
    ∀ j, ht.keyAt j ≠ some k :=
  (hr.eq_none_iff sh).mp hk

theorem Represents.noHoleBefore_of_none (sh : ht.Shaped preHash) (hr : ht.Represents m)
    (hk : m k = none) : ht.NoHoleBefore preHash k :=
  fun _ _ ho => absurd ho (hr.keyAt_ne sh hk _)

/-- The probe of any key reaches an empty slot, when there is one. -/
theorem exists_empty (preHash : κ → UInt64) (hcard : ht.occupied.card < ht.capacity) (k : κ) :
    ∃ o < ht.capacity, ht.keyAt (ht.path preHash k o) = none := by
  have hbase := base_lt preHash (Nat.zero_lt_of_lt hcard) k
  by_contra hfull
  push Not at hfull
  have hall : ht.occupied = Finset.range ht.capacity := by
    apply Finset.filter_true_of_mem
    intro j hj
    obtain ⟨o, ho, rfl⟩ := exists_probe_eq hbase (Finset.mem_range.mp hj)
    exact Option.isSome_iff_ne_none.mpr (hfull o ho)
  rw [hall, Finset.card_range] at hcard
  exact lt_irrefl _ hcard

theorem keyAt_injOn (hdistinct : ∀ i j k, ht.keyAt i = some k → ht.keyAt j = some k → i = j) :
    Set.InjOn ht.keyAt ht.occupied := by
  intro i hi j _ hij
  obtain ⟨k, hk⟩ := Option.isSome_iff_exists.mp (Finset.mem_filter.mp hi).2
  exact hdistinct i j k hk (hij ▸ hk)

/-- Tables that represent the same map have equally many occupied slots. -/
theorem occupied_card_le_of_represents {ht' : HashTable κ ν} (sh : ht.Shaped preHash)
    (sh' : ht'.Shaped preHash)
    (hdistinct' : ∀ i j k, ht'.keyAt i = some k → ht'.keyAt j = some k → i = j)
    (hr : ht.Represents m) (hr' : ht'.Represents m) : ht'.occupied.card ≤ ht.occupied.card := by
  classical
  have hsub : ht'.occupied.image ht'.keyAt ⊆ ht.occupied.image ht.keyAt := by
    intro x hx
    obtain ⟨j, hj, rfl⟩ := Finset.mem_image.mp hx
    obtain ⟨k, hk⟩ := Option.isSome_iff_exists.mp (Finset.mem_filter.mp hj).2
    obtain ⟨i, hi⟩ := (hr.isSome_iff sh).mp ((hr'.isSome_iff sh').mpr ⟨j, hk⟩)
    exact Finset.mem_image.mpr ⟨i, sh.mem_occupied hi, hi.trans hk.symm⟩
  calc ht'.occupied.card = (ht'.occupied.image ht'.keyAt).card :=
        (Finset.card_image_of_injOn (keyAt_injOn hdistinct')).symm
    _ ≤ (ht.occupied.image ht.keyAt).card := Finset.card_le_card hsub
    _ ≤ ht.occupied.card := Finset.card_image_le

theorem keyAt_createTable [Inhabited ν] (capacity : Nat) (member : HashFamilyMember) (j : Nat) :
    (createTable capacity member : HashTable κ ν).keyAt j = none := by
  simp only [createTable, keyAt, Option.bind_eq_none_iff]
  intro e he
  rw [List.eq_of_mem_replicate (List.mem_of_getElem? he)]
  rfl

theorem occupied_createTable [Inhabited ν] (capacity : Nat) (member : HashFamilyMember) :
    (createTable capacity member : HashTable κ ν).occupied = ∅ := by
  simp [occupied, keyAt_createTable]

theorem createTable_shaped [Inhabited ν] (capacity : Nat) (member : HashFamilyMember) :
    (createTable capacity member : HashTable κ ν).Shaped preHash := by
  refine ⟨by simp [createTable], by simp [createTable], ?_⟩
  intro entry hentry k hk
  rw [List.eq_of_mem_replicate hentry] at hk
  cases hk

theorem createTable_wellFormed [Inhabited ν] {capacity : Nat} (hcap : 5 ≤ capacity)
    (member : HashFamilyMember) :
    (createTable capacity member : HashTable κ ν).WellFormed preHash := by
  refine ⟨createTable_shaped capacity member, hcap, ?_, ?_, ?_, ?_⟩
  · intro i j k hi
    rw [keyAt_createTable] at hi
    cases hi
  · intro j k hj
    rw [keyAt_createTable] at hj
    cases hj
  · rw [occupied_createTable, Finset.card_empty]
    exact Nat.zero_le _
  · exact Nat.lt_of_lt_of_le (by decide : 0 < 5) hcap

theorem createTable_represents [Inhabited ν] (capacity : Nat) (member : HashFamilyMember) :
    (createTable capacity member : HashTable κ ν).Represents fun _ => none := by
  intro k v
  simp only [reduceCtorEq, false_iff, not_exists, not_and]
  intro j hj
  rw [keyAt_createTable] at hj
  cases hj

/-- The copying loops read both arrays within their bounds. -/
theorem Shaped.slots_ok (sh : ht.Shaped preHash) :
    ht.slots = .ok (ht.keyArray.zip ht.valueArray) := by
  have hzip : (ht.keyArray.zip ht.valueArray).length = ht.capacity := by
    rw [List.length_zip, sh.keys_length, sh.values_length, Nat.min_self]
  have hslot : ∀ i (hi : i < (ht.keyArray.zip ht.valueArray).length),
      (do .ok (← ht.entry i, ← ht.value i)) = (.ok (ht.keyArray.zip ht.valueArray)[i] : Except Fault _) := by
    intro i hi
    obtain ⟨hentry, hvalue⟩ := List.getElem?_zip_eq_some.mp (List.getElem?_eq_getElem hi)
    simp only [entry_eq_ok_iff.mpr hentry, value_eq_ok_iff.mpr hvalue, bind, Except.bind]
  rw [slots, ← hzip]
  exact mapM_range_eq hslot

/-- The entries a rebuilding function copies are those of the slots. -/
theorem Shaped.entry_of_mem_zip (sh : ht.Shaped preHash) {p : HashTableKeyEntry κ × ν}
    (hp : p ∈ ht.keyArray.zip ht.valueArray) (hk : p.1.key.bytes = some k) :
    p.1.key.preHash = preHash k ∧ ∃ j, ht.keyAt j = some k ∧ ht.valueArray[j]? = some p.2 := by
  obtain ⟨j, hj⟩ := List.mem_iff_getElem?.mp hp
  obtain ⟨hentry, hvalue⟩ := List.getElem?_zip_eq_some.mp hj
  refine ⟨sh.preHash_eq _ (List.mem_of_getElem? hentry) k hk, j, ?_, hvalue⟩
  rw [keyAt, hentry, Option.bind_some]
  exact hk

theorem zip_distinct (hdistinct : ∀ i j k, ht.keyAt i = some k → ht.keyAt j = some k → i = j) :
    (ht.keyArray.zip ht.valueArray).Pairwise
      fun p q => ∀ k, p.1.key.bytes = some k → q.1.key.bytes ≠ some k := by
  rw [List.pairwise_iff_getElem]
  intro a b ha hb hab k hka hkb
  have hkeyAt : ∀ {j : Nat} (hj : j < (ht.keyArray.zip ht.valueArray).length),
      ht.keyAt j = (ht.keyArray.zip ht.valueArray)[j].1.key.bytes := by
    intro j hj
    rw [keyAt, (List.getElem?_zip_eq_some.mp (List.getElem?_eq_getElem hj)).1, Option.bind_some]
  exact absurd (hdistinct a b k ((hkeyAt ha).trans hka) ((hkeyAt hb).trans hkb))
    (Nat.ne_of_lt hab)

/-! ## Find and delete -/

theorem initialPosition_ok (hpos : 0 < ht.capacity) (k : κ) :
    initialPosition ⟨some k, preHash k⟩ ht = .ok (ht.base preHash k) :=
  if_neg (Nat.pos_iff_ne_zero.mp hpos)

theorem path_succ (o : Nat) :
    ht.path preHash k (o + 1) = probeNext (ht.path preHash k o) ht.capacity :=
  probe_succ

theorem keyAt_clearSlot [Inhabited ν] (i j : Nat) :
    (ht.clearSlot j).keyAt i = if i = j then none else ht.keyAt i := by
  simp only [keyAt, clearSlot, List.getElem?_modify]
  by_cases hij : i = j
  · subst hij
    cases ht.keyArray[i]? <;> simp [nullKey]
  · simp [hij, Ne.symm hij]

theorem reach_clearSlot [Inhabited ν] (i j : Nat) : (ht.clearSlot j).reach i = ht.reach i := by
  simp only [reach, clearSlot, List.getElem?_modify]
  cases ht.keyArray[i]? with
  | none => rfl
  | some e => by_cases hij : j = i <;> simp [hij]

theorem occupied_clearSlot [Inhabited ν] (j : Nat) :
    (ht.clearSlot j).occupied = ht.occupied.erase j := by
  ext i
  simp only [occupied, Finset.mem_filter, Finset.mem_erase, keyAt_clearSlot]
  by_cases hij : i = j <;> simp [hij, clearSlot]

theorem clearSlot_shaped [Inhabited ν] (sh : ht.Shaped preHash) (j : Nat) :
    (ht.clearSlot j).Shaped preHash := by
  refine ⟨by simpa [clearSlot] using sh.keys_length,
    by simpa [clearSlot] using sh.values_length, ?_⟩
  intro entry hentry k' hk'
  obtain ⟨i, hi⟩ := List.mem_iff_getElem?.mp hentry
  simp only [clearSlot, List.getElem?_modify] at hi
  cases he : ht.keyArray[i]? with
  | none =>
      rw [he] at hi
      cases hi
  | some e =>
      rw [he] at hi
      by_cases hij : j = i
      · simp only [hij, if_true] at hi
        cases hi
        cases hk'
      · simp only [hij, if_false] at hi
        cases hi
        exact sh.preHash_eq _ (List.mem_of_getElem? he) k' hk'

theorem clearSlot_layout [Inhabited ν] (lay : ht.Layout preHash) (j : Nat) :
    (ht.clearSlot j).Layout preHash := by
  refine ⟨clearSlot_shaped lay.shaped j, lay.capacity_ge, ?_⟩
  rw [occupied_clearSlot]
  exact lt_of_le_of_lt (Finset.card_erase_le) lay.occupied_lt

theorem clearSlot_wellFormed [Inhabited ν] (wf : ht.WellFormed preHash) {j : Nat}
    (hj : ht.keyAt j = some k) : (ht.clearSlot j).WellFormed preHash := by
  have hkeep : ∀ {i k'}, (ht.clearSlot j).keyAt i = some k' → ht.keyAt i = some k' := by
    intro i k' hi
    rw [keyAt_clearSlot] at hi
    split at hi
    · cases hi
    · exact hi
  have hpos := Finset.card_pos.mpr ⟨j, wf.shaped.mem_occupied hj⟩
  have hcard := wf.occupied_le
  have hlt := wf.length_lt
  refine ⟨clearSlot_shaped wf.shaped j, wf.capacity_ge, ?_, ?_, ?_, ?_⟩
  · exact fun i i' k' hi hi' => wf.distinct i i' k' (hkeep hi) (hkeep hi')
  · intro i k' hi
    rw [reach_clearSlot]
    exact wf.covered i k' (hkeep hi)
  · rw [occupied_clearSlot, Finset.card_erase_of_mem (wf.shaped.mem_occupied hj)]
    exact Nat.sub_le_sub_right hcard 1
  · simp only [clearSlot]
    omega

section

variable [DecidableEq κ]

theorem keyEquals_iff {preHash : κ → UInt64} {k : κ} {e : HashTableKeyEntry κ}
    (hpre : ∀ k, e.key.bytes = some k → e.key.preHash = preHash k) :
    hashTableKeyEquals ⟨some k, preHash k⟩ e.key = true ↔ e.key.bytes = some k := by
  simp only [hashTableKeyEquals, Bool.and_eq_true, beq_iff_eq]
  constructor
  · exact fun h => h.2.symm
  · exact fun h => ⟨(hpre k h).symm, h.symm⟩

/-- The loop of `hash_table_find_impl` stops at the first slot of the path that holds the key. -/
theorem findProbe_spec (sh : ht.Shaped preHash) (hpos : 0 < ht.capacity) (k : κ)
    (remaining o : Nat) :
    ∃ i, findProbe ht ⟨some k, preHash k⟩ remaining (ht.path preHash k o) = .ok i ∧
      ((∃ j : Nat, i = j ∧ ht.keyAt j = some k) ∨
        i = -1 ∧ ∀ o', o ≤ o' → o' < o + remaining → ht.keyAt (ht.path preHash k o') ≠ some k) := by
  induction remaining generalizing o with
  | zero => exact ⟨-1, rfl, .inr ⟨rfl, fun o' h h' => by omega⟩⟩
  | succ remaining ih =>
      obtain ⟨e, hmem, hentry, hbytes, -⟩ := sh.entry_ok (path_lt preHash hpos k o)
      simp only [findProbe, hentry, bind, Except.bind]
      by_cases heq : hashTableKeyEquals ⟨some k, preHash k⟩ e.key = true
      · rw [if_pos heq]
        rw [keyEquals_iff (sh.preHash_eq e hmem), hbytes] at heq
        exact ⟨_, rfl, .inl ⟨_, rfl, heq⟩⟩
      · rw [if_neg heq, ← path_succ]
        rw [keyEquals_iff (sh.preHash_eq e hmem), hbytes] at heq
        obtain ⟨i, hi, hres⟩ := ih (o + 1)
        refine ⟨i, hi, hres.imp_right fun ⟨hneg, hmiss⟩ => ⟨hneg, fun o' h h' => ?_⟩⟩
        rcases Nat.eq_or_lt_of_le h with rfl | hlt
        · exact heq
        · exact hmiss o' hlt (by omega)

/-- `find` yields the slot of the value the map has for the key, and -1 when it has none. -/
theorem hashTableFindImpl_spec (wf : ht.WellFormed preHash) (hr : ht.Represents m) (k : κ) :
    ∃ i, hashTableFindImpl ht ⟨some k, preHash k⟩ = .ok i ∧
      match m k with
      | none => i = -1
      | some v => ∃ j : Nat, i = j ∧ ht.keyAt j = some k ∧ ht.valueArray[j]? = some v := by
  obtain ⟨e, -, hentry, -, hreach⟩ := wf.shaped.entry_ok (wf.layout.base_lt k)
  obtain ⟨i, hi, hres⟩ := findProbe_spec wf.shaped wf.layout.capacity_pos k (e.maxCollisionOffset + 1) 0
  have hstart : ht.path preHash k 0 = ht.base preHash k := probe_zero (wf.layout.base_lt k)
  refine ⟨i, ?_, ?_⟩
  · simp only [hashTableFindImpl, initialPosition_ok wf.layout.capacity_pos, bind, Except.bind, hentry]
    rw [← hstart]
    exact hi
  · cases hk : m k with
    | none =>
        rcases hres with ⟨j, -, hj⟩ | ⟨hneg, -⟩
        · exact absurd hj (hr.keyAt_ne wf.shaped hk j)
        · exact hneg
    | some v =>
        obtain ⟨j, hj, hv⟩ := (hr k v).mp hk
        rcases hres with ⟨j', rfl, hj'⟩ | ⟨-, hmiss⟩
        · obtain rfl := wf.distinct j j' k hj hj'
          exact ⟨j, rfl, hj, hv⟩
        · obtain ⟨o, ho, rfl⟩ := wf.covered j k hj
          exact absurd hj (hmiss o (Nat.zero_le _) (by omega))

theorem clearSlot_represents [Inhabited ν] (wf : ht.WellFormed preHash) (hr : ht.Represents m)
    {j : Nat} (hj : ht.keyAt j = some k) :
    (ht.clearSlot j).Represents (Function.update m k none) := by
  intro k' v
  by_cases hk : k' = k
  · subst hk
    simp only [Function.update_self, reduceCtorEq, false_iff, not_exists, not_and]
    -- the key was in one slot only, which is empty now
    intro i hi
    rw [keyAt_clearSlot] at hi
    split at hi
    · cases hi
    · rename_i hne
      exact absurd (wf.distinct i j k' hi hj) hne
  · rw [Function.update_of_ne hk, hr k' v]
    -- the slots of other keys are not touched
    have hother : ∀ i, ht.keyAt i = some k' → i ≠ j := by
      rintro i hi rfl
      exact hk (Option.some.inj (hi.symm.trans hj))
    constructor
    · rintro ⟨i, hi, hv⟩
      refine ⟨i, ?_, ?_⟩
      · rw [keyAt_clearSlot, if_neg (hother i hi), hi]
      · simpa [clearSlot, List.getElem?_set, (hother i hi).symm] using hv
    · rintro ⟨i, hi, hv⟩
      rw [keyAt_clearSlot] at hi
      split at hi
      · cases hi
      · rename_i hne
        refine ⟨i, hi, ?_⟩
        simpa [clearSlot, List.getElem?_set, Ne.symm hne] using hv

/-- Deleting a key removes it from the map and leaves every other key alone. -/
theorem hashTableDeleteByKeyImpl_spec [Inhabited ν] (wf : ht.WellFormed preHash)
    (hr : ht.Represents m) (k : κ) :
    ∃ ht', hashTableDeleteByKeyImpl ht ⟨some k, preHash k⟩ = .ok ((m k).isSome, ht') ∧
      ht'.WellFormed preHash ∧ ht'.Represents (Function.update m k none) := by
  obtain ⟨i, hi, hres⟩ := hashTableFindImpl_spec wf hr k
  simp only [hashTableDeleteByKeyImpl, hi, bind, Except.bind]
  cases hk : m k with
  | none =>
      rw [hk] at hres
      subst hres
      refine ⟨ht, rfl, wf, ?_⟩
      rw [← hk, Function.update_eq_self]
      exact hr
  | some v =>
      rw [hk] at hres
      obtain ⟨j, rfl, hj, -⟩ := hres
      have hlt := keyAt_lt wf.keys_length hj
      obtain ⟨e, -, hentry, hbytes, -⟩ := wf.shaped.entry_ok hlt
      have hrange : ¬((j : Int) < 0 ∨ (j : Int).toNat > ht.capacity) := by omega
      have hvalue : j < ht.valueArray.length := wf.values_length ▸ hlt
      refine ⟨ht.clearSlot j, ?_, clearSlot_wellFormed wf hj, clearSlot_represents wf hr hj⟩
      rw [hashTableDeleteAtIndexImpl, if_neg hrange, Int.toNat_natCast, hentry]
      simp only [bind, Except.bind, hbytes, hj, setValue_eq_ok hvalue, Option.isSome_some]

end

/-! ## Writing an entry -/

section

variable {r : ProbeResult} {b length : Nat}

/-- The table `insertAt` makes, slot by slot. -/
structure WrittenAt (preHash : κ → UInt64) (ht ht' : HashTable κ ν) (k : κ) (v : ν) (b j o : Nat) :
    Prop where
  capacity : ht'.capacity = ht.capacity
  familyMember : ht'.familyMember = ht.familyMember
  keys_length : ht'.keyArray.length = ht.keyArray.length
  values_length : ht'.valueArray.length = ht.valueArray.length
  preHash_eq : ∀ entry ∈ ht'.keyArray, ∀ k, entry.key.bytes = some k →
    entry.key.preHash = preHash k
  keyAt : ∀ i, ht'.keyAt i = if i = j then some k else ht.keyAt i
  value : ∀ i, i < ht.capacity → ht'.valueArray[i]? = if i = j then some v else ht.valueArray[i]?
  reach : ∀ i, ht'.reach i = if i = b then max (ht.reach b) o else ht.reach i

/-- The entry `insertAt` leaves in slot `i` where `e` was. -/
def writtenEntry (key : HashTableKey κ) (r : ProbeResult) (b i : Nat) (e : HashTableKeyEntry κ) :
    HashTableKeyEntry κ where
  key := if i = r.currentIndex ∧ r.overwrite = false then key else e.key
  maxCollisionOffset :=
    if i = b then max e.maxCollisionOffset r.collisionOffset else e.maxCollisionOffset

theorem insertAt_ok (key : HashTableKey κ) (v : ν) (hb : b < ht.keyArray.length)
    (hj : r.currentIndex < ht.valueArray.length) :
    ∃ ht', insertAt ht key v b length r = .ok ht' ∧ ht'.capacity = ht.capacity ∧
      ht'.length = length + 1 ∧ ht'.familyMember = ht.familyMember ∧
      ht'.valueArray = ht.valueArray.set r.currentIndex v ∧
      ∀ i : Nat, ht'.keyArray[i]? = (ht.keyArray[i]?).map (writtenEntry key r b i) := by
  have hentry : ht.entry b = .ok ht.keyArray[b] := by
    rw [entry_eq_ok_iff, List.getElem?_eq_getElem hb]
  simp only [insertAt, hentry, setValue_eq_ok hj, bind, Except.bind]
  refine ⟨_, rfl, rfl, rfl, rfl, rfl, fun i => ?_⟩
  -- the base is written first; it may be the slot that is written next
  have hbase : (if ht.keyArray[b].maxCollisionOffset < r.collisionOffset then
      ht.keyArray.set b ⟨ht.keyArray[b].key, r.collisionOffset⟩ else ht.keyArray)[i]? =
      (ht.keyArray[i]?).map fun e => ⟨e.key, (writtenEntry key r b i e).maxCollisionOffset⟩ := by
    by_cases hib : i = b
    · subst hib
      rw [List.getElem?_eq_getElem hb]
      split
      · rename_i hlt
        simp [hb, writtenEntry, max_eq_right hlt.le]
      · rename_i hge
        simp [hb, writtenEntry, max_eq_left (not_lt.mp hge)]
    · split <;> simp [Ne.symm hib, hib, writtenEntry]
  cases hover : r.overwrite with
  | true =>
      -- an overwritten slot keeps its key
      have hwritten : writtenEntry key r b i =
          fun e => ⟨e.key, (writtenEntry key r b i e).maxCollisionOffset⟩ := by
        funext e
        simp [writtenEntry, hover]
      rw [if_pos rfl, hbase, ← hwritten]
  | false =>
      simp only [Bool.false_eq_true, if_false, List.getElem?_modify, hbase]
      cases ht.keyArray[i]? with
      | none => rfl
      | some e => by_cases hij : i = r.currentIndex <;> simp [hij, writtenEntry, hover, eq_comm]

theorem insertAt_writtenAt (sh : ht.Shaped preHash) (hb : b < ht.capacity)
    (hj : r.currentIndex < ht.capacity)
    (hslot : ht.keyAt r.currentIndex = if r.overwrite then some k else none) :
    ∃ ht', insertAt ht ⟨some k, preHash k⟩ v b length r = .ok ht' ∧ ht'.length = length + 1 ∧
      WrittenAt preHash ht ht' k v b r.currentIndex r.collisionOffset := by
  obtain ⟨ht', hrun, hcap, hlen, hfam, hvalues, hkeys⟩ :=
    insertAt_ok ⟨some k, preHash k⟩ v (sh.keys_length ▸ hb) (sh.values_length ▸ hj)
  have hkeys_length : ht'.keyArray.length = ht.keyArray.length := by
    have hnone (i : Nat) : ht'.keyArray.length ≤ i ↔ ht.keyArray.length ≤ i := by
      rw [← List.getElem?_eq_none_iff, ← List.getElem?_eq_none_iff, hkeys, Option.map_eq_none_iff]
    exact Nat.le_antisymm ((hnone _).mpr le_rfl) ((hnone _).mp le_rfl)
  refine ⟨ht', hrun, hlen, hcap, hfam, hkeys_length, by simp [hvalues], ?_, ?_, ?_, ?_⟩
  · -- each key has its pre-hash
    intro entry hentry k' hk'
    obtain ⟨i, hi⟩ := List.mem_iff_getElem?.mp hentry
    rw [hkeys, Option.map_eq_some_iff] at hi
    obtain ⟨e, he, rfl⟩ := hi
    simp only [writtenEntry] at hk' ⊢
    split at hk'
    · rename_i hcond
      rw [if_pos hcond]
      cases hk'
      rfl
    · rename_i hcond
      rw [if_neg hcond]
      exact sh.preHash_eq e (List.mem_of_getElem? he) k' hk'
  · intro i
    -- the key stands in the slot that was found, overwritten or not
    have hlt (i : Nat) (hi : i < ht.capacity) : ∃ e, ht.keyArray[i]? = some e :=
      ⟨_, List.getElem?_eq_getElem (sh.keys_length ▸ hi)⟩
    by_cases hij : i = r.currentIndex
    · subst hij
      obtain ⟨e, he⟩ := hlt _ hj
      rw [if_pos rfl]
      simp only [HashTable.keyAt, hkeys, he, Option.map_some, Option.bind_some] at hslot ⊢
      cases hover : r.overwrite <;> simp [writtenEntry, hover] at hslot ⊢
      exact hslot
    · rw [if_neg hij]
      simp only [HashTable.keyAt, hkeys]
      cases ht.keyArray[i]? <;> simp [writtenEntry, hij]
  · intro i hi
    -- the value stands in that slot
    rw [hvalues, List.getElem?_set]
    by_cases hij : i = r.currentIndex
    · rw [if_pos hij, if_pos hij.symm, if_pos (by rw [sh.values_length]; omega)]
    · rw [if_neg hij, if_neg (Ne.symm hij)]
  · intro i
    -- only the base may reach further than before
    obtain ⟨e, he⟩ : ∃ e, ht.keyArray[b]? = some e :=
      ⟨_, List.getElem?_eq_getElem (sh.keys_length ▸ hb)⟩
    by_cases hib : i = b
    · subst hib
      simp [HashTable.reach, hkeys, he, writtenEntry]
    · simp only [HashTable.reach, hkeys]
      cases ht.keyArray[i]? <;> simp [writtenEntry, hib]

end

end

end HashTable

end EventSeq
