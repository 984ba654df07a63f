import EventSeq.HashTableLength

/-!
# What holds of every table

No operation, in whatever order, puts a key out of the reach of its base: a deletion leaves the
`max_collision_offset` of the slot as it was, an insertion raises that of the base, and a rebuilding
function starts again from zeros.  So a key is found just when a slot holds it, holes or not, and the
probes stay within the arrays.
-/

namespace EventSeq

open Lib

namespace HashTable

variable {κ ν : Type}

/-- How many steps the slot `j` lies behind the base of `k`. -/
def offset (preHash : κ → UInt64) (ht : HashTable κ ν) (k : κ) (j : Nat) : Nat :=
  distance ht.capacity (ht.base preHash k) j

/-- Every key is in the reach of its base. -/
structure Covered (preHash : κ → UInt64) (ht : HashTable κ ν) : Prop where
  shaped : ht.Shaped preHash
  capacity_pos : 0 < ht.capacity
  offset_le : ∀ j k, ht.keyAt j = some k → ht.offset preHash k j ≤ ht.reach (ht.base preHash k)

variable {preHash : κ → UInt64} {ht ht' : HashTable κ ν} {k : κ} {v : ν}

theorem path_offset (hpos : 0 < ht.capacity) {j : Nat} (hj : j < ht.capacity) :
    ht.path preHash k (ht.offset preHash k j) = j :=
  probe_distance (base_lt preHash hpos k) hj

theorem offset_path_le (hpos : 0 < ht.capacity) (o : Nat) :
    ht.offset preHash k (ht.path preHash k o) ≤ o :=
  distance_probe_le (base_lt preHash hpos k)

theorem createTable_covered [Inhabited ν] {capacity : Nat} (hpos : 0 < capacity)
    (member : HashFamilyMember) :
    (createTable capacity member : HashTable κ ν).Covered preHash := by
  refine ⟨createTable_shaped capacity member, hpos, fun j k hj => ?_⟩
  rw [keyAt_createTable] at hj
  cases hj

theorem clearSlot_covered [Inhabited ν] (hc : ht.Covered preHash) (j : Nat) :
    (ht.clearSlot j).Covered preHash := by
  refine ⟨clearSlot_shaped hc.shaped j, hc.capacity_pos, fun i k hi => ?_⟩
  rw [reach_clearSlot]
  rw [keyAt_clearSlot] at hi
  split at hi
  · cases hi
  · exact hc.offset_le i k hi

section

variable {r : ProbeResult}
  (hw : WrittenAt preHash ht ht' k v (ht.base preHash k) r.currentIndex r.collisionOffset)

include hw

theorem WrittenAt.offset_eq (k' : κ) (j : Nat) : ht'.offset preHash k' j = ht.offset preHash k' j := by
  rw [offset, offset, hw.base_eq, hw.capacity]

theorem WrittenAt.covered (hc : ht.Covered preHash) (hs : IsSlotFor preHash ht k r) :
    ht'.Covered preHash := by
  refine ⟨hw.shaped hc.shaped, hw.capacity ▸ hc.capacity_pos, fun i k' hi => ?_⟩
  rw [hw.offset_eq, hw.base_eq]
  rcases hw.keyAt_eq_some hi with ⟨rfl, rfl⟩ | ⟨-, hold⟩
  · -- the base of the key now reaches as far as its probe went
    calc ht.offset preHash k' r.currentIndex
        ≤ r.collisionOffset := hs.index_eq ▸ offset_path_le hc.capacity_pos r.collisionOffset
      _ ≤ ht'.reach (ht.base preHash k') := by
        rw [hw.reach, if_pos rfl]
        exact le_max_right _ _
  · exact le_trans (hc.offset_le i k' hold) (hw.reach_le _)

end

/-! ## Find and delete -/

/-- A find that returns an index has found a slot of the key, and there is none otherwise. -/
theorem Covered.find_ok [DecidableEq κ] (hc : ht.Covered preHash) (k : κ) :
    ∃ i, hashTableFindImpl ht ⟨some k, preHash k⟩ = .ok i ∧
      ((∃ j : Nat, i = j ∧ ht.keyAt j = some k) ∨ i = -1 ∧ ∀ j, ht.keyAt j ≠ some k) := by
  have hpos := hc.capacity_pos
  obtain ⟨e, -, hentry, -, hreach⟩ := hc.shaped.entry_ok (base_lt preHash hpos k)
  obtain ⟨i, hi, hres⟩ := findProbe_spec hc.shaped hpos k (e.maxCollisionOffset + 1) 0
  have hstart : ht.path preHash k 0 = ht.base preHash k := probe_zero (base_lt preHash hpos k)
  rw [hstart] at hi
  refine ⟨i, ?_, hres.imp_right fun ⟨hneg, hmiss⟩ => ⟨hneg, fun j hj => ?_⟩⟩
  · simp only [hashTableFindImpl, initialPosition_ok hpos, hentry, bind, Except.bind, hi]
  · have hreached := hc.offset_le j k hj
    rw [← hreach] at hreached
    have hmissed := hmiss (ht.offset preHash k j) (Nat.zero_le _) (by omega)
    rw [path_offset hpos (keyAt_lt hc.shaped.keys_length hj)] at hmissed
    exact hmissed hj

/-- The result of a deletion at an index: it deletes just what is in a slot of the table. -/
def DeletesSlot (ht : HashTable κ ν) (index : Int) (b : Bool) : Prop :=
  b = true ↔ 0 ≤ index ∧ index < ht.capacity ∧ (ht.keyAt index.toNat).isSome

/-- A deletion makes no fault, unless at the index behind the last slot. -/
theorem Covered.deleteAtIndex_ok [Inhabited ν] (hc : ht.Covered preHash) {index : Int}
    (hindex : index ≠ ht.capacity) :
    ∃ b ht', hashTableDeleteAtIndexImpl ht index = .ok (b, ht') ∧ ht.DeletesSlot index b ∧
      ht'.Covered preHash := by
  by_cases hrange : index < 0 ∨ index.toNat > ht.capacity
  · refine ⟨false, ht, if_pos hrange, ?_, hc⟩
    rw [DeletesSlot]
    simp only [Bool.false_eq_true, false_iff]
    omega
  · have hlt : index.toNat < ht.capacity := by omega
    have hin : 0 ≤ index ∧ index < ht.capacity := by omega
    have hvalue : index.toNat < ht.valueArray.length := hc.shaped.values_length ▸ hlt
    obtain ⟨e, -, hentry, hbytes, -⟩ := hc.shaped.entry_ok hlt
    rw [hashTableDeleteAtIndexImpl, if_neg hrange, hentry]
    simp only [DeletesSlot, ← hbytes, hin, true_and]
    cases hkey : e.key.bytes with
    | none => exact ⟨false, ht, by simp [hkey, bind, Except.bind], by simp, hc⟩
    | some k =>
        exact ⟨true, ht.clearSlot index.toNat,
          by simp [hkey, setValue_eq_ok hvalue, bind, Except.bind], by simp,
          clearSlot_covered hc _⟩

/-- At that index it reads behind the end of the array. -/
theorem Shaped.deleteAtIndex_capacity [Inhabited ν] (sh : ht.Shaped preHash) :
    hashTableDeleteAtIndexImpl ht ht.capacity = .error .outOfRange := by
  have hrange : ¬((ht.capacity : Int) < 0 ∨ (ht.capacity : Int).toNat > ht.capacity) := by omega
  have hentry : ht.entry ht.capacity = .error .outOfRange := by
    rw [entry, List.getElem?_eq_none (le_of_eq sh.keys_length)]
  rw [hashTableDeleteAtIndexImpl, if_neg hrange, Int.toNat_natCast, hentry]
  rfl

/-! ## Insertion -/

section

variable [DecidableEq κ] {insert : InsertFunction κ ν}

/-- Insertions of keys with their pre-hashes keep covered tables covered, and make no fault. -/
def KeepsCovered (preHash : κ → UInt64) (insert : InsertFunction κ ν) : Prop :=
  ∀ {ht : HashTable κ ν} (k : κ) (v : ν) (draws : Nat), ht.Covered preHash →
    Safe (fun res => res.2.1.Covered preHash) (insert ht ⟨some k, preHash k⟩ v draws)

omit [DecidableEq κ] in
theorem copyEntries_safe (hins : KeepsCovered preHash insert) {pairs : List (HashTableKeyEntry κ × ν)}
    (hpre : ∀ p ∈ pairs, ∀ k, p.1.key.bytes = some k → p.1.key.preHash = preHash k)
    (hc : ht.Covered preHash) (draws : Nat) :
    Safe (fun res => ∀ ht', res.1 = some ht' → ht'.Covered preHash)
      (copyEntries insert pairs ht draws) := by
  induction pairs generalizing ht draws with
  | nil =>
      rintro ht' ⟨⟩
      exact hc
  | cons pair rest ih =>
      obtain ⟨entry, value⟩ := pair
      have hrest := fun p hp => hpre p (List.mem_cons_of_mem _ hp)
      cases hbytes : entry.key.bytes with
      | none =>
          simp only [copyEntries, hbytes]
          exact ih hrest hc draws
      | some k =>
          have hkey : entry.key = ⟨some k, preHash k⟩ := by
            rw [← hbytes, ← hpre _ List.mem_cons_self k hbytes]
          simp only [copyEntries, hkey]
          refine (hins k value draws hc).bind ?_
          rintro ⟨i, newHt, draws'⟩ hnew
          dsimp only
          split
          · intro ht' h
            cases h
          · exact ih hrest hnew draws'

omit [DecidableEq κ] in
theorem rebuildTable_safe [Inhabited ν] (hins : KeepsCovered preHash insert) (hc : ht.Covered preHash)
    {capacity : Nat} (hpos : 0 < capacity) (member : HashFamilyMember) (draws : Nat) :
    Safe (fun res => res.1.Covered preHash) (rebuildTable insert ht capacity member draws) := by
  have hpre : ∀ p ∈ ht.keyArray.zip ht.valueArray, ∀ k, p.1.key.bytes = some k →
      p.1.key.preHash = preHash k := fun p hp k hk => (hc.shaped.entry_of_mem_zip hp hk).1
  simp only [rebuildTable, hc.shaped.slots_ok]
  refine (copyEntries_safe hins hpre (createTable_covered hpos member) draws).bind ?_
  rintro ⟨newHt, draws'⟩ hnew
  cases newHt with
  | none => exact hc
  | some newHt => exact hnew newHt rfl

theorem insertGrown_safe [Inhabited ν] (members : Nat → HashFamilyMember)
    (hins : KeepsCovered preHash insert) (length : Nat) :
    KeepsCovered preHash (insertGrown members insert length) := by
  intro ht k v draws hc
  by_cases hroom : length < ht.capacity
  · obtain ⟨res, hprobe, hres⟩ := insertProbe_base hc.shaped hc.capacity_pos k
    cases res with
    | none =>
        simp only [insertGrown, if_neg (not_le.mpr hroom), initialPosition_ok hc.capacity_pos, hprobe,
          bind, Except.bind]
        exact hc
    | some r =>
        obtain ⟨written, -, hw, hrun⟩ :=
          insertGrown_of_slot members insert hc.shaped v draws hroom hprobe hres
        have hwritten := hw.covered hc hres
        rw [hrun]
        split
        · exact (rebuildTable_safe hins hwritten hwritten.capacity_pos _ _).bind fun _ h => h
        · exact hwritten
  · simp only [insertGrown, if_pos (not_lt.mp hroom)]
    exact hc

/-- Whatever an insertion does to a covered table, it stays covered. -/
theorem hashTableInsertImpl_safe [Inhabited ν] (members : Nat → HashFamilyMember) (depth : Nat) :
    KeepsCovered preHash (hashTableInsertImpl (ν := ν) members depth) := by
  induction depth with
  | zero => exact fun _ _ _ _ => rfl
  | succ depth ih =>
      intro ht k v draws hc
      simp only [hashTableInsertImpl]
      split
      · exact (rebuildTable_safe ih hc (Nat.succ_pos _) _ _).bind
          fun _ hgrown => insertGrown_safe members ih ht.length k v _ hgrown
      · exact insertGrown_safe members ih ht.length k v draws hc

end

end HashTable

/-! ## Runs -/

open HashTable

section

variable {κ ν : Type} [DecidableEq κ] [Inhabited ν] {preHash : κ → UInt64}
  {members : Nat → HashFamilyMember} {s : TableState κ ν} {op : TableOperation κ ν}

/-- The deletion at the index behind the last slot is the only operation that leaves the arrays. -/
theorem TableState.operation_safe (members : Nat → HashFamilyMember) (hc : s.ht.Covered preHash)
    (hop : op ≠ .deleteAtIndex s.ht.capacity) (depth : Nat) :
    Safe (fun res => res.2.ht.Covered preHash) (s.operation preHash members depth op) := by
  cases op with
  | call c =>
      cases c with
      | insert k v =>
          exact (hashTableInsertImpl_safe members depth k v s.draws hc).bind fun _ h => h
      | deleteByKey k =>
          obtain ⟨i, hi, hres⟩ := hc.find_ok k
          -- the index that a find returns is that of a slot, or negative
          have hindex : i ≠ s.ht.capacity := by
            rcases hres with ⟨j, rfl, hj⟩ | ⟨rfl, -⟩
            · have hlt := keyAt_lt hc.shaped.keys_length hj
              omega
            · omega
          obtain ⟨b, ht', hrun, -, hc'⟩ := hc.deleteAtIndex_ok hindex
          simp only [operation, call, hashTableKeyFromBytes, hashTableDeleteByKeyImpl, hi, hrun, bind,
            Except.bind]
          exact hc'
      | find k =>
          obtain ⟨i, hi, -⟩ := hc.find_ok k
          simp only [operation, call, hashTableKeyFromBytes, hi, bind, Except.bind]
          exact hc
  | deleteAtIndex index =>
      have hindex : index ≠ s.ht.capacity := fun h => hop (by rw [h])
      obtain ⟨b, ht', hrun, -, hc'⟩ := hc.deleteAtIndex_ok hindex
      simp only [operation, hrun, bind, Except.bind]
      exact hc'

theorem OperationStep.covered (s : TableState κ ν) (l : TableOperation κ ν × TableResult)
    (s' : TableState κ ν) (hstep : OperationStep preHash members s l s')
    (hc : s.ht.Covered preHash) : s'.ht.Covered preHash := by
  obtain ⟨op, res⟩ := l
  obtain ⟨depth, hrun⟩ := hstep
  by_cases hop : op = .deleteAtIndex s.ht.capacity
  · -- this operation does not return
    subst hop
    simp only [TableState.operation, hc.shaped.deleteAtIndex_capacity, bind, Except.bind,
      reduceCtorEq] at hrun
  · have hsafe := TableState.operation_safe members hc hop depth
    rw [hrun] at hsafe
    exact hsafe

theorem run_covered {τ : List (OperationTransition κ ν)}
    (hrun : Run (OperationStep preHash members) (.fresh members) τ s) : s.ht.Covered preHash := by
  have hfresh : (TableState.fresh members : TableState κ ν).ht.Covered preHash :=
    createTable_covered (Nat.succ_pos 4) _
  exact @Run.invariant _ _ _ _ _ _ (fun s => s.ht.Covered preHash) OperationStep.covered hrun hfresh

/-- In every reached state each key is in the reach of its base, so that a find sees it, whatever
holes the deletions have left. -/
theorem hash_table_probe_coverage {τ : List (OperationTransition κ ν)}
    (hrun : Run (OperationStep preHash members) (.fresh members) τ s) :
    (∀ j k, s.ht.keyAt j = some k →
      distance s.ht.capacity (s.ht.base preHash k) j ≤ s.ht.reach (s.ht.base preHash k)) ∧
    ∀ k, ∃ i, hashTableFindImpl s.ht (hashTableKeyFromBytes preHash (some k)) = .ok i ∧
      (0 ≤ i ↔ ∃ j, s.ht.keyAt j = some k) := by
  have hc : s.ht.Covered preHash := run_covered hrun
  refine ⟨hc.offset_le, fun k => ?_⟩
  obtain ⟨i, hi, hres⟩ := hc.find_ok k
  refine ⟨i, hi, ?_⟩
  rcases hres with ⟨j, rfl, hj⟩ | ⟨rfl, hmiss⟩
  · exact iff_of_true (Int.natCast_nonneg j) ⟨j, hj⟩
  · exact iff_of_false (by decide) (not_exists.mpr hmiss)

/-- No call of the operation reads or writes outside the arrays or divides by zero. -/
def TableState.StaysInRange (preHash : κ → UInt64) (members : Nat → HashFamilyMember)
    (s : TableState κ ν) (op : TableOperation κ ν) : Prop :=
  ∀ depth f, s.operation preHash members depth op = .error f → f = .diverges

/-- A deletion at an index returns, and says whether it has emptied a slot. -/
def TableState.TellsDeletion (preHash : κ → UInt64) (members : Nat → HashFamilyMember)
    (s : TableState κ ν) (op : TableOperation κ ν) : Prop :=
  ∀ index, op = .deleteAtIndex index → ∃ b s', (∀ depth,
    s.operation preHash members depth (.deleteAtIndex index) = .ok (.deleted b, s')) ∧
    s.ht.DeletesSlot index b

/-- With a null key the functions return at once, so that the operations above have none. -/
def HashTable.IgnoresNullKey (members : Nat → HashFamilyMember) (ht : HashTable κ ν) : Prop :=
  ∀ depth v draws,
    hashTableInsertImpl members (depth + 1) ht nullKey v draws = .ok (-1, ht, draws) ∧
    hashTableFindImpl ht nullKey = .ok (-1) ∧ hashTableDeleteByKeyImpl ht nullKey = .ok (false, ht)

theorem HashTable.ignoresNullKey (members : Nat → HashFamilyMember) (ht : HashTable κ ν) :
    ht.IgnoresNullKey members :=
  fun _ _ _ => ⟨rfl, rfl, rfl⟩

/-- In every reached state an operation stays within the arrays just when it is not a deletion at the
index equal to the capacity. -/
theorem hash_table_accesses_in_range {τ : List (OperationTransition κ ν)}
    (hrun : Run (OperationStep preHash members) (.fresh members) τ s) :
    s.ht.IgnoresNullKey members ∧ ∀ op : TableOperation κ ν,
      (s.StaysInRange preHash members op ∧ s.TellsDeletion preHash members op ↔
        op ≠ .deleteAtIndex s.ht.capacity) := by
  have hc : s.ht.Covered preHash := run_covered hrun
  refine ⟨s.ht.ignoresNullKey members, fun op => ?_⟩
  constructor
  · rintro ⟨hrange, -⟩ rfl
    have hfault : s.operation preHash members 0 (.deleteAtIndex s.ht.capacity) =
        .error .outOfRange := by
      simp only [TableState.operation, hc.shaped.deleteAtIndex_capacity, bind, Except.bind]
    cases hrange 0 _ hfault
  · intro hop
    refine ⟨fun depth f hf => ?_, ?_⟩
    · have hsafe := TableState.operation_safe members hc hop depth
      rw [hf] at hsafe
      exact hsafe
    · rintro index rfl
      have hindex : index ≠ s.ht.capacity := fun h => hop (by rw [h])
      obtain ⟨b, ht', hdelete, hslot, -⟩ := hc.deleteAtIndex_ok hindex
      refine ⟨b, ⟨ht', s.draws⟩, fun depth => ?_, hslot⟩
      simp only [TableState.operation, hdelete, bind, Except.bind]

end

/-! ## A table with holes -/

/-- The keys 1, 6 and 11 share a base; the deletions leave holes in front of 11. -/
def holedOperations : List (TableOperation Nat Nat) :=
  [.call (.insert 1 10), .call (.insert 6 60), .call (.insert 11 110), .deleteAtIndex 1,
    .call (.deleteByKey 6)]

theorem hash_table_probe_coverage_holed :
    ∃ s, Run (OperationStep UInt64.ofNat sameMember) (.fresh sameMember)
        (operationRun holedOperations) s ∧
      (∀ j k, s.ht.keyAt j = some k →
        distance s.ht.capacity (s.ht.base UInt64.ofNat k) j ≤
          s.ht.reach (s.ht.base UInt64.ofNat k)) ∧
      ∀ k, ∃ i, hashTableFindImpl s.ht (hashTableKeyFromBytes UInt64.ofNat (some k)) = .ok i ∧
        (0 ≤ i ↔ ∃ j, s.ht.keyAt j = some k) := by
  obtain ⟨s, hrun⟩ := operationRun_run holedOperations
  exact ⟨s, hrun, hash_table_probe_coverage hrun⟩

theorem hash_table_accesses_in_range_holed :
    ∃ s, Run (OperationStep UInt64.ofNat sameMember) (.fresh sameMember)
        (operationRun holedOperations) s ∧
      s.ht.IgnoresNullKey sameMember ∧ ∀ op, (s.StaysInRange UInt64.ofNat sameMember op ∧
        s.TellsDeletion UInt64.ofNat sameMember op ↔ op ≠ .deleteAtIndex s.ht.capacity) := by
  obtain ⟨s, hrun⟩ := operationRun_run holedOperations
  exact ⟨s, hrun, hash_table_accesses_in_range hrun⟩

/-- On a fresh table of capacity 5 a deletion at the index 5 reads the sixth slot. -/
theorem hash_table_delete_behind_last_slot :
    (TableState.fresh sameMember : TableState Nat Nat).ht.capacity = 5 ∧
      (TableState.fresh sameMember : TableState Nat Nat).operation UInt64.ofNat sameMember 1
        (.deleteAtIndex 5) = .error .outOfRange ∧
      ¬(TableState.fresh sameMember : TableState Nat Nat).StaysInRange UInt64.ofNat sameMember
        (.deleteAtIndex 5) := by
  refine ⟨by decide, by decide, fun hrange => ?_⟩
  cases hrange 1 .outOfRange (by decide)

end EventSeq
