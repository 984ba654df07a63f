import EventSeq.HashTableCoverage

/-!
# Rebuilding a table (`hash_table_grow`, `hash_table_change_hash`)

The copying loop fills a new table, of which the length is the number of occupied slots.  So an
insertion into it never fails: when the table is too full for the next key it grows, and it then has
more slots than keys, whatever its capacity was.
-/

namespace EventSeq

open Lib

namespace HashTable

variable {κ ν : Type}

/-- A new table, as the copying loop leaves it between two insertions. -/
structure BeingFilled (preHash : κ → UInt64) (ht : HashTable κ ν) : Prop where
  shaped : ht.Shaped preHash
  covered : 0 < ht.capacity → ht.Covered preHash
  distinct : ∀ i j k, ht.keyAt i = some k → ht.keyAt j = some k → i = j
  counted : ht.Counted

/-- `ht'` holds the entries of `ht`, each of them once, and finds them. -/
structure RebuiltInto (preHash : κ → UInt64) [DecidableEq κ] (ht ht' : HashTable κ ν) : Prop where
  pairs : ∀ k v, (∃ j, ht'.keyAt j = some k ∧ ht'.valueArray[j]? = some v) ↔
    ∃ j, ht.keyAt j = some k ∧ ht.valueArray[j]? = some v
  distinct : ∀ i j k, ht'.keyAt i = some k → ht'.keyAt j = some k → i = j
  found : ∀ j k v, ht.keyAt j = some k → ht.valueArray[j]? = some v → ∃ i : Nat,
    hashTableFindImpl ht' (hashTableKeyFromBytes preHash (some k)) = .ok i ∧
      ht'.keyAt i = some k ∧ ht'.valueArray[i]? = some v
  absent : ∀ k, (∀ j, ht.keyAt j ≠ some k) → ∀ j, ht'.keyAt j ≠ some k
  -- A find in a table without slots divides by zero.
  notFound : 0 < ht'.capacity → ∀ k, (∀ j, ht.keyAt j ≠ some k) →
    hashTableFindImpl ht' (hashTableKeyFromBytes preHash (some k)) = .ok (-1)

variable {preHash : κ → UInt64} {ht ht' : HashTable κ ν} {m : κ → Option ν} {k : κ} {v : ν}

theorem createTable_beingFilled [Inhabited ν] (capacity : Nat) (member : HashFamilyMember) :
    (createTable capacity member : HashTable κ ν).BeingFilled preHash := by
  refine ⟨createTable_shaped capacity member, fun hpos => createTable_covered hpos member, ?_,
    createTable_counted capacity member⟩
  intro i j k hi
  rw [keyAt_createTable] at hi
  cases hi

theorem card_occupied_le (ht : HashTable κ ν) : ht.occupied.card ≤ ht.capacity :=
  (Finset.card_filter_le _ _).trans (le_of_eq (Finset.card_range _))

/-- An absent key is put in an empty slot. -/
theorem IsSlotFor.keyAt_of_absent {r : ProbeResult} (hs : IsSlotFor preHash ht k r)
    (habsent : ∀ i, ht.keyAt i ≠ some k) : ht.keyAt r.currentIndex = none := by
  have hslot := hs.slot
  split at hslot
  · exact absurd hslot (habsent _)
  · exact hslot

section

variable [DecidableEq κ] [Inhabited ν] {insert : InsertFunction κ ν} {members : Nat → HashFamilyMember}
  {draws draws' length : Nat} {i : Int}

/-- The insertion of an absent key into a table with room for it, which may be rebuilt once more. -/
theorem insertGrown_adds (hins : AddsAbsent preHash (BeingFilled preHash) insert)
    (h : ht.BeingFilled preHash) (hr : ht.Represents m) (hk : m k = none)
    (hlength : length = ht.occupied.card) (hroom : length < ht.capacity)
    (hrun : insertGrown members insert length ht ⟨some k, preHash k⟩ v draws = .ok (i, ht', draws')) :
    0 ≤ i ∧ ht'.BeingFilled preHash ∧ ht'.Represents (Function.update m k (some v)) ∧
      ht.capacity ≤ ht'.capacity := by
  have habsent := hr.keyAt_ne h.shaped hk
  obtain ⟨r, written, -, hs, hwritten, hw, heq⟩ := insertGrown_eq members insert h.shaped k v draws
    hroom (exists_empty preHash (hlength ▸ hroom) k)
  have hunique : ∀ i, ht.keyAt i = some k → i = r.currentIndex :=
    fun i hi => absurd hi (habsent i)
  have hlt : r.currentIndex < ht.capacity :=
    hs.index_eq ▸ path_lt preHash (Nat.zero_lt_of_lt hroom) k _
  have hcounted : written.Counted := by
    rw [Counted, hwritten, hw.card_occupied hlt (hs.keyAt_of_absent habsent), hlength]
  have hfilled : written.BeingFilled preHash := by
    have hcovered := hw.covered (h.covered (Nat.zero_lt_of_lt hroom)) hs
    exact ⟨hcovered.shaped, fun _ => hcovered, hw.distinct hunique h.distinct, hcounted⟩
  have hr' := hw.represents h.shaped hlt hs.slot hunique hr
  rw [heq] at hrun
  split at hrun
  · obtain ⟨⟨rebuilt, draws₁⟩, hchange, ⟨⟩⟩ := (bind_eq_ok_iff _ _ _).mp hrun
    obtain ⟨hfilled', hr'', hcap⟩ := rebuildTable_adds hins (createTable_beingFilled _ _)
      hfilled.shaped hfilled.distinct hr' hchange
    exact ⟨Int.natCast_nonneg _, hfilled', hr'', hw.capacity ▸ hcap⟩
  · cases hrun
    exact ⟨Int.natCast_nonneg _, hfilled, hr', le_of_eq hw.capacity.symm⟩

/-- An insertion into a table that is being filled does not fail. -/
theorem hashTableInsertImpl_adds (members : Nat → HashFamilyMember) (depth : Nat) :
    AddsAbsent preHash (BeingFilled preHash) (@hashTableInsertImpl κ ν _ _ members depth) := by
  induction depth with
  | zero =>
      intro ht ht' m k v i draws draws' _ _ _ hrun
      cases hrun
  | succ depth ih =>
      intro ht ht' m k v i draws draws' h hr hk hrun
      have hcard := card_occupied_le ht
      by_cases hgrows : ht.GrowsOnInsert
      · simp only [hashTableInsertImpl, if_pos hgrows, bind_eq_ok_iff] at hrun
        obtain ⟨⟨grown, newDraws⟩, hgrow, hrun⟩ := hrun
        obtain ⟨h', hr', hcap⟩ := rebuildTable_adds ih (createTable_beingFilled _ _) h.shaped
          h.distinct hr hgrow
        -- the length that is written is that of the old table, which has as many keys
        have hsame : ht.length = grown.occupied.card := h.counted.trans (Nat.le_antisymm
          (occupied_card_le_of_represents h'.shaped h.shaped h.distinct hr' hr)
          (occupied_card_le_of_represents h.shaped h'.shaped h'.distinct hr hr'))
        have hlength := h.counted
        rw [Counted] at hlength
        obtain ⟨hnonneg, hfilled, hadded, hle⟩ :=
          insertGrown_adds ih h' hr' hk hsame (by omega) hrun
        exact ⟨hnonneg, hfilled, hadded, by omega⟩
      · simp only [hashTableInsertImpl, if_neg hgrows, bind_eq_ok_iff] at hrun
        obtain ⟨_, ⟨⟩, hrun⟩ := hrun
        have hspace : ¬ht.length + ht.length / 2 ≥ ht.capacity := hgrows
        exact insertGrown_adds ih h hr hk h.counted (by omega) hrun

omit [Inhabited ν] in
theorem BeingFilled.rebuiltInto (h : ht'.BeingFilled preHash) (sh : ht.Shaped preHash)
    (hr : ht.Represents m) (hr' : ht'.Represents m) : ht.RebuiltInto preHash ht' where
  pairs k v := (hr' k v).symm.trans (hr k v)
  distinct := h.distinct
  found j k v hj hv := by
    obtain ⟨j', hj', hv'⟩ := (hr' k v).mp ((hr k v).mpr ⟨j, hj, hv⟩)
    have hlt := keyAt_lt h.shaped.keys_length hj'
    obtain ⟨i, hfind, hres⟩ := (h.covered (Nat.zero_lt_of_lt hlt)).find_ok k
    rcases hres with ⟨i', rfl, hi'⟩ | ⟨-, hmiss⟩
    · obtain rfl := h.distinct j' i' k hj' hi'
      exact ⟨j', hfind, hj', hv'⟩
    · exact absurd hj' (hmiss j')
  absent k hk := hr'.keyAt_ne h.shaped ((hr.eq_none_iff sh).mpr hk)
  notFound hpos k hk := by
    obtain ⟨i, hfind, hres⟩ := (h.covered hpos).find_ok k
    rcases hres with ⟨j, -, hj⟩ | ⟨rfl, -⟩
    · exact absurd hj (hr'.keyAt_ne h.shaped ((hr.eq_none_iff sh).mpr hk) j)
    · exact hfind

/-- The functions that rebuild a table of distinct keys keep its entries, as far as they return, also
when an insertion into the new table rebuilds that one. -/
theorem rebuilding_preserves_contents (members : Nat → HashFamilyMember) (depth draws : Nat)
    (sh : ht.Shaped preHash)
    (hdistinct : ∀ i j k, ht.keyAt i = some k → ht.keyAt j = some k → i = j) :
    (∀ ht' draws', hashTableGrow (hashTableInsertImpl members depth) ht draws = .ok (ht', draws') →
      ht.RebuiltInto preHash ht' ∧ ht.capacity < ht'.capacity) ∧
    ∀ ht' draws',
      hashTableChangeHash members (hashTableInsertImpl members depth) ht draws = .ok (ht', draws') →
      ht.RebuiltInto preHash ht' ∧ ht.capacity ≤ ht'.capacity := by
  obtain ⟨m, hr⟩ := exists_represents hdistinct
  have hadds : AddsAbsent preHash (BeingFilled preHash)
      (@hashTableInsertImpl κ ν _ _ members depth) :=
    hashTableInsertImpl_adds members depth
  constructor
  · intro ht' draws' hgrow
    obtain ⟨h', hr', hcap⟩ :=
      rebuildTable_adds hadds (createTable_beingFilled _ _) sh hdistinct hr hgrow
    exact ⟨h'.rebuiltInto sh hr hr', by omega⟩
  · intro ht' draws' hchange
    obtain ⟨h', hr', hcap⟩ :=
      rebuildTable_adds hadds (createTable_beingFilled _ _) sh hdistinct hr hchange
    exact ⟨h'.rebuiltInto sh hr hr', hcap⟩

end

/-! ## Two keys with one base -/

def pairTable : HashTable Nat Nat where
  valueArray := [0, 10, 60, 0, 0]
  capacity := 5
  length := 2
  keyArray := [⟨nullKey, 0⟩, ⟨⟨some 1, 1⟩, 1⟩, ⟨⟨some 6, 6⟩, 0⟩, ⟨nullKey, 0⟩, ⟨nullKey, 0⟩]
  familyMember := ⟨1, 0⟩

theorem pairTable_shaped : pairTable.Shaped UInt64.ofNat := by
  refine ⟨rfl, rfl, ?_⟩
  intro entry hentry k hk
  simp only [pairTable, List.mem_cons, List.not_mem_nil, or_false] at hentry
  rcases hentry with rfl | rfl | rfl | rfl | rfl <;> cases hk <;> rfl

theorem pairTable_copiesApart : pairTable.CopiesApart 2 := by decide

theorem rebuilding_preserves_contents_pair :
    ∃ grown changed,
      hashTableGrow (hashTableInsertImpl sameMember 1) pairTable 0 = .ok (grown, 0) ∧
      hashTableChangeHash sameMember (hashTableInsertImpl sameMember 1) pairTable 0 =
        .ok (changed, 1) ∧
      pairTable.RebuiltInto UInt64.ofNat grown ∧ 5 < grown.capacity ∧
      pairTable.RebuiltInto UInt64.ofNat changed ∧ 5 ≤ changed.capacity := by
  obtain ⟨hgrow, hchange⟩ := rebuilding_preserves_contents sameMember 1 0 pairTable_shaped
    (pairTable_copiesApart.distinct pairTable_shaped)
  obtain ⟨hgrown, hlarger⟩ := hgrow _ _ rfl
  obtain ⟨hchanged, hlarge⟩ := hchange _ _ rfl
  exact ⟨_, _, rfl, rfl, hgrown, hlarger, hchanged, hlarge⟩

end HashTable

end EventSeq
