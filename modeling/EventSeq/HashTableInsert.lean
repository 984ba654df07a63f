import EventSeq.HashTableMap

/-!
# Insertion into the hash table

An insertion adds the pair to the map, provided the probe for the key meets no hole in front of the
slot of the key, or the table grows first.  Rebuilding a table copies its entries by insertions of
keys that are absent, which never meet such a hole.
-/

namespace EventSeq

open Lib

namespace HashTable

variable {κ ν : Type} {preHash : κ → UInt64} {ht ht' : HashTable κ ν} {m : κ → Option ν} {k : κ}
  {v : ν}

/-! ## The table after the writes -/

section

variable {r : ProbeResult} {length : Nat}

/-- The slot an insertion of `k` may write to. -/
structure IsSlotFor (preHash : κ → UInt64) (ht : HashTable κ ν) (k : κ) (r : ProbeResult) : Prop where
  offset_lt : r.collisionOffset < ht.capacity
  index_eq : r.currentIndex = ht.path preHash k r.collisionOffset
  before : ∀ o < r.collisionOffset, ht.keyAt (ht.path preHash k o) ≠ none ∧
    ht.keyAt (ht.path preHash k o) ≠ some k
  slot : ht.keyAt r.currentIndex = if r.overwrite then some k else none

/-- Without a hole in front of the key, no slot but the one written to holds it. -/
theorem IsSlotFor.unique (wf : ht.WellFormed preHash) (hs : IsSlotFor preHash ht k r)
    (hole : ht.NoHoleBefore preHash k) {i : Nat} (hi : ht.keyAt i = some k) :
    i = r.currentIndex := by
  -- The other slot would stand before the found one on the path, or behind it.
  obtain ⟨o, ho, rfl⟩ := exists_probe_eq (wf.layout.base_lt k) (keyAt_lt wf.keys_length hi)
  rcases Nat.lt_trichotomy o r.collisionOffset with hlt | heq | hgt
  · exact absurd hi (hs.before o hlt).2
  · rw [hs.index_eq, ← heq]
    rfl
  · have hsome := hole o ho hi _ hgt
    have hslot := hs.slot
    rw [← hs.index_eq, hslot] at hsome
    cases hover : r.overwrite with
    | false => simp [hover] at hsome
    | true =>
        simp only [hover, if_true] at hslot
        exact wf.distinct _ _ k hi hslot

section

variable (wf : ht.WellFormed preHash) (hs : IsSlotFor preHash ht k r)
  (hw : WrittenAt preHash ht ht' k v (ht.base preHash k) r.currentIndex r.collisionOffset)

include hw

theorem WrittenAt.shaped (sh : ht.Shaped preHash) : ht'.Shaped preHash :=
  ⟨by rw [hw.keys_length, hw.capacity, sh.keys_length],
    by rw [hw.values_length, hw.capacity, sh.values_length], hw.preHash_eq⟩

theorem WrittenAt.base_eq (k' : κ) : ht'.base preHash k' = ht.base preHash k' := by
  rw [base, base, hw.familyMember, hw.capacity]

theorem WrittenAt.path_eq (k' : κ) (o : Nat) :
    ht'.path preHash k' o = ht.path preHash k' o := by
  rw [path, path, hw.base_eq, hw.capacity]

theorem WrittenAt.reach_le (i : Nat) : ht.reach i ≤ ht'.reach i := by
  rw [hw.reach]
  split
  · rename_i hi
    rw [hi]
    exact le_max_left _ _
  · exact le_rfl

theorem WrittenAt.keyAt_eq_some {i : Nat} {k' : κ} (hi : ht'.keyAt i = some k') :
    (i = r.currentIndex ∧ k' = k) ∨ (i ≠ r.currentIndex ∧ ht.keyAt i = some k') := by
  rw [hw.keyAt] at hi
  split at hi
  · rename_i hij
    exact .inl ⟨hij, (Option.some.inj hi).symm⟩
  · rename_i hij
    exact .inr ⟨hij, hi⟩

theorem WrittenAt.keyAt_ne_none {i : Nat} (hi : ht.keyAt i ≠ none) : ht'.keyAt i ≠ none := by
  rw [hw.keyAt]
  split
  · exact Option.some_ne_none k
  · exact hi

theorem WrittenAt.occupied_eq (hlt : r.currentIndex < ht.capacity) :
    ht'.occupied = insert r.currentIndex ht.occupied := by
  ext j
  simp only [occupied, hw.capacity, hw.keyAt, Finset.mem_filter, Finset.mem_range,
    Finset.mem_insert]
  by_cases hj : j = r.currentIndex
  · subst hj
    simp [hlt]
  · simp [hj]

/-- If the slot written to is the only one of the key, the keys stay distinct. -/
theorem WrittenAt.distinct (hunique : ∀ i, ht.keyAt i = some k → i = r.currentIndex)
    (hdistinct : ∀ i j k, ht.keyAt i = some k → ht.keyAt j = some k → i = j) (i j : Nat) (k' : κ)
    (hi : ht'.keyAt i = some k') (hj : ht'.keyAt j = some k') : i = j := by
  rcases hw.keyAt_eq_some hi with ⟨hi, rfl⟩ | ⟨-, hiold⟩
  · rcases hw.keyAt_eq_some hj with ⟨hj, -⟩ | ⟨-, hjold⟩
    · rw [hi, hj]
    · rw [hi, hunique j hjold]
  · rcases hw.keyAt_eq_some hj with ⟨hj, rfl⟩ | ⟨-, hjold⟩
    · rw [hj, hunique i hiold]
    · exact hdistinct i j k' hiold hjold

theorem WrittenAt.represents [DecidableEq κ] (sh : ht.Shaped preHash)
    (hlt : r.currentIndex < ht.capacity)
    (hslot : ht.keyAt r.currentIndex = if r.overwrite then some k else none)
    (hunique : ∀ i, ht.keyAt i = some k → i = r.currentIndex) (hr : ht.Represents m) :
    ht'.Represents (Function.update m k (some v)) := by
  intro k' v'
  by_cases hk : k' = k
  · subst hk
    rw [Function.update_self]
    constructor
    · rintro ⟨⟩
      refine ⟨r.currentIndex, ?_, ?_⟩
      · rw [hw.keyAt, if_pos rfl]
      · rw [hw.value _ hlt, if_pos rfl]
    · rintro ⟨i, hi, hv⟩
      -- no other slot holds the key, before or after
      have hij : i = r.currentIndex := by
        rcases hw.keyAt_eq_some hi with ⟨hij, -⟩ | ⟨-, hold⟩
        · exact hij
        · exact hunique i hold
      rwa [hij, hw.value _ hlt, if_pos rfl] at hv
  · rw [Function.update_of_ne hk, hr k' v']
    constructor
    · rintro ⟨i, hi, hv⟩
      -- the slot that is written held no other key
      have hij : i ≠ r.currentIndex := by
        rintro rfl
        rw [hslot] at hi
        split at hi
        · exact hk (Option.some.inj hi).symm
        · cases hi
      refine ⟨i, ?_, ?_⟩
      · rw [hw.keyAt, if_neg hij, hi]
      · rw [hw.value _ (keyAt_lt sh.keys_length hi), if_neg hij, hv]
    · rintro ⟨i, hi, hv⟩
      rcases hw.keyAt_eq_some hi with ⟨-, heq⟩ | ⟨hij, hold⟩
      · exact absurd heq hk
      · refine ⟨i, hold, ?_⟩
        rwa [hw.value _ (keyAt_lt sh.keys_length hold), if_neg hij] at hv

include hs

theorem WrittenAt.compact (hc : ht.Compact preHash) : ht'.Compact preHash := by
  intro k' o ho hi o' ho'
  rw [hw.capacity] at ho
  rw [hw.path_eq] at hi ⊢
  apply hw.keyAt_ne_none
  rcases hw.keyAt_eq_some hi with ⟨hij, rfl⟩ | ⟨-, hold⟩
  · rw [hs.index_eq] at hij
    obtain rfl := probe_injective ho hs.offset_lt hij
    exact (hs.before o' ho').1
  · exact hc k' o ho hold o' ho'

include wf

theorem WrittenAt.wellFormed (hole : ht.NoHoleBefore preHash k)
    (hcard : ht.occupied.card ≤ length) (hlen : length + 1 < ht.capacity)
    (hlength : ht'.length = length + 1) : ht'.WellFormed preHash := by
  refine ⟨hw.shaped wf.shaped, hw.capacity ▸ wf.capacity_ge,
    hw.distinct (fun _ => hs.unique wf hole) wf.distinct, ?_, ?_, ?_⟩
  · intro i k' hi
    rcases hw.keyAt_eq_some hi with ⟨hij, rfl⟩ | ⟨-, hold⟩
    · refine ⟨r.collisionOffset, ?_, ?_⟩
      · rw [hw.base_eq, hw.reach, if_pos rfl]
        exact le_max_right _ _
      · rw [hij, hw.path_eq, hs.index_eq]
    · obtain ⟨o, ho, hpath⟩ := wf.covered i k' hold
      refine ⟨o, ?_, ?_⟩
      · rw [hw.base_eq]
        exact le_trans ho (hw.reach_le _)
      · rw [hw.path_eq, hpath]
  · rw [hw.occupied_eq (hs.index_eq ▸ wf.layout.path_lt k _), hlength]
    have hinsert := Finset.card_insert_le r.currentIndex ht.occupied
    omega
  · rw [hlength, hw.capacity]
    exact hlen

end

end

/-! ## The probing loop -/

section

variable [DecidableEq κ]

/-- The probing loop stops at a slot for the key, or has passed over the whole table. -/
theorem insertProbe_cases (sh : ht.Shaped preHash) (hpos : 0 < ht.capacity) (k : κ)
    (remaining o : Nat) (c : Bool) (hrange : o + remaining = ht.capacity)
    (hbefore : ∀ o' < o, ht.keyAt (ht.path preHash k o') ≠ none ∧
      ht.keyAt (ht.path preHash k o') ≠ some k) :
    ∃ res, insertProbe ht ⟨some k, preHash k⟩ remaining (ht.path preHash k o) o c = .ok res ∧
      match res with
      | some r => IsSlotFor preHash ht k r
      | none => ∀ o' < ht.capacity, ht.keyAt (ht.path preHash k o') ≠ none := by
  induction remaining generalizing o c with
  | zero => exact ⟨none, rfl, fun o' ho' => (hbefore o' (by omega)).1⟩
  | succ remaining ih =>
      obtain ⟨e, hmem, hentry, hbytes, -⟩ := sh.entry_ok (path_lt preHash hpos k o)
      have hlt : o < ht.capacity := by omega
      simp only [insertProbe, hentry, bind, Except.bind]
      cases hkey : ht.keyAt (ht.path preHash k o) with
      | none =>
          rw [hkey] at hbytes
          rw [hbytes, Option.isNone_none, if_pos rfl]
          exact ⟨_, rfl, hlt, rfl, hbefore, hkey⟩
      | some k' =>
          rw [hkey] at hbytes
          have heq := @keyEquals_iff κ _ preHash k e (sh.preHash_eq e hmem)
          rw [if_neg (by simp [hbytes])]
          by_cases hk : k' = k
          · rw [if_pos (heq.mpr (hk ▸ hbytes))]
            exact ⟨_, rfl, hlt, rfl, hbefore, hk ▸ hkey⟩
          · -- a slot of another key is passed over, and joins those before
            have hne : ht.keyAt (ht.path preHash k o) ≠ some k := by
              rw [hkey]
              exact fun h => hk (Option.some.inj h)
            rw [if_neg (fun h => hne (by rw [hkey, ← hbytes, heq.mp h])), ← path_succ]
            apply ih (o + 1) _ (by omega)
            intro o' ho'
            rcases Nat.lt_succ_iff_lt_or_eq.mp ho' with hlt | rfl
            · exact hbefore o' hlt
            · exact ⟨by rw [hkey]; exact Option.some_ne_none k', hne⟩

/-- From its base the probe goes through the whole table. -/
theorem insertProbe_base (sh : ht.Shaped preHash) (hpos : 0 < ht.capacity) (k : κ) :
    ∃ res,
      insertProbe ht ⟨some k, preHash k⟩ ht.capacity (ht.base preHash k) 0 false = .ok res ∧
      match res with
      | some r => IsSlotFor preHash ht k r
      | none => ∀ o < ht.capacity, ht.keyAt (ht.path preHash k o) ≠ none := by
  have hstart : ht.path preHash k 0 = ht.base preHash k := probe_zero (base_lt preHash hpos k)
  rw [← hstart]
  exact insertProbe_cases sh hpos k ht.capacity 0 false (Nat.zero_add _)
    fun o' ho' => absurd ho' (Nat.not_lt_zero o')

/-! ## Insertion and rebuilding -/

/-- `ht'` is the outcome of an insertion of `k` and `v` into `ht`, with the result `i`. -/
structure Inserted (preHash : κ → UInt64) (ht ht' : HashTable κ ν) (m : κ → Option ν) (k : κ) (v : ν)
    (i : Int) : Prop where
  nonneg : 0 ≤ i
  wellFormed : ht'.WellFormed preHash
  represents : ht'.Represents (Function.update m k (some v))
  capacity_le : ht.capacity ≤ ht'.capacity
  compact : ht.Compact preHash → ht'.Compact preHash

/-- The insertion function adds every absent key it returns for. -/
def InsertsAbsent (preHash : κ → UInt64) (insert : InsertFunction κ ν) : Prop :=
  ∀ {ht ht' : HashTable κ ν} {m k v i draws draws'}, ht.WellFormed preHash → ht.Represents m →
    m k = none → insert ht ⟨some k, preHash k⟩ v draws = .ok (i, ht', draws') →
    Inserted preHash ht ht' m k v i

/-- The insertion function keeps a property of tables when it inserts absent keys. -/
def Keeps (preHash : κ → UInt64) (I : HashTable κ ν → Prop) (insert : InsertFunction κ ν) : Prop :=
  ∀ {ht ht' : HashTable κ ν} {m k v i draws draws'}, ht.WellFormed preHash → ht.Represents m →
    m k = none → I ht → insert ht ⟨some k, preHash k⟩ v draws = .ok (i, ht', draws') → I ht'

variable {insert : InsertFunction κ ν} {draws draws' : Nat} {i : Int} {I : HashTable κ ν → Prop}

/-- The insertion function adds absent keys to the tables that meet `J`, which they meet after it
too. -/
def AddsAbsent (preHash : κ → UInt64) (J : HashTable κ ν → Prop) (insert : InsertFunction κ ν) : Prop :=
  ∀ {ht ht' : HashTable κ ν} {m k v i draws draws'}, J ht → ht.Represents m → m k = none →
    insert ht ⟨some k, preHash k⟩ v draws = .ok (i, ht', draws') →
    0 ≤ i ∧ J ht' ∧ ht'.Represents (Function.update m k (some v)) ∧ ht.capacity ≤ ht'.capacity

variable {J : HashTable κ ν → Prop}

/-- The copying loop adds the pairs that are left to the map of the new table. -/
theorem copyEntries_adds (hins : AddsAbsent preHash J insert)
    (pairs : List (HashTableKeyEntry κ × ν)) {m m' : κ → Option ν} {res : Option (HashTable κ ν)}
    (hpre : ∀ p ∈ pairs, ∀ k, p.1.key.bytes = some k → p.1.key.preHash = preHash k ∧ m k = none)
    (hdistinct : pairs.Pairwise fun p q => ∀ k, p.1.key.bytes = some k → q.1.key.bytes ≠ some k)
    (hm : ∀ k v, m' k = some v ↔ (∃ p ∈ pairs, p.1.key.bytes = some k ∧ p.2 = v) ∨ m k = some v)
    (hJ : J ht) (hr : ht.Represents m)
    (h : copyEntries insert pairs ht draws = .ok (res, draws')) :
    ∃ ht', res = some ht' ∧ J ht' ∧ ht'.Represents m' ∧ ht.capacity ≤ ht'.capacity := by
  induction pairs generalizing ht m draws with
  | nil =>
      cases h
      refine ⟨ht, rfl, hJ, fun k v => ?_, le_rfl⟩
      rw [hm, ← hr k v]
      simp
  | cons pair rest ih =>
      obtain ⟨entry, value⟩ := pair
      have hpre' := fun p hp => hpre p (List.mem_cons_of_mem _ hp)
      have hdistinct' := List.pairwise_cons.mp hdistinct
      cases hbytes : entry.key.bytes with
      | none =>
          simp only [copyEntries, hbytes] at h
          refine ih hpre' hdistinct'.2 (fun k v => ?_) hJ hr h
          simp [hm, hbytes]
      | some k₀ =>
          obtain ⟨hhash, habsent⟩ := hpre _ List.mem_cons_self k₀ hbytes
          have hkey : entry.key = ⟨some k₀, preHash k₀⟩ := by rw [← hbytes, ← hhash]
          simp only [copyEntries, hkey, bind_eq_ok_iff] at h
          obtain ⟨⟨i, newHt, newDraws⟩, hrun, h⟩ := h
          obtain ⟨hnonneg, hJ', hr', hle⟩ := hins hJ hr habsent hrun
          rw [if_neg (not_lt.mpr hnonneg)] at h
          -- The key just copied does not come again, so the others stay absent.
          have hne : ∀ p ∈ rest, ∀ k, p.1.key.bytes = some k → k ≠ k₀ := by
            rintro p hp k hk rfl
            exact hdistinct'.1 p hp k hbytes hk
          have hpre_rest : ∀ p ∈ rest, ∀ k, p.1.key.bytes = some k →
              p.1.key.preHash = preHash k ∧ Function.update m k₀ (some value) k = none := by
            intro p hp k hk
            rw [Function.update_of_ne (hne p hp k hk)]
            exact hpre' p hp k hk
          have hm_rest : ∀ k v, m' k = some v ↔ (∃ p ∈ rest, p.1.key.bytes = some k ∧ p.2 = v) ∨
              Function.update m k₀ (some value) k = some v := by
            intro k v
            rw [hm]
            by_cases hk : k = k₀
            · subst hk
              have hrest : ¬∃ p ∈ rest, p.1.key.bytes = some k ∧ p.2 = v :=
                fun ⟨p, hp, hpk, _⟩ => hne p hp k hpk rfl
              simp only [List.exists_mem_cons_iff, hrest, hbytes, habsent, Function.update_self]
              simp
            · simp [hbytes, Function.update_of_ne hk, Ne.symm hk]
          obtain ⟨ht', hres, hJ'', hr'', hcap⟩ := ih hpre_rest hdistinct'.2 hm_rest hJ' hr' h
          exact ⟨ht', hres, hJ'', hr'', le_trans hle hcap⟩

/-- Rebuilding a table of different keys keeps the map. -/
theorem rebuildTable_adds [Inhabited ν] (hins : AddsAbsent preHash J insert) {capacity : Nat}
    {member : HashFamilyMember} (hJ : J (createTable capacity member)) (sh : ht.Shaped preHash)
    (hdistinct : ∀ i j k, ht.keyAt i = some k → ht.keyAt j = some k → i = j) (hr : ht.Represents m)
    (h : rebuildTable insert ht capacity member draws = .ok (ht', draws')) :
    J ht' ∧ ht'.Represents m ∧ capacity ≤ ht'.capacity := by
  simp only [rebuildTable, sh.slots_ok, bind_eq_ok_iff] at h
  obtain ⟨_, ⟨⟩, ⟨res, newDraws⟩, hcopy, h⟩ := h
  have hpre : ∀ p ∈ ht.keyArray.zip ht.valueArray, ∀ k, p.1.key.bytes = some k →
      p.1.key.preHash = preHash k ∧ (none : Option ν) = none := fun p hp k hk =>
    ⟨(sh.entry_of_mem_zip hp hk).1, rfl⟩
  have hm : ∀ k v, m k = some v ↔
      (∃ p ∈ ht.keyArray.zip ht.valueArray, p.1.key.bytes = some k ∧ p.2 = v) ∨
        (none : Option ν) = some v := by
    intro k v
    rw [hr k v, or_iff_left (Option.some_ne_none v).symm]
    constructor
    · rintro ⟨j, hj, hv⟩
      obtain ⟨e, he, hek⟩ := Option.bind_eq_some_iff.mp hj
      exact ⟨(e, v), List.mem_of_getElem? (List.getElem?_zip_eq_some.mpr ⟨he, hv⟩), hek, rfl⟩
    · rintro ⟨p, hp, hpk, rfl⟩
      exact (sh.entry_of_mem_zip hp hpk).2
  obtain ⟨newHt, hres, hJ', hr', hcap⟩ := copyEntries_adds hins _ hpre (zip_distinct hdistinct) hm hJ
    (createTable_represents capacity member) hcopy
  subst hres
  cases h
  exact ⟨hJ', hr', hcap⟩

/-- Rebuilding a table leaves no holes, and keeps what insertions keep. -/
theorem rebuildTable_keeps [Inhabited ν] (hins : InsertsAbsent preHash insert)
    (hkeeps : Keeps preHash I insert) {capacity : Nat} {member : HashFamilyMember}
    (hcap : 5 ≤ capacity) (hI : I (createTable capacity member)) (lay : ht.Layout preHash)
    (hdistinct : ∀ i j k, ht.keyAt i = some k → ht.keyAt j = some k → i = j) (hr : ht.Represents m)
    (h : rebuildTable insert ht capacity member draws = .ok (ht', draws')) :
    ht'.WellFormed preHash ∧ ht'.Represents m ∧ ht'.Compact preHash ∧ capacity ≤ ht'.capacity ∧
      I ht' := by
  have hadds : AddsAbsent preHash
      (fun ht => ht.WellFormed preHash ∧ ht.Compact preHash ∧ I ht) insert := by
    rintro ht ht' m k v i draws draws' ⟨wf, hc, hI⟩ hr hk hrun
    have hadded := hins wf hr hk hrun
    exact ⟨hadded.nonneg, ⟨hadded.wellFormed, hadded.compact hc, hkeeps wf hr hk hI hrun⟩,
      hadded.represents, hadded.capacity_le⟩
  -- The new table starts empty, and so without holes.
  have hcompact : (createTable capacity member : HashTable κ ν).Compact preHash :=
    fun k => (createTable_represents capacity member).noHoleBefore_of_none
      (createTable_shaped capacity member) rfl
  obtain ⟨⟨wf', hc', hI'⟩, hr', hcap'⟩ := rebuildTable_adds hadds
    ⟨createTable_wellFormed hcap member, hcompact, hI⟩ lay.shaped hdistinct hr h
  exact ⟨wf', hr', hc', hcap', hI'⟩

theorem rebuildTable_spec [Inhabited ν] (hins : InsertsAbsent preHash insert) {capacity : Nat}
    {member : HashFamilyMember} (hcap : 5 ≤ capacity) (wf : ht.WellFormed preHash)
    (hr : ht.Represents m)
    (h : rebuildTable insert ht capacity member draws = .ok (ht', draws')) :
    ht'.WellFormed preHash ∧ ht'.Represents m ∧ ht'.Compact preHash ∧ capacity ≤ ht'.capacity := by
  have hkeeps : Keeps preHash (fun _ : HashTable κ ν => True) insert := fun _ _ _ _ _ => trivial
  obtain ⟨wf', hr', hc', hcap', -⟩ :=
    rebuildTable_keeps hins hkeeps hcap trivial wf.layout wf.distinct hr h
  exact ⟨wf', hr', hc', hcap'⟩

/-- What an insertion does after the growth, when the probe has found a slot: it writes there, and
changes the hash function if the probe took too many steps. -/
theorem insertGrown_of_slot [Inhabited ν] (members : Nat → HashFamilyMember)
    (insert : InsertFunction κ ν) (sh : ht.Shaped preHash) (v : ν) (draws : Nat) {length : Nat}
    (hroom : length < ht.capacity) {r : ProbeResult}
    (hprobe : insertProbe ht ⟨some k, preHash k⟩ ht.capacity (ht.base preHash k) 0 false =
      .ok (some r))
    (hs : IsSlotFor preHash ht k r) :
    ∃ written, written.length = length + 1 ∧
      WrittenAt preHash ht written k v (ht.base preHash k) r.currentIndex r.collisionOffset ∧
      insertGrown members insert length ht ⟨some k, preHash k⟩ v draws =
        if r.preHashCollision = false ∧ 2 * r.collisionOffset > ht.capacity + 6 then do
          let (ht', draws') ← hashTableChangeHash members insert written draws
          .ok (r.currentIndex, ht', draws')
        else .ok (r.currentIndex, written, draws) := by
  have hpos := Nat.zero_lt_of_lt hroom
  obtain ⟨written, hwrite, hlength, hw⟩ := @insertAt_writtenAt _ _ preHash ht k v r _ length sh
    (base_lt preHash hpos k) (hs.index_eq ▸ path_lt preHash hpos k _) hs.slot
  refine ⟨written, hlength, hw, ?_⟩
  simp only [insertGrown, if_neg (not_le.mpr hroom), initialPosition_ok hpos, hprobe, hwrite, bind,
    Except.bind, Bool.and_eq_true, Bool.not_eq_true', decide_eq_true_eq]

/-- With an empty slot in the table the probe always finds one. -/
theorem insertGrown_eq [Inhabited ν] (members : Nat → HashFamilyMember) (insert : InsertFunction κ ν)
    (sh : ht.Shaped preHash) (k : κ) (v : ν) (draws : Nat) {length : Nat}
    (hroom : length < ht.capacity)
    (hempty : ∃ o < ht.capacity, ht.keyAt (ht.path preHash k o) = none) :
    ∃ r written,
      insertProbe ht ⟨some k, preHash k⟩ ht.capacity (ht.base preHash k) 0 false = .ok (some r) ∧
      IsSlotFor preHash ht k r ∧ written.length = length + 1 ∧
      WrittenAt preHash ht written k v (ht.base preHash k) r.currentIndex r.collisionOffset ∧
      insertGrown members insert length ht ⟨some k, preHash k⟩ v draws =
        if r.preHashCollision = false ∧ 2 * r.collisionOffset > ht.capacity + 6 then do
          let (ht', draws') ← hashTableChangeHash members insert written draws
          .ok (r.currentIndex, ht', draws')
        else .ok (r.currentIndex, written, draws) := by
  obtain ⟨res, hprobe, hres⟩ := insertProbe_base sh (Nat.zero_lt_of_lt hroom) k
  cases res with
  | none =>
      obtain ⟨o, ho, hnone⟩ := hempty
      exact absurd hnone (hres o ho)
  | some r => exact ⟨r, (insertGrown_of_slot members insert sh v draws hroom hprobe hres).imp
      fun written h => ⟨hprobe, hres, h⟩⟩

/-- The rest of an insertion adds the pair, when no hole hides the key. -/
theorem insertGrown_spec [Inhabited ν] {members : Nat → HashFamilyMember} {length : Nat}
    (hins : InsertsAbsent preHash insert) (wf : ht.WellFormed preHash) (hr : ht.Represents m)
    (hole : ht.NoHoleBefore preHash k) (hcard : ht.occupied.card ≤ length)
    (hlen : length + 1 < ht.capacity)
    (h : insertGrown members insert length ht ⟨some k, preHash k⟩ v draws = .ok (i, ht', draws')) :
    Inserted preHash ht ht' m k v i := by
  obtain ⟨r, written, -, hs, hlength, hw, hrun⟩ :=
    insertGrown_eq members insert wf.shaped k v draws (Nat.lt_of_succ_lt hlen)
      (exists_empty preHash wf.layout.occupied_lt k)
  have wf' := hw.wellFormed wf hs hole hcard hlen hlength
  have hr' := hw.represents wf.shaped (hs.index_eq ▸ wf.layout.path_lt k _) hs.slot
    (fun _ => hs.unique wf hole) hr
  rw [hrun] at h
  split at h
  · obtain ⟨⟨rebuilt, draws₁⟩, hchange, ⟨⟩⟩ := (bind_eq_ok_iff _ _ _).mp h
    obtain ⟨wf'', hr'', hc'', hcap⟩ := rebuildTable_spec hins wf'.capacity_ge wf' hr' hchange
    exact ⟨Int.natCast_nonneg _, wf'', hr'', hw.capacity ▸ hcap, fun _ => hc''⟩
  · cases h
    exact ⟨Int.natCast_nonneg _, wf', hr', le_of_eq hw.capacity.symm, hw.compact hs⟩

/-- An insertion that grows the table, or meets no hole in front of the key, updates the map. -/
theorem hashTableInsertImpl_spec [Inhabited ν] (members : Nat → HashFamilyMember) (depth : Nat)
    (wf : ht.WellFormed preHash) (hr : ht.Represents m)
    (hcond : ht.GrowsOnInsert ∨ ht.NoHoleBefore preHash k)
    (h : hashTableInsertImpl members depth ht ⟨some k, preHash k⟩ v draws =
      .ok (i, ht', draws')) :
    Inserted preHash ht ht' m k v i := by
  induction depth generalizing ht ht' m k v i draws draws' with
  | zero => cases h
  | succ depth ih =>
      have hins : InsertsAbsent preHash (hashTableInsertImpl members depth) :=
        fun wf hr hk h => ih wf hr (.inr (hr.noHoleBefore_of_none wf.shaped hk)) h
      have hcap := wf.capacity_ge
      have hlen := wf.length_lt
      by_cases hgrows : ht.GrowsOnInsert
      · simp only [hashTableInsertImpl, if_pos hgrows, bind_eq_ok_iff] at h
        obtain ⟨⟨grown, newDraws⟩, hgrow, h⟩ := h
        obtain ⟨wf', hr', hc', hcap'⟩ := rebuildTable_spec hins (by omega) wf hr hgrow
        have hcard := occupied_card_le_of_represents wf.shaped wf'.shaped wf'.distinct hr hr'
        have hadded := insertGrown_spec hins wf' hr' (hc' k) (le_trans hcard wf.occupied_le)
          (by omega) h
        exact ⟨hadded.nonneg, hadded.wellFormed, hadded.represents,
          le_trans (by omega) hadded.capacity_le, fun _ => hadded.compact hc'⟩
      · simp only [hashTableInsertImpl, if_neg hgrows, bind_eq_ok_iff] at h
        obtain ⟨_, ⟨⟩, h⟩ := h
        have hroom : ¬ht.length + ht.length / 2 ≥ ht.capacity := hgrows
        exact insertGrown_spec hins wf hr (hcond.resolve_left hgrows) wf.occupied_le (by omega) h

theorem hashTableInsertImpl_insertsAbsent [Inhabited ν] (members : Nat → HashFamilyMember)
    (depth : Nat) : InsertsAbsent preHash (@hashTableInsertImpl κ ν _ _ members depth) :=
  fun wf hr hk h =>
    hashTableInsertImpl_spec members depth wf hr (.inr (hr.noHoleBefore_of_none wf.shaped hk)) h

end

end HashTable

end EventSeq
