import EventSeq.HashTableRebuild

/-!
# Insertion into the hash table returns

An insertion that probes too far draws another hash function and rebuilds the table by insertions,
which may probe too far in turn.  This comes to an end when a function is drawn that spreads the keys
of the table: it is kept from then on.
-/

namespace EventSeq

open Lib

namespace HashTable

variable {κ ν : Type}

/-! ## Tables that are being filled -/

/-- A table of the capacity `c` into which keys of `K` have been inserted, each once. -/
structure Filled (preHash : κ → UInt64) (c : Nat) (K : Finset κ) (ht : HashTable κ ν) : Prop where
  wf : ht.WellFormed preHash
  compact : ht.Compact preHash
  capacity : ht.capacity = c
  keys : ∀ i k, ht.keyAt i = some k → k ∈ K
  counted : ht.Counted

/-- The keys can be inserted into a table of the capacity `c` without its growing. -/
def Fits (c : Nat) (K : Finset κ) : Prop := (K.card - 1) + (K.card - 1) / 2 < c

/-- While keys of `K` are inserted, this hash function is not given up. -/
def Calm (ν : Type) [DecidableEq κ] (preHash : κ → UInt64) (c : Nat) (K : Finset κ)
    (member : HashFamilyMember) : Prop :=
  ∀ ht : HashTable κ ν, Filled preHash c K ht → ht.familyMember = member → ∀ k ∈ K, ∀ r,
    insertProbe ht ⟨some k, preHash k⟩ c (ht.base preHash k) 0 false = .ok (some r) →
    r.preHashCollision = false → 2 * r.collisionOffset ≤ c + 6

/-- From draw number `draws` on there comes, for each part of the keys of the table and `k` that it has
room for at its size or the next, a hash function that is not given up. -/
def DrawsSpread (ν : Type) [DecidableEq κ] (preHash : κ → UInt64) (members : Nat → HashFamilyMember)
    (draws : Nat) (ht : HashTable κ ν) (k : κ) : Prop :=
  ∀ (c : Nat) (K : Finset κ), (c = ht.capacity ∨ c = ht.capacity + (ht.capacity / 2 + 1)) →
    (∀ k' ∈ K, k' = k ∨ ∃ i, ht.keyAt i = some k') → Fits c K →
    ∃ M ≥ draws, Calm ν preHash c K (members M)

/-- A calm function has been drawn for the table, or draw number `M` is still to come. -/
def Settles [DecidableEq κ] (preHash : κ → UInt64) (c : Nat) (K : Finset κ) (M draws : Nat)
    (ht : HashTable κ ν) : Prop :=
  draws ≤ M ∨ Calm ν preHash c K ht.familyMember

/-- From draw number `start` on the insertion function returns for absent keys of `K`. -/
def Completes [DecidableEq κ] (preHash : κ → UInt64) (c : Nat) (K : Finset κ) (M : Nat)
    (insert : InsertFunction κ ν) (start : Nat) : Prop :=
  ∀ {ht : HashTable κ ν} {m k v draws}, start ≤ draws → Settles preHash c K M draws ht →
    Filled preHash c K ht → ht.Represents m → k ∈ K → m k = none →
    ∃ i ht' draws', insert ht ⟨some k, preHash k⟩ v draws = .ok (i, ht', draws') ∧ 0 ≤ i ∧
      Filled preHash c K ht' ∧ ht'.Represents (Function.update m k (some v)) ∧
      Settles preHash c K M draws' ht' ∧ draws ≤ draws'

section

variable {preHash : κ → UInt64} {ht ht' : HashTable κ ν} {m : κ → Option ν} {k : κ} {v : ν} {c M : Nat}
  {K : Finset κ} {r : ProbeResult}

theorem createTable_filled [Inhabited ν] (hcap : 5 ≤ c) (member : HashFamilyMember) :
    Filled preHash c K (createTable c member : HashTable κ ν) := by
  have wf := @createTable_wellFormed κ ν preHash _ c hcap member
  have hr := @createTable_represents κ ν _ c member
  exact ⟨wf, fun k => hr.noHoleBefore_of_none wf.shaped rfl, rfl,
    fun i k hi => absurd hi (hr.keyAt_ne wf.shaped rfl i), createTable_counted c member⟩

/-- An absent key of `K` finds room. -/
theorem Filled.room [DecidableEq κ] (h : Filled preHash c K ht) (hfits : Fits c K) (hk : k ∈ K)
    (habsent : ∀ i, ht.keyAt i ≠ some k) : ¬ht.GrowsOnInsert ∧ ht.length + 1 < c := by
  have hsub : ht.occupied.image ht.keyAt ⊆ (K.erase k).image some := by
    intro x hx
    obtain ⟨j, hj, rfl⟩ := Finset.mem_image.mp hx
    obtain ⟨k', hk'⟩ := Option.isSome_iff_exists.mp (Finset.mem_filter.mp hj).2
    have hne : k' ≠ k := by
      rintro rfl
      exact habsent j hk'
    rw [hk']
    exact Finset.mem_image_of_mem some (Finset.mem_erase.mpr ⟨hne, h.keys j k' hk'⟩)
  -- The occupied slots hold different keys of `K`, none of which is `k`.
  have hcard : ht.length ≤ K.card - 1 := by
    rw [h.counted, ← Finset.card_erase_of_mem hk,
      ← Finset.card_image_of_injOn (keyAt_injOn h.wf.distinct)]
    exact (Finset.card_le_card hsub).trans Finset.card_image_le
  have hfive := h.wf.capacity_ge
  have hroom : ht.length + ht.length / 2 < c := lt_of_le_of_lt (by omega) hfits
  rw [h.capacity] at hfive
  refine ⟨?_, by omega⟩
  unfold GrowsOnInsert
  rw [h.capacity]
  omega

/-- The writes of an insertion of an absent key. -/
theorem Filled.written {length : Nat} (h : Filled preHash c K ht) (hs : IsSlotFor preHash ht k r)
    (hw : WrittenAt preHash ht ht' k v (ht.base preHash k) r.currentIndex r.collisionOffset)
    (hk : k ∈ K) (habsent : ∀ i, ht.keyAt i ≠ some k) (hlength : ht'.length = length + 1)
    (hwas : length = ht.length) (wf' : ht'.WellFormed preHash) : Filled preHash c K ht' := by
  have hlt : r.currentIndex < ht.capacity := hs.index_eq ▸ h.wf.layout.path_lt k _
  refine ⟨wf', hw.compact hs h.compact, hw.capacity.trans h.capacity, fun i k' hi => ?_, ?_⟩
  · rcases hw.keyAt_eq_some hi with ⟨-, rfl⟩ | ⟨-, hold⟩
    · exact hk
    · exact h.keys i k' hold
  · rw [Counted, hlength, hw.card_occupied hlt (hs.keyAt_of_absent habsent), hwas, h.counted]

/-- A probe for a key of `K` passes by no more slots than there are other keys. -/
theorem Filled.offset_le [DecidableEq κ] (h : Filled preHash c K ht) (hk : k ∈ K)
    (hs : IsSlotFor preHash ht k r) : r.collisionOffset ≤ K.card - 1 := by
  have hinj : Set.InjOn (fun o => ht.keyAt (ht.path preHash k o)) (Finset.range r.collisionOffset) := by
    intro o ho o' ho' heq
    have hlt := Finset.mem_range.mp (Finset.mem_coe.mp ho)
    have hlt' := Finset.mem_range.mp (Finset.mem_coe.mp ho')
    obtain ⟨k', hk'⟩ := Option.ne_none_iff_exists'.mp (hs.before o hlt).1
    have hpath := h.wf.distinct _ _ k' hk' (heq.symm.trans hk')
    exact probe_injective (hlt.trans hs.offset_lt) (hlt'.trans hs.offset_lt) hpath
  have hsub : (Finset.range r.collisionOffset).image (fun o => ht.keyAt (ht.path preHash k o)) ⊆
      (K.erase k).image some := by
    intro x hx
    obtain ⟨o, ho, rfl⟩ := Finset.mem_image.mp hx
    obtain ⟨hsome, hne⟩ := hs.before o (Finset.mem_range.mp ho)
    obtain ⟨k', hk'⟩ := Option.ne_none_iff_exists'.mp hsome
    have hother : k' ≠ k := by
      rintro rfl
      exact hne hk'
    show ht.keyAt (ht.path preHash k o) ∈ _
    rw [hk']
    exact Finset.mem_image_of_mem some (Finset.mem_erase.mpr ⟨hother, h.keys _ k' hk'⟩)
  have hcard := (Finset.card_le_card hsub).trans Finset.card_image_le
  rwa [Finset.card_image_of_injOn hinj, Finset.card_range, Finset.card_erase_of_mem hk] at hcard

/-- Few keys are spread by every function. -/
theorem calm_of_few [DecidableEq κ] (hfew : 2 * (K.card - 1) ≤ c + 6) (member : HashFamilyMember) :
    Calm ν preHash c K member := by
  intro ht h _ k hk r hprobe _
  obtain ⟨res, hrun, hres⟩ := insertProbe_base h.wf.shaped h.wf.layout.capacity_pos k
  rw [h.capacity, hprobe] at hrun
  cases hrun
  have hle := h.offset_le hk hres
  omega

/-- In a table of up to 13 slots, and in one of up to 20 after it has grown, the keys are always few. -/
theorem drawsSpread_of_small [DecidableEq κ] {members : Nat → HashFamilyMember} {draws : Nat}
    (hsmall : ht.capacity ≤ 13) : DrawsSpread ν preHash members draws ht k := by
  intro c K hc _ hfits
  refine ⟨draws, le_rfl, calm_of_few ?_ _⟩
  unfold Fits at hfits
  omega

/-- The table holds some of the keys it held, in as many slots. -/
structure Shrinks (ht ht' : HashTable κ ν) : Prop where
  capacity : ht'.capacity = ht.capacity
  keyAt : ∀ i k, ht'.keyAt i = some k → ht.keyAt i = some k

theorem Shrinks.refl (ht : HashTable κ ν) : ht.Shrinks ht := ⟨rfl, fun _ _ => id⟩

theorem Shrinks.trans {ht'' : HashTable κ ν} (h : ht.Shrinks ht') (h' : ht'.Shrinks ht'') :
    ht.Shrinks ht'' :=
  ⟨h'.capacity.trans h.capacity, fun i k hi => h.keyAt i k (h'.keyAt i k hi)⟩

theorem DrawsSpread.shrinks [DecidableEq κ] {members : Nat → HashFamilyMember} {draws : Nat}
    (h : DrawsSpread ν preHash members draws ht k) (hshrinks : ht.Shrinks ht') :
    DrawsSpread ν preHash members draws ht' k := by
  intro c K hc hK
  rw [hshrinks.capacity] at hc
  exact h c K hc fun k' hk' => (hK k' hk').imp_right fun ⟨i, hi⟩ => ⟨i, hshrinks.keyAt i k' hi⟩

theorem hashTableDeleteByKeyImpl_shrinks [DecidableEq κ] [Inhabited ν] {key : HashTableKey κ} {b : Bool}
    (h : hashTableDeleteByKeyImpl ht key = .ok (b, ht')) : ht.Shrinks ht' := by
  obtain ⟨index, -, h⟩ := (bind_eq_ok_iff _ _ _).mp h
  rw [hashTableDeleteAtIndexImpl] at h
  split at h
  · cases h
    exact .refl ht
  · obtain ⟨entry, -, h⟩ := (bind_eq_ok_iff _ _ _).mp h
    split at h
    · cases h
      exact .refl ht
    · obtain ⟨values, -, h⟩ := (bind_eq_ok_iff _ _ _).mp h
      cases h
      refine ⟨rfl, fun i k hi => ?_⟩
      rw [keyAt_clearSlot] at hi
      split at hi
      · cases hi
      · exact hi

/-! ## Filling a table -/

variable [DecidableEq κ] {insert : InsertFunction κ ν} {draws start : Nat}

theorem copyEntries_completes (hins : Completes preHash c K M insert start)
    (pairs : List (HashTableKeyEntry κ × ν))
    (hpre : ∀ p ∈ pairs, ∀ k, p.1.key.bytes = some k →
      p.1.key.preHash = preHash k ∧ k ∈ K ∧ m k = none)
    (hdistinct : pairs.Pairwise fun p q => ∀ k, p.1.key.bytes = some k → q.1.key.bytes ≠ some k)
    (hstart : start ≤ draws) (hsettles : Settles preHash c K M draws ht)
    (h : Filled preHash c K ht) (hr : ht.Represents m) :
    ∃ ht' draws', copyEntries insert pairs ht draws = .ok (some ht', draws') ∧
      Filled preHash c K ht' ∧ Settles preHash c K M draws' ht' ∧ draws ≤ draws' := by
  induction pairs generalizing ht m draws with
  | nil => exact ⟨ht, draws, rfl, h, hsettles, le_rfl⟩
  | cons pair rest ih =>
      obtain ⟨entry, value⟩ := pair
      have hpre' := fun p hp => hpre p (List.mem_cons_of_mem _ hp)
      obtain ⟨hfirst, hdistinct'⟩ := List.pairwise_cons.mp hdistinct
      cases hbytes : entry.key.bytes with
      | none =>
          simp only [copyEntries, hbytes]
          exact ih hpre' hdistinct' hstart hsettles h hr
      | some k₀ =>
          obtain ⟨hhash, hk₀, habsent⟩ := hpre _ List.mem_cons_self k₀ hbytes
          have hkey : entry.key = ⟨some k₀, preHash k₀⟩ := by rw [← hbytes, ← hhash]
          obtain ⟨i, ht₁, draws₁, hrun, hi, h₁, hr₁, hsettles₁, hle₁⟩ :=
            @hins ht m k₀ value draws hstart hsettles h hr hk₀ habsent
          -- the keys that are still to be copied are absent from the new table
          have hpre_rest : ∀ p ∈ rest, ∀ k, p.1.key.bytes = some k → p.1.key.preHash = preHash k ∧
              k ∈ K ∧ Function.update m k₀ (some value) k = none := by
            intro p hp k hk
            have hne : k ≠ k₀ := by
              rintro rfl
              exact hfirst p hp k hbytes hk
            rw [Function.update_of_ne hne]
            exact hpre' p hp k hk
          obtain ⟨ht₂, draws₂, hrest, h₂, hsettles₂, hle₂⟩ :=
            ih hpre_rest hdistinct' (hstart.trans hle₁) hsettles₁ h₁ hr₁
          refine ⟨ht₂, draws₂, ?_, h₂, hsettles₂, hle₁.trans hle₂⟩
          simp only [copyEntries, hkey, hrun, bind, Except.bind, if_neg (not_lt.mpr hi)]
          exact hrest

/-- A table whose keys are in `K` is rebuilt. -/
theorem rebuildTable_completes [Inhabited ν] {member : HashFamilyMember}
    (hins : Completes preHash c K M insert start) (hcap : 5 ≤ c) (wf : ht.WellFormed preHash)
    (hkeys : ∀ i k, ht.keyAt i = some k → k ∈ K) (hstart : start ≤ draws)
    (hsettles : draws ≤ M ∨ Calm ν preHash c K member) :
    ∃ ht' draws', rebuildTable insert ht c member draws = .ok (ht', draws') ∧
      Filled preHash c K ht' ∧ Settles preHash c K M draws' ht' ∧ draws ≤ draws' := by
  have hpre : ∀ p ∈ ht.keyArray.zip ht.valueArray, ∀ k, p.1.key.bytes = some k →
      p.1.key.preHash = preHash k ∧ k ∈ K ∧ (none : Option ν) = none := by
    intro p hp k hk
    obtain ⟨hhash, j, hj, -⟩ := wf.shaped.entry_of_mem_zip hp hk
    exact ⟨hhash, hkeys j k hj, rfl⟩
  obtain ⟨ht', draws', hcopy, h', hsettles', hle⟩ :=
    @copyEntries_completes κ ν preHash (createTable c member) _ c M K _ insert draws start hins _ hpre
      (zip_distinct wf.distinct) hstart hsettles (createTable_filled hcap member)
      (createTable_represents c member)
  refine ⟨ht', draws', ?_, h', hsettles', hle⟩
  simp only [rebuildTable, wf.shaped.slots_ok, hcopy, bind, Except.bind]
  rfl

/-- After draw number `M` the function of the table is kept. -/
theorem Settles.kept (hsettles : Settles preHash c K M draws ht) (h : Filled preHash c K ht)
    (hk : k ∈ K) : M < draws → ∀ r,
      insertProbe ht ⟨some k, preHash k⟩ c (ht.base preHash k) 0 false = .ok (some r) →
      r.preHashCollision = false → 2 * r.collisionOffset ≤ c + 6 := by
  intro hlate
  rcases hsettles with hle | hcalm
  · omega
  · exact hcalm ht h rfl k hk

/-- The rest of an insertion returns, when the hash function is not given up after draw number `M`. -/
theorem insertGrown_completes [Inhabited ν] {members : Nat → HashFamilyMember} {length : Nat}
    (hins : draws ≤ M → Completes preHash c K M insert (draws + 1))
    (hcalm : Calm ν preHash c K (members M)) (wf : ht.WellFormed preHash) (hr : ht.Represents m)
    (hcap : ht.capacity = c) (hkeys : ∀ i k, ht.keyAt i = some k → k ∈ K) (hk : k ∈ K)
    (habsent : m k = none) (hcard : ht.occupied.card ≤ length) (hlen : length + 1 < c)
    (hkept : M < draws → ∀ r,
      insertProbe ht ⟨some k, preHash k⟩ c (ht.base preHash k) 0 false = .ok (some r) →
      r.preHashCollision = false → 2 * r.collisionOffset ≤ c + 6) :
    ∃ i ht' draws',
      insertGrown members insert length ht ⟨some k, preHash k⟩ v draws = .ok (i, ht', draws') ∧
      0 ≤ i ∧ (Filled preHash c K ht → length = ht.length → Filled preHash c K ht') ∧
      (Settles preHash c K M draws ht → Settles preHash c K M draws' ht') ∧ draws ≤ draws' := by
  subst hcap
  have hole := hr.noHoleBefore_of_none wf.shaped habsent
  have hnot := hr.keyAt_ne wf.shaped habsent
  obtain ⟨r, written, hprobe, hs, hlength, hw, hrun⟩ :=
    insertGrown_eq members insert wf.shaped k v draws (Nat.lt_of_succ_lt hlen)
      (exists_empty preHash wf.layout.occupied_lt k)
  have wf' := hw.wellFormed wf hs hole hcard hlen hlength
  have hkeys' : ∀ i k', written.keyAt i = some k' → k' ∈ K := by
    intro i k' hi
    rcases hw.keyAt_eq_some hi with ⟨-, rfl⟩ | ⟨-, hold⟩
    · exact hk
    · exact hkeys i k' hold
  rw [hrun]
  by_cases hlong : r.preHashCollision = false ∧ 2 * r.collisionOffset > ht.capacity + 6
  · -- a function that is given up is not yet the calm one
    have hdraws : draws ≤ M := by
      by_contra hlate
      have hshort := hkept (not_le.mp hlate) r hprobe hlong.1
      omega
    have hsettles : draws + 1 ≤ M ∨ Calm ν preHash ht.capacity K (members draws) := by
      rcases Nat.lt_or_eq_of_le hdraws with hlt | rfl
      · exact .inl hlt
      · exact .inr hcalm
    obtain ⟨ht', draws', hrebuild, h', hsettles', hle⟩ :=
      rebuildTable_completes (hins hdraws) wf.capacity_ge wf' hkeys' le_rfl hsettles
    rw [← hw.capacity] at hrebuild
    rw [if_pos hlong, hashTableChangeHash, hrebuild]
    exact ⟨_, _, _, rfl, Int.natCast_nonneg _, fun _ _ => h', fun _ => hsettles', by omega⟩
  · rw [if_neg hlong]
    refine ⟨_, _, _, rfl, Int.natCast_nonneg _, fun h hwas => ?_, fun h => ?_, le_rfl⟩
    · exact h.written hs hw hk hnot hlength hwas wf'
    · rw [Settles, hw.familyMember]
      exact h

/-- With the calm function in reach of the nesting, insertions into a table that is being filled
return. -/
theorem hashTableInsertImpl_completes [Inhabited ν] {members : Nat → HashFamilyMember}
    (hfits : Fits c K) (hcalm : Calm ν preHash c K (members M)) {depth : Nat} (hdepth : 0 < depth)
    (hreach : M + 1 < depth + start) :
    Completes preHash c K M (@hashTableInsertImpl κ ν _ _ members depth) start := by
  -- Nesting once more costs a draw, so that depth and draws together stay within reach.
  induction depth generalizing start with
  | zero => exact absurd hdepth (Nat.lt_irrefl 0)
  | succ depth ih =>
      intro ht m k v draws hstart hsettles h hr hk habsent
      have hnot := hr.keyAt_ne h.wf.shaped habsent
      obtain ⟨hroom, hlen⟩ := h.room hfits hk hnot
      have hnext : draws ≤ M →
          Completes preHash c K M (hashTableInsertImpl members depth) (draws + 1) := fun hle =>
        ih (by omega) (by omega)
      obtain ⟨i, ht', draws', hrun, hi, hfilled, hsettles', hle⟩ :=
        insertGrown_completes hnext hcalm h.wf hr h.capacity h.keys hk habsent h.wf.occupied_le hlen
          (hsettles.kept h hk)
      have hrun' : hashTableInsertImpl members (depth + 1) ht ⟨some k, preHash k⟩ v draws =
          .ok (i, ht', draws') := by
        simp only [hashTableInsertImpl, if_neg hroom, bind, Except.bind]
        exact hrun
      have hole := hr.noHoleBefore_of_none h.wf.shaped habsent
      have hinserted := hashTableInsertImpl_spec members (depth + 1) h.wf hr (.inr hole) hrun'
      exact ⟨i, ht', draws', hrun', hi, hfilled h rfl, hinserted.represents, hsettles' hsettles, hle⟩

/-! ## An insertion into any table -/

/-- The keys of a table. -/
def keys (ht : HashTable κ ν) : Finset κ := ht.occupied.biUnion fun i => (ht.keyAt i).toFinset

theorem exists_of_mem_keys (h : k ∈ ht.keys) : ∃ i, ht.keyAt i = some k := by
  obtain ⟨i, -, hi⟩ := Finset.mem_biUnion.mp h
  exact ⟨i, Option.mem_toFinset.mp hi⟩

theorem WellFormed.mem_keys (wf : ht.WellFormed preHash) {i : Nat} (hi : ht.keyAt i = some k) :
    k ∈ ht.keys := by
  exact Finset.mem_biUnion.mpr ⟨i, wf.shaped.mem_occupied hi, by simp [hi]⟩

theorem WellFormed.keys_card_le (wf : ht.WellFormed preHash) : ht.keys.card ≤ ht.length := by
  have hone : ∀ i ∈ ht.occupied, (ht.keyAt i).toFinset.card ≤ 1 := by
    intro i _
    cases ht.keyAt i <;> simp
  have hcard := Finset.card_biUnion_le_card_mul _ _ 1 hone
  rw [Nat.mul_one] at hcard
  exact hcard.trans wf.occupied_le

/-- When the draws spread the keys an insertion of an absent key returns, if it may nest deep enough. -/
theorem hashTableInsertImpl_returns [Inhabited ν] {members : Nat → HashFamilyMember}
    (hspread : DrawsSpread ν preHash members draws ht k) (wf : ht.WellFormed preHash) (hr : ht.Represents m)
    (habsent : m k = none) :
    ∃ bound, ∀ depth ≥ bound, ∃ r,
      hashTableInsertImpl members depth ht ⟨some k, preHash k⟩ v draws = .ok r := by
  -- the keys that a table has to hold: those it has and the new one
  let K : Finset κ := insert k ht.keys
  have hK : K.card ≤ ht.length + 1 :=
    (Finset.card_insert_le _ _).trans (Nat.add_le_add_right wf.keys_card_le 1)
  have hk : k ∈ K := Finset.mem_insert_self k _
  have hkeys : ∀ i k', ht.keyAt i = some k' → k' ∈ K := fun i k' hi =>
    Finset.mem_insert_of_mem (wf.mem_keys hi)
  have hmem : ∀ k' ∈ K, k' = k ∨ ∃ i, ht.keyAt i = some k' := by
    intro k' hk'
    rcases Finset.mem_insert.mp hk' with rfl | hk'
    · exact .inl rfl
    · exact .inr (exists_of_mem_keys hk')
  have hlt := wf.length_lt
  have hfive := wf.capacity_ge
  by_cases hgrows : ht.GrowsOnInsert
  · -- the table grows, with the same function, and takes the key then
    let c := ht.capacity + (ht.capacity / 2 + 1)
    have hfits : Fits c K := by
      unfold Fits
      omega
    obtain ⟨M, hM, hcalm⟩ := hspread c K (.inr rfl) hmem hfits
    refine ⟨M + 3, fun depth hdepth => ?_⟩
    obtain ⟨depth, rfl⟩ := Nat.exists_eq_add_one.mpr (show 0 < depth by omega)
    have hins : Completes preHash c K M (hashTableInsertImpl members depth) draws :=
      hashTableInsertImpl_completes hfits hcalm (by omega) (by omega)
    obtain ⟨grown, draws', hgrow, h, hsettles, hle⟩ :=
      @rebuildTable_completes κ ν preHash ht c M K _ _ draws draws _ ht.familyMember hins (by omega) wf
        hkeys le_rfl (.inl hM)
    obtain ⟨-, hr', -, -⟩ := rebuildTable_spec
      (hashTableInsertImpl_insertsAbsent members depth) (by omega) wf hr hgrow
    have hcard := (occupied_card_le_of_represents wf.shaped h.wf.shaped h.wf.distinct hr hr').trans
      wf.occupied_le
    obtain ⟨i, ht', draws'', hrun, -⟩ :=
      @insertGrown_completes κ ν preHash grown m k v c M K _ (hashTableInsertImpl members depth)
        draws' _ members ht.length
        (fun _ => hashTableInsertImpl_completes hfits hcalm (by omega) (by omega)) hcalm h.wf hr'
        h.capacity h.keys hk habsent hcard (by omega) (hsettles.kept h hk)
    refine ⟨(i, ht', draws''), ?_⟩
    simp only [hashTableInsertImpl, if_pos hgrows, hashTableGrow, bind, Except.bind]
    rw [hgrow]
    exact hrun
  · have hfits : Fits ht.capacity K := by
      unfold GrowsOnInsert at hgrows
      unfold Fits
      omega
    obtain ⟨M, hM, hcalm⟩ := hspread ht.capacity K (.inl rfl) hmem hfits
    refine ⟨M + 3, fun depth hdepth => ?_⟩
    obtain ⟨depth, rfl⟩ := Nat.exists_eq_add_one.mpr (show 0 < depth by omega)
    have hroom : ¬ht.length + ht.length / 2 ≥ ht.capacity := hgrows
    obtain ⟨i, ht', draws', hrun, -⟩ :=
      @insertGrown_completes κ ν preHash ht m k v ht.capacity M K _ (hashTableInsertImpl members depth)
        draws _ members ht.length
        (fun _ => hashTableInsertImpl_completes hfits hcalm (by omega) (by omega)) hcalm wf hr rfl
        hkeys hk habsent wf.occupied_le (by omega) (fun hlate => by omega)
    refine ⟨(i, ht', draws'), ?_⟩
    simp only [hashTableInsertImpl, if_neg hgrows, bind, Except.bind]
    exact hrun

end

end HashTable

end EventSeq
