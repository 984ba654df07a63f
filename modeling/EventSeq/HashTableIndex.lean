import EventSeq.HashTableLength

/-!
# The index an insertion returns

The index is computed before the hash function is changed: it is that of the key in a table that no
longer exists.  A growth comes before, and does it no harm.
-/

namespace EventSeq

open Lib

namespace HashTable

variable {κ ν : Type}

/-- The probe of an insertion of `k` ends after `o` steps. -/
def ProbeEnds (preHash : κ → UInt64) (ht : HashTable κ ν) (k : κ) (o : Nat) : Prop :=
  (ht.keyAt (ht.path preHash k o) = none ∨ ht.keyAt (ht.path preHash k o) = some k) ∧
    ∀ o' < o, ht.keyAt (ht.path preHash k o') ≠ none ∧ ht.keyAt (ht.path preHash k o') ≠ some k

/-- The probe for `k` takes so many steps, past keys of other pre-hashes, that the hash function is
changed. -/
def Rehashes (preHash : κ → UInt64) (ht : HashTable κ ν) (k : κ) : Prop :=
  ∃ o < ht.capacity, ht.ProbeEnds preHash k o ∧ ht.ChangesHash preHash k o

section

variable [DecidableEq κ] (preHash : κ → UInt64) (ht : HashTable κ ν) (k : κ)

instance (o : Nat) : Decidable (ht.ProbeEnds preHash k o) := inferInstanceAs (Decidable (_ ∧ _))

instance : Decidable (ht.Rehashes preHash k) := inferInstanceAs (Decidable (∃ o < _, _))

end

/-- The index is that of a slot that holds the pair, and a find of the key returns it. -/
structure ValidIndex [DecidableEq κ] (preHash : κ → UInt64) (ht : HashTable κ ν) (k : κ) (v : ν)
    (i : Int) : Prop where
  key : ht.keyAt i.toNat = some k
  value : ht.valueArray[i.toNat]? = some v
  found : hashTableFindImpl ht (hashTableKeyFromBytes preHash (some k)) = .ok i

section

variable [DecidableEq κ] [Inhabited ν] {preHash : κ → UInt64} {ht ht' : HashTable κ ν}
  {m : κ → Option ν} {k : κ} {v : ν} {i : Int} {draws draws' length : Nat}
  {members : Nat → HashFamilyMember} {insert : InsertFunction κ ν}

omit [Inhabited ν] in
/-- In the table that an insertion leaves, the index is valid if its slot holds the key. -/
theorem Inserted.validIndex (h : Inserted preHash ht ht' m k v i)
    (hkey : ht'.keyAt i.toNat = some k) : ht'.ValidIndex preHash k v i := by
  obtain ⟨i', hfind, hres⟩ := hashTableFindImpl_spec h.wellFormed h.represents k
  rw [Function.update_self] at hres
  obtain ⟨j, rfl, hj, hv⟩ := hres
  have hij : j = i.toNat := h.wellFormed.distinct j i.toNat k hj hkey
  subst hij
  rw [Int.toNat_of_nonneg h.nonneg] at hfind
  exact ⟨hkey, hv, hfind⟩

/-- Unless it changes the hash function, an insertion leaves the key in the slot it has found. -/
theorem insertGrown_keyAt (lay : ht.Layout preHash) (hroom : length < ht.capacity)
    (hkeep : ¬ht.Rehashes preHash k)
    (hrun : insertGrown members insert length ht ⟨some k, preHash k⟩ v draws = .ok (i, ht', draws')) :
    ht'.keyAt i.toNat = some k := by
  obtain ⟨r, written, hprobe, hs, -, hw, heq⟩ :=
    insertGrown_eq members insert lay.shaped k v draws hroom (exists_empty preHash lay.occupied_lt k)
  have hends : ht.ProbeEnds preHash k r.collisionOffset := by
    have hslot := hs.slot
    rw [hs.index_eq] at hslot
    refine ⟨?_, hs.before⟩
    split at hslot
    · exact .inr hslot
    · exact .inl hslot
  have hkept : ¬(r.preHashCollision = false ∧ 2 * r.collisionOffset > ht.capacity + 6) :=
    fun hchanges => hkeep ⟨_, hs.offset_lt, hends, changesHash_of_probe lay hprobe hchanges⟩
  rw [heq, if_neg hkept] at hrun
  cases hrun
  rw [hw.keyAt, Int.toNat_natCast, if_pos rfl]

/-! ## The load of the tables that insertions leave -/

/-- Without the last insertion the table would not grow. -/
def Roomy (ht : HashTable κ ν) : Prop := ht.length - 1 + (ht.length - 1) / 2 < ht.capacity

theorem insertGrown_roomy (hins : InsertsAbsent preHash insert) (hkeeps : Keeps preHash Roomy insert)
    (wf : ht.WellFormed preHash) (hr : ht.Represents m) (hole : ht.NoHoleBefore preHash k)
    (hcard : ht.occupied.card ≤ length) (hroom : length + length / 2 < ht.capacity)
    (h : insertGrown members insert length ht ⟨some k, preHash k⟩ v draws = .ok (i, ht', draws')) :
    ht'.Roomy := by
  have hfive := wf.capacity_ge
  have hlen : length + 1 < ht.capacity := by omega
  obtain ⟨r, written, -, hs, hlength, hw, hrun⟩ :=
    insertGrown_eq members insert wf.shaped k v draws (Nat.lt_of_succ_lt hlen)
      (exists_empty preHash wf.layout.occupied_lt k)
  have wf' := hw.wellFormed wf hs hole hcard hlen hlength
  have hr' := hw.represents wf.shaped (hs.index_eq ▸ wf.layout.path_lt k _) hs.slot
    (fun _ => hs.unique wf hole) hr
  rw [hrun] at h
  split at h
  · obtain ⟨⟨rebuilt, draws₁⟩, hchange, ⟨⟩⟩ := (bind_eq_ok_iff _ _ _).mp h
    have hempty : (createTable written.capacity (members draws) : HashTable κ ν).Roomy :=
      show 0 - 1 + (0 - 1) / 2 < written.capacity from wf'.layout.capacity_pos
    exact (rebuildTable_keeps hins hkeeps wf'.capacity_ge hempty wf'.layout wf'.distinct hr'
      hchange).2.2.2.2
  · cases h
    rw [Roomy, hlength, hw.capacity]
    exact hroom

theorem hashTableInsertImpl_roomy (depth : Nat) (wf : ht.WellFormed preHash) (hr : ht.Represents m)
    (hole : ht.NoHoleBefore preHash k)
    (h : hashTableInsertImpl members depth ht ⟨some k, preHash k⟩ v draws = .ok (i, ht', draws')) :
    ht'.Roomy := by
  induction depth generalizing ht ht' m k v i draws draws' with
  | zero => cases h
  | succ depth ih =>
      have hins : InsertsAbsent preHash (@hashTableInsertImpl κ ν _ _ members depth) :=
        hashTableInsertImpl_insertsAbsent members depth
      have hkeeps : Keeps preHash Roomy (@hashTableInsertImpl κ ν _ _ members depth) :=
        fun wf hr hk _ h => ih wf hr (hr.noHoleBefore_of_none wf.shaped hk) h
      have hfive := wf.capacity_ge
      have hlen := wf.length_lt
      by_cases hgrows : ht.GrowsOnInsert
      · simp only [hashTableInsertImpl, if_pos hgrows, bind_eq_ok_iff] at h
        obtain ⟨⟨grown, newDraws⟩, hgrow, h⟩ := h
        obtain ⟨wf', hr', hc', hcap⟩ := rebuildTable_spec hins (by omega) wf hr hgrow
        have hcard := occupied_card_le_of_represents wf.shaped wf'.shaped wf'.distinct hr hr'
        exact insertGrown_roomy hins hkeeps wf' hr' (hc' k) (le_trans hcard wf.occupied_le)
          (by omega) h
      · simp only [hashTableInsertImpl, if_neg hgrows, bind_eq_ok_iff] at h
        obtain ⟨_, ⟨⟩, h⟩ := h
        exact insertGrown_roomy hins hkeeps wf hr hole wf.occupied_le (not_le.mp hgrows) h

omit [DecidableEq κ] [Inhabited ν] in
/-- A probe steps over occupied slots only. -/
theorem ProbeEnds.le_card {o : Nat} (h : ht.ProbeEnds preHash k o) (hpos : 0 < ht.capacity)
    (ho : o < ht.capacity) : o ≤ ht.occupied.card := by
  have hinj : Set.InjOn (ht.path preHash k) (Finset.range o) := fun a ha b hb hab =>
    probe_injective ((Finset.mem_range.mp ha).trans ho) ((Finset.mem_range.mp hb).trans ho) hab
  have hsub : (Finset.range o).image (ht.path preHash k) ⊆ ht.occupied := by
    intro j hj
    obtain ⟨o', ho', rfl⟩ := Finset.mem_image.mp hj
    refine Finset.mem_filter.mpr ⟨Finset.mem_range.mpr (path_lt preHash hpos k o'), ?_⟩
    exact Option.isSome_iff_ne_none.mpr (h.2 o' (Finset.mem_range.mp ho')).1
  calc o = (Finset.range o).card := (Finset.card_range o).symm
    _ = ((Finset.range o).image (ht.path preHash k)).card := (Finset.card_image_of_injOn hinj).symm
    _ ≤ ht.occupied.card := Finset.card_le_card hsub

omit [DecidableEq κ] [Inhabited ν] in
/-- After a growth too few slots are occupied for a probe that is too long. -/
theorem Roomy.not_rehashes_grown {grown : HashTable κ ν} (h : ht.Roomy) (wf : ht.WellFormed preHash)
    (hr : ht.Represents m) (wf' : grown.WellFormed preHash) (hr' : grown.Represents m)
    (hcap : ht.capacity + (ht.capacity / 2 + 1) ≤ grown.capacity) : ¬grown.Rehashes preHash k := by
  rintro ⟨o, ho, hends, hlong, -⟩
  have hpassed := hends.le_card wf'.layout.capacity_pos ho
  have hcard := occupied_card_le_of_represents wf.shaped wf'.shaped wf'.distinct hr hr'
  have hlength := wf.occupied_le
  unfold Roomy at h
  omega

/-- The slot of the index holds the key, unless the hash function was changed, which never happens
right after a growth. -/
theorem hashTableInsertImpl_keyAt {depth : Nat} (wf : ht.WellFormed preHash) (hr : ht.Represents m)
    (hroomy : ht.Roomy) (hkeep : ht.GrowsOnInsert ∨ ¬ht.Rehashes preHash k)
    (h : hashTableInsertImpl members depth ht ⟨some k, preHash k⟩ v draws = .ok (i, ht', draws')) :
    ht'.keyAt i.toNat = some k := by
  have hfive := wf.capacity_ge
  have hlen := wf.length_lt
  cases depth with
  | zero => cases h
  | succ depth =>
      by_cases hgrows : ht.GrowsOnInsert
      · simp only [hashTableInsertImpl, if_pos hgrows, bind_eq_ok_iff] at h
        obtain ⟨⟨grown, newDraws⟩, hgrow, h⟩ := h
        obtain ⟨wf', hr', -, hcap⟩ := rebuildTable_spec
          (hashTableInsertImpl_insertsAbsent members depth) (by omega) wf hr hgrow
        exact insertGrown_keyAt wf'.layout (by omega)
          (hroomy.not_rehashes_grown wf hr wf' hr' hcap) h
      · simp only [hashTableInsertImpl, if_neg hgrows, bind_eq_ok_iff] at h
        obtain ⟨_, ⟨⟩, h⟩ := h
        exact insertGrown_keyAt wf.layout hlen (hkeep.resolve_left hgrows) h

end

end HashTable

/-! ## Runs of insertions -/

open HashTable

section

variable {κ ν : Type} [DecidableEq κ] [Inhabited ν]

/-- An insertion of a pair, labelled with the index it returns. -/
def InsertStep (preHash : κ → UInt64) (members : Nat → HashFamilyMember) (s : TableState κ ν)
    (l : (κ × ν) × Int) (s' : TableState κ ν) : Prop :=
  ∃ depth, s.call preHash members depth (.insert l.1.1 l.1.2) = .ok (.index l.2, s')

/-- The insertion of `k` grows the table, or the probe for `k` is not too long. -/
def TableState.KeepsHash (preHash : κ → UInt64) (s : TableState κ ν) (k : κ) : Prop :=
  s.ht.GrowsOnInsert ∨ ¬s.ht.Rehashes preHash k

instance (preHash : κ → UInt64) (s : TableState κ ν) (k : κ) : Decidable (s.KeepsHash preHash k) :=
  inferInstanceAs (Decidable (_ ∨ _))

/-- A table made by insertions has no holes, holds a map and is not too full. -/
def TableState.WithoutHoles (preHash : κ → UInt64) (s : TableState κ ν) : Prop :=
  s.ht.WellFormed preHash ∧ s.ht.Compact preHash ∧ s.ht.Roomy ∧ ∃ m, s.ht.Represents m

variable {preHash : κ → UInt64} {members : Nat → HashFamilyMember} {depth : Nat}
  {s s' : TableState κ ν} {k : κ} {v : ν} {i : Int}

theorem TableState.call_insert_eq {res : TableResult}
    (h : s.call preHash members depth (.insert k v) = .ok (res, s')) :
    ∃ i, res = .index i ∧ hashTableInsertImpl members depth s.ht ⟨some k, preHash k⟩ v s.draws =
      .ok (i, s'.ht, s'.draws) := by
  obtain ⟨⟨i, ht, draws⟩, hinsert, ⟨⟩⟩ := (bind_eq_ok_iff _ _ _).mp h
  exact ⟨i, rfl, hinsert⟩

theorem InsertStep.withoutHoles (s : TableState κ ν) (l : (κ × ν) × Int) (s' : TableState κ ν)
    (hstep : InsertStep preHash members s l s') (h : s.WithoutHoles preHash) :
    s'.WithoutHoles preHash := by
  obtain ⟨depth, hcall⟩ := hstep
  obtain ⟨i, -, hinsert⟩ := TableState.call_insert_eq hcall
  obtain ⟨wf, hc, -, m, hr⟩ := h
  have hadded := hashTableInsertImpl_spec members depth wf hr (.inr (hc _)) hinsert
  exact ⟨hadded.wellFormed, hadded.compact hc, hashTableInsertImpl_roomy depth wf hr (hc _) hinsert, _,
    hadded.represents⟩

theorem insertRun_withoutHoles {τ : List (Transition (TableState κ ν) ((κ × ν) × Int))}
    (hrun : Run (InsertStep preHash members) (.fresh members) τ s) : s.WithoutHoles preHash := by
  have wf : (createTable 5 (members 0) : HashTable κ ν).WellFormed preHash :=
    createTable_wellFormed le_rfl _
  have hr := @createTable_represents κ ν _ 5 (members 0)
  have hcompact : (createTable 5 (members 0) : HashTable κ ν).Compact preHash :=
    fun k => hr.noHoleBefore_of_none wf.shaped rfl
  have hroomy : (createTable 5 (members 0) : HashTable κ ν).Roomy :=
    show 0 - 1 + (0 - 1) / 2 < 5 by decide
  exact hrun.invariant InsertStep.withoutHoles ⟨wf, hcompact, hroomy, _, hr⟩

/-- On every table made by insertions, the index an insertion returns is valid if the call does not
change the hash function; if it does, the index is valid just when the new table has the key at the
slot it had in the old one. -/
theorem insert_returns_valid_index {τ : List (Transition (TableState κ ν) ((κ × ν) × Int))}
    (hrun : Run (InsertStep preHash members) (.fresh members) τ s)
    (hcall : s.call preHash members depth (.insert k v) = .ok (.index i, s')) :
    0 ≤ i ∧ (s.KeepsHash preHash k → s'.ht.ValidIndex preHash k v i) ∧
      (¬s.KeepsHash preHash k →
        (s'.ht.ValidIndex preHash k v i ↔ s'.ht.keyAt i.toNat = some k)) := by
  obtain ⟨wf, hc, hroomy, m, hr⟩ := insertRun_withoutHoles hrun
  obtain ⟨_, ⟨⟩, hinsert⟩ := TableState.call_insert_eq hcall
  have hadded := hashTableInsertImpl_spec members depth wf hr (.inr (hc k)) hinsert
  refine ⟨hadded.nonneg, fun hkeep => ?_, fun _ => ?_⟩
  · exact hadded.validIndex (hashTableInsertImpl_keyAt wf hr hroomy hkeep hinsert)
  · exact ⟨fun hvalid => hvalid.key, hadded.validIndex⟩

/-- The state after a list of insertions. -/
def insertAll (preHash : κ → UInt64) (members : Nat → HashFamilyMember) (depth : Nat)
    (s : TableState κ ν) (pairs : List (κ × ν)) : Except Fault (TableState κ ν) :=
  pairs.foldlM (fun s p => (s.call preHash members depth (.insert p.1 p.2)).map Prod.snd) s

theorem insertAll_run {pairs : List (κ × ν)} (h : insertAll preHash members depth s pairs = .ok s') :
    ∃ τ, Run (InsertStep preHash members) s τ s' := by
  have hstep : ∀ s₁ (p : κ × ν) s₂, (∃ τ, Run (InsertStep preHash members) s τ s₁) →
      (s₁.call preHash members depth (.insert p.1 p.2)).map Prod.snd = .ok s₂ →
      ∃ τ, Run (InsertStep preHash members) s τ s₂ := by
    rintro s₁ p s₂ ⟨τ, hrun⟩ hcall
    obtain ⟨⟨res, s₃⟩, hinsert, rfl⟩ := map_eq_ok_iff.mp hcall
    obtain ⟨i, rfl, -⟩ := TableState.call_insert_eq hinsert
    have hlast : InsertStep preHash members s₁ (p, i) s₃ := ⟨depth, hinsert⟩
    exact ⟨_, hrun.append (.single hlast)⟩
  exact foldlM_invariant hstep ⟨[], .nil s⟩ h

end

/-! ## Twenty keys with one base -/

/-- The first hash function gives the multiples of 31 one base when there are 31 slots, the others
spread them. -/
def secondSpreads (n : Nat) : HashFamilyMember :=
  if n = 0 then ⟨1, 0⟩ else ⟨0x123456789ABCDEF, 0⟩

def multiplesOf31 (n : Nat) : List (Nat × Nat) := (List.range n).map fun i => (31 * i, i)

/-- The table after nineteen insertions. -/
def crowdedTable : TableState Nat Nat :=
  match insertAll UInt64.ofNat secondSpreads 2 (.fresh secondSpreads) (multiplesOf31 19) with
  | .ok s => s
  | .error _ => .fresh secondSpreads

theorem crowdedTable_eq :
    insertAll UInt64.ofNat secondSpreads 2 (.fresh secondSpreads) (multiplesOf31 19) =
      .ok crowdedTable := by
  decide +kernel

/-- A new value for the key 62, which lies two steps behind its base. -/
theorem insert_returns_valid_index_crowded :
    ∃ s', crowdedTable.call UInt64.ofNat secondSpreads 3 (.insert 62 100) = .ok (.index 2, s') ∧
      s'.ht.ValidIndex UInt64.ofNat 62 100 2 := by
  obtain ⟨τ, hrun⟩ := insertAll_run crowdedTable_eq
  have hkeep : crowdedTable.KeepsHash UInt64.ofNat 62 := by decide +kernel
  obtain ⟨s', hcall⟩ : ∃ s', crowdedTable.call UInt64.ofNat secondSpreads 3 (.insert 62 100) =
      .ok (.index 2, s') := ⟨_, rfl⟩
  exact ⟨s', hcall, (insert_returns_valid_index hrun hcall).2.1 hkeep⟩

/-- The twentieth key takes nineteen steps, to the slot 19 of a table of 31 slots.  Then the hash
function is changed, and the slot 19 is empty. -/
theorem insert_returns_stale_index :
    (∃ τ, Run (InsertStep UInt64.ofNat secondSpreads) (.fresh secondSpreads) τ crowdedTable) ∧
    ∃ s', crowdedTable.call UInt64.ofNat secondSpreads 3 (.insert 589 19) = .ok (.index 19, s') ∧
      s'.ht.keyAt 19 = none ∧ ¬s'.ht.ValidIndex UInt64.ofNat 589 19 19 := by
  refine ⟨insertAll_run crowdedTable_eq, ?_⟩
  obtain ⟨s', hcall, hkey⟩ : ∃ s', crowdedTable.call UInt64.ofNat secondSpreads 3
      (.insert 589 19) = .ok (.index 19, s') ∧ s'.ht.keyAt 19 = none :=
    ⟨_, rfl, by decide +kernel⟩
  refine ⟨s', hcall, hkey, fun hvalid => ?_⟩
  have hnone : s'.ht.keyAt 19 = some 589 := hvalid.key
  rw [hkey] at hnone
  cases hnone

end EventSeq
