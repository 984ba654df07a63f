import EventSeq.HashTableRuns

/-!
# The length of the hash table

`length` is the number of occupied slots as long as no insertion overwrites a slot: the code adds
one on that path too.  A call overwrites the slot of its own key, or, while it rebuilds the table,
that of a key it has copied before.
-/

namespace EventSeq

open Lib

namespace HashTable

variable {κ ν : Type}

def Counted (ht : HashTable κ ν) : Prop := ht.length = ht.occupied.card

/-- Copying the table and then inserting `k` meets every key once. -/
def CopiesApart (ht : HashTable κ ν) (k : κ) : Prop :=
  (∀ i ∈ ht.occupied, ∀ j ∈ ht.occupied, ht.keyAt i = ht.keyAt j → i = j) ∧
    ∀ i ∈ ht.occupied, ht.keyAt i ≠ some k

/-- The probe for `k` comes to an empty slot after `o` steps, and to no slot of `k` before. -/
def FindsEmpty (preHash : κ → UInt64) (ht : HashTable κ ν) (k : κ) (o : Nat) : Prop :=
  ht.keyAt (ht.path preHash k o) = none ∧
    ∀ o' < o, ht.keyAt (ht.path preHash k o') ≠ none ∧ ht.keyAt (ht.path preHash k o') ≠ some k

/-- An insertion whose probe took `o` steps changes the hash function. -/
def ChangesHash (preHash : κ → UInt64) (ht : HashTable κ ν) (k : κ) (o : Nat) : Prop :=
  2 * o > ht.capacity + 6 ∧
    ∀ o' < o, (ht.keyAt (ht.path preHash k o')).map preHash ≠ some (preHash k)

/-- The insertion of `k` overwrites no slot, in the call itself and in the copying into a new
table. -/
def OverwritesNothing (preHash : κ → UInt64) (ht : HashTable κ ν) (k : κ) : Prop :=
  (ht.GrowsOnInsert → ht.CopiesApart k) ∧
    (¬ht.GrowsOnInsert → ∃ o < ht.capacity, ht.FindsEmpty preHash k o ∧
      (ht.ChangesHash preHash k o → ht.CopiesApart k))

section

variable [DecidableEq κ] (preHash : κ → UInt64) (ht : HashTable κ ν) (k : κ) (o : Nat)

instance : Decidable ht.Counted := inferInstanceAs (Decidable (_ = _))

instance : Decidable (ht.CopiesApart k) := inferInstanceAs (Decidable (_ ∧ _))

instance : Decidable (ht.FindsEmpty preHash k o) := inferInstanceAs (Decidable (_ ∧ _))

instance : Decidable (ht.ChangesHash preHash k o) := inferInstanceAs (Decidable (_ ∧ _))

instance : Decidable (ht.OverwritesNothing preHash k) :=
  inferInstanceAs (Decidable ((_ → _) ∧ (_ → ∃ o < _, _)))

end

variable {preHash : κ → UInt64} {ht ht' : HashTable κ ν} {m : κ → Option ν} {k : κ} {v : ν}

theorem createTable_counted [Inhabited ν] (capacity : Nat) (member : HashFamilyMember) :
    (createTable capacity member : HashTable κ ν).Counted := by
  rw [Counted, occupied_createTable, Finset.card_empty]
  rfl

/-! ## Tables whose keys are apart -/

theorem CopiesApart.distinct (h : ht.CopiesApart k) (sh : ht.Shaped preHash) (i j : Nat) (k' : κ)
    (hi : ht.keyAt i = some k') (hj : ht.keyAt j = some k') : i = j :=
  h.1 i (sh.mem_occupied hi) j (sh.mem_occupied hj) (hi.trans hj.symm)

theorem CopiesApart.keyAt_ne (h : ht.CopiesApart k) (lay : ht.Layout preHash) (i : Nat) :
    ht.keyAt i ≠ some k :=
  fun hi => h.2 i (lay.shaped.mem_occupied hi) hi

theorem WellFormed.copiesApart (wf : ht.WellFormed preHash) (habsent : ∀ i, ht.keyAt i ≠ some k) :
    ht.CopiesApart k :=
  ⟨keyAt_injOn wf.distinct, fun i _ => habsent i⟩

/-- A table in which no key is in two slots represents a map. -/
theorem exists_represents (hdistinct : ∀ i j k, ht.keyAt i = some k → ht.keyAt j = some k → i = j) :
    ∃ m, ht.Represents m := by
  classical
  refine ⟨fun k => if h : ∃ j, ht.keyAt j = some k then ht.valueArray[h.choose]? else none, ?_⟩
  intro k v
  dsimp only
  constructor
  · intro hv
    split at hv
    · rename_i h
      exact ⟨h.choose, h.choose_spec, hv⟩
    · cases hv
  · rintro ⟨j, hj, hv⟩
    have h : ∃ j, ht.keyAt j = some k := ⟨j, hj⟩
    rw [dif_pos h, hdistinct _ j k h.choose_spec hj, hv]

/-- The probe for an absent key comes to an empty slot. -/
theorem Layout.findsEmpty (lay : ht.Layout preHash) (habsent : ∀ i, ht.keyAt i ≠ some k) :
    ∃ o < ht.capacity, ht.FindsEmpty preHash k o := by
  classical
  have hexists := exists_empty preHash lay.occupied_lt k
  obtain ⟨hlt, hempty⟩ := Nat.find_spec hexists
  refine ⟨Nat.find hexists, hlt, hempty, fun o' ho' => ⟨?_, habsent _⟩⟩
  intro hnone
  exact Nat.find_min hexists ho' ⟨ho'.trans hlt, hnone⟩

theorem WellFormed.overwritesNothing (wf : ht.WellFormed preHash)
    (habsent : ∀ i, ht.keyAt i ≠ some k) : ht.OverwritesNothing preHash k := by
  refine ⟨fun _ => wf.copiesApart habsent, fun _ => ?_⟩
  obtain ⟨o, hlt, hfinds⟩ := wf.layout.findsEmpty habsent
  exact ⟨o, hlt, hfinds, fun _ => wf.copiesApart habsent⟩

/-! ## The probe and the writes of an insertion -/

section

variable [DecidableEq κ] {r : ProbeResult}

/-- The probing loop has seen no pre-hash of the key when it says so. -/
theorem insertProbe_preHash (lay : ht.Layout preHash) {remaining o : Nat} {c : Bool}
    (h : insertProbe ht ⟨some k, preHash k⟩ remaining (ht.path preHash k o) o c = .ok (some r))
    (hno : r.preHashCollision = false) :
    c = false ∧ ∀ o', o ≤ o' → o' < r.collisionOffset →
      (ht.keyAt (ht.path preHash k o')).map preHash ≠ some (preHash k) := by
  induction remaining generalizing o c with
  | zero => cases h
  | succ remaining ih =>
      obtain ⟨e, hmem, hentry, hbytes, -⟩ := lay.shaped.entry_ok (lay.path_lt k o)
      simp only [insertProbe, hentry, bind, Except.bind] at h
      split at h
      · cases h
        exact ⟨hno, fun o' hle hlt => absurd hlt (not_lt.mpr hle)⟩
      · split at h
        · cases h
          exact ⟨hno, fun o' hle hlt => absurd hlt (not_lt.mpr hle)⟩
        · rw [← path_succ] at h
          obtain ⟨hflag, hrest⟩ := ih h
          rw [Bool.or_eq_false_iff, beq_eq_false_iff_ne] at hflag
          refine ⟨hflag.1, fun o' hle hlt => ?_⟩
          -- The flag covers this step and the later ones.
          rcases Nat.eq_or_lt_of_le hle with rfl | hnext
          · intro hmap
            obtain ⟨k', hk', hsame⟩ := Option.map_eq_some_iff.mp hmap
            rw [← hbytes] at hk'
            exact hflag.2 ((lay.preHash_eq e hmem k' hk').trans hsame).symm
          · exact hrest o' hnext hlt

theorem changesHash_of_probe (lay : ht.Layout preHash)
    (hprobe : insertProbe ht ⟨some k, preHash k⟩ ht.capacity (ht.base preHash k) 0 false =
      .ok (some r))
    (hchanges : r.preHashCollision = false ∧ 2 * r.collisionOffset > ht.capacity + 6) :
    ht.ChangesHash preHash k r.collisionOffset := by
  have hstart : ht.path preHash k 0 = ht.base preHash k := probe_zero (lay.base_lt k)
  rw [← hstart] at hprobe
  have hseen := (insertProbe_preHash lay hprobe hchanges.1).2
  exact ⟨hchanges.2, fun o' ho' => hseen o' (Nat.zero_le _) ho'⟩

omit [DecidableEq κ] in
/-- The slot of an insertion is the empty one the probe comes to. -/
theorem IsSlotFor.of_findsEmpty (hs : IsSlotFor preHash ht k r) {o : Nat}
    (hfinds : ht.FindsEmpty preHash k o) : r.collisionOffset = o ∧ r.overwrite = false := by
  have hslot := hs.slot
  rw [hs.index_eq] at hslot
  have hoffset : r.collisionOffset = o := by
    rcases Nat.lt_trichotomy r.collisionOffset o with hlt | heq | hgt
    · obtain ⟨hnone, hsome⟩ := hfinds.2 _ hlt
      split at hslot
      · exact absurd hslot hsome
      · exact absurd hslot hnone
    · exact heq
    · exact absurd hfinds.1 (hs.before o hgt).1
  refine ⟨hoffset, ?_⟩
  rw [hoffset, hfinds.1] at hslot
  cases hover : r.overwrite with
  | false => rfl
  | true => simp [hover] at hslot

omit [DecidableEq κ] in
/-- A write to an empty slot occupies one slot more. -/
theorem WrittenAt.card_occupied
    (hw : WrittenAt preHash ht ht' k v (ht.base preHash k) r.currentIndex r.collisionOffset)
    (hlt : r.currentIndex < ht.capacity) (hempty : ht.keyAt r.currentIndex = none) :
    ht'.occupied.card = ht.occupied.card + 1 := by
  have hnew : r.currentIndex ∉ ht.occupied := by simp [occupied, hempty]
  rw [hw.occupied_eq hlt, Finset.card_insert_of_notMem hnew]

omit [DecidableEq κ] in
theorem WrittenAt.layout (lay : ht.Layout preHash)
    (hw : WrittenAt preHash ht ht' k v (ht.base preHash k) r.currentIndex r.collisionOffset)
    (hcard : ht'.occupied.card < ht.capacity) : ht'.Layout preHash where
  shaped := hw.shaped lay.shaped
  capacity_ge := hw.capacity ▸ lay.capacity_ge
  occupied_lt := hw.capacity ▸ hcard

/-! ## Insertion -/

variable [Inhabited ν] {insert : InsertFunction κ ν} {members : Nat → HashFamilyMember}
  {draws draws' length : Nat} {i : Int}

/-- The rest of an insertion.  It writes the length that was read before the table grew, which is
the number of slots of the new table too. -/
theorem insertGrown_counted (hins : InsertsAbsent preHash insert)
    (hkeeps : Keeps preHash Counted insert) (lay : ht.Layout preHash)
    (hlength : length = ht.occupied.card) (hroom : length + 1 < ht.capacity)
    (hempty : ∃ o < ht.capacity, ht.FindsEmpty preHash k o ∧
      (ht.ChangesHash preHash k o → ht.CopiesApart k))
    (h : insertGrown members insert length ht ⟨some k, preHash k⟩ v draws = .ok (i, ht', draws')) :
    ht'.Layout preHash ∧ ht'.Counted := by
  obtain ⟨o, -, hfinds, hapart⟩ := hempty
  obtain ⟨r, written, hprobe, hs, hwritten, hw, hrun⟩ :=
    insertGrown_eq members insert lay.shaped k v draws (Nat.lt_of_succ_lt hroom)
      (exists_empty preHash lay.occupied_lt k)
  obtain ⟨rfl, hnew⟩ := hs.of_findsEmpty hfinds
  have hslot : ht.keyAt r.currentIndex = none := by
    rw [hs.slot, hnew]
    rfl
  have hcard := hw.card_occupied (hs.index_eq ▸ lay.path_lt k _) hslot
  have lay' := hw.layout lay (by omega)
  have hcounted : written.Counted := by
    rw [Counted, hwritten, hcard, hlength]
  rw [hrun] at h
  split at h
  · rename_i hchanges
    -- the keys are apart, so that the copying meets no key twice
    have hapart := hapart (changesHash_of_probe lay hprobe hchanges)
    have hdistinct := hw.distinct (fun i hi => absurd hi (hapart.keyAt_ne lay i)) (hapart.distinct lay.shaped)
    obtain ⟨m, hr⟩ := exists_represents hdistinct
    obtain ⟨⟨rebuilt, draws₁⟩, hchange, ⟨⟩⟩ := (bind_eq_ok_iff _ _ _).mp h
    obtain ⟨wf', -, -, -, hcounted'⟩ := rebuildTable_keeps hins hkeeps lay'.capacity_ge
      (createTable_counted _ _) lay' hdistinct hr hchange
    exact ⟨wf'.layout, hcounted'⟩
  · cases h
    exact ⟨lay', hcounted⟩

/-- An insertion that overwrites nothing keeps the count. -/
theorem hashTableInsertImpl_counted (depth : Nat) (lay : ht.Layout preHash) (hc : ht.Counted)
    (hcond : ht.OverwritesNothing preHash k)
    (h : hashTableInsertImpl members depth ht ⟨some k, preHash k⟩ v draws = .ok (i, ht', draws')) :
    ht'.Layout preHash ∧ ht'.Counted := by
  induction depth generalizing ht ht' k v i draws draws' with
  | zero => cases h
  | succ depth ih =>
      have hins := @hashTableInsertImpl_insertsAbsent κ ν preHash _ _ members depth
      have hkeeps : Keeps preHash Counted (@hashTableInsertImpl κ ν _ _ members depth) :=
        fun wf hr hk hc h => (ih wf.layout hc (wf.overwritesNothing (hr.keyAt_ne wf.shaped hk)) h).2
      have hfive := lay.capacity_ge
      have hroom := lay.occupied_lt
      rw [← hc] at hroom
      by_cases hgrows : ht.GrowsOnInsert
      · have hapart := hcond.1 hgrows
        have hdistinct := hapart.distinct lay.shaped
        obtain ⟨m, hr⟩ := exists_represents hdistinct
        have hk : m k = none := (hr.eq_none_iff lay.shaped).mpr (hapart.keyAt_ne lay)
        simp only [hashTableInsertImpl, if_pos hgrows, bind_eq_ok_iff] at h
        obtain ⟨⟨grown, newDraws⟩, hgrow, h⟩ := h
        obtain ⟨wf', hr', -, hcap, -⟩ := rebuildTable_keeps hins hkeeps (by omega)
          (createTable_counted _ _) lay hdistinct hr hgrow
        -- the grown table has as many slots as the old one, whose length is written
        have hsame : ht.length = grown.occupied.card :=
          hc.trans (Nat.le_antisymm
            (occupied_card_le_of_represents wf'.shaped lay.shaped hdistinct hr' hr)
            (occupied_card_le_of_represents lay.shaped wf'.shaped wf'.distinct hr hr'))
        have habsent := hr'.keyAt_ne wf'.shaped hk
        obtain ⟨o, hlt, hfinds⟩ := wf'.layout.findsEmpty habsent
        exact insertGrown_counted hins hkeeps wf'.layout hsame (by omega)
          ⟨o, hlt, hfinds, fun _ => wf'.copiesApart habsent⟩ h
      · simp only [hashTableInsertImpl, if_neg hgrows, bind_eq_ok_iff] at h
        obtain ⟨_, ⟨⟩, h⟩ := h
        have hspace : ¬ht.length + ht.length / 2 ≥ ht.capacity := hgrows
        exact insertGrown_counted hins hkeeps lay hc (by omega) (hcond.2 hgrows) h

/-- An insertion that rebuilds nothing keeps the count just when it overwrites nothing. -/
theorem hashTableInsertImpl_counted_iff {depth : Nat} (lay : ht.Layout preHash) (hc : ht.Counted)
    (hspace : ¬ht.GrowsOnInsert) (hsame : ∀ o, ¬ht.ChangesHash preHash k o)
    (h : hashTableInsertImpl members depth ht ⟨some k, preHash k⟩ v draws = .ok (i, ht', draws')) :
    ht'.Counted ↔ ht.OverwritesNothing preHash k := by
  refine ⟨fun hc' => ?_, fun hcond => (hashTableInsertImpl_counted depth lay hc hcond h).2⟩
  refine ⟨fun hgrows => absurd hgrows hspace, fun _ => ?_⟩
  cases depth with
  | zero => cases h
  | succ depth =>
      simp only [hashTableInsertImpl, if_neg hspace, bind_eq_ok_iff] at h
      obtain ⟨_, ⟨⟩, h⟩ := h
      have hroom := lay.occupied_lt
      rw [← hc] at hroom
      obtain ⟨r, written, hprobe, hs, hwritten, hw, hrun⟩ :=
        insertGrown_eq members (hashTableInsertImpl members depth) lay.shaped k v draws hroom
          (exists_empty preHash lay.occupied_lt k)
      have hkept : ¬(r.preHashCollision = false ∧ 2 * r.collisionOffset > ht.capacity + 6) :=
        fun hchanges => hsame _ (changesHash_of_probe lay hprobe hchanges)
      rw [hrun, if_neg hkept] at h
      cases h
      have hlt : r.currentIndex < ht.capacity := hs.index_eq ▸ lay.path_lt k _
      have hslot := hs.slot
      cases hover : r.overwrite with
      | false =>
          rw [hover, if_neg Bool.false_ne_true, hs.index_eq] at hslot
          exact ⟨r.collisionOffset, hs.offset_lt, ⟨hslot, hs.before⟩, fun h => absurd h (hsame _)⟩
      | true =>
          -- the slots are the same ones, and the length is one more
          rw [hover, if_pos rfl] at hslot
          rw [Counted, hwritten, hw.occupied_eq hlt, Finset.insert_eq_of_mem (lay.shaped.mem_occupied hslot),
            ← hc] at hc'
          omega

/-! ## Deletion -/

omit [DecidableEq κ] in
theorem hashTableDeleteAtIndexImpl_counted {index : Int} {b : Bool} (lay : ht.Layout preHash)
    (hc : ht.Counted) (h : hashTableDeleteAtIndexImpl ht index = .ok (b, ht')) :
    ht'.Layout preHash ∧ ht'.Counted := by
  unfold hashTableDeleteAtIndexImpl at h
  split at h
  · cases h
    exact ⟨lay, hc⟩
  · obtain ⟨entry, hentry, h⟩ := (bind_eq_ok_iff _ _ _).mp h
    split at h
    · cases h
      exact ⟨lay, hc⟩
    · rename_i k hk
      obtain ⟨_, -, ⟨⟩⟩ := (bind_eq_ok_iff _ _ _).mp h
      have hkey : ht.keyAt index.toNat = some k := by
        rw [keyAt, entry_eq_ok_iff.mp hentry, Option.bind_some, hk]
      refine ⟨clearSlot_layout lay _, ?_⟩
      rw [Counted, occupied_clearSlot, Finset.card_erase_of_mem (lay.shaped.mem_occupied hkey), ← hc]
      rfl

end

end HashTable

/-! ## Runs -/

open HashTable

variable {κ ν : Type}

inductive TableOperation (κ ν : Type) where
  | call (c : TableCall κ ν)
  | deleteAtIndex (index : Int)
deriving DecidableEq, Repr

abbrev OperationTransition (κ ν : Type) :=
  Transition (TableState κ ν) (TableOperation κ ν × TableResult)

section

variable [DecidableEq κ] [Inhabited ν]

def TableState.operation (preHash : κ → UInt64) (members : Nat → HashFamilyMember) (depth : Nat)
    (s : TableState κ ν) : TableOperation κ ν → Except Fault (TableResult × TableState κ ν)
  | .call c => s.call preHash members depth c
  | .deleteAtIndex index => do
      let (b, ht) ← hashTableDeleteAtIndexImpl s.ht index
      .ok (.deleted b, ⟨ht, s.draws⟩)

/-- An operation that returns, labelled with its result. -/
def OperationStep (preHash : κ → UInt64) (members : Nat → HashFamilyMember) (s : TableState κ ν)
    (l : TableOperation κ ν × TableResult) (s' : TableState κ ν) : Prop :=
  ∃ depth, s.operation preHash members depth l.1 = .ok (l.2, s')

/-- The insertion of a run overwrites no slot. -/
def OverwritesNoSlot (preHash : κ → UInt64) (x : OperationTransition κ ν) : Prop :=
  match x.label.1 with
  | .call (.insert k _) => x.before.ht.OverwritesNothing preHash k
  | _ => True

instance (preHash : κ → UInt64) (x : OperationTransition κ ν) :
    Decidable (OverwritesNoSlot preHash x) :=
  match x with
  | ⟨_, (.call (.insert _ _), _), _⟩ => inferInstanceAs (Decidable (OverwritesNothing _ _ _))
  | ⟨_, (.call (.deleteByKey _), _), _⟩ => .isTrue trivial
  | ⟨_, (.call (.find _), _), _⟩ => .isTrue trivial
  | ⟨_, (.deleteAtIndex _, _), _⟩ => .isTrue trivial

/-- The invariant of the runs. -/
def TableState.Counted (preHash : κ → UInt64) (s : TableState κ ν) : Prop :=
  s.ht.Layout preHash ∧ s.ht.Counted

variable {preHash : κ → UInt64} {members : Nat → HashFamilyMember} {s : TableState κ ν}

theorem OperationStep.counted (x : OperationTransition κ ν)
    (hstep : OperationStep preHash members x.before x.label x.after)
    (hcond : OverwritesNoSlot preHash x) (h : x.before.Counted preHash) :
    x.after.Counted preHash := by
  obtain ⟨s, ⟨op, res⟩, s'⟩ := x
  obtain ⟨depth, hop⟩ := hstep
  obtain ⟨lay, hc⟩ := h
  cases op with
  | call c =>
      cases c with
      | insert k v =>
          simp only [TableState.operation, TableState.call, hashTableKeyFromBytes,
            bind_eq_ok_iff] at hop
          obtain ⟨⟨i, ht, draws⟩, hrun, ⟨⟩⟩ := hop
          exact hashTableInsertImpl_counted depth lay hc hcond hrun
      | deleteByKey k =>
          simp only [TableState.operation, TableState.call, hashTableDeleteByKeyImpl,
            bind_eq_ok_iff] at hop
          obtain ⟨⟨b, ht⟩, ⟨i, -, hrun⟩, ⟨⟩⟩ := hop
          exact hashTableDeleteAtIndexImpl_counted lay hc hrun
      | find k =>
          simp only [TableState.operation, TableState.call, bind_eq_ok_iff] at hop
          obtain ⟨i, -, ⟨⟩⟩ := hop
          exact ⟨lay, hc⟩
  | deleteAtIndex index =>
      simp only [TableState.operation, bind_eq_ok_iff] at hop
      obtain ⟨⟨b, ht⟩, hrun, ⟨⟩⟩ := hop
      exact hashTableDeleteAtIndexImpl_counted lay hc hrun

omit [DecidableEq κ] in
theorem fresh_counted (preHash : κ → UInt64) (members : Nat → HashFamilyMember) :
    (TableState.fresh members : TableState κ ν).Counted preHash :=
  ⟨(createTable_wellFormed le_rfl _).layout, createTable_counted _ _⟩

/-- In every run that overwrites no slot the length is the number of occupied slots, and a further
insertion that rebuilds nothing leaves it so just when it overwrites nothing. -/
theorem hash_table_length_counts {τ : List (OperationTransition κ ν)}
    (hrun : Run (OperationStep preHash members) (.fresh members) τ s)
    (hcond : ∀ x ∈ τ, OverwritesNoSlot preHash x) :
    s.ht.length = s.ht.occupied.card ∧
      (∀ x ∈ τ, x.after.ht.length = x.after.ht.occupied.card) ∧
      ∀ k v res s', OperationStep preHash members s (.call (.insert k v), res) s' →
        ¬s.ht.GrowsOnInsert → (∀ o, ¬s.ht.ChangesHash preHash k o) →
        (s'.ht.length = s'.ht.occupied.card ↔ s.ht.OverwritesNothing preHash k) := by
  have hfresh : (TableState.fresh members : TableState κ ν).Counted preHash :=
    fresh_counted preHash members
  obtain ⟨lay, hc⟩ := hrun.invariant_of OperationStep.counted hcond hfresh
  refine ⟨hc, fun x hx => ?_, ?_⟩
  · exact (hrun.invariant_of_mem OperationStep.counted hcond hfresh x hx).2.2
  · intro k v res s' hstep hspace hsame
    obtain ⟨depth, hop⟩ := hstep
    simp only [TableState.operation, TableState.call, hashTableKeyFromBytes, bind_eq_ok_iff] at hop
    obtain ⟨⟨i, ht, draws⟩, hinsert, ⟨⟩⟩ := hop
    exact hashTableInsertImpl_counted_iff lay hc hspace hsame hinsert

end

/-! ## Runs of the table with one hash function -/

/-- The run that makes the given operations on a fresh table, as far as they return. -/
def operationRun (ops : List (TableOperation Nat Nat)) : List (OperationTransition Nat Nat) :=
  transitions (TableState.operation UInt64.ofNat sameMember 2) (.fresh sameMember) ops

theorem operationRun_run (ops : List (TableOperation Nat Nat)) :
    ∃ s, Run (OperationStep UInt64.ofNat sameMember) (.fresh sameMember) (operationRun ops) s := by
  obtain ⟨s, hrun⟩ :=
    transitions_run (TableState.operation UInt64.ofNat sameMember 2) (.fresh sameMember) ops
  exact ⟨s, hrun.mono fun _ _ _ hop => ⟨2, hop⟩⟩

/-- The keys 1 and 6 share a base: the second insertion of 6 lands in the hole that 1 leaves, which
adds a slot and overwrites none.  The fifth key makes the table grow. -/
def apartRun : List (OperationTransition Nat Nat) :=
  operationRun [.call (.insert 1 10), .call (.insert 6 60), .deleteAtIndex 1, .call (.insert 6 61),
    .deleteAtIndex 2, .deleteAtIndex 2, .call (.insert 2 20), .call (.insert 3 30),
    .call (.insert 4 40), .call (.insert 5 50)]

theorem hash_table_length_counts_apart :
    ∃ s, Run (OperationStep UInt64.ofNat sameMember) (.fresh sameMember) apartRun s ∧
      s.ht.length = s.ht.occupied.card ∧
      ∀ x ∈ apartRun, x.after.ht.length = x.after.ht.occupied.card := by
  obtain ⟨s, hrun⟩ := operationRun_run [.call (.insert 1 10), .call (.insert 6 60),
    .deleteAtIndex 1, .call (.insert 6 61), .deleteAtIndex 2, .deleteAtIndex 2,
    .call (.insert 2 20), .call (.insert 3 30), .call (.insert 4 40), .call (.insert 5 50)]
  have hcounts := hash_table_length_counts hrun
    (show ∀ x ∈ apartRun, OverwritesNoSlot UInt64.ofNat x by decide +kernel)
  exact ⟨s, hrun, hcounts.1, hcounts.2.1⟩

/-- One key, inserted again and again. -/
def overwritingOperations : List (TableOperation Nat Nat) :=
  [.call (.insert 1 10), .call (.insert 1 11), .call (.insert 1 12), .call (.insert 1 13),
    .call (.insert 1 14)]

theorem hash_table_overwriting_grows :
    ∃ τ s, Run (OperationStep UInt64.ofNat sameMember) (.fresh sameMember) τ s ∧
      τ.map (fun x => x.label.1) = overwritingOperations ∧
      τ.map (fun x => (x.after.ht.length, x.after.ht.occupied.card, x.after.ht.capacity)) =
        [(1, 1, 5), (2, 1, 5), (3, 1, 5), (4, 1, 5), (5, 1, 8)] := by
  obtain ⟨s, hrun⟩ := operationRun_run overwritingOperations
  exact ⟨_, s, hrun, by decide +kernel, by decide +kernel⟩

end EventSeq
