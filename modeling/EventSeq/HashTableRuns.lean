import EventSeq.HashTableInsert
import EventSeq.Lib.Runs

/-!
# Runs of hash table calls

The table refines a finite map in every run whose insertions grow the table or meet no hole before
the slot of their key.  An insertion that meets one adds a second slot for its key, and deleting the
key then uncovers the older value.
-/

namespace EventSeq

open Lib

variable {κ ν : Type}

inductive TableCall (κ ν : Type) where
  | insert (k : κ) (v : ν)
  | deleteByKey (k : κ)
  | find (k : κ)
deriving DecidableEq, Repr

inductive TableResult where
  | index (i : Int)
  | deleted (b : Bool)
deriving DecidableEq, Repr

/-- A table and the number of hash functions drawn so far. -/
structure TableState (κ ν : Type) where
  ht : HashTable κ ν
  draws : Nat
deriving DecidableEq, Repr

section

variable [DecidableEq κ] [Inhabited ν]

def TableState.fresh (members : Nat → HashFamilyMember) : TableState κ ν :=
  match hashTableInitImpl members 0 with
  | (ht, draws) => ⟨ht, draws⟩

def TableState.call (preHash : κ → UInt64) (members : Nat → HashFamilyMember) (depth : Nat)
    (s : TableState κ ν) : TableCall κ ν → Except Fault (TableResult × TableState κ ν)
  | .insert k v => do
      let (i, ht, draws) ←
        hashTableInsertImpl members depth s.ht (hashTableKeyFromBytes preHash (some k)) v s.draws
      .ok (.index i, ⟨ht, draws⟩)
  | .deleteByKey k => do
      let (b, ht) ← hashTableDeleteByKeyImpl s.ht (hashTableKeyFromBytes preHash (some k))
      .ok (.deleted b, ⟨ht, s.draws⟩)
  | .find k => do
      let i ← hashTableFindImpl s.ht (hashTableKeyFromBytes preHash (some k))
      .ok (.index i, s)

/-- A call that returns, labelled with its result. -/
def TableStep (preHash : κ → UInt64) (members : Nat → HashFamilyMember) (s : TableState κ ν)
    (l : TableCall κ ν × TableResult) (s' : TableState κ ν) : Prop :=
  ∃ depth, s.call preHash members depth l.1 = .ok (l.2, s')

def TableCall.apply (m : κ → Option ν) : TableCall κ ν → κ → Option ν
  | .insert k v => Function.update m k (some v)
  | .deleteByKey k => Function.update m k none
  | .find _ => m

abbrev TableTransition (κ ν : Type) := Transition (TableState κ ν) (TableCall κ ν × TableResult)

/-- For each key the value most recently inserted, if it was not deleted since. -/
def contents (τ : List (TableTransition κ ν)) : κ → Option ν :=
  τ.foldl (fun m x => x.label.1.apply m) fun _ => none

/-- The result of a call on a table that should hold the map `m`. -/
def Answers (m : κ → Option ν) (x : TableTransition κ ν) : Prop :=
  match x.label with
  | (.find k, .index i) =>
      match m k with
      | none => i = -1
      | some v => ∃ j : Nat, i = j ∧ x.before.ht.keyAt j = some k ∧
          x.before.ht.valueArray[j]? = some v
  | (.deleteByKey k, .deleted b) => b = (m k).isSome
  | (.insert _ _, .index i) => 0 ≤ i
  | _ => False

/-- The insertion of a run does not put its key in front of the slot that holds it. -/
def MeetsNoHole (preHash : κ → UInt64) (x : TableTransition κ ν) : Prop :=
  match x.label.1 with
  | .insert k _ => x.before.ht.GrowsOnInsert ∨ x.before.ht.NoHoleBefore preHash k
  | _ => True

instance (preHash : κ → UInt64) (x : TableTransition κ ν) : Decidable (MeetsNoHole preHash x) :=
  match x with
  | ⟨_, (.insert _ _, _), _⟩ => inferInstanceAs (Decidable (_ ∨ _))
  | ⟨_, (.deleteByKey _, _), _⟩ => .isTrue trivial
  | ⟨_, (.find _, _), _⟩ => .isTrue trivial

variable {preHash : κ → UInt64} {members : Nat → HashFamilyMember} {s s' : TableState κ ν}
  {m : κ → Option ν} {l : TableCall κ ν × TableResult}

/-- One call answers as the map does and carries the change over to the table. -/
theorem TableStep.refines (hstep : TableStep preHash members s l s')
    (hcond : MeetsNoHole preHash ⟨s, l, s'⟩) (wf : s.ht.WellFormed preHash)
    (hr : s.ht.Represents m) :
    Answers m ⟨s, l, s'⟩ ∧ s'.ht.WellFormed preHash ∧ s'.ht.Represents (l.1.apply m) := by
  obtain ⟨call, res⟩ := l
  obtain ⟨depth, hcall⟩ := hstep
  cases call with
  | insert k v =>
      simp only [TableState.call, hashTableKeyFromBytes, bind_eq_ok_iff] at hcall
      obtain ⟨⟨i, ht, draws⟩, hrun, ⟨⟩⟩ := hcall
      have hadded :=
        HashTable.hashTableInsertImpl_spec members depth wf hr hcond hrun
      exact ⟨hadded.nonneg, hadded.wellFormed, hadded.represents⟩
  | deleteByKey k =>
      obtain ⟨ht', hrun, wf', hr'⟩ := HashTable.hashTableDeleteByKeyImpl_spec wf hr k
      simp only [TableState.call, hashTableKeyFromBytes, hrun, bind_eq_ok_iff] at hcall
      obtain ⟨_, ⟨⟩, ⟨⟩⟩ := hcall
      exact ⟨rfl, wf', hr'⟩
  | find k =>
      obtain ⟨i, hrun, hi⟩ := HashTable.hashTableFindImpl_spec wf hr k
      simp only [TableState.call, hashTableKeyFromBytes, hrun, bind_eq_ok_iff] at hcall
      obtain ⟨_, ⟨⟩, ⟨⟩⟩ := hcall
      exact ⟨hi, wf, hr⟩

theorem run_refines {τ : List (TableTransition κ ν)} (hrun : Run (TableStep preHash members) s τ s')
    (hcond : ∀ x ∈ τ, MeetsNoHole preHash x) (wf : s.ht.WellFormed preHash)
    (hr : s.ht.Represents m) :
    ∀ pre x post, τ = pre ++ x :: post →
      Answers (pre.foldl (fun m x => x.label.1.apply m) m) x := by
  induction hrun generalizing m with
  | nil _ => simp
  | cons hstep _ ih =>
      obtain ⟨hanswer, wf', hr'⟩ := hstep.refines (hcond _ List.mem_cons_self) wf hr
      intro pre x post hsplit
      cases pre with
      | nil =>
          cases hsplit
          exact hanswer
      | cons y pre =>
          cases hsplit
          exact ih (fun x hx => hcond x (List.mem_cons_of_mem _ hx)) wf' hr' pre x post rfl

/-- From a fresh table, every call of a run answers as the finite map that the calls before it
make, if each insertion either grows the table first or finds no hole in front of its key. -/
theorem hash_table_refines_map {τ : List (TableTransition κ ν)}
    (hrun : Run (TableStep preHash members) (.fresh members) τ s)
    (hcond : ∀ x ∈ τ, MeetsNoHole preHash x) :
    ∀ pre x post, τ = pre ++ x :: post → Answers (contents pre) x :=
  run_refines hrun hcond (HashTable.createTable_wellFormed le_rfl _)
    (HashTable.createTable_represents _ _)

end

/-! ## Two colliding keys -/

def sameMember (_ : Nat) : HashFamilyMember := ⟨1, 0⟩

/-- The run that makes the given calls on a fresh table, as far as they return. -/
def callRun (cs : List (TableCall Nat Nat)) : List (TableTransition Nat Nat) :=
  transitions (TableState.call UInt64.ofNat sameMember 1) (.fresh sameMember) cs

theorem callRun_run (cs : List (TableCall Nat Nat)) :
    ∃ s, Run (TableStep UInt64.ofNat sameMember) (.fresh sameMember) (callRun cs) s := by
  obtain ⟨s, hrun⟩ := transitions_run (TableState.call UInt64.ofNat sameMember 1) (.fresh sameMember) cs
  exact ⟨s, hrun.mono fun _ _ _ hcall => ⟨1, hcall⟩⟩

/-- The keys 1 and 6 share a base.  Here the hole that a deletion leaves lies behind the key 1. -/
def orderlyRun : List (TableTransition Nat Nat) :=
  callRun [.insert 1 10, .insert 6 60, .deleteByKey 6, .insert 1 11, .find 1]

theorem hash_table_refines_map_orderly :
    ∃ s, Run (TableStep UInt64.ofNat sameMember) (.fresh sameMember) orderlyRun s ∧
      ∀ pre x post, orderlyRun = pre ++ x :: post → Answers (contents pre) x := by
  obtain ⟨s, hrun⟩ :=
    callRun_run [.insert 1 10, .insert 6 60, .deleteByKey 6, .insert 1 11, .find 1]
  exact ⟨s, hrun, hash_table_refines_map hrun (show ∀ x ∈ orderlyRun, MeetsNoHole _ x by decide)⟩

/-- The insertion of 6 after 1 is gone lands in the slot of 1, and
a deletion of 6 leaves its first slot to be found. -/
def collidingCalls : List (TableCall Nat Nat) :=
  [.insert 1 10, .insert 6 60, .deleteByKey 1, .insert 6 61, .deleteByKey 6, .find 6]

def collidingRun : List (TableTransition Nat Nat) := callRun collidingCalls

theorem hash_table_reinsert_before_slot :
    ∃ τ s pre x, Run (TableStep UInt64.ofNat sameMember) (.fresh sameMember) τ s ∧
      τ.map (fun x => x.label.1) = collidingCalls ∧ τ = pre ++ [x] ∧ contents pre 6 = none ∧
      x.label = (.find 6, .index 2) ∧ ¬Answers (contents pre) x := by
  obtain ⟨s, hrun⟩ := callRun_run collidingCalls
  obtain ⟨x, hlast, hx⟩ : ∃ x, collidingRun = collidingRun.take 5 ++ [x] ∧
      x.label = (.find 6, .index 2) := ⟨_, rfl, rfl⟩
  have hnone : contents (collidingRun.take 5) 6 = none := rfl
  refine ⟨_, s, _, x, hrun, rfl, hlast, hnone, hx, fun hanswer => ?_⟩
  simp only [Answers, hx, hnone] at hanswer
  cases hanswer

end EventSeq
