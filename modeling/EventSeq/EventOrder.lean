import EventSeq.EventRing
import EventSeq.Lib.Runs

/-!
# Time order of the event list

The event list is meant to be ordered by time.  Replication and destruction keep it so; creation
does exactly when the new event is not earlier than an event of the list: for an earlier one the
backward walk ends one node too late.
-/

namespace EventSeq

open Lib

def SortedByTime (l : List EventNode) : Prop := l.Pairwise fun a b => a.time ≤ b.time

/-- `new` stands behind the nodes that are not later than it and before those that are, which keep
their order. -/
def PlacedByTime (new : EventNode) (l l' : List EventNode) : Prop :=
  ∃ pre post, l = pre ++ post ∧ l' = pre ++ new :: post ∧
    (∀ e ∈ pre, e.time ≤ new.time) ∧ ∀ e ∈ post, new.time < e.time

/-! ## One creation -/

theorem insertByTime_of_le {new : EventNode} {l : List EventNode}
    (h : ∀ e ∈ l, e.time ≤ new.time) : insertByTime new l = l ++ [new] := by
  have hlater : (l.rtakeWhile fun e => e.laterThan new.time) = [] := by
    rw [List.rtakeWhile_eq_nil_iff]
    intro hl hlast
    rw [EventNode.laterThan_iff] at hlast
    exact absurd (h _ (List.getLast_mem hl)) (not_le.mpr hlast)
  rw [insertByTime, hlater]

/-- The displacement: a later node is left in front of the new one. -/
theorem insertByTime_of_lt {new : EventNode} {l : List EventNode} (hsorted : SortedByTime l)
    {e : EventNode} (he : e ∈ l) (hlt : new.time < e.time) :
    ∃ pre o post, l = pre ++ o :: post ∧ new.time < o.time ∧
      insertByTime new l = pre ++ o :: new :: post := by
  have hsplit : (l.rdropWhile fun e => e.laterThan new.time) ++
      (l.rtakeWhile fun e => e.laterThan new.time) = l :=
    List.rdropWhile_append_rtakeWhile
  cases hlater : l.rtakeWhile fun e => e.laterThan new.time with
  | nil =>
      rw [List.rtakeWhile_eq_nil_iff] at hlater
      have hlast := hlater (List.ne_nil_of_mem he)
      rw [EventNode.laterThan_iff, not_lt] at hlast
      have hle : e.time ≤ (l.getLast (List.ne_nil_of_mem he)).time := by
        have hl := List.dropLast_append_getLast (List.ne_nil_of_mem he)
        rw [← hl, SortedByTime, List.pairwise_append] at hsorted
        rw [← hl] at he
        rcases List.mem_append.mp he with he | he
        · exact hsorted.2.2 e he _ (by simp)
        · exact le_of_eq (congrArg EventNode.time (List.mem_singleton.mp he))
      exact absurd (hle.trans hlast) (not_le.mpr hlt)
  | cons o rest =>
      refine ⟨l.rdropWhile fun e => e.laterThan new.time, o, rest, ?_, ?_, ?_⟩
      · rw [← hlater, hsplit]
      · have ho : o ∈ l.rtakeWhile fun e => e.laterThan new.time := by simp [hlater]
        have hlater := List.mem_rtakeWhile_imp ho
        exact (EventNode.laterThan_iff o new.time).mp hlater
      · rw [insertByTime, hlater]

theorem insertByTime_placed_iff {new : EventNode} {l : List EventNode} (hsorted : SortedByTime l)
    (hnew : new ∉ l) :
    PlacedByTime new l (insertByTime new l) ↔ ∀ e ∈ l, e.time ≤ new.time := by
  constructor
  · rintro ⟨pre, post, rfl, hins, hpre, hpost⟩ e he
    by_contra hlt
    obtain ⟨pre', o, post', hl, ho, hins'⟩ := insertByTime_of_lt hsorted he (not_le.mp hlt)
    -- The new node stands at one place only, and there it has the later `o` before it.
    have hsame : pre = pre' ++ [o] := by
      have heq : pre ++ new :: post = (pre' ++ [o]) ++ new :: post' := by
        rw [← hins, hins']
        simp
      refine (List.append_inj heq ?_).1
      have hnp : new ∉ pre := fun h => hnew (List.mem_append_left _ h)
      have hnp' : new ∉ pre' ++ [o] := by
        intro h
        rw [hl] at hnew
        simp only [List.mem_append, List.mem_cons, List.not_mem_nil, or_false] at h hnew
        tauto
      have hidx := congrArg (List.idxOf new) heq
      rwa [List.idxOf_append_of_notMem hnp, List.idxOf_append_of_notMem hnp',
        List.idxOf_cons_self, List.idxOf_cons_self, Nat.add_zero, Nat.add_zero] at hidx
    exact absurd (hpre o (by simp [hsame])) (not_le.mpr ho)
  · intro h
    exact ⟨l, [], by simp, insertByTime_of_le h, h, by simp⟩

theorem insertByTime_sorted_iff {new : EventNode} {l : List EventNode} (hsorted : SortedByTime l) :
    SortedByTime (insertByTime new l) ↔ ∀ e ∈ l, e.time ≤ new.time := by
  constructor
  · intro h e he
    by_contra hlt
    obtain ⟨pre, o, post, -, ho, hins⟩ := insertByTime_of_lt hsorted he (not_le.mp hlt)
    rw [hins, SortedByTime, List.pairwise_append] at h
    exact absurd ((List.pairwise_cons.mp h.2.1).1 new (by simp)) (not_le.mpr ho)
  · intro h
    rw [insertByTime_of_le h, SortedByTime, List.pairwise_append]
    exact ⟨hsorted, by simp, by simpa using h⟩

/-! ## Runs of calls -/

inductive EventCall where
  | create (content : EventData)
  | replicate (source : Addr) (count : Nat)
  | destroy (self : Addr)

/-- A call on the event list; the pointers handed in are those of nodes of the list. -/
inductive EventStep (A : Allocator) : EventHeap → EventCall → EventHeap → Prop where
  | create {h h' : EventHeap} {content : EventData} {a : Addr} :
      h.eventCreate A content = .ok (some a, h') → EventStep A h (.create content) h'
  | replicate {h h' : EventHeap} {e : EventNode} {count i : Nat} : e ∈ h.readEvents →
      h.eventReplicate A e.addr count = .ok (i, h') → EventStep A h (.replicate e.addr count) h'
  | destroy {h h' : EventHeap} {e : EventNode} : e ∈ h.readEvents →
      h.eventDestroy e.addr = .ok h' → EventStep A h (.destroy e.addr) h'

/-- The call, if it is a creation, is of an event no earlier than those of the list. -/
def InTimeOrder (x : Transition EventHeap EventCall) : Prop :=
  ∀ content, x.label = .create content → ∀ e ∈ x.before.readEvents, e.time ≤ content.time

variable {A : Allocator} {h h' : EventHeap} {l : EventList}

/-- A creation on the ring is the insertion of a node with a fresh address into the list. -/
theorem EventHeap.Represents.create (hr : h.Represents l) {content : EventData} {a : Addr}
    (hcall : h.eventCreate A content = .ok (some a, h')) :
    a ∉ l.addrs ∧
      h'.Represents ⟨insertByTime ⟨a, none, 0, content⟩ l.nodes, l.mallocs + 1⟩ := by
  obtain ⟨h'', hcall', hr'⟩ := hr.eventCreate A content
  rw [hcall, Except.ok.injEq, Prod.mk.injEq] at hcall'
  obtain ⟨ha, rfl⟩ := hcall'
  rw [EventSeq.eventCreate] at ha hr'
  cases hm : A.malloc l.mallocs l.addrs.toFinset with
  | none =>
      rw [hm] at ha
      cases ha
  | some b =>
      rw [hm] at ha hr'
      cases ha
      exact ⟨by simpa using A.fresh hm, hr'⟩

/-- A node can be replaced by any number of nodes of its time. -/
theorem SortedByTime.replace {pre post outs : List EventNode} {e : EventNode}
    (hsorted : SortedByTime (pre ++ e :: post)) (houts : ∀ o ∈ outs, o.time = e.time) :
    SortedByTime (pre ++ (outs ++ post)) := by
  obtain ⟨hpre, hrest, hbetween⟩ := List.pairwise_append.mp hsorted
  obtain ⟨hfirst, hpost⟩ := List.pairwise_cons.mp hrest
  refine List.pairwise_append.mpr ⟨hpre, List.pairwise_append.mpr ⟨?_, hpost, ?_⟩, ?_⟩
  · exact List.pairwise_of_forall_mem_list fun a ha b hb => by rw [houts a ha, houts b hb]
  · intro o ho x hx
    rw [houts o ho]
    exact hfirst x hx
  · intro x hx o ho
    rcases List.mem_append.mp ho with ho | ho
    · rw [houts o ho]
      exact hbetween x hx e List.mem_cons_self
    · exact hbetween x hx o (List.mem_cons_of_mem e ho)

theorem SortedByTime.replicate {pre post rs : List EventNode} {e : EventNode}
    (hsorted : SortedByTime (pre ++ e :: post)) (hrs : ∀ r ∈ rs, e.IsReplica r) :
    SortedByTime (pre ++ e :: (rs ++ post)) := by
  have htime : ∀ r ∈ e :: rs, r.time = e.time := by
    intro r hr
    rcases List.mem_cons.mp hr with rfl | hr
    · rfl
    · exact congrArg EventData.time (hrs r hr).data
  exact hsorted.replace htime

/-- What a call does to the nodes of the list. -/
def EventCall.Effect (before after : List EventNode) : EventCall → Prop
  | .create content => ∃ a, a ∉ before.map EventNode.addr ∧
      after = insertByTime ⟨a, none, 0, content⟩ before
  | .replicate source count => ∃ pre e post rs, before = pre ++ e :: post ∧ e.addr = source ∧
      after = pre ++ e :: (rs ++ post) ∧ rs.length ≤ count ∧ ∀ r ∈ rs, e.IsReplica r
  | .destroy self => ∃ pre e post, before = pre ++ e :: post ∧ e.addr = self ∧ after = pre ++ post

theorem EventStep.effect {c : EventCall} (hstep : EventStep A h c h') (hr : h.Represents l) :
    ∃ l', h'.Represents l' ∧ c.Effect l.nodes l'.nodes := by
  cases hstep with
  | create hcall =>
      obtain ⟨hfresh, hr'⟩ := hr.create hcall
      exact ⟨_, hr', _, hfresh, rfl⟩
  | replicate he hcall =>
      rw [hr.readEvents] at he
      obtain ⟨pre, post, hsplit⟩ := List.append_of_mem he
      obtain ⟨nodes, mallocs⟩ := l
      obtain rfl : nodes = _ := hsplit
      obtain rfl : h.mallocs = mallocs := hr.mallocs
      -- the call of the step is the one that keeps the representation
      obtain ⟨i, h'', l', hcall', hrun', hr'⟩ := hr.eventReplicate A _
      rw [hcall, Except.ok.injEq, Prod.mk.injEq] at hcall'
      obtain ⟨-, rfl⟩ := hcall'
      obtain ⟨rs, mallocs', hrun, hle, -, hrs, -⟩ := eventReplicate_split _ hr.nodup
      obtain ⟨-, rfl⟩ := Prod.mk.inj (Except.ok.inj (hrun.symm.trans hrun'))
      exact ⟨_, hr', pre, _, post, rs, rfl, rfl, rfl, hle, hrs⟩
  | destroy he hcall =>
      rw [hr.readEvents] at he
      obtain ⟨pre, post, hsplit⟩ := List.append_of_mem he
      obtain ⟨nodes, mallocs⟩ := l
      obtain rfl : nodes = _ := hsplit
      obtain rfl : h.mallocs = mallocs := hr.mallocs
      obtain ⟨h'', hcall', -, hr'⟩ := hr.eventDestroy
      rw [hcall, Except.ok.injEq] at hcall'
      subst hcall'
      exact ⟨_, hr', pre, _, post, rfl, rfl, rfl⟩

/-- What a call does to a represented list that is sorted. -/
theorem EventStep.sorted_iff {c : EventCall} (hstep : EventStep A h c h') (hr : h.Represents l)
    (hsorted : SortedByTime l.nodes) :
    ∃ l', h'.Represents l' ∧ (SortedByTime l'.nodes ↔ InTimeOrder ⟨h, c, h'⟩) := by
  obtain ⟨l', hr', heffect⟩ := hstep.effect hr
  refine ⟨l', hr', ?_⟩
  cases c with
  | create content =>
      obtain ⟨a, -, heq⟩ := heffect
      rw [heq, insertByTime_sorted_iff hsorted]
      simp [InTimeOrder, hr.readEvents]
  | replicate source count =>
      obtain ⟨pre, e, post, rs, heq, -, heq', -, hrs⟩ := heffect
      rw [heq] at hsorted
      rw [heq']
      simp [InTimeOrder, hsorted.replicate hrs]
  | destroy self =>
      obtain ⟨pre, e, post, heq, -, heq'⟩ := heffect
      have hsub : (pre ++ post).Sublist (pre ++ e :: post) :=
        List.Sublist.append_left (List.sublist_cons_self e post) pre
      rw [heq] at hsorted
      rw [heq']
      simp [InTimeOrder, SortedByTime, hsorted.sublist hsub]

/-- Along a run the list is sorted at every point exactly when no creation is out of order. -/
theorem run_sorted_iff {τ : List (Transition EventHeap EventCall)} (hrun : Run (EventStep A) h τ h')
    (hr : h.Represents l) (hsorted : SortedByTime l.nodes) :
    (∀ x ∈ τ, SortedByTime x.after.readEvents) ↔ ∀ x ∈ τ, InTimeOrder x := by
  induction hrun generalizing l with
  | nil _ => simp
  | cons hstep _ ih =>
      obtain ⟨l', hr', hiff⟩ := hstep.sorted_iff hr hsorted
      simp only [List.mem_cons, forall_eq_or_imp, hr'.readEvents]
      rw [hiff]
      constructor
      · rintro ⟨horder, hrest⟩
        exact ⟨horder, (ih hr' (hiff.mpr horder)).mp hrest⟩
      · rintro ⟨horder, hrest⟩
        exact ⟨horder, (ih hr' (hiff.mpr horder)).mpr hrest⟩

/-- From the empty list, the event list is sorted by time after every call if and only if no event
is created that is earlier than one of the list; and a single creation on a sorted list puts the
event at its place in time if and only if it is no earlier than any event there. -/
theorem event_list_sorted_iff (hA : A.Succeeds) :
    (∀ τ h, Run (EventStep A) .initial τ h →
      ((∀ x ∈ τ, SortedByTime x.after.readEvents) ↔ ∀ x ∈ τ, InTimeOrder x)) ∧
    ∀ h l content, EventHeap.Represents h l → SortedByTime l.nodes →
      ∃ a h', h.eventCreate A content = .ok (some a, h') ∧
        (PlacedByTime ⟨a, none, 0, content⟩ l.nodes h'.readEvents ↔
          ∀ e ∈ l.nodes, e.time ≤ content.time) := by
  refine ⟨fun τ h hrun => run_sorted_iff hrun EventHeap.represents_initial List.Pairwise.nil, ?_⟩
  intro h l content hr hsorted
  obtain ⟨h', hcall, -⟩ := hr.eventCreate A content
  obtain ⟨a, ha⟩ := hA l.mallocs l.addrs.toFinset
  simp only [eventCreate, ha] at hcall
  obtain ⟨hfresh, hr'⟩ := hr.create hcall
  refine ⟨a, h', hcall, ?_⟩
  rw [hr'.readEvents]
  apply insertByTime_placed_iff hsorted
  exact fun hmem => hfresh (List.mem_map_of_mem hmem)

def contentAt (sec : Int) : EventData := { (default : EventData) with time := ⟨⟨sec, 0⟩⟩ }

/-- Two creations in order, as a run that stays sorted. -/
theorem event_list_sorted_iff_in_order :
    ∃ τ h, Run (EventStep .next) .initial τ h ∧ τ.length = 2 ∧
      ∀ x ∈ τ, SortedByTime x.after.readEvents := by
  obtain ⟨h₁, hcall₁, hlist₁⟩ : ∃ h₁, EventHeap.initial.eventCreate .next (contentAt 3) =
      .ok (some 1, h₁) ∧ h₁.readEvents = [⟨1, none, 0, contentAt 3⟩] := ⟨_, rfl, rfl⟩
  obtain ⟨h₂, hcall₂⟩ : ∃ h₂, h₁.eventCreate .next (contentAt 5) = .ok (some 2, h₂) := by
    cases hcall₁
    exact ⟨_, rfl⟩
  have hrun : Run (EventStep .next) .initial _ h₂ :=
    .cons (.create hcall₁) (.cons (.create hcall₂) (.nil h₂))
  refine ⟨_, h₂, hrun, rfl, ((event_list_sorted_iff Allocator.next_succeeds).1 _ _ hrun).mpr ?_⟩
  simp only [List.mem_cons, List.not_mem_nil, or_false, forall_eq_or_imp, forall_eq, InTimeOrder,
    EventCall.create.injEq, hlist₁]
  refine ⟨by simp [show EventHeap.initial.readEvents = [] from rfl], ?_⟩
  rintro _ rfl
  exact (absoluteTimeCmp_nonneg_iff _ _).mp (by decide)

/-- An event at time 3 created after one at time 5 ends up behind it. -/
theorem event_create_earlier_event :
    ∃ h₁ h₂, EventHeap.initial.eventCreate .next (contentAt 5) = .ok (some 1, h₁) ∧
      h₁.eventCreate .next (contentAt 3) = .ok (some 2, h₂) ∧
      h₂.readEvents.map (fun e => e.time.absolute.tvSec) = [5, 3] ∧
      ¬SortedByTime h₂.readEvents := by
  refine ⟨_, _, rfl, rfl, rfl, fun hsorted => ?_⟩
  have hle : (contentAt 5).time ≤ (contentAt 3).time :=
    (List.pairwise_cons.mp hsorted).1 ⟨2, none, 0, contentAt 3⟩ (List.mem_singleton.mpr rfl)
  exact absurd ((absoluteTimeCmp_nonneg_iff _ _).mpr hle) (by decide)

end EventSeq
