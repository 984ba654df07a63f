import EventSeq.EventOrder

/-!
# Runs of calls on the event list

After any calls the cells form one ring through `END_EVENTS`, so that none of the functions meets a
null pointer, and each leaves the events it is not about where they are.
-/

namespace EventSeq

open Lib

/-- What `event_create` puts in the new node: without a content it is zeroed but for the time. -/
def createdData (content : Option EventData) (now : AbsoluteTime) : EventData :=
  content.getD { (default : EventData) with time := now }

namespace EventHeap

/-- `event_destroy_all`; `fuel` bounds the rounds of the loop. -/
def eventDestroyAll : Nat → EventHeap → Except Fault EventHeap
  | 0, _ => .error .diverges
  | fuel + 1, h =>
      match h.links.next .endEvents with
      | none => .error .dangling
      | some .endEvents => .ok h
      | some (.event ev) => do
          let h ← h.eventDestroy ev
          if h.links.next .endEvents = some (.event ev) then .error .aborts
          else eventDestroyAll fuel h

/-! ## What holds of the ring -/

/-- `next` and `prev` are inverse on one cycle through `END_EVENTS` and the live events. -/
structure IsEventRing (h : EventHeap) : Prop where
  ring : h.links.IsRing .endEvents (refs h.readEvents)
  inverse : ∀ r ∈ .endEvents :: refs h.readEvents, ∀ r' ∈ .endEvents :: refs h.readEvents,
    (h.links.next r = some r' ↔ h.links.prev r' = some r)
  live : ∀ a, a ∈ h.live ↔ .event a ∈ refs h.readEvents

/-- A creation returns and inserts one event. -/
def CreatesOne (A : Allocator) (h : EventHeap) : Prop :=
  ∀ content now, ∃ a h' pre post, h.eventCreate A (createdData content now) = .ok (some a, h') ∧
    a ∉ h.live ∧ h.readEvents = pre ++ post ∧
    h'.readEvents = pre ++ ⟨a, none, 0, createdData content now⟩ :: post

/-- A replication returns and inserts as many copies as asked for, right behind the source. -/
def ReplicatesBehind (A : Allocator) (h : EventHeap) : Prop :=
  ∀ source ∈ h.readEvents, ∀ count, ∃ h' pre post rs,
    h.eventReplicate A source.addr count = .ok (count, h') ∧
    h.readEvents = pre ++ source :: post ∧ h'.readEvents = pre ++ source :: (rs ++ post) ∧
    rs.length = count ∧ ∀ r ∈ rs, source.IsReplica r

/-- A destruction returns and removes its argument. -/
def DestroysOne (h : EventHeap) : Prop :=
  ∀ self ∈ h.readEvents, ∃ h' pre post, h.eventDestroy self.addr = .ok h' ∧
    h.readEvents = pre ++ self :: post ∧ h'.readEvents = pre ++ post

section

variable {A : Allocator} {h : EventHeap} {l : EventList}

theorem Represents.isEventRing (hr : h.Represents l) : h.IsEventRing := by
  have hring : h.links.IsRing .endEvents (refs h.readEvents) := hr.readEvents ▸ hr.ring
  refine ⟨hring, fun r hmem r' hmem' => hring.next_eq_iff hmem hmem', fun a => ?_⟩
  rw [hr.live, hr.readEvents, mem_refs, List.mem_toFinset, EventList.addrs]

theorem Represents.createsOne (hA : A.Succeeds) (hr : h.Represents l) : h.CreatesOne A := by
  intro content now
  obtain ⟨h', hcall, -⟩ := hr.eventCreate A (createdData content now)
  obtain ⟨a, ha⟩ := hA l.mallocs l.addrs.toFinset
  simp only [EventSeq.eventCreate, ha] at hcall
  obtain ⟨hfresh, hr'⟩ := hr.create hcall
  obtain ⟨pre, post, hsplit, hinsert⟩ :=
    insertByTime_split ⟨a, none, 0, createdData content now⟩ l.nodes
  refine ⟨a, h', pre, post, hcall, ?_, ?_, ?_⟩
  · rwa [hr.live, List.mem_toFinset]
  · rw [hr.readEvents, hsplit]
  · rw [hr'.readEvents, hinsert]

theorem Represents.replicatesBehind (hA : A.Succeeds) (hr : h.Represents l) :
    h.ReplicatesBehind A := by
  intro source hmem count
  rw [hr.readEvents] at hmem
  obtain ⟨pre, post, hsplit⟩ := List.append_of_mem hmem
  obtain ⟨nodes, mallocs⟩ := l
  obtain rfl : nodes = _ := hsplit
  obtain rfl : h.mallocs = mallocs := hr.mallocs
  obtain ⟨i, h', l', hcall, hrun', hr'⟩ := hr.eventReplicate A count
  obtain ⟨rs, mallocs', hrun, -, hall, hrs, -⟩ := @eventReplicate_split A source pre post _ count hr.nodup
  obtain ⟨rfl, rfl⟩ := Prod.mk.inj (Except.ok.inj (hrun.symm.trans hrun'))
  rw [hall hA] at hcall
  exact ⟨h', pre, post, rs, hcall, hr.readEvents, hr'.readEvents, hall hA, hrs⟩

theorem Represents.destroysOne (hr : h.Represents l) : h.DestroysOne := by
  intro self hmem
  rw [hr.readEvents] at hmem
  obtain ⟨pre, post, hsplit⟩ := List.append_of_mem hmem
  obtain ⟨nodes, mallocs⟩ := l
  obtain rfl : nodes = _ := hsplit
  obtain rfl : h.mallocs = mallocs := hr.mallocs
  obtain ⟨h', hcall, -, hr'⟩ := hr.eventDestroy
  exact ⟨h', pre, post, hcall, hr.readEvents, hr'.readEvents⟩

/-- The loop destroys the first event until there is none. -/
theorem Represents.eventDestroyAll (hr : h.Represents l) {fuel : Nat} (hfuel : l.nodes.length < fuel) :
    ∃ h', h.eventDestroyAll fuel = .ok h' ∧ h'.Represents ⟨[], l.mallocs⟩ := by
  obtain ⟨nodes, mallocs⟩ := l
  induction nodes generalizing h fuel with
  | nil =>
      obtain ⟨fuel, rfl⟩ : ∃ n, fuel = n + 1 := ⟨fuel - 1, by omega⟩
      have hfirst : h.links.next .endEvents = some .endEvents := hr.ring.2.next_head
      exact ⟨h, by rw [EventHeap.eventDestroyAll, hfirst], hr⟩
  | cons e rest ih =>
      obtain ⟨fuel, rfl⟩ : ∃ n, fuel = n + 1 := ⟨fuel - 1, by omega⟩
      obtain rfl : h.mallocs = mallocs := hr.mallocs
      have hfirst : h.links.next .endEvents = some (.event e.addr) := hr.ring.2.next_head
      have hr₀ : h.Represents ⟨[] ++ e :: rest, h.mallocs⟩ := hr
      obtain ⟨h₁, hdestroy, -, hr₁⟩ := hr₀.eventDestroy
      rw [List.nil_append] at hr₁
      -- the destroyed event does not come again, so that the check passes
      have hnext : h₁.links.next .endEvents ≠ some (.event e.addr) := by
        have hnodup := hr.nodup
        rw [EventList.addrs, List.map_cons, List.nodup_cons] at hnodup
        rw [hr₁.ring.2.next_head]
        cases rest with
        | nil => simp [refs]
        | cons e' rest =>
            simp only [refs_cons, List.cons_append, List.head_cons, ne_eq, Option.some.injEq,
              Ref.event.injEq]
            intro hsame
            exact hnodup.1 (by simp [hsame])
      obtain ⟨h', hrest, hr'⟩ := ih hr₁ (by simpa using hfuel)
      refine ⟨h', ?_, hr'⟩
      simp only [EventHeap.eventDestroyAll, hfirst, hdestroy, bind, Except.bind, if_neg hnext, hrest]

end

end EventHeap

open EventHeap

/-! ## Runs -/

variable {A : Allocator} {h : EventHeap}

theorem run_represents {τ : List (Transition EventHeap EventCall)}
    (hrun : Run (EventStep A) .initial τ h) : ∃ l, h.Represents l := by
  have hkeep : ∀ (s : EventHeap) (c : EventCall) (t : EventHeap), EventStep A s c t →
      (∃ l, s.Represents l) → ∃ l, t.Represents l := by
    rintro s c t hstep ⟨l, hr⟩
    obtain ⟨l', hr', -⟩ := hstep.effect hr
    exact ⟨l', hr'⟩
  exact @Run.invariant _ _ _ _ _ _ (fun s => ∃ l, s.Represents l) hkeep hrun
    ⟨_, represents_initial⟩

/-- From the initial list, every sequence of calls keeps the ring; each further call returns and
changes what it is about, and the list can be emptied. -/
theorem event_list_stays_ring (hA : A.Succeeds) {τ : List (Transition EventHeap EventCall)}
    (hrun : Run (EventStep A) .initial τ h) :
    h.IsEventRing ∧ h.CreatesOne A ∧ h.ReplicatesBehind A ∧ h.DestroysOne ∧
      ∀ fuel > h.live.card, ∃ h', h.eventDestroyAll fuel = .ok h' ∧ h'.IsEventRing ∧
        h'.readEvents = [] ∧ h'.live = ∅ := by
  obtain ⟨l, hr⟩ := run_represents hrun
  refine ⟨hr.isEventRing, hr.createsOne hA, hr.replicatesBehind hA, hr.destroysOne,
    fun fuel hfuel => ?_⟩
  obtain ⟨h', hcall, hr'⟩ := hr.eventDestroyAll (hr.card ▸ hfuel)
  exact ⟨h', hcall, hr'.isEventRing, hr'.readEvents, by rw [hr'.live]; rfl⟩

/-- A creation, two replicas of its event, and the destruction of the source. -/
theorem event_list_stays_ring_three :
    ∃ τ h, Run (EventStep .next) .initial τ h ∧ τ.length = 3 ∧
      h.readEvents.map EventNode.addr = [3, 2] ∧ h.IsEventRing ∧ h.CreatesOne .next ∧
      h.ReplicatesBehind .next ∧ h.DestroysOne ∧
      ∃ h', h.eventDestroyAll 3 = .ok h' ∧ h'.readEvents = [] := by
  obtain ⟨h₁, hcreate, hlist₁⟩ : ∃ h₁, EventHeap.initial.eventCreate .next (contentAt 3) =
      .ok (some 1, h₁) ∧ ⟨1, none, 0, contentAt 3⟩ ∈ h₁.readEvents := ⟨_, rfl, by decide⟩
  obtain ⟨h₂, hreplicate, hlist₂⟩ : ∃ h₂, h₁.eventReplicate .next 1 2 = .ok (2, h₂) ∧
      ⟨1, none, 0, contentAt 3⟩ ∈ h₂.readEvents := by
    cases hcreate
    exact ⟨_, rfl, by decide⟩
  obtain ⟨h₃, hdestroy, hlist₃, hcard⟩ : ∃ h₃, h₂.eventDestroy 1 = .ok h₃ ∧
      h₃.readEvents.map EventNode.addr = [3, 2] ∧ h₃.live.card = 2 := by
    cases hcreate
    cases hreplicate
    exact ⟨_, rfl, by decide, by decide⟩
  have hrun : Run (EventStep .next) .initial _ h₃ :=
    .cons (.create hcreate) (.cons (.replicate hlist₁ hreplicate)
      (.cons (.destroy hlist₂ hdestroy) (.nil h₃)))
  obtain ⟨hring, hcreates, hreplicates, hdestroys, hall⟩ :=
    event_list_stays_ring Allocator.next_succeeds hrun
  obtain ⟨h', hempty, -, hnone, -⟩ := hall 3 (by omega)
  exact ⟨_, h₃, hrun, rfl, hlist₃, hring, hcreates, hreplicates, hdestroys, h', hempty, hnone⟩

end EventSeq
