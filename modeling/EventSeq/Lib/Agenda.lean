import EventSeq.Lib.Runs

/-!
# Agendas

Items are scheduled under keys and fire in the order of their keys, items of one key in the order in
which they were scheduled.  The agenda keeps everything that was ever scheduled, and fires items by
their number, so that an item that is lost or fires twice can be told from another one like it.
-/

namespace EventSeq.Lib

variable {α K : Type*}

structure Agenda (α : Type*) where
  scheduled : List α
  fired : List Nat

namespace Agenda

def empty : Agenda α := ⟨[], []⟩

/-- A numbered item that is scheduled and has not fired. -/
def Pending (A : Agenda α) (p : Nat × α) : Prop :=
  A.scheduled[p.1]? = some p.2 ∧ p.1 ∉ A.fired

def schedule (A : Agenda α) (a : α) : Agenda α := { A with scheduled := A.scheduled ++ [a] }

def fire (A : Agenda α) (i : Nat) : Agenda α := { A with fired := A.fired ++ [i] }

/-- Nothing fires twice or without having been scheduled. -/
structure Sound (A : Agenda α) : Prop where
  fired_nodup : A.fired.Nodup
  fired_lt : ∀ i ∈ A.fired, i < A.scheduled.length

inductive Act (α K : Type*) where
  | schedule (item : α)
  | fire (clock : K) (item : α)
  | idle (clock : K)

section

variable [LinearOrder K] {key : α → K} {A B : Agenda α} {a : α} {l : List α}

/-- The firing order: by key, and by number where the keys are equal. -/
def Before (key : α → K) (p q : Nat × α) : Prop :=
  key p.2 < key q.2 ∨ key p.2 = key q.2 ∧ p.1 < q.1

/-- What may happen to an agenda: at any clock reading the first pending item fires once it is due,
and otherwise nothing changes. -/
inductive Step (key : α → K) : Agenda α → Act α K → Agenda α → Prop where
  | schedule (A : Agenda α) (a : α) : Step key A (.schedule a) (A.schedule a)
  | fire {A : Agenda α} {clock : K} {i : Nat} {a : α} :
      A.Pending (i, a) → (∀ q, A.Pending q → q ≠ (i, a) → Before key (i, a) q) → key a ≤ clock →
      Step key A (.fire clock a) (A.fire i)
  | idle {A : Agenda α} {clock : K} :
      (∀ q, A.Pending q → clock < key q.2) → Step key A (.idle clock) A

theorem Pending.lt {p : Nat × α} (h : A.Pending p) : p.1 < A.scheduled.length :=
  (List.getElem?_eq_some_iff.mp h.1).1

theorem empty_sound : (empty : Agenda α).Sound :=
  ⟨List.nodup_nil, by simp [empty]⟩

theorem Step.sound {act : Act α K} (h : Step key A act B) (hA : A.Sound) : B.Sound := by
  cases h with
  | schedule a =>
      refine ⟨hA.fired_nodup, fun i hi => ?_⟩
      have hlt := hA.fired_lt i hi
      rw [Agenda.schedule, List.length_append]
      omega
  | fire hpending _ _ =>
      refine ⟨List.nodup_append.mpr ⟨hA.fired_nodup, List.nodup_singleton _, ?_⟩, ?_⟩
      · rintro i hi j hj rfl
        rw [List.mem_singleton] at hj
        exact hpending.2 (hj ▸ hi)
      · intro i hi
        rcases List.mem_append.mp hi with hi | hi
        · exact hA.fired_lt i hi
        · rw [List.mem_singleton] at hi
          exact hi ▸ hpending.lt
  | idle _ => exact hA

/-! ## The pending items as a list -/

/-- The list is that of the pending items in the firing order. -/
def Lists (key : α → K) (A : Agenda α) (l : List α) : Prop :=
  ∃ numbered : List (Nat × α), numbered.map Prod.snd = l ∧ numbered.Pairwise (Before key) ∧
    ∀ p, p ∈ numbered ↔ A.Pending p

theorem empty_lists : (empty : Agenda α).Lists key [] :=
  ⟨[], rfl, .nil, by simp [Pending, empty]⟩

/-- An item with the highest number goes in front of the first item with a later key. -/
theorem exists_orderedInsert (n : Nat) (a : α) {numbered : List (Nat × α)}
    (hsorted : numbered.Pairwise (Before key)) (hn : ∀ p ∈ numbered, p.1 < n) :
    ∃ numbered' : List (Nat × α),
      numbered'.map Prod.snd =
        (numbered.map Prod.snd).orderedInsert (fun x y => key x < key y) a ∧
      numbered'.Pairwise (Before key) ∧ ∀ p, p ∈ numbered' ↔ p = (n, a) ∨ p ∈ numbered := by
  induction numbered with
  | nil => exact ⟨[(n, a)], rfl, List.pairwise_singleton _ _, by simp⟩
  | cons p numbered ih =>
      obtain ⟨hp, hrest⟩ := List.pairwise_cons.mp hsorted
      rw [List.map_cons]
      by_cases hlater : key a < key p.2
      · -- everything from here on comes later
        refine ⟨(n, a) :: p :: numbered, ?_, List.pairwise_cons.mpr ⟨?_, hsorted⟩, by simp⟩
        · rw [List.orderedInsert_cons, if_pos hlater]
          rfl
        · intro q hq
          rcases List.mem_cons.mp hq with rfl | hq
          · exact .inl hlater
          · rcases hp q hq with hlt | ⟨heq, -⟩
            · exact .inl (hlater.trans hlt)
            · exact .inl (heq ▸ hlater)
      · obtain ⟨numbered', hmap, hsorted', hmem⟩ :=
          ih hrest fun q hq => hn q (List.mem_cons_of_mem _ hq)
        refine ⟨p :: numbered', ?_, List.pairwise_cons.mpr ⟨fun q hq => ?_, hsorted'⟩, ?_⟩
        · rw [List.orderedInsert_cons, if_neg hlater, List.map_cons, hmap]
        · rcases (hmem q).mp hq with rfl | hq
          · -- an equal key was scheduled earlier
            rcases (not_lt.mp hlater).lt_or_eq with hlt | heq
            · exact .inl hlt
            · exact .inr ⟨heq, hn p List.mem_cons_self⟩
          · exact hp q hq
        · intro q
          rw [List.mem_cons, hmem, List.mem_cons]
          tauto

theorem Lists.schedule (h : A.Lists key l) (hA : A.Sound) (a : α) :
    (A.schedule a).Lists key (l.orderedInsert (fun x y => key x < key y) a) := by
  obtain ⟨numbered, rfl, hsorted, hmem⟩ := h
  obtain ⟨numbered', hmap, hsorted', hmem'⟩ :=
    exists_orderedInsert A.scheduled.length a hsorted fun p hp => ((hmem p).mp hp).lt
  refine ⟨numbered', hmap, hsorted', fun p => ?_⟩
  rw [hmem', hmem, Pending, Pending, Agenda.schedule]
  by_cases hlast : p.1 = A.scheduled.length
  · -- the new item, whose number has not been used
    have hfresh : p.1 ∉ A.fired := fun hfired => by
      have hlt := hA.fired_lt _ hfired
      omega
    have hnone : A.scheduled[p.1]? = none := List.getElem?_eq_none hlast.ge
    have hnew : (A.scheduled ++ [a])[p.1]? = some a := by
      rw [hlast, List.getElem?_concat_length]
    rw [hnone, hnew, Prod.ext_iff]
    simp [hlast, hlast ▸ hfresh, eq_comm]
  · have hne : p ≠ (A.scheduled.length, a) := fun heq => hlast (congrArg Prod.fst heq)
    have hold : (A.scheduled ++ [a])[p.1]? = A.scheduled[p.1]? := by
      by_cases hlt : p.1 < A.scheduled.length
      · exact List.getElem?_append_left hlt
      · rw [List.getElem?_eq_none (by rw [List.length_append, List.length_singleton]; omega),
          List.getElem?_eq_none (by omega)]
    rw [hold, or_iff_right hne]

/-- The head of the list is the first pending item, and firing it leaves the rest. -/
theorem Lists.fire (h : A.Lists key (a :: l)) :
    ∃ i, A.Pending (i, a) ∧ (∀ q, A.Pending q → q ≠ (i, a) → Before key (i, a) q) ∧
      (A.fire i).Lists key l := by
  obtain ⟨numbered, hmap, hsorted, hmem⟩ := h
  obtain ⟨⟨i, b⟩, numbered, rfl, hhead, htail⟩ := List.map_eq_cons_iff.mp hmap
  obtain rfl : b = a := hhead
  obtain ⟨hfirst, hrest⟩ := List.pairwise_cons.mp hsorted
  have hothers : ∀ q, A.Pending q → q ≠ (i, b) → q ∈ numbered := fun q hq hne =>
    (List.mem_cons.mp ((hmem q).mpr hq)).resolve_left hne
  refine ⟨i, (hmem _).mp List.mem_cons_self, fun q hq hne => hfirst q (hothers q hq hne),
    numbered, htail, hrest, fun q => ⟨fun hq => ?_, fun hq => ?_⟩⟩
  · have hpending := (hmem q).mp (List.mem_cons_of_mem _ hq)
    refine ⟨hpending.1, fun hfired => ?_⟩
    rcases List.mem_append.mp hfired with hfired | hfired
    · exact hpending.2 hfired
    · -- an item does not stand behind itself
      have hi : q.1 = i := List.mem_singleton.mp hfired
      have hb := ((hmem _).mp List.mem_cons_self).1
      have hsame : q.2 = b := by
        have hget := hpending.1
        rw [hi, hb, Option.some.injEq] at hget
        exact hget.symm
      rcases hfirst q hq with hlt | ⟨-, hlt⟩
      · exact absurd (hsame ▸ hlt) (lt_irrefl _)
      · exact absurd (hi ▸ hlt) (lt_irrefl _)
  · have hnot : q.1 ∉ A.fired := fun hfired => hq.2 (List.mem_append_left _ hfired)
    refine hothers q ⟨hq.1, hnot⟩ fun heq => hq.2 ?_
    rw [heq]
    exact List.mem_append_right _ (List.mem_singleton_self _)

/-- Where the head is not due, nothing is. -/
theorem Lists.not_due {clock : K} (h : A.Lists key l) (hhead : ∀ a ∈ l.head?, clock < key a) :
    ∀ q, A.Pending q → clock < key q.2 := by
  obtain ⟨numbered, rfl, hsorted, hmem⟩ := h
  intro q hq
  cases numbered with
  | nil => exact absurd ((hmem q).mpr hq) List.not_mem_nil
  | cons p numbered =>
      have hp : clock < key p.2 := hhead p.2 rfl
      rcases List.mem_cons.mp ((hmem q).mpr hq) with rfl | hq'
      · exact hp
      · rcases (List.pairwise_cons.mp hsorted).1 q hq' with hlt | ⟨heq, -⟩
        · exact hp.trans hlt
        · exact heq ▸ hp

end

end Agenda

end EventSeq.Lib
