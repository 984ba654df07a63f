import Mathlib

/-!
# Lists whose elements are named by a key

The pointer operations on a list of cells: look one up by its address, step to the next one, insert
behind one, overwrite one, remove one.  Each comes with its equation on a list that is split at the
cell it names.
-/

namespace EventSeq.Lib.KeyedList

variable {α κ : Type*} [DecidableEq κ]

def lookup (key : α → κ) (k : κ) (l : List α) : Option α :=
  l.find? fun x => key x = k

def behind (key : α → κ) (k : κ) : List α → List α
  | [] => []
  | x :: l => if key x = k then l else behind key k l

def successor (key : α → κ) (k : κ) (l : List α) : Option κ :=
  (behind key k l).head?.map key

def insertAfter (key : α → κ) (k : κ) (new : α) : List α → List α
  | [] => []
  | x :: l => if key x = k then x :: new :: l else x :: insertAfter key k new l

def modify (key : α → κ) (k : κ) (f : α → α) (l : List α) : List α :=
  l.map fun x => if key x = k then f x else x

def remove (key : α → κ) (k : κ) : List α → List α
  | [] => []
  | x :: l => if key x = k then l else x :: remove key k l

variable {key : α → κ} {x : α} {pre post : List α}

@[simp] theorem lookup_split (hpre : key x ∉ pre.map key) :
    lookup key (key x) (pre ++ x :: post) = some x := by
  have hnone : pre.find? (fun y => decide (key y = key x)) = none := by
    rw [List.find?_eq_none]
    intro y hy
    have hne : key y ≠ key x := fun h => hpre (h ▸ List.mem_map_of_mem hy)
    simpa using hne
  rw [lookup, List.find?_append, hnone]
  simp

@[simp] theorem behind_split (hpre : key x ∉ pre.map key) :
    behind key (key x) (pre ++ x :: post) = post := by
  induction pre with
  | nil => simp [behind]
  | cons y pre ih =>
      rw [List.map_cons, List.mem_cons, not_or] at hpre
      rw [List.cons_append, behind, if_neg (Ne.symm hpre.1), ih hpre.2]

@[simp] theorem successor_split (hpre : key x ∉ pre.map key) :
    successor key (key x) (pre ++ x :: post) = post.head?.map key := by
  rw [successor, behind_split hpre]

@[simp] theorem insertAfter_split (hpre : key x ∉ pre.map key) (new : α) :
    insertAfter key (key x) new (pre ++ x :: post) = pre ++ x :: new :: post := by
  induction pre with
  | nil => simp [insertAfter]
  | cons y pre ih =>
      rw [List.map_cons, List.mem_cons, not_or] at hpre
      rw [List.cons_append, insertAfter, if_neg (Ne.symm hpre.1), ih hpre.2, List.cons_append]

theorem modify_of_not_mem {k : κ} {l : List α} (f : α → α) (h : k ∉ l.map key) :
    modify key k f l = l := by
  rw [modify, List.map_congr_left, List.map_id']
  intro y hy
  rw [if_neg]
  exact fun hk => h (hk ▸ List.mem_map_of_mem hy)

@[simp] theorem modify_split (hpre : key x ∉ pre.map key) (hpost : key x ∉ post.map key)
    (f : α → α) : modify key (key x) f (pre ++ x :: post) = pre ++ f x :: post := by
  have hmid : modify key (key x) f (pre ++ x :: post) =
      modify key (key x) f pre ++ f x :: modify key (key x) f post := by
    simp [modify]
  rw [hmid, modify_of_not_mem f hpre, modify_of_not_mem f hpost]

@[simp] theorem remove_split (hpre : key x ∉ pre.map key) :
    remove key (key x) (pre ++ x :: post) = pre ++ post := by
  induction pre with
  | nil => simp [remove]
  | cons y pre ih =>
      rw [List.map_cons, List.mem_cons, not_or] at hpre
      rw [List.cons_append, remove, if_neg (Ne.symm hpre.1), ih hpre.2, List.cons_append]

theorem lookup_eq_some {k : κ} {l : List α} (h : lookup key k l = some x) :
    ∃ pre post, l = pre ++ x :: post ∧ key x = k ∧ key x ∉ pre.map key := by
  obtain ⟨hx, pre, post, rfl, hpre⟩ := List.find?_eq_some_iff_append.mp h
  refine ⟨pre, post, rfl, by simpa using hx, fun hmem => ?_⟩
  obtain ⟨y, hy, hkey⟩ := List.mem_map.mp hmem
  simpa [hkey, of_decide_eq_true hx] using hpre y hy

omit [DecidableEq κ] in
/-- A list with distinct keys has one place to split it at a key. -/
theorem split_unique {x' : α} {pre' post' : List α} (hnodup : ((pre ++ x :: post).map key).Nodup)
    (heq : pre ++ x :: post = pre' ++ x' :: post') (hkey : key x' = key x) :
    pre' = pre ∧ x' = x ∧ post' = post := by
  induction pre generalizing pre' with
  | nil =>
      cases pre' with
      | nil =>
          cases heq
          exact ⟨rfl, rfl, rfl⟩
      | cons y pre' =>
          cases heq
          rw [List.nil_append, List.map_cons, List.nodup_cons] at hnodup
          exact absurd (hkey ▸ List.mem_map_of_mem (by simp)) hnodup.1
  | cons y pre ih =>
      cases pre' with
      | nil =>
          cases heq
          rw [List.cons_append, List.map_cons, List.nodup_cons] at hnodup
          exact absurd (hkey ▸ List.mem_map_of_mem (by simp)) hnodup.1
      | cons y' pre' =>
          obtain ⟨rfl, htail⟩ := List.cons.inj heq
          rw [List.cons_append, List.map_cons, List.nodup_cons] at hnodup
          obtain ⟨rfl, rfl, rfl⟩ := ih hnodup.2 htail
          exact ⟨rfl, rfl, rfl⟩

end EventSeq.Lib.KeyedList
