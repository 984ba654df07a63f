import EventSeq.RunningProgram
import EventSeq.StartupExits

/-!
# Waiting for input (`process_io`)

`process_io` waits until one of the files of the enabled sources is ready, and calls the sources of
those that are.
-/

namespace EventSeq

open Lib

/-- `subscriber->enabled` of the subscription that is a part of a source. -/
def subscriptionEnabled (w : World) (n : Nat) : Except Fault Bool := do
  let node ← w.node n
  match node.kind with
  | .evdev source | .getchar source => .ok source.enabled
  -- no other node has an `IOHandling`
  | _ => .error .dangling

/-- The number of files that a `fd_set` has room for. -/
def fdSetSize : Int := 1024

/-- `FD_SET` and `FD_ISSET` access the set at a file. -/
def accessFdSet (fd : Int) : Except Fault Unit :=
  if 0 ≤ fd ∧ fd < fdSetSize then .ok () else .error .outOfRange

/-- One round of the loop of `populate_fd_set`. -/
def populateOne (w : World) (src : IOSubscriptionList) (s : Finset Int × Int) (i : Nat) :
    Except Fault (Finset Int × Int) := do
  let (fds, maxFd) := s
  match ← readCell src.subscribers i with
  | none => .ok (fds, maxFd)
  | some subscriber => do
      -- the file of a subscription that is not enabled is not looked at
      if ← subscriptionEnabled w subscriber then do
        let fd ← readCell src.fds i
        accessFdSet fd
        .ok (insert fd fds, if fd > maxFd then fd else maxFd)
      else .ok (fds, maxFd)

def populateFdSet (w : World) (src : IOSubscriptionList) (oldMaxFd : Int) :
    Except Fault (Finset Int × Int) :=
  (List.range src.length).foldlM (populateOne w src) (∅, oldMaxFd)

/-- One round of the loop of `run_io_handlers`, which adds the call that it makes; `reads i` is what the
subscriber `i` reads, if that ever comes. -/
def runIoHandler (P : Platform) (reads : Nat → Option SourceInput) (fds : Finset Int)
    (subs : IOSubscriptionList) (s : World × List SystemCall) (i : Nat) :
    Except Fault (World × List SystemCall) := do
  let (w, calls) := s
  let fd ← readCell subs.fds i
  accessFdSet fd
  if fd ∈ fds then
    match ← readCell subs.subscribers i with
    | none => .ok s
    | some subscriber => do
        -- tested again, in the state that the calls before this one have left
        if ← subscriptionEnabled w subscriber then
          match reads i with
          | none => .error .blocks
          | some input => do
              let w ← handleIo P w subscriber input
              .ok (w, calls ++ [.read subscriber input])
        else .ok s
  else .ok s

def runIoHandlers (P : Platform) (reads : Nat → Option SourceInput) (fds : Finset Int)
    (subs : IOSubscriptionList) (s : World × List SystemCall) :
    Except Fault (World × List SystemCall) :=
  (List.range subs.length).foldlM (runIoHandler P reads fds subs) s

/-- What a call of `pselect` comes to: it waits for ever or fails, or there are files that are ready. -/
inductive SelectOutcome where
  | blocks
  | fails
  | ready (readfds writefds : Finset Int)

/-- What a call of `process_io` meets.  `pselect` is told how many files to look at, those that are waited
for and the timeout.  A subscriber reads what `reads` says, by the list that it is in and its place
there; without an input its read waits for ever. -/
structure IoConditions where
  pselect : Int → Finset Int → Finset Int → Option RelativeTime → SelectOutcome
  reads : Bool → Nat → Option SourceInput

/-- `process_io`, with the calls of sources that it makes. -/
def WaitLists.processIo (P : Platform) (io : IoConditions) (timeout : Option RelativeTime)
    (state : WaitLists) (w : World) : Except Fault (Bool × World × List SystemCall) := do
  let (readfds, maxFd) ← populateFdSet w state.waitInput 0
  let (writefds, maxFd) ← populateFdSet w state.waitOutput maxFd
  match io.pselect (maxFd + 1) readfds writefds timeout with
  | .blocks => .error .blocks
  -- nothing is read from the sets after a call that fails
  | .fails => .ok (false, w, [])
  | .ready readfds writefds => do
      let s ← runIoHandlers P (io.reads false) readfds state.waitInput (w, [])
      let (w, calls) ← runIoHandlers P (io.reads true) writefds state.waitOutput s
      .ok (true, w, calls)

/-! ## The files that are waited for -/

/-- The subscription of the node is enabled. -/
def World.listens (w : World) (n : Nat) : Bool :=
  match subscriptionEnabled w n with
  | .ok enabled => enabled
  | .error _ => false

/-- The files of the subscriptions that are enabled. -/
def World.waitsFor (w : World) (subs : List (Int × Nat)) : Finset Int :=
  ((subs.filter fun s => w.listens s.2).map Prod.fst).toFinset

/-- The subscribers are sources, each of them subscribed once, and their files have room in a set. -/
structure World.Subscribed (w : World) (subs : List (Int × Nat)) : Prop where
  nodup : (subs.map Prod.snd).Nodup
  sources : ∀ s ∈ subs, ∃ enabled, subscriptionEnabled w s.2 = .ok enabled
  files : ∀ s ∈ subs, 0 ≤ s.1 ∧ s.1 < fdSetSize

section

variable {P : Platform} {w w' : World} {lst : IOSubscriptionList} {subs : List (Int × Nat)}

theorem World.mem_waitsFor {fd : Int} :
    fd ∈ w.waitsFor subs ↔ ∃ s ∈ subs, w.listens s.2 = true ∧ s.1 = fd := by
  simp [World.waitsFor]

theorem World.waitsFor_append (subs : List (Int × Nat)) (s : Int × Nat) :
    w.waitsFor (subs ++ [s]) =
      if w.listens s.2 then insert s.1 (w.waitsFor subs) else w.waitsFor subs := by
  ext fd
  rw [World.mem_waitsFor]
  split <;> rename_i hlistens
  · rw [Finset.mem_insert, World.mem_waitsFor]
    constructor
    · rintro ⟨x, hx, hon, rfl⟩
      rcases List.mem_append.mp hx with hx | hx
      · exact .inr ⟨x, hx, hon, rfl⟩
      · exact .inl (congrArg Prod.fst (List.mem_singleton.mp hx))
    · rintro (rfl | ⟨x, hx, hon, rfl⟩)
      · exact ⟨s, by simp, hlistens, rfl⟩
      · exact ⟨x, List.mem_append_left _ hx, hon, rfl⟩
  · rw [World.mem_waitsFor]
    constructor
    · rintro ⟨x, hx, hon, rfl⟩
      rcases List.mem_append.mp hx with hx | hx
      · exact ⟨x, hx, hon, rfl⟩
      · rw [List.mem_singleton.mp hx] at hon
        exact absurd hon hlistens
    · rintro ⟨x, hx, hon, rfl⟩
      exact ⟨x, List.mem_append_left _ hx, hon, rfl⟩

theorem World.listens_eq {n : Nat} {enabled : Bool} (h : subscriptionEnabled w n = .ok enabled) :
    w.listens n = enabled := by
  rw [World.listens, h]

theorem accessFdSet_ok {fd : Int} (h : 0 ≤ fd ∧ fd < fdSetSize) : accessFdSet fd = .ok () :=
  if_pos h

theorem IOSubscriptionList.Holds.read (h : lst.Holds subs) {i : Nat} {s : Int × Nat}
    (hs : subs[i]? = some s) :
    readCell lst.fds i = .ok s.1 ∧ readCell lst.subscribers i = .ok (some s.2) :=
  ⟨readCell_holds h.fds (by rw [List.getElem?_map, hs]; rfl),
    readCell_holds h.subscribers (by rw [List.getElem?_map, hs]; rfl)⟩

/-- `populate_fd_set` asks for the files of the enabled subscriptions, and the number it returns is not
below any of them. -/
theorem populateFdSet_holds (h : lst.Holds subs) (hw : w.Subscribed subs) (oldMaxFd : Int) :
    ∃ maxFd, populateFdSet w lst oldMaxFd = .ok (w.waitsFor subs, maxFd) ∧ oldMaxFd ≤ maxFd ∧
      ∀ fd ∈ w.waitsFor subs, fd ≤ maxFd := by
  -- after `i` rounds the set has the files of the first `i` subscriptions
  have hloop := @foldlM_range _ _ (populateOne w lst) (fun i s => s.1 = w.waitsFor (subs.take i) ∧
    oldMaxFd ≤ s.2 ∧ ∀ fd ∈ s.1, fd ≤ s.2) subs.length ?_ (∅, oldMaxFd) ⟨rfl, le_rfl, by simp⟩
  · obtain ⟨⟨fds, maxFd⟩, hrun, hfds, hmax⟩ := hloop
    rw [List.take_length] at hfds
    obtain rfl : fds = w.waitsFor subs := hfds
    exact ⟨maxFd, by rw [populateFdSet, h.length, hrun], hmax⟩
  · rintro i hi ⟨fds, maxFd⟩ ⟨hfds, hold, hmax⟩
    obtain rfl : fds = w.waitsFor (subs.take i) := hfds
    have hs : subs[i]? = some subs[i] := List.getElem?_eq_getElem hi
    have hmem : subs[i] ∈ subs := List.getElem_mem hi
    obtain ⟨hfd, hsubscriber⟩ := h.read hs
    obtain ⟨enabled, henabled⟩ := hw.sources _ hmem
    have htake := w.waitsFor_append (subs.take i) subs[i]
    rw [← List.take_succ_eq_append_getElem hi, World.listens_eq henabled] at htake
    cases enabled with
    | false =>
        refine ⟨(w.waitsFor (subs.take i), maxFd), ?_, htake.symm, hold, hmax⟩
        simp only [populateOne, hsubscriber, henabled, bind, Except.bind]
        rfl
    | true =>
        refine ⟨(insert subs[i].1 (w.waitsFor (subs.take i)),
          if subs[i].1 > maxFd then subs[i].1 else maxFd), ?_, htake.symm, ?_, ?_⟩
        · simp only [populateOne, hsubscriber, henabled, hfd, accessFdSet_ok (hw.files _ hmem), bind,
            Except.bind]
          rfl
        · show oldMaxFd ≤ if subs[i].1 > maxFd then subs[i].1 else maxFd
          split <;> omega
        · intro fd hfd'
          show fd ≤ if subs[i].1 > maxFd then subs[i].1 else maxFd
          rcases Finset.mem_insert.mp hfd' with rfl | hfd'
          · split <;> omega
          · have hle := hmax fd hfd'
            split <;> omega

end

/-! ## Calling the sources -/

/-- The kind of source reads inputs like this one. -/
def NodeKind.reads : NodeKind → SourceInput → Bool
  | .evdev _, .evdev _ => true
  | .getchar _, .getchar _ => true
  | _, _ => false

/-- With this input the source is not read any more: the standard input has ended, or the device has
failed. -/
def SourceInput.ends : SourceInput → Bool
  | .evdev input => input.ending = .failed
  | .getchar input => input.status = .ended

section

variable {P : Platform} {w w' : World} {lst : IOSubscriptionList} {subs : List (Int × Nat)} {n : Nat}
  {input : SourceInput} {node : GraphNode}

theorem subscriptionEnabled_congr (h : w'.nodes[n]? = w.nodes[n]?) :
    subscriptionEnabled w' n = subscriptionEnabled w n := by
  simp only [subscriptionEnabled, World.node, h]

/-- A callback that gets input of its kind returns.  It only changes the node of its source, and that
only with the input that ends it. -/
theorem handleIo_returns (hnode : w.nodes[n]? = some node) (hreads : node.kind.reads input = true) :
    ∃ w', handleIo P w n input = .ok w' ∧ (∀ m ≠ n, w'.nodes[m]? = w.nodes[m]?) ∧
      subscriptionEnabled w' n =
        if input.ends then .ok false else subscriptionEnabled w n := by
  obtain ⟨waiting, inputs, outputs, kind⟩ := node
  have hmodify : ∀ (f : GraphNode → GraphNode), ∀ m ≠ n, (w.nodes.modify n f)[m]? = w.nodes[m]? :=
    fun f m hm => List.getElem?_modify_ne f w.nodes hm.symm
  cases kind <;> cases input <;> try cases hreads
  case evdev.evdev source input =>
    refine ⟨_, by simp only [handleIo, evdevHandleIo, World.node_eq hnode, bind, Except.bind]; rfl,
      hmodify _, ?_⟩
    simp only [subscriptionEnabled, World.setNode, World.node, List.getElem?_modify_eq, hnode,
      SourceInput.ends, bind, Except.bind, Option.map_eq_map, Option.map_some]
    by_cases hending : input.ending = .failed <;> simp [hending]
  case getchar.getchar source input =>
    obtain ⟨status, now⟩ := input
    cases status with
    | failed =>
        refine ⟨w, by simp only [handleIo, getcharHandleIo, World.node_eq hnode, bind, Except.bind],
          fun _ _ => rfl, ?_⟩
        rfl
    | ended =>
        refine ⟨_, by simp only [handleIo, getcharHandleIo, World.node_eq hnode, bind, Except.bind]; rfl,
          hmodify _, ?_⟩
        simp [subscriptionEnabled, World.setNode, World.node, List.getElem?_modify_eq, hnode,
          SourceInput.ends, bind, Except.bind]
    | byte b =>
        have hcall : handleIo P w n (.getchar ⟨.byte b, now⟩) = .ok { w with
            events := createForOutputs P.allocator (getcharEventData 1 (Int64.ofNat b.toNat) now) outputs
              w.events } := by
          simp only [handleIo, getcharHandleIo, World.node_eq hnode, bind, Except.bind]
        exact ⟨_, hcall, fun _ _ => rfl, rfl⟩

end

/-- A step of the program: a call of a handler, or of the callback of a source that is enabled. -/
def ProgramMove (P : Platform) (w : World) (c : SystemCall) (w' : World) : Prop :=
  SystemMove P w c w' ∧ ∀ n input, c = .read n input → w.listens n = true

/-- The node is a source that reads inputs like this one. -/
def World.Reads (w : World) (n : Nat) (input : SourceInput) : Prop :=
  ∃ node, w.nodes[n]? = some node ∧ node.kind.reads input = true

/-- The subscriptions, each with its place, that are enabled and whose files are among `fds`. -/
def World.readySources (w : World) (fds : Finset Int) (subs : List (Int × Nat)) :
    List ((Int × Nat) × Nat) :=
  subs.zipIdx.filter fun s => s.1.1 ∈ fds ∧ w.listens s.1.2

/-- The calls for the files `fds` that are ready: one for each subscription that is enabled, unless one
of the reads waits for ever. -/
def World.readyReads (w : World) (reads : Nat → Option SourceInput) (fds : Finset Int)
    (subs : List (Int × Nat)) : Option (List SystemCall) :=
  (w.readySources fds subs).mapM fun s => (reads s.2).map (SystemCall.read s.1.2)

section

variable {P : Platform} {w w' : World} {lst : IOSubscriptionList} {subs : List (Int × Nat)}
  {reads : Nat → Option SourceInput} {fds : Finset Int} {i : Nat}

theorem World.readyReads_append (reads : Nat → Option SourceInput) (fds : Finset Int)
    (subs : List (Int × Nat)) (s : Int × Nat) :
    w.readyReads reads fds (subs ++ [s]) =
      (w.readyReads reads fds subs).bind fun calls =>
        if s.1 ∈ fds ∧ w.listens s.2 = true then
          (reads subs.length).map fun input => calls ++ [.read s.2 input]
        else some calls := by
  unfold World.readyReads World.readySources
  rw [List.zipIdx_append, List.filter_append, List.mapM_append]
  refine bind_congr fun calls => ?_
  by_cases hready : s.1 ∈ fds ∧ w.listens s.2 = true
  · cases hread : reads subs.length <;> simp [hready, hread]
  · simp [hready]

theorem runIoHandler_idle (h : lst.Holds subs) {s : Int × Nat} {enabled : Bool}
    (hs : subs[i]? = some s) (hfile : 0 ≤ s.1 ∧ s.1 < fdSetSize)
    (henabled : subscriptionEnabled w s.2 = .ok enabled) (hidle : ¬(s.1 ∈ fds ∧ enabled = true))
    (calls : List SystemCall) : runIoHandler P reads fds lst (w, calls) i = .ok (w, calls) := by
  obtain ⟨hfd, hsubscriber⟩ := h.read hs
  simp only [runIoHandler, hfd, accessFdSet_ok hfile, hsubscriber, henabled, bind, Except.bind]
  by_cases hready : s.1 ∈ fds
  · rw [if_pos hready, if_neg fun henabled => hidle ⟨hready, henabled⟩]
  · rw [if_neg hready]

/-- A round that calls a source reads its input, if that comes. -/
theorem runIoHandler_ready (h : lst.Holds subs) {s : Int × Nat} (hs : subs[i]? = some s)
    (hfile : 0 ≤ s.1 ∧ s.1 < fdSetSize) (henabled : subscriptionEnabled w s.2 = .ok true)
    (hready : s.1 ∈ fds) (calls : List SystemCall) :
    runIoHandler P reads fds lst (w, calls) i =
      match reads i with
      | none => .error .blocks
      | some input => (handleIo P w s.2 input).map fun w' => (w', calls ++ [.read s.2 input]) := by
  obtain ⟨hfd, hsubscriber⟩ := h.read hs
  simp only [runIoHandler, hfd, accessFdSet_ok hfile, hsubscriber, henabled, bind, Except.bind,
    if_pos hready]
  cases reads i with
  | none => rfl
  | some input => cases handleIo P w s.2 input <;> rfl

/-- What the first `i` rounds come to: they have called the enabled sources whose files are ready, up to a
read that waits for ever, and have left the other nodes alone. -/
def ServesFirst (P : Platform) (reads : Nat → Option SourceInput) (fds : Finset Int)
    (lst : IOSubscriptionList) (subs : List (Int × Nat)) (w : World) (i : Nat) : Prop :=
  w.readyReads reads fds (subs.take i) = none ∧
    (List.range i).foldlM (runIoHandler P reads fds lst) (w, []) = .error .blocks ∨
  ∃ τ w', w.readyReads reads fds (subs.take i) = some (τ.map Transition.label) ∧
    (List.range i).foldlM (runIoHandler P reads fds lst) (w, []) = .ok (w', τ.map Transition.label) ∧
    Run (ProgramMove P) w τ w' ∧ ∀ m ∉ (subs.take i).map Prod.snd, w'.nodes[m]? = w.nodes[m]?

/-- The next round finds its source as it was, and so enabled if it was. -/
theorem ServesFirst.succ (hserved : ServesFirst P reads fds lst subs w i) (h : lst.Holds subs)
    (hw : w.Subscribed subs)
    (hreads : ∀ i s input, subs[i]? = some s → reads i = some input → w.Reads s.2 input)
    (hi : i < subs.length) : ServesFirst P reads fds lst subs w (i + 1) := by
  have hs : subs[i]? = some subs[i] := List.getElem?_eq_getElem hi
  have hmem : subs[i] ∈ subs := List.getElem_mem hi
  obtain ⟨enabled, henabled⟩ := hw.sources _ hmem
  have htake := List.take_succ_eq_append_getElem hi
  have hcalls := w.readyReads_append reads fds (subs.take i) subs[i]
  rw [← htake, World.listens_eq henabled, List.length_take_of_le hi.le] at hcalls
  unfold ServesFirst
  rw [foldlM_range_succ]
  rcases hserved with ⟨hnone, hblocks⟩ | ⟨τ, w', hbefore, hrun, hτ, hsame⟩
  · rw [hnone] at hcalls
    rw [hblocks]
    exact .inl ⟨hcalls, rfl⟩
  · rw [hbefore, Option.bind_some] at hcalls
    simp only [hrun, bind, Except.bind]
    -- the source has not been called yet
    have hnew : subs[i].2 ∉ (subs.take i).map Prod.snd := by
      have hnodup := hw.nodup
      rw [← List.take_append_drop (i + 1) subs, htake, List.map_append, List.map_append,
        List.nodup_append, List.nodup_append] at hnodup
      exact fun hin => hnodup.1.2.2 _ hin _ (by simp) rfl
    have hnode := hsame _ hnew
    have henabled' := (subscriptionEnabled_congr hnode).trans henabled
    have hothers : ∀ m ∉ (subs.take (i + 1)).map Prod.snd,
        m ∉ (subs.take i).map Prod.snd ∧ m ≠ subs[i].2 := by
      intro m hm
      rw [htake, List.map_append, List.mem_append, not_or] at hm
      exact ⟨hm.1, by simpa using hm.2⟩
    by_cases hcalled : subs[i].1 ∈ fds ∧ enabled = true
    · obtain ⟨hready, rfl⟩ := hcalled
      rw [if_pos ⟨hready, rfl⟩] at hcalls
      rw [runIoHandler_ready h hs (hw.files _ hmem) henabled' hready]
      cases hinput : reads i with
      | none =>
          rw [hinput] at hcalls
          exact .inl ⟨hcalls, rfl⟩
      | some input =>
          obtain ⟨node, hat, hkind⟩ := hreads i _ input hs hinput
          obtain ⟨w'', hcall, hsame', -⟩ :=
            @handleIo_returns P w' _ input node (hnode.trans hat) hkind
          have hmove : ProgramMove P w' (.read subs[i].2 input) w'' := by
            refine ⟨⟨P.depth, .read hcall⟩, ?_⟩
            rintro n input ⟨⟩
            exact World.listens_eq henabled'
          refine .inr ⟨τ ++ [⟨w', .read subs[i].2 input, w''⟩], w'', ?_, ?_,
            hτ.append (.single hmove), fun m hm => ?_⟩
          · rw [hcalls, hinput, List.map_append]
            rfl
          · dsimp only
            rw [hcall, List.map_append]
            rfl
          · obtain ⟨hold, hother⟩ := hothers m hm
            rw [hsame' m hother, hsame m hold]
    · rw [if_neg hcalled] at hcalls
      exact .inr ⟨τ, w', hcalls,
        runIoHandler_idle h hs (hw.files _ hmem) henabled' hcalled _, hτ,
        fun m hm => hsame m (hothers m hm).1⟩

/-- `run_io_handlers` calls the enabled sources whose files are ready, in the order of their
subscriptions, up to a read that waits for ever. -/
theorem runIoHandlers_holds (P : Platform) (fds : Finset Int) (h : lst.Holds subs)
    (hw : w.Subscribed subs)
    (hreads : ∀ i s input, subs[i]? = some s → reads i = some input → w.Reads s.2 input) :
    w.readyReads reads fds subs = none ∧ runIoHandlers P reads fds lst (w, []) = .error .blocks ∨
    ∃ τ w', w.readyReads reads fds subs = some (τ.map Transition.label) ∧
      runIoHandlers P reads fds lst (w, []) = .ok (w', τ.map Transition.label) ∧
      Run (ProgramMove P) w τ w' := by
  have hrounds : ∀ i ≤ subs.length, ServesFirst P reads fds lst subs w i := by
    intro i
    induction i with
    | zero => exact fun _ => .inr ⟨[], w, rfl, rfl, .nil w, fun _ _ => rfl⟩
    | succ i ih => exact fun hi => (ih (Nat.le_of_succ_le hi)).succ h hw hreads hi
  have hall := hrounds subs.length le_rfl
  rw [ServesFirst, List.take_length] at hall
  rw [runIoHandlers, h.length]
  rcases hall with hblocks | ⟨τ, w', hcalls, hrun, hτ, -⟩
  · exact .inl hblocks
  · exact .inr ⟨τ, w', hcalls, hrun, hτ⟩

end

section

variable {P : Platform} {w w' : World} {state : WaitLists} {subs : List (Int × Nat)}
  {io : IoConditions}

/-- `process_io` waits for the files of the enabled sources, all of which are below the number that it
gives, and calls those whose files are ready. -/
theorem WaitLists.processIo_holds (P : Platform) (h : state.Holds subs) (hw : w.Subscribed subs)
    (hreads : ∀ i s input, subs[i]? = some s → io.reads false i = some input → w.Reads s.2 input)
    (timeout : Option RelativeTime) :
    ∃ nfds, (∀ fd ∈ w.waitsFor subs, fd < nfds) ∧
      match io.pselect nfds (w.waitsFor subs) ∅ timeout with
      | .blocks => state.processIo P io timeout w = .error .blocks
      | .fails => state.processIo P io timeout w = .ok (false, w, [])
      | .ready readfds _ =>
          w.readyReads (io.reads false) readfds subs = none ∧
            state.processIo P io timeout w = .error .blocks ∨
          ∃ τ w', w.readyReads (io.reads false) readfds subs = some (τ.map Transition.label) ∧
            state.processIo P io timeout w = .ok (true, w', τ.map Transition.label) ∧
            Run (ProgramMove P) w τ w' := by
  have hnone : w.Subscribed [] := ⟨.nil, by simp, by simp⟩
  obtain ⟨maxFd, hinput, -, hmax⟩ := populateFdSet_holds h.waitInput hw 0
  obtain ⟨maxFd', houtput, hle, -⟩ := populateFdSet_holds h.waitOutput hnone maxFd
  refine ⟨maxFd' + 1, fun fd hfd => Int.lt_add_one_of_le ((hmax fd hfd).trans hle), ?_⟩
  rw [show w.waitsFor [] = ∅ from rfl] at houtput
  simp only [WaitLists.processIo, hinput, houtput, bind, Except.bind]
  cases hselect : io.pselect (maxFd' + 1) (w.waitsFor subs) ∅ timeout with
  | blocks => rfl
  | fails => rfl
  | ready readfds writefds =>
      dsimp only
      rcases runIoHandlers_holds P readfds h.waitInput hw hreads with
        ⟨hcalls, hblocks⟩ | ⟨τ, w', hcalls, hrun, hτ⟩
      · rw [hblocks]
        exact .inl ⟨hcalls, rfl⟩
      · -- nothing is subscribed for output
        have hwrites : ∀ s, runIoHandlers P (io.reads true) writefds state.waitOutput s = .ok s := by
          intro s
          rw [runIoHandlers, h.waitOutput.length]
          rfl
        refine .inr ⟨τ, w', hcalls, ?_, hτ⟩
        simp only [hrun, hwrites]

end

/-! ## The sources of a started program -/

theorem NodeKind.type_configured (kind : NodeKind) : kind.configured.type = kind.type := by
  cases kind <;> rfl

section

variable {w w' : World} {n : Nat} {input : SourceInput} {subs : List (Int × Nat)}

theorem World.SameConfiguration.type_at (h : w.SameConfiguration w') {node : GraphNode}
    (hnode : w.nodes[n]? = some node) :
    ∃ node', w'.nodes[n]? = some node' ∧ node'.kind.type = node.kind.type := by
  have hget := congrArg (fun l => l[n]?) h.nodes
  simp only [List.getElem?_map, hnode] at hget
  obtain ⟨node', hnode', heq⟩ := Option.map_eq_some_iff.mp hget
  have hkind : node'.kind.configured = node.kind.configured := congrArg GraphNode.kind heq
  refine ⟨node', hnode', ?_⟩
  rw [← NodeKind.type_configured, hkind, NodeKind.type_configured]

/-- The sources are the nodes without a handler. -/
theorem subscriptionEnabled_returns_iff :
    (∃ enabled, subscriptionEnabled w n = .ok enabled) ↔
      ∃ node, w.nodes[n]? = some node ∧ node.kind.type.hasHandler = false := by
  unfold subscriptionEnabled World.node
  cases hnode : w.nodes[n]? with
  | none => simp [bind, Except.bind]
  | some node => cases hkind : node.kind <;> simp [bind, Except.bind, hkind, NodeKind.type, NodeType.hasHandler]

theorem NodeKind.reads_congr {kind kind' : NodeKind} (h : kind'.type = kind.type) :
    kind'.reads input = kind.reads input := by
  cases input <;> cases kind <;> cases kind' <;> first | rfl | cases h

theorem World.Reads.sameConfiguration (h : w.Reads n input) (hsame : w.SameConfiguration w') :
    w'.Reads n input := by
  obtain ⟨node, hnode, hreads⟩ := h
  obtain ⟨node', hnode', htype⟩ := hsame.type_at hnode
  exact ⟨node', hnode', (NodeKind.reads_congr htype).trans hreads⟩

theorem World.Subscribed.sameConfiguration (h : w.Subscribed subs) (hsame : w.SameConfiguration w') :
    w'.Subscribed subs := by
  refine ⟨h.nodup, fun s hs => ?_, h.files⟩
  obtain ⟨node, hnode, hkind⟩ := subscriptionEnabled_returns_iff.mp (h.sources s hs)
  obtain ⟨node', hnode', htype⟩ := hsame.type_at hnode
  exact subscriptionEnabled_returns_iff.mpr ⟨node', hnode', htype ▸ hkind⟩

end

section

variable {Setting : Type} {p : ProgramPlatform Setting} {configRoot : Setting}
  {program : StartedProgram} {w : World} {τ : List SystemTransition}

theorem startProgram_registers (hstart : startProgram p (some configRoot) = .ok program) :
    ∃ config predicates s, LoadedWith p configRoot config predicates ∧
      NodesCreated p configRoot config predicates config.nodes s ∧
      program.world.nodes.map GraphNode.kind = s.nodes.map CreatedNode.kind ∧
      program.sources = registerIo s.nodes ∧ program.lists.Holds program.sources := by
  obtain ⟨registry, config, predicates, draws, s, m, lists, hregistry, hload, hcreated, hconnected,
    hlists, rfl⟩ := startProgram_cases hstart
  exact ⟨config, predicates, s, ⟨registry, draws, hregistry, hload⟩, hcreated, hconnected.kinds, rfl,
    hlists⟩

theorem startProgram_subscribed (hstart : startProgram p (some configRoot) = .ok program)
    (hfiles : ∀ s ∈ program.sources, 0 ≤ s.1 ∧ s.1 < fdSetSize) :
    program.world.Subscribed program.sources := by
  obtain ⟨config, predicates, s, -, hcreated, hkinds, hsources, -⟩ := startProgram_registers hstart
  have hnumbers := registerIo_nodes hkinds hcreated.subscribed
  rw [← hsources] at hnumbers
  refine ⟨?_, fun s hs => ?_, hfiles⟩
  · rw [hnumbers]
    apply (List.filter_sublist.map Prod.snd).nodup
    rw [List.zipIdx_map_snd]
    exact List.nodup_range'
  · have hmem : s.2 ∈ program.sources.map Prod.snd := List.mem_map_of_mem hs
    rw [hnumbers] at hmem
    obtain ⟨⟨node, n⟩, hentry, heq⟩ := List.mem_map.mp hmem
    obtain ⟨hentry, hsource⟩ := List.mem_filter.mp hentry
    have hnode : program.world.nodes[s.2]? = some node := by
      rw [← heq]
      exact List.mem_zipIdx_iff_getElem?.mp hentry
    rw [Bool.not_eq_true'] at hsource
    exact subscriptionEnabled_returns_iff.mpr ⟨node, hnode, hsource⟩

/-- Whatever a program has read and handled since it was started, `process_io` waits for the files of
the sources that are still enabled and gives `pselect` a number above all of them.  When `pselect` comes
back with files that are ready, each source whose file is among them is called once, in the order of the
nodes, up to a read that does not come back. -/
theorem process_io_serves_sources (hstart : startProgram p (some configRoot) = .ok program)
    (hrun : Run (SystemMove p.toPlatform) program.world τ w)
    (hfiles : ∀ s ∈ program.sources, 0 ≤ s.1 ∧ s.1 < fdSetSize) {io : IoConditions}
    (hreads : ∀ i s input, program.sources[i]? = some s → io.reads false i = some input →
      program.world.Reads s.2 input)
    (timeout : Option RelativeTime) :
    ∃ nfds, (∀ fd ∈ w.waitsFor program.sources, fd < nfds) ∧
      match io.pselect nfds (w.waitsFor program.sources) ∅ timeout with
      | .blocks => program.lists.processIo p.toPlatform io timeout w = .error .blocks
      | .fails => program.lists.processIo p.toPlatform io timeout w = .ok (false, w, [])
      | .ready readfds _ =>
          w.readyReads (io.reads false) readfds program.sources = none ∧
            program.lists.processIo p.toPlatform io timeout w = .error .blocks ∨
          ∃ υ w', w.readyReads (io.reads false) readfds program.sources =
              some (υ.map Transition.label) ∧
            program.lists.processIo p.toPlatform io timeout w = .ok (true, w', υ.map Transition.label) ∧
            Run (ProgramMove p.toPlatform) w υ w' := by
  obtain ⟨-, hsame⟩ := sameConfiguration_of_run hrun (startProgram_sound hstart).nodup
  obtain ⟨-, -, -, -, -, -, -, hlists⟩ := startProgram_registers hstart
  exact WaitLists.processIo_holds _ hlists
    ((startProgram_subscribed hstart hfiles).sameConfiguration hsame)
    (fun i s input hs hinput => (hreads i s input hs hinput).sameConfiguration hsame) timeout

end

/-- All files that are waited for are ready, and the standard input has ended. -/
def endOfInput : IoConditions where
  pselect _ readfds writefds _ := .ready readfds writefds
  reads _ _ := some (.getchar ⟨.ended, ⟨⟨2, 0⟩⟩⟩)

/-- The end of the standard input is read. -/
theorem process_io_serves_sources_window :
    ∃ (w : World) (υ : List SystemTransition),
      inputSubscribed.processIo treeProgram.toPlatform endOfInput none windowWorld =
        .ok (true, w, υ.map Transition.label) ∧
      windowWorld.readyReads (endOfInput.reads false) {0} [(0, 0)] = some (υ.map Transition.label) ∧
      Run (ProgramMove treeProgram.toPlatform) windowWorld υ w := by
  have hreads : ∀ i s input, [((0 : Int), 0)][i]? = some s → endOfInput.reads false i = some input →
      windowWorld.Reads s.2 input := by
    rintro i s input hs ⟨⟩
    obtain rfl := List.mem_singleton.mp (List.mem_of_getElem? hs)
    exact ⟨_, rfl, rfl⟩
  obtain ⟨nfds, -, hready⟩ := process_io_serves_sources window_starts (.nil windowWorld) (by decide)
    hreads none
  rcases hready with ⟨hnone, -⟩ | ⟨υ, w, hcalls, hcall, hυ⟩
  · cases hnone
  · exact ⟨w, υ, hcall, hcalls, hυ⟩

end EventSeq
