import EventSeq.EventOrder
import EventSeq.Interpreter
import EventSeq.Lib.RewritingRuns
import EventSeq.MainLoopReturns

/-!
# What the main loop computes

The reads and the calls of the scheduler take turns as the input arrives.  When what is read is read in
the order of its times, the turns do not matter: the handlers are called as the depth-first interpreter
calls them that gets all that is read at once.
-/

namespace EventSeq

open Lib Lib.DepthFirst

/-! ## What is read -/

/-- The tokens of the events that a source creates. -/
def sourceTokens (outputs : List (Option Nat)) (datas : List EventData) : List Token :=
  datas.flatMap fun data => outputs.map fun output => ⟨output.map Position.channel, 0, data⟩

def readTokens (x : SystemTransition) : List Token :=
  match x.label with
  | .read n input =>
      match x.before.nodes[n]? with
      | some node => sourceTokens node.outputs (readData node.kind input)
      | none => []
  | .handle _ _ => []

/-- What the reads of a run add to the list, in their order. -/
def tokensRead (τ : List SystemTransition) : List Token := τ.flatMap readTokens

/-- The tokens of the events whose handlers a run calls. -/
def tokensHandled (τ : List SystemTransition) : List Token :=
  τ.filterMap fun x =>
    match x.label with
    | .handle _ e => some e.token
    | .read _ _ => none

section

variable {A : Allocator} {data : EventData} {datas : List EventData} {l : EventList}

/-- The events for one input that is not earlier than the list are put at its end. -/
theorem createForOutputs_last (outputs : List (Option Nat)) (hA : A.Succeeds) (hnodup : l.addrs.Nodup)
    (h : ∀ e ∈ l.nodes, e.time ≤ data.time) :
    ∃ outs, (createForOutputs A data outputs l).nodes = l.nodes ++ outs ∧
      outs.map EventNode.token = sourceTokens outputs [data] ∧ ∀ o ∈ outs, o.data = data := by
  induction outputs generalizing l with
  | nil => exact ⟨[], (List.append_nil _).symm, rfl, by simp⟩
  | cons output outputs ih =>
      obtain ⟨a, ha⟩ := hA l.mallocs l.addrs.toFinset
      obtain ⟨nodes, mallocs⟩ := l
      have hfresh : a ∉ (EventList.mk nodes mallocs).addrs := by simpa using A.fresh ha
      let new : EventNode := ⟨a, none, 0, data⟩
      let placed : EventNode := { new with position := output.map Position.channel }
      have hlast : insertByTime new nodes = nodes ++ [new] := insertByTime_of_le h
      have hnodup' : (EventList.mk (nodes ++ [new]) (mallocs + 1)).addrs.Nodup := by
        rw [EventList.addrs, List.map_append]
        exact List.Nodup.append hnodup (by simp) (by simpa [EventList.addrs] using hfresh)
      have hplaced : (EventList.mk (nodes ++ [new]) (mallocs + 1)).update a
          (fun e => { e with position := output.map Position.channel }) =
          ⟨nodes ++ [placed], mallocs + 1⟩ := EventList.update_split hnodup' _
      have hnodup'' : (EventList.mk (nodes ++ [placed]) (mallocs + 1)).addrs.Nodup := by
        simpa [EventList.addrs] using hnodup'
      obtain ⟨outs, hnodes, htokens, hdata⟩ := ih hnodup'' (by
        intro e he
        rcases List.mem_append.mp he with he | he
        · exact h e he
        · rw [List.mem_singleton.mp he])
      refine ⟨placed :: outs, ?_, ?_, ?_⟩
      · rw [createForOutputs, eventCreate, ha]
        dsimp only
        rw [hlast, hplaced, hnodes, List.append_assoc, List.singleton_append]
      · rw [List.map_cons, htokens]
        cases output <;> rfl
      · intro o ho
        rcases List.mem_cons.mp ho with rfl | ho
        · rfl
        · exact hdata o ho

theorem createAll_last (outputs : List (Option Nat)) (hA : A.Succeeds) (hnodup : l.addrs.Nodup)
    (h : ∀ e ∈ l.nodes, ∀ data ∈ datas, e.time ≤ data.time)
    (hdatas : datas.Pairwise fun a b => a.time ≤ b.time) :
    ∃ outs, (createAll A outputs datas l).nodes = l.nodes ++ outs ∧
      outs.map EventNode.token = sourceTokens outputs datas ∧ ∀ o ∈ outs, o.data ∈ datas := by
  induction datas generalizing l with
  | nil => exact ⟨[], (List.append_nil _).symm, rfl, by simp⟩
  | cons data datas ih =>
      obtain ⟨hfirst, hrest⟩ := List.pairwise_cons.mp hdatas
      obtain ⟨outs, hnodes, htokens, hdata⟩ := createForOutputs_last outputs hA hnodup
        fun e he => h e he data List.mem_cons_self
      have hadds := createForOutputs_adds A data (List.mem_singleton.mpr rfl)
        (fun o (ho : o ∈ outputs) => ho) hnodup
      obtain ⟨outs', hnodes', htokens', hdata'⟩ := ih hadds.nodup (by
        intro e he data' hdata''
        rw [hnodes] at he
        rcases List.mem_append.mp he with he | he
        · exact h e he data' (List.mem_cons_of_mem _ hdata'')
        · rw [EventNode.time, hdata e he]
          exact hfirst data' hdata'') hrest
      refine ⟨outs ++ outs', ?_, ?_, ?_⟩
      · rw [← List.append_assoc, ← hnodes, ← hnodes']
        rfl
      · rw [List.map_append, htokens, htokens']
        simp [sourceTokens]
      · intro o ho
        rcases List.mem_append.mp ho with ho | ho
        · rw [hdata o ho]
          exact List.mem_cons_self
        · exact List.mem_cons_of_mem _ (hdata' o ho)

end

/-! ## What the handlers see -/

/-- The graph as if no source had ended. -/
def World.circuit (w : World) : World :=
  { w.graph with nodes := w.nodes.map fun node => { node with kind := node.kind.reading } }

section

variable {w w' g g' : World} {t : Token} {ts : List Token} {n : Nat} {input : SourceInput} {P : Platform}

theorem NodeKind.reading_of_hasHandler {kind : NodeKind} (h : kind.type.hasHandler = true) :
    kind.reading = kind := by
  cases kind <;> first | rfl | cases h

theorem map_modify_comm {α β : Type} {f : α → β} {u : α → α} {v : β → β}
    (h : ∀ x, f (u x) = v (f x)) (l : List α) (i : Nat) :
    (l.modify i u).map f = (l.map f).modify i v := by
  apply List.ext_getElem?
  intro j
  simp only [List.getElem?_map, List.getElem?_modify]
  cases l[j]? with
  | none => rfl
  | some x =>
      by_cases hj : i = j
      · simp [hj, h]
      · simp [hj]

/-- No handler sees whether a source has ended. -/
theorem applyHandler_circuit (h : applyHandler t g = .ok (g', ts)) :
    applyHandler t g.circuit = .ok (g'.circuit, ts) := by
  rcases applyHandler_cases h with ⟨n, node, eff, hposition, hnode, heff, rfl, rfl⟩ |
    ⟨c, ch, hposition, hch, hdropped, rfl, rfl⟩ |
    ⟨c, ch, target, e, node, hposition, hch, hdelivered, hnode, rfl, rfl⟩
  · -- the node is not a source, so that `reading` leaves it as it is before and after
    have hhandler := NodeType.hasHandler_of_unbuffered (nodeEffect_unbuffered heff)
    have hkind : eff.kind.reading = eff.kind :=
      NodeKind.reading_of_hasHandler (by rw [nodeEffect_type heff, hhandler])
    have hat : g.circuit.nodes[n]? = some node := by
      show (g.nodes.map _)[n]? = _
      rw [List.getElem?_map, hnode, Option.map_some, NodeKind.reading_of_hasHandler hhandler]
    simp only [applyHandler, hposition, World.node_eq hat, bind, Except.bind]
    have heff' : nodeEffect n node g.circuit.predicates t.event = .ok eff := heff
    simp only [heff']
    congr 2
    simp only [World.circuit, World.afterEffect, World.graph]
    congr 1
    exact (map_modify_comm (fun _ => by rw [hkind]) g.nodes n).symm
  · have hat : g'.circuit.channels[c]? = some ch := hch
    simp only [applyHandler, hposition, hat, hdropped]
  · have hat : g.circuit.channels[c]? = some ch := hch
    have hat' : g.circuit.nodes[target]? = some { node with kind := node.kind.reading } := by
      show (g.nodes.map _)[target]? = _
      rw [List.getElem?_map, hnode, Option.map_some]
    simp only [applyHandler, hposition, hat, hdelivered, World.node_eq hat', bind, Except.bind]
    congr 2
    simp only [World.circuit, World.setNode, World.graph]
    congr 1
    exact (map_modify_comm (fun _ => by dsimp only) g.nodes target).symm

/-- A read changes what no handler sees. -/
theorem handleIo_circuit (h : handleIo P w n input = .ok w') : w'.circuit = w.circuit := by
  obtain ⟨node, kind, hnode, rfl, htype, hnamespace⟩ := handleIo_cases h
  have hsource : kind.reading = node.kind.reading := by
    obtain ⟨node', hnode', hreads⟩ := handleIo_reads h
    obtain rfl : node = node' := Option.some.inj (hnode.symm.trans hnode')
    generalize node.kind = old at *
    cases input <;> cases old <;> try cases hreads
    all_goals
      cases kind <;> try cases htype
      simp only [NodeKind.reading, Option.some.inj hnamespace]
  have hnodes : (w.nodes.modify n fun node => { node with kind := kind }).map
      (fun node => { node with kind := node.kind.reading }) =
      w.nodes.map fun node => { node with kind := node.kind.reading } := by
    apply List.ext_getElem?
    intro i
    rw [List.getElem?_map, List.getElem?_map, List.getElem?_modify]
    by_cases hi : n = i
    · subst hi
      simp [hnode, hsource]
    · simp [hi]
  simp only [World.circuit, World.graph, hnodes]

end

/-! ## The invariant -/

/-- No content that is created for the first input is later than one created for the second. -/
def SourceInput.Before (input input' : SourceInput) : Prop :=
  ∀ kind kind', ∀ data ∈ readData kind input, ∀ data' ∈ readData kind' input', data.time ≤ data'.time

/-- The contents created for the input come in the order of their times. -/
def SourceInput.InOrder (input : SourceInput) : Prop :=
  ∀ kind, (readData kind input).Pairwise fun a b => a.time ≤ b.time

/-- None of the tokens is later than a content that is created for the input. -/
def TokensBefore (ts : List Token) (input : SourceInput) : Prop :=
  ∀ t ∈ ts, ∀ kind, ∀ data ∈ readData kind input, t.data.time ≤ data.time

/-- The handlers have been called as the machine visits the tokens that have been read. -/
structure Interprets (w₀ : World) (τ : List SystemTransition) (w : World) : Prop where
  sorted : SortedByTime w.events.nodes
  times : ∀ e ∈ w.events.nodes, ∃ t ∈ tokensRead τ, e.time = t.data.time
  steps : ∃ υ, Run (RewriteStep (rules w₀)) (tokensRead τ, w₀.circuit) υ (w.tokens, w.circuit) ∧
    (visitsOf υ).map Prod.fst = tokensHandled τ

section

variable {P : Platform} {d : Nat} {w₀ w w' : World} {τ υ : List SystemTransition} {n : Nat}
  {input : SourceInput} {e : EventNode} {position : Position} {pre post : List EventNode}

theorem tokensRead_append (τ υ : List SystemTransition) :
    tokensRead (τ ++ υ) = tokensRead τ ++ tokensRead υ :=
  List.flatMap_append

theorem tokensHandled_append (τ υ : List SystemTransition) :
    tokensHandled (τ ++ υ) = tokensHandled τ ++ tokensHandled υ :=
  List.filterMap_append

theorem mem_sourceTokens {outputs : List (Option Nat)} {datas : List EventData} {t : Token}
    (h : t ∈ sourceTokens outputs datas) :
    ∃ data ∈ datas, ∃ output ∈ outputs, t = ⟨output.map Position.channel, 0, data⟩ := by
  obtain ⟨data, hdata, h⟩ := List.mem_flatMap.mp h
  obtain ⟨output, houtput, rfl⟩ := List.mem_map.mp h
  exact ⟨data, hdata, output, houtput, rfl⟩

theorem tokensRead_read {node : GraphNode} (hnode : w.nodes[n]? = some node) :
    tokensRead (τ ++ [⟨w, .read n input, w'⟩]) =
      tokensRead τ ++ sourceTokens node.outputs (readData node.kind input) := by
  rw [tokensRead_append]
  simp [tokensRead, readTokens, hnode]

theorem tokensRead_handle : tokensRead (τ ++ [⟨w, .handle position e, w'⟩]) = tokensRead τ := by
  rw [tokensRead_append]
  exact List.append_nil _

/-- What is read in order is put behind all that there is. -/
theorem Interprets.read (h : Interprets w₀ τ w) (hA : P.allocator.Succeeds)
    (hnodup : w.events.addrs.Nodup) (hbefore : TokensBefore (tokensRead τ) input)
    (horder : input.InOrder) (hread : handleIo P w n input = .ok w') :
    Interprets w₀ (τ ++ [⟨w, .read n input, w'⟩]) w' := by
  have hcircuit := handleIo_circuit hread
  obtain ⟨node, kind, hnode, hw', -, -⟩ := handleIo_cases hread
  have hlate : ∀ e ∈ w.events.nodes, ∀ data ∈ readData node.kind input, e.time ≤ data.time := by
    intro e he data hdata
    obtain ⟨t, ht, htime⟩ := h.times e he
    rw [htime]
    exact hbefore t ht node.kind data hdata
  obtain ⟨outs, hnodes, htokens, hdata⟩ :=
    createAll_last node.outputs hA hnodup hlate (horder node.kind)
  have hevents : w'.events.nodes = w.events.nodes ++ outs := by rw [hw', ← hnodes]
  -- the tokens behind the others are the contents in their order
  have houts : (outs.map EventNode.token).Pairwise fun a b => a.data.time ≤ b.data.time := by
    rw [htokens]
    refine List.pairwise_flatMap.mpr ⟨fun data _ => ?_, ?_⟩
    · exact List.pairwise_map.mpr (List.pairwise_of_forall fun _ _ => le_rfl)
    · refine (horder node.kind).imp fun hle t ht t' ht' => ?_
      obtain ⟨_, -, rfl⟩ := List.mem_map.mp ht
      obtain ⟨_, -, rfl⟩ := List.mem_map.mp ht'
      exact hle
  rw [List.pairwise_map] at houts
  refine ⟨?_, ?_, ?_⟩
  · rw [hevents]
    refine List.pairwise_append.mpr ⟨h.sorted, houts, fun e he o ho => ?_⟩
    exact hlate e he o.data (hdata o ho)
  · rw [hevents, tokensRead_read hnode]
    intro e he
    rcases List.mem_append.mp he with he | he
    · obtain ⟨t, ht, htime⟩ := h.times e he
      exact ⟨t, List.mem_append_left _ ht, htime⟩
    · refine ⟨e.token, List.mem_append_right _ ?_, rfl⟩
      rw [← htokens]
      exact List.mem_map_of_mem he
  · -- the machine makes the same steps with more tokens behind those that it visits
    obtain ⟨υ, hrun, hvisits⟩ := h.steps
    obtain ⟨υ', hrun', hvisits'⟩ :=
      rewriteRun_more (sourceTokens node.outputs (readData node.kind input)) hrun
    refine ⟨υ', ?_, ?_⟩
    · have hwtokens : w'.tokens = w.tokens ++ sourceTokens node.outputs (readData node.kind input) := by
        rw [World.tokens, hevents, List.map_append, htokens]
        rfl
      rw [tokensRead_read hnode, hwtokens, hcircuit]
      exact hrun'
    · rw [hvisits', hvisits, tokensHandled_append]
      exact (List.append_nil _).symm

/-- The handler of the first event that has one makes a step of the machine. -/
theorem Interprets.handle (h : Interprets w₀ τ w) (hA : P.allocator.Succeeds)
    (hwindow : ∀ node ∈ w.nodes, node.kind.type ≠ .window) (hw : w.SplitAt pre e post)
    (hpre : ∀ x ∈ pre, (rules w₀).stays x.token) (hstays : (rules w₀).stays e.token = false)
    (hposition : e.position = some position) (hrun : w.handleEvent P position e = .ok (true, w')) :
    Interprets w₀ (τ ++ [⟨w, .handle position e, w'⟩]) w' := by
  have htoken := handleEvent_token hA hw hposition hwindow
  cases happly : applyHandler e.token w.graph with
  | error f =>
      rw [happly] at htoken
      cases hrun.symm.trans htoken
  | ok next =>
      obtain ⟨g, ts⟩ := next
      rw [happly] at htoken
      obtain ⟨w'', outs, hrun', hgraph, hnodes, -, htokens⟩ := htoken
      obtain rfl : w' = w'' := (Prod.mk.inj (Except.ok.inj (hrun.symm.trans hrun'))).2
      -- a handler without a window sends on what it gets, at the same time
      have htime : ∀ o ∈ outs, o.time = e.time := by
        intro o ho
        have ho' : o.token ∈ ts := htokens ▸ List.mem_map_of_mem ho
        exact (applyHandler_copies happly ho').2.1
      have hcircuit : applyHandler e.token w.circuit = .ok (w'.circuit, ts) := by
        have hcircuit := applyHandler_circuit happly
        rw [← hgraph] at hcircuit
        exact hcircuit
      have hsorted := h.sorted
      have htimes := h.times
      rw [hw.nodes] at hsorted htimes
      refine ⟨?_, ?_, ?_⟩
      · rw [hnodes]
        exact hsorted.replace htime
      · rw [hnodes, tokensRead_handle]
        refine forall_mem_replace htimes fun ⟨t, ht, heq⟩ o ho => ⟨t, ht, ?_⟩
        rw [htime o ho, heq]
      · obtain ⟨υ, hsteps, hvisits⟩ := h.steps
        have hstep : RewriteStep (rules w₀) (w.tokens, w.circuit) e.token (w'.tokens, w'.circuit) := by
          have htokens' : w'.tokens =
              pre.map EventNode.token ++ (ts ++ post.map EventNode.token) := by
            rw [World.tokens, hnodes, List.map_append, List.map_append, htokens]
          rw [World.tokens_split hw, htokens']
          exact .replace (List.forall_mem_map.mpr hpre) hstays hcircuit
        refine ⟨υ ++ [⟨(w.tokens, w.circuit), e.token, (w'.tokens, w'.circuit)⟩], ?_, ?_⟩
        · rw [tokensRead_handle]
          exact hsteps.append (.single hstep)
        · rw [visitsOf, List.map_append, List.map_append, tokensHandled_append, ← hvisits]
          rfl

theorem mem_tokensRead {t : Token} (h : t ∈ tokensRead τ) :
    ∃ x ∈ τ, ∃ n input node, x.label = .read n input ∧ x.before.nodes[n]? = some node ∧
      t ∈ sourceTokens node.outputs (readData node.kind input) := by
  obtain ⟨x, hx, ht⟩ := List.mem_flatMap.mp h
  unfold readTokens at ht
  split at ht
  · rename_i n input hlabel
    split at ht
    · rename_i node hnode
      exact ⟨x, hx, n, input, node, hlabel, hnode, ht⟩
    · cases ht
  · cases ht

/-- What was read before an input is not later than it. -/
theorem tokensBefore_append {input' : SourceInput} (hτ : TokensBefore (tokensRead τ) input')
    (hυ : ∀ x ∈ υ, ∀ n input, x.label = .read n input → input.Before input') :
    TokensBefore (tokensRead (τ ++ υ)) input' := by
  intro t ht kind' data' hdata'
  rw [tokensRead_append] at ht
  rcases List.mem_append.mp ht with ht | ht
  · exact hτ t ht kind' data' hdata'
  · obtain ⟨x, hx, n, input, node, hlabel, -, ht⟩ := mem_tokensRead ht
    obtain ⟨data, hdata, output, -, rfl⟩ := mem_sourceTokens ht
    exact hυ x hx n input hlabel node.kind kind' data hdata data' hdata'

/-- The reads of one call, one after the other. -/
theorem Interprets.reads {inputs : List (Nat × SourceInput)} (h : Interprets w₀ τ w)
    (hA : P.allocator.Succeeds) (hnodup : w.events.addrs.Nodup) (hrun : Run (ProgramMove P) w υ w')
    (hlabels : υ.map Transition.label = inputs.map fun s => .read s.1 s.2)
    (hbefore : ∀ s ∈ inputs, TokensBefore (tokensRead τ) s.2) (horder : ∀ s ∈ inputs, s.2.InOrder)
    (hinputs : inputs.Pairwise fun s s' => s.2.Before s'.2) : Interprets w₀ (τ ++ υ) w' := by
  induction hrun generalizing τ inputs with
  | nil w => rwa [List.append_nil]
  | @cons s s' t l υ hmove _ ih =>
      cases inputs with
      | nil => cases hlabels
      | cons first inputs =>
          obtain ⟨hlabel, hlater⟩ := List.cons.inj hlabels
          obtain rfl : l = .read first.1 first.2 := hlabel
          obtain ⟨hfirst, hinputs⟩ := List.pairwise_cons.mp hinputs
          obtain ⟨⟨depth, hstep⟩, -⟩ := hmove
          cases hstep with
          | read hread =>
              have hnext : Interprets w₀ (τ ++ [⟨s, .read first.1 first.2, s'⟩]) s' :=
                h.read hA hnodup (hbefore _ List.mem_cons_self) (horder _ List.mem_cons_self) hread
              have hafter := ih hnext ?_ hlater ?_
                (fun x hx => horder x (List.mem_cons_of_mem _ hx)) hinputs
              · rwa [List.append_assoc, List.singleton_append] at hafter
              · exact (SystemStep.read hread).nodup hnodup
              · refine fun x hx => tokensBefore_append (hbefore x (List.mem_cons_of_mem _ hx)) ?_
                intro y hy n input hlabel
                rw [List.mem_singleton.mp hy] at hlabel
                cases hlabel
                exact hfirst x hx

end

/-! ## The order of the calls -/

section

variable {κ : Type} {P : Platform} {d fuel : Nat} {w₀ w w' : World} {e : EventNode}
  {position : Position} {maxTime : AbsoluteTime} {proc proc' : ProcessingState κ}

theorem stays_iff_unready (hsettled : w.Settled) (hgraph : w₀.SameGraph w) :
    (rules w₀).stays e.token = true ↔ (World.dispatch P).readyPosition w e = none := by
  have hdrained : Drained w₀ default sourcePriority w.graph :=
    ⟨⟨hgraph.shapes, hgraph.channels⟩, ⟨hsettled.nodes, hsettled.channels⟩, List.nodup_nil,
      by simp [AllAt, World.graph, EventList.empty]⟩
  exact @Drained.stays_iff P w₀ w.graph default sourcePriority e hdrained

/-- The first handler that is called takes its event, and all events have one priority. -/
theorem World.Steady.sweepsInOrder (h : w.Steady P d) (maxTime : AbsoluteTime) :
    (World.dispatch P).SweepsInOrder maxTime (highestPriority maxTime w.events.nodes) [] w := by
  have hmem : ∀ x ∈ (World.dispatch P).pending maxTime [] w, x ∈ w.events.nodes ∧
      (World.dispatch P).isReady maxTime w x := by
    intro x hx
    obtain ⟨hx, hready⟩ := List.mem_filter.mp hx
    exact ⟨hx, (Bool.and_eq_true_iff.mp hready).1⟩
  cases hpending : (World.dispatch P).pending maxTime [] w with
  | nil =>
      refine .finished hpending fun x hx hready => ?_
      have hin : x ∈ (World.dispatch P).pending maxTime [] w :=
        List.mem_filter.mpr ⟨hx, by simp [hready]⟩
      rw [hpending] at hin
      cases hin
  | cons x rest =>
      obtain ⟨hx, hready⟩ := hmem x (by rw [hpending]; exact List.mem_cons_self)
      obtain ⟨hsome, htime⟩ := Bool.and_eq_true_iff.mp hready
      obtain ⟨p, hp⟩ := Option.isSome_iff_exists.mp hsome
      have hcan : (World.dispatch P).CanHandle maxTime w p x := ⟨hx, hp, of_decide_eq_true htime⟩
      refine .stops hpending (fun y hy => ?_) hp fun s' hrun => ?_
      · obtain ⟨hy, -⟩ := hmem y (by rw [hpending]; exact List.mem_cons_of_mem _ hy)
        rw [h.priority x hx, h.priority y hy]
      · obtain ⟨hposition, hfilter⟩ := Option.filter_eq_some_iff.mp hp
        obtain ⟨-, hhandler⟩ := Bool.and_eq_true_iff.mp hfilter
        obtain ⟨w', htaken⟩ := h.takes hx hposition hhandler
        cases htaken.symm.trans hrun

/-- In a sorted list the event that is taken is the first that is ready. -/
theorem World.Steady.first (h : w.Steady P d) (hA : P.allocator.Succeeds)
    (hsorted : SortedByTime w.events.nodes) {out : Except Fault (Bool × ProcessingState κ × World)}
    (hcall : processEventsUntil (World.dispatch P) fuel maxTime proc w =
      ([⟨w, e, position, .ok (true, w')⟩], out)) :
    ∃ pre post, w.SplitAt pre e post ∧
      ∀ x ∈ pre, (World.dispatch P).readyPosition w x = none := by
  have horder := (h.sweepsInOrder maxTime).inPriorityOrder (World.dispatch_falseAddsNothing hA)
    (World.dispatch_falseKeepsSorted hA) h.sound.nodup hsorted fuel proc
  rw [hcall] at horder
  obtain ⟨before, behind, hpending, hlower, -⟩ := horder.1
  have hmem : ∀ x ∈ (World.dispatch P).pending maxTime [] w, x ∈ w.events.nodes :=
    fun x hx => (List.mem_filter.mp hx).1
  -- all events have the same priority
  have hnone : before = [] := by
    apply List.eq_nil_iff_forall_not_mem.mpr
    intro x hx
    have hlt := hlower x hx
    rw [h.priority x (hmem x (by rw [hpending]; exact List.mem_append_left _ hx)),
      h.priority e (hmem e (by rw [hpending]; simp))] at hlt
    exact absurd hlt (lt_irrefl _)
  rw [hnone, List.nil_append, Dispatch.pending, List.filter_eq_cons_iff] at hpending
  obtain ⟨pre, post, hsplit, hpre, he, -⟩ := hpending
  refine ⟨pre, post, ⟨hsplit, h.sound.nodup⟩, fun x hx => ?_⟩
  have hsplit' : w.events.nodes = pre ++ e :: post := hsplit
  rw [SortedByTime, hsplit'] at hsorted
  have hle : x.time ≤ e.time := (List.pairwise_append.mp hsorted).2.2 x hx e List.mem_cons_self
  have hdue : e.time ≤ maxTime := by
    simp only [Dispatch.isReady, Bool.and_eq_true, decide_eq_true_eq] at he
    exact he.1.2
  have hnot := hpre x hx
  simpa [Dispatch.isReady, hle.trans hdue] using hnot

end

/-! ## The loops -/

/-- What a source reads at a later call of `process_io`, or after another source at the same one,
happened no earlier. -/
structure ReadsForward (script : Nat → IoConditions) : Prop where
  inOrder : ∀ i k input, (script i).reads false k = some input → input.InOrder
  before : ∀ i k i' k' input input', i < i' ∨ i = i' ∧ k < k' → (script i).reads false k = some input →
    (script i').reads false k' = some input' → input.Before input'

/-- What the loop keeps: the run so far is one of the machine, and only what is later remains to be
read. -/
structure IterationState.Interpreted {κ : Type} (P : Platform) (script : Nat → IoConditions)
    (w₀ : World) (τ : List SystemTransition) (it : IterationState World κ) : Prop where
  run : Run (ProgramMove P) w₀ τ it.state
  interprets : Interprets w₀ τ it.state
  before : ∀ i ≥ it.ios, ∀ k input, (script i).reads false k = some input →
    TokensBefore (tokensRead τ) input
  delays : it.proc.waitDelay.entries = []

section

variable {κ : Type} {P : Platform} {d fuel depth : Nat} {w₀ w w' : World} {script : Nat → IoConditions}
  {τ : List SystemTransition} {it : IterationState World κ} {state : WaitLists}
  {subs : List (Int × Nat)} {maxTime : AbsoluteTime}

theorem ProgramMove.sameGraph {c : SystemCall} (h : ProgramMove P w c w')
    (hnodup : w.events.addrs.Nodup) : w.SameGraph w' := by
  obtain ⟨⟨depth, hstep⟩, -⟩ := h
  cases hstep with
  | handle he _ hrun =>
      obtain ⟨pre, post, hw⟩ := World.splitAt_of_mem hnodup he
      exact (handleEvent_outcome hw hrun).sameGraph
  | read hread => exact handleIo_sameGraph hread

theorem programRun_sameGraph (hrun : Run (ProgramMove P) w₀ τ w) (hnodup : w₀.events.addrs.Nodup) :
    w₀.SameGraph w ∧ ∀ x ∈ τ, w₀.SameGraph x.before := by
  let inv : World → Prop := fun s => s.events.addrs.Nodup ∧ w₀.SameGraph s
  have hkeep : ∀ s c s', ProgramMove P s c s' → inv s → inv s' :=
    fun _ _ _ hmove h => ⟨hmove.nodup h.1, h.2.trans (hmove.sameGraph h.1)⟩
  have hstart : inv w₀ := ⟨hnodup, .refl w₀⟩
  exact ⟨(hrun.invariant hkeep hstart).2, fun x hx => (hrun.invariant_mem hkeep hstart x hx).1.2⟩

/-- Reads of places one after the other. -/
theorem reads_inputs {reads : Nat → Option SourceInput} {l : List ((Int × Nat) × Nat)}
    {calls : List SystemCall} (hplaces : l.Pairwise fun s s' => s.2 < s'.2)
    (h : (l.mapM fun s => (reads s.2).map (SystemCall.read s.1.2)) = some calls) :
    ∃ inputs : List (Nat × SourceInput), calls = inputs.map (fun s => .read s.1 s.2) ∧
      (∀ s ∈ inputs, ∃ x ∈ l, reads x.2 = some s.2) ∧
      ((∀ k k' input input', k < k' → reads k = some input → reads k' = some input' →
        input.Before input') → inputs.Pairwise fun s s' => s.2.Before s'.2) := by
  induction l generalizing calls with
  | nil =>
      cases h
      exact ⟨[], rfl, by simp, fun _ => .nil⟩
  | cons x l ih =>
      obtain ⟨hfirst, hrest⟩ := List.pairwise_cons.mp hplaces
      rw [List.mapM_cons] at h
      obtain ⟨call, hcall, h⟩ := Option.bind_eq_some_iff.mp h
      obtain ⟨calls', hcalls, ⟨⟩⟩ := Option.bind_eq_some_iff.mp h
      obtain ⟨input, hinput, rfl⟩ := Option.map_eq_some_iff.mp hcall
      obtain ⟨inputs, rfl, hfrom, hpairs⟩ := ih hrest hcalls
      refine ⟨(x.1.2, input) :: inputs, rfl, ?_, fun hbefore => ?_⟩
      · intro s hs
        rcases List.mem_cons.mp hs with rfl | hs
        · exact ⟨x, List.mem_cons_self, hinput⟩
        · obtain ⟨y, hy, hread⟩ := hfrom s hs
          exact ⟨y, List.mem_cons_of_mem _ hy, hread⟩
      · refine List.pairwise_cons.mpr ⟨fun s hs => ?_, hpairs hbefore⟩
        obtain ⟨y, hy, hread⟩ := hfrom s hs
        exact hbefore _ _ _ _ (hfirst y hy) hinput hread

/-- The calls for the files that are ready are in the order of the subscriptions. -/
theorem readyReads_inputs {reads : Nat → Option SourceInput} {fds : Finset Int}
    {calls : List SystemCall} (h : w.readyReads reads fds subs = some calls) :
    ∃ inputs : List (Nat × SourceInput), calls = inputs.map (fun s => .read s.1 s.2) ∧
      (∀ s ∈ inputs, ∃ k, reads k = some s.2) ∧
      ((∀ k k' input input', k < k' → reads k = some input → reads k' = some input' →
        input.Before input') → inputs.Pairwise fun s s' => s.2.Before s'.2) := by
  have hplaces : subs.zipIdx.Pairwise fun s s' => s.2 < s'.2 := by
    rw [← List.pairwise_map (f := Prod.snd) (R := (· < ·)), List.zipIdx_map_snd]
    exact List.pairwise_lt_range'
  obtain ⟨inputs, hcalls, hfrom, hpairs⟩ := reads_inputs (hplaces.filter _) h
  refine ⟨inputs, hcalls, fun s hs => ?_, hpairs⟩
  obtain ⟨x, -, hread⟩ := hfrom s hs
  exact ⟨x.2, hread⟩

theorem IterationState.Interpreted.processIo (hsteady : w₀.Steady P d) (hA : P.allocator.Succeeds)
    (hstate : state.Holds subs) (hsubscribed : w₀.Subscribed subs)
    (hreads : ∀ i k s input, subs[k]? = some s → (script i).reads false k = some input →
      w₀.Reads s.2 input)
    (hforward : ReadsForward script) (h : it.Interpreted P script w₀ τ) {timeout : Option RelativeTime}
    {io : IoCall World} {it' : IterationState World κ}
    (hcall : EventSeq.processIo (state.callbacks P script) timeout it = .ok (io, it')) :
    ∃ υ, it'.Interpreted P script w₀ υ ∧
      υ.map Transition.label = τ.map Transition.label ++ state.readsOf P script io := by
  obtain ⟨-, result, w', hio, rfl⟩ := WaitLists.callbacks_processIo hcall
  have hnodup := hsteady.sound.nodup
  obtain ⟨hnodup', hsame⟩ := sameConfiguration_of_run (ProgramMove.run h.run) hnodup
  obtain ⟨nfds, -, hholds⟩ := WaitLists.processIo_holds P hstate
    (hsubscribed.sameConfiguration hsame)
    (fun k s input hs hinput => (hreads it.ios k s input hs hinput).sameConfiguration hsame) timeout
  split at hholds
  · cases hio.symm.trans hholds
  · obtain ⟨-, heq⟩ := Prod.mk.inj (Except.ok.inj (hio.symm.trans hholds))
    obtain ⟨rfl, hnone⟩ := Prod.mk.inj heq
    rw [hnone, List.append_nil]
    exact ⟨τ, ⟨h.run, h.interprets, fun i hi => h.before i (Nat.le_of_succ_le hi), h.delays⟩, rfl⟩
  · rcases hholds with ⟨-, hblocks⟩ | ⟨υ, w'', hready, hreturns, hrun⟩
    · cases hio.symm.trans hblocks
    obtain ⟨-, heq⟩ := Prod.mk.inj (Except.ok.inj (hio.symm.trans hreturns))
    obtain ⟨rfl, hlabels⟩ := Prod.mk.inj heq
    obtain ⟨inputs, hinputs, hplaces, hpairs⟩ := readyReads_inputs hready
    refine ⟨τ ++ υ, ⟨h.run.append hrun, ?_, fun i hi k input hinput => ?_, h.delays⟩, ?_⟩
    · refine h.interprets.reads hA hnodup' hrun hinputs ?_ ?_ ?_
      · intro s hs
        obtain ⟨k, hk⟩ := hplaces s hs
        exact h.before it.ios le_rfl k s.2 hk
      · intro s hs
        obtain ⟨k, hk⟩ := hplaces s hs
        exact hforward.inOrder it.ios k s.2 hk
      · exact hpairs fun k k' input input' hlt =>
          hforward.before it.ios k it.ios k' input input' (.inr ⟨rfl, hlt⟩)
    · refine tokensBefore_append (h.before i (Nat.le_of_succ_le hi) k input hinput)
        fun x hx n read hlabel => ?_
      have hmem : x.label ∈ inputs.map fun s => SystemCall.read s.1 s.2 := by
        rw [← hinputs]
        exact List.mem_map_of_mem hx
      obtain ⟨s, hs, heq⟩ := List.mem_map.mp hmem
      rw [hlabel] at heq
      cases heq
      obtain ⟨k', hk'⟩ := hplaces s hs
      exact hforward.before it.ios k' i k s.2 input (.inl hi) hk' hinput
    · rw [List.map_append, hlabels]

theorem IterationState.Interpreted.events (hsteady : w₀.Steady P d) (hA : P.allocator.Succeeds)
    (h : it.Interpreted P script w₀ τ) {trace : List (Invocation World)} {hadEvents : Bool}
    {proc' : ProcessingState κ}
    (hcall : processEventsUntil (World.dispatch (P.withDepth depth)) fuel maxTime it.proc it.state =
      (trace, .ok (hadEvents, proc', w'))) :
    ∃ υ, Interpreted P script w₀ υ ({ it with state := w', proc := proc' } : IterationState World κ) ∧
      υ.map Transition.label = τ.map Transition.label ++ trace.map Invocation.call := by
  have hst := (hsteady.run h.run).withDepth depth
  have hdelays : proc'.waitDelay.entries = [] := by
    rw [processEventsUntil_waitDelay hcall]
    exact h.delays
  -- what returns within `fuel` does the same within a bound that is enough for every call
  have hlarge := processEventsUntil_mono
    (le_max_left fuel (2 * it.state.events.nodes.length + 2)) hcall
  rcases hst.round (le_max_right fuel (2 * it.state.events.nodes.length + 2)) maxTime it.proc with
    ⟨proc'', hidle⟩ | ⟨proc'', e, position, w'', htaken, -, -⟩
  · rw [hlarge] at hidle
    cases hidle
    exact ⟨τ, ⟨h.run, h.interprets, h.before, hdelays⟩, (List.append_nil _).symm⟩
  · have hsame := htaken
    rw [hlarge] at hsame
    cases hsame
    obtain ⟨pre, post, hw, hunready⟩ := hst.first hA h.interprets.sorted htaken
    have htrace := processEventsUntil_trace (World.dispatch (P.withDepth depth))
      (max fuel (2 * it.state.events.nodes.length + 2)) maxTime it.proc it.state
    rw [htaken] at htrace
    obtain ⟨hcan, hrun⟩ := htrace.canHandle List.mem_cons_self
    obtain ⟨hposition, -⟩ := Option.filter_eq_some_iff.mp hcan.ready
    have hgraph := (programRun_sameGraph h.run hsteady.sound.nodup).1
    -- the events before it stay, and it does not
    have hpre : ∀ x ∈ pre, (rules w₀).stays x.token :=
      fun x hx => (stays_iff_unready (P := P.withDepth depth) hst.settled hgraph).mpr (hunready x hx)
    have hmoves : (rules w₀).stays e.token = false := by
      refine Bool.eq_false_of_not_eq_true fun hstays => ?_
      have hnone := (stays_iff_unready (P := P.withDepth depth) hst.settled hgraph).mp hstays
      exact Option.some_ne_none _ (hcan.ready.symm.trans hnone)
    have hmove : ProgramMove P it.state (.handle position e) w' := by
      refine ⟨⟨depth, .handle hcan.mem hposition hrun.symm⟩, fun n input hlabel => ?_⟩
      cases hlabel
    refine ⟨τ ++ [⟨it.state, .handle position e, w'⟩], ⟨h.run.append (.single hmove), ?_, ?_, hdelays⟩,
      List.map_append⟩
    · exact h.interprets.handle (P := P.withDepth depth) hA hst.bounded.windowless hw hpre hmoves
        hposition hrun.symm
    · rw [tokensRead_handle]
      exact h.before

end

/-! ## A started program -/

/-- The world with the tokens as its events. -/
def World.withTokens (w : World) (ts : List Token) : World :=
  { w with events := ⟨ts.map Token.event, 0⟩ }

section

variable {κ Setting : Type} {p : ProgramPlatform Setting} {configRoot : Setting}
  {program : StartedProgram} {script : Nat → IoConditions}
  {w₀ w : World} {τ : List SystemTransition} {P : Platform}

theorem withTokens_tokens (w : World) (τ : List SystemTransition) :
    (w.withTokens (tokensRead τ)).tokens = tokensRead τ := by
  have hself : ∀ t ∈ tokensRead τ, t.event.token = t := by
    intro t ht
    obtain ⟨_, -, _, _, _, -, -, ht⟩ := mem_tokensRead ht
    obtain ⟨data, -, output, -, rfl⟩ := mem_sourceTokens ht
    cases output <;> rfl
  show ((tokensRead τ).map Token.event).map EventNode.token = tokensRead τ
  rw [List.map_map]
  exact (List.map_congr_left hself).trans (List.map_id _)

/-- The channels that are read into are there. -/
theorem tokensRead_hasPosition (hlinked : w₀.Linked) (hnodup : w₀.events.addrs.Nodup)
    (hrun : Run (ProgramMove P) w₀ τ w) {t : Token} (ht : t ∈ tokensRead τ) {position : Position}
    (hposition : t.position = some position) : w₀.HasPosition position := by
  obtain ⟨x, hx, n, input, node, -, hnode, ht⟩ := mem_tokensRead ht
  obtain ⟨data, -, output, houtput, rfl⟩ := mem_sourceTokens ht
  obtain ⟨c, rfl, rfl⟩ := Option.map_eq_some_iff.mp hposition
  have hgraph := (programRun_sameGraph hrun hnodup).2 x hx
  have houtputs := hgraph.forall_mem (fun shape => ∀ c, some c ∈ shape.1 → c < w₀.channels.length)
    hlinked.outputs node (List.mem_of_getElem? hnode)
  exact houtputs c houtput

/-- No source has ended when the program starts. -/
theorem startProgram_circuit (hstart : startProgram p (some configRoot) = .ok program) :
    program.world.circuit = program.world.graph := by
  obtain ⟨registry, config, predicates, draws, s, m, lists, -, -, hcreated, hconnected, -, rfl⟩ :=
    startProgram_cases hstart
  have hreading : ∀ node ∈ (startedWorld m s.predicates s.names.draws).nodes,
      ({ node with kind := node.kind.reading } : GraphNode) = node := by
    intro node hnode
    have hmem : node.kind ∈ s.nodes.map CreatedNode.kind := by
      rw [← hconnected.kinds]
      exact List.mem_map_of_mem hnode
    obtain ⟨created, hmem, heq⟩ := List.mem_map.mp hmem
    rw [← heq, hcreated.reading created hmem, heq]
  have hnodes := (List.map_congr_left hreading).trans (List.map_id _)
  exact congrArg (fun nodes => { (startedWorld m s.predicates s.names.draws).graph with nodes := nodes })
    hnodes

theorem loopState_interpreted (hstart : startProgram p (some configRoot) = .ok program)
    (reachedTime : AbsoluteTime) :
    (program.loopState (κ := κ) reachedTime).Interpreted p.toPlatform script program.world [] := by
  have hevents : program.world.events.nodes = [] := (startProgram_configured hstart).choose_spec.2.2
  refine ⟨.nil _, ⟨?_, ?_, ⟨[], ?_, rfl⟩⟩, fun _ _ _ _ _ t ht => (List.not_mem_nil ht).elim, rfl⟩
  · show SortedByTime program.world.events.nodes
    rw [hevents]
    exact .nil
  · show ∀ e ∈ program.world.events.nodes, _
    rw [hevents]
    simp
  · have htokens : program.world.tokens = tokensRead [] := by
      rw [World.tokens, hevents]
      rfl
    show Run _ (tokensRead [], program.world.circuit) [] (program.world.tokens, program.world.circuit)
    rw [htokens]
    exact .nil _

/-- What a program without windows does in the main loop is determined by what it reads: when that is
read in the order of its times, the handlers are called as the depth-first interpreter calls them that
finds all that is read in the list of the started program.  It does not matter when the input arrives,
how the iterations divide it up and what the clock shows.  As soon as nothing can be handled any more,
the calls are all of those of the interpreter, and what has been sent out is what it sends out. -/
theorem main_loop_interprets_reads (hstart : startProgram p (some configRoot) = .ok program)
    (hA : p.allocator.Succeeds) (hwindowless : ∀ node ∈ program.world.nodes, node.kind.type ≠ .window)
    (hdivisions : program.world.DivisionsFit)
    (hfiles : ∀ s ∈ program.sources, 0 ≤ s.1 ∧ s.1 < fdSetSize)
    (hreads : ∀ i k s input, program.sources[k]? = some s → (script i).reads false k = some input →
      program.world.Reads s.2 input)
    (hforward : ReadsForward script) {depth : Nat} {readings : List (AbsoluteTime × Nat)}
    {reachedTime : AbsoluteTime} {rounds : List (Round World κ)} {it : IterationState World κ}
    (hloop : processIterations (World.dispatch (p.toPlatform.withDepth depth))
      (program.lists.callbacks p.toPlatform script) readings (program.loopState reachedTime) =
        (rounds, .ok it)) :
    ∃ τ visits g stayed, Run (ProgramMove p.toPlatform) program.world τ it.state ∧
      τ.map Transition.label =
        rounds.flatMap (Round.calls (program.lists.readsOf p.toPlatform script)) ∧
      interpretEvents (program.world.withTokens (tokensRead τ)) = some (visits, .ok (g, stayed)) ∧
      tokensHandled τ <+: visits.map Prod.fst ∧
      ((∀ t ∈ it.state.tokens, (rules program.world).stays t) →
        tokensHandled τ = visits.map Prod.fst ∧ it.state.tokens = stayed ∧
          it.state.deliveries = g.deliveries) := by
  obtain ⟨d, hsteady⟩ := startProgram_steady hstart hwindowless hdivisions
  have hsubscribed := startProgram_subscribed hstart hfiles
  obtain ⟨-, -, -, -, -, -, -, hlists⟩ := startProgram_registers hstart
  have hinv : LoopInvariant (World.dispatch (p.toPlatform.withDepth depth))
      (program.lists.callbacks (κ := κ) p.toPlatform script) (program.lists.readsOf p.toPlatform script)
      (fun calls it => ∃ τ, it.Interpreted p.toPlatform script program.world τ ∧
        τ.map Transition.label = calls) := by
    refine ⟨?_, ?_, ?_⟩
    · rintro calls it ⟨τ, h, -⟩
      exact h.delays
    · rintro calls it ⟨τ, h, rfl⟩ timeout io it' hcall
      exact h.processIo hsteady hA hlists hsubscribed hreads hforward hcall
    · rintro calls it ⟨τ, h, rfl⟩ fuel maxTime trace hadEvents proc' w' hcall
      exact h.events hsteady hA hcall
  obtain ⟨τ, h, hlabels⟩ :=
    hinv.processIterations ⟨[], loopState_interpreted hstart reachedTime, rfl⟩ hloop
  rw [List.map_nil, List.nil_append] at hlabels
  obtain ⟨υ, hsteps, hvisits⟩ := h.interprets.steps
  -- the interpreter meets no fault
  have hlinked := hsteady.sound.linked
  obtain ⟨visits, g, stayed, hok⟩ :=
    interpretEvents_ok (w := program.world.withTokens (tokensRead τ)) ⟨hlinked.outputs, hlinked.endNodes⟩
      hwindowless hsteady.sound.acyclic hdivisions (by
        intro e he position hposition
        obtain ⟨t, ht, rfl⟩ := List.mem_map.mp he
        exact tokensRead_hasPosition hlinked hsteady.sound.nodup h.run ht hposition)
  have hrewrite : rewrite (rules program.world) (visits.length + 1) (tokensRead τ)
      program.world.circuit = some (visits, .ok (g, stayed)) := by
    have hmachine := rewrite_of_interpretAll hok
    rw [withTokens_tokens] at hmachine
    rw [startProgram_circuit hstart]
    exact hmachine
  refine ⟨τ, visits, g, stayed, h.run, hlabels, hok, ?_, fun hstays => ?_⟩
  · obtain ⟨rest, -, hall, -⟩ := rewrite_of_run hsteps hrewrite
    exact ⟨rest.map Prod.fst, by rw [hall, List.map_append, hvisits]⟩
  · obtain ⟨hall, hout⟩ := rewrite_of_run_stays hsteps hstays hrewrite
    obtain ⟨rfl, rfl⟩ := Prod.mk.inj (Except.ok.inj hout)
    exact ⟨by rw [hall, hvisits], rfl, rfl⟩

end

theorem oneByte_forward : ReadsForward oneByte where
  inOrder i k input hinput kind := by
    refine List.pairwise_of_forall_mem_list fun data hdata data' hdata' => ?_
    rw [oneByte_time hinput hdata, oneByte_time hinput hdata']
  before i k i' k' input input' h hinput hinput' kind kind' data hdata data' hdata' := by
    have hle : i ≤ i' := by omega
    rw [oneByte_time hinput hdata, oneByte_time hinput' hdata']
    show toLex ((i : Int), (0 : Int)) ≤ toLex ((i' : Int), 0)
    rw [Prod.Lex.toLex_le_toLex]
    rcases hle.lt_or_eq with hlt | rfl
    · exact .inl (by dsimp only; omega)
    · exact .inr ⟨rfl, le_rfl⟩

/-- The byte and the end of the input are printed as the interpreter prints them. -/
theorem main_loop_interprets_reads_one_byte :
    ∃ (rounds : List (Round World Unit)) (it : IterationState World Unit) (τ : List SystemTransition)
      (visits : List (Token × World)) (g : World) (stayed : List Token),
      (rounds.flatMap fun r => pickingProgram.lists.readsOf treeProgram.toPlatform oneByte r.io) =
        oneByteReads ∧
      τ.map Transition.label =
        rounds.flatMap (Round.calls (pickingProgram.lists.readsOf treeProgram.toPlatform oneByte)) ∧
      interpretEvents (pickingWorld.withTokens (tokensRead τ)) = some (visits, .ok (g, stayed)) ∧
      tokensHandled τ = visits.map Prod.fst ∧ it.state.deliveries = g.deliveries ∧
      g.deliveries.length = 4 := by
  obtain ⟨rounds, it, hloop, hprinted, -, hnone, hread⟩ := oneByte_iteration
  obtain ⟨τ, visits, g, stayed, -, hcalls, hinterprets, -, hall⟩ :=
    main_loop_interprets_reads picking_starts Allocator.next_succeeds (by decide)
      (by simp [World.DivisionsFit, pickingWorld, NodeKind.DivisionFits]) (by decide) oneByte_reads
      oneByte_forward hloop
  obtain ⟨hhandled, -, hdeliveries⟩ := hall (by simp [World.tokens, hnone])
  exact ⟨rounds, it, τ, visits, g, stayed, hread, hcalls, hinterprets, hhandled, hdeliveries,
    hdeliveries ▸ hprinted⟩

end EventSeq
