import EventSeq.Streams
import EventSeq.Lib.Signed64

/-!
# Amortized scaling

A `scale` node that amortizes its rounding error carries the remainder of each division over to the
next event.  Over a whole stream nothing is lost but the remainder that is still stored.
-/

namespace EventSeq

open Lib

/-- No intermediate value of the handler leaves the range of its type. -/
structure ScaleGraphNode.Fits (node : ScaleGraphNode) (payload : Int64) : Prop where
  centered : InInt64 (payload.toInt - node.center.toInt)
  scaled : InInt64 ((payload.toInt - node.center.toInt) * node.numerator.toInt)
  amortized :
    InInt64 ((payload.toInt - node.center.toInt) * node.numerator.toInt + node.defect.toInt)
  divided :
    InInt64 (((payload.toInt - node.center.toInt) * node.numerator.toInt +
      node.defect.toInt).tdiv node.denominator.toInt)
  moved :
    InInt64 (((payload.toInt - node.center.toInt) * node.numerator.toInt +
      node.defect.toInt).tdiv node.denominator.toInt + node.center.toInt)

/-- The payload that the node sends on. -/
def ScaleGraphNode.scaled (node : ScaleGraphNode) (payload : Int64) : Int64 :=
  (scaleUpdate node { (default : EventData) with payload := payload }).1.payload

section

variable {node : ScaleGraphNode} {payload : Int64} {data : EventData}

/-- One event: what is taken and the old remainder make up what is sent and the new remainder. -/
theorem scaleUpdate_exact (hamortize : node.amortizeRoundingError = true)
    (hdenominator : node.denominator ≠ 0) (hfits : node.Fits data.payload) :
    ∃ defect, (scaleUpdate node data).2 = .scale { node with defect := defect } ∧
      node.numerator.toInt * (data.payload.toInt - node.center.toInt) + node.defect.toInt =
        node.denominator.toInt * ((scaleUpdate node data).1.payload.toInt - node.center.toInt) +
          defect.toInt ∧
      |defect.toInt| < |node.denominator.toInt| := by
  have hzero : node.denominator.toInt ≠ 0 := fun h => hdenominator (Int64.toInt_inj.mp h)
  -- From the inside out, each machine operation is the exact one.
  have hcentered := hfits.centered.toInt_sub
  have hscaled : ((data.payload - node.center) * node.numerator).toInt =
      (data.payload.toInt - node.center.toInt) * node.numerator.toInt := by
    rw [← hcentered]
    apply InInt64.toInt_mul
    rw [hcentered]
    exact hfits.scaled
  have hamortized : ((data.payload - node.center) * node.numerator + node.defect).toInt =
      (data.payload.toInt - node.center.toInt) * node.numerator.toInt + node.defect.toInt := by
    rw [← hscaled]
    apply InInt64.toInt_add
    rw [hscaled]
    exact hfits.amortized
  have hdivided := hfits.divided
  have hmoved := hfits.moved
  rw [← hamortized] at hdivided hmoved
  have hquotient := hdivided.toInt_div
  have hsent : (((data.payload - node.center) * node.numerator + node.defect) / node.denominator +
      node.center).toInt =
      (((data.payload - node.center) * node.numerator + node.defect).toInt.tdiv
        node.denominator.toInt) + node.center.toInt := by
    rw [← hquotient]
    apply InInt64.toInt_add
    rw [hquotient]
    exact hmoved
  simp only [scaleUpdate, ScaleGraphNode.dividend, hamortize, if_true, if_neg hdenominator]
  refine ⟨_, rfl, ?_, ?_⟩
  · rw [toInt_sub_mul_div hzero hdivided, hsent, mul_comm node.numerator.toInt, ← hamortized]
    have hdivision := Int.mul_tdiv_add_tmod
      ((data.payload - node.center) * node.numerator + node.defect).toInt node.denominator.toInt
    linarith
  · rw [toInt_sub_mul_div hzero hdivided]
    exact abs_tmod_lt hzero

theorem scaleUpdate_payload (node : ScaleGraphNode) (data : EventData) :
    (scaleUpdate node data).1.payload = node.scaled data.payload := by
  simp only [ScaleGraphNode.scaled, scaleUpdate, ScaleGraphNode.dividend]
  split <;> rfl

end

/-! ## Runs -/

/-- A call of the handler of a `scale` node without overflow. -/
def ScalesExactly (P : Platform) (n : Nat) (kind : NodeKind) (call : HandlerCall)
    (kind' : NodeKind) : Prop :=
  Handles P n kind call kind' ∧ ∃ node, kind = .scale node ∧ node.Fits call.payload

/-- The payload that a call sends on. -/
def sentPayload (x : StreamTransition) : Int64 :=
  match x.before with
  | .scale node => node.scaled x.label.payload
  | _ => 0

/-- What was taken and what was sent so far differ by the stored remainder only, with which the sent
sum is less than one unit away from the exact one. -/
structure Balanced (node : ScaleGraphNode) (taken sent : List Int64) (defect : Int64) : Prop where
  exact :
    node.numerator.toInt * (taken.map fun x => x.toInt - node.center.toInt).sum =
      node.denominator.toInt * (sent.map fun y => y.toInt - node.center.toInt).sum + defect.toInt
  small : |defect.toInt| < |node.denominator.toInt|
  close :
    |((sent.map fun y => y.toInt - node.center.toInt).sum : ℚ) -
      node.numerator.toInt * (taken.map fun x => x.toInt - node.center.toInt).sum /
        node.denominator.toInt| < 1

section

variable {P : Platform} {n : Nat} {node : ScaleGraphNode} {kind : NodeKind}
  {τ : List StreamTransition}

/-- One call: its copies carry what was sent, and the remainder is carried over. -/
theorem ScalesExactly.step {call : HandlerCall} (hamortize : node.amortizeRoundingError = true)
    (hdenominator : node.denominator ≠ 0) (h : ScalesExactly P n (.scale node) call kind) :
    call.Sends P.allocator (node.scaled call.payload) ∧
      ∃ defect, kind = .scale { node with defect := defect } ∧
        node.numerator.toInt * (call.payload.toInt - node.center.toInt) + node.defect.toInt =
          node.denominator.toInt * ((node.scaled call.payload).toInt - node.center.toInt) +
            defect.toInt ∧
        |defect.toInt| < |node.denominator.toInt| := by
  obtain ⟨hhandles, _, ⟨⟩, hfits⟩ := h
  obtain ⟨data, hpayload, hkind, hsends⟩ := hhandles.sends (forwards_scale node)
  rw [← hpayload] at hfits ⊢
  obtain ⟨defect, hdefect, hexact, hsmall⟩ := scaleUpdate_exact hamortize hdenominator hfits
  rw [scaleUpdate_payload] at hexact hsends
  exact ⟨hsends, defect, hkind.trans hdefect, hexact, hsmall⟩

/-- The remainders telescope. -/
theorem run_telescopes (hamortize : node.amortizeRoundingError = true)
    (hdenominator : node.denominator ≠ 0)
    (hsmall : |node.defect.toInt| < |node.denominator.toInt|)
    (h : Run (ScalesExactly P n) (.scale node) τ kind) :
    ∃ defect, kind = .scale { node with defect := defect } ∧
      node.numerator.toInt * ((τ.map fun x => x.label.payload).map fun x =>
          x.toInt - node.center.toInt).sum + node.defect.toInt =
        node.denominator.toInt * ((τ.map sentPayload).map fun y =>
          y.toInt - node.center.toInt).sum + defect.toInt ∧
      |defect.toInt| < |node.denominator.toInt| := by
  -- A call changes the remainder only, so the induction is over all nodes with the same factors.
  generalize hstart : NodeKind.scale node = start at h
  induction h generalizing node with
  | nil _ =>
      subst hstart
      exact ⟨node.defect, rfl, by simp, hsmall⟩
  | @cons _ s' _ call _ hstep _ ih =>
      subst hstart
      obtain ⟨-, defect, rfl, hexact, hsmall'⟩ := hstep.step hamortize hdenominator
      obtain ⟨defect', hkind, htotal, hsmall''⟩ :=
        @ih { node with defect := defect } hamortize hdenominator hsmall' rfl
      refine ⟨defect', hkind, ?_, hsmall''⟩
      simp only [List.map_cons, List.sum_cons, sentPayload, mul_add] at htotal ⊢
      linarith

/-- Each call sends what `sentPayload` says. -/
theorem run_sends (hamortize : node.amortizeRoundingError = true) (hdenominator : node.denominator ≠ 0)
    (h : Run (ScalesExactly P n) (.scale node) τ kind) :
    List.Forall₂ (fun x y => x.label.Sends P.allocator y) τ (τ.map sentPayload) := by
  generalize hstart : NodeKind.scale node = start at h
  induction h generalizing node with
  | nil _ => exact .nil
  | cons hstep _ ih =>
      subst hstart
      obtain ⟨hsends, defect, rfl, -, -⟩ := hstep.step hamortize hdenominator
      exact .cons hsends (@ih { node with defect := defect } hamortize hdenominator rfl)

end

/-- From the creation of the node on, and after every event, the sums of what an amortizing `scale`
node took and sent satisfy `Balanced`. -/
theorem amortized_scaling_loses_nothing {Setting : Type} {p : ConfigPlatform Setting}
    {constants : ConstantRegistry} {options : Option Setting} {node : ScaleGraphNode}
    (hcreate : scaleCreate p constants options = .ok node)
    (hamortize : node.amortizeRoundingError = true) (hdenominator : node.denominator ≠ 0)
    {P : Platform} {n : Nat} {τ : List StreamTransition} {kind : NodeKind}
    (hrun : Run (ScalesExactly P n) (.scale node) τ kind) :
    ∃ ys : List Int64,
      List.Forall₂ (fun x y => x.label.Sends P.allocator y) τ ys ∧
      ∀ pre post, τ = pre ++ post → ∃ defect,
        Run (ScalesExactly P n) (.scale node) pre (.scale { node with defect := defect }) ∧
        Balanced node (pre.map fun x => x.label.payload) (ys.take pre.length) defect := by
  have hzero : node.denominator.toInt ≠ 0 := fun h => hdenominator (Int64.toInt_inj.mp h)
  have hdefect : node.defect.toInt = 0 := by
    rw [scaleCreate_defect hcreate]
    rfl
  have hstart : |node.defect.toInt| < |node.denominator.toInt| := by
    rw [hdefect, abs_zero]
    exact abs_pos.mpr hzero
  refine ⟨τ.map sentPayload, run_sends hamortize hdenominator hrun, ?_⟩
  rintro pre post rfl
  obtain ⟨mid, hpre, -⟩ := hrun.split
  obtain ⟨defect, rfl, hexact, hsmall⟩ := run_telescopes hamortize hdenominator hstart hpre
  -- A new node has no remainder yet.
  rw [hdefect, add_zero] at hexact
  refine ⟨defect, hpre, ?_⟩
  rw [List.map_append, List.take_left' (List.length_map _)]
  refine ⟨hexact, hsmall, ?_⟩
  have hclose := abs_sub_div_lt_one hzero hexact hsmall
  rwa [Int.cast_mul] at hclose

def scaleOptions : SettingTree :=
  .group none
    [.int (some "numerator") (-2), .int (some "denominator") 3, .int (some "center") 1,
      .int (some "amortize_rounding_error") 1]

def scaleNode (defect : Int64) : ScaleGraphNode where
  numerator := -2
  denominator := 3
  center := 1
  defect := defect
  amortizeRoundingError := true

/-- Twice -2/3 is sent as 0 and -1, and -1/3 is left. -/
theorem amortized_scaling_loses_nothing_two :
    scaleCreate treePlatform (createTable 5 ⟨1, 0⟩) (some scaleOptions) = .ok (scaleNode 0) ∧
      ∃ τ : List StreamTransition,
        Run (ScalesExactly simplePlatform 0) (.scale (scaleNode 0)) τ (.scale (scaleNode (-1))) ∧
        τ.map (fun x => x.label.payload) = [2, 2] ∧
        ∃ ys, List.Forall₂ (fun x y => x.label.Sends Allocator.next y) τ ys ∧
          ∃ defect, Balanced (scaleNode 0) [2, 2] ys defect := by
  have hcreate : scaleCreate treePlatform (createTable 5 ⟨1, 0⟩) (some scaleOptions) =
      .ok (scaleNode 0) := by decide +kernel
  have hfirst : ScalesExactly simplePlatform 0 (.scale (scaleNode 0)) (streamCall 2 1)
      (.scale (scaleNode (-2))) :=
    ⟨⟨streamWorld (.scale (scaleNode 0)) 2, _, ⟨false, [], [some 0], .scale (scaleNode 0)⟩, _, [],
      [], _, ⟨rfl, by decide⟩, rfl, rfl, rfl, List.cons_ne_nil _ _, rfl, rfl, rfl, rfl, rfl⟩,
      scaleNode 0, rfl, by decide, by decide, by decide, by decide, by decide⟩
  have hsecond : ScalesExactly simplePlatform 0 (.scale (scaleNode (-2))) (streamCall 2 0)
      (.scale (scaleNode (-1))) :=
    ⟨⟨streamWorld (.scale (scaleNode (-2))) 2, _, ⟨false, [], [some 0], .scale (scaleNode (-2))⟩, _,
      [], [], _, ⟨rfl, by decide⟩, rfl, rfl, rfl, List.cons_ne_nil _ _, rfl, rfl, rfl, rfl, rfl⟩,
      scaleNode (-2), rfl, by decide, by decide, by decide, by decide, by decide⟩
  have hrun := Run.cons hfirst (.cons hsecond (.nil _))
  obtain ⟨ys, hys, hall⟩ := amortized_scaling_loses_nothing hcreate rfl (by decide) hrun
  obtain ⟨defect, -, hbalanced⟩ := hall _ [] (List.append_nil _).symm
  have htwo : Balanced (scaleNode 0) [2, 2] (ys.take 2) defect := hbalanced
  have hall' : ys.take 2 = ys := List.take_of_length_le hys.length_eq.symm.le
  rw [hall'] at htwo
  exact ⟨hcreate, _, hrun, rfl, ys, hys, defect, htwo⟩

end EventSeq
