import LibND4J.Arrays.Matrices
import LibND4J.Convolutions.Deconv2D

/-!
# Gradients of transposed convolutions

`deconv2d_bp` convolves the input of the forward pass, and not the gradient that comes in, and
sums what that gives over batch and positions.

Main results:

- Theorem `deconv2dBp_eq_ok`: what the steps of a run that returns leave.
- Theorem `deconv2dBp_same`: two gradients get the same answers, the weights apart.
- Theorem `not_deconvBackpropagates`: the answers are not the gradients.
-/

namespace LibND4J
namespace Convolutions

open Arrays Shape Strided

/-! ## The operation -/

section Operation

variable {T : Type} [CommRing T] [DecidableEq T]

/-- The outputs of `deconv2d_bp`. -/
structure Deconv2DGradients (T : Type) where
  epsilon : NDArray T
  gradW : NDArray T
  gradB : Option (NDArray T)

/-- `gradW` of `deconv2d_bp`: the columns of the gradient that comes in, and a contraction. -/
def deconv2dGradW (run : Runtime T) (argI : List Int) (input epsilonNext gradW : NDArray T) :
    Except Failure (NDArray T) := do
  let inY := sizeAt epsilonNext.shapeInfo.shape 2
  let inX := sizeAt epsilonNext.shapeInfo.shape 3
  let (oY, oX) := outputSizes argI inY inX
  let (pY, pX) := paddings argI oY oX inY inX
  let gcol := NDArray.ofShape 'c' [sizeAt input.shapeInfo.shape 0, sizeAt input.shapeInfo.shape 1,
    (intArgument argI 0).toNat, (intArgument argI 1).toNat, oY.toNat, oX.toNat]
  let gcol := applyIm2col run argI pY pX epsilonNext gcol
  let gW ← tensorDot run input gcol [0, 2, 3] [0, 4, 5]
  gradW.assign run gW

/-- `gradB` of `deconv2d_bp`; its output is there if a bias is. -/
def deconv2dGradB (run : Runtime T) (epsilon : NDArray T) (gradB : Option (NDArray T)) :
    Except Failure (Option (NDArray T)) :=
  match gradB with
  | none => .ok none
  | some gradB => do
      let sum ← sumAlong run epsilon [0, 2, 3]
      (gradB.assign run sum).map some

/-- `deconv2d_bp`, with its outputs. -/
def deconv2dBp (run : Runtime T) (argI : List Int) (input weights epsilonNext : NDArray T)
    (outputs : Deconv2DGradients T) : Except Failure (Deconv2DGradients T) := do
  require ⟨input.shapeInfo.rank = 4, "Input should be 4D, but got %iD instead"⟩
  require ⟨weights.shapeInfo.rank = 4, "Weights should be 4D, but got %iD instead"⟩
  require ⟨epsilonNext.shapeInfo.rank = 4, "Epsilon should be 4D, but got %iD instead"⟩
  -- the forward pass of the convolution, of the input
  let epsilon ← conv2d run argI input weights none outputs.epsilon
  let gradW ← deconv2dGradW run argI input epsilonNext outputs.gradW
  let gradB ← deconv2dGradB run epsilon outputs.gradB
  .ok ⟨epsilon, gradW, gradB⟩

/-- What the shape function of `deconv2d_bp` declares: the shape information of the input, the
weights and the bias, with zeros. -/
def deconv2dOutputs (input weights : NDArray T) (bias : Option (NDArray T)) :
    Deconv2DGradients T where
  epsilon := ⟨input.shapeInfo, fun _ => 0⟩
  gradW := ⟨weights.shapeInfo, fun _ => 0⟩
  gradB := bias.map fun bias => ⟨bias.shapeInfo, fun _ => 0⟩

end Operation

/-! ## What is asked for -/

/-- The gradients of the transposed convolution: the inner products with what is varied are those of
the gradient that comes in, which is summed for the bias. -/
structure DeconvGradients {T : Type} [CommRing T] (g : Conv2DGeometry)
    (input weights epsilonNext : NDArray T) (bias : Option (NDArray T))
    (gradients : Deconv2DGradients T) : Prop where
  epsilon : pairing g.inputShape (transposedAt g weights input) epsilonNext.element =
    pairing g.outputShape input.element gradients.epsilon.element
  gradW : pairing g.inputShape (transposedAt g weights input) epsilonNext.element =
    pairing g.weightShape weights.element gradients.gradW.element
  gradB : bias.isSome → ∃ gradB, gradients.gradB = some gradB ∧ ∀ c < g.inDepth,
    gradB.element [0, c] = ∑ b ∈ Finset.range g.batchSize, ∑ h ∈ Finset.range g.inY,
      ∑ w ∈ Finset.range g.inX, epsilonNext.element [b, c, h, w]

/-- Whatever the arrays hold and however they lie, the operation completes with the gradients. -/
def DeconvBackpropagates (g : Deconv2DGeometry) (T : Type) [CommRing T] [DecidableEq T]
    (run : Runtime T) : Prop :=
  ∀ (input weights epsilonNext : NDArray T) (bias : Option (NDArray T)),
    input.shapeInfo.shape = g.toConv2D.outputShape →
    weights.shapeInfo.shape = g.toConv2D.weightShape →
    epsilonNext.shapeInfo.shape = g.toConv2D.inputShape →
    (∀ row, bias = some row → row.shapeInfo.shape = [1, g.inDepth]) →
      ∃ gradients, deconv2dBp run g.toConv2D.argI input weights epsilonNext
          (deconv2dOutputs input weights bias) = .ok gradients ∧
        DeconvGradients g.toConv2D input weights epsilonNext bias gradients

/-! ## What it leaves -/

section Runs

variable {T : Type} [CommRing T] [DecidableEq T] {run : Runtime T} {argI : List Int}
  {input weights epsilonNext other : NDArray T} {outputs gradients gradients' : Deconv2DGradients T}

/-- A step that returns, and what follows. -/
theorem bind_eq_ok_iff {α β : Type} {x : Except Failure α} {f : α → Except Failure β} {b : β} :
    (x >>= f) = .ok b ↔ ∃ a, x = .ok a ∧ f a = .ok b := by
  cases x with
  | error e => exact ⟨fun h => (by cases h), fun ⟨_, h, _⟩ => (by cases h)⟩
  | ok a =>
      constructor
      · intro h
        exact ⟨a, rfl, h⟩
      · rintro ⟨a', ha, h⟩
        cases ha
        exact h

variable (h : deconv2dBp run argI input weights epsilonNext outputs = .ok gradients)

include h

/-- What the steps of a run that returns leave. -/
theorem deconv2dBp_eq_ok :
    conv2d run argI input weights none outputs.epsilon = .ok gradients.epsilon ∧
      deconv2dGradW run argI input epsilonNext outputs.gradW = .ok gradients.gradW ∧
      deconv2dGradB run gradients.epsilon outputs.gradB = .ok gradients.gradB := by
  rw [deconv2dBp] at h
  obtain ⟨-, -, h⟩ := bind_eq_ok_iff.mp h
  obtain ⟨-, -, h⟩ := bind_eq_ok_iff.mp h
  obtain ⟨-, -, h⟩ := bind_eq_ok_iff.mp h
  obtain ⟨epsilon, hepsilon, h⟩ := bind_eq_ok_iff.mp h
  obtain ⟨gradW, hgradW, h⟩ := bind_eq_ok_iff.mp h
  obtain ⟨gradB, hgradB, h⟩ := bind_eq_ok_iff.mp h
  cases h
  exact ⟨hepsilon, hgradW, hgradB⟩

/-- Whatever gradient comes in, the answers for the input and the bias are the same. -/
theorem deconv2dBp_same (h' : deconv2dBp run argI input weights other outputs = .ok gradients') :
    gradients.epsilon = gradients'.epsilon ∧ gradients.gradB = gradients'.gradB := by
  obtain ⟨hepsilon, -, hgradB⟩ := deconv2dBp_eq_ok h
  obtain ⟨hepsilon', -, hgradB'⟩ := deconv2dBp_eq_ok h'
  have hsame : gradients.epsilon = gradients'.epsilon :=
    Except.ok.inj (hepsilon.symm.trans hepsilon')
  rw [← hsame] at hgradB'
  exact ⟨hsame, Except.ok.inj (hgradB.symm.trans hgradB')⟩

omit h

omit [DecidableEq T] in
/-- A single pixel is all that its channel sums to. -/
theorem sum_single (g : Conv2DGeometry) (v : T) :
    ∑ b ∈ Finset.range g.batchSize, ∑ h ∈ Finset.range g.inY, ∑ w ∈ Finset.range g.inX,
      (NDArray.mk (shapeBuffer g.inputShape)
        (Pi.single (encode g.inputShape [0, 0, 0, 0] : Int) v)).element [b, 0, h, w] = v := by
  have hspot : InBox g.inputShape [0, 0, 0, 0] :=
    inBox_four.mpr ⟨0, 0, 0, 0, rfl, g.batchSize_pos, g.inDepth_pos, g.inY_pos, g.inX_pos⟩
  have helement : ∀ b < g.batchSize, ∀ h < g.inY, ∀ w < g.inX,
      (NDArray.mk (shapeBuffer g.inputShape)
        (Pi.single (encode g.inputShape [0, 0, 0, 0] : Int) v)).element [b, 0, h, w] =
          if b = 0 then if h = 0 then if w = 0 then v else 0 else 0 else 0 := by
    intro b hb h hh w hw
    have hbox : InBox g.inputShape [b, 0, h, w] :=
      inBox_four.mpr ⟨b, 0, h, w, rfl, hb, g.inDepth_pos, hh, hw⟩
    rw [element_single hbox hspot]
    simp only [List.cons.injEq, and_true, true_and, ite_and]
  calc ∑ b ∈ Finset.range g.batchSize, ∑ h ∈ Finset.range g.inY, ∑ w ∈ Finset.range g.inX,
        (NDArray.mk (shapeBuffer g.inputShape)
          (Pi.single (encode g.inputShape [0, 0, 0, 0] : Int) v)).element [b, 0, h, w]
      = ∑ b ∈ Finset.range g.batchSize, ∑ h ∈ Finset.range g.inY, ∑ w ∈ Finset.range g.inX,
          if b = 0 then if h = 0 then if w = 0 then v else 0 else 0 else 0 :=
        Finset.sum_congr rfl fun b hb => Finset.sum_congr rfl fun h hh =>
          Finset.sum_congr rfl fun w hw => helement b (Finset.mem_range.mp hb) h
            (Finset.mem_range.mp hh) w (Finset.mem_range.mp hw)
    _ = v := by
        rw [Finset.sum_eq_single_of_mem 0 (Finset.mem_range.mpr g.batchSize_pos)
            (fun b _ hb => by simp [hb]),
          Finset.sum_eq_single_of_mem 0 (Finset.mem_range.mpr g.inY_pos)
            (fun h _ hh => by simp [hh]),
          Finset.sum_eq_single_of_mem 0 (Finset.mem_range.mpr g.inX_pos)
            (fun w _ hw => by simp [hw])]
        simp

/-- A single pixel of the gradient that comes in would have to be found in the answer. -/
theorem one_eq_zero_of_backpropagates {g : Deconv2DGeometry} {run : Runtime T}
    (hright : DeconvBackpropagates g T run) : (1 : T) = 0 := by
  let input : NDArray T := ⟨shapeBuffer g.toConv2D.outputShape, fun _ => 0⟩
  let weights : NDArray T := ⟨shapeBuffer g.toConv2D.weightShape, fun _ => 0⟩
  let bias : NDArray T := ⟨shapeBuffer [1, g.inDepth], fun _ => 0⟩
  let spot : T → NDArray T := fun v => ⟨shapeBuffer g.toConv2D.inputShape,
    Pi.single (encode g.toConv2D.inputShape [0, 0, 0, 0] : Int) v⟩
  have hrun : ∀ v, ∃ gradients, deconv2dBp run g.toConv2D.argI input weights (spot v)
      (deconv2dOutputs input weights (some bias)) = .ok gradients ∧
        DeconvGradients g.toConv2D input weights (spot v) (some bias) gradients := by
    intro v
    refine hright input weights (spot v) (some bias) (shape_shapeBuffer _) (shape_shapeBuffer _)
      (shape_shapeBuffer _) fun row hrow => ?_
    cases hrow
    exact shape_shapeBuffer _
  obtain ⟨gradients, hgradients, hvalues⟩ := hrun 0
  obtain ⟨gradients', hgradients', hvalues'⟩ := hrun 1
  obtain ⟨-, hsame⟩ := deconv2dBp_same hgradients hgradients'
  obtain ⟨gradB, hgradB, hvalue⟩ := hvalues.gradB rfl
  obtain ⟨gradB', hgradB', hvalue'⟩ := hvalues'.gradB rfl
  have hrow : gradB = gradB' := by
    rw [hsame, hgradB'] at hgradB
    exact (Option.some.inj hgradB).symm
  have hzero := hvalue 0 g.inDepth_pos
  have hone := hvalue' 0 g.inDepth_pos
  rw [sum_single g.toConv2D] at hzero hone
  rw [hrow] at hzero
  exact hone.symm.trans hzero

/-- The answers are not the gradients: they are the same whatever gradient comes in. -/
theorem not_deconvBackpropagates [Nontrivial T] (g : Deconv2DGeometry) (run : Runtime T) :
    ¬ DeconvBackpropagates g T run :=
  fun hright => one_ne_zero (one_eq_zero_of_backpropagates hright)

theorem not_deconvBackpropagates_twoToOne :
    ¬ DeconvBackpropagates twoToOne Int sequentialRuntime :=
  not_deconvBackpropagates twoToOne sequentialRuntime

/-- Two channels that were spread over one. -/
theorem not_deconvBackpropagates_always :
    ¬ ∀ (g : Deconv2DGeometry) (run : Runtime Int), DeconvBackpropagates g Int run :=
  fun hright => absurd (one_eq_zero_of_backpropagates (hright twoToOne sequentialRuntime))
    (by decide)

end Runs

end Convolutions
end LibND4J
