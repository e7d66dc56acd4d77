import LibND4J.Convolutions.PoolingExtents
import LibND4J.Library.Strided
import LibND4J.Ops.Conditions

/-!
# Maximum pooling of volumes and its gradient as operations

`maxpool3d` writes its output and the indices into arrays of the shape of the output.
`maxpool3d_bp` asks for indices of the shape of the input, and adds to its own output without
setting it to zero first.

Main results:

- Theorem `gradientLoop_eq`: the loops over a batch add to what the output holds.
- Theorem `maxpool3dBp_accepts_iff`: the indices are accepted exactly if the output of the
  pooling has the shape of its input.
- Theorem `maxpool3dBp_never_composes`: what is stored always depends on what was there.
-/

namespace LibND4J
namespace Convolutions

open Accumulation Ops

/-! ## The operations -/

/-- The integer arguments of `maxpool3d` and `maxpool3d_bp`. -/
structure MaxPool3DArguments where
  kT : Int
  kW : Int
  kH : Int
  dT : Int
  dW : Int
  dH : Int
  pT : Int
  pW : Int
  pH : Int
  dilationT : Int
  dilationW : Int
  dilationH : Int
  ceilMode : Bool
deriving DecidableEq, Repr

def sizeAt (shape : List Nat) (dim : Nat) : Nat :=
  shape.getD dim 0

namespace MaxPool3DArguments

variable (a : MaxPool3DArguments)

/-- The conditions on the arguments, which both operations have. -/
def conditions : List Condition :=
  [⟨a.kT > 0 ∧ a.kW > 0 ∧ a.kH > 0,
      "Kernel size should be greater than zero, but got kT: %d kH: %d kW: %d"⟩,
    ⟨a.dT > 0 ∧ a.dW > 0 ∧ a.dH > 0,
      "stride should be greater than zero, but got dT: %d dH: %d dW: %d"⟩,
    ⟨a.dilationT > 0 ∧ a.dilationW > 0 ∧ a.dilationH > 0,
      "dilation should be greater than 0, but got dilationT: %d dilationH: %d dilationW: %d"⟩,
    ⟨a.kT / 2 ≥ a.pT ∧ a.kW / 2 ≥ a.pW ∧ a.kH / 2 ≥ a.pH,
      "pad should be smaller than half of kernel size, but got " ++
        "kT: %d kW: %d, kH: %d, padT: %d, padW: %d, padH: %d"⟩]

/-- The test for padding in any axis. -/
def padded : Bool :=
  a.pT > 0 ∨ a.pW > 0 ∨ a.pH > 0

def otime (itime : Nat) : Int :=
  outputExtent a.ceilMode a.padded (itime - (a.dilationT * (a.kT - 1) + 1) + 2 * a.pT) a.dT
    (itime + a.pT)

def oheight (iheight : Nat) : Int :=
  outputExtent a.ceilMode a.padded (iheight - (a.dilationH * (a.kH - 1) + 1) + 2 * a.pH) a.dH
    (iheight + a.pH)

def owidth (iwidth : Nat) : Int :=
  outputExtent a.ceilMode a.padded (iwidth - (a.dilationW * (a.kW - 1) + 1) + 2 * a.pW) a.dW
    (iwidth + a.pW)

end MaxPool3DArguments

/-- The conditions of `maxpool3d`, for the shapes of its input, its output and the indices. -/
def maxpool3dConditions (sizeOfT : Nat) (a : MaxPool3DArguments) (input output indices : List Nat) :
    List Condition :=
  let otime := a.otime (sizeAt input 2)
  let oheight := a.oheight (sizeAt input 3)
  let owidth := a.owidth (sizeAt input 4)
  [⟨sizeOfT > 2, "MaxPool3D can't be used in HALF precision"⟩,
    ⟨input.length = 5, "Input should be 5D, got rank %i instead"⟩,
    ⟨output.length = 5, "Output should be 5D, got rank %i instead"⟩] ++
  a.conditions ++
  [⟨otime ≥ 1 ∧ owidth ≥ 1 ∧ oheight ≥ 1, "Output size is too small: [%i, %i, %i]"⟩,
    ⟨sizeAt output 0 = sizeAt input 0 ∧ sizeAt output 1 = sizeAt input 1 ∧
        sizeAt output 2 = otime ∧ sizeAt output 3 = oheight ∧ sizeAt output 4 = owidth,
      "Output shape expected to be [%i, %i, %i, %i, %i], but got [%i, %i, %i, %i, %i] instead"⟩,
    ⟨indices = output, "Output and Indices shapes should be equal"⟩]

/-- The conditions of `maxpool3d_bp`, for the shapes of its input, the indices and its output. -/
def maxpool3dBpConditions (a : MaxPool3DArguments) (input indices output : List Nat) :
    List Condition :=
  [⟨input.length = 5, "Input should be 5D, got %i instead"⟩,
    ⟨indices = input, "Indices should have the same dimensionality as input"⟩,
    ⟨output = input, "Output gradient should have the same dimensionality as input"⟩] ++
  a.conditions

/-- One axis of `_dilatedMaxPool3D_bp`. -/
structure GradientAxis where
  input : Nat
  output : Nat
  stride : Int
  padding : Int
  dilation : Int

/-- `maxti`, for the byte that was recorded. -/
def GradientAxis.place (a : GradientAxis) (byte : BitVec 8) (i : Nat) : Int :=
  byte.toNat * a.dilation + i * a.stride - a.padding

section Loops

variable {K : Type} [CommRing K] (aT aH aW : GradientAxis)

/-- `_dilatedMaxPool3D_bp`, with the places in the buffers that its pointers are at. -/
def dilatedMaxPool3DBpAt (nslices : Nat) (gradInputAt gradOutputAt indzAt : Int)
    (indz : Int → IndexBytes) (gradOutput gradInput : Int → K) : Int → K :=
  let cell (s : Site) : Int :=
    let (k, ti, i, j) := s
    k * aT.output * aW.output * aH.output + (ti * aH.output * aW.output + i * aW.output + j)
  let maxti (s : Site) : Int := aT.place (indz (indzAt + cell s)).1 s.2.1
  let maxi (s : Site) : Int := aH.place (indz (indzAt + cell s)).2.1 s.2.2.1
  let maxj (s : Site) : Int := aW.place (indz (indzAt + cell s)).2.2 s.2.2.2
  addAll
    (fun s => gradInputAt + (s.1 * aT.input * aW.input * aH.input +
      (maxti s * aH.input * aW.input + maxi s * aW.input + maxj s)))
    (fun s => gradOutput (gradOutputAt + cell s))
    ((List.range nslices ×ˢ List.range aT.output ×ˢ List.range aH.output ×ˢ
      List.range aW.output).filter fun s => maxti s ≠ -1)
    gradInput

end Loops

/-- The loop of `maxpool3d_bp` over the batch. -/
def gradientLoop {K : Type} [CommRing K] (a : MaxPool3DArguments) (input gradNext : List Nat)
    (indz : Int → IndexBytes) (gradOutput output : Int → K) : Int → K :=
  let nslices := sizeAt input 1
  let aT : GradientAxis := ⟨sizeAt input 2, sizeAt gradNext 2, a.dT, a.pT, a.dilationT⟩
  let aH : GradientAxis := ⟨sizeAt input 3, sizeAt gradNext 3, a.dH, a.pH, a.dilationH⟩
  let aW : GradientAxis := ⟨sizeAt input 4, sizeAt gradNext 4, a.dW, a.pW, a.dilationW⟩
  let istride := nslices * aT.input * aW.input * aH.input
  let ostride := nslices * aT.output * aW.output * aH.output
  (List.range (sizeAt input 0)).foldl
    (fun m (p : Nat) => dilatedMaxPool3DBpAt aT aH aW nslices (p * istride : Nat)
      (p * ostride : Nat) (p * ostride : Nat) indz gradOutput m)
    output

/-- `maxpool3d_bp`. -/
def maxpool3dBp {K : Type} [CommRing K] (a : MaxPool3DArguments)
    (input gradNext indices output : List Nat) (indz : Int → IndexBytes)
    (gradOutput gradInput : Int → K) : Except String (Int → K) :=
  requireAll (maxpool3dBpConditions a input indices output) >>= fun _ =>
    .ok (gradientLoop a input gradNext indz gradOutput gradInput)

/-! ## What the loops store -/

variable {K : Type}

/-- The loops over one item add to what the output holds. -/
theorem dilatedMaxPool3DBpAt_adds [CommRing K] (aT aH aW : GradientAxis) (nslices : Nat)
    (gradInputAt gradOutputAt indzAt : Int) (indz : Int → IndexBytes) (gradOutput : Int → K) :
    ∃ added : Int → K, ∀ gradInput i,
      dilatedMaxPool3DBpAt aT aH aW nslices gradInputAt gradOutputAt indzAt indz gradOutput
        gradInput i = gradInput i + added i :=
  ⟨_, fun gradInput i => addAll_apply _ _ _ gradInput i⟩

/-- The loops over a batch add to what the output holds. -/
theorem gradientLoop_eq [CommRing K] (a : MaxPool3DArguments) (input gradNext : List Nat)
    (indz : Int → IndexBytes) (gradOutput : Int → K) :
    ∃ added : Int → K, ∀ output i,
      gradientLoop a input gradNext indz gradOutput output i = output i + added i := by
  simp only [gradientLoop]
  induction sizeAt input 0 with
  | zero => exact ⟨fun _ => 0, fun output i => (add_zero _).symm⟩
  | succ batch ih =>
      obtain ⟨added, hadded⟩ := ih
      obtain ⟨last, hlast⟩ := dilatedMaxPool3DBpAt_adds (K := K) _ _ _ _ _ _ _ indz gradOutput
      refine ⟨fun i => added i + last i, fun output i => ?_⟩
      rw [List.range_succ, List.foldl_append, List.foldl_cons, List.foldl_nil, hlast, hadded,
        add_assoc]

/-- The indices are accepted exactly if the output of the pooling has the shape of its input. -/
theorem maxpool3dBp_accepts_iff {sizeOfT : Nat} {a : MaxPool3DArguments}
    {input output indices : List Nat}
    (haccepted : requireAll (maxpool3dConditions sizeOfT a input output indices) = .ok ()) :
    requireAll (maxpool3dBpConditions a input indices input) = .ok () ↔ output = input := by
  rw [requireAll_eq_ok_iff] at *
  simp only [maxpool3dConditions, maxpool3dBpConditions, List.forall_mem_append,
    List.forall_mem_cons, List.not_mem_nil, false_implies, implies_true, and_true,
    decide_eq_true_eq] at *
  obtain ⟨⟨⟨-, hrank, -⟩, harguments⟩, -, -, rfl⟩ := haccepted
  exact ⟨fun h => h.1.2, fun h => ⟨⟨hrank, h⟩, harguments⟩⟩

/-- The backward pass is accepted, and what it stores does not depend on what its output held. -/
def Composes {K : Type} [CommRing K] (a : MaxPool3DArguments)
    (input gradNext indices output : List Nat) (indz : Int → IndexBytes) (gradOutput : Int → K) :
    Prop :=
  ∃ stored : Int → K, ∀ gradInput, ∃ after,
    maxpool3dBp a input gradNext indices output indz gradOutput gradInput = .ok after ∧
      ∀ i ∈ cells output.prod, after i = stored i

/-- What is stored always depends on what was there. -/
theorem maxpool3dBp_never_composes {K : Type} [CommRing K] [Nontrivial K] {sizeOfT : Nat}
    {a : MaxPool3DArguments} {input output indices : List Nat} (hinput : ∀ n ∈ input, 0 < n)
    (haccepted : requireAll (maxpool3dConditions sizeOfT a input output indices) = .ok ()) :
    (requireAll (maxpool3dBpConditions a input indices input) = .ok () ↔ output = input) ∧
      ∀ (indz : Int → IndexBytes) (gradOutput : Int → K),
        ¬ Composes a input output indices input indz gradOutput := by
  refine ⟨maxpool3dBp_accepts_iff haccepted, fun indz gradOutput h => ?_⟩
  obtain ⟨stored, hstored⟩ := h
  obtain ⟨added, hadded⟩ := gradientLoop_eq a input output indz gradOutput
  have hcell : (0 : Int) ∈ cells input.prod :=
    mem_cells.mpr ⟨le_rfl, Int.natCast_pos.mpr (Strided.prod_pos_of_pos hinput)⟩
  -- the first element keeps what it held, plus what is added
  have hfirst : ∀ gradInput : Int → K, gradInput 0 + added 0 = stored 0 := by
    intro gradInput
    obtain ⟨after, hafter, hcells⟩ := hstored gradInput
    rw [← hcells 0 hcell, ← hadded]
    rw [maxpool3dBp] at hafter
    cases hchecks : requireAll (maxpool3dBpConditions a input indices input) with
    | error message =>
        rw [hchecks] at hafter
        cases hafter
    | ok u =>
        rw [hchecks] at hafter
        exact congrFun (Except.ok.inj hafter) 0
  have hzero := (hfirst fun _ => 0).trans (hfirst fun _ => 1).symm
  exact zero_ne_one (add_right_cancel hzero)

/-- A backward pass that is refused composes with nothing. -/
theorem not_composes_of_refused [CommRing K] {a : MaxPool3DArguments}
    {input gradNext indices output : List Nat}
    (hrefused : requireAll (maxpool3dBpConditions a input indices output) ≠ .ok ())
    (indz : Int → IndexBytes) (gradOutput : Int → K) :
    ¬ Composes a input gradNext indices output indz gradOutput := by
  rintro ⟨stored, hstored⟩
  obtain ⟨after, hafter, -⟩ := hstored fun _ => 0
  rw [maxpool3dBp] at hafter
  cases hchecks : requireAll (maxpool3dBpConditions a input indices output) with
  | error message =>
      rw [hchecks] at hafter
      cases hafter
  | ok u => exact hrefused hchecks

/-- Two time steps in one window. -/
def twoStepPooling : MaxPool3DArguments :=
  ⟨2, 1, 1, 2, 1, 1, 0, 0, 0, 1, 1, 1, false⟩

/-- The passes do not always compose: the indices of two time steps in one window are refused. -/
theorem not_composes_always :
    ¬ ∀ (sizeOfT : Nat) (a : MaxPool3DArguments) (input output indices : List Nat),
      requireAll (maxpool3dConditions sizeOfT a input output indices) = .ok () →
        ∀ (indz : Int → IndexBytes) (gradOutput : Int → ℚ),
          Composes a input output indices input indz gradOutput := by
  intro h
  refine not_composes_of_refused ?_ _ _ (h 4 twoStepPooling [1, 1, 2, 1, 1] [1, 1, 1, 1, 1]
    [1, 1, 1, 1, 1] (by decide) (fun _ => (0, 0, 0)) fun _ => 1)
  decide

/-- One time step over a kernel of one. -/
def onePlacePooling : MaxPool3DArguments :=
  ⟨1, 1, 1, 1, 1, 1, 0, 0, 0, 1, 1, 1, false⟩

theorem maxpool3dBp_never_composes_onePlace :
    (∀ n ∈ [1, 1, 1, 1, 1], 0 < n) ∧
      requireAll (maxpool3dConditions 4 onePlacePooling [1, 1, 1, 1, 1] [1, 1, 1, 1, 1]
        [1, 1, 1, 1, 1]) = .ok () ∧
      ¬ Composes (K := ℚ) onePlacePooling [1, 1, 1, 1, 1] [1, 1, 1, 1, 1] [1, 1, 1, 1, 1]
        [1, 1, 1, 1, 1] (fun _ => (0, 0, 0)) (fun _ => 1) :=
  have hinput : ∀ n ∈ [1, 1, 1, 1, 1], 0 < n := by decide
  have haccepted : requireAll (maxpool3dConditions 4 onePlacePooling [1, 1, 1, 1, 1]
      [1, 1, 1, 1, 1] [1, 1, 1, 1, 1]) = .ok () := by decide
  ⟨hinput, haccepted, (maxpool3dBp_never_composes hinput haccepted).2 _ _⟩

end Convolutions
end LibND4J
