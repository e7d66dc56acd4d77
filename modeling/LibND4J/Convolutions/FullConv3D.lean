import LibND4J.Blas.Gemm
import LibND4J.Convolutions.MaxPool3D
import LibND4J.Convolutions.Vol2Col
import LibND4J.Shape.Examples

/-!
# Full convolutions of volumes

`fullconv3d` multiplies an item of the batch with the weights into a matrix of columns, adds
the columns up in the volume of the output, and adds the bias as a matrix product of rank one.  The
matrix products get the letters `n` and `t` as flags, neither of which is
`CblasTrans`, and their leading dimensions are not looked at: the item is read as a matrix
with a row for each row of the columns, and the weights by columns.

Main results:

- Theorem `fullconv3dLoop_apply`: what is stored for an item of the batch.
- Theorem `fullConv3DRight_iff`: the output is the adjoint of the cross-correlation exactly
  if the matrix of columns is square, and the input has one plane, the matrix one element or no
  window a place in the volume.
-/

namespace LibND4J
namespace Convolutions

open Accumulation Blas Ops Shape Stores
open Strided (mul_add_inj_int)

/-! ## The operation -/

/-- The integer arguments of `fullconv3d`. -/
structure FullConv3DArguments where
  dT : Int
  dW : Int
  dH : Int
  pT : Int
  pW : Int
  pH : Int
  dilationT : Int
  dilationW : Int
  dilationH : Int
  aT : Int
  aW : Int
  aH : Int
  biasUsed : Bool
deriving DecidableEq, Repr

/-- An extent of the output. -/
def fullExtent (input kernel : Nat) (d p dilation a : Int) : Int :=
  (input - 1) * d - 2 * p + (dilation * (kernel - 1) + 1) + a

namespace FullConv3DArguments

variable (a : FullConv3DArguments)

/-- The conditions on the arguments. -/
def conditions : List Condition :=
  [⟨a.dT > 0 ∧ a.dW > 0 ∧ a.dH > 0,
      "stride should be greater than zero, but got dT: %d dH: %d dW: %d"⟩,
    ⟨a.dilationT > 0 ∧ a.dilationW > 0 ∧ a.dilationH > 0,
      "dilation should be greater than zero, but got dilationT: %d, dilationH: %d, dilationW: %d"⟩,
    ⟨(a.aT < a.dT ∨ a.aT < a.dilationT) ∧ (a.aW < a.dW ∨ a.aW < a.dilationW) ∧
        (a.aH < a.dH ∨ a.aH < a.dilationH),
      "output padding must be smaller than either stride or dilation," ++
        " but got aT: %d aH: %d aW: %d dT: %d dH: %d dW: %d " ++
        "dilationT: %d dilationH: %d dilationW: %d"⟩]

def outputDepth (inputDepth kT : Nat) : Int :=
  fullExtent inputDepth kT a.dT a.pT a.dilationT a.aT

def outputHeight (inputHeight kH : Nat) : Int :=
  fullExtent inputHeight kH a.dH a.pH a.dilationH a.aH

def outputWidth (inputWidth kW : Nat) : Int :=
  fullExtent inputWidth kW a.dW a.pW a.dilationW a.aW

end FullConv3DArguments

/-- The conditions of `fullconv3d`, for the shapes of its input, the weights and its output. -/
def fullconv3dConditions (a : FullConv3DArguments) (input weights output : List Nat) :
    List Condition :=
  [⟨weights.length = 5, "Weights should be 5D, got %i instead"⟩,
    ⟨input.length = 5, "Input should be 5D, got %i instead"⟩] ++
  a.conditions ++
  [⟨output.map (fun n : Nat => (n : Int)) =
      [(sizeAt input 0 : Int), (sizeAt weights 1 : Int),
        a.outputDepth (sizeAt input 2) (sizeAt weights 2),
        a.outputHeight (sizeAt input 3) (sizeAt weights 3),
        a.outputWidth (sizeAt input 4) (sizeAt weights 4)],
    "Output should have shape of [%i, %i, %i, %i, %i], but got [%i, %i, %i, %i, %i] instead"⟩]

/-- The flag that `GEMM::op` makes of a letter: only 112 is `CblasTrans`. -/
def letterFlag (letter : Char) : TransposeFlag :=
  if letter.toNat = 112 then .trans else .noTrans

section Operation

variable {T : Type} [CommRing T] [DecidableEq T] (a : FullConv3DArguments)

/-- The axis that `_col2vol` is given. -/
def fullAxis (input kernel : Nat) (d p dilation outPad : Int) : Axis :=
  ⟨(fullExtent input kernel d p dilation outPad).toNat, kernel, p, d.toNat, dilation.toNat⟩

/-- The axis of the depths. -/
def FullConv3DArguments.axisT (input weights : List Nat) : Axis :=
  fullAxis (sizeAt input 2) (sizeAt weights 2) a.dT a.pT a.dilationT a.aT

/-- The axis of the heights. -/
def FullConv3DArguments.axisH (input weights : List Nat) : Axis :=
  fullAxis (sizeAt input 3) (sizeAt weights 3) a.dH a.pH a.dilationH a.aH

/-- The axis of the widths. -/
def FullConv3DArguments.axisW (input weights : List Nat) : Axis :=
  fullAxis (sizeAt input 4) (sizeAt weights 4) a.dW a.pW a.dilationW a.aW

/-- The iteration for an item, on `columns` and the output; `newA` and `newB` are the arrays that
the matrix products allocate. -/
def fullconv3dStep (input weights columns : List Nat) (tadIn tadOut : Int)
    (x w ones bias newA newB : Int → T) (s : (Int → T) × (Int → T)) : (Int → T) × (Int → T) :=
  let aT := a.axisT input weights
  let aH := a.axisH input weights
  let aW := a.axisW input weights
  let nOutputPlane := sizeAt weights 1
  let m := sizeAt weights 1 * sizeAt weights 2 * sizeAt weights 3 * sizeAt weights 4
  let n := sizeAt columns 1
  let k := sizeAt weights 0
  let dataCol := gemm (letterFlag 'n') (letterFlag 't') m n k 1 (fun i => x (tadIn + i)) w 0 s.1
    newA newB
  let dataVol := atPointer tadOut
    (col2vol nOutputPlane aT aH aW (sizeAt input 2) (sizeAt input 3) (sizeAt input 4) dataCol) s.2
  let m_ := nOutputPlane
  let n_ := aT.size * aH.size * aW.size
  if a.biasUsed then
    (dataCol, atPointer tadOut
      (fun r => gemm (letterFlag 't') (letterFlag 'n') n_ m_ 1 1 ones bias 1 r newA newB) dataVol)
  else
    (dataCol, dataVol)

/-- The loop over the batch. -/
def fullconv3dLoop (input weights columns output : ShapeInfo) (hinput : 2 ≤ input.rank)
    (houtput : 2 ≤ output.rank) (x w ones bias newA newB : Int → T) (s : (Int → T) × (Int → T)) :
    (Int → T) × (Int → T) :=
  let inputs := allExamples input hinput
  let outputs := allExamples output houtput
  (List.range (sizeAt input.shape 0)).foldl
    (fun s e => fullconv3dStep a input.shape weights.shape columns.shape (inputs.tadOffset e)
      (outputs.tadOffset e) x w ones bias newA newB s)
    s

/-- `fullconv3d`: the matrix of columns and the output after it. -/
def fullconv3d (input weights columns output : ShapeInfo) (hinput : 2 ≤ input.rank)
    (houtput : 2 ≤ output.rank) (x w ones bias newA newB : Int → T) (s : (Int → T) × (Int → T)) :
    Except String ((Int → T) × (Int → T)) :=
  requireAll (fullconv3dConditions a input.shape weights.shape output.shape) >>= fun _ =>
    .ok (fullconv3dLoop a input weights columns output hinput houtput x w ones bias newA newB s)

end Operation

/-! ## One item -/

theorem letterFlag_n : letterFlag 'n' = .noTrans := by decide

theorem letterFlag_t : letterFlag 't' = .noTrans := by decide

section Step

variable {T : Type} [CommRing T] [DecidableEq T]

/-- The cells of the matrix of columns: the item is read as a matrix with `m` rows, the weights by
columns. -/
theorem gemm_columns {m n k : Nat} (x w memory newA newB : Int → T) {r c : Nat} (hr : r < m)
    (hc : c < n) :
    gemm (letterFlag 'n') (letterFlag 't') m n k 1 x w 0 memory newA newB (c * m + r : Nat) =
      ((List.range k).map fun j : Nat => x (j * m + r : Nat) * w (c * k + j : Nat)).sum := by
  have happly := gemm_apply (letterFlag 'n') (letterFlag 't') k 1 x w 0 memory newA newB hr hc
  rw [letterFlag_n, letterFlag_t, linearIndexF, one_mul, zero_mul, add_zero] at happly
  rw [letterFlag_n, letterFlag_t, happly]
  rfl

/-- The product of rank one adds to every voxel of a plane its bias. -/
theorem gemm_bias {voxels planes : Nat} {ones : Int → T} (hones : ∀ i ∈ cells voxels, ones i = 1)
    (bias memory newA newB : Int → T) {v o : Nat} (hv : v < voxels) (ho : o < planes) :
    gemm (letterFlag 't') (letterFlag 'n') voxels planes 1 1 ones bias 1 memory newA newB
        (o * voxels + v : Nat) = memory (o * voxels + v : Nat) + bias o := by
  have happly := gemm_apply (letterFlag 't') (letterFlag 'n') 1 1 ones bias 1 memory newA newB hv ho
  have hone : ones v = 1 := hones v (mem_cells.mpr ⟨Int.natCast_nonneg v, by exact_mod_cast hv⟩)
  have hsum : Pairings.pairSum ones bias (fun k => ((cellA .noTrans voxels 1 v k : Int),
      (cellB .noTrans 1 planes k o : Int))) 1 = bias o := by
    rw [Pairings.pairSum, Finset.sum_range_one]
    simp [cellA, cellB, linearIndexF, hone]
  rw [letterFlag_n, letterFlag_t, linearIndexF] at happly
  rw [letterFlag_n, letterFlag_t, happly, hsum, one_mul, one_mul, add_comm]

/-- Outside of the planes nothing is added. -/
theorem gemm_bias_of_outside {voxels planes : Nat} (ones bias memory newA newB : Int → T) {i : Int}
    (hi : i ∉ cells (voxels * planes)) :
    gemm (letterFlag 't') (letterFlag 'n') voxels planes 1 1 ones bias 1 memory newA newB i =
      memory i := by
  rw [mem_cells] at hi
  exact gemm_apply_of_outside _ _ _ _ _ _ _ _ _ _ hi

end Step

/-! ## The loop -/

/-- The extents of the arrays of a call. -/
structure FullConv3DGeometry where
  batchSize : Nat
  nInputPlane : Nat
  nOutputPlane : Nat
  inputDepth : Nat
  inputHeight : Nat
  inputWidth : Nat
  kT : Nat
  kH : Nat
  kW : Nat
  outputDepth : Nat
  outputHeight : Nat
  outputWidth : Nat
  pos : ∀ n ∈ [batchSize, nInputPlane, nOutputPlane, inputDepth, inputHeight, inputWidth, kT, kH, kW,
    outputDepth, outputHeight, outputWidth], 0 < n

namespace FullConv3DGeometry

variable (g : FullConv3DGeometry)

/-- The shape of the input. -/
def input : List Nat :=
  [g.batchSize, g.nInputPlane, g.inputDepth, g.inputHeight, g.inputWidth]

/-- The shape of the weights. -/
def weights : List Nat :=
  [g.nInputPlane, g.nOutputPlane, g.kT, g.kH, g.kW]

/-- The shape of the output. -/
def output : List Nat :=
  [g.batchSize, g.nOutputPlane, g.outputDepth, g.outputHeight, g.outputWidth]

/-- The rows of the columns: a plane of the output and a place in the kernel. -/
def rows : Nat :=
  g.nOutputPlane * g.kT * g.kH * g.kW

/-- The voxels of a plane of the input. -/
def inputVolume : Nat :=
  g.inputDepth * (g.inputHeight * g.inputWidth)

/-- The voxels of a plane of the output. -/
def outputVolume : Nat :=
  g.outputDepth * g.outputHeight * g.outputWidth

/-- The shape of the columns. -/
def columns : List Nat :=
  [g.rows, g.inputVolume]

theorem two_le_rank (a b c d e : Nat) : 2 ≤ (shapeBuffer [a, b, c, d, e]).rank := by
  rw [ShapeInfo.rank, shape_shapeBuffer]
  exact Nat.le_add_left 2 3

/-- The conditions of the operation hold. -/
def Accepted (a : FullConv3DArguments) : Prop :=
  requireAll (fullconv3dConditions a g.input g.weights g.output) = .ok ()

instance (a : FullConv3DArguments) : Decidable (g.Accepted a) :=
  inferInstanceAs (Decidable (_ = _))

/-- The call for arrays of these extents. -/
def call {T : Type} [CommRing T] [DecidableEq T] (a : FullConv3DArguments)
    (x w ones bias newA newB : Int → T) (s : (Int → T) × (Int → T)) :
    Except String ((Int → T) × (Int → T)) :=
  fullconv3d a (shapeBuffer g.input) (shapeBuffer g.weights) (shapeBuffer g.columns)
    (shapeBuffer g.output) (two_le_rank _ _ _ _ _) (two_le_rank _ _ _ _ _) x w ones bias newA newB s

end FullConv3DGeometry

section Loop

variable {g : FullConv3DGeometry} {a : FullConv3DArguments}

variable (h : g.Accepted a)

include h

/-- What the conditions say. -/
theorem FullConv3DGeometry.Accepted.spec :
    ((0 < a.dT ∧ 0 < a.dW ∧ 0 < a.dH) ∧ 0 < a.dilationT ∧ 0 < a.dilationW ∧ 0 < a.dilationH) ∧
      (g.outputDepth : Int) = fullExtent g.inputDepth g.kT a.dT a.pT a.dilationT a.aT ∧
      (g.outputHeight : Int) = fullExtent g.inputHeight g.kH a.dH a.pH a.dilationH a.aH ∧
      (g.outputWidth : Int) = fullExtent g.inputWidth g.kW a.dW a.pW a.dilationW a.aW := by
  rw [FullConv3DGeometry.Accepted, requireAll_eq_ok_iff] at h
  simp only [fullconv3dConditions, FullConv3DArguments.conditions, List.forall_mem_append,
    List.forall_mem_cons, List.not_mem_nil, false_implies, implies_true, and_true,
    decide_eq_true_eq] at h
  obtain ⟨⟨-, hstride, hdilation, -⟩, houtput⟩ := h
  simp only [FullConv3DGeometry.output, List.map_cons, List.map_nil, List.cons.injEq, and_true]
    at houtput
  exact ⟨⟨hstride, hdilation⟩, houtput.2.2⟩

theorem FullConv3DGeometry.Accepted.size_axisT :
    (a.axisT g.input g.weights).size = g.outputDepth := by
  rw [← Int.toNat_natCast g.outputDepth, h.spec.2.1]
  rfl

theorem FullConv3DGeometry.Accepted.size_axisH :
    (a.axisH g.input g.weights).size = g.outputHeight := by
  rw [← Int.toNat_natCast g.outputHeight, h.spec.2.2.1]
  rfl

theorem FullConv3DGeometry.Accepted.size_axisW :
    (a.axisW g.input g.weights).size = g.outputWidth := by
  rw [← Int.toNat_natCast g.outputWidth, h.spec.2.2.2]
  rfl

omit h

variable {e : Nat} {i : Int}

/-- The elements of an item, and of one of its planes, in the input. -/
theorem tadOffset_input (he : e < g.batchSize) :
    (allExamples (shapeBuffer g.input) (FullConv3DGeometry.two_le_rank _ _ _ _ _)).tadOffset e =
      (e * (g.nInputPlane * g.inputVolume) : Nat) := by
  have hpos : ∀ n ∈ g.input, 0 < n := by
    intro n hn
    apply g.pos
    simp only [FullConv3DGeometry.input, List.mem_cons, List.not_mem_nil, or_false] at hn ⊢
    tauto
  have hvolume : [g.nInputPlane, g.inputDepth, g.inputHeight, g.inputWidth].prod =
      g.nInputPlane * g.inputVolume := by
    simp [FullConv3DGeometry.inputVolume]
  rw [← hvolume]
  exact tadOffset_shapeBuffer hpos (Nat.le_add_left 2 2) _ he

theorem tadOffset_output (he : e < g.batchSize) :
    (allExamples (shapeBuffer g.output) (FullConv3DGeometry.two_le_rank _ _ _ _ _)).tadOffset e =
      (e * (g.outputVolume * g.nOutputPlane) : Nat) := by
  have hpos : ∀ n ∈ g.output, 0 < n := by
    intro n hn
    apply g.pos
    simp only [FullConv3DGeometry.output, List.mem_cons, List.not_mem_nil, or_false] at hn ⊢
    tauto
  have hvolume : [g.nOutputPlane, g.outputDepth, g.outputHeight, g.outputWidth].prod =
      g.outputVolume * g.nOutputPlane := by
    simp [FullConv3DGeometry.outputVolume]
    ring
  rw [← hvolume]
  exact tadOffset_shapeBuffer hpos (Nat.le_add_left 2 2) _ he

variable {T : Type} [CommRing T] [DecidableEq T]

/-- A cell of the matrix of columns for an item. -/
def columnCell (m k : Nat) (item w : Int → T) (q : Nat) : T :=
  ((List.range k).map fun j : Nat => item (j * m + q % m : Nat) * w (q / m * k + j : Nat)).sum

/-- The item of the batch. -/
def FullConv3DGeometry.item (g : FullConv3DGeometry) (e : Nat) (x : Int → T) (i : Int) : T :=
  x ((e * (g.nInputPlane * g.inputVolume) : Nat) + i)

/-- What is stored for an item. -/
def storedValue (g : FullConv3DGeometry) (a : FullConv3DArguments) (x w bias : Int → T) (e : Nat)
    (i : Int) : T :=
  col2vol g.nOutputPlane (a.axisT g.input g.weights) (a.axisH g.input g.weights)
      (a.axisW g.input g.weights) g.inputDepth g.inputHeight g.inputWidth
      (fun q => columnCell g.rows g.nInputPlane (g.item e x) w q.toNat) (fun _ => 0) i +
    if a.biasUsed then bias (i / g.outputVolume) else 0

/-- The iteration for an item. -/
theorem fullconv3dStep_snd (x w ones bias newA newB : Int → T) (tadIn tadOut : Int)
    (s : (Int → T) × (Int → T)) :
    (fullconv3dStep a g.input g.weights g.columns tadIn tadOut x w ones bias newA newB s).2 =
      let volume := atPointer tadOut (col2vol g.nOutputPlane (a.axisT g.input g.weights)
        (a.axisH g.input g.weights) (a.axisW g.input g.weights) g.inputDepth g.inputHeight
        g.inputWidth (gemm (letterFlag 'n') (letterFlag 't') g.rows g.inputVolume g.nInputPlane 1
          (fun i => x (tadIn + i)) w 0 s.1 newA newB)) s.2
      if a.biasUsed then
        atPointer tadOut (fun r => gemm (letterFlag 't') (letterFlag 'n')
          ((a.axisT g.input g.weights).size * (a.axisH g.input g.weights).size *
            (a.axisW g.input g.weights).size) g.nOutputPlane 1 1 ones bias 1 r newA newB) volume
      else volume := by
  rw [fullconv3dStep]
  split
  · rfl
  · rfl

/-- What the iteration leaves in its item. -/
theorem fullconv3dStep_apply (h : g.Accepted a) {ones : Int → T}
    (hones : ∀ i ∈ cells g.outputVolume, ones i = 1) (x w bias newA newB : Int → T) (e : Nat)
    (tadOut : Int) (s : (Int → T) × (Int → T)) (hi : i ∈ cells (g.outputVolume * g.nOutputPlane)) :
    (fullconv3dStep a g.input g.weights g.columns (e * (g.nInputPlane * g.inputVolume) : Nat)
        tadOut x w ones bias newA newB s).2 (tadOut + i) = storedValue g a x w bias e i := by
  have hvolume : (a.axisT g.input g.weights).size * (a.axisH g.input g.weights).size *
      (a.axisW g.input g.weights).size = g.outputVolume := by
    rw [h.size_axisT, h.size_axisH, h.size_axisW]
    rfl
  have hcolumns : ∀ q < channelsCol g.nOutputPlane (a.axisT g.input g.weights)
      (a.axisH g.input g.weights) (a.axisW g.input g.weights) *
        (g.inputDepth * (g.inputHeight * g.inputWidth)),
      gemm (letterFlag 'n') (letterFlag 't') g.rows g.inputVolume g.nInputPlane 1
        (fun i => x ((e * (g.nInputPlane * g.inputVolume) : Nat) + i)) w 0 s.1 newA newB (q : Nat) =
      columnCell g.rows g.nInputPlane (g.item e x) w (q : Int).toNat := by
    intro q hq
    have hq : q < g.rows * g.inputVolume := hq
    have hrows : 0 < g.rows := Nat.pos_of_mul_pos_right (Nat.zero_lt_of_lt hq)
    have hcell := gemm_columns (k := g.nInputPlane) (g.item e x) w s.1 newA newB
      (Nat.mod_lt q hrows) (Nat.div_lt_of_lt_mul hq)
    rw [Nat.div_add_mod'] at hcell
    rw [Int.toNat_natCast]
    exact hcell
  rw [fullconv3dStep_snd, storedValue]
  simp only [hvolume]
  rw [← hvolume] at hi
  cases hbias : a.biasUsed with
  | false =>
      rw [if_neg Bool.false_ne_true, if_neg Bool.false_ne_true, add_zero, atPointer_apply]
      exact col2vol_congr _ _ _ _ _ _ _ _ _ _ hcolumns hi
  | true =>
      obtain ⟨hnonneg, hlt⟩ := mem_cells.mp (hvolume ▸ hi)
      obtain ⟨q, rfl⟩ := Int.eq_ofNat_of_zero_le hnonneg
      obtain ⟨v, hv, o, ho, hq⟩ := exists_linearIndexF (Int.ofNat_lt.mp hlt)
      rw [linearIndexF] at hq
      have hplane : ((q : Int) / g.outputVolume) = o := by
        rw [← Int.natCast_ediv, hq, mul_add_div_of_lt hv]
      rw [if_pos rfl, if_pos rfl, atPointer_apply, hplane, hq, gemm_bias hones _ _ _ _ hv ho,
        ← hq, atPointer_apply]
      congr 1
      exact col2vol_congr _ _ _ _ _ _ _ _ _ _ hcolumns hi

/-- The iteration leaves all other items as they are. -/
theorem fullconv3dStep_of_outside (h : g.Accepted a) (x w ones bias newA newB : Int → T)
    (tadIn tadOut : Int) (s : (Int → T) × (Int → T))
    (hi : i ∉ cells (g.outputVolume * g.nOutputPlane)) :
    (fullconv3dStep a g.input g.weights g.columns tadIn tadOut x w ones bias newA newB s).2
        (tadOut + i) = s.2 (tadOut + i) := by
  have hvolume : (a.axisT g.input g.weights).size * (a.axisH g.input g.weights).size *
      (a.axisW g.input g.weights).size = g.outputVolume := by
    rw [h.size_axisT, h.size_axisH, h.size_axisW]
    rfl
  rw [← hvolume] at hi
  rw [fullconv3dStep_snd]
  simp only
  split
  · rw [atPointer_apply, gemm_bias_of_outside _ _ _ _ _ hi, atPointer_apply,
      col2vol_of_outside _ _ _ _ _ _ _ _ _ hi]
  · rw [atPointer_apply, col2vol_of_outside _ _ _ _ _ _ _ _ _ hi]

/-- What is stored for an item of the batch. -/
theorem fullconv3dLoop_apply (h : g.Accepted a) {ones : Int → T}
    (hones : ∀ i ∈ cells g.outputVolume, ones i = 1) (x w bias newA newB : Int → T)
    (s : (Int → T) × (Int → T)) (he : e < g.batchSize)
    (hi : i ∈ cells (g.outputVolume * g.nOutputPlane)) :
    (fullconv3dLoop a (shapeBuffer g.input) (shapeBuffer g.weights) (shapeBuffer g.columns)
        (shapeBuffer g.output) (FullConv3DGeometry.two_le_rank _ _ _ _ _)
        (FullConv3DGeometry.two_le_rank _ _ _ _ _) x w ones bias newA newB s).2
      ((e * (g.outputVolume * g.nOutputPlane) : Nat) + i) = storedValue g a x w bias e i := by
  set length := g.outputVolume * g.nOutputPlane with hlength
  have hcells : ∀ k : Nat, ∀ j : Int,
      j ∈ cellsFrom (k * length : Nat) length ↔ j - (k * length : Nat) ∈ cells length := by
    intro k j
    rw [mem_cellsFrom, mem_cells]
    omega
  have hslice : ((e * length : Nat) : Int) + i ∈ cellsFrom (e * length : Nat) length := by
    rwa [hcells, add_sub_cancel_left]
  have hfill : ∀ k < g.batchSize, ∀ s : (Int → T) × (Int → T),
      ∀ j ∈ cellsFrom (k * length : Nat) length,
      (fullconv3dStep a g.input g.weights g.columns
          ((allExamples (shapeBuffer g.input) (FullConv3DGeometry.two_le_rank _ _ _ _ _)).tadOffset k)
          ((allExamples (shapeBuffer g.output)
            (FullConv3DGeometry.two_le_rank _ _ _ _ _)).tadOffset k)
          x w ones bias newA newB s).2 j =
        storedValue g a x w bias k (j - (k * length : Nat)) := by
    intro k hk s j hj
    have hsplit : j = (k * length : Nat) + (j - (k * length : Nat)) := by omega
    have hstep := fullconv3dStep_apply h hones x w bias newA newB k (k * length : Nat) s
      ((hcells k j).mp hj)
    rw [← hsplit] at hstep
    rw [tadOffset_input hk, tadOffset_output hk]
    exact hstep
  have hframe : ∀ k < g.batchSize, ∀ (s : (Int → T) × (Int → T)) (j : Int),
      j ∉ cellsFrom (k * length : Nat) length →
      (fullconv3dStep a g.input g.weights g.columns
          ((allExamples (shapeBuffer g.input) (FullConv3DGeometry.two_le_rank _ _ _ _ _)).tadOffset k)
          ((allExamples (shapeBuffer g.output)
            (FullConv3DGeometry.two_le_rank _ _ _ _ _)).tadOffset k)
          x w ones bias newA newB s).2 j = s.2 j := by
    intro k hk s j hj
    have hsplit : j = (k * length : Nat) + (j - (k * length : Nat)) := by omega
    have hstep := fullconv3dStep_of_outside h x w ones bias newA newB
      (k * (g.nInputPlane * g.inputVolume) : Nat) (k * length : Nat) s
      (fun hmem => hj ((hcells k j).mpr hmem))
    rw [← hsplit] at hstep
    rw [tadOffset_input hk, tadOffset_output hk]
    exact hstep
  have hrun := foldl_slices_apply hfill hframe he s hslice
  rw [add_sub_cancel_left] at hrun
  unfold fullconv3dLoop
  simp only [shape_shapeBuffer]
  exact hrun

end Loop

/-! ## The cross-correlation -/

/-- A place in the kernel, with the plane of the volume. -/
abbrev KernelTap := Nat × Nat × Nat × Nat

section CrossCorrelation

variable (channels : Nat) (aT aH aW : Axis)

/-- The taps of a window. -/
def kernelTaps : List KernelTap :=
  List.range channels ×ˢ List.range aT.kernel ×ˢ List.range aH.kernel ×ˢ List.range aW.kernel

/-- The place of a tap in the weights of a plane. -/
def tapIndex (p : KernelTap) : Nat :=
  ((p.1 * aT.kernel + p.2.1) * aH.kernel + p.2.2.1) * aW.kernel + p.2.2.2

/-- The windows, one for each voxel of the input. -/
def volumeWindows (depth height width : Nat) : List (Nat × Nat × Nat) :=
  List.range depth ×ˢ List.range height ×ˢ List.range width

/-- The place of a window in a plane of the input. -/
def windowIndex (height width : Nat) (v : Nat × Nat × Nat) : Nat :=
  (v.1 * height + v.2.1) * width + v.2.2

variable {T : Type} [CommRing T]

/-- The volume with zeros around it. -/
def voxelAt (vol : Int → T) (o : Nat) (z y x : Int) : T :=
  if 0 ≤ z ∧ z < aT.size ∧ 0 ≤ y ∧ y < aH.size ∧ 0 ≤ x ∧ x < aW.size then
    vol (((o * aT.size + z) * aH.size + y) * aW.size + x)
  else 0

/-- The strided, padded and dilated cross-correlation of a volume with the weights of a plane of
the input, at a window. -/
def crossCorrelation (w vol : Int → T) (i : Nat) (v : Nat × Nat × Nat) : T :=
  ((kernelTaps channels aT aH aW).map fun p =>
    w (i * channelsCol channels aT aH aW + tapIndex aT aH aW p : Nat) *
      voxelAt aT aH aW vol p.1 (aT.pad v.1 p.2.1) (aH.pad v.2.1 p.2.2.1)
        (aW.pad v.2.2 p.2.2.2)).sum

theorem map_tapIndex :
    (kernelTaps channels aT aH aW).map (tapIndex aT aH aW) =
      List.range (channelsCol channels aT aH aW) := by
  have hnest := map_product_range (map_product_range (map_product_range
    (map_range_id aW.kernel) aH.kernel) aT.kernel) channels
  have hrows : channels * (aT.kernel * (aH.kernel * aW.kernel)) = channelsCol channels aT aH aW := by
    rw [channelsCol]
    ring
  rw [← hrows, ← hnest, kernelTaps]
  refine List.map_congr_left fun p _ => ?_
  rw [tapIndex]
  ring

/-- A step decodes its row to a tap. -/
theorem step_of_tap {p : KernelTap} (hp : p ∈ kernelTaps channels aT aH aW) (v : Nat × Nat × Nat) :
    volChannel aT aH aW (tapIndex aT aH aW p, v) = p.1 ∧
      volPlace aT aH aW (tapIndex aT aH aW p, v) =
        (aT.pad v.1 p.2.1, aH.pad v.2.1 p.2.2.1, aW.pad v.2.2 p.2.2.2) := by
  obtain ⟨o, z, y, x⟩ := p
  simp only [kernelTaps, List.mem_product, List.mem_range] at hp
  obtain ⟨-, hz, hy, hx⟩ := hp
  have hW := mul_add_div_of_lt (q := (o * aT.kernel + z) * aH.kernel + y) hx
  have hH := mul_add_div_of_lt (q := o * aT.kernel + z) hy
  have hturn : aT.kernel * (aH.kernel * aW.kernel) = aW.kernel * (aH.kernel * aT.kernel) := by ring
  constructor
  · simp only [volChannel, tapIndex]
    rw [Nat.div_div_eq_div_mul, Nat.div_div_eq_div_mul, hturn, ← Nat.div_div_eq_div_mul, hW,
      ← Nat.div_div_eq_div_mul, hH, mul_add_div_of_lt hz]
  · simp only [volPlace, tapIndex, hW, hH, mul_add_mod_of_lt hz, mul_add_mod_of_lt hy,
      mul_add_mod_of_lt hx]

/-- The taps of a cross-correlation are the rows of the matrix. -/
theorem crossCorrelation_eq (w vol : Int → T) (i : Nat) (v : Nat × Nat × Nat) :
    crossCorrelation channels aT aH aW w vol i v =
      ((List.range (channelsCol channels aT aH aW)).map fun c =>
        w (i * channelsCol channels aT aH aW + c : Nat) *
          if inVolume aT aH aW (c, v) then vol (volIndex aT aH aW (c, v)) else 0).sum := by
  rw [← map_tapIndex, List.map_map, crossCorrelation]
  refine congrArg List.sum (List.map_congr_left fun p hp => ?_)
  obtain ⟨hchannel, hplace⟩ := step_of_tap channels aT aH aW hp v
  simp only [Function.comp_apply, inVolume, volIndex, hchannel, hplace, voxelAt, decide_eq_true_eq,
    ge_iff_le]

/-- Two offsets in the kernel at one place of an axis. -/
theorem Axis.pad_inj {b : Axis} (hdilation : 0 < b.dilation) {i k k' : Nat}
    (h : b.pad i k = b.pad i k') : k = k' := by
  simp only [Axis.pad] at h
  have hmul : (k : Int) * b.dilation = k' * b.dilation := by omega
  exact_mod_cast Int.eq_of_mul_eq_mul_right (Int.natCast_ne_zero.mpr hdilation.ne') hmul

variable {channels aT aH aW}

/-- The rows that add the same window to one cell are the same. -/
theorem row_eq_of_volIndex (hT : 0 < aT.dilation) (hH : 0 < aH.dilation) (hW : 0 < aW.dilation)
    {c c' : Nat} (hc : c < channelsCol channels aT aH aW) (hc' : c' < channelsCol channels aT aH aW)
    {v : Nat × Nat × Nat} (hinside : inVolume aT aH aW (c, v) = true)
    (hinside' : inVolume aT aH aW (c', v) = true)
    (h : volIndex aT aH aW (c, v) = volIndex aT aH aW (c', v)) : c = c' := by
  have htap : ∀ r < channelsCol channels aT aH aW,
      ∃ p ∈ kernelTaps channels aT aH aW, tapIndex aT aH aW p = r := by
    intro r hr
    rw [← List.mem_range, ← map_tapIndex] at hr
    exact List.mem_map.mp hr
  obtain ⟨p, hp, rfl⟩ := htap c hc
  obtain ⟨p', hp', rfl⟩ := htap c' hc'
  obtain ⟨hchannel, hplace⟩ := step_of_tap channels aT aH aW hp v
  obtain ⟨hchannel', hplace'⟩ := step_of_tap channels aT aH aW hp' v
  simp only [inVolume, hplace, hplace', decide_eq_true_eq] at hinside hinside'
  simp only [volIndex, hchannel, hchannel', hplace, hplace'] at h
  obtain ⟨ht, htlt, hh, hhlt, hw, hwlt⟩ := hinside
  obtain ⟨ht', htlt', hh', hhlt', hw', hwlt'⟩ := hinside'
  have hx := mul_add_inj_int hw hwlt hw' hwlt' h
  have hy := mul_add_inj_int hh hhlt hh' hhlt' hx.1
  have hz := mul_add_inj_int ht htlt ht' htlt' hy.1
  have hsame : p = p' := Prod.ext (by exact_mod_cast hz.1) (Prod.ext (Axis.pad_inj hT hz.2)
    (Prod.ext (Axis.pad_inj hH hy.2) (Axis.pad_inj hW hx.2)))
  rw [hsame]

end CrossCorrelation

/-! ## When the output is right -/

section Spec

variable (T : Type) [CommRing T] [DecidableEq T] (g : FullConv3DGeometry) (a : FullConv3DArguments)

/-- The inner product of the cross-correlation of a volume with an item. -/
def correlated {T : Type} [CommRing T] (g : FullConv3DGeometry) (a : FullConv3DArguments)
    (w vol item : Int → T) : T :=
  ((List.range g.nInputPlane ×ˢ
    volumeWindows g.inputDepth g.inputHeight g.inputWidth).map fun p =>
      crossCorrelation g.nOutputPlane (a.axisT g.input g.weights) (a.axisH g.input g.weights)
        (a.axisW g.input g.weights) w vol p.1 p.2 *
        item (p.1 * g.inputVolume + windowIndex g.inputHeight g.inputWidth p.2 : Nat)).sum

/-- The operation reads inside the input and the weights, and what it stores for an item is, but
for the bias, the adjoint of the cross-correlation at the item. -/
structure FullConv3DRight : Prop where
  reads_input : ∀ e < g.batchSize, ∀ r < g.rows, ∀ k < g.nInputPlane,
    (allExamples (shapeBuffer g.input) (FullConv3DGeometry.two_le_rank _ _ _ _ _)).tadOffset e +
      cellA (letterFlag 'n') g.rows g.nInputPlane r k ∈ cells g.input.prod
  reads_weights : ∀ k < g.nInputPlane, ∀ c < g.inputVolume,
    (cellB (letterFlag 't') g.nInputPlane g.inputVolume k c : Int) ∈ cells g.weights.prod
  adjoint : ∀ (x w ones bias newA newB : Int → T) (s : (Int → T) × (Int → T)),
    (∀ i ∈ cells g.outputVolume, ones i = 1) →
    ∃ after : (Int → T) × (Int → T), g.call a x w ones bias newA newB s = .ok after ∧
      ∀ e < g.batchSize, ∀ vol : Int → T,
        correlated g a w vol (g.item e x) =
          innerProduct (cells (g.outputVolume * g.nOutputPlane)) vol fun i =>
            after.2 ((e * (g.outputVolume * g.nOutputPlane) : Nat) + i) -
              if a.biasUsed then bias (i / g.outputVolume) else 0

/-- The steps of `_col2vol` inside the volume. -/
def insideSteps : List Step :=
  (steps g.nOutputPlane (a.axisT g.input g.weights) (a.axisH g.input g.weights)
    (a.axisW g.input g.weights) g.inputDepth g.inputHeight g.inputWidth).filter
      (inVolume (a.axisT g.input g.weights) (a.axisH g.input g.weights)
        (a.axisW g.input g.weights))

/-- The cell of the output that a step adds to. -/
def addedCell (s : Step) : Int :=
  volIndex (a.axisT g.input g.weights) (a.axisH g.input g.weights) (a.axisW g.input g.weights) s

/-- What a step should add. -/
def wanted {T : Type} [CommRing T] (g : FullConv3DGeometry) (item w : Int → T) (s : Step) : T :=
  ((List.range g.nInputPlane).map fun k : Nat =>
    item (k * g.inputVolume + windowIndex g.inputHeight g.inputWidth s.2 : Nat) *
      w (k * g.rows + s.1 : Nat)).sum

/-- What a step adds. -/
def produced {T : Type} [CommRing T] (g : FullConv3DGeometry) (item w : Int → T) (s : Step) : T :=
  columnCell g.rows g.nInputPlane item w (colIndex g.inputDepth g.inputHeight g.inputWidth s)

end Spec

section Adjoint

variable {T : Type} [CommRing T] {g : FullConv3DGeometry} {a : FullConv3DArguments} {s : Step}

theorem windowIndex_lt (hs : s ∈ insideSteps g a) :
    windowIndex g.inputHeight g.inputWidth s.2 < g.inputVolume := by
  obtain ⟨-, ht, hh, hw⟩ := mem_steps.mp (List.mem_of_mem_filter hs)
  rw [windowIndex, FullConv3DGeometry.inputVolume, ← mul_assoc]
  exact mul_add_lt (mul_add_lt ht hh) hw

/-- The inner product with the cross-correlation, over the steps inside the volume. -/
theorem correlated_eq (w vol item : Int → T) :
    correlated g a w vol item =
      ((insideSteps g a).map fun s => wanted g item w s * vol (addedCell g a s)).sum := by
  have hsteps : steps g.nOutputPlane (a.axisT g.input g.weights) (a.axisH g.input g.weights)
      (a.axisW g.input g.weights) g.inputDepth g.inputHeight g.inputWidth =
      List.range g.rows ×ˢ volumeWindows g.inputDepth g.inputHeight g.inputWidth := rfl
  have hrows : channelsCol g.nOutputPlane (a.axisT g.input g.weights) (a.axisH g.input g.weights)
      (a.axisW g.input g.weights) = g.rows := rfl
  rw [correlated, insideSteps, sum_map_filter, hsteps, sum_product, sum_product]
  simp only [crossCorrelation_eq, hrows, ← List.sum_map_mul_right]
  -- the plane of the input comes last, the tap first
  have hswap : ∀ i : Nat, ((volumeWindows g.inputDepth g.inputHeight g.inputWidth).map fun v =>
      ((List.range g.rows).map fun c =>
        w (i * g.rows + c : Nat) * (if inVolume (a.axisT g.input g.weights)
          (a.axisH g.input g.weights) (a.axisW g.input g.weights) (c, v) then
            vol (volIndex (a.axisT g.input g.weights) (a.axisH g.input g.weights)
              (a.axisW g.input g.weights) (c, v)) else 0) *
          item (i * g.inputVolume + windowIndex g.inputHeight g.inputWidth v : Nat)).sum).sum =
      ((List.range g.rows).map fun c =>
        ((volumeWindows g.inputDepth g.inputHeight g.inputWidth).map fun v =>
          w (i * g.rows + c : Nat) * (if inVolume (a.axisT g.input g.weights)
          (a.axisH g.input g.weights) (a.axisW g.input g.weights) (c, v) then
            vol (volIndex (a.axisT g.input g.weights) (a.axisH g.input g.weights)
              (a.axisW g.input g.weights) (c, v)) else 0) *
          item (i * g.inputVolume + windowIndex g.inputHeight g.inputWidth v : Nat)).sum).sum :=
    fun i => sum_map_comm _ _ _
  simp only [hswap]
  rw [sum_map_comm]
  refine congrArg List.sum (List.map_congr_left fun c _ => ?_)
  rw [sum_map_comm]
  refine congrArg List.sum (List.map_congr_left fun v _ => ?_)
  split
  · rw [wanted, ← List.sum_map_mul_right]
    refine congrArg List.sum (List.map_congr_left fun i _ => ?_)
    rw [addedCell]
    ring
  · simp

/-- The inner product with what is stored for an item, but for the bias. -/
theorem innerProduct_stored (h : g.Accepted a) (x w bias vol : Int → T) (e : Nat) :
    innerProduct (cells (g.outputVolume * g.nOutputPlane)) vol (fun i =>
        storedValue g a x w bias e i - if a.biasUsed then bias (i / g.outputVolume) else 0) =
      ((insideSteps g a).map fun s =>
        produced g (g.item e x) w s * vol (addedCell g a s)).sum := by
  have hvolume : (a.axisT g.input g.weights).size * (a.axisH g.input g.weights).size *
      (a.axisW g.input g.weights).size = g.outputVolume := by
    rw [h.size_axisT, h.size_axisH, h.size_axisW]
    rfl
  simp only [storedValue, add_sub_cancel_right]
  rw [innerProduct_comm, ← hvolume]
  exact innerProduct_col2vol _ _ _ _ _ _ _ _ _ _

/-- In a square matrix the cell of a step is in the row of its window. -/
theorem produced_of_square (hsquare : g.rows = g.inputVolume) (hs : s ∈ insideSteps g a)
    (item w : Int → T) :
    produced g item w s = ((List.range g.nInputPlane).map fun j : Nat =>
      item (j * g.rows + windowIndex g.inputHeight g.inputWidth s.2 : Nat) *
        w (s.1 * g.nInputPlane + j : Nat)).sum := by
  have hwindow := windowIndex_lt hs
  rw [← hsquare] at hwindow
  have hcell : colIndex g.inputDepth g.inputHeight g.inputWidth s =
      s.1 * g.rows + windowIndex g.inputHeight g.inputWidth s.2 := by
    rw [hsquare, colIndex, windowIndex, FullConv3DGeometry.inputVolume]
    ring
  rw [produced, columnCell, hcell, mul_add_div_of_lt hwindow, mul_add_mod_of_lt hwindow]

/-- With one plane or one element the two readings are the same. -/
theorem produced_eq_wanted (hsquare : g.rows = g.inputVolume)
    (hone : g.nInputPlane = 1 ∨ g.rows = 1) (hs : s ∈ insideSteps g a) (item w : Int → T) :
    produced g item w s = wanted g item w s := by
  have hrow : s.1 < g.rows := (mem_steps.mp (List.mem_of_mem_filter hs)).1
  rw [produced_of_square hsquare hs, wanted, ← hsquare]
  refine congrArg List.sum (List.map_congr_left fun k hk => ?_)
  have hk := List.mem_range.mp hk
  rcases hone with hplane | helement
  · rw [hplane] at hk ⊢
    rw [Nat.lt_one_iff.mp hk]
    simp
  · rw [helement] at hrow ⊢
    rw [Nat.lt_one_iff.mp hrow]
    simp

/-- The steps at one window that add to one cell are the same. -/
theorem FullConv3DGeometry.Accepted.step_eq (h : g.Accepted a) {s' : Step}
    (hs : s ∈ insideSteps g a) (hs' : s' ∈ insideSteps g a)
    (hwindow : windowIndex g.inputHeight g.inputWidth s.2 =
      windowIndex g.inputHeight g.inputWidth s'.2) (hcell : addedCell g a s = addedCell g a s') :
    s = s' := by
  obtain ⟨hmem, hinside⟩ := List.mem_filter.mp hs
  obtain ⟨hmem', hinside'⟩ := List.mem_filter.mp hs'
  obtain ⟨hrow, ht, hh, hw⟩ := mem_steps.mp hmem
  obtain ⟨hrow', ht', hh', hw'⟩ := mem_steps.mp hmem'
  obtain ⟨c, t, y, x⟩ := s
  obtain ⟨c', t', y', x'⟩ := s'
  obtain ⟨houter, hx⟩ := Strided.mul_add_inj hw hw' hwindow
  obtain ⟨ht, hy⟩ := Strided.mul_add_inj hh hh' houter
  simp only at ht hy hx
  subst ht hy hx
  obtain ⟨hT, hW, hH⟩ := h.spec.1.2
  have hdT : 0 < (a.axisT g.input g.weights).dilation := Int.lt_toNat.mpr hT
  have hdH : 0 < (a.axisH g.input g.weights).dilation := Int.lt_toNat.mpr hH
  have hdW : 0 < (a.axisW g.input g.weights).dilation := Int.lt_toNat.mpr hW
  exact Prod.ext (row_eq_of_volIndex hdT hdH hdW hrow hrow' hinside hinside' hcell) rfl

theorem nodup_insideSteps (g : FullConv3DGeometry) (a : FullConv3DArguments) :
    (insideSteps g a).Nodup :=
  (List.nodup_range.product (List.nodup_range.product
    (List.nodup_range.product List.nodup_range))).filter _

/-- The sum over the planes of an item with a single element. -/
theorem sum_single_item {m planes k v v' : Nat} (hk : k < planes) (hv : v < m) (hv' : v' < m)
    (f : Nat → T) :
    ((List.range planes).map fun j : Nat =>
        (Pi.single ((k * m + v : Nat) : Int) 1 : Int → T) (j * m + v' : Nat) * f j).sum =
      if v' = v then f k else 0 := by
  have hne : ∀ j : Nat, ¬ (j = k ∧ v' = v) →
      (Pi.single ((k * m + v : Nat) : Int) 1 : Int → T) (j * m + v' : Nat) = 0 := by
    intro j hj
    refine Pi.single_eq_of_ne (fun heq => hj ?_) 1
    exact Strided.mul_add_inj hv' hv (Int.ofNat.inj heq)
  rw [sum_map_single List.nodup_range (List.mem_range.mpr hk) fun j _ hj => by
    rw [hne j (fun h => hj h.1), zero_mul]]
  by_cases hsame : v' = v
  · rw [if_pos hsame, hsame, Pi.single_eq_same, one_mul]
  · rw [if_neg hsame, hne k (fun h => hsame h.2), zero_mul]

/-- If the steps of a square matrix add what they should, the input has one plane or the matrix
one element. -/
theorem one_of_sums_eq [Nontrivial T] (h : g.Accepted a) (hsquare : g.rows = g.inputVolume)
    (hsums : ∀ item w vol : Int → T,
      ((insideSteps g a).map fun s => wanted g item w s * vol (addedCell g a s)).sum =
        ((insideSteps g a).map fun s => produced g item w s * vol (addedCell g a s)).sum)
    (hs : s ∈ insideSteps g a) : g.nInputPlane = 1 ∨ g.rows = 1 := by
  have hwindow := windowIndex_lt hs
  rw [← hsquare] at hwindow
  -- an item and weights with one element, and a volume with one voxel
  have hindex : ∀ k < g.nInputPlane,
      s.1 * g.nInputPlane + k = k * g.rows + s.1 := by
    intro k hk
    by_contra hne
    have hterms := hsums (Pi.single (k * g.rows + windowIndex g.inputHeight g.inputWidth s.2 : Nat) 1)
      (Pi.single (k * g.rows + s.1 : Nat) 1) (Pi.single (addedCell g a s) 1)
    have hwanted : ∀ u ∈ insideSteps g a,
        wanted g (Pi.single (k * g.rows + windowIndex g.inputHeight g.inputWidth s.2 : Nat) (1 : T))
            (Pi.single (k * g.rows + s.1 : Nat) 1) u =
          if windowIndex g.inputHeight g.inputWidth u.2 = windowIndex g.inputHeight g.inputWidth s.2
            then (Pi.single ((k * g.rows + s.1 : Nat) : Int) 1 : Int → T) (k * g.rows + u.1 : Nat)
            else 0 := by
      intro u hu
      have hu := windowIndex_lt hu
      rw [← hsquare] at hu
      rw [wanted, ← hsquare]
      exact sum_single_item hk hwindow hu fun j =>
        (Pi.single ((k * g.rows + s.1 : Nat) : Int) 1 : Int → T) (j * g.rows + u.1 : Nat)
    have hproduced : ∀ u ∈ insideSteps g a,
        produced g (Pi.single (k * g.rows + windowIndex g.inputHeight g.inputWidth s.2 : Nat) (1 : T))
            (Pi.single (k * g.rows + s.1 : Nat) 1) u =
          if windowIndex g.inputHeight g.inputWidth u.2 = windowIndex g.inputHeight g.inputWidth s.2
            then (Pi.single ((k * g.rows + s.1 : Nat) : Int) 1 : Int → T)
              (u.1 * g.nInputPlane + k : Nat)
            else 0 := by
      intro u hu
      rw [produced_of_square hsquare hu]
      have hu := windowIndex_lt hu
      rw [← hsquare] at hu
      exact sum_single_item hk hwindow hu fun j =>
        (Pi.single ((k * g.rows + s.1 : Nat) : Int) 1 : Int → T) (u.1 * g.nInputPlane + j : Nat)
    -- only the step itself is left
    have hother : ∀ u ∈ insideSteps g a, u ≠ s →
        windowIndex g.inputHeight g.inputWidth u.2 = windowIndex g.inputHeight g.inputWidth s.2 →
        (Pi.single (addedCell g a s) 1 : Int → T) (addedCell g a u) = 0 := by
      intro u hu hus hsame
      exact Pi.single_eq_of_ne (fun hcell => hus (h.step_eq hu hs hsame hcell)) 1
    rw [sum_map_single (nodup_insideSteps g a) hs fun u hu hus => ?_,
      sum_map_single (nodup_insideSteps g a) hs fun u hu hus => ?_, hwanted s hs, hproduced s hs,
      if_pos rfl, if_pos rfl, Pi.single_eq_same, Pi.single_eq_same,
      Pi.single_eq_of_ne (fun heq => hne (Nat.cast_injective heq))] at hterms
    · simp at hterms
    · rw [hproduced u hu]
      split
      · rename_i hsame
        rw [hother u hu hus hsame, mul_zero]
      · exact zero_mul _
    · rw [hwanted u hu]
      split
      · rename_i hsame
        rw [hother u hu hus hsame, mul_zero]
      · exact zero_mul _
  have hplanes : 0 < g.nInputPlane := g.pos _ (by simp)
  by_contra hnot
  obtain ⟨hplane, helement⟩ := not_or.mp hnot
  have hzero := hindex 0 hplanes
  have hone := hindex 1 (by omega)
  rw [zero_mul, zero_add, add_zero] at hzero
  have hfirst : s.1 = 0 := by
    by_contra hne
    have hlt : s.1 * 1 < s.1 * g.nInputPlane := Nat.mul_lt_mul_of_pos_left (by omega) (by omega)
    omega
  rw [hfirst] at hone
  omega

variable [DecidableEq T]

/-- The output is the adjoint exactly if the steps add what they should. -/
theorem adjoint_iff_sums (h : g.Accepted a) :
    (∀ (x w ones bias newA newB : Int → T) (s : (Int → T) × (Int → T)),
      (∀ i ∈ cells g.outputVolume, ones i = 1) →
      ∃ after : (Int → T) × (Int → T), g.call a x w ones bias newA newB s = .ok after ∧
        ∀ e < g.batchSize, ∀ vol : Int → T,
          correlated g a w vol (g.item e x) =
            innerProduct (cells (g.outputVolume * g.nOutputPlane)) vol fun i =>
              after.2 ((e * (g.outputVolume * g.nOutputPlane) : Nat) + i) -
                if a.biasUsed then bias (i / g.outputVolume) else 0) ↔
      ∀ x w vol : Int → T, ∀ e < g.batchSize,
        ((insideSteps g a).map fun s =>
            wanted g (g.item e x) w s * vol (addedCell g a s)).sum =
          ((insideSteps g a).map fun s =>
            produced g (g.item e x) w s * vol (addedCell g a s)).sum := by
  have hcall : ∀ (x w ones bias newA newB : Int → T) (s : (Int → T) × (Int → T)),
      g.call a x w ones bias newA newB s = .ok (fullconv3dLoop a (shapeBuffer g.input)
        (shapeBuffer g.weights) (shapeBuffer g.columns) (shapeBuffer g.output)
        (FullConv3DGeometry.two_le_rank _ _ _ _ _) (FullConv3DGeometry.two_le_rank _ _ _ _ _)
        x w ones bias newA newB s) := by
    intro x w ones bias newA newB s
    have hchecks : requireAll (fullconv3dConditions a (shapeBuffer g.input).shape
        (shapeBuffer g.weights).shape (shapeBuffer g.output).shape) = .ok () := by
      rw [shape_shapeBuffer, shape_shapeBuffer, shape_shapeBuffer]
      exact h
    unfold FullConv3DGeometry.call fullconv3d
    rw [hchecks]
    rfl
  have hstored : ∀ (x w ones bias newA newB : Int → T) (s : (Int → T) × (Int → T)),
      (∀ i ∈ cells g.outputVolume, ones i = 1) → ∀ e < g.batchSize, ∀ vol : Int → T,
      innerProduct (cells (g.outputVolume * g.nOutputPlane)) vol (fun i =>
        (fullconv3dLoop a (shapeBuffer g.input) (shapeBuffer g.weights) (shapeBuffer g.columns)
          (shapeBuffer g.output) (FullConv3DGeometry.two_le_rank _ _ _ _ _)
          (FullConv3DGeometry.two_le_rank _ _ _ _ _) x w ones bias newA newB s).2
            ((e * (g.outputVolume * g.nOutputPlane) : Nat) + i) -
          if a.biasUsed then bias (i / g.outputVolume) else 0) =
        ((insideSteps g a).map fun s =>
          produced g (g.item e x) w s * vol (addedCell g a s)).sum := by
    intro x w ones bias newA newB s hones e he vol
    rw [← innerProduct_stored h x w bias vol e, innerProduct_comm, innerProduct_comm _ vol]
    refine innerProduct_congr fun i hi => ?_
    rw [fullconv3dLoop_apply h hones x w bias newA newB s he hi]
  constructor
  · intro hadjoint x w vol e he
    obtain ⟨after, hafter, hitems⟩ := hadjoint x w (fun _ => 1) (fun _ => 0) x x (x, x)
      fun _ _ => rfl
    rw [hcall] at hafter
    rw [← correlated_eq, hitems e he vol, ← Except.ok.inj hafter]
    exact hstored x w _ _ x x (x, x) (fun _ _ => rfl) e he vol
  · intro hsums x w ones bias newA newB s hones
    refine ⟨_, hcall x w ones bias newA newB s, fun e he vol => ?_⟩
    rw [hstored x w ones bias newA newB s hones e he vol, correlated_eq]
    exact hsums x w vol e he

/-- The reads stay inside the input and the weights exactly if the matrix of columns is square. -/
theorem reads_iff (g : FullConv3DGeometry) :
    ((∀ e < g.batchSize, ∀ r < g.rows, ∀ k < g.nInputPlane,
        (allExamples (shapeBuffer g.input)
          (FullConv3DGeometry.two_le_rank _ _ _ _ _)).tadOffset e +
          cellA (letterFlag 'n') g.rows g.nInputPlane r k ∈ cells g.input.prod) ∧
      ∀ k < g.nInputPlane, ∀ c < g.inputVolume,
        (cellB (letterFlag 't') g.nInputPlane g.inputVolume k c : Int) ∈ cells g.weights.prod) ↔
      g.rows = g.inputVolume := by
  have hinput : g.input.prod = g.batchSize * (g.nInputPlane * g.inputVolume) := by
    simp [FullConv3DGeometry.input, FullConv3DGeometry.inputVolume]
  have hweights : g.weights.prod = g.nInputPlane * g.rows := by
    simp [FullConv3DGeometry.weights, FullConv3DGeometry.rows, mul_assoc]
  have hA : ∀ r k, cellA (letterFlag 'n') g.rows g.nInputPlane r k = k * g.rows + r := by
    intro r k
    rw [letterFlag_n]
    rfl
  have hB : ∀ k c, cellB (letterFlag 't') g.nInputPlane g.inputVolume k c =
      c * g.nInputPlane + k := by
    intro k c
    rw [letterFlag_t]
    rfl
  obtain ⟨hbatch, hplanes⟩ : 0 < g.batchSize ∧ 0 < g.nInputPlane :=
    ⟨g.pos _ (by simp), g.pos _ (by simp)⟩
  have hvolume : 0 < g.inputVolume :=
    Nat.mul_pos (g.pos _ (by simp)) (Nat.mul_pos (g.pos _ (by simp)) (g.pos _ (by simp)))
  have hrows : 0 < g.rows := Nat.mul_pos (Nat.mul_pos (Nat.mul_pos (g.pos _ (by simp))
    (g.pos _ (by simp))) (g.pos _ (by simp))) (g.pos _ (by simp))
  simp only [hA, hB, hinput, hweights, mem_cells]
  constructor
  · rintro ⟨hreadsInput, hreadsWeights⟩
    -- the last reads
    have hle := (hreadsInput (g.batchSize - 1) (by omega) (g.rows - 1) (by omega)
      (g.nInputPlane - 1) (by omega)).2
    have hge := (hreadsWeights (g.nInputPlane - 1) (by omega) (g.inputVolume - 1) (by omega)).2
    rw [tadOffset_input (by omega)] at hle
    obtain ⟨b, hb⟩ := Nat.exists_eq_add_one.mpr hbatch
    obtain ⟨p, hp⟩ := Nat.exists_eq_add_one.mpr hplanes
    obtain ⟨v, hv⟩ := Nat.exists_eq_add_one.mpr hvolume
    obtain ⟨m, hm⟩ := Nat.exists_eq_add_one.mpr hrows
    rw [hb, hp, hv, hm] at hle
    rw [hp, hv, hm] at hge
    norm_cast at hle hge
    simp only [Nat.add_sub_cancel] at hle hge
    have hmv : (p + 1) * (m + 1) ≤ (p + 1) * (v + 1) := by
      ring_nf at hle ⊢
      omega
    have hvm : (p + 1) * (v + 1) ≤ (p + 1) * (m + 1) := by
      ring_nf at hge ⊢
      omega
    rw [hv, hm]
    exact le_antisymm (Nat.le_of_mul_le_mul_left hmv (Nat.succ_pos p))
      (Nat.le_of_mul_le_mul_left hvm (Nat.succ_pos p))
  · intro hsquare
    constructor
    · intro e he r hr k hk
      have hlt := mul_add_lt he (mul_add_lt hk (hsquare ▸ hr))
      rw [tadOffset_input he, hsquare]
      exact ⟨by positivity, by exact_mod_cast hlt⟩
    · intro k hk c hc
      have hlt := mul_add_lt hc hk
      rw [hsquare, mul_comm g.nInputPlane g.inputVolume]
      exact ⟨Int.natCast_nonneg _, by exact_mod_cast hlt⟩

theorem FullConv3DRight.square (hright : FullConv3DRight T g a) : g.rows = g.inputVolume :=
  (reads_iff g).mp ⟨hright.reads_input, hright.reads_weights⟩

/-- Unless no window has a place in the volume, the input has one plane or the matrix one
element. -/
theorem FullConv3DRight.one [Nontrivial T] (hright : FullConv3DRight T g a) (h : g.Accepted a)
    (hs : s ∈ insideSteps g a) : g.nInputPlane = 1 ∨ g.rows = 1 := by
  have hbatch : 0 < g.batchSize := g.pos _ List.mem_cons_self
  have hitem : ∀ item : Int → T, g.item 0 item = item := by
    intro item
    funext i
    rw [FullConv3DGeometry.item, zero_mul, Nat.cast_zero, zero_add]
  refine one_of_sums_eq (T := T) h hright.square (fun item w vol => ?_) hs
  have hsums := (adjoint_iff_sums h).mp hright.adjoint item w vol 0 hbatch
  rwa [hitem] at hsums

/-- The operation is right exactly if the matrix of columns is square, and the input has one plane,
the matrix one element or no window a place in the volume. -/
theorem fullConv3DRight_iff [Nontrivial T] (h : g.Accepted a) :
    FullConv3DRight T g a ↔
      g.rows = g.inputVolume ∧
        (g.nInputPlane = 1 ∨ g.rows = 1 ∨ insideSteps g a = []) := by
  constructor
  · intro hright
    refine ⟨hright.square, ?_⟩
    by_cases hnone : insideSteps g a = []
    · exact Or.inr (Or.inr hnone)
    · obtain ⟨s, hs⟩ := List.exists_mem_of_ne_nil _ hnone
      exact (hright.one h hs).imp_right Or.inl
  · rintro ⟨hsquare, hcase⟩
    obtain ⟨hinput, hweights⟩ := (reads_iff g).mpr hsquare
    refine ⟨hinput, hweights, (adjoint_iff_sums h).mpr fun x w vol e he => ?_⟩
    refine congrArg List.sum (List.map_congr_left fun s hs => ?_)
    have hone : g.nInputPlane = 1 ∨ g.rows = 1 := by
      rcases hcase with hplane | helement | hnone
      · exact Or.inl hplane
      · exact Or.inr helement
      · rw [hnone] at hs
        cases hs
    rw [produced_eq_wanted hsquare hone hs]

end Adjoint

/-- Strides and dilations of one, without padding. -/
def plainFullConv3D : FullConv3DArguments :=
  ⟨1, 1, 1, 0, 0, 0, 1, 1, 1, 0, 0, 0, true⟩

/-- One voxel and a kernel of one. -/
def singleVoxel : FullConv3DGeometry :=
  ⟨1, 1, 1, 1, 1, 1, 1, 1, 1, 1, 1, 1, by decide⟩

/-- Two planes of two voxels, and a kernel of two. -/
def twoPlanes : FullConv3DGeometry :=
  ⟨1, 2, 1, 2, 1, 1, 2, 1, 1, 3, 1, 1, by decide⟩

theorem fullConv3DRight_iff_singleVoxel :
    singleVoxel.Accepted plainFullConv3D ∧
      (FullConv3DRight ℤ singleVoxel plainFullConv3D ↔
        singleVoxel.rows = singleVoxel.inputVolume ∧
          (singleVoxel.nInputPlane = 1 ∨ singleVoxel.rows = 1 ∨
            insideSteps singleVoxel plainFullConv3D = [])) :=
  have haccepted : singleVoxel.Accepted plainFullConv3D := by decide
  ⟨haccepted, fullConv3DRight_iff haccepted⟩

/-- The operation is not always right: of two planes the rows of the weights are mixed up. -/
theorem not_fullConv3DRight_always :
    ¬ ∀ (g : FullConv3DGeometry) (a : FullConv3DArguments), g.Accepted a →
      FullConv3DRight ℤ g a := by
  intro h
  have haccepted : twoPlanes.Accepted plainFullConv3D := by decide
  have hinside : (0, 0, 0, 0) ∈ insideSteps twoPlanes plainFullConv3D := by decide
  have hone : twoPlanes.nInputPlane = 1 ∨ twoPlanes.rows = 1 :=
    (h twoPlanes plainFullConv3D haccepted).one haccepted hinside
  exact absurd hone (by decide)

end Convolutions
end LibND4J
