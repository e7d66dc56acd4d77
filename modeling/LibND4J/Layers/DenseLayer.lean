import LibND4J.Arrays.Matrices

/-!
# Dense layers

`backPropagate` of a dense layer runs the forward pass again, in an array that takes the place
of the output, and multiplies the gradient that comes in by the derivative of the activation.  The
forward pass leaves a single row alone, and both passes walk the buffers of their arrays.

Main results:

- Theorem `gradients_spec`: the gradients for any `delta`.
- Theorem `delta_of_row`, `delta_of_rows` and `delta_of_column`: the `delta` that
  is computed.
- Theorem `backPropagatesRight_iff`: the gradients are right exactly for a row without
  activation, or several rows and columns with a gradient in F order.
- Theorem `not_backPropagatesRight_always`: a row with an activation.
-/

namespace LibND4J
namespace Layers

open Arrays Ops Shape Strided

inductive Activation
  | identity
  | relu
deriving DecidableEq, Repr

/-- The arrays of a layer. -/
structure DenseLayer (T : Type) where
  params : NDArray T
  bias : NDArray T
  input : NDArray T
  epsilon : NDArray T
  output : NDArray T
  gradientW : NDArray T
  gradientB : NDArray T

/-! ## The passes -/

section Products

variable {T : Type} [CommRing T] [DecidableEq T]

/-- `gemmHelper`, which does what `mmulHelper` does with two matrices. -/
def gemmHelper (run : Runtime T) (A B C : NDArray T) (alpha beta : T) :
    Except Failure (NDArray T) :=
  A.gemmResult run B C alpha beta

/-- The output of `feedForward` before its activation. -/
def DenseLayer.multiplied (run : Runtime T) (layer : DenseLayer T) : Except Failure (NDArray T) :=
  if isRowVector layer.input.shapeInfo then
    -- the call of `gemv` is missing
    .ok layer.output
  else do
    let output ← gemmHelper run layer.input layer.params layer.output 1 0
    output.addiRowVector run layer.bias

end Products

section Operation

variable {T : Type} [CommRing T] [LinearOrder T]

def Activation.ffActivation : Activation → T → T
  | .identity, value => value
  | .relu, value => if value < 0 then 0 else value

def Activation.bpActivation : Activation → T → T → T
  | .identity, _, epsilon => epsilon
  | .relu, value, epsilon => (if value > 0 then 1 else 0) * epsilon

/-- `executeFF`, from an array to itself. -/
def executeFF (activation : Activation) (array : NDArray T) : NDArray T :=
  ⟨array.shapeInfo, Stores.storeAll (fun e : Nat => (e : Int))
    (fun e buffer => activation.ffActivation (buffer e)) (List.range array.shapeInfo.length)
    array.buffer⟩

def executeBP (activation : Activation) (input epsilon output : NDArray T) : NDArray T :=
  ⟨output.shapeInfo, Stores.storeAll (fun e : Nat => (e : Int))
    (fun e _ => activation.bpActivation (input.buffer e) (epsilon.buffer e))
    (List.range input.shapeInfo.length) output.buffer⟩

namespace DenseLayer

/-- `feedForward`, without dropout. -/
def feedForward (run : Runtime T) (activation : Activation) (layer : DenseLayer T) :
    Except Failure (DenseLayer T) := do
  let output ← layer.multiplied run
  .ok { layer with output := executeFF activation output }

/-- `delta` of `backPropagate`: the forward pass writes to `preOutput`. -/
def delta (run : Runtime T) (activation : Activation) (layer : DenseLayer T) :
    Except Failure (NDArray T) := do
  let preOutput :=
    NDArray.ofMatrix (rows layer.input.shapeInfo) (columns layer.params.shapeInfo) 'f'
  let forward ← feedForward run activation { layer with output := preOutput }
  let preOutput := forward.output
  .ok (executeBP activation preOutput layer.epsilon (preOutput.copy run))

/-- What `backPropagate` does with `delta`. -/
def gradients (run : Runtime T) (layer : DenseLayer T) (delta : NDArray T) :
    Except Failure (DenseLayer T) := do
  let iT := layer.input.transpose run
  let gradientW ← gemmHelper run iT delta layer.gradientW 1 0
  let sumArr ← sumAlong run delta [0]
  let gradientB ← layer.gradientB.assign run sumArr
  let oT := NDArray.ofMatrix (rows layer.params.shapeInfo) (rows layer.input.shapeInfo) 'f'
  let oT ← gemmHelper run layer.params delta.transposei oT 1 0
  let output ← layer.output.assign run oT.transposei
  .ok { layer with gradientW := gradientW, gradientB := gradientB, output := output }

def backPropagate (run : Runtime T) (activation : Activation) (layer : DenseLayer T) :
    Except Failure (DenseLayer T) := do
  let delta ← layer.delta run activation
  layer.gradients run delta

end DenseLayer

end Operation

/-! ## What is asked for -/

/-- The extents of a layer, its activation and the shape information of its arrays, each of them
dense in C or in F order. -/
structure DenseGeometry where
  batch : Nat
  nIn : Nat
  nOut : Nat
  activation : Activation
  params : ShapeInfo
  bias : ShapeInfo
  input : ShapeInfo
  epsilon : ShapeInfo
  output : ShapeInfo
  gradientW : ShapeInfo
  gradientB : ShapeInfo
  params_dense : DenseMatrix params nIn nOut
  bias_dense : DenseMatrix bias 1 nOut
  input_dense : DenseMatrix input batch nIn
  epsilon_dense : DenseMatrix epsilon batch nOut
  output_dense : DenseMatrix output batch nIn
  gradientW_dense : DenseMatrix gradientW nIn nOut
  gradientB_dense : DenseMatrix gradientB 1 nOut

/-- A layer of a geometry. -/
structure DenseGeometry.Fits {T : Type} (g : DenseGeometry) (layer : DenseLayer T) : Prop where
  params : layer.params.shapeInfo = g.params
  bias : layer.bias.shapeInfo = g.bias
  input : layer.input.shapeInfo = g.input
  epsilon : layer.epsilon.shapeInfo = g.epsilon
  output : layer.output.shapeInfo = g.output
  gradientW : layer.gradientW.shapeInfo = g.gradientW
  gradientB : layer.gradientB.shapeInfo = g.gradientB

section Wanted

variable {T : Type} [CommRing T]

/-- The gradients of a layer for a `delta`, with all else as it was. -/
structure DenseGeometry.Backpropagated (g : DenseGeometry) (delta : Nat → Nat → T)
    (layer layer' : DenseLayer T) : Prop where
  fits : g.Fits layer'
  gradientW : ∀ k < g.nIn, ∀ c < g.nOut, layer'.gradientW.element [k, c] =
    ∑ r ∈ Finset.range g.batch, layer.input.element [r, k] * delta r c
  gradientB : ∀ c < g.nOut, layer'.gradientB.element [0, c] =
    ∑ r ∈ Finset.range g.batch, delta r c
  output : ∀ r < g.batch, ∀ k < g.nIn, layer'.output.element [r, k] =
    ∑ c ∈ Finset.range g.nOut, delta r c * layer.params.element [k, c]
  params : layer'.params = layer.params
  bias : layer'.bias = layer.bias
  input : layer'.input = layer.input
  epsilon : layer'.epsilon = layer.epsilon

/-- An entry of the input times the parameters, with the bias. -/
def DenseGeometry.preActivation (g : DenseGeometry) (layer : DenseLayer T) (r c : Nat) : T :=
  productAt layer.input layer.params g.nIn r c + layer.bias.element [0, c]

variable [LinearOrder T]

def Activation.derivative : Activation → T → T
  | .identity, _ => 1
  | .relu, value => if 0 < value then 1 else 0

/-- The gradient that comes in times the derivative of the activation. -/
def DenseGeometry.wantedDelta (g : DenseGeometry) (layer : DenseLayer T) (r c : Nat) : T :=
  layer.epsilon.element [r, c] * g.activation.derivative (g.preActivation layer r c)

/-- Whatever the arrays hold, the pass completes with the gradients. -/
def DenseGeometry.BackPropagatesRight (g : DenseGeometry) (T : Type) [CommRing T] [LinearOrder T]
    (run : Runtime T) : Prop :=
  ∀ layer : DenseLayer T, g.Fits layer →
    ∃ layer', layer.backPropagate run g.activation = .ok layer' ∧
      g.Backpropagated (g.wantedDelta layer) layer layer'

end Wanted

/-- A row without activation, or several rows and columns with a gradient in F order. -/
def DenseGeometry.BackPropagatesWhere (g : DenseGeometry) : Prop :=
  (g.batch = 1 ∧ g.activation = .identity) ∨
    (2 ≤ g.batch ∧ 2 ≤ g.nOut ∧ g.epsilon.order = 'f')

/-! ## The gradients -/

section Gradients

variable {T : Type} [CommRing T] [LinearOrder T] {g : DenseGeometry} {layer : DenseLayer T}

namespace DenseGeometry

variable (g)

theorem batch_pos : 0 < g.batch := g.input_dense.rows_pos

theorem nIn_pos : 0 < g.nIn := g.input_dense.columns_pos

theorem nOut_pos : 0 < g.nOut := g.params_dense.columns_pos

end DenseGeometry

variable {delta : NDArray T}

/-- The product with the transposed input. -/
theorem gradientW_spec (run : Runtime T) (h : g.Fits layer)
    (hdelta : DenseMatrix delta.shapeInfo g.batch g.nOut) :
    ∃ result, gemmHelper run (layer.input.transpose run) delta layer.gradientW 1 0 = .ok result ∧
      result.shapeInfo = g.gradientW ∧ ∀ k < g.nIn, ∀ c < g.nOut, result.element [k, c] =
        ∑ r ∈ Finset.range g.batch, layer.input.element [r, k] * delta.element [r, c] := by
  have hinput : DenseMatrix layer.input.shapeInfo g.batch g.nIn := h.input ▸ g.input_dense
  obtain ⟨result, hresult, hinfo, helement⟩ := gemmResult_of_dense run
    (hinput.factor_transpose (layer.input.copyBuffer run)) hdelta.factor
    (C := layer.gradientW) (h.gradientW ▸ g.gradientW_dense)
  refine ⟨result, hresult, hinfo.trans h.gradientW, fun k hk c hc => ?_⟩
  rw [helement k hk c hc, productAt]
  refine Finset.sum_congr rfl fun r hr => ?_
  have hr := Finset.mem_range.mp hr
  rw [element_transposeShapeInfo hinput.shape_eq _ hr hk, element_copyBuffer run hinput hr hk]

/-- The product of the parameters and the transposed `delta`, transposed. -/
theorem output_spec (run : Runtime T) (h : g.Fits layer)
    (hdelta : DenseMatrix delta.shapeInfo g.batch g.nOut) :
    ∃ oT, gemmHelper run layer.params delta.transposei
        (NDArray.ofMatrix (rows layer.params.shapeInfo) (rows layer.input.shapeInfo) 'f') 1 0 =
          .ok oT ∧
      ∃ result, layer.output.assign run oT.transposei = .ok result ∧
        result.shapeInfo = g.output ∧ ∀ r < g.batch, ∀ k < g.nIn, result.element [r, k] =
          ∑ c ∈ Finset.range g.nOut, delta.element [r, c] * layer.params.element [k, c] := by
  have hparams : DenseMatrix layer.params.shapeInfo g.nIn g.nOut := h.params ▸ g.params_dense
  have hinput : DenseMatrix layer.input.shapeInfo g.batch g.nIn := h.input ▸ g.input_dense
  have houtput : DenseMatrix layer.output.shapeInfo g.batch g.nIn := h.output ▸ g.output_dense
  have hrows : rows layer.params.shapeInfo = g.nIn := by rw [rows, hparams.shape_eq]; rfl
  have hbatch : rows layer.input.shapeInfo = g.batch := by rw [rows, hinput.shape_eq]; rfl
  have hnew : DenseMatrix (NDArray.ofMatrix g.nIn g.batch 'f' : NDArray T).shapeInfo g.nIn
      g.batch := denseMatrix_ofMatrix (Or.inr rfl) g.nIn_pos g.batch_pos
  rw [hrows, hbatch]
  obtain ⟨oT, hoT, hinfo, helement⟩ := gemmResult_of_dense run hparams.factor
    (hdelta.factor_transpose delta.buffer) hnew
  rw [← hinfo] at hnew
  obtain ⟨result, hresult, hinfo', hsame⟩ := assign_of_dense run houtput
    (hnew.factor_transpose oT.buffer).shape_eq (hnew.factor_transpose oT.buffer).honest
  refine ⟨oT, hoT, result, hresult, hinfo'.trans h.output, fun r hr k hk => ?_⟩
  rw [hsame r hr k hk, element_transposeShapeInfo hnew.shape_eq oT.buffer hk hr]
  refine (helement k hk r hr).trans (Finset.sum_congr rfl fun c hc => ?_)
  rw [element_transposeShapeInfo hdelta.shape_eq delta.buffer hr (Finset.mem_range.mp hc),
    mul_comm]

/-- The gradients for any `delta`. -/
theorem gradients_spec (run : Runtime T) (h : g.Fits layer)
    (hdelta : DenseMatrix delta.shapeInfo g.batch g.nOut) :
    ∃ layer', layer.gradients run delta = .ok layer' ∧
      g.Backpropagated (fun r c => delta.element [r, c]) layer layer' := by
  obtain ⟨gradientW, hgradientW, hinfoW, helementW⟩ := gradientW_spec run h hdelta
  obtain ⟨sumArr, hsum, hshape, hews, helementSum⟩ := sumAlong_rows run hdelta.shape_eq
    g.batch_pos g.nOut_pos hdelta.honest
  obtain ⟨gradientB, hgradientB, hinfoB, helementB⟩ := @assign_of_dense T layer.gradientB sumArr
    1 g.nOut run (h.gradientB ▸ g.gradientB_dense) hshape hews
  obtain ⟨oT, hoT, output, houtput, hinfoO, helementO⟩ := output_spec run h hdelta
  refine ⟨{ layer with gradientW := gradientW, gradientB := gradientB, output := output }, ?_, ?_⟩
  · rw [DenseLayer.gradients]
    simp only [hgradientW, hsum, hgradientB, hoT, houtput, bind, Except.bind]
  · exact
      { fits := { h with
          gradientW := hinfoW
          gradientB := hinfoB.trans h.gradientB
          output := hinfoO }
        gradientW := helementW
        gradientB := fun c hc => (helementB 0 Nat.one_pos c hc).trans (helementSum c hc)
        output := helementO
        params := rfl
        bias := rfl
        input := rfl
        epsilon := rfl }

end Gradients

/-! ## What is computed -/

section Deltas

variable {T : Type} [CommRing T] [LinearOrder T] {g : DenseGeometry} {layer : DenseLayer T}

/-- The forward walk activates every cell. -/
theorem buffer_executeFF (activation : Activation) (array : NDArray T) {e : Nat}
    (he : e < array.shapeInfo.length) :
    (executeFF activation array).buffer e = activation.ffActivation (array.buffer e) := by
  have hcells : ((List.range array.shapeInfo.length).map fun e : Nat => (e : Int)).Nodup :=
    List.nodup_range.map Int.ofNat_injective
  refine Stores.storeAll_of_independent hcells (fun v _ w _ hne buffer b => ?_) array.buffer
    (List.mem_range.mpr he)
  rw [Function.update_of_ne hne]

/-- The backward walk writes every cell. -/
theorem buffer_executeBP (activation : Activation) (input epsilon output : NDArray T) {e : Nat}
    (he : e < input.shapeInfo.length) :
    (executeBP activation input epsilon output).buffer e =
      activation.bpActivation (input.buffer e) (epsilon.buffer e) := by
  refine Stores.storeAll_of_agree ⟨e, List.mem_range.mpr he, rfl⟩ (fun v _ hv _ => ?_) _
  rw [hv]

/-- The entry of `delta` for what the layer holds before it is activated. -/
def DenseGeometry.computedDelta (g : DenseGeometry) (layer : DenseLayer T) (output : NDArray T)
    (r c : Nat) : T :=
  g.activation.bpActivation (g.activation.ffActivation (output.element [r, c]))
    (layer.epsilon.buffer (Blas.linearIndexF g.batch g.nOut r c))

/-- The array that takes the place of the output. -/
def DenseGeometry.preOutput (g : DenseGeometry) (T : Type) [Zero T] : NDArray T :=
  NDArray.ofMatrix g.batch g.nOut 'f'

omit [LinearOrder T] in
theorem DenseGeometry.preOutput_dense (g : DenseGeometry) :
    DenseMatrix (g.preOutput T).shapeInfo g.batch g.nOut :=
  denseMatrix_ofMatrix (Or.inr rfl) g.batch_pos g.nOut_pos

/-- The forward pass that `delta` runs. -/
theorem delta_eq (run : Runtime T) (h : g.Fits layer) :
    layer.delta run g.activation =
      ({ layer with output := g.preOutput T } : DenseLayer T).multiplied run >>= fun output =>
        .ok (executeBP g.activation (executeFF g.activation output) layer.epsilon
          ((executeFF g.activation output).copy run)) := by
  have hrows : rows layer.input.shapeInfo = g.batch := by
    rw [rows, h.input, g.input_dense.shape_eq]
    rfl
  have hcolumns : columns layer.params.shapeInfo = g.nOut := by
    rw [columns, h.params, g.params_dense.shape_eq]
    rfl
  rw [DenseLayer.delta, hrows, hcolumns, DenseLayer.feedForward, ← DenseGeometry.preOutput]
  cases ({ layer with output := g.preOutput T } : DenseLayer T).multiplied run with
  | error e => rfl
  | ok output => rfl

/-- `delta` for what the layer holds before it is activated. -/
theorem delta_of_multiplied (run : Runtime T) (h : g.Fits layer) {output : NDArray T}
    (hmultiplied : ({ layer with output := g.preOutput T } : DenseLayer T).multiplied run =
      .ok output) (hinfo : output.shapeInfo = (g.preOutput T).shapeInfo) :
    ∃ delta, layer.delta run g.activation = .ok delta ∧
      DenseMatrix delta.shapeInfo g.batch g.nOut ∧ ∀ r < g.batch, ∀ c < g.nOut,
        delta.element [r, c] = g.computedDelta layer output r c := by
  have hdense : DenseMatrix output.shapeInfo g.batch g.nOut := hinfo ▸ g.preOutput_dense
  have hf : output.shapeInfo.order = 'f' := hinfo ▸ rfl
  refine ⟨executeBP g.activation (executeFF g.activation output) layer.epsilon
    ((executeFF g.activation output).copy run), ?_, hdense, fun r hr c hc => ?_⟩
  · rw [delta_eq run h, hmultiplied]
    rfl
  have hlength : Blas.linearIndexF g.batch g.nOut r c < output.shapeInfo.length := by
    rw [length_of_shape hdense.shape_eq]
    exact Blas.linearIndexF_lt hr hc
  have hcell : output.element [r, c] = output.buffer (Blas.linearIndexF g.batch g.nOut r c) :=
    element_of_f hdense hf output.buffer hr hc
  rw [DenseGeometry.computedDelta, hcell]
  refine (element_of_f hdense hf _ hr hc).trans ?_
  refine (buffer_executeBP g.activation (executeFF g.activation output) layer.epsilon _
    hlength).trans ?_
  rw [buffer_executeFF g.activation output hlength]

omit [LinearOrder T] in
theorem isRowVector_iff {info : ShapeInfo} {m n : Nat} (hshape : info.shape = [m, n]) :
    isRowVector info = true ↔ m = 1 := by
  simp [isRowVector, isVector, ShapeInfo.rank, hshape]
  exact Or.inl

variable (run : Runtime T)

include run

variable (h : g.Fits layer)

include h

/-- A row is neither multiplied nor given a bias. -/
theorem multiplied_of_row (hbatch : g.batch = 1) :
    ({ layer with output := g.preOutput T } : DenseLayer T).multiplied run =
      .ok (g.preOutput T) := by
  have hrow : isRowVector layer.input.shapeInfo = true :=
    (isRowVector_iff (h.input ▸ g.input_dense.shape_eq)).mpr hbatch
  rw [DenseLayer.multiplied, if_pos hrow]

/-- Several rows are multiplied. -/
theorem multiplied_of_rows (hbatch : g.batch ≠ 1) :
    ∃ product : NDArray T, product.shapeInfo = (g.preOutput T).shapeInfo ∧
      (∀ r < g.batch, ∀ c < g.nOut, product.element [r, c] =
        productAt layer.input layer.params g.nIn r c) ∧
      ({ layer with output := g.preOutput T } : DenseLayer T).multiplied run =
        product.addiRowVector run layer.bias := by
  have hrow : ¬ isRowVector layer.input.shapeInfo = true := fun hrow =>
    hbatch ((isRowVector_iff (h.input ▸ g.input_dense.shape_eq)).mp hrow)
  have hinput : DenseMatrix layer.input.shapeInfo g.batch g.nIn := h.input ▸ g.input_dense
  have hparams : DenseMatrix layer.params.shapeInfo g.nIn g.nOut := h.params ▸ g.params_dense
  obtain ⟨product, hproduct, hinfo, helement⟩ :=
    gemmResult_of_dense run hinput.factor hparams.factor (g.preOutput_dense (T := T))
  refine ⟨product, hinfo, helement, ?_⟩
  rw [DenseLayer.multiplied, if_neg hrow]
  show (NDArray.gemmResult run layer.input layer.params (g.preOutput T) 1 0 >>= _) = _
  rw [hproduct]
  rfl

/-- The `delta` of a row: the derivative is taken at zero. -/
theorem delta_of_row (hbatch : g.batch = 1) :
    ∃ delta, layer.delta run g.activation = .ok delta ∧
      DenseMatrix delta.shapeInfo g.batch g.nOut ∧ ∀ c < g.nOut, delta.element [0, c] =
        g.activation.bpActivation (g.activation.ffActivation 0) (layer.epsilon.buffer c) := by
  obtain ⟨delta, hdelta, hdense, helement⟩ :=
    delta_of_multiplied run h (multiplied_of_row run h hbatch) rfl
  refine ⟨delta, hdelta, hdense, fun c hc => ?_⟩
  rw [helement 0 g.batch_pos c hc, DenseGeometry.computedDelta, Blas.linearIndexF, hbatch,
    Nat.mul_one, Nat.add_zero]
  rfl

/-- The `delta` of several rows and columns: the gradient that comes in is read by its buffer. -/
theorem delta_of_rows (hbatch : g.batch ≠ 1) (hnOut : 2 ≤ g.nOut) :
    ∃ delta, layer.delta run g.activation = .ok delta ∧
      DenseMatrix delta.shapeInfo g.batch g.nOut ∧ ∀ r < g.batch, ∀ c < g.nOut,
        delta.element [r, c] = g.activation.bpActivation
          (g.activation.ffActivation (g.preActivation layer r c))
          (layer.epsilon.buffer (Blas.linearIndexF g.batch g.nOut r c)) := by
  obtain ⟨product, hinfo, helement, hmultiplied⟩ := multiplied_of_rows run h hbatch
  have hdense : DenseMatrix product.shapeInfo g.batch g.nOut := hinfo ▸ g.preOutput_dense
  have hbias : DenseMatrix layer.bias.shapeInfo 1 g.nOut := h.bias ▸ g.bias_dense
  obtain ⟨buffer, hadded, hbuffer⟩ := addiRowVector_spec run hdense.shape_eq g.batch_pos hnOut
    hdense.honest hdense.cellsApart hbias.shape_eq hbias.honest
  obtain ⟨delta, hdelta, hdense', hvalue⟩ :=
    delta_of_multiplied run h (hmultiplied.trans hadded) hinfo
  refine ⟨delta, hdelta, hdense', fun r hr c hc => ?_⟩
  have hbox : InBox product.shapeInfo.shape [r, c] := hdense.inBox hr hc
  have hsum : (NDArray.mk product.shapeInfo buffer).element [r, c] =
      g.preActivation layer r c := by
    have hcell : (NDArray.mk product.shapeInfo buffer).element [r, c] =
        buffer (dot [r, c] product.shapeInfo.stride) := element_eq hbox
    rw [hcell, hbuffer r hr c hc, ← element_eq hbox, helement r hr c hc]
    rfl
  rw [hvalue r hr c hc, DenseGeometry.computedDelta, hsum]

/-- With several rows and one column the bias is a scalar, and is refused. -/
theorem delta_of_column (hbatch : g.batch ≠ 1) (hnOut : g.nOut = 1) :
    layer.delta run g.activation =
      .error (.thrown "NDArray::addiRowVector: wrong arguments !") := by
  obtain ⟨product, -, -, hmultiplied⟩ := multiplied_of_rows run h hbatch
  have hbias : layer.bias.shapeInfo.shape = [1, 1] := by
    rw [h.bias, g.bias_dense.shape_eq, hnOut]
  have hscalar : ¬ Loops.isRowVectorArray layer.bias.shapeInfo = true := by
    simp [Loops.isRowVectorArray, isScalar, hbias]
  rw [delta_eq run h, hmultiplied, NDArray.addiRowVector,
    dif_pos (Or.inr (Or.inl hscalar))]
  rfl

end Deltas

/-! ## When the gradients are right -/

section Right

variable {T : Type} [CommRing T] [LinearOrder T] {g : DenseGeometry} {layer layer' : DenseLayer T}
  {delta delta' : Nat → Nat → T}

omit [LinearOrder T] in
/-- The gradients for entries that agree. -/
theorem DenseGeometry.Backpropagated.congr (h : g.Backpropagated delta layer layer')
    (hsame : ∀ r < g.batch, ∀ c < g.nOut, delta r c = delta' r c) :
    g.Backpropagated delta' layer layer' where
  fits := h.fits
  gradientW := fun k hk c hc => (h.gradientW k hk c hc).trans
    (Finset.sum_congr rfl fun r hr => by rw [hsame r (Finset.mem_range.mp hr) c hc])
  gradientB := fun c hc => (h.gradientB c hc).trans
    (Finset.sum_congr rfl fun r hr => hsame r (Finset.mem_range.mp hr) c hc)
  output := fun r hr k hk => (h.output r hr k hk).trans
    (Finset.sum_congr rfl fun c hc => by rw [hsame r hr c (Finset.mem_range.mp hc)])
  params := h.params
  bias := h.bias
  input := h.input
  epsilon := h.epsilon

/-- The derivative at an activated value is that at the value. -/
theorem bpActivation_ffActivation (activation : Activation) (value epsilon : T) :
    activation.bpActivation (activation.ffActivation value) epsilon =
      epsilon * activation.derivative value := by
  cases activation with
  | identity => exact (mul_one epsilon).symm
  | relu =>
      simp only [Activation.ffActivation, Activation.bpActivation, Activation.derivative, gt_iff_lt]
      by_cases hneg : value < 0
      · rw [if_pos hneg, if_neg (lt_irrefl 0), if_neg hneg.not_gt, zero_mul, mul_zero]
      · rw [if_neg hneg, mul_comm]

/-- Where the computed `delta` is the wanted one, the gradients are right. -/
theorem backPropagates_of_delta (run : Runtime T) (h : g.Fits layer) {computed : NDArray T}
    (hdelta : layer.delta run g.activation = .ok computed)
    (hdense : DenseMatrix computed.shapeInfo g.batch g.nOut)
    (hsame : ∀ r < g.batch, ∀ c < g.nOut, computed.element [r, c] = g.wantedDelta layer r c) :
    ∃ layer', layer.backPropagate run g.activation = .ok layer' ∧
      g.Backpropagated (g.wantedDelta layer) layer layer' := by
  obtain ⟨layer', hgradients, hbackpropagated⟩ := gradients_spec run h hdense
  refine ⟨layer', ?_, hbackpropagated.congr hsame⟩
  rw [DenseLayer.backPropagate, hdelta]
  exact hgradients

/-- A row without activation. -/
theorem backPropagatesRight_of_row (run : Runtime T) (hbatch : g.batch = 1)
    (hidentity : g.activation = .identity) : g.BackPropagatesRight T run := by
  intro layer h
  obtain ⟨computed, hdelta, hdense, helement⟩ := delta_of_row run h hbatch
  refine backPropagates_of_delta run h hdelta hdense fun r hr c hc => ?_
  have hr : r = 0 := by omega
  have hepsilon : DenseMatrix layer.epsilon.shapeInfo g.batch g.nOut := h.epsilon ▸ g.epsilon_dense
  have hread : layer.epsilon.element [0, c] = layer.epsilon.buffer c := by
    rcases hepsilon.order_eq with horder | horder
    · have hcell := element_of_c hepsilon horder layer.epsilon.buffer g.batch_pos hc
      rwa [Blas.linearIndexC, Nat.zero_mul, Nat.zero_add] at hcell
    · have hcell := element_of_f hepsilon horder layer.epsilon.buffer g.batch_pos hc
      rwa [Blas.linearIndexF, hbatch, Nat.mul_one, Nat.add_zero] at hcell
  rw [hr, helement c hc, DenseGeometry.wantedDelta, hread, hidentity]
  exact (mul_one _).symm

/-- Several rows and columns, with a gradient in F order. -/
theorem backPropagatesRight_of_rows (run : Runtime T) (hbatch : 2 ≤ g.batch) (hnOut : 2 ≤ g.nOut)
    (horder : g.epsilon.order = 'f') : g.BackPropagatesRight T run := by
  intro layer h
  obtain ⟨computed, hdelta, hdense, helement⟩ := delta_of_rows run h (by omega) hnOut
  refine backPropagates_of_delta run h hdelta hdense fun r hr c hc => ?_
  have hepsilon : DenseMatrix layer.epsilon.shapeInfo g.batch g.nOut := h.epsilon ▸ g.epsilon_dense
  have hread := element_of_f hepsilon (h.epsilon ▸ horder) layer.epsilon.buffer hr hc
  rw [helement r hr c hc, bpActivation_ffActivation, DenseGeometry.wantedDelta, ← hread]

/-- A layer that holds one everywhere before it is activated. -/
def DenseGeometry.unitLayer (g : DenseGeometry) (epsilon : Int → T) : DenseLayer T where
  params := ⟨g.params, fun _ => 0⟩
  bias := ⟨g.bias, fun _ => 1⟩
  input := ⟨g.input, fun _ => 0⟩
  epsilon := ⟨g.epsilon, epsilon⟩
  output := ⟨g.output, fun _ => 0⟩
  gradientW := ⟨g.gradientW, fun _ => 0⟩
  gradientB := ⟨g.gradientB, fun _ => 0⟩

omit [LinearOrder T] in
theorem fits_unitLayer (g : DenseGeometry) (epsilon : Int → T) : g.Fits (g.unitLayer epsilon) :=
  ⟨rfl, rfl, rfl, rfl, rfl, rfl, rfl⟩

omit [LinearOrder T] in
theorem preActivation_unitLayer (g : DenseGeometry) (epsilon : Int → T) (r c : Nat) :
    g.preActivation (g.unitLayer epsilon) r c = 1 := by
  have hproduct : productAt (g.unitLayer epsilon).input (g.unitLayer epsilon).params g.nIn r c =
      0 := Finset.sum_eq_zero fun k _ => mul_zero _
  rw [DenseGeometry.preActivation, hproduct, zero_add]
  rfl

variable [IsStrictOrderedRing T]

theorem derivative_one (activation : Activation) : activation.derivative (1 : T) = 1 := by
  cases activation with
  | identity => rfl
  | relu => exact if_pos zero_lt_one

variable {run : Runtime T}

variable (hright : g.BackPropagatesRight T run)

include hright

/-- Where the gradients are right, the sums of `delta` are those of the gradient that comes in. -/
theorem sum_of_right (epsilon : Int → T) {computed : NDArray T}
    (hdelta : (g.unitLayer epsilon).delta run g.activation = .ok computed)
    (hdense : DenseMatrix computed.shapeInfo g.batch g.nOut) :
    ∑ r ∈ Finset.range g.batch, computed.element [r, 0] =
      ∑ r ∈ Finset.range g.batch, (NDArray.mk g.epsilon epsilon).element [r, 0] := by
  have hfits := fits_unitLayer g epsilon
  obtain ⟨layer', hpass, hwanted⟩ := hright (g.unitLayer epsilon) hfits
  obtain ⟨layer'', hgradients, hcomputed⟩ := gradients_spec run hfits hdense
  have hsame : layer' = layer'' := by
    rw [DenseLayer.backPropagate, hdelta] at hpass
    exact Except.ok.inj (hpass.symm.trans hgradients)
  rw [← hcomputed.gradientB 0 g.nOut_pos, ← hsame, hwanted.gradientB 0 g.nOut_pos]
  refine Finset.sum_congr rfl fun r _ => ?_
  rw [DenseGeometry.wantedDelta, preActivation_unitLayer, derivative_one, mul_one]
  rfl

/-- A row with an activation passes nothing on. -/
theorem identity_of_row (hbatch : g.batch = 1) : g.activation = .identity := by
  cases hactivation : g.activation with
  | identity => rfl
  | relu =>
      obtain ⟨computed, hdelta, hdense, helement⟩ :=
        delta_of_row run (fits_unitLayer g fun _ : Int => (1 : T)) hbatch
      have hsum := sum_of_right hright _ hdelta hdense
      rw [hbatch, Finset.sum_range_one, Finset.sum_range_one, helement 0 g.nOut_pos, hactivation,
        bpActivation_ffActivation] at hsum
      have hzero : Activation.relu.derivative (0 : T) = 0 := if_neg (lt_irrefl 0)
      rw [hzero, mul_zero] at hsum
      exact absurd hsum.symm one_ne_zero

/-- Several rows need several columns, and a gradient in F order. -/
theorem order_of_rows (hbatch : g.batch ≠ 1) : 2 ≤ g.nOut ∧ g.epsilon.order = 'f' := by
  have hrows := g.batch_pos
  have hcolumns := g.nOut_pos
  have hnOut : 2 ≤ g.nOut := by
    by_contra hfew
    obtain ⟨layer', hpass, -⟩ := hright _ (fits_unitLayer g fun _ : Int => (0 : T))
    rw [DenseLayer.backPropagate, delta_of_column run (fits_unitLayer g _) hbatch (by omega)]
      at hpass
    cases hpass
  refine ⟨hnOut, ?_⟩
  -- a gradient that comes in with a one in the second cell of its buffer
  set spot : Int → T := Pi.single 1 1 with hspot
  obtain ⟨computed, hdelta, hdense, helement⟩ :=
    delta_of_rows run (fits_unitLayer g spot) hbatch hnOut
  have hsum := sum_of_right hright _ hdelta hdense
  refine g.epsilon_dense.order_eq.resolve_left fun hc => ?_
  have hleft : ∀ r ∈ Finset.range g.batch, computed.element [r, 0] = if r = 1 then 1 else 0 := by
    intro r hr
    rw [helement r (Finset.mem_range.mp hr) 0 g.nOut_pos, bpActivation_ffActivation,
      preActivation_unitLayer, derivative_one, mul_one, Blas.linearIndexF, Nat.zero_mul,
      Nat.zero_add]
    show spot r = _
    rw [hspot, Pi.single_apply]
    simp only [Nat.cast_eq_one]
  have hzeros : ∀ r ∈ Finset.range g.batch, (NDArray.mk g.epsilon spot).element [r, 0] = 0 := by
    intro r hr
    rw [element_of_c g.epsilon_dense hc spot (Finset.mem_range.mp hr) g.nOut_pos,
      Blas.linearIndexC, Nat.add_zero]
    apply Pi.single_eq_of_ne
    intro hone
    have hunit : g.nOut = 1 := Nat.eq_one_of_mul_eq_one_left (Nat.cast_eq_one.mp hone)
    omega
  rw [Finset.sum_congr rfl hleft, Finset.sum_eq_zero hzeros, Finset.sum_ite_eq',
    if_pos (Finset.mem_range.mpr (by omega))] at hsum
  exact one_ne_zero hsum

omit hright

/-- The gradients are right exactly for a row without activation, or several rows and columns with
a gradient that comes in F order. -/
theorem backPropagatesRight_iff (g : DenseGeometry) (run : Runtime T) :
    g.BackPropagatesRight T run ↔ g.BackPropagatesWhere := by
  constructor
  · intro hright
    by_cases hbatch : g.batch = 1
    · exact Or.inl ⟨hbatch, identity_of_row hright hbatch⟩
    · have hrows := g.batch_pos
      exact Or.inr ⟨by omega, order_of_rows hright hbatch⟩
  · rintro (⟨hbatch, hidentity⟩ | ⟨hbatch, hnOut, horder⟩)
    · exact backPropagatesRight_of_row run hbatch hidentity
    · exact backPropagatesRight_of_rows run hbatch hnOut horder

end Right

/-- Shape information of a new matrix in F order. -/
def columnsInfo (m n : Nat) : ShapeInfo :=
  (NDArray.ofMatrix m n 'f' : NDArray Rat).shapeInfo

theorem denseMatrix_columnsInfo {m n : Nat} (hm : 0 < m) (hn : 0 < n) :
    DenseMatrix (columnsInfo m n) m n :=
  denseMatrix_ofMatrix (Or.inr rfl) hm hn

/-- A row of two entries, with an activation. -/
def activatedRow : DenseGeometry where
  batch := 1
  nIn := 2
  nOut := 2
  activation := .relu
  params := columnsInfo 2 2
  bias := columnsInfo 1 2
  input := columnsInfo 1 2
  epsilon := columnsInfo 1 2
  output := columnsInfo 1 2
  gradientW := columnsInfo 2 2
  gradientB := columnsInfo 1 2
  params_dense := denseMatrix_columnsInfo (by decide) (by decide)
  bias_dense := denseMatrix_columnsInfo (by decide) (by decide)
  input_dense := denseMatrix_columnsInfo (by decide) (by decide)
  epsilon_dense := denseMatrix_columnsInfo (by decide) (by decide)
  output_dense := denseMatrix_columnsInfo (by decide) (by decide)
  gradientW_dense := denseMatrix_columnsInfo (by decide) (by decide)
  gradientB_dense := denseMatrix_columnsInfo (by decide) (by decide)

theorem backPropagatesRight_iff_activatedRow :
    activatedRow.BackPropagatesRight Rat (oneThread fun _ => 0) ↔
      activatedRow.BackPropagatesWhere :=
  backPropagatesRight_iff activatedRow (oneThread fun _ => 0)

/-- A row with an activation gets no gradient. -/
theorem not_backPropagatesRight_always :
    ¬ ∀ (g : DenseGeometry) (run : Runtime Rat), g.BackPropagatesRight Rat run := by
  intro h
  have hidentity := identity_of_row (h activatedRow (oneThread fun _ => 0)) rfl
  cases hidentity

end Layers
end LibND4J
