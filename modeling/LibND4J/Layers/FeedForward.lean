import LibND4J.Layers.DenseLayer

/-!
# The forward pass of a dense layer

`feedForward` multiplies the input by the parameters, adds the bias to every row and applies
the activation.  Of an input with a single row it does the last of these only.

Main results:

- Theorem `feedForward_of_row` and theorem `feedForward_of_rows`: the pass for one row and
  for several.
- Theorem `feedsForward_iff`: for which layers the pass is right.
-/

namespace LibND4J
namespace Layers

open Arrays Ops Shape Strided

section Operation

variable {T : Type} [CommRing T] [DecidableEq T]

/-- `executeFF`, from an array to itself, for any activation. -/
def activate (ffActivation : T → T) (array : NDArray T) : NDArray T :=
  ⟨array.shapeInfo, Stores.storeAll (fun e : Nat => (e : Int))
    (fun e buffer => ffActivation (buffer e)) (List.range array.shapeInfo.length) array.buffer⟩

/-- `feedForward`, without dropout, for any activation. -/
def DenseLayer.feedForwardWith (run : Runtime T) (ffActivation : T → T) (layer : DenseLayer T) :
    Except Failure (DenseLayer T) := do
  let output ← layer.multiplied run
  .ok { layer with output := activate ffActivation output }

theorem feedForward_eq {T : Type} [CommRing T] [LinearOrder T] (run : Runtime T) (activation : Activation)
    (layer : DenseLayer T) : layer.feedForward run activation =
      layer.feedForwardWith run activation.ffActivation :=
  rfl

end Operation

/-- The extents of a layer and the shape information of its arrays, as the validation asks for them:
the bias has as many elements as there are outputs. -/
structure ForwardGeometry where
  batch : Nat
  nIn : Nat
  nOut : Nat
  params : ShapeInfo
  bias : ShapeInfo
  input : ShapeInfo
  output : ShapeInfo
  params_dense : DenseMatrix params nIn nOut
  bias_rank : bias.rank = 2
  bias_length : bias.length = nOut
  bias_honest : bias.HonestEws
  input_dense : DenseMatrix input batch nIn
  output_dense : DenseMatrix output batch nOut

namespace ForwardGeometry

/-- A layer of a geometry. -/
structure Fits {T : Type} (g : ForwardGeometry) (layer : DenseLayer T) : Prop where
  params : layer.params.shapeInfo = g.params
  bias : layer.bias.shapeInfo = g.bias
  input : layer.input.shapeInfo = g.input
  output : layer.output.shapeInfo = g.output

/-- Whatever the arrays hold, the pass completes with the activated sums. -/
def FeedsForward {T : Type} [CommRing T] [DecidableEq T] (g : ForwardGeometry) (run : Runtime T)
    (ffActivation : T → T) : Prop :=
  ∀ layer : DenseLayer T, g.Fits layer →
    ∃ output, layer.feedForwardWith run ffActivation = .ok { layer with output := output } ∧
      output.shapeInfo = g.output ∧ ∀ r < g.batch, ∀ c < g.nOut, output.element [r, c] =
        ffActivation (productAt layer.input layer.params g.nIn r c +
          layer.bias.element (decode g.bias.shape c))

/-- Several rows and columns and a row for a bias, or a single row and an activation that does not
depend on what it is given. -/
def FeedsWhere {T : Type} (g : ForwardGeometry) (ffActivation : T → T) : Prop :=
  (2 ≤ g.batch ∧ 2 ≤ g.nOut ∧ g.bias.shape = [1, g.nOut]) ∨
    (g.batch = 1 ∧ ∀ a b, ffActivation a = ffActivation b)

end ForwardGeometry

section Passes

variable {T : Type} [CommRing T] [DecidableEq T] {g : ForwardGeometry} {layer : DenseLayer T} {run : Runtime T}
  {ffActivation : T → T}

omit [CommRing T] [DecidableEq T] in
/-- The walk over the buffer activates every element. -/
theorem element_activate (ffActivation : T → T) {array : NDArray T} {m n r c : Nat}
    (h : DenseMatrix array.shapeInfo m n) (hr : r < m) (hc : c < n) :
    (activate ffActivation array).element [r, c] = ffActivation (array.element [r, c]) := by
  have hcells : ((List.range array.shapeInfo.length).map fun e : Nat => (e : Int)).Nodup :=
    List.nodup_range.map Int.ofNat_injective
  have hbuffer : ∀ e < m * n, (activate ffActivation array).buffer e =
      ffActivation (array.buffer e) := by
    intro e he
    refine Stores.storeAll_of_independent hcells (fun v _ w _ hne buffer b => ?_) array.buffer
      (List.mem_range.mpr (by rwa [length_of_shape h.shape_eq]))
    rw [Function.update_of_ne hne]
  rcases h.order_eq with horder | horder
  · have hcell := element_of_c h horder array.buffer hr hc
    refine (element_of_c h horder (activate ffActivation array).buffer hr hc).trans ?_
    have hlt : Blas.linearIndexC m n r c < m * n := Accumulation.mul_add_lt hr hc
    rw [hbuffer _ hlt]
    exact congrArg ffActivation hcell.symm
  · have hcell := element_of_f h horder array.buffer hr hc
    refine (element_of_f h horder (activate ffActivation array).buffer hr hc).trans ?_
    rw [hbuffer _ (Blas.linearIndexF_lt hr hc)]
    exact congrArg ffActivation hcell.symm

/-- A single row is activated as it is. -/
theorem feedForward_of_row (h : g.Fits layer) (hbatch : g.batch = 1) :
    layer.feedForwardWith run ffActivation =
      .ok { layer with output := activate ffActivation layer.output } := by
  have hrow : isRowVector layer.input.shapeInfo = true :=
    (isRowVector_iff (h.input ▸ g.input_dense.shape_eq)).mpr hbatch
  rw [DenseLayer.feedForwardWith, DenseLayer.multiplied, if_pos hrow]
  rfl

/-- Several rows are multiplied, and the bias is added to the product. -/
theorem multiplied_of_many (run : Runtime T) (h : g.Fits layer) (hbatch : g.batch ≠ 1) :
    ∃ product : NDArray T, product.shapeInfo = g.output ∧
      (∀ r < g.batch, ∀ c < g.nOut, product.element [r, c] =
        productAt layer.input layer.params g.nIn r c) ∧
      layer.multiplied run = product.addiRowVector run layer.bias := by
  have hrow : ¬ isRowVector layer.input.shapeInfo = true := fun hrow =>
    hbatch ((isRowVector_iff (h.input ▸ g.input_dense.shape_eq)).mp hrow)
  have hinput : DenseMatrix layer.input.shapeInfo g.batch g.nIn := h.input ▸ g.input_dense
  have hparams : DenseMatrix layer.params.shapeInfo g.nIn g.nOut := h.params ▸ g.params_dense
  have houtput : DenseMatrix layer.output.shapeInfo g.batch g.nOut := h.output ▸ g.output_dense
  obtain ⟨product, hproduct, hinfo, helement⟩ :=
    gemmResult_of_dense run hinput.factor hparams.factor houtput
  refine ⟨product, hinfo.trans h.output, helement, ?_⟩
  rw [DenseLayer.multiplied, if_neg hrow]
  show (NDArray.gemmResult run layer.input layer.params layer.output 1 0 >>= _) = _
  rw [hproduct]
  rfl

/-- Of several rows and columns the sums are activated. -/
theorem feedForward_of_rows (run : Runtime T) (ffActivation : T → T) (h : g.Fits layer)
    (hbatch : 2 ≤ g.batch) (hnOut : 2 ≤ g.nOut) (hbias : g.bias.shape = [1, g.nOut]) :
    ∃ output, layer.feedForwardWith run ffActivation = .ok { layer with output := output } ∧
      output.shapeInfo = g.output ∧ ∀ r < g.batch, ∀ c < g.nOut, output.element [r, c] =
        ffActivation (productAt layer.input layer.params g.nIn r c +
          layer.bias.element (decode g.bias.shape c)) := by
  obtain ⟨product, hinfo, helement, hmultiplied⟩ := multiplied_of_many run h (by omega)
  have hdense : DenseMatrix product.shapeInfo g.batch g.nOut := hinfo ▸ g.output_dense
  obtain ⟨buffer, hadded, hbuffer⟩ := addiRowVector_spec run hdense.shape_eq (by omega) hnOut
    hdense.honest hdense.cellsApart (h.bias ▸ hbias) (h.bias ▸ g.bias_honest)
  refine ⟨activate ffActivation ⟨product.shapeInfo, buffer⟩, ?_, hinfo, fun r hr c hc => ?_⟩
  · rw [DenseLayer.feedForwardWith, hmultiplied, hadded]
    rfl
  have hbox : InBox product.shapeInfo.shape [r, c] := hdense.inBox hr hc
  have hplace : decode g.bias.shape c = [0, c] := by
    simp only [hbias, decode, List.prod_cons, List.prod_nil, mul_one, Nat.div_eq_of_lt hc,
      Nat.mod_eq_of_lt hc, Nat.div_one]
  have hcell : (NDArray.mk product.shapeInfo buffer).element [r, c] =
      buffer (dot [r, c] product.shapeInfo.stride) := element_eq hbox
  have hactivated : (activate ffActivation ⟨product.shapeInfo, buffer⟩).element [r, c] =
      ffActivation ((NDArray.mk product.shapeInfo buffer).element [r, c]) :=
    element_activate ffActivation hdense hr hc
  rw [hactivated, hcell, hbuffer r hr c hc, ← element_eq hbox, helement r hr c hc, hplace]

/-- Several rows are refused unless the bias is a row of several elements. -/
theorem feedForward_of_no_row (run : Runtime T) (ffActivation : T → T) (h : g.Fits layer)
    (hbatch : g.batch ≠ 1) (hbias : ¬ (2 ≤ g.nOut ∧ g.bias.shape = [1, g.nOut])) :
    layer.feedForwardWith run ffActivation =
      .error (.thrown "NDArray::addiRowVector: wrong arguments !") := by
  obtain ⟨product, -, -, hmultiplied⟩ := multiplied_of_many run h hbatch
  obtain ⟨m, n, hshape⟩ := List.length_eq_two.mp g.bias_rank
  have hlength : m * n = g.nOut := by
    have hlength := g.bias_length
    rw [ShapeInfo.length, hshape] at hlength
    simpa using hlength
  have hpos := g.params_dense.columns_pos
  have hrow : ¬ Loops.isRowVectorArray layer.bias.shapeInfo = true := by
    intro hrow
    simp only [Loops.isRowVectorArray, isScalar, isRowVector, isVector, h.bias, hshape,
      decide_eq_true_eq] at hrow
    simp only [List.getD_cons_zero] at hrow
    obtain ⟨hscalar, -, rfl⟩ := hrow
    rw [Nat.one_mul] at hlength
    subst hlength
    exact hbias ⟨by omega, hshape⟩
  rw [DenseLayer.feedForwardWith, hmultiplied, NDArray.addiRowVector, dif_pos (Or.inr (Or.inl hrow))]
  rfl

/-- Zeros in a layer, but for a number in the output and another in the bias. -/
def ForwardGeometry.holding (g : ForwardGeometry) (a b : T) : DenseLayer T where
  params := ⟨g.params, fun _ => 0⟩
  bias := ⟨g.bias, fun _ => b⟩
  input := ⟨g.input, fun _ => 0⟩
  epsilon := ⟨g.output, fun _ => 0⟩
  output := ⟨g.output, fun _ => a⟩
  gradientW := ⟨g.params, fun _ => 0⟩
  gradientB := ⟨g.bias, fun _ => 0⟩

omit [DecidableEq T] in
theorem fits_holding (g : ForwardGeometry) (a b : T) : g.Fits (g.holding a b) :=
  ⟨rfl, rfl, rfl, rfl⟩

/-- The activation of a single row has to forget what it is given. -/
theorem constant_of_row (hright : g.FeedsForward run ffActivation) (hone : g.batch = 1) (a b : T) :
    ffActivation a = ffActivation b := by
  have hbatch := g.input_dense.rows_pos
  have hnOut := g.params_dense.columns_pos
  obtain ⟨output, hpass, -, helement⟩ := hright (g.holding a b) (fits_holding g a b)
  rw [feedForward_of_row (fits_holding g a b) hone, Except.ok.injEq, DenseLayer.mk.injEq] at hpass
  have hfirst := helement 0 hbatch 0 hnOut
  have hdense : DenseMatrix (g.holding a b).output.shapeInfo g.batch g.nOut := g.output_dense
  rw [← hpass.2.2.2.2.1, element_activate ffActivation hdense hbatch hnOut] at hfirst
  have hzero : productAt (g.holding a b).input (g.holding a b).params g.nIn 0 0 = 0 :=
    Finset.sum_eq_zero fun k _ => zero_mul _
  rw [hzero, zero_add] at hfirst
  exact hfirst

/-- The pass is right for several rows and columns and a row for a bias, and for a single row only
where nothing depends on the sums. -/
theorem feedsForward_iff (g : ForwardGeometry) (run : Runtime T) (ffActivation : T → T) :
    g.FeedsForward run ffActivation ↔ g.FeedsWhere ffActivation := by
  constructor
  · intro hright
    have hbatch := g.input_dense.rows_pos
    by_cases hone : g.batch = 1
    · exact Or.inr ⟨hone, constant_of_row hright hone⟩
    · refine Or.inl ⟨by omega, ?_⟩
      by_contra hrefused
      obtain ⟨output, hpass, -⟩ := hright (g.holding 0 0) (fits_holding g 0 0)
      cases (feedForward_of_no_row run ffActivation (fits_holding g 0 0) hone hrefused).symm.trans
        hpass
  · rintro (⟨hrows, hcolumns, hbias⟩ | ⟨hone, hconstant⟩) layer hfits
    · exact feedForward_of_rows run ffActivation hfits hrows hcolumns hbias
    · refine ⟨_, feedForward_of_row hfits hone, hfits.output, fun r hr c hc => ?_⟩
      have hdense : DenseMatrix layer.output.shapeInfo g.batch g.nOut :=
        hfits.output ▸ g.output_dense
      rw [element_activate ffActivation hdense hr hc]
      exact hconstant _ _

end Passes

/-- Layers of two inputs and two outputs. -/
def square (batch : Nat) (hbatch : 0 < batch) : ForwardGeometry where
  batch := batch
  nIn := 2
  nOut := 2
  params := columnsInfo 2 2
  bias := columnsInfo 1 2
  input := columnsInfo batch 2
  output := columnsInfo batch 2
  params_dense := activatedRow.params_dense
  bias_rank := rfl
  bias_length := by decide
  bias_honest := (denseMatrix_columnsInfo (by decide) (by decide)).honest
  input_dense := denseMatrix_columnsInfo hbatch (by decide)
  output_dense := denseMatrix_columnsInfo hbatch (by decide)

/-- A single row is not multiplied. -/
theorem not_feedsForward_always :
    ¬ ∀ (g : ForwardGeometry) (run : Runtime Rat) (ffActivation : Rat → Rat),
      g.bias.shape = [1, g.nOut] → 2 ≤ g.nOut → g.FeedsForward run ffActivation := by
  intro h
  have hright := h (square 1 Nat.one_pos) (oneThread fun _ => 0) id rfl (by decide)
  exact zero_ne_one (constant_of_row hright rfl 0 1)

end Layers
end LibND4J
