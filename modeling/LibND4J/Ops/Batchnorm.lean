import LibND4J.Arrays.ChannelStatistics
import LibND4J.Loops.BiasCorrection

/-!
# Batch normalisation

`batchnorm` subtracts the means of the channels from an array and divides by the square roots
of their variances.  While training it computes both from the array itself and adds the constant
`eps` to the variances, otherwise it takes given ones as they are.  Locked scalars are applied
only if the factor is not one and the summand not zero; the row `beta` is not added to a
matrix.

Main results:

- Theorem `normalised_spec`: the elements before they are scaled.
- Theorem `batchnorm_spec`: what the operation leaves.
- Theorem `normalisesBatch_iff`: for which arguments the operation is right.
-/

namespace LibND4J
namespace Ops

open Strided Shape Arrays Loops Values

theorem BatchnormBlock.atLeastTwo_two : Nat.AtLeastTwo 2 :=
  ⟨by decide⟩

attribute [local instance] BatchnormBlock.atLeastTwo_two

/-! ## The operation -/

/-- What the machine supplies: its runtime, the square root, and the memory that the first
statistics are built in. -/
structure BatchnormMachine (T : Type) [Field T] [LinearOrder T] where
  run : Runtime T
  sqrt : SquareRoot T
  startingIndex : SummaryStatsData T

/-- The variables of a block, its output and its arguments.  The output may be the input itself;
`mean` and `var` hold the running statistics while training. -/
structure BatchnormBlock (T : Type) where
  x : NDArray T
  mean : NDArray T
  var : NDArray T
  gamma : NDArray T
  beta : NDArray T
  activations : NDArray T
  eps : T
  g : T
  b : T
  decay : T
  training : Bool
  isLockGammaBeta : Bool
  isMinibatch : Bool

/-- The arrays that the operation leaves. -/
structure BatchnormResult (T : Type) where
  activations : NDArray T
  globalMean : NDArray T
  globalVar : NDArray T

section Operation

variable {T : Type} [Field T]

/-- The constructor from shape information.  The array is written afterwards, at all its places; it
has as many cells as places. -/
def zerosOf (info : ShapeInfo) : Except Failure (NDArray T) :=
  if LiesInLength info then .ok ⟨info, fun _ => 0⟩ else .error .undefined

/-- `operator=`: arrays of one layout are copied, otherwise the target is replaced. -/
def assignOperator (run : Runtime T) (array other : NDArray T) : NDArray T :=
  if array.shapeInfo = other.shapeInfo then
    ⟨array.shapeInfo, fun i =>
      if 0 ≤ i ∧ i < array.shapeInfo.length then other.buffer i else array.buffer i⟩
  else other.copy run

/-- The images that the loops read. -/
def source (run : Runtime T) (x : NDArray T) : Except Failure (NDArray T) :=
  if strideDescendingCAscendingF x.shapeInfo then .ok x else x.dup run x.shapeInfo.order

/-- `xHat`. -/
def normalised (run : Runtime T) (x mean std : NDArray T) : Except Failure (NDArray T) := do
  let xMu ← zerosOf x.shapeInfo
  let xHat ← zerosOf x.shapeInfo
  if x.shapeInfo.rank = 2 then do
    let xMu ← x.rowVectorTo subRowVector run mean xMu
    xMu.rowVectorTo divRowVector run std xHat
  else if x.shapeInfo.rank = 4 then do
    let x ← source run x
    let xMu ← x.broadcastChannelsTo (fun d1 d2 => d1 - d2) run mean xMu
    xMu.broadcastChannelsTo (fun d1 d2 => d1 / d2) run std xHat
  else
    .error (.thrown ("Graph operation batchnorm: the layer prior to BatchNorm in the " ++
      "configuration is not currently supported !"))

/-- The statistics that become the running ones. -/
def runningStatistics (run : Runtime T) (block : BatchnormBlock T) (mean var : NDArray T) :
    Except Failure (NDArray T × NDArray T) :=
  if block.training then
    if block.isMinibatch then do
      let globalMean ← block.mean.scalarInto (fun d1 d2 => d1 * d2) run block.decay
      let mean ← mean.scalarInto (fun d1 d2 => d1 * d2) run (1 - block.decay)
      let globalMean ← globalMean.pairwise (fun d1 d2 => d1 + d2) run mean
      let globalVar ← block.var.scalarInto (fun d1 d2 => d1 * d2) run block.decay
      let var ← var.scalarInto (fun d1 d2 => d1 * d2) run (1 - block.decay)
      let globalVar ← globalVar.pairwise (fun d1 d2 => d1 + d2) run var
      return (globalMean, globalVar)
    else do
      let globalMean ← block.mean.assign run mean
      let globalVar ← block.var.assign run var
      return (globalMean, globalVar)
  else return (block.mean, block.var)

variable [LinearOrder T]

/-- The normalised elements are scaled and shifted, by the scalars if they are locked. -/
def scaledAndShifted (run : Runtime T) (block : BatchnormBlock T) (xHat : NDArray T) :
    Except Failure (NDArray T) :=
  if block.isLockGammaBeta then
    if block.g ≠ 1 ∧ block.b ≠ 0 then do
      let activations ←
        xHat.scalarTo (fun d1 d2 => d1 * d2) run block.g block.activations
      activations.scalarInto (fun d1 d2 => d1 + d2) run block.b
    else return assignOperator run block.activations xHat
  else if xHat.shapeInfo.rank = 2 then
    xHat.rowVectorTo mulRowVector run block.gamma block.activations
  else do
    let activations ←
      xHat.broadcastChannelsTo (fun d1 d2 => d1 * d2) run block.gamma block.activations
    activations.broadcastChannels (fun d1 d2 => d1 + d2) run block.beta

variable [FloorRing T]

/-- The dimensions that the statistics are taken along. -/
def statisticDimensions (rank : Nat) : Except Failure (List Int) :=
  if rank = 2 then .ok [0]
  else if rank = 4 then .ok [0, 2, 3]
  else .error (.thrown ("Graph operation batchnorm: the rank of input array must be equal to 2 " ++
    "or 4 !"))

/-- The means and the variances that the input is normalised with. -/
def batchStatistics (machine : BatchnormMachine T) (block : BatchnormBlock T) :
    Except Failure (NDArray T × NDArray T) :=
  if block.training then do
    let dimensions ← statisticDimensions block.x.shapeInfo.rank
    let mean ← block.x.meanAlong machine.run dimensions
    let var ← block.x.varianceAlong (SummaryStatsData.skewness machine.sqrt) machine.startingIndex
      false dimensions
    let var ← var.scalarInto (fun d1 d2 => d1 + d2) machine.run block.eps
    return (mean, var)
  else return (block.mean, block.var)

def batchnorm (machine : BatchnormMachine T) (block : BatchnormBlock T) :
    Except Failure (BatchnormResult T) := do
  let (mean, var) ← batchStatistics machine block
  let std ← zerosOf var.shapeInfo
  let std ← var.transformTo machine.sqrt.root machine.run std
  let xHat ← normalised machine.run block.x mean std
  let activations ← scaledAndShifted machine.run block xHat
  let (globalMean, globalVar) ← runningStatistics machine.run block mean var
  return ⟨activations, globalMean, globalVar⟩

end Operation

/-! ## Right results -/

namespace BatchnormBlock

variable {T : Type}

/-- The number of channels. -/
def channels (block : BatchnormBlock T) : Nat :=
  block.x.shapeInfo.shape.getD 1 0

/-- A block with other contents of its arrays. -/
def holding (block : BatchnormBlock T) (x mean var gamma beta activations : Int → T) :
    BatchnormBlock T :=
  { block with
    x := ⟨block.x.shapeInfo, x⟩
    mean := ⟨block.mean.shapeInfo, mean⟩
    var := ⟨block.var.shapeInfo, var⟩
    gamma := ⟨block.gamma.shapeInfo, gamma⟩
    beta := ⟨block.beta.shapeInfo, beta⟩
    activations := ⟨block.activations.shapeInfo, activations⟩ }

variable [Field T]

/-- The mean of a channel: while training that of the input, otherwise a given one. -/
def channelMean (block : BatchnormBlock T) (k : Nat) : T :=
  if block.training then Moments.mean (block.x.channelValues k) else block.mean.element [0, k]

def channelVariance (block : BatchnormBlock T) (k : Nat) : T :=
  if block.training then Moments.variance (block.x.channelValues k) else block.var.element [0, k]

/-- The normalised element at a place. -/
def quotient (block : BatchnormBlock T) (sqrt : T → T) (c : List Nat) : T :=
  (block.x.element c - block.channelMean (channelOf c)) /
    sqrt (block.channelVariance (channelOf c) + block.eps)

/-- The factor for a channel. -/
def scale (block : BatchnormBlock T) (k : Nat) : T :=
  if block.isLockGammaBeta then block.g else block.gamma.element [0, k]

/-- The summand for a channel. -/
def shift (block : BatchnormBlock T) (k : Nat) : T :=
  if block.isLockGammaBeta then block.b else block.beta.element [0, k]

end BatchnormBlock

/-- The activations are the normalised elements, scaled and shifted, and the running statistics
decay towards those of the batch. -/
structure StoresNormalised {T : Type} [Field T] (sqrt : T → T) (block : BatchnormBlock T)
    (out : BatchnormResult T) : Prop where
  activations : ∀ c, InBox block.x.shapeInfo.shape c → out.activations.element c =
    block.scale (channelOf c) * block.quotient sqrt c + block.shift (channelOf c)
  globalMean : block.training → block.isMinibatch → ∀ k < block.channels,
    out.globalMean.element [0, k] = block.decay * block.mean.element [0, k] +
      (1 - block.decay) * Moments.mean (block.x.channelValues k)
  globalVar : block.training → block.isMinibatch → ∀ k < block.channels,
    out.globalVar.element [0, k] = block.decay * block.var.element [0, k] +
      (1 - block.decay) * Moments.variance (block.x.channelValues k)

/-- For all contents of its arrays the operation is right. -/
def NormalisesBatch {T : Type} [Field T] [LinearOrder T] [FloorRing T]
    (machine : BatchnormMachine T) (block : BatchnormBlock T) : Prop :=
  ∀ x mean var gamma beta activations : Int → T, ∃ out,
    batchnorm machine (block.holding x mean var gamma beta activations) = .ok out ∧
      StoresNormalised machine.sqrt.root (block.holding x mean var gamma beta activations) out

/-- Layouts of an input.  The places of a matrix are its first cells, those of images lie one after
the other in their own order. -/
structure InputLayout (info : ShapeInfo) : Prop where
  rank_eq : info.rank = 2 ∨ info.rank = 4
  fills : FillsBuffer info
  honest : info.HonestEws
  offset_eq : info.offset = 0
  order_eq : info.order = 'c' ∨ info.order = 'f'
  consecutive : info.rank = 4 → Consecutive info.isFOrder info

/-- Layouts of a block.  Where rows are applied to images, the places of the output are those of the
input. -/
structure BatchLayouts {T : Type} (settings : Settings) (block : BatchnormBlock T) : Prop where
  input : InputLayout block.x.shapeInfo
  output_shape : block.activations.shapeInfo.shape = block.x.shapeInfo.shape
  output_honest : block.activations.shapeInfo.HonestEws
  output_cells : CellsApart block.activations.shapeInfo
  output_offset : block.activations.shapeInfo.offset = 0
  output_same : block.x.shapeInfo.rank = 4 → block.isLockGammaBeta = false →
    ∀ c, InBox block.x.shapeInfo.shape c → Strided.dot c block.activations.shapeInfo.stride =
      Strided.dot c block.x.shapeInfo.stride
  mean : OwnRow block.mean.shapeInfo block.channels
  var : OwnRow block.var.shapeInfo block.channels
  var_lies : block.training = false → LiesInLength block.var.shapeInfo
  gamma : ChannelRow block.gamma.shapeInfo block.channels
  beta : ChannelRow block.beta.shapeInfo block.channels
  span : SpanFits settings block.channels

/-- The contents of the arrays are not part of their layouts. -/
theorem BatchLayouts.holding {T : Type} {settings : Settings} {block : BatchnormBlock T}
    (h : BatchLayouts settings block) (x mean var gamma beta activations : Int → T) :
    BatchLayouts settings (block.holding x mean var gamma beta activations) :=
  ⟨h.input, h.output_shape, h.output_honest, h.output_cells, h.output_offset, h.output_same, h.mean,
    h.var, h.var_lies, h.gamma, h.beta, h.span⟩

/-- A matrix has several channels.  Locked scalars are both applied or both without effect, rows
are applied to images, and given variances are used without a constant, except where what is left
out makes no difference.  What is added to the variances does not reach the running ones. -/
def BatchSupported {T : Type} [Field T] [LinearOrder T] (block : BatchnormBlock T) : Prop :=
  (block.x.shapeInfo.rank = 2 → block.channels ≠ 1) ∧
  (if block.isLockGammaBeta then
    if block.g ≠ 1 ∧ block.b ≠ 0 then block.g = 0 ∨ block.training ∨ block.eps = 0
    else block.b = 0 ∧ (block.g = 1 ∧ (block.training ∨ block.eps = 0) ∨
      block.training ∧ block.x.shapeInfo.length = block.channels)
  else block.x.shapeInfo.rank = 4 ∧ (block.training ∨ block.eps = 0)) ∧
  (block.training → block.isMinibatch →
    block.decay = 1 ∨ block.eps = 0 ∧ ¬ TakenWhole block.x.shapeInfo)

/-! ## The normalised elements -/

namespace InputLayout

variable {info : ShapeInfo} (h : InputLayout info)

include h

theorem two_le : 1 < info.rank := by
  have hrank := h.rank_eq
  omega

theorem rank_le : info.rank ≤ maxDimension := by
  rcases h.rank_eq with hrank | hrank
  · rw [hrank]
    decide
  · rw [hrank]
    decide

theorem channels_pos : 0 < info.shape.getD 1 0 :=
  Arrays.channels_pos h.two_le h.fills.positive

theorem nonneg (c : List Nat) (hc : InBox info.shape c) : 0 ≤ Strided.dot c info.stride :=
  (h.fills.lies c hc).1

theorem shape_ne_nil : info.shape ≠ [] :=
  List.ne_nil_of_length_pos (Nat.zero_lt_of_lt h.two_le)

end InputLayout

section Normalised

variable {T : Type} [Field T] {run : Runtime T} {x mean std : NDArray T}

omit [Field T] in
/-- Images that are copied keep their elements and their cells. -/
theorem source_spec (run : Runtime T) (h : InputLayout x.shapeInfo)
    (hrank : x.shapeInfo.rank = 4) :
    ∃ images, source run x = .ok images ∧
      images.shapeInfo.shape = x.shapeInfo.shape ∧ images.shapeInfo.HonestEws ∧
      ∀ c, InBox x.shapeInfo.shape c →
        Strided.dot c images.shapeInfo.stride = Strided.dot c x.shapeInfo.stride ∧
          images.element c = x.element c := by
  rw [source]
  by_cases hstrides : strideDescendingCAscendingF x.shapeInfo = true
  · rw [if_pos hstrides]
    exact ⟨x, rfl, rfl, h.honest, fun c _ => ⟨rfl, rfl⟩⟩
  · rw [if_neg hstrides]
    obtain ⟨buffer, hdup, hbuffer⟩ := dup_spec run h.order_eq h.shape_ne_nil h.fills.positive
      h.honest
    have hflag : x.shapeInfo.isFOrder = decide (x.shapeInfo.order = 'f') := isFOrder_eq rfl
    refine ⟨_, hdup, shape_newShapeInfo _ _, honestEws_withEws h.order_eq _, fun c hc => ?_⟩
    obtain ⟨k, hk, rfl⟩ :=
      (bijOn_coordinateOf (decide (x.shapeInfo.order = 'f')) h.fills.positive).surjOn hc
    have hcell : Strided.dot (coordinateOf (decide (x.shapeInfo.order = 'f')) x.shapeInfo.shape k)
        (withEws (newShapeInfo x.shapeInfo.order x.shapeInfo.shape) 1).stride = k := by
      have hdense := (dense_newShapeInfo h.order_eq x.shapeInfo.shape).dot_eq (k := k)
        (by rwa [ShapeInfo.length, shape_newShapeInfo])
      rwa [shape_newShapeInfo] at hdense
    have hown := (h.consecutive hrank).dot_eq hk
    rw [hflag] at hown
    refine ⟨hcell.trans hown.symm, ?_⟩
    have helement : (NDArray.mk (withEws (newShapeInfo x.shapeInfo.order x.shapeInfo.shape) 1)
        buffer).element (coordinateOf (decide (x.shapeInfo.order = 'f')) x.shapeInfo.shape k) =
        buffer (Strided.dot (coordinateOf (decide (x.shapeInfo.order = 'f')) x.shapeInfo.shape k)
          (withEws (newShapeInfo x.shapeInfo.order x.shapeInfo.shape) 1).stride) :=
      element_eq ((shape_newShapeInfo _ _).symm ▸ hc)
    rw [helement, hcell, hbuffer k hk]

/-- The elements before they are scaled. -/
theorem normalised_spec (run : Runtime T) (h : InputLayout x.shapeInfo)
    (hmean : ChannelRow mean.shapeInfo (x.shapeInfo.shape.getD 1 0))
    (hstd : ChannelRow std.shapeInfo (x.shapeInfo.shape.getD 1 0))
    (hmany : x.shapeInfo.rank = 2 → x.shapeInfo.shape.getD 1 0 ≠ 1) :
    ∃ buffer, normalised run x mean std = .ok ⟨x.shapeInfo, buffer⟩ ∧
      ∀ c, InBox x.shapeInfo.shape c → (NDArray.mk x.shapeInfo buffer).element c =
        (x.element c - mean.element [0, channelOf c]) / std.element [0, channelOf c] := by
  have hzeros : zerosOf (T := T) x.shapeInfo = .ok ⟨x.shapeInfo, fun _ => 0⟩ :=
    if_pos h.fills.lies
  rw [normalised]
  simp only [hzeros, bind, Except.bind]
  rcases h.rank_eq with hrank | hrank
  · rw [if_pos hrank]
    obtain ⟨M, N, hshape⟩ := List.length_eq_two.mp hrank
    have hM : 0 < M := h.fills.positive M (hshape ▸ List.mem_cons_self)
    have hchannels : x.shapeInfo.shape.getD 1 0 = N := by rw [hshape]; rfl
    have hN : 2 ≤ N := by
      have hpos := h.channels_pos
      have hne := hmany hrank
      omega
    rw [hchannels] at hmean hstd
    obtain ⟨xMu, hsub, hdiff⟩ := @rowVectorTo_spec T run x mean ⟨x.shapeInfo, fun _ => 0⟩ _ 1
      "NDArray::subRowVector: wrong arguments !" _ rfl M N hshape hM hN h.honest
      h.fills.cellsApart hshape hmean
    obtain ⟨xHat, hdiv, hquot⟩ := @rowVectorTo_spec T run ⟨x.shapeInfo, xMu⟩ std
      ⟨x.shapeInfo, fun _ => 0⟩ _ 3 "NDArray::divRowVector: wrong arguments !" _ rfl M N hshape hM
      hN h.honest h.fills.cellsApart hshape hstd
    refine ⟨xHat, ?_, fun c hc => ?_⟩
    · have hsub' : x.rowVectorTo subRowVector run mean ⟨x.shapeInfo, fun _ => 0⟩ =
          .ok ⟨x.shapeInfo, xMu⟩ := hsub
      rw [hsub']
      exact hdiv
    · rw [hquot.element_of_cells rfl (fun _ _ => rfl) hc,
        hdiff.element_of_cells rfl (fun _ _ => rfl) hc]
  · rw [if_neg (by omega), if_pos hrank]
    obtain ⟨images, himages, hshape, hhonest, hsame⟩ := source_spec run h hrank
    have hpos : images.shapeInfo.Positive := by
      rw [ShapeInfo.Positive, hshape]
      exact h.fills.positive
    have himagesRank : images.shapeInfo.rank = x.shapeInfo.rank := by
      rw [ShapeInfo.rank, hshape, ShapeInfo.rank]
    have hcells : CellsApart images.shapeInfo := by
      intro c c' hc hc' heq
      rw [hshape] at hc hc'
      rw [(hsame c hc).1, (hsame c' hc').1] at heq
      exact h.fills.cellsApart c c' hc hc' heq
    obtain ⟨xMu, hsub, hdiff⟩ := broadcastChannelsTo_spec (fun d1 d2 => d1 - d2) run
      ⟨x.shapeInfo, fun _ => 0⟩ (himagesRank ▸ h.two_le) (himagesRank ▸ h.rank_le) hpos hhonest
      hcells (hshape.symm ▸ hmean)
    obtain ⟨xHat, hdiv, hquot⟩ := @broadcastChannelsTo_spec T ⟨x.shapeInfo, xMu⟩ std
      (fun d1 d2 => d1 / d2) run ⟨x.shapeInfo, fun _ => 0⟩ h.two_le h.rank_le h.fills.positive
      h.honest h.fills.cellsApart hstd
    refine ⟨xHat, ?_, fun c hc => ?_⟩
    · simp only [himages, hsub]
      exact hdiv
    · rw [hquot.element_of_cells rfl (fun _ _ => rfl) hc,
        hdiff.element_of_cells hshape.symm (fun d hd => ((hsame d (hshape ▸ hd)).1).symm)
          (hshape.symm ▸ hc), (hsame c hc).2]

/-- A matrix of one column is refused. -/
theorem normalised_of_one (run : Runtime T) (h : InputLayout x.shapeInfo)
    (hrank : x.shapeInfo.rank = 2) (hmean : ChannelRow mean.shapeInfo 1) :
    normalised run x mean std =
      .error (.thrown "NDArray::subRowVector: wrong arguments !") := by
  have hzeros : zerosOf (T := T) x.shapeInfo = .ok ⟨x.shapeInfo, fun _ => 0⟩ :=
    if_pos h.fills.lies
  have hrefused : x.rowVectorTo subRowVector run mean ⟨x.shapeInfo, fun _ => 0⟩ =
      .error (.thrown "NDArray::subRowVector: wrong arguments !") :=
    rowVectorTo_of_one 1 _ hmean
  rw [normalised]
  simp only [hzeros, bind, Except.bind, if_pos hrank, hrefused]

end Normalised

/-! ## Scaling -/

section Scaled

variable {T : Type} [Field T] {run : Runtime T} {block : BatchnormBlock T} {xHat : NDArray T}

omit [Field T] in
/-- A copied array has the elements of its source. -/
theorem element_assignOperator (run : Runtime T) (array : NDArray T)
    (hlies : LiesInLength xHat.shapeInfo) {c : List Nat} (hc : InBox xHat.shapeInfo.shape c) :
    (assignOperator run array xHat).element c = xHat.element c := by
  have hcell := hlies c hc
  rw [element_eq hc, assignOperator]
  by_cases hsame : array.shapeInfo = xHat.shapeInfo
  · rw [if_pos hsame, @element_eq T ⟨array.shapeInfo, _⟩ c (hsame ▸ hc)]
    simp only [hsame, if_pos hcell]
  · rw [if_neg hsame]
    have helement : (xHat.copy run).element c =
        xHat.copyBuffer run (Strided.dot c xHat.shapeInfo.stride) := element_eq hc
    rw [helement, NDArray.copyBuffer, if_pos hcell]

variable [LinearOrder T]

variable (h : BatchLayouts run.settings block)

include h

/-- Locked scalars are applied if the factor is not one and the summand is not zero. -/
theorem scaledAndShifted_locked (hlocked : block.isLockGammaBeta = true)
    (hinfo : xHat.shapeInfo = block.x.shapeInfo) :
    ∃ out, scaledAndShifted run block xHat = .ok out ∧
      ∀ c, InBox block.x.shapeInfo.shape c → out.element c =
        if block.g ≠ 1 ∧ block.b ≠ 0 then xHat.element c * block.g + block.b
        else xHat.element c := by
  have hpos : xHat.shapeInfo.Positive := hinfo ▸ h.input.fills.positive
  have hshape : block.activations.shapeInfo.shape = xHat.shapeInfo.shape := by
    rw [hinfo]
    exact h.output_shape
  rw [scaledAndShifted, if_pos hlocked]
  by_cases happlied : block.g ≠ 1 ∧ block.b ≠ 0
  · obtain ⟨product, hproduct, hscaled⟩ := scalarTo_spec (fun d1 d2 => d1 * d2) run block.g hshape
      hpos (hinfo ▸ h.input.honest) h.output_honest h.output_cells (hinfo ▸ h.input.offset_eq)
      h.output_offset
    have hproductPos : block.activations.shapeInfo.Positive := by
      rw [ShapeInfo.Positive, hshape]
      exact hpos
    obtain ⟨sum, hsum, hshifted⟩ := @scalarInto_spec T ⟨block.activations.shapeInfo, product⟩
      (fun d1 d2 => d1 + d2) run block.b hproductPos h.output_honest h.output_cells h.output_offset
    refine ⟨⟨block.activations.shapeInfo, sum⟩, ?_, fun c hc => ?_⟩
    · rw [if_pos happlied]
      simp only [bind, Except.bind, hproduct]
      exact hsum
    · rw [if_pos happlied, hshifted c (h.output_shape.symm ▸ hc), hscaled c (hinfo.symm ▸ hc)]
  · refine ⟨_, by rw [if_neg happlied]; rfl, fun c hc => ?_⟩
    rw [if_neg happlied]
    exact element_assignOperator run block.activations (hinfo ▸ h.input.fills.lies)
      (hinfo.symm ▸ hc)

/-- Images are scaled and shifted by the rows. -/
theorem scaledAndShifted_images (hlocked : block.isLockGammaBeta = false)
    (hrank : block.x.shapeInfo.rank = 4) (hinfo : xHat.shapeInfo = block.x.shapeInfo) :
    ∃ out, scaledAndShifted run block xHat = .ok out ∧
      ∀ c, InBox block.x.shapeInfo.shape c → out.element c =
        xHat.element c * block.gamma.element [0, channelOf c] +
          block.beta.element [0, channelOf c] := by
  obtain ⟨_, buffer⟩ := xHat
  subst hinfo
  have hpos : block.activations.shapeInfo.Positive := by
    rw [ShapeInfo.Positive, h.output_shape]
    exact h.input.fills.positive
  have houtRank : block.activations.shapeInfo.rank = block.x.shapeInfo.rank := by
    rw [ShapeInfo.rank, h.output_shape, ShapeInfo.rank]
  obtain ⟨product, hproduct, hscaled⟩ := @broadcastChannelsTo_spec T ⟨block.x.shapeInfo, buffer⟩
    block.gamma (fun d1 d2 => d1 * d2) run block.activations h.input.two_le h.input.rank_le
    h.input.fills.positive h.input.honest h.input.fills.cellsApart h.gamma
  obtain ⟨sum, hsum, hshifted⟩ := @broadcastChannels_spec T
    ⟨block.activations.shapeInfo, product⟩ block.beta (fun d1 d2 => d1 + d2) run
    (houtRank ▸ h.input.two_le) (houtRank ▸ h.input.rank_le) hpos h.output_honest h.output_cells
    (h.output_shape.symm ▸ h.beta)
  refine ⟨⟨block.activations.shapeInfo, sum⟩, ?_, fun c hc => ?_⟩
  · rw [scaledAndShifted, if_neg (by rw [hlocked]; exact Bool.false_ne_true),
      if_neg (show ¬ block.x.shapeInfo.rank = 2 by omega)]
    simp only [bind, Except.bind, hproduct]
    exact hsum
  · rw [hshifted.element_of_cells rfl (fun _ _ => rfl) (h.output_shape.symm ▸ hc),
      hscaled.element_of_cells h.output_shape (h.output_same hrank hlocked) hc]

/-- A matrix is scaled by the row, and not shifted. -/
theorem scaledAndShifted_matrix (hlocked : block.isLockGammaBeta = false)
    (hrank : block.x.shapeInfo.rank = 2) (hmany : block.channels ≠ 1)
    (hinfo : xHat.shapeInfo = block.x.shapeInfo) :
    ∃ buffer, scaledAndShifted run block xHat = .ok ⟨block.activations.shapeInfo, buffer⟩ ∧
      CombinesChannels (fun d1 d2 => d1 * d2) xHat block.gamma block.activations.buffer buffer := by
  obtain ⟨M, N, hshape⟩ := List.length_eq_two.mp hrank
  have hM : 0 < M := h.input.fills.positive M (hshape ▸ List.mem_cons_self)
  have hchannels : block.channels = N := by rw [BatchnormBlock.channels, hshape]; rfl
  have hN : 2 ≤ N := by
    have hpos : 0 < block.channels := h.input.channels_pos
    omega
  rw [scaledAndShifted, if_neg (by rw [hlocked]; exact Bool.false_ne_true), if_pos (hinfo ▸ hrank)]
  exact rowVectorTo_spec rfl (hinfo ▸ hshape) hM hN (hinfo ▸ h.input.honest)
    (hinfo ▸ h.input.fills.cellsApart) (h.output_shape.trans hshape) (hchannels ▸ h.gamma)

end Scaled

/-! ## Statistics -/

section Statistics

variable {T : Type} [Field T] {run : Runtime T} {mean var row other : NDArray T} {K : Nat}

omit [Field T] in
theorem scalarInto_row (op : T → T → T) (run : Runtime T) (scalar : T) (h : OwnRow row.shapeInfo K)
    (hK : 0 < K) :
    ∃ buffer, row.scalarInto op run scalar = .ok ⟨row.shapeInfo, buffer⟩ ∧
      ∀ k < K, (NDArray.mk row.shapeInfo buffer).element [0, k] =
        op (row.element [0, k]) scalar := by
  obtain ⟨buffer, hrun, hvalue⟩ := scalarInto_spec op run scalar (h.positive hK) h.honest
    h.cellsApart h.offset_eq
  exact ⟨buffer, hrun, fun k hk => hvalue _ (h.inBox hk)⟩

omit [Field T] in
/-- A copy of a row. -/
theorem exists_assign (run : Runtime T) (h : OwnRow row.shapeInfo K)
    (hother : OwnRow other.shapeInfo K) (hK : 0 < K) (hspan : SpanFits run.settings K) :
    ∃ copy, row.assign run other = .ok copy := by
  have hlength : other.shapeInfo.length = row.shapeInfo.length := by
    rw [hother.length_eq, h.length_eq]
  have hsame : row.shapeInfo.shape = other.shapeInfo.shape := by rw [h.shape_eq, hother.shape_eq]
  have hne : row.shapeInfo.shape ≠ [] := by
    rw [h.shape_eq]
    exact List.cons_ne_nil 1 [K]
  obtain ⟨work, hwork, -⟩ := exec_visits run.settings hsame rfl hne (h.positive hK) h.honest
    hother.honest h.honest (by rw [h.length_eq]; exact hspan) (le_refl _) 0 0 0
  rw [NDArray.assign, if_neg (not_not.mpr hlength)]
  split
  · exact ⟨_, rfl⟩
  · rw [hwork]
    exact ⟨_, rfl⟩

/-- A running statistic moves towards that of a batch. -/
theorem decays (run : Runtime T) (decay : T) (h : OwnRow row.shapeInfo K)
    (hother : OwnRow other.shapeInfo K) (hK : 0 < K) (hspan : SpanFits run.settings K) :
    ∃ old new result, row.scalarInto (fun d1 d2 => d1 * d2) run decay = .ok old ∧
      other.scalarInto (fun d1 d2 => d1 * d2) run (1 - decay) = .ok new ∧
      old.pairwise (fun d1 d2 => d1 + d2) run new = .ok result ∧
      ∀ k < K, result.element [0, k] =
        decay * row.element [0, k] + (1 - decay) * other.element [0, k] := by
  obtain ⟨old, hold, hkept⟩ := scalarInto_row (fun d1 d2 => d1 * d2) run decay h hK
  obtain ⟨new, hnew, hmoved⟩ := scalarInto_row (fun d1 d2 => d1 * d2) run (1 - decay) hother hK
  have hne : row.shapeInfo.shape ≠ [] := by
    rw [h.shape_eq]
    exact List.cons_ne_nil 1 [K]
  obtain ⟨sum, hsum, hvalue⟩ := pairwise_elements (fun d1 d2 => d1 + d2) run ⟨row.shapeInfo, old⟩
    ⟨other.shapeInfo, new⟩ (h.positive hK) h.honest h.cellsApart hother.honest
    (hother.shape_eq.trans h.shape_eq.symm) hne (by rw [h.length_eq]; exact hspan)
  refine ⟨_, _, _, hold, hnew, hsum, fun k hk => ?_⟩
  rw [hvalue _ (h.inBox hk), hkept k hk, hmoved k hk, mul_comm, mul_comm (other.element [0, k])]

/-- The square roots of a row. -/
theorem exists_std (run : Runtime T) (sqrt : T → T) (h : OwnRow var.shapeInfo K)
    (hlies : LiesInLength var.shapeInfo) (hK : 0 < K) (hspan : SpanFits run.settings K) :
    ∃ std, zerosOf var.shapeInfo >>= var.transformTo sqrt run = .ok std ∧
      ChannelRow std.shapeInfo K ∧ ∀ k < K, std.element [0, k] = sqrt (var.element [0, k]) := by
  obtain ⟨buffer, hrun, hvalue⟩ := @transformTo_spec T var ⟨var.shapeInfo, fun _ => 0⟩ sqrt run rfl
    (h.positive hK) h.honest h.honest h.cellsApart (by rw [h.length_eq]; exact hspan)
  refine ⟨⟨var.shapeInfo, buffer⟩, ?_, h.toChannelRow, fun k hk => hvalue _ (h.inBox hk)⟩
  rw [zerosOf, if_pos hlies]
  exact hrun

variable {block : BatchnormBlock T}

/-- The running statistics are returned, and in a minibatch they move towards the given ones. -/
theorem runningStatistics_spec (hK : 0 < K) (hspan : SpanFits run.settings K)
    (hglobalMean : OwnRow block.mean.shapeInfo K) (hglobalVar : OwnRow block.var.shapeInfo K)
    (hmean : OwnRow mean.shapeInfo K) (hvar : OwnRow var.shapeInfo K) :
    ∃ globalMean globalVar, runningStatistics run block mean var = .ok (globalMean, globalVar) ∧
      (block.training → block.isMinibatch → ∀ k < K,
        globalMean.element [0, k] = block.decay * block.mean.element [0, k] +
          (1 - block.decay) * mean.element [0, k] ∧
        globalVar.element [0, k] = block.decay * block.var.element [0, k] +
          (1 - block.decay) * var.element [0, k]) := by
  rw [runningStatistics]
  by_cases htraining : block.training = true
  · by_cases hminibatch : block.isMinibatch = true
    · obtain ⟨old, new, globalMean, hold, hnew, hsum, hvalue⟩ :=
        decays run block.decay hglobalMean hmean hK hspan
      obtain ⟨old', new', globalVar, hold', hnew', hsum', hvalue'⟩ :=
        decays run block.decay hglobalVar hvar hK hspan
      refine ⟨globalMean, globalVar, ?_, fun _ _ k hk => ⟨hvalue k hk, hvalue' k hk⟩⟩
      simp only [if_pos htraining, if_pos hminibatch, bind, Except.bind, hold, hnew, hsum, hold',
        hnew', hsum']
      rfl
    · obtain ⟨globalMean, hglobalMean'⟩ := exists_assign run hglobalMean hmean hK hspan
      obtain ⟨globalVar, hglobalVar'⟩ := exists_assign run hglobalVar hvar hK hspan
      refine ⟨globalMean, globalVar, ?_, fun _ hmini => absurd hmini hminibatch⟩
      simp only [if_pos htraining, if_neg hminibatch, bind, Except.bind, hglobalMean',
        hglobalVar']
      rfl
  · exact ⟨block.mean, block.var, by rw [if_neg htraining]; rfl,
      fun htrain => absurd htrain htraining⟩

variable [LinearOrder T] [FloorRing T]

/-- The variance that the operation divides by: while training the constant has been added to that
of the channel. -/
def BatchnormBlock.usedVariance (block : BatchnormBlock T) (k : Nat) : T :=
  if block.training then
    (if TakenWhole block.x.shapeInfo then if k = 0 then Moments.variance block.x.values else 0
      else Moments.variance (block.x.channelValues k)) + block.eps
  else block.var.element [0, k]

/-- The quotient that the operation computes. -/
def BatchnormBlock.usedQuotient (block : BatchnormBlock T) (sqrt : T → T) (c : List Nat) : T :=
  (block.x.element c - block.channelMean (channelOf c)) /
    sqrt (block.usedVariance (channelOf c))

variable [IsStrictOrderedRing T]

omit [Field T] [LinearOrder T] [FloorRing T] [IsStrictOrderedRing T] in
/-- All axes but that of the channels. -/
theorem exists_batchAxes {info : ShapeInfo} (h : InputLayout info) :
    ∃ dims, ∃ dimension : Dimensions info.rank, BatchAxes info dims dimension ∧
      statisticDimensions info.rank = .ok dims := by
  rcases h.rank_eq with hrank | hrank
  · exact ⟨_, _, batchAxes_matrix hrank, by rw [statisticDimensions, if_pos hrank]⟩
  · refine ⟨_, _, batchAxes_images hrank, ?_⟩
    rw [statisticDimensions, if_neg (by omega), if_pos hrank]

variable (machine : BatchnormMachine T)

include machine

/-- The variances before the constant is added. -/
theorem varianceAlong_used {x : NDArray T} {dims : List Int}
    {dimension : Dimensions x.shapeInfo.rank} (haxes : BatchAxes x.shapeInfo dims dimension)
    (h : InputLayout x.shapeInfo) :
    ∃ buffer, x.varianceAlong (SummaryStatsData.skewness machine.sqrt) machine.startingIndex
        false dims = .ok ⟨updateStrides [1, x.shapeInfo.shape.getD 1 0] 'c', buffer⟩ ∧
      ∀ k < x.shapeInfo.shape.getD 1 0,
        (NDArray.mk (updateStrides [1, x.shapeInfo.shape.getD 1 0] 'c') buffer).element [0, k] =
          if TakenWhole x.shapeInfo then if k = 0 then Moments.variance x.values else 0
          else Moments.variance (x.channelValues k) := by
  by_cases hwhole : TakenWhole x.shapeInfo
  · simp only [if_pos hwhole]
    exact varianceAlong_whole _ machine.startingIndex haxes h.fills.positive h.honest hwhole
  · simp only [if_neg hwhole]
    exact varianceAlong_channels _ machine.startingIndex haxes h.fills.positive h.honest
      h.fills.cellsApart h.nonneg hwhole

variable (h : BatchLayouts machine.run.settings block)

include h

/-- Rows of the means and of the variances. -/
theorem batchStatistics_spec :
    ∃ mean var, batchStatistics machine block = .ok (mean, var) ∧
      OwnRow mean.shapeInfo block.channels ∧ OwnRow var.shapeInfo block.channels ∧
      LiesInLength var.shapeInfo ∧
      (∀ k < block.channels, mean.element [0, k] = block.channelMean k) ∧
      ∀ k < block.channels, var.element [0, k] = block.usedVariance k := by
  have hK : 0 < block.channels := h.input.channels_pos
  by_cases htraining : block.training = true
  · obtain ⟨dims, dimension, haxes, hdims⟩ := exists_batchAxes h.input
    obtain ⟨mean, hmean, hmeans⟩ := meanAlong_channels machine.run haxes h.input.fills.positive
      h.input.honest h.input.nonneg
    obtain ⟨var, hvar, hvars⟩ := varianceAlong_used machine haxes h.input
    obtain ⟨sum, hsum, hsums⟩ := @scalarInto_row T
      ⟨updateStrides [1, block.channels] 'c', var⟩ _ (fun d1 d2 => d1 + d2) machine.run block.eps
      (ownRow_updateStrides hK) hK
    refine ⟨⟨updateStrides [1, block.channels] 'c', mean⟩,
      ⟨updateStrides [1, block.channels] 'c', sum⟩, ?_, ownRow_updateStrides hK,
      ownRow_updateStrides hK, liesInLength_updateStrides hK, fun k hk => ?_, fun k hk => ?_⟩
    · have hsum' : (NDArray.mk (updateStrides [1, block.x.shapeInfo.shape.getD 1 0] 'c')
          var).scalarInto (fun d1 d2 => d1 + d2) machine.run block.eps =
          .ok ⟨updateStrides [1, block.channels] 'c', sum⟩ := hsum
      rw [batchStatistics, if_pos htraining]
      simp only [bind, Except.bind, hdims, hmean, hvar, hsum']
      rfl
    · rw [BatchnormBlock.channelMean, if_pos htraining]
      exact hmeans k hk
    · rw [BatchnormBlock.usedVariance, if_pos htraining, ← hvars k hk]
      exact hsums k hk
  · refine ⟨block.mean, block.var, ?_, h.mean, h.var,
      h.var_lies (Bool.eq_false_iff.mpr htraining), fun k _ => ?_, fun k _ => ?_⟩
    · rw [batchStatistics, if_neg htraining]
      rfl
    · rw [BatchnormBlock.channelMean, if_neg htraining]
    · rw [BatchnormBlock.usedVariance, if_neg htraining]

/-- What the operation leaves. -/
theorem batchnorm_spec (hmany : block.x.shapeInfo.rank = 2 → block.channels ≠ 1) :
    ∃ out xHat, batchnorm machine block = .ok out ∧ xHat.shapeInfo = block.x.shapeInfo ∧
      (∀ c, InBox block.x.shapeInfo.shape c →
        xHat.element c = block.usedQuotient machine.sqrt.root c) ∧
      scaledAndShifted machine.run block xHat = .ok out.activations ∧
      (block.training → block.isMinibatch → ∀ k < block.channels,
        out.globalMean.element [0, k] = block.decay * block.mean.element [0, k] +
          (1 - block.decay) * block.channelMean k ∧
        out.globalVar.element [0, k] = block.decay * block.var.element [0, k] +
          (1 - block.decay) * block.usedVariance k) := by
  have hK : 0 < block.channels := h.input.channels_pos
  obtain ⟨mean, var, hstatistics, hmean, hvar, hlies, hmeans, hvars⟩ :=
    batchStatistics_spec machine h
  obtain ⟨std, hstd, hrow, hroots⟩ := exists_std machine.run machine.sqrt.root hvar hlies hK h.span
  obtain ⟨buffer, hnormalised, helement⟩ :=
    normalised_spec machine.run h.input hmean.toChannelRow hrow hmany
  have hscaled : ∃ out, scaledAndShifted machine.run block ⟨block.x.shapeInfo, buffer⟩ =
      .ok out := by
    by_cases hlocked : block.isLockGammaBeta = true
    · obtain ⟨out, hout, -⟩ := @scaledAndShifted_locked T _ _ _ ⟨block.x.shapeInfo, buffer⟩ _ h
        hlocked rfl
      exact ⟨out, hout⟩
    · have hrows := Bool.eq_false_iff.mpr hlocked
      rcases h.input.rank_eq with hrank | hrank
      · obtain ⟨out, hout, -⟩ := @scaledAndShifted_matrix T _ _ _ ⟨block.x.shapeInfo, buffer⟩ _ h
          hrows hrank (hmany hrank) rfl
        exact ⟨_, hout⟩
      · obtain ⟨out, hout, -⟩ := @scaledAndShifted_images T _ _ _ ⟨block.x.shapeInfo, buffer⟩ _ h
          hrows hrank rfl
        exact ⟨out, hout⟩
  obtain ⟨activations, hactivations⟩ := hscaled
  obtain ⟨globalMean, globalVar, hrunning, hglobals⟩ :=
    runningStatistics_spec hK h.span h.mean h.var hmean hvar
  refine ⟨⟨activations, globalMean, globalVar⟩, ⟨block.x.shapeInfo, buffer⟩, ?_, rfl,
    fun c hc => ?_, hactivations, fun htraining hminibatch k hk => ?_⟩
  · simp only [bind, Except.bind] at hstd
    rw [batchnorm]
    simp only [bind, Except.bind, hstatistics]
    revert hstd
    cases zerosOf (T := T) var.shapeInfo with
    | error failure => exact fun hstd => by cases hstd
    | ok zeros =>
        intro hstd
        simp only [hstd, hnormalised, hactivations, hrunning]
        rfl
  · have hchannel : channelOf c < block.channels := channelOf_lt hc h.input.two_le
    rw [helement c hc, hmeans _ hchannel, hroots _ hchannel, hvars _ hchannel]
    rfl
  · obtain ⟨hmean', hvar'⟩ := hglobals htraining hminibatch k hk
    rw [hmean', hvar', hmeans k hk, hvars k hk]
    exact ⟨rfl, rfl⟩

/-- A matrix of one column is refused. -/
theorem batchnorm_of_one (hrank : block.x.shapeInfo.rank = 2) (hone : block.channels = 1) :
    batchnorm machine block =
      .error (.thrown "NDArray::subRowVector: wrong arguments !") := by
  have hK : 0 < block.channels := h.input.channels_pos
  obtain ⟨mean, var, hstatistics, hmean, hvar, hlies, -, -⟩ := batchStatistics_spec machine h
  obtain ⟨std, hstd, -, -⟩ := exists_std machine.run machine.sqrt.root hvar hlies hK h.span
  have hrefused : normalised machine.run block.x mean std =
      .error (.thrown "NDArray::subRowVector: wrong arguments !") :=
    normalised_of_one machine.run h.input hrank (hone ▸ hmean.toChannelRow)
  simp only [bind, Except.bind] at hstd
  rw [batchnorm]
  simp only [bind, Except.bind, hstatistics]
  revert hstd
  cases zerosOf (T := T) var.shapeInfo with
  | error failure => exact fun hstd => by cases hstd
  | ok zeros =>
      intro hstd
      simp only [hstd, hrefused]

end Statistics

/-! ## When the operation is right -/

section Right

variable {T : Type} [Field T] [LinearOrder T] [IsStrictOrderedRing T] [FloorRing T]
variable {settings : Settings} {block : BatchnormBlock T}

omit [LinearOrder T] [IsStrictOrderedRing T] [FloorRing T] in
/-- The only element of a channel is its mean. -/
theorem sub_channelMean_of_single (h : InputLayout block.x.shapeInfo)
    (htraining : block.training = true) (hsingle : block.x.shapeInfo.length = block.channels)
    {c : List Nat} (hc : InBox block.x.shapeInfo.shape c) :
    block.x.element c - block.channelMean (channelOf c) = 0 := by
  obtain ⟨dims, dimension, haxes, -⟩ := exists_batchAxes h
  have hone := (haxes.prod_kept_eq_one_iff h.fills.positive).mpr hsingle
  have hchannel : channelOf c < block.channels := channelOf_lt hc h.two_le
  obtain ⟨j, hj, hplace⟩ := haxes.exists_place hc
  have hvalues := channelValues_perm haxes h.fills.positive hchannel
  rw [hone] at hj hvalues
  rw [Nat.lt_one_iff.mp hj] at hplace
  rw [List.range_one, List.map_singleton, hplace] at hvalues
  rw [BatchnormBlock.channelMean, if_pos htraining, Moments.mean_perm hvalues]
  simp [Moments.mean]

omit [LinearOrder T] [IsStrictOrderedRing T] [FloorRing T] in
/-- While training, and without a constant, the operation divides by the right numbers, except where
it divides zero. -/
theorem usedQuotient_eq (h : InputLayout block.x.shapeInfo) (sqrt : T → T)
    (hexact : block.training ∨ block.eps = 0) {c : List Nat}
    (hc : InBox block.x.shapeInfo.shape c) :
    block.usedQuotient sqrt c = block.quotient sqrt c := by
  rw [BatchnormBlock.usedQuotient, BatchnormBlock.quotient]
  by_cases htraining : block.training = true
  · by_cases hwhole : TakenWhole block.x.shapeInfo
    · rw [sub_channelMean_of_single h htraining hwhole.2.1 hc, zero_div, zero_div]
    · rw [BatchnormBlock.usedVariance, BatchnormBlock.channelVariance, if_pos htraining,
        if_pos htraining, if_neg hwhole]
  · rw [BatchnormBlock.usedVariance, BatchnormBlock.channelVariance, if_neg htraining,
      if_neg htraining, hexact.resolve_left htraining, add_zero]

/-- A block with supported arguments. -/
theorem storesNormalised_of_supported (machine : BatchnormMachine T)
    (h : BatchLayouts machine.run.settings block) (hsupported : BatchSupported block) :
    ∃ out, batchnorm machine block = .ok out ∧ StoresNormalised machine.sqrt.root block out := by
  obtain ⟨hmany, hscalars, hrunning⟩ := hsupported
  obtain ⟨out, xHat, hrun, hinfo, hxHat, hscaled, hglobals⟩ := batchnorm_spec machine h hmany
  refine ⟨out, hrun, fun c hc => ?_, fun htraining hminibatch k hk => ?_,
    fun htraining hminibatch k hk => ?_⟩
  · by_cases hlocked : block.isLockGammaBeta = true
    · rw [if_pos hlocked] at hscalars
      obtain ⟨activations, hactivations, helement⟩ := scaledAndShifted_locked h hlocked hinfo
      rw [hscaled, Except.ok.injEq] at hactivations
      subst hactivations
      rw [helement c hc, BatchnormBlock.scale, BatchnormBlock.shift, if_pos hlocked,
        if_pos hlocked, hxHat c hc]
      by_cases happlied : block.g ≠ 1 ∧ block.b ≠ 0
      · rw [if_pos happlied] at hscalars
        rw [if_pos happlied]
        rcases hscalars with hzero | hexact
        · rw [hzero, mul_zero, zero_mul]
        · rw [usedQuotient_eq h.input machine.sqrt.root hexact hc, mul_comm]
      · rw [if_neg happlied] at hscalars
        rw [if_neg happlied, hscalars.1, add_zero]
        rcases hscalars.2 with ⟨hone, hexact⟩ | ⟨htraining, hsingle⟩
        · rw [usedQuotient_eq h.input machine.sqrt.root hexact hc, hone, one_mul]
        · rw [BatchnormBlock.usedQuotient, BatchnormBlock.quotient,
            sub_channelMean_of_single h.input htraining hsingle hc, zero_div, zero_div, mul_zero]
    · rw [if_neg hlocked] at hscalars
      obtain ⟨activations, hactivations, helement⟩ :=
        scaledAndShifted_images h (Bool.eq_false_iff.mpr hlocked) hscalars.1 hinfo
      rw [hscaled, Except.ok.injEq] at hactivations
      subst hactivations
      rw [helement c hc, BatchnormBlock.scale, BatchnormBlock.shift, if_neg hlocked,
        if_neg hlocked, hxHat c hc, usedQuotient_eq h.input machine.sqrt.root hscalars.2 hc,
        mul_comm]
  · rw [(hglobals htraining hminibatch k hk).1, BatchnormBlock.channelMean, if_pos htraining]
  · rw [(hglobals htraining hminibatch k hk).2]
    rcases hrunning htraining hminibatch with hdecay | ⟨heps, hwhole⟩
    · rw [hdecay, sub_self, zero_mul, zero_mul]
    · rw [BatchnormBlock.usedVariance, if_pos htraining, if_neg hwhole, heps, add_zero]

end Right

/-! ## When it is wrong -/

section Wrong

variable {T : Type} [Field T] [LinearOrder T] [IsStrictOrderedRing T] [FloorRing T]
variable {machine : BatchnormMachine T} {block : BatchnormBlock T} {out : BatchnormResult T}
    {c : List Nat}

variable (h : BatchLayouts machine.run.settings block)

include h

/-- What locked scalars have to do to the quotients. -/
theorem locked_eq (hmany : block.x.shapeInfo.rank = 2 → block.channels ≠ 1)
    (hlocked : block.isLockGammaBeta = true) (hrun : batchnorm machine block = .ok out)
    (hstores : StoresNormalised machine.sqrt.root block out)
    (hc : InBox block.x.shapeInfo.shape c) :
    (if block.g ≠ 1 ∧ block.b ≠ 0 then
        block.usedQuotient machine.sqrt.root c * block.g + block.b
      else block.usedQuotient machine.sqrt.root c) =
      block.g * block.quotient machine.sqrt.root c + block.b := by
  obtain ⟨out', xHat, hrun', hinfo, hxHat, hscaled, -⟩ := batchnorm_spec machine h hmany
  rw [hrun, Except.ok.injEq] at hrun'
  subst hrun'
  obtain ⟨activations, hactivations, helement⟩ := scaledAndShifted_locked h hlocked hinfo
  rw [hscaled, Except.ok.injEq] at hactivations
  subst hactivations
  have hstored := hstores.activations c hc
  rw [helement c hc, BatchnormBlock.scale, BatchnormBlock.shift, if_pos hlocked, if_pos hlocked,
    hxHat c hc] at hstored
  exact hstored

/-- What rows have to do to the quotients of images. -/
theorem images_eq (hlocked : block.isLockGammaBeta = false) (hrank : block.x.shapeInfo.rank = 4)
    (hrun : batchnorm machine block = .ok out)
    (hstores : StoresNormalised machine.sqrt.root block out)
    (hc : InBox block.x.shapeInfo.shape c) :
    block.usedQuotient machine.sqrt.root c * block.gamma.element [0, channelOf c] =
      block.gamma.element [0, channelOf c] * block.quotient machine.sqrt.root c := by
  have hrows : ¬ block.isLockGammaBeta = true := Bool.eq_false_iff.mp hlocked
  obtain ⟨out', xHat, hrun', hinfo, hxHat, hscaled, -⟩ :=
    batchnorm_spec machine h fun htwo => absurd htwo (by omega)
  rw [hrun, Except.ok.injEq] at hrun'
  subst hrun'
  obtain ⟨activations, hactivations, helement⟩ := scaledAndShifted_images h hlocked hrank hinfo
  rw [hscaled, Except.ok.injEq] at hactivations
  subst hactivations
  have hstored := hstores.activations c hc
  rw [helement c hc, BatchnormBlock.scale, BatchnormBlock.shift, if_neg hrows, if_neg hrows,
    hxHat c hc] at hstored
  exact add_right_cancel hstored

/-- What the running variances of a minibatch have to be. -/
theorem running_eq (hmany : block.x.shapeInfo.rank = 2 → block.channels ≠ 1)
    (htraining : block.training = true) (hminibatch : block.isMinibatch = true)
    (hrun : batchnorm machine block = .ok out)
    (hstores : StoresNormalised machine.sqrt.root block out) :
    (1 - block.decay) * block.usedVariance 0 =
      (1 - block.decay) * Moments.variance (block.x.channelValues 0) := by
  obtain ⟨out', xHat, hrun', -, -, -, hglobals⟩ := batchnorm_spec machine h hmany
  rw [hrun, Except.ok.injEq] at hrun'
  subst hrun'
  have hstored := hstores.globalVar htraining hminibatch 0 h.input.channels_pos
  rw [(hglobals htraining hminibatch 0 h.input.channels_pos).2] at hstored
  exact add_left_cancel hstored

omit h

/-- A block with the same number at all places, a mean of zero and some variance. -/
def BatchnormBlock.constant (block : BatchnormBlock T) (a v : T) : BatchnormBlock T :=
  block.holding (fun _ => a) (fun _ => 0) (fun _ => v) (fun _ => 1) (fun _ => 0) fun _ => 0

omit [LinearOrder T] [IsStrictOrderedRing T] [FloorRing T] in
theorem quotient_constant (htraining : block.training = false) (sqrt : T → T) (a v : T)
    (c : List Nat) : (block.constant a v).usedQuotient sqrt c = a / sqrt v ∧
      (block.constant a v).quotient sqrt c = a / sqrt (v + block.eps) := by
  have hgiven : ¬ (block.constant a v).training = true := Bool.eq_false_iff.mp htraining
  rw [BatchnormBlock.usedQuotient, BatchnormBlock.quotient, BatchnormBlock.channelMean,
    BatchnormBlock.usedVariance, BatchnormBlock.channelVariance, if_neg hgiven, if_neg hgiven,
    if_neg hgiven]
  constructor
  · show (a - 0) / sqrt v = a / sqrt v
    rw [sub_zero]
  · show (a - 0) / sqrt (v + block.eps) = a / sqrt (v + block.eps)
    rw [sub_zero]

/-- The row that should be added to a matrix is not read. -/
theorem not_normalisesBatch_matrix (h : BatchLayouts machine.run.settings block)
    (hlocked : block.isLockGammaBeta = false) (hrank : block.x.shapeInfo.rank = 2)
    (hmany : block.channels ≠ 1) : ¬ NormalisesBatch machine block := by
  intro hnormalises
  obtain ⟨out, hrun, hstores⟩ :=
    hnormalises (fun _ => 0) (fun _ => 0) (fun _ => 0) (fun _ => 0) (fun _ => 1) fun _ => 0
  have hlayouts := h.holding (fun _ => 0) (fun _ => 0) (fun _ => 0) (fun _ => 0) (fun _ => 1)
    fun _ => 0
  obtain ⟨out', xHat, hrun', hinfo, -, hscaled, -⟩ :=
    batchnorm_spec machine hlayouts fun _ => hmany
  rw [hrun, Except.ok.injEq] at hrun'
  subst hrun'
  obtain ⟨buffer, hbuffer, hcombines⟩ :=
    scaledAndShifted_matrix hlayouts hlocked hrank hmany hinfo
  rw [hscaled, Except.ok.injEq] at hbuffer
  -- all cells of the output are zero
  have hzero : ∀ cell, buffer cell = 0 := by
    intro cell
    by_cases hcell : ∃ c, InBox xHat.shapeInfo.shape c ∧ cell = Strided.dot c xHat.shapeInfo.stride
    · obtain ⟨c, hc, rfl⟩ := hcell
      rw [hcombines.value c hc]
      exact mul_zero _
    · exact hcombines.frame cell fun c hc heq => hcell ⟨c, hc, heq⟩
  have hbox := inBox_decode h.input.fills.positive h.input.fills.positive.length_pos
  have hstored := hstores.activations _ hbox
  have hrows : ¬ block.isLockGammaBeta = true := Bool.eq_false_iff.mp hlocked
  have helement : out.activations.element (decode block.x.shapeInfo.shape 0) = 0 := by
    rw [hbuffer]
    exact hzero _
  have hscale : ∀ k, (block.holding (fun _ => 0) (fun _ => 0) (fun _ => 0) (fun _ => 0)
      (fun _ => 1) fun _ => 0).scale k = 0 := fun k => if_neg hrows
  have hshift : ∀ k, (block.holding (fun _ => 0) (fun _ => 0) (fun _ => 0) (fun _ => 0)
      (fun _ => 1) fun _ => 0).shift k = 1 := fun k => if_neg hrows
  rw [helement, hscale, hshift, zero_mul, zero_add] at hstored
  exact zero_ne_one hstored

omit [FloorRing T] in
/-- Scalars that have their effect for all numbers and given variances. -/
theorem scalars_of_given (sqrt : SquareRoot T) {g b e : T}
    (h : ∀ a v, (if g ≠ 1 ∧ b ≠ 0 then a / sqrt.root v * g + b else a / sqrt.root v) =
      g * (a / sqrt.root (v + e)) + b) :
    if g ≠ 1 ∧ b ≠ 0 then g = 0 ∨ e = 0 else b = 0 ∧ g = 1 ∧ e = 0 := by
  by_cases happlied : g ≠ 1 ∧ b ≠ 0
  · rw [if_pos happlied]
    by_contra! hne
    obtain ⟨v, hv⟩ := sqrt.exists_reciprocal_ne hne.2
    have hsame := h 1 v
    rw [if_pos happlied, mul_comm] at hsame
    have hreciprocal := mul_left_cancel₀ hne.1 (add_right_cancel hsame)
    rcases hv with ⟨hzero, hnonzero⟩ | ⟨hnonzero, hzero⟩
    · exact hnonzero (hreciprocal.symm.trans hzero)
    · exact hnonzero (hreciprocal.trans hzero)
  · rw [if_neg happlied]
    have hb : b = 0 := by
      have hzero := h 0 0
      rw [if_neg happlied, zero_div, zero_div, mul_zero, zero_add] at hzero
      exact hzero.symm
    subst hb
    have hsame : ∀ v, 1 / sqrt.root v = g * (1 / sqrt.root (v + e)) := fun v => by
      have hv := h 1 v
      rwa [if_neg happlied, add_zero] at hv
    have hg : g ≠ 0 := by
      rintro rfl
      have hone := hsame 1
      rw [zero_mul, sqrt.root_one, div_one] at hone
      exact one_ne_zero hone
    have he : e = 0 := by
      by_contra hne
      obtain ⟨v, ⟨hzero, hnonzero⟩ | ⟨hnonzero, hzero⟩⟩ := sqrt.exists_reciprocal_ne hne
      · have hv := hsame v
        rw [hzero] at hv
        exact mul_ne_zero hg hnonzero hv.symm
      · exact hnonzero (by rw [hsame v, hzero, mul_zero])
    subst he
    refine ⟨rfl, ?_, rfl⟩
    have hone := hsame 1
    rw [add_zero, sqrt.root_one, div_one, mul_one] at hone
    exact hone.symm

/-- What locked scalars do to the quotients of all contents. -/
theorem locked_of_normalises (h : BatchLayouts machine.run.settings block)
    (hmany : block.x.shapeInfo.rank = 2 → block.channels ≠ 1)
    (hlocked : block.isLockGammaBeta = true) (hnormalises : NormalisesBatch machine block)
    (x mean var : Int → T) (hc : InBox block.x.shapeInfo.shape c) :
    (if block.g ≠ 1 ∧ block.b ≠ 0 then
        (block.holding x mean var (fun _ => 1) (fun _ => 0) fun _ => 0).usedQuotient
          machine.sqrt.root c * block.g + block.b
      else (block.holding x mean var (fun _ => 1) (fun _ => 0) fun _ => 0).usedQuotient
        machine.sqrt.root c) =
      block.g * (block.holding x mean var (fun _ => 1) (fun _ => 0) fun _ => 0).quotient
        machine.sqrt.root c + block.b := by
  obtain ⟨out, hrun, hstores⟩ := hnormalises x mean var (fun _ => 1) (fun _ => 0) fun _ => 0
  exact locked_eq (h.holding x mean var (fun _ => 1) (fun _ => 0) fun _ => 0) hmany hlocked hrun
    hstores hc

variable {dims : List Int} {dimension : Dimensions block.x.shapeInfo.rank}

/-- A block with a number at the first place of the first channel and zeros at all others. -/
def BatchnormBlock.single (block : BatchnormBlock T)
    (dimension : Dimensions block.x.shapeInfo.rank) (t : T) : BatchnormBlock T :=
  block.holding (singleAt block.x.shapeInfo (placeAlong dimension 0 0) t) (fun _ => 0)
    (fun _ => 0) (fun _ => 1) (fun _ => 0) fun _ => 0

omit [FloorRing T] in
/-- The quotient of that number. -/
theorem quotient_single (h : InputLayout block.x.shapeInfo)
    (haxes : BatchAxes block.x.shapeInfo dims dimension) (htraining : block.training = true)
    {m : Nat} (hm : (dimension.kept block.x.shapeInfo.shape).prod = m + 1) (sqrt : T → T) (s : T) :
    (block.single dimension ((m + 1) * s)).quotient sqrt (placeAlong dimension 0 0) =
      m * s / sqrt (m * s ^ 2 + block.eps) := by
  have hpos := h.fills.positive
  have hchannels := h.channels_pos
  have hfirst : 0 < (dimension.kept block.x.shapeInfo.shape).prod := by omega
  have hbox := haxes.inBox_place hpos hchannels hfirst
  have hvalues := channelValues_singleAt haxes hpos h.fills.cellsApart hm ((m + 1) * s)
  have hmean : (block.single dimension ((m + 1) * s)).channelMean 0 = s := by
    rw [BatchnormBlock.channelMean, if_pos (show (block.single dimension _).training = true from
      htraining)]
    exact (Moments.mean_perm hvalues).trans (Moments.mean_cons_replicate m s)
  have hvariance : (block.single dimension ((m + 1) * s)).channelVariance 0 = m * s ^ 2 := by
    rw [BatchnormBlock.channelVariance, if_pos (show (block.single dimension _).training = true from
      htraining)]
    exact (Moments.variance_perm hvalues).trans (Moments.variance_cons_replicate m s)
  have helement : (block.single dimension ((m + 1) * s)).x.element (placeAlong dimension 0 0) =
      (m + 1) * s :=
    (element_singleAt h.fills.cellsApart hbox hbox _).trans (if_pos rfl)
  rw [BatchnormBlock.quotient, haxes.channelOf_place hpos hchannels hfirst, hmean, hvariance,
    helement]
  have hdistance : ((m : T) + 1) * s - s = m * s := by ring
  rw [hdistance]
  rfl

variable (h : BatchLayouts machine.run.settings block)

include h

/-- Scalars that are not applied have no effect while training. -/
theorem scalars_of_training (hmany : block.x.shapeInfo.rank = 2 → block.channels ≠ 1)
    (hlocked : block.isLockGammaBeta = true) (htraining : block.training = true)
    (happlied : ¬ (block.g ≠ 1 ∧ block.b ≠ 0)) (hnormalises : NormalisesBatch machine block) :
    block.b = 0 ∧ (block.g = 1 ∨ block.x.shapeInfo.length = block.channels) := by
  obtain ⟨dims, dimension, haxes, -⟩ := exists_batchAxes h.input
  have hpos := h.input.fills.positive
  have hfirst : 0 < (dimension.kept block.x.shapeInfo.shape).prod :=
    prod_pos_of_pos (hpos.kept dimension)
  have hbox := haxes.inBox_place hpos h.input.channels_pos hfirst
  obtain ⟨m, hm⟩ := Nat.exists_eq_succ_of_ne_zero hfirst.ne'
  have hsame : ∀ s, m * s / machine.sqrt.root (m * s ^ 2 + block.eps) =
      block.g * (m * s / machine.sqrt.root (m * s ^ 2 + block.eps)) + block.b := by
    intro s
    have hboth := locked_of_normalises h hmany hlocked hnormalises
      (singleAt block.x.shapeInfo (placeAlong dimension 0 0) ((m + 1) * s)) (fun _ => 0)
      (fun _ => 0) hbox
    have hused : (block.single dimension ((m + 1) * s)).usedQuotient machine.sqrt.root
        (placeAlong dimension 0 0) = (block.single dimension ((m + 1) * s)).quotient
        machine.sqrt.root (placeAlong dimension 0 0) :=
      @usedQuotient_eq T _ (block.single dimension ((m + 1) * s)) h.input machine.sqrt.root
        (Or.inl htraining) _ hbox
    rw [if_neg happlied] at hboth
    rw [quotient_single h.input haxes htraining hm] at hused
    exact hused.symm.trans (hboth.trans (congrArg (block.g * · + block.b)
      (quotient_single h.input haxes htraining hm _ s)))
  have hb : block.b = 0 := by
    have hzero := hsame 0
    rw [mul_zero, zero_div, mul_zero, zero_add] at hzero
    exact hzero.symm
  refine ⟨hb, ?_⟩
  rcases Nat.eq_zero_or_pos m with rfl | hmpos
  · exact Or.inr ((haxes.prod_kept_eq_one_iff hpos).mp hm)
  · left
    have hs : 0 < 1 + |block.eps| := by positivity
    have hm1 : (1 : T) ≤ m := Nat.one_le_cast.mpr hmpos
    have hvariance : 0 < m * (1 + |block.eps|) ^ 2 + block.eps := by
      have habs := neg_abs_le block.eps
      have hnonneg := abs_nonneg block.eps
      nlinarith
    have hquotient : m * (1 + |block.eps|) / machine.sqrt.root
        (m * (1 + |block.eps|) ^ 2 + block.eps) ≠ 0 :=
      div_ne_zero (mul_pos (zero_lt_one.trans_le hm1) hs).ne' (machine.sqrt.root_ne_zero hvariance)
    have hone := hsame (1 + |block.eps|)
    rw [hb, add_zero] at hone
    exact mul_right_cancel₀ hquotient (hone.symm.trans (one_mul _).symm)

/-- The running variances of a minibatch are kept, or what is added to the variances is nothing. -/
theorem running_of_normalises (hmany : block.x.shapeInfo.rank = 2 → block.channels ≠ 1)
    (htraining : block.training = true) (hminibatch : block.isMinibatch = true)
    (hnormalises : NormalisesBatch machine block) :
    block.decay = 1 ∨ block.eps = 0 ∧ ¬ TakenWhole block.x.shapeInfo := by
  by_contra! hwrong
  obtain ⟨hdecay, hrest⟩ := hwrong
  have hfactor : 1 - block.decay ≠ 0 := sub_ne_zero.mpr hdecay.symm
  have hvariances : ∀ x : Int → T,
      (if TakenWhole block.x.shapeInfo then Moments.variance (NDArray.mk block.x.shapeInfo x).values
        else Moments.variance ((NDArray.mk block.x.shapeInfo x).channelValues 0)) + block.eps =
      Moments.variance ((NDArray.mk block.x.shapeInfo x).channelValues 0) := by
    intro x
    obtain ⟨out, hrun, hstores⟩ :=
      hnormalises x (fun _ => 0) (fun _ => 0) (fun _ => 1) (fun _ => 0) fun _ => 0
    have hused : (block.holding x (fun _ => 0) (fun _ => 0) (fun _ => 1) (fun _ => 0)
        fun _ => 0).usedVariance 0 = (if TakenWhole block.x.shapeInfo then
          if 0 = 0 then Moments.variance (NDArray.mk block.x.shapeInfo x).values else 0
        else Moments.variance ((NDArray.mk block.x.shapeInfo x).channelValues 0)) + block.eps :=
      if_pos htraining
    rw [if_pos rfl] at hused
    rw [← hused]
    exact mul_left_cancel₀ hfactor (running_eq (h.holding x (fun _ => 0) (fun _ => 0) (fun _ => 1)
      (fun _ => 0) fun _ => 0) hmany htraining hminibatch hrun hstores)
  -- the variances of zeros are zero
  have heps : block.eps = 0 := by
    have hzeros : ∀ cs : List (List Nat), Moments.variance
        (cs.map (NDArray.mk block.x.shapeInfo fun _ => (0 : T)).element) = 0 := by
      intro cs
      rw [Moments.variance_eq_zero_iff]
      intro v hv w hw
      obtain ⟨c, -, rfl⟩ := List.mem_map.mp hv
      obtain ⟨d, -, rfl⟩ := List.mem_map.mp hw
      rfl
    have hzero := hvariances fun _ => 0
    rw [NDArray.channelValues, NDArray.values, hzeros, hzeros, ite_self, zero_add] at hzero
    exact hzero
  -- one number among zeros has a variance, but not in its own channel
  have hwhole := hrest heps
  obtain ⟨dims, dimension, haxes, -⟩ := exists_batchAxes h.input
  have hpos := h.input.fills.positive
  have hone : (dimension.kept block.x.shapeInfo.shape).prod = 0 + 1 :=
    (haxes.prod_kept_eq_one_iff hpos).mpr hwhole.2.1
  have hchannels := h.input.channels_pos
  have hmore : 1 < block.x.shapeInfo.shape.getD 1 0 := by
    have hne := hwhole.2.2.2
    omega
  have hfirst : 0 < (dimension.kept block.x.shapeInfo.shape).prod := by omega
  have hbox := haxes.inBox_place hpos hchannels hfirst
  have hother := haxes.inBox_place hpos hmore hfirst
  have hapart : placeAlong dimension 1 0 ≠ placeAlong dimension 0 0 := by
    intro heq
    have hchannel := haxes.channelOf_place hpos hmore hfirst
    rw [heq, haxes.channelOf_place hpos hchannels hfirst] at hchannel
    exact zero_ne_one hchannel
  have hsingle := hvariances (singleAt block.x.shapeInfo (placeAlong dimension 0 0) 1)
  have hown : Moments.variance ((NDArray.mk block.x.shapeInfo
      (singleAt block.x.shapeInfo (placeAlong dimension 0 0) (1 : T))).channelValues 0) = 0 := by
    rw [Moments.variance_perm (channelValues_singleAt haxes hpos h.input.fills.cellsApart hone 1),
      Moments.variance_eq_zero_iff]
    simp
  rw [hown, if_pos hwhole, heps, add_zero] at hsingle
  have hmem : ∀ c, InBox block.x.shapeInfo.shape c → (NDArray.mk block.x.shapeInfo
      (singleAt block.x.shapeInfo (placeAlong dimension 0 0) (1 : T))).element c ∈
      (NDArray.mk block.x.shapeInfo
        (singleAt block.x.shapeInfo (placeAlong dimension 0 0) (1 : T))).values := by
    intro c hc
    refine List.mem_map_of_mem (List.mem_map.mpr ⟨encode block.x.shapeInfo.shape c,
      List.mem_range.mpr (encode_lt hc), decode_encode hc⟩)
  have heq := (Moments.variance_eq_zero_iff _).mp hsingle _ (hmem _ hbox) _ (hmem _ hother)
  rw [element_singleAt h.input.fills.cellsApart hbox hbox,
    element_singleAt h.input.fills.cellsApart hbox hother, if_pos rfl, if_neg hapart] at heq
  exact one_ne_zero heq

/-- Given variances of images are used without a constant. -/
theorem eps_of_images (hlocked : block.isLockGammaBeta = false) (hrank : block.x.shapeInfo.rank = 4)
    (htraining : block.training = false) (hnormalises : NormalisesBatch machine block) :
    block.eps = 0 := by
  by_contra hne
  obtain ⟨v, hv⟩ := machine.sqrt.exists_reciprocal_ne hne
  obtain ⟨out, hrun, hstores⟩ := hnormalises (fun _ => 1) (fun _ => 0) (fun _ => v) (fun _ => 1)
    (fun _ => 0) fun _ => 0
  have hlayouts := h.holding (fun _ => 1) (fun _ => 0) (fun _ => v) (fun _ => 1) (fun _ => 0)
    fun _ => 0
  have hbox := inBox_decode h.input.fills.positive h.input.fills.positive.length_pos
  have hsame : (block.constant 1 v).usedQuotient machine.sqrt.root (decode block.x.shapeInfo.shape 0)
      * 1 = 1 * (block.constant 1 v).quotient machine.sqrt.root
        (decode block.x.shapeInfo.shape 0) :=
    images_eq hlayouts hlocked hrank hrun hstores hbox
  obtain ⟨hused, hquotient⟩ := quotient_constant htraining machine.sqrt.root 1 v
    (decode block.x.shapeInfo.shape 0)
  rw [hused, hquotient, mul_one, one_mul] at hsame
  rcases hv with ⟨hzero, hnonzero⟩ | ⟨hnonzero, hzero⟩
  · exact hnonzero (hsame.symm.trans hzero)
  · exact hnonzero (hsame.trans hzero)

/-- A block for which the operation is right has supported arguments. -/
theorem supported_of_normalisesBatch (hnormalises : NormalisesBatch machine block) :
    BatchSupported block := by
  have hmany : block.x.shapeInfo.rank = 2 → block.channels ≠ 1 := by
    intro hrank hone
    obtain ⟨out, hrun, -⟩ := hnormalises block.x.buffer block.mean.buffer block.var.buffer
      block.gamma.buffer block.beta.buffer block.activations.buffer
    have hrefused := batchnorm_of_one machine h hrank hone
    cases hrefused.symm.trans hrun
  refine ⟨hmany, ?_, fun htraining hminibatch =>
    running_of_normalises h hmany htraining hminibatch hnormalises⟩
  by_cases hlocked : block.isLockGammaBeta = true
  · rw [if_pos hlocked]
    by_cases htraining : block.training = true
    · by_cases happlied : block.g ≠ 1 ∧ block.b ≠ 0
      · rw [if_pos happlied]
        exact Or.inr (Or.inl htraining)
      · rw [if_neg happlied]
        obtain ⟨hb, hg | hsingle⟩ :=
          scalars_of_training h hmany hlocked htraining happlied hnormalises
        · exact ⟨hb, Or.inl ⟨hg, Or.inl htraining⟩⟩
        · exact ⟨hb, Or.inr ⟨htraining, hsingle⟩⟩
    · have hbox := inBox_decode h.input.fills.positive h.input.fills.positive.length_pos
      have hscalars := scalars_of_given machine.sqrt fun a v => by
        have hboth := locked_of_normalises h hmany hlocked hnormalises (fun _ => a) (fun _ => 0)
          (fun _ => v) hbox
        obtain ⟨hused, hquotient⟩ := quotient_constant (Bool.eq_false_iff.mpr htraining)
          machine.sqrt.root a v (decode block.x.shapeInfo.shape 0)
        rw [← hused, ← hquotient]
        exact hboth
      by_cases happlied : block.g ≠ 1 ∧ block.b ≠ 0
      · rw [if_pos happlied] at hscalars ⊢
        exact hscalars.imp_right Or.inr
      · rw [if_neg happlied] at hscalars ⊢
        obtain ⟨hb, hg, heps⟩ := hscalars
        exact ⟨hb, Or.inl ⟨hg, Or.inr heps⟩⟩
  · rw [if_neg hlocked]
    have hrows := Bool.eq_false_iff.mpr hlocked
    rcases h.input.rank_eq with hrank | hrank
    · exact absurd hnormalises (not_normalisesBatch_matrix h hrows hrank (hmany hrank))
    · refine ⟨hrank, ?_⟩
      by_cases htraining : block.training = true
      · exact Or.inl htraining
      · exact Or.inr
          (eps_of_images h hrows hrank (Bool.eq_false_iff.mpr htraining) hnormalises)

omit h

/-- For which arguments the operation is right. -/
theorem normalisesBatch_iff (machine : BatchnormMachine T) (block : BatchnormBlock T)
    (h : BatchLayouts machine.run.settings block) :
    NormalisesBatch machine block ↔ BatchSupported block := by
  constructor
  · exact supported_of_normalisesBatch h
  · intro hsupported x mean var gamma beta activations
    exact storesNormalised_of_supported machine (h.holding x mean var gamma beta activations)
      hsupported

end Wrong

/-! ## A row of two channels -/

/-- One thread over the reals. -/
noncomputable def realMachine : BatchnormMachine ℝ where
  run := oneThread fun _ => 0
  sqrt := realRoot
  startingIndex := .initWithValue 0

/-- A block with one example of two channels, while training. -/
def twoChannelBatch (isLockGammaBeta : Bool) : BatchnormBlock ℝ where
  x := ⟨newShapeInfo 'c' [1, 2], fun _ => 0⟩
  mean := ⟨updateStrides [1, 2] 'c', fun _ => 0⟩
  var := ⟨updateStrides [1, 2] 'c', fun _ => 0⟩
  gamma := ⟨updateStrides [1, 2] 'c', fun _ => 0⟩
  beta := ⟨updateStrides [1, 2] 'c', fun _ => 0⟩
  activations := ⟨newShapeInfo 'c' [1, 2], fun _ => 0⟩
  eps := 1
  g := 2
  b := 1
  decay := 1
  training := true
  isLockGammaBeta := isLockGammaBeta
  isMinibatch := true

theorem batchLayouts_twoChannelBatch (isLockGammaBeta : Bool) :
    BatchLayouts realMachine.run.settings (twoChannelBatch isLockGammaBeta) where
  input :=
    { rank_eq := Or.inl rfl
      fills := fillsBuffer_newShapeInfo (Or.inl rfl) (by decide)
      honest := honestEws_newShapeInfo (Or.inl rfl) (by decide)
      offset_eq := rfl
      order_eq := Or.inl rfl
      consecutive := fun hrank => absurd hrank (show ¬ 2 = 4 by decide) }
  output_shape := rfl
  output_honest := honestEws_newShapeInfo (Or.inl rfl) (by decide)
  output_cells := cellsApart_newShapeInfo (Or.inl rfl) (by decide)
  output_offset := rfl
  output_same := fun hrank => absurd hrank (show ¬ 2 = 4 by decide)
  mean := ownRow_updateStrides Nat.two_pos
  var := ownRow_updateStrides Nat.two_pos
  var_lies := fun htraining => Bool.noConfusion htraining
  gamma := (ownRow_updateStrides Nat.two_pos).toChannelRow
  beta := (ownRow_updateStrides Nat.two_pos).toChannelRow
  span := show SpanFits (Settings.initial 1 Nat.one_pos) 2 by decide

theorem normalisesBatch_iff_twoChannels : NormalisesBatch realMachine (twoChannelBatch true) := by
  refine (normalisesBatch_iff realMachine (twoChannelBatch true)
    (batchLayouts_twoChannelBatch true)).mpr ⟨fun _ => by decide, ?_, fun _ _ => Or.inl rfl⟩
  have happlied : (twoChannelBatch true).g ≠ 1 ∧ (twoChannelBatch true).b ≠ 0 := by
    norm_num [twoChannelBatch]
  have hlocked : (twoChannelBatch true).isLockGammaBeta = true := rfl
  rw [if_pos hlocked, if_pos happlied]
  exact Or.inr (Or.inl rfl)

/-- The row that should be added to two channels is not. -/
theorem not_normalisesBatch_always :
    ¬ ∀ (machine : BatchnormMachine ℝ) (block : BatchnormBlock ℝ),
      BatchLayouts machine.run.settings block →
      (block.x.shapeInfo.rank = 2 → block.channels ≠ 1) → NormalisesBatch machine block := by
  intro h
  have hmany : (twoChannelBatch false).channels ≠ 1 := by decide
  have hlayouts := batchLayouts_twoChannelBatch false
  exact not_normalisesBatch_matrix hlayouts rfl rfl hmany (h _ _ hlayouts fun _ => hmany)

end Ops
end LibND4J
