import LibND4J.Library.Moments
import LibND4J.Library.Stores
import LibND4J.Loops.Reduce
import LibND4J.Shape.SingleTad

/-!
# Variance along dimensions

The statistics of a set of values are kept as its size, mean and sums of powers, and two
of them are merged by `update`.  `SummaryStatsReduce::exec` collects them for
every tensor along the dimensions: by a raw iteration over the tensor that starts from the
statistics of the value zero, by a loop over its element-wise stride, or by decoding every
index; for one tensor, and on the shortcut for tensors of one element, it collects them
over the whole array.

Main results:

- Theorem `summarizes_update`: merging statistics gives the statistics of all values.
- Theorem `execScalar_summaryStats_eq`: a whole array has the variance of its
  elements, whatever the layout.
- Theorem `varies_iff`: the result holds the variances of the claimed elements exactly
  if neither the shortcut nor the raw iteration is taken, and no tensor starts at a wrong
  offset.
-/

namespace LibND4J
namespace Loops

open Strided Shape Moments

/-! ## Statistics -/

structure SummaryStatsData (T : Type) where
  n : T
  min : T
  max : T
  mean : T
  M2 : T
  M3 : T
  M4 : T
  bias : T

section Data

variable {T : Type} [Field T] [LinearOrder T] [FloorRing T]

/-- `initialize`; the extremes are left as they are. -/
def SummaryStatsData.initialize (s : SummaryStatsData T) : SummaryStatsData T :=
  { s with n := 0, mean := 0, M2 := 0, M3 := 0, M4 := 0, bias := 0 }

def SummaryStatsData.initWithValue (val : T) : SummaryStatsData T where
  n := 1
  min := val
  max := val
  mean := val
  M2 := 0
  M3 := 0
  M4 := 0
  bias := 0

def SummaryStatsData.variance (s : SummaryStatsData T) : T :=
  if s.n ≤ 1 then 0 else s.M2 / s.n

/-- `varianceBiasCorrected`, for a given skewness. -/
def SummaryStatsData.varianceBiasCorrected (skewness : SummaryStatsData T → T)
    (s : SummaryStatsData T) : T :=
  if s.n ≤ 1 then 0 else (s.M2 - skewness s ^ 2 / s.n) / (s.n - 1)

/-- Conversion to an integer, towards zero. -/
def toInt (n : T) : Int :=
  if 0 ≤ n then ⌊n⌋ else ⌈n⌉

/-- `SummaryStatsReduce::update`. -/
def update (x y : SummaryStatsData T) : SummaryStatsData T :=
  if toInt x.n = 0 ∧ toInt y.n > 0 then
    y
  else if toInt x.n > 0 ∧ toInt y.n = 0 then
    x
  else
    let n := x.n + y.n
    let n2 := n * n
    let n3 := n2 * n
    let delta := y.mean - x.mean
    let delta2 := delta * delta
    let delta3 := delta2 * delta
    let delta4 := delta3 * delta
    { n := n
      min := min x.min y.min
      max := max x.max y.max
      mean := x.mean + delta * y.n / n
      M2 := x.M2 + y.M2 + delta2 * x.n * y.n / n
      M3 := x.M3 + y.M3 + delta3 * x.n * y.n * (x.n - y.n) / n2 +
        3 * delta * (x.n * y.M2 - y.n * x.M2) / n
      M4 := x.M4 + y.M4 +
        delta4 * x.n * y.n * (x.n * x.n - x.n * y.n + y.n * y.n) / n3 +
        6 * delta2 * (x.n * x.n * y.M2 + y.n * y.n * x.M2) / n2 +
        4 * delta * (x.n * y.M3 - y.n * x.M3) / n
      bias := 0 }

/-- An operation on statistics. -/
structure SummaryStatsOp (T : Type) where
  getValue : Bool → SummaryStatsData T → T
  op : SummaryStatsData T → SummaryStatsData T

/-- `SummaryStatsVariance`. -/
def summaryStatsVariance (skewness : SummaryStatsData T → T) : SummaryStatsOp T where
  getValue := fun biasCorrected val =>
    if biasCorrected then
      let ret := val.varianceBiasCorrected skewness
      if ret < 0 then val.variance else ret
    else
      val.variance
  op := fun d1 => d1

/-! ## The loops -/

/-- `execScalar`; `startingIndex` is the memory that the first statistics are built in. -/
def SummaryStatsOp.execScalar (opType : SummaryStatsOp T) (biasCorrected : Bool)
    (startingIndex : SummaryStatsData T) (x : Int → T) (xShapeInfo : ShapeInfo) : T :=
  let startingIndex := startingIndex.initialize
  let length := xShapeInfo.length
  if xShapeInfo.elementWiseStride = 1 then
    opType.getValue biasCorrected ((List.range length).foldl
      (fun acc (i : Nat) => update acc (.initWithValue (x i))) startingIndex)
  else
    opType.getValue biasCorrected ((List.range length).foldl
      (fun acc i =>
        let xCoords := ind2subC xShapeInfo.shape i
        let xOffset := getOffset 0 xShapeInfo.shape xShapeInfo.stride xCoords
        update acc (.initWithValue (x xOffset))) startingIndex)

/-- `exec` along dimensions; `fuel` bounds the ticks of a raw iteration.  `none` stands for
a raw iteration that runs out of fuel, or for tensors whose shape information is left
unset. -/
def SummaryStatsOp.exec (opType : SummaryStatsOp T) (fuel : Nat) (biasCorrected : Bool)
    (startingIndex : SummaryStatsData T) (x : Int → T) (xShapeInfo : ShapeInfo) (result : List T)
    (resultShapeInfo : ShapeInfo) (dimension : Dimensions xShapeInfo.rank) : Option (List T) :=
  if isScalar resultShapeInfo then
    some (result.set 0 (opType.execScalar biasCorrected startingIndex x xShapeInfo))
  else
    let tad := TAD.init xShapeInfo dimension
    tad.shapeInfoOnlyShapeAndStride.bind fun tadOnlyShapeInfo =>
      let tadOffsets := tad.createOffsets
      let dimensionLength := dimension.toList.length
      let resultLength := resultShapeInfo.length
      let tadLength := tadOnlyShapeInfo.length
      let tadElementWiseStride := tadOnlyShapeInfo.elementWiseStride
      if resultLength = 1 ∨ dimensionLength = xShapeInfo.rank ∨ tad.wholeThing then
        some (result.set 0 (opType.execScalar biasCorrected startingIndex x xShapeInfo))
      else if ¬ (tadElementWiseStride > 0 ∧ (tad.numTads = 1 ∨ isVector tadOnlyShapeInfo ∨
          isScalar tadOnlyShapeInfo ∨ tad.wholeThing)) ∧ ¬ dimensionLength > 1 then
        (List.range resultLength).foldlM
          (fun result i =>
            let (axes, data) := prepareOneRawArrayIter tadOnlyShapeInfo.axes (tadOffsets.getD i 0)
            (odometer fuel axes data).map fun visits =>
              let comp := visits.foldl
                (fun comp visit => update comp (.initWithValue (x visit.2))) (.initWithValue 0)
              result.set i (opType.getValue biasCorrected comp))
          result
      else if dimensionLength = 1 then
        some ((List.range resultLength).foldl
          (fun result i =>
            let baseOffset := tadOffsets.getD i 0
            let comp := (List.range' 1 (tadLength - 1)).foldl
              (fun comp (j : Nat) =>
                update comp (.initWithValue (x (baseOffset + tadElementWiseStride * j))))
              (.initWithValue (x baseOffset))
            result.set i (opType.getValue biasCorrected comp))
          result)
      else
        some ((List.range resultLength).foldl
          (fun result r =>
            let tadOffsetForBlock := tadOffsets.getD r 0
            let comp := (List.range' 1 (tadLength - 1)).foldl
              (fun comp i =>
                let xCoord := ind2subC tadOnlyShapeInfo.shape i
                let xOffset := getOffset tadOffsetForBlock tadOnlyShapeInfo.shape
                  tadOnlyShapeInfo.stride xCoord
                update comp (opType.op (.initWithValue (x xOffset))))
              (.initWithValue (x tadOffsetForBlock))
            result.set r (opType.getValue biasCorrected comp))
          result)

/-- `NDArray::varianceAlongDimension`; the fresh result is filled with zeros. -/
def SummaryStatsOp.varianceAlongDimension (opType : SummaryStatsOp T) (fuel : Nat)
    (startingIndex : SummaryStatsData T) (buffer : Int → T) (shapeInfo : ShapeInfo)
    (biasCorrected : Bool) (dimensions : List Int) : Except String (Option (Reduced T)) :=
  (checkDimensions shapeInfo.rank dimensions).map fun copy =>
    let newShape := evalReduceShapeInfo 'c' shapeInfo copy
    let result := List.replicate newShape.length 0
    let values :=
      if shapeInfo.rank = copy.toList.length then
        some (result.set 0 (opType.execScalar biasCorrected startingIndex buffer shapeInfo))
      else
        opType.exec fuel biasCorrected startingIndex buffer shapeInfo result newShape copy
    values.map fun values => ⟨newShape, values⟩

end Data

/-! ## Merging statistics -/

section Merge

variable {T : Type} [Field T] [LinearOrder T] [IsStrictOrderedRing T] [FloorRing T]

/-- The statistics are those of the values. -/
structure Summarizes (s : SummaryStatsData T) (vs : List T) : Prop where
  n_eq : s.n = vs.length
  mean_eq : s.mean = Moments.mean vs
  M2_eq : s.M2 = secondMoment vs

@[simp]
theorem toInt_natCast (n : Nat) : toInt (n : T) = n := by
  rw [toInt, if_pos (Nat.cast_nonneg n), Int.floor_natCast]

omit [LinearOrder T] [IsStrictOrderedRing T] [FloorRing T] in
theorem summarizes_initialized (s : SummaryStatsData T) : Summarizes s.initialize [] where
  n_eq := by simp [ SummaryStatsData.initialize]
  mean_eq := by simp [ SummaryStatsData.initialize, Moments.mean]
  M2_eq := rfl

omit [LinearOrder T] [IsStrictOrderedRing T] [FloorRing T] in
theorem summarizes_initWithValue (val : T) :
    Summarizes (SummaryStatsData.initWithValue val) [val] where
  n_eq := by simp [SummaryStatsData.initWithValue]
  mean_eq := by simp [SummaryStatsData.initWithValue, Moments.mean]
  M2_eq := by simp [SummaryStatsData.initWithValue, secondMoment, Moments.mean]

/-- Merging the statistics of two parts, not both empty, gives those of the whole. -/
theorem summarizes_update {x y : SummaryStatsData T} {xs ys : List T} (hx : Summarizes x xs)
    (hy : Summarizes y ys) (hne : xs ++ ys ≠ []) : Summarizes (update x y) (xs ++ ys) := by
  unfold update
  rw [hx.n_eq, hy.n_eq, toInt_natCast, toInt_natCast]
  cases xs with
  | nil =>
      have hys : 0 < ys.length := List.length_pos_of_ne_nil hne
      rw [if_pos ⟨rfl, by exact_mod_cast hys⟩]
      exact hy
  | cons v xs =>
      have hxs : ((v :: xs).length : Int) ≠ 0 := by
        exact_mod_cast Nat.succ_ne_zero xs.length
      rw [if_neg fun hboth => hxs hboth.1]
      cases ys with
      | nil =>
          rw [if_pos ⟨by exact_mod_cast Nat.succ_pos xs.length, rfl⟩, List.append_nil]
          exact hx
      | cons w ys =>
          have hys : ((w :: ys).length : Int) ≠ 0 := by
            exact_mod_cast Nat.succ_ne_zero ys.length
          rw [if_neg fun hboth => hys hboth.2]
          have hv : v :: xs ≠ [] := List.cons_ne_nil v xs
          have hw : w :: ys ≠ [] := List.cons_ne_nil w ys
          constructor
          · rw [List.length_append, Nat.cast_add]
          · rw [mean_append hv hw, hx.mean_eq, hy.mean_eq]
          · rw [secondMoment_append hv hw, hx.M2_eq, hy.M2_eq, hx.mean_eq, hy.mean_eq, pow_two]

variable {s : SummaryStatsData T} {vs : List T}

/-- Merging single values one after the other. -/
theorem summarizes_foldl (h : Summarizes s vs) (ws : List T) :
    Summarizes (ws.foldl (fun acc w => update acc (.initWithValue w)) s) (vs ++ ws) := by
  induction ws generalizing s vs with
  | nil => rwa [List.append_nil]
  | cons w ws ih =>
      have hnext := summarizes_update h (summarizes_initWithValue w) (by simp)
      have hrest := ih hnext
      rwa [List.append_assoc, List.singleton_append] at hrest

/-- The variance of the values. -/
theorem Summarizes.variance_eq (h : Summarizes s vs) : s.variance = Moments.variance vs := by
  rw [SummaryStatsData.variance, h.n_eq, h.M2_eq]
  split
  · rename_i hone
    have hlength : vs.length ≤ 1 := by exact_mod_cast hone
    refine ((variance_eq_zero_iff vs).mpr ?_).symm
    intro v hv w hw
    match vs, hlength with
    | [a], _ =>
        rw [List.mem_singleton.mp hv, List.mem_singleton.mp hw]
  · rfl

/-- The uncorrected variance of values that are merged one by one. -/
theorem getValue_foldl (skewness : SummaryStatsData T → T) (h : Summarizes s vs) {ι : Type*}
    (f : ι → T) (is : List ι) :
    (summaryStatsVariance skewness).getValue false
        (is.foldl (fun acc i => update acc (.initWithValue (f i))) s) =
      Moments.variance (vs ++ is.map f) := by
  have hall := summarizes_foldl h (is.map f)
  rw [List.foldl_map] at hall
  exact hall.variance_eq

end Merge

/-! ## What the loops collect -/

section Collect

variable {T : Type} [Field T] [LinearOrder T] [IsStrictOrderedRing T] [FloorRing T]
variable {info : ShapeInfo}

/-- The first element and the later ones make up all of them. -/
theorem cons_map_range' {α : Type} (f : Nat → α) {n : Nat} (hn : 0 < n) :
    [f 0] ++ (List.range' 1 (n - 1)).map f = (List.range n).map f := by
  obtain ⟨m, rfl⟩ := Nat.exists_eq_succ_of_ne_zero hn.ne'
  rw [List.range_eq_range', List.range'_succ, List.map_cons, zero_add]
  rfl

/-- The variance of a whole array, whatever its layout. -/
theorem execScalar_summaryStats_eq (skewness : SummaryStatsData T → T)
    (startingIndex : SummaryStatsData T) (x : Int → T) (hpos : info.Positive)
    (hews : info.HonestEws) :
    (summaryStatsVariance skewness).execScalar false startingIndex x info =
      Moments.variance ((List.range info.length).map fun k => x (offsetAt info.axes k)) := by
  unfold SummaryStatsOp.execScalar
  simp only
  rw [getValue_foldl skewness (summarizes_initialized startingIndex),
    getValue_foldl skewness (summarizes_initialized startingIndex), List.nil_append,
    List.nil_append]
  split
  · rename_i hone
    have helement : ∀ k < info.length, (k : Int) =
        if info.isFOrder then offsetAtF info.axes k else offsetAt info.axes k := by
      intro k hk
      have honest := hews hone.ge k hk
      rw [hone, mul_one, elementOffset_eq_ite _ _ (by rwa [info.volume_axes])] at honest
      exact honest.symm
    cases horder : info.isFOrder with
    | false =>
        congr 1
        refine List.map_congr_left fun k hk => ?_
        have hoffset := helement k (List.mem_range.mp hk)
        rw [horder, if_neg Bool.false_ne_true] at hoffset
        rw [← hoffset]
    | true =>
        have hperm := (map_offsetAtF_perm hpos.axes 0).map x
        rw [List.map_map, List.map_map, info.volume_axes] at hperm
        refine Eq.trans ?_ ((variance_perm hperm).trans ?_)
        · congr 1
          refine List.map_congr_left fun k hk => ?_
          have hoffset := helement k (List.mem_range.mp hk)
          rw [horder, if_pos rfl] at hoffset
          rw [Function.comp_apply, zero_add, ← hoffset]
        · congr 1
          refine List.map_congr_left fun k _ => ?_
          rw [Function.comp_apply, zero_add]
  · congr 1
    refine List.map_congr_left fun k hk => ?_
    have hbox : InBox info.shape (decode info.shape k) :=
      inBox_decode hpos (List.mem_range.mp hk)
    rw [ind2subC_eq_decode hpos, getOffset_eq hbox info.stride_length, zero_add, offsetAt_eq_dot,
      info.dims_axes, info.map_snd_axes]

variable {dimension : Dimensions info.rank} {ret resultShapeInfo : ShapeInfo}

/-- Up to the choice of the loop, the tensors are cut and no shortcut is taken. -/
structure Cut (info : ShapeInfo) (dimension : Dimensions info.rank)
    (ret resultShapeInfo : ShapeInfo) : Prop where
  ret_eq : (TAD.init info dimension).shapeInfoOnlyShapeAndStride = some ret
  moves : MovesAlong ret (dimension.kept info.axes)
  positive : info.Positive
  result_eq : resultShapeInfo.length = volume (dimension.leftOver info.axes)
  many : volume (dimension.leftOver info.axes) ≠ 1
  proper : dimension.toList.length < info.rank
  wholeThing_eq : (TAD.init info dimension).wholeThing = false

variable (h : Cut info dimension ret resultShapeInfo)

include h

theorem Cut.isScalar_eq : isScalar resultShapeInfo = false := by
  cases hscalar : isScalar resultShapeInfo with
  | false => rfl
  | true => exact absurd (h.result_eq.symm.trans (length_of_isScalar hscalar)) h.many

theorem Cut.getD_createOffsets {i : Nat} (hi : i < resultShapeInfo.length) :
    (TAD.init info dimension).createOffsets.getD i 0 = (TAD.init info dimension).tadOffset i := by
  apply Shape.getD_createOffsets
  rw [numTads_init h.positive]
  exact h.result_eq ▸ hi

theorem Cut.length_ret : ret.length = volume (dimension.kept info.axes) := by
  rw [← ret.volume_axes, h.moves.volume_eq]

theorem Cut.no_shortcut :
    ¬ (resultShapeInfo.length = 1 ∨ dimension.toList.length = info.rank ∨
      (TAD.init info dimension).wholeThing) := by
  rintro (hone | hall | hwhole)
  · exact h.many (h.result_eq.symm.trans hone)
  · exact absurd hall h.proper.ne
  · rw [h.wholeThing_eq] at hwhole
    cases hwhole

/-- The loops that start from the first element collect each tensor from its offset. -/
theorem exec_collect
    (hloop : dimension.toList.length = 1 → 0 < ret.elementWiseStride ∧ isVector ret)
    (skewness : SummaryStatsData T → T) (fuel : Nat) (startingIndex : SummaryStatsData T)
    (x : Int → T) {result : List T} (hlength : result.length = resultShapeInfo.length) :
    (summaryStatsVariance skewness).exec fuel false startingIndex x info result resultShapeInfo
        dimension =
      some ((List.range resultShapeInfo.length).map fun i =>
        Moments.variance ((List.range (volume (dimension.kept info.axes))).map fun j =>
          x ((TAD.init info dimension).tadOffset i + offsetAt (dimension.kept info.axes) j))) := by
  have hkept : 0 < volume (dimension.kept info.axes) :=
    @TAD.volume_kept_pos (TAD.init info dimension) h.positive
  have hsome := List.length_pos_of_ne_nil dimension.ne_nil
  unfold SummaryStatsOp.exec
  simp only
  rw [if_neg (by rw [h.isScalar_eq]; exact Bool.false_ne_true), h.ret_eq, Option.bind_some,
    if_neg h.no_shortcut, h.length_ret]
  by_cases hone : dimension.toList.length = 1
  · obtain ⟨hstride, hvector⟩ := hloop hone
    rw [if_neg (fun hraw => hraw.1 ⟨hstride, Or.inr (Or.inl hvector)⟩), if_pos hone,
      Stores.foldl_set_range _ hlength]
    congr 1
    refine List.map_congr_left fun i hi => ?_
    rw [h.getD_createOffsets (List.mem_range.mp hi),
      getValue_foldl skewness (summarizes_initWithValue _), ← cons_map_range' _ hkept]
    congr 2
    · rw [offsetAt_zero, add_zero]
    · refine List.map_congr_left fun j hj => ?_
      have hj : j < volume (dimension.kept info.axes) := by
        have := List.mem_range'_1.mp hj
        omega
      rw [← offsetAt_congr_squeeze h.moves.squeeze_eq (h.moves.volume_eq ▸ hj),
        h.moves.linear hstride j hj, mul_comm]
  · rw [if_neg (by rintro ⟨-, hshort⟩; omega), if_neg hone, Stores.foldl_set_range _ hlength]
    congr 1
    refine List.map_congr_left fun i hi => ?_
    have hvalue := getValue_foldl skewness
      (summarizes_initWithValue (x ((TAD.init info dimension).tadOffset i)))
      (fun j => x (getOffset ((TAD.init info dimension).tadOffset i) ret.shape ret.stride
        (ind2subC ret.shape j)))
      (List.range' 1 (volume (dimension.kept info.axes) - 1))
    rw [h.getD_createOffsets (List.mem_range.mp hi)]
    refine hvalue.trans ?_
    rw [← cons_map_range' _ hkept]
    congr 2
    · rw [offsetAt_zero, add_zero]
    · refine List.map_congr_left fun j hj => ?_
      have hj : j < volume (dimension.kept info.axes) := by
        have := List.mem_range'_1.mp hj
        omega
      rw [h.moves.getOffset_eq hj]

/-- The raw iteration also counts an element of value zero. -/
theorem exec_raw (hone : dimension.toList.length = 1) (hstride : ret.elementWiseStride ≤ 0)
    (skewness : SummaryStatsData T → T) {fuel : Nat} (hfuel : info.length ≤ fuel)
    (startingIndex : SummaryStatsData T) (x : Int → T) {result : List T}
    (hlength : result.length = resultShapeInfo.length) :
    (summaryStatsVariance skewness).exec fuel false startingIndex x info result resultShapeInfo
        dimension =
      some ((List.range resultShapeInfo.length).map fun i =>
        Moments.variance (0 :: (List.range (volume (dimension.kept info.axes))).map fun j =>
          x ((TAD.init info dimension).tadOffset i + offsetAtF ret.axes j))) := by
  have hkept : 0 < volume (dimension.kept info.axes) :=
    @TAD.volume_kept_pos (TAD.init info dimension) h.positive
  have hpos : ∀ a ∈ ret.axes, 0 < a.1 := by
    intro a ha
    apply Nat.pos_of_ne_zero
    intro hzero
    have hvolume := h.moves.volume_eq
    rw [volume, List.prod_eq_zero (hzero ▸ List.mem_map_of_mem ha)] at hvolume
    omega
  have henough : volume ret.axes ≤ fuel := by
    have hmul := @TAD.volume_kept_mul (TAD.init info dimension)
    have hleft := @TAD.volume_leftOver_pos (TAD.init info dimension) h.positive
    rw [h.moves.volume_eq]
    refine le_trans ?_ hfuel
    exact hmul ▸ Nat.le_mul_of_pos_right _ hleft
  unfold SummaryStatsOp.exec
  simp only [prepareOneRawArrayIter]
  rw [if_neg (by rw [h.isScalar_eq]; exact Bool.false_ne_true), h.ret_eq, Option.bind_some,
    if_neg h.no_shortcut, if_pos ⟨fun hboth => by omega, by omega⟩]
  have hstep : (fun (result : List T) (i : Nat) =>
      (odometer fuel ret.axes ((TAD.init info dimension).createOffsets.getD i 0)).map
        fun visits => result.set i ((summaryStatsVariance skewness).getValue false
          (visits.foldl (fun comp visit => update comp (.initWithValue (x visit.2)))
            (.initWithValue 0)))) =
      fun (result : List T) (i : Nat) => (pure (result.set i (Moments.variance
        (0 :: (List.range (volume (dimension.kept info.axes))).map fun j =>
          x ((TAD.init info dimension).createOffsets.getD i 0 + offsetAtF ret.axes j)))) :
        Option (List T)) := by
    funext result i
    rw [odometer_eq ret.axes _ hpos henough, Option.map_some,
      getValue_foldl skewness (summarizes_initWithValue 0), List.map_map, h.moves.volume_eq]
    rfl
  rw [hstep, List.foldlM_pure, Stores.foldl_set_range _ hlength]
  congr 1
  refine List.map_congr_left fun i hi => ?_
  rw [h.getD_createOffsets (List.mem_range.mp hi)]

end Collect

/-! ## Along dimensions -/

section Along

variable {info : ShapeInfo} {dimension : Dimensions info.rank} {dims : List Int}

/-- Every result has the left-over axes as its shape, and its `t`-th element in C order is
the variance of just the elements at the `t`-th left-over coordinate. -/
def VariesElements (info : ShapeInfo) (dims : List Int) (dimension : Dimensions info.rank) :
    Prop :=
  ∀ (T : Type) [Field T] [LinearOrder T] [IsStrictOrderedRing T] [FloorRing T]
    (skewness : SummaryStatsData T → T) (startingIndex : SummaryStatsData T) (x : Int → T),
    ∀ fuel ≥ info.length, ∃ result,
      (summaryStatsVariance skewness).varianceAlongDimension fuel startingIndex x info false dims =
          .ok (some result) ∧
        ReducedShape (dimension.leftOver info.shape) result.shapeInfo.shape ∧
        ∀ t < (dimension.leftOver info.shape).prod, result.element t =
          some (Moments.variance ((List.range (dimension.kept info.shape).prod).map
            (elementAlong x info dimension (decode (dimension.leftOver info.shape) t))))

/-- The statistics of every tensor are collected from its own elements only: the shortcut
for the whole array is not taken, the one dimension has an element-wise stride to walk by,
and several dimensions do not start below the error marker, unless they do not move. -/
structure Collects (info : ShapeInfo) (dimension : Dimensions info.rank) : Prop where
  no_shortcut : ¬ (2 < info.rank ∧ (dimension.kept info.shape).prod = 1 ∧
    info.elementWiseStride = 1)
  strided : dimension.toList.length = 1 → (dimension.kept info.shape).prod ≠ 1 →
    (dimension.leftOver info.shape).getLastD 1 ≠ 1 ∧ ∀ a ∈ dimension.kept info.axes, 0 < a.2
  starts : dimension.toList.length = 1 ∨ (∀ a ∈ dimension.kept info.axes, a.1 = 1 ∨ a.2 = 0) ∨
    ∀ c, InBox (dimension.leftOver info.shape) c → -1 ≤ dot c (dimension.leftOver info.stride)

/-- Offsets vanish just along axes that do not move. -/
theorem offsetAt_eq_zero_iff {axes : List (Nat × Int)} (hpos : ∀ a ∈ axes, 0 < a.1) :
    (∀ j < volume axes, offsetAt axes j = 0) ↔ ∀ a ∈ axes, a.1 = 1 ∨ a.2 = 0 := by
  induction axes with
  | nil => simp
  | cons a axes ih =>
      have htail : ∀ b ∈ axes, 0 < b.1 := fun b hb => hpos b (List.mem_cons_of_mem a hb)
      have ha := hpos a List.mem_cons_self
      have hvolume := volume_pos htail
      rw [List.forall_mem_cons, ← ih htail, volume_cons]
      constructor
      · intro h
        constructor
        · by_cases hone : a.1 = 1
          · exact Or.inl hone
          · right
            have hlt : volume axes < a.1 * volume axes := lt_mul_of_one_lt_left hvolume (by omega)
            have hstep := h (volume axes) hlt
            rwa [offsetAt_cons, Nat.div_self hvolume, Nat.mod_self, offsetAt_zero, add_zero,
              one_smul] at hstep
        · intro j hj
          have hlt : j < a.1 * volume axes := lt_of_lt_of_le hj (Nat.le_mul_of_pos_left _ ha)
          have hstep := h j hlt
          rwa [offsetAt_cons, Nat.div_eq_of_lt hj, Nat.mod_eq_of_lt hj, zero_smul, zero_add]
            at hstep
      · rintro ⟨hfirst, hrest⟩ j hj
        rw [offsetAt_cons, hrest _ (Nat.mod_lt j hvolume), add_zero]
        rcases hfirst with hone | hzero
        · rw [hone, one_mul] at hj
          rw [Nat.div_eq_of_lt hj, zero_smul]
        · rw [hzero, smul_zero]

/-- Dimensions that leave several coordinates are not all axes. -/
theorem proper_of_many (hmany : (dimension.leftOver info.shape).prod ≠ 1) :
    dimension.toList.length < info.rank := by
  have hsum := length_kept_add dimension (rfl : info.shape.length = info.rank)
  by_contra hall
  have hnil : dimension.leftOver info.shape = [] := List.eq_nil_of_length_eq_zero (by omega)
  rw [hnil] at hmany
  exact hmany rfl

theorem volume_leftOver_eq :
    volume (dimension.leftOver info.axes) = (dimension.leftOver info.shape).prod := by
  rw [volume, dims_leftOver]

theorem volume_kept_eq :
    volume (dimension.kept info.axes) = (dimension.kept info.shape).prod := by
  rw [volume, dims_kept]

theorem pos_kept (hpos : info.Positive) : ∀ a ∈ dimension.kept info.axes, 0 < a.1 :=
  fun a ha => hpos.axes a (Selection.pick_subset _ ha)

/-- Off the shortcut the tensors are cut. -/
theorem exists_cut (hpos : info.Positive) (hews : info.HonestEws) (hmax : info.rank ≤ maxDimension)
    (hmany : (dimension.leftOver info.shape).prod ≠ 1)
    (hshortcut : ¬ (2 < info.rank ∧ (dimension.kept info.shape).prod = 1 ∧
      info.elementWiseStride = 1)) :
    ∃ ret, Cut info dimension ret (evalReduceShapeInfo 'c' info dimension) := by
  have hproper := proper_of_many hmany
  have hsome := List.length_pos_of_ne_nil dimension.ne_nil
  have hvolume : volume (TAD.init info dimension).leftOver ≠ 1 :=
    fun h => hmany (volume_leftOver_eq.symm.trans h)
  obtain ⟨ret, hret, hmoves⟩ := @shapeInfoOnlyShapeAndStride_spec (TAD.init info dimension) hpos
    hews (show 2 ≤ info.rank by omega) hmax hproper
  refine ⟨ret, hret, hmoves, hpos, ?_, hvolume, hproper, ?_⟩
  · rw [volume_leftOver_eq]
    exact (reducedShape_evalReduceShapeInfo 'c' dimension hmax).prod_eq
  · rw [← Bool.not_eq_true, wholeThing_iff hpos hproper hvolume]
    rintro ⟨hrank, hkept, hone⟩
    exact hshortcut ⟨hrank, volume_kept_eq.symm.trans hkept, hone⟩

variable {ret : ShapeInfo} {T : Type}

/-- Along one dimension the tensors have an element-wise stride just if the axis does not
move, or its stride is positive and the last left-over axis moves. -/
theorem ews_of_single (h : Cut info dimension ret (evalReduceShapeInfo 'c' info dimension))
    (hmax : info.rank ≤ maxDimension) (hone : dimension.toList.length = 1) :
    (0 < ret.elementWiseStride ↔ ((dimension.kept info.shape).prod ≠ 1 →
      (dimension.leftOver info.shape).getLastD 1 ≠ 1 ∧ ∀ a ∈ dimension.kept info.axes, 0 < a.2)) ∧
    (0 < ret.elementWiseStride → isVector ret) := by
  have hrank : 2 ≤ info.rank := by
    have hproper := h.proper
    omega
  obtain ⟨k, hk⟩ := List.length_eq_one_iff.mp
    ((length_kept dimension info.length_axes).trans hone)
  have hextent : (dimension.kept info.shape).prod = k.1 := by
    rw [← volume_kept_eq, hk]
    simp
  rw [hextent, hk]
  by_cases hunit : k.1 = 1
  · have hscalar := @shapeInfoOnlyShapeAndStride_unit (TAD.init info dimension) k hrank hmax hone
      hk hunit (Or.inr h.many)
    rw [h.ret_eq, Option.some.injEq] at hscalar
    rw [hscalar]
    have hstride : (0 : Int) < createScalarShapeInfo.elementWiseStride := by decide
    exact ⟨⟨fun _ hmove => absurd hunit hmove, fun _ => hstride⟩, fun _ => rfl⟩
  · obtain ⟨ret', hret', hret⟩ := @shapeInfoOnlyShapeAndStride_single
      (TAD.init info dimension) k h.positive hrank hmax hone hk hunit (firstSlice_init dimension)
      h.many
    rw [h.ret_eq, Option.some.injEq] at hret'
    subst hret'
    have hlast : (dims (TAD.init info dimension).leftOver).getLastD 1 =
        (dimension.leftOver info.shape).getLastD 1 := by
      rw [TAD.dims_leftOver]
      rfl
    cases hret with
    | row hmoves axes_eq ews_eq order_eq =>
        rw [hlast] at hmoves
        rw [ews_eq]
        refine ⟨⟨fun hstride _ => ⟨hmoves, ?_⟩, fun hcond => ?_⟩, fun _ => ?_⟩
        · simpa using hstride
        · exact (hcond hunit).2 k (List.mem_singleton_self k)
        · have hshape : ret.shape = [1, k.1] := by rw [← ret.dims_axes, axes_eq]; rfl
          simp [isVector, ShapeInfo.rank, hshape]
    | padded hstays units hne hunits axes_eq ews_eq order_eq =>
        rw [hlast] at hstays
        rw [ews_eq]
        refine ⟨⟨fun hstride => by omega, fun hcond => ?_⟩, fun hstride => by omega⟩
        exact absurd hstays (hcond hunit).1

/-- Off the shortcuts the result is what the loops along dimensions leave. -/
theorem varianceAlongDimension_of_exec [Field T] [LinearOrder T] [FloorRing T]
    (haccepted : checkDimensions info.rank dims = .ok dimension)
    (hproper : dimension.toList.length < info.rank) {opType : SummaryStatsOp T} {fuel : Nat}
    {startingIndex : SummaryStatsData T} {x : Int → T} {biasCorrected : Bool} {values : List T}
    (h : opType.exec fuel biasCorrected startingIndex x info
      (List.replicate (evalReduceShapeInfo 'c' info dimension).length 0)
      (evalReduceShapeInfo 'c' info dimension) dimension = some values) :
    opType.varianceAlongDimension fuel startingIndex x info biasCorrected dims =
      .ok (some ⟨evalReduceShapeInfo 'c' info dimension, values⟩) := by
  unfold SummaryStatsOp.varianceAlongDimension
  rw [haccepted]
  simp only [Except.map]
  rw [if_neg hproper.ne', h]
  rfl

/-- The variances of the tensors, each from its own offset. -/
theorem varianceAlongDimension_of_cut [Field T] [LinearOrder T] [IsStrictOrderedRing T]
    [FloorRing T] (haccepted : checkDimensions info.rank dims = .ok dimension)
    (h : Cut info dimension ret (evalReduceShapeInfo 'c' info dimension))
    (hloop : dimension.toList.length = 1 → 0 < ret.elementWiseStride ∧ isVector ret)
    (skewness : SummaryStatsData T → T) (fuel : Nat) (startingIndex : SummaryStatsData T)
    (x : Int → T) :
    (summaryStatsVariance skewness).varianceAlongDimension fuel startingIndex x info false dims =
      .ok (some ⟨evalReduceShapeInfo 'c' info dimension,
        (List.range (dimension.leftOver info.shape).prod).map fun i =>
          Moments.variance ((List.range (dimension.kept info.shape).prod).map fun j =>
            x ((TAD.init info dimension).tadOffset i +
              offsetAt (dimension.kept info.axes) j))⟩) := by
  apply varianceAlongDimension_of_exec haccepted h.proper
  rw [exec_collect h hloop skewness fuel startingIndex x List.length_replicate, h.result_eq,
    volume_leftOver_eq, volume_kept_eq]

/-- Where a tensor of several starts. -/
theorem Cut.tadOffset_eq {resultShapeInfo : ShapeInfo} (h : Cut info dimension ret resultShapeInfo)
    {t : Nat} (ht : t < (dimension.leftOver info.shape).prod) :
    (TAD.init info dimension).tadOffset t =
      if dimension.toList.length > 1 then
        max (dot (decode (dimension.leftOver info.shape) t) (dimension.leftOver info.stride)) (-1)
      else
        dot (decode (dimension.leftOver info.shape) t) (dimension.leftOver info.stride) :=
  @tadOffset_of_not_wholeThing (TAD.init info dimension) h.positive h.wholeThing_eq t
    (volume_leftOver_eq.symm ▸ ht)

/-- Where the statistics are collected from the right elements only, the variances are
right. -/
theorem variesElements_of_collects (haccepted : checkDimensions info.rank dims = .ok dimension)
    (hpos : info.Positive) (hews : info.HonestEws) (hmax : info.rank ≤ maxDimension)
    (hmany : (dimension.leftOver info.shape).prod ≠ 1) (h : Collects info dimension) :
    VariesElements info dims dimension := by
  intro T _ _ _ _ skewness startingIndex x fuel hfuel
  obtain ⟨ret, hcut⟩ := exists_cut hpos hews hmax hmany h.no_shortcut
  have hloop : dimension.toList.length = 1 → 0 < ret.elementWiseStride ∧ isVector ret := by
    intro hone
    have hsingle := ews_of_single hcut hmax hone
    have hstride := hsingle.1.mpr (h.strided hone)
    exact ⟨hstride, hsingle.2 hstride⟩
  refine ⟨_, varianceAlongDimension_of_cut haccepted hcut hloop skewness fuel startingIndex x,
    reducedShape_evalReduceShapeInfo 'c' dimension hmax, fun t ht => ?_⟩
  rw [element_evalReduceShapeInfo hpos dimension hmax _ ht, hcut.tadOffset_eq ht]
  have helements : (List.range (dimension.kept info.shape).prod).map
      (elementAlong x info dimension (decode (dimension.leftOver info.shape) t)) =
      (List.range (dimension.kept info.shape).prod).map fun j =>
        x (dot (decode (dimension.leftOver info.shape) t) (dimension.leftOver info.stride) +
          offsetAt (dimension.kept info.axes) j) :=
    List.map_congr_left fun j hj => elementAlong_eq x hpos ht (List.mem_range.mp hj)
  rw [helements]
  have hsome := List.length_pos_of_ne_nil dimension.ne_nil
  rcases h.starts with hone | hstill | hright
  · rw [if_neg (by omega)]
  · -- all elements of a tensor are one and the same cell
    have hzero := (offsetAt_eq_zero_iff (pos_kept hpos)).mpr hstill
    have hsame : ∀ offset : Int, Moments.variance
        ((List.range (dimension.kept info.shape).prod).map fun j =>
          x (offset + offsetAt (dimension.kept info.axes) j)) = 0 := by
      intro offset
      rw [variance_eq_zero_iff]
      have hvalue : ∀ v ∈ (List.range (dimension.kept info.shape).prod).map (fun j =>
          x (offset + offsetAt (dimension.kept info.axes) j)), v = x offset := by
        intro v hv
        obtain ⟨j, hj, rfl⟩ := List.mem_map.mp hv
        rw [hzero j (volume_kept_eq.symm ▸ List.mem_range.mp hj), add_zero]
      intro v hv w hw
      rw [hvalue v hv, hvalue w hw]
    rw [hsame, hsame]
  · rw [max_eq_left (hright _ (inBox_decode (hpos.leftOver dimension) ht)), ite_self]

/-- The statistics of the whole array go to the first entry. -/
theorem exec_whole {T : Type} [Field T] [LinearOrder T] [FloorRing T]
    (hpos : info.Positive) (hews : info.HonestEws) (hmax : info.rank ≤ maxDimension)
    (hproper : dimension.toList.length < info.rank) {resultShapeInfo : ShapeInfo}
    (hwhole : resultShapeInfo.length = 1 ∨ (TAD.init info dimension).wholeThing)
    (opType : SummaryStatsOp T) (fuel : Nat) (biasCorrected : Bool)
    (startingIndex : SummaryStatsData T) (x : Int → T) (result : List T) :
    opType.exec fuel biasCorrected startingIndex x info result resultShapeInfo dimension =
      some (result.set 0 (opType.execScalar biasCorrected startingIndex x info)) := by
  have hsome := List.length_pos_of_ne_nil dimension.ne_nil
  obtain ⟨ret, hret, -⟩ := @shapeInfoOnlyShapeAndStride_spec (TAD.init info dimension) hpos hews
    (show 2 ≤ info.rank by omega) hmax hproper
  unfold SummaryStatsOp.exec
  split
  · rfl
  · simp only
    rw [hret, Option.bind_some, if_pos]
    rcases hwhole with hone | hshortcut
    · exact Or.inl hone
    · exact Or.inr (Or.inr hshortcut)

/-- One left-over coordinate gives the variance of the whole array. -/
theorem variesElements_of_one (haccepted : checkDimensions info.rank dims = .ok dimension)
    (hpos : info.Positive) (hews : info.HonestEws) (hmax : info.rank ≤ maxDimension)
    (hone : (dimension.leftOver info.shape).prod = 1) : VariesElements info dims dimension := by
  intro T _ _ _ _ skewness startingIndex x fuel hfuel
  have hshape := reducedShape_evalReduceShapeInfo 'c' dimension hmax
  have hlength : (evalReduceShapeInfo 'c' info dimension).length = 1 := hshape.prod_eq.trans hone
  have hsum := length_kept_add dimension (rfl : info.shape.length = info.rank)
  have hscalar := execScalar_summaryStats_eq skewness startingIndex x hpos hews
  have hrun : (summaryStatsVariance skewness).varianceAlongDimension fuel startingIndex x info
      false dims = .ok (some ⟨evalReduceShapeInfo 'c' info dimension,
        (List.range (dimension.leftOver info.shape).prod).map fun _ =>
          Moments.variance ((List.range info.length).map fun k => x (offsetAt info.axes k))⟩) := by
    by_cases hall : info.rank = dimension.toList.length
    · unfold SummaryStatsOp.varianceAlongDimension
      rw [haccepted]
      simp only [Except.map]
      rw [if_pos hall, hscalar, hlength, hone]
      rfl
    · have hproper : dimension.toList.length < info.rank := by omega
      apply varianceAlongDimension_of_exec haccepted hproper
      rw [exec_whole hpos hews hmax hproper (Or.inl hlength), hscalar, hlength, hone]
      rfl
  refine ⟨_, hrun, hshape, fun t ht => ?_⟩
  have hzero : t = 0 := by omega
  have hsqueeze : squeeze (dimension.kept info.axes) = squeeze info.axes :=
    Selection.squeeze_pick (volume_leftOver_eq.trans hone)
  have hkept : info.length = (dimension.kept info.shape).prod := by
    rw [← info.volume_axes, ← volume_squeeze, ← hsqueeze, volume_squeeze, volume_kept_eq]
  rw [element_evalReduceShapeInfo hpos dimension hmax _ ht, hkept]
  congr 2
  refine List.map_congr_left fun j hj => ?_
  have hj := List.mem_range.mp hj
  have hstart : dot (decode (dimension.leftOver info.shape) t) (dimension.leftOver info.stride) =
      offsetAt (dimension.leftOver info.axes) t := by
    rw [offsetAt_eq_dot, dims_leftOver, map_snd_leftOver]
  rw [elementAlong_eq x hpos ht hj, hstart, hzero, offsetAt_zero, zero_add,
    offsetAt_congr_squeeze hsqueeze (volume_kept_eq.symm ▸ hj)]

/-- Every cell that an array visits in its own order it visits in C order as well. -/
theorem exists_offsetAt_eq_elementOffset {axes : List (Nat × Int)} (hpos : ∀ a ∈ axes, 0 < a.1)
    (isFOrder : Bool) {k : Nat} (hk : k < volume axes) :
    ∃ j < volume axes, offsetAt axes j = elementOffset isFOrder axes k := by
  rw [elementOffset_eq_ite _ _ hk]
  cases isFOrder with
  | false => exact ⟨k, hk, rfl⟩
  | true =>
      have hmem := (map_offsetAtF_perm hpos 0).mem_iff.mp
        (List.mem_map_of_mem (List.mem_range.mpr hk))
      obtain ⟨j, hj, heq⟩ := List.mem_map.mp hmem
      exact ⟨j, List.mem_range.mp hj, add_left_cancel heq⟩

/-- The shortcut leaves the variance of the whole array in the first entry. -/
theorem no_shortcut_of_variesElements
    (haccepted : checkDimensions info.rank dims = .ok dimension) (hpos : info.Positive)
    (hews : info.HonestEws) (hmax : info.rank ≤ maxDimension)
    (hmany : (dimension.leftOver info.shape).prod ≠ 1) (h : VariesElements info dims dimension) :
    ¬ (2 < info.rank ∧ (dimension.kept info.shape).prod = 1 ∧ info.elementWiseStride = 1) := by
  rintro ⟨hrank, hkept, hunit⟩
  have hproper := proper_of_many hmany
  have hvolume : volume (TAD.init info dimension).leftOver ≠ 1 :=
    fun heq => hmany (volume_leftOver_eq.symm.trans heq)
  have hwhole := (wholeThing_iff hpos hproper hvolume).mpr
    ⟨hrank, volume_kept_eq.trans hkept, hunit⟩
  have hleft : 0 < (dimension.leftOver info.shape).prod :=
    prod_pos_of_pos (hpos.leftOver dimension)
  -- a buffer with one cell that differs from the others
  have hrun := h ℚ (fun _ => 0) ⟨0, 0, 0, 0, 0, 0, 0, 0⟩ (fun i => if i = 0 then 1 else 0)
    info.length le_rfl
  obtain ⟨result, hresult, -, helement⟩ := hrun
  have hexec := varianceAlongDimension_of_exec haccepted hproper
    (exec_whole hpos hews hmax hproper (Or.inr hwhole) (summaryStatsVariance fun _ => (0 : ℚ))
      info.length false ⟨0, 0, 0, 0, 0, 0, 0, 0⟩ (fun i => if i = 0 then 1 else 0)
      (List.replicate (evalReduceShapeInfo 'c' info dimension).length 0))
  have hlength : (evalReduceShapeInfo 'c' info dimension).length =
      (dimension.leftOver info.shape).prod :=
    (reducedShape_evalReduceShapeInfo 'c' dimension hmax).prod_eq
  rw [hresult, Except.ok.injEq, Option.some.injEq, Stores.set_zero_replicate, hlength] at hexec
  have hfirst := helement 0 hleft
  rw [hexec, element_evalReduceShapeInfo hpos dimension hmax _ hleft, if_pos rfl, hkept,
    Option.some.injEq, execScalar_summaryStats_eq _ _ _ hpos hews] at hfirst
  have hsingle : Moments.variance ((List.range 1).map (elementAlong
      (fun i => if i = 0 then (1 : ℚ) else 0) info dimension
      (decode (dimension.leftOver info.shape) 0))) = 0 := by
    rw [variance_eq_zero_iff]
    simp
  rw [hsingle, variance_eq_zero_iff] at hfirst
  have hmul : (dimension.kept info.shape).prod * (dimension.leftOver info.shape).prod =
      info.length := Selection.prod_pick info.shape
  rw [hkept, one_mul] at hmul
  have hone : 1 < info.length := by omega
  -- the second element in the array's order lies in another cell
  obtain ⟨k, hk, hcell⟩ := exists_offsetAt_eq_elementOffset hpos.axes info.isFOrder
    (info.volume_axes.symm ▸ hone)
  rw [hews hunit.ge 1 hone, hunit] at hcell
  have hsame := hfirst _ (List.mem_map_of_mem (List.mem_range.mpr hpos.length_pos)) _
    (List.mem_map_of_mem (List.mem_range.mpr (info.volume_axes ▸ hk)))
  rw [hcell, offsetAt_zero, if_pos rfl, if_neg (by decide)] at hsame
  exact one_ne_zero hsame

/-- The raw iteration finds a variance among equal elements. -/
theorem strided_of_variesElements (haccepted : checkDimensions info.rank dims = .ok dimension)
    (hpos : info.Positive) (hmax : info.rank ≤ maxDimension)
    (hcut : Cut info dimension ret (evalReduceShapeInfo 'c' info dimension))
    (hone : dimension.toList.length = 1) (h : VariesElements info dims dimension) :
    0 < ret.elementWiseStride := by
  by_contra hstride
  have hleft : 0 < (dimension.leftOver info.shape).prod :=
    prod_pos_of_pos (hpos.leftOver dimension)
  have hkept : 0 < (dimension.kept info.shape).prod := prod_pos_of_pos (hpos.kept dimension)
  obtain ⟨result, hresult, -, helement⟩ :=
    h ℚ (fun _ => 0) ⟨0, 0, 0, 0, 0, 0, 0, 0⟩ (fun _ => 1) info.length le_rfl
  have hraw := varianceAlongDimension_of_exec haccepted hcut.proper
    (exec_raw hcut hone (Int.not_lt.mp hstride) (fun _ => (0 : ℚ)) le_rfl
      ⟨0, 0, 0, 0, 0, 0, 0, 0⟩ (fun _ => 1) List.length_replicate)
  rw [hresult, Except.ok.injEq, Option.some.injEq, hcut.result_eq, volume_leftOver_eq,
    volume_kept_eq] at hraw
  have hfirst := helement 0 hleft
  have hequal : Moments.variance ((List.range (dimension.kept info.shape).prod).map (elementAlong
      (fun _ => (1 : ℚ)) info dimension (decode (dimension.leftOver info.shape) 0))) = 0 := by
    rw [variance_eq_zero_iff]
    intro v hv w hw
    obtain ⟨i, -, rfl⟩ := List.mem_map.mp hv
    obtain ⟨j, -, rfl⟩ := List.mem_map.mp hw
    rfl
  rw [hraw, element_evalReduceShapeInfo hpos dimension hmax _ hleft, hequal, Option.some.injEq,
    variance_eq_zero_iff] at hfirst
  have hzero := hfirst 0 List.mem_cons_self 1 (List.mem_cons_of_mem _
    (List.mem_map.mpr ⟨0, List.mem_range.mpr hkept, rfl⟩))
  exact absurd hzero zero_ne_one

/-- A tensor that starts below the error marker misses its first cell. -/
theorem starts_of_variesElements (haccepted : checkDimensions info.rank dims = .ok dimension)
    (hpos : info.Positive) (hmax : info.rank ≤ maxDimension)
    (hcut : Cut info dimension ret (evalReduceShapeInfo 'c' info dimension))
    (hseveral : 1 < dimension.toList.length) (h : VariesElements info dims dimension) :
    (∀ a ∈ dimension.kept info.axes, a.1 = 1 ∨ a.2 = 0) ∨
      ∀ c, InBox (dimension.leftOver info.shape) c →
        -1 ≤ dot c (dimension.leftOver info.stride) := by
  rw [← offsetAt_eq_zero_iff (pos_kept hpos), or_iff_not_imp_left]
  intro hmoves c hc
  by_contra hlow
  push Not at hmoves hlow
  obtain ⟨j₁, hj₁, hne⟩ := hmoves
  obtain ⟨t, ht, rfl⟩ := (bijOn_decode (hpos.leftOver dimension)).surjOn hc
  have ht : t < (dimension.leftOver info.shape).prod := ht
  rw [volume_kept_eq] at hj₁
  have hkept : 0 < (dimension.kept info.shape).prod := by omega
  -- the lowest cell of the tensor
  obtain ⟨j₀, hj₀, hleast⟩ := Finset.exists_min_image
    (Finset.range (dimension.kept info.shape).prod) (offsetAt (dimension.kept info.axes))
    ⟨0, Finset.mem_range.mpr hkept⟩
  have hj₀ := Finset.mem_range.mp hj₀
  generalize hbase : dot (decode (dimension.leftOver info.shape) t)
    (dimension.leftOver info.stride) = base at hlow
  obtain ⟨result, hresult, -, helement⟩ := h ℚ (fun _ => 0) ⟨0, 0, 0, 0, 0, 0, 0, 0⟩
    (fun i => if i = base + offsetAt (dimension.kept info.axes) j₀ then 1 else 0) info.length le_rfl
  rw [varianceAlongDimension_of_cut haccepted hcut (fun hone => by omega), Except.ok.injEq,
    Option.some.injEq] at hresult
  have hvalue := helement t ht
  rw [← hresult, element_evalReduceShapeInfo hpos dimension hmax _ ht, hcut.tadOffset_eq ht,
    if_pos hseveral, hbase, max_eq_right hlow.le, Option.some.injEq] at hvalue
  have hmissed : Moments.variance ((List.range (dimension.kept info.shape).prod).map fun j =>
      if -1 + offsetAt (dimension.kept info.axes) j =
        base + offsetAt (dimension.kept info.axes) j₀ then (1 : ℚ) else 0) = 0 := by
    rw [variance_eq_zero_iff]
    have hzero : ∀ v ∈ (List.range (dimension.kept info.shape).prod).map (fun j =>
        if -1 + offsetAt (dimension.kept info.axes) j =
          base + offsetAt (dimension.kept info.axes) j₀ then (1 : ℚ) else 0), v = 0 := by
      intro v hv
      obtain ⟨j, hj, rfl⟩ := List.mem_map.mp hv
      have hless := hleast j (Finset.mem_range.mpr (List.mem_range.mp hj))
      rw [if_neg (by omega)]
    intro v hv w hw
    rw [hzero v hv, hzero w hw]
  rw [hmissed, eq_comm, variance_eq_zero_iff] at hvalue
  have hmem : ∀ j < (dimension.kept info.shape).prod,
      (if base + offsetAt (dimension.kept info.axes) j =
        base + offsetAt (dimension.kept info.axes) j₀ then (1 : ℚ) else 0) ∈
        (List.range (dimension.kept info.shape).prod).map (elementAlong
          (fun i => if i = base + offsetAt (dimension.kept info.axes) j₀ then (1 : ℚ) else 0) info
          dimension (decode (dimension.leftOver info.shape) t)) := by
    intro j hj
    refine List.mem_map.mpr ⟨j, List.mem_range.mpr hj, ?_⟩
    rw [elementAlong_eq _ hpos ht hj, hbase]
  have hsame : ∀ j < (dimension.kept info.shape).prod,
      offsetAt (dimension.kept info.axes) j = offsetAt (dimension.kept info.axes) j₀ := by
    intro j hj
    by_contra hdiff
    have heq := hvalue _ (hmem j hj) _ (hmem j₀ hj₀)
    rw [if_neg (by omega), if_pos rfl] at heq
    exact zero_ne_one heq
  rw [hsame j₁ hj₁, ← hsame 0 hkept, offsetAt_zero] at hne
  exact hne rfl

theorem collects_of_variesElements (haccepted : checkDimensions info.rank dims = .ok dimension)
    (hpos : info.Positive) (hews : info.HonestEws) (hmax : info.rank ≤ maxDimension)
    (hmany : (dimension.leftOver info.shape).prod ≠ 1) (h : VariesElements info dims dimension) :
    Collects info dimension := by
  have hshortcut := no_shortcut_of_variesElements haccepted hpos hews hmax hmany h
  obtain ⟨ret, hcut⟩ := exists_cut hpos hews hmax hmany hshortcut
  have hsome := List.length_pos_of_ne_nil dimension.ne_nil
  constructor
  · exact hshortcut
  · intro hone
    apply (ews_of_single hcut hmax hone).1.mp
    exact strided_of_variesElements haccepted hpos hmax hcut hone h
  · by_cases hone : dimension.toList.length = 1
    · exact Or.inl hone
    · exact Or.inr (starts_of_variesElements haccepted hpos hmax hcut (by omega) h)

/-- Arrays of one shape with equal elements have equal variances. -/
def VarianceLayoutFree (info : ShapeInfo) (dims : List Int) (dimension : Dimensions info.rank) :
    Prop :=
  ∀ (other : ShapeInfo) (odimension : Dimensions other.rank), other.shape = info.shape →
    checkDimensions other.rank dims = .ok odimension → VariesElements other dims odimension →
    ∀ (T : Type) [Field T] [LinearOrder T] [IsStrictOrderedRing T] [FloorRing T]
      (skewness : SummaryStatsData T → T) (startingIndex : SummaryStatsData T) (x y : Int → T),
      (∀ c, InBox info.shape c → x (dot c info.stride) = y (dot c other.stride)) →
      ∀ fuel ≥ info.length, ∃ result oresult,
        (summaryStatsVariance skewness).varianceAlongDimension fuel startingIndex x info false
          dims = .ok (some result) ∧
        (summaryStatsVariance skewness).varianceAlongDimension fuel startingIndex y other false
          dims = .ok (some oresult) ∧
        result.shapeInfo = oresult.shapeInfo ∧
        ∀ t < (dimension.leftOver info.shape).prod, result.element t = oresult.element t

/-- A run that returns has the shape information of the reduction. -/
theorem shapeInfo_of_varianceAlongDimension [Field T] [LinearOrder T] [FloorRing T]
    (haccepted : checkDimensions info.rank dims = .ok dimension) {opType : SummaryStatsOp T}
    {fuel : Nat} {startingIndex : SummaryStatsData T} {x : Int → T} {biasCorrected : Bool}
    {result : Reduced T}
    (h : opType.varianceAlongDimension fuel startingIndex x info biasCorrected dims =
      .ok (some result)) : result.shapeInfo = evalReduceShapeInfo 'c' info dimension := by
  unfold SummaryStatsOp.varianceAlongDimension at h
  rw [haccepted] at h
  simp only [Except.map, Except.ok.injEq, Option.map_eq_some_iff] at h
  obtain ⟨values, -, rfl⟩ := h
  rfl

/-- Variances of the right elements do not depend on the layout. -/
theorem layoutFree_of_variesElements (haccepted : checkDimensions info.rank dims = .ok dimension)
    (hpos : info.Positive) (h : VariesElements info dims dimension) :
    VarianceLayoutFree info dims dimension := by
  rintro ⟨shape, ostride, ooffset, oews, oorder, olength⟩ odimension hshape hother hvaries T _ _ _ _
    skewness startingIndex x y hequal fuel hfuel
  simp only at hshape
  subst hshape
  have hdimension : odimension = dimension := Except.ok.inj (hother.symm.trans haccepted)
  subst hdimension
  obtain ⟨result, hrun, -, helement⟩ := h T skewness startingIndex x fuel hfuel
  obtain ⟨oresult, horun, -, hoelement⟩ := hvaries T skewness startingIndex y fuel hfuel
  refine ⟨result, oresult, hrun, horun, ?_, fun t ht => ?_⟩
  · rw [shapeInfo_of_varianceAlongDimension haccepted hrun,
      shapeInfo_of_varianceAlongDimension hother horun]
    rfl
  · refine (helement t ht).trans (Eq.trans ?_ (hoelement t ht).symm)
    congr 2
    refine List.map_congr_left fun j hj => ?_
    apply hequal
    exact (bijOn_coordinate odimension rfl).mapsTo (show (_, _) ∈ _ from
      ⟨inBox_decode (hpos.leftOver odimension) ht,
        inBox_decode (hpos.kept odimension) (List.mem_range.mp hj)⟩)

/-- Accepted dimensions name the reduced axes, every result has the left-over axes and the
variances of the right elements, and it does not depend on the layout. -/
def VariesAlong (info : ShapeInfo) (dims : List Int) (dimension : Dimensions info.rank) : Prop :=
  (∀ i : Nat, dimension.mem i ↔ ∃ d ∈ dims, axisOf info.rank d = i) ∧
    VariesElements info dims dimension ∧ VarianceLayoutFree info dims dimension

/-- The variance along dimensions is right exactly if the left-over axes have one
coordinate only, or the statistics of every tensor are collected from its own elements. -/
theorem varies_iff (haccepted : checkDimensions info.rank dims = .ok dimension)
    (hpos : info.Positive) (hews : info.HonestEws) (hmax : info.rank ≤ maxDimension) :
    VariesAlong info dims dimension ↔
      (dimension.leftOver info.shape).prod = 1 ∨ Collects info dimension := by
  have helements : VariesAlong info dims dimension ↔ VariesElements info dims dimension :=
    ⟨fun h => h.2.1, fun h => ⟨checkDimensions_mem haccepted, h,
      layoutFree_of_variesElements haccepted hpos h⟩⟩
  rw [helements]
  by_cases hone : (dimension.leftOver info.shape).prod = 1
  · exact ⟨fun _ => Or.inl hone, fun _ => variesElements_of_one haccepted hpos hews hmax hone⟩
  · rw [or_iff_right hone]
    exact ⟨collects_of_variesElements haccepted hpos hews hmax hone,
      variesElements_of_collects haccepted hpos hews hmax hone⟩

end Along

/-- A stack of two columns. -/
def columns : ShapeInfo where
  shape := [2, 3, 1]
  stride := [3, 1, 1]
  offset := 0
  elementWiseStride := 1
  order := 'c'
  stride_length := rfl

/-- The rows of the columns. -/
def rowAxis : Dimensions columns.rank where
  toList := [1]
  ne_nil := one_ne_nil
  sorted := pairwise_one
  lt_rank := by decide

theorem varies_iff_columns :
    VariesAlong columns [1] rowAxis ↔
      (rowAxis.leftOver columns.shape).prod = 1 ∨ Collects columns rowAxis :=
  varies_iff rfl (by decide) (by decide) (by decide)

/-- The variance of the columns counts a zero as well. -/
theorem not_variesAlong_always :
    ¬ ∀ (info : ShapeInfo) (dims : List Int) (dimension : Dimensions info.rank),
      checkDimensions info.rank dims = .ok dimension → info.Positive → info.HonestEws →
      VariesAlong info dims dimension := by
  intro h
  have hvaries := h columns [1] rowAxis rfl (by decide) (by decide)
  have hcollects := collects_of_variesElements rfl (by decide) (by decide) (by decide) (by decide)
    hvaries.2.1
  exact absurd (hcollects.strided rfl (by decide)).1 (by decide)

end Loops
end LibND4J
