import LibND4J.Loops.ReduceScalar
import LibND4J.Shape.ReduceShape
import LibND4J.Shape.Tad

/-!
# Reducing along dimensions

`NDArray::reduceAlongDimension` checks its dimensions, allocates a result for the
left-over axes, cuts the array into the tensors along the dimensions and folds each of
them.  A result of one element is reduced over the whole array instead.

Main results:

- Theorem `execScalarOf_eq`: reducing a whole array folds its elements, whatever
  the layout.
- Theorem `exec_eq`: the loops along dimensions fold each tensor from its offset.
- Theorem `reduces_iff`: the result is the reduction of the claimed elements exactly
  if no tensor starts at a wrong offset.
-/

namespace LibND4J
namespace Loops

open Strided Shape

variable {T E : Type}

/-! ## The loops -/

/-- `PrepareOneRawArrayIter` copies its arguments. -/
def prepareOneRawArrayIter (axes : List (Nat × Int)) (data : Int) : List (Nat × Int) × Int :=
  (axes, data)

/-- `execScalar` of an array; `fuel` bounds the ticks of the raw iteration. -/
def ReduceOp.execScalarOf (opType : ReduceOp T E) (fuel : Nat) (settings : Settings)
    (x : Int → T) (xShapeInfo : ShapeInfo) (extraParams : E) : Option T :=
  let length := xShapeInfo.length
  let xElementWiseStride := xShapeInfo.elementWiseStride
  if xElementWiseStride ≥ 1 then
    some (opType.execScalar settings x xElementWiseStride length extraParams)
  else
    let (axes, data) := prepareOneRawArrayIter xShapeInfo.axes 0
    (odometer fuel axes data).map fun visits =>
      let start := visits.foldl (fun acc visit => opType.accumulate extraParams acc (x visit.2))
        (opType.startingValue x)
      opType.postProcess start length extraParams

/-- `exec` along dimensions, with the tensors already cut. -/
def ReduceOp.exec (opType : ReduceOp T E) (fuel : Nat) (settings : Settings) (x : Int → T)
    (xShapeInfo : ShapeInfo) (extraParams : E) (resultShapeInfo : ShapeInfo)
    (dimension : Dimensions xShapeInfo.rank) (tadShapeInfo : ShapeInfo) (tadOffsets : List Int) :
    Option (List T) :=
  let resultLength := resultShapeInfo.length
  if resultLength = 1 ∨ dimension.toList.length = xShapeInfo.rank then
    (opType.execScalarOf fuel settings x xShapeInfo extraParams).map fun value => [value]
  else
    let tadLength := Shape.tadLength xShapeInfo.shape dimension.toList
    let numTads := xShapeInfo.length / tadLength
    let tadEWS := tadShapeInfo.elementWiseStride
    if tadEWS > 0 ∧ (numTads = 1 ∨ isVector tadShapeInfo ∨ isScalar tadShapeInfo) then
      some ((List.range resultLength).map fun i =>
        let iter := fun k : Int => x (tadOffsets.getD i 0 + k)
        let start := (List.range tadLength).foldl
          (fun acc (j : Nat) =>
            opType.accumulate extraParams acc (iter (if tadEWS = 1 then (j : Int) else j * tadEWS)))
          (opType.startingValue iter)
        opType.postProcess start tadLength extraParams)
    else
      some ((List.range resultLength).map fun i =>
        let offset := tadOffsets.getD i 0
        let start := (List.range tadLength).foldl
          (fun acc j =>
            let xCoord := ind2subC tadShapeInfo.shape j
            let xOffset := getOffset offset tadShapeInfo.shape tadShapeInfo.stride xCoord
            opType.accumulate extraParams acc (x xOffset))
          (opType.startingValue fun k => x (offset + k))
        opType.postProcess start tadLength extraParams)

/-- The shape information and the buffer of a result. -/
structure Reduced (T : Type) where
  shapeInfo : ShapeInfo
  buffer : List T

/-- `NDArray::reduceAlongDimension`.  `none` stands for a raw iteration that runs out of
fuel, or for tensors whose shape information is left unset. -/
def ReduceOp.reduceAlongDimension (opType : ReduceOp T E) (fuel : Nat) (settings : Settings)
    (buffer : Int → T) (shapeInfo : ShapeInfo) (extraParams : E) (dimensions : List Int) :
    Except String (Option (Reduced T)) :=
  (checkDimensions shapeInfo.rank dimensions).map fun copy =>
    let newShape := evalReduceShapeInfo 'c' shapeInfo copy
    let result :=
      if shapeInfo.rank = copy.toList.length then
        (opType.execScalarOf fuel settings buffer shapeInfo extraParams).map fun value => [value]
      else
        let tad := TAD.init shapeInfo copy
        tad.shapeInfoOnlyShapeAndStride.bind fun tadOnlyShapeInfo =>
          opType.exec fuel settings buffer shapeInfo extraParams newShape copy tadOnlyShapeInfo
            tad.createOffsets
    result.map fun values => ⟨newShape, values⟩

/-! ## What a reduction means -/

/-- The laws of a reduce operation on the elements of an array: the starting value looks
at the first element only, and the update is associative and commutative on the values
met, a repeated starting value being absorbed. -/
structure ReduceOp.Lawful (opType : ReduceOp T E) (extraParams : E) (elements met : Set T) :
    Prop where
  start : ∀ x y : Int → T, x 0 = y 0 → opType.startingValue x = opType.startingValue y
  op_mem : ∀ a ∈ elements, opType.op a extraParams ∈ met
  regular : ∀ x : Int → T, x 0 ∈ elements →
    Folds.Regular (fun a b => opType.update a b extraParams) (opType.startingValue x) met

/-- The reduction of a list of elements, from the starting value for its first one. -/
def ReduceOp.reduceValues (opType : ReduceOp T E) (extraParams : E) (v : Nat → T) (n : Nat) : T :=
  opType.postProcess
    ((List.range n).foldl (fun acc j => opType.accumulate extraParams acc (v j))
      (opType.startingValue fun _ => v 0))
    n extraParams

/-- The elements of an array. -/
def elementsOf (x : Int → T) (info : ShapeInfo) : Set T :=
  {a | ∃ c, InBox info.shape c ∧ x (dot c info.stride) = a}

section Whole

variable {opType : ReduceOp T E} {extraParams : E} {elements met : Set T}

/-- The order of the elements is irrelevant to the fold. -/
theorem ReduceOp.Lawful.foldl_perm (h : opType.Lawful extraParams elements met) {x : Int → T}
    (hx : x 0 ∈ elements) {vs ws : List T} (hperm : vs.Perm ws) (hvs : ∀ a ∈ vs, a ∈ elements) :
    vs.foldl (opType.accumulate extraParams) (opType.startingValue x) =
      ws.foldl (opType.accumulate extraParams) (opType.startingValue x) := by
  have hreg := h.regular x hx
  have hmap : ∀ us : List T, us.foldl (opType.accumulate extraParams) (opType.startingValue x) =
      (us.map fun a => opType.op a extraParams).foldl
        (fun a b => opType.update a b extraParams) (opType.startingValue x) := by
    intro us
    rw [List.foldl_map]
    rfl
  rw [hmap, hmap]
  apply hreg.foldl_perm (hperm.map _) hreg.start_mem
  intro r hr
  obtain ⟨a, ha, rfl⟩ := List.mem_map.mp hr
  exact h.op_mem a (hvs a ha)

variable {x : Int → T} {info : ShapeInfo}

theorem mem_elementsOf_decode (hpos : info.Positive) {k : Nat} (hk : k < info.length) :
    x (offsetAt info.axes k) ∈ elementsOf x info := by
  refine ⟨decode info.shape k, inBox_decode hpos hk, ?_⟩
  rw [offsetAt_eq_dot, info.dims_axes, info.map_snd_axes]

theorem mem_elementsOf_decodeF (hpos : info.Positive) {k : Nat} (hk : k < info.length) :
    x (offsetAtF info.axes k) ∈ elementsOf x info := by
  refine ⟨decodeF info.shape k, (bijOn_decodeF hpos).mapsTo hk, ?_⟩
  rw [offsetAtF_eq_dot info.axes (by rwa [info.volume_axes]), info.dims_axes, info.map_snd_axes]

/-- The first element lies at the start of the buffer. -/
theorem zero_mem_elementsOf (hpos : info.Positive) : x 0 ∈ elementsOf x info := by
  have h := mem_elementsOf_decode (x := x) hpos hpos.length_pos
  rwa [offsetAt_zero] at h

variable (h : opType.Lawful extraParams (elementsOf x info) met)

include h

/-- Folding the elements in column-major order is folding them in row-major order. -/
theorem ReduceOp.Lawful.foldl_decodeF (hpos : info.Positive) :
    (List.range info.length).foldl
        (fun acc k => opType.accumulate extraParams acc (x (offsetAtF info.axes k)))
        (opType.startingValue x) =
      (List.range info.length).foldl
        (fun acc k => opType.accumulate extraParams acc (x (offsetAt info.axes k)))
        (opType.startingValue x) := by
  have hperm := (map_offsetAtF_perm hpos.axes 0).map x
  rw [List.map_map, List.map_map, info.volume_axes] at hperm
  have hfold := h.foldl_perm (zero_mem_elementsOf hpos) hperm fun a ha => by
    obtain ⟨k, hk, rfl⟩ := List.mem_map.mp ha
    rw [Function.comp_apply, zero_add]
    exact mem_elementsOf_decodeF hpos (List.mem_range.mp hk)
  rw [List.foldl_map, List.foldl_map] at hfold
  simpa only [Function.comp_apply, zero_add] using hfold

/-- Reducing a whole array reduces its elements in C order, whatever its layout. -/
theorem execScalarOf_eq (hpos : info.Positive) (hews : info.HonestEws) (settings : Settings)
    {fuel : Nat} (hfuel : info.length ≤ fuel) :
    opType.execScalarOf fuel settings x info extraParams =
      some (opType.reduceValues extraParams (fun k => x (offsetAt info.axes k)) info.length) := by
  have hstart : opType.startingValue (fun _ => x (offsetAt info.axes 0)) =
      opType.startingValue x := h.start _ _ (by rw [offsetAt_zero])
  unfold ReduceOp.execScalarOf ReduceOp.reduceValues
  rw [hstart]
  simp only
  by_cases hstrided : info.elementWiseStride ≥ 1
  · rw [if_pos hstrided]
    have helement : ∀ k < info.length, (k : Int) * info.elementWiseStride =
        if info.isFOrder then offsetAtF info.axes k else offsetAt info.axes k := by
      intro k hk
      rw [← hews hstrided k hk, elementOffset_eq_ite _ _ (by rwa [info.volume_axes])]
    have hmem : ∀ k < info.length, x (k * info.elementWiseStride) ∈ elementsOf x info := by
      intro k hk
      rw [helement k hk]
      split
      · exact mem_elementsOf_decodeF hpos hk
      · exact mem_elementsOf_decode hpos hk
    have hfold : opType.sequentialFold x info.elementWiseStride info.length extraParams =
        (List.range info.length).foldl
          (fun acc k => opType.accumulate extraParams acc (x (offsetAt info.axes k)))
          (opType.startingValue x) := by
      have hcongr : opType.sequentialFold x info.elementWiseStride info.length extraParams =
          (List.range info.length).foldl (fun acc k => opType.accumulate extraParams acc
            (x (if info.isFOrder then offsetAtF info.axes k else offsetAt info.axes k)))
            (opType.startingValue x) := by
        apply List.foldl_ext
        intro acc k hk
        rw [helement k (List.mem_range.mp hk)]
      rw [hcongr]
      cases info.isFOrder with
      | false => rfl
      | true => exact h.foldl_decodeF hpos
    rw [execScalar_regular opType settings x info.elementWiseStride hpos.length_pos extraParams
      (h.regular x (zero_mem_elementsOf hpos)) fun k hk => h.op_mem _ (hmem k hk), hfold]
  · rw [if_neg hstrided]
    simp only [prepareOneRawArrayIter]
    rw [odometer_eq info.axes 0 hpos.axes (by rwa [info.volume_axes]), Option.map_some,
      List.foldl_map, info.volume_axes]
    simp only [zero_add]
    rw [h.foldl_decodeF hpos]

end Whole

/-! ## Along dimensions -/

/-- The loops along dimensions fold each tensor from its offset. -/
theorem exec_eq (opType : ReduceOp T E) (fuel : Nat) (settings : Settings) (x : Int → T)
    {info : ShapeInfo} (extraParams : E) {dimension : Dimensions info.rank}
    {resultShapeInfo tadShapeInfo : ShapeInfo} (tadOffsets : List Int)
    (hresult : resultShapeInfo.length ≠ 1) (hproper : dimension.toList.length < info.rank)
    (hmoves : MovesAlong tadShapeInfo (dimension.kept info.axes)) :
    opType.exec fuel settings x info extraParams resultShapeInfo dimension tadShapeInfo
        tadOffsets =
      some ((List.range resultShapeInfo.length).map fun i =>
        opType.postProcess
          ((List.range (volume (dimension.kept info.axes))).foldl
            (fun acc j => opType.accumulate extraParams acc
              (x (tadOffsets.getD i 0 + offsetAt (dimension.kept info.axes) j)))
            (opType.startingValue fun k => x (tadOffsets.getD i 0 + k)))
          (volume (dimension.kept info.axes)) extraParams) := by
  have hlength : Shape.tadLength info.shape dimension.toList =
      volume (dimension.kept info.axes) := by
    rw [tadLength_eq dimension rfl, volume, dims_kept]
  unfold ReduceOp.exec
  simp only
  rw [if_neg (by omega), hlength]
  split
  · rename_i hlinear
    congr 1
    refine List.map_congr_left fun i _ => ?_
    congr 1
    apply List.foldl_ext
    intro acc j hj
    have hstep : (if tadShapeInfo.elementWiseStride = 1 then (j : Int)
        else j * tadShapeInfo.elementWiseStride) = offsetAt (dimension.kept info.axes) j := by
      have hj := List.mem_range.mp hj
      rw [← offsetAt_congr_squeeze hmoves.squeeze_eq (hmoves.volume_eq ▸ hj),
        hmoves.linear (by omega) j hj]
      split
      · rename_i hone
        rw [hone, mul_one]
      · rfl
    rw [hstep]
  · congr 1
    refine List.map_congr_left fun i _ => ?_
    congr 1
    apply List.foldl_ext
    intro acc j hj
    rw [hmoves.getOffset_eq (List.mem_range.mp hj)]

/-- The `t`-th element of a result in C order. -/
def Reduced.element (result : Reduced T) (t : Nat) : Option T :=
  result.buffer[(getOffset 0 result.shapeInfo.shape result.shapeInfo.stride
    (ind2subC result.shapeInfo.shape t)).toNat]?

/-- A fresh result holds its elements one after the other. -/
theorem element_evalReduceShapeInfo {info : ShapeInfo} (hpos : info.Positive)
    (dimension : Dimensions info.rank) (hmax : info.rank ≤ maxDimension) (f : Nat → T) {t : Nat}
    (ht : t < (dimension.leftOver info.shape).prod) :
    Reduced.element ⟨evalReduceShapeInfo 'c' info dimension,
      (List.range (dimension.leftOver info.shape).prod).map f⟩ t = some (f t) := by
  have hshape := reducedShape_evalReduceShapeInfo 'c' dimension hmax
  have hoffset := getOffset_updateStrides (hshape.pos (hpos.leftOver dimension))
    (hshape.prod_eq ▸ ht)
  have hstride : (evalReduceShapeInfo 'c' info dimension).stride =
      (updateStrides (evalReduceShapeInfo 'c' info dimension).shape 'c').stride := rfl
  simp only [Reduced.element]
  rw [hstride, hoffset, Int.toNat_natCast, List.getElem?_map, List.getElem?_range ht]
  rfl

section Tensors

variable {info : ShapeInfo} {dimension : Dimensions info.rank} {dims : List Int}

/-- A result of more than one element is folded tensor by tensor. -/
theorem reduceAlongDimension_of_many (haccepted : checkDimensions info.rank dims = .ok dimension)
    (hpos : info.Positive) (hews : info.HonestEws) (hmax : info.rank ≤ maxDimension)
    (hmany : (dimension.leftOver info.shape).prod ≠ 1) (opType : ReduceOp T E) (fuel : Nat)
    (settings : Settings) (x : Int → T) (extraParams : E) :
    opType.reduceAlongDimension fuel settings x info extraParams dims =
      .ok (some ⟨evalReduceShapeInfo 'c' info dimension,
        (List.range (dimension.leftOver info.shape).prod).map fun i =>
          opType.postProcess
            ((List.range (dimension.kept info.shape).prod).foldl
              (fun acc j => opType.accumulate extraParams acc
                (x ((TAD.init info dimension).tadOffset i +
                  offsetAt (dimension.kept info.axes) j)))
              (opType.startingValue fun k => x ((TAD.init info dimension).tadOffset i + k)))
            (dimension.kept info.shape).prod extraParams⟩) := by
  have hshape := reducedShape_evalReduceShapeInfo 'c' dimension hmax
  have hlength : (evalReduceShapeInfo 'c' info dimension).length =
      (dimension.leftOver info.shape).prod := hshape.prod_eq
  have hsum := length_kept_add dimension (rfl : info.shape.length = info.rank)
  have hsome := List.length_pos_of_ne_nil dimension.ne_nil
  have hproper : dimension.toList.length < info.rank := by
    by_contra hall
    have hnil : dimension.leftOver info.shape = [] := List.eq_nil_of_length_eq_zero (by omega)
    rw [hnil] at hmany
    exact hmany rfl
  have hvolume : volume (dimension.kept info.axes) = (dimension.kept info.shape).prod := by
    rw [volume, dims_kept]
  obtain ⟨tadOnlyShapeInfo, htad, hmoves⟩ :=
    @shapeInfoOnlyShapeAndStride_spec (TAD.init info dimension) hpos hews
      (show 2 ≤ info.rank by omega) hmax hproper
  have hmoves : MovesAlong tadOnlyShapeInfo (dimension.kept info.axes) := hmoves
  have hnum : (TAD.init info dimension).numTads = (dimension.leftOver info.shape).prod := by
    rw [numTads_init hpos, volume, TAD.dims_leftOver]
    rfl
  unfold ReduceOp.reduceAlongDimension
  rw [haccepted]
  simp only [Except.map]
  rw [if_neg (by omega), htad, Option.bind_some,
    exec_eq opType fuel settings x extraParams _ (by rwa [hlength]) hproper hmoves, hlength,
    hvolume]
  simp only [Option.map_some]
  congr 3
  refine List.map_congr_left fun i hi => ?_
  rw [getD_createOffsets _ (hnum ▸ List.mem_range.mp hi)]

variable {opType : ReduceOp T E} {x : Int → T} {extraParams : E} {settings : Settings}

/-- A result of one element is reduced over the whole array. -/
theorem reduceAlongDimension_of_one (haccepted : checkDimensions info.rank dims = .ok dimension)
    (hpos : info.Positive) (hews : info.HonestEws) (hmax : info.rank ≤ maxDimension)
    (hone : (dimension.leftOver info.shape).prod = 1) {met : Set T}
    (h : opType.Lawful extraParams (elementsOf x info) met) (settings : Settings) {fuel : Nat}
    (hfuel : info.length ≤ fuel) :
    opType.reduceAlongDimension fuel settings x info extraParams dims =
      .ok (some ⟨evalReduceShapeInfo 'c' info dimension,
        [opType.reduceValues extraParams (fun k => x (offsetAt info.axes k)) info.length]⟩) := by
  have hshape := reducedShape_evalReduceShapeInfo 'c' dimension hmax
  have hlength : (evalReduceShapeInfo 'c' info dimension).length = 1 := hshape.prod_eq.trans hone
  have hsum := length_kept_add dimension (rfl : info.shape.length = info.rank)
  have hsome := List.length_pos_of_ne_nil dimension.ne_nil
  have hscalar := execScalarOf_eq h hpos hews settings hfuel
  unfold ReduceOp.reduceAlongDimension
  rw [haccepted]
  simp only [Except.map]
  by_cases hall : info.rank = dimension.toList.length
  · rw [if_pos hall, hscalar]
    rfl
  · obtain ⟨tadOnlyShapeInfo, htad, -⟩ :=
      @shapeInfoOnlyShapeAndStride_spec (TAD.init info dimension) hpos hews
        (show 2 ≤ info.rank by omega) hmax (show dimension.toList.length < info.rank by omega)
    rw [if_neg hall, htad, Option.bind_some, ReduceOp.exec]
    simp only
    rw [if_pos (Or.inl hlength), hscalar]
    rfl

/-- The element of the array with the given left-over coordinate and the given number
along the dimensions. -/
def elementAlong (x : Int → T) (info : ShapeInfo) (dimension : Dimensions info.rank) (u : List Nat)
    (j : Nat) : T :=
  x (dot (dimension.coordinate u (decode (dimension.kept info.shape) j)) info.stride)

/-- Every lawful reduction along the dimensions has the left-over axes as its shape, and
its `t`-th element in C order reduces just the elements at the `t`-th left-over
coordinate. -/
def ReducesElements (settings : Settings) (info : ShapeInfo) (dims : List Int)
    (dimension : Dimensions info.rank) : Prop :=
  ∀ (T E : Type) (opType : ReduceOp T E) (extraParams : E) (x : Int → T) (met : Set T),
    opType.Lawful extraParams (elementsOf x info) met → ∀ fuel ≥ info.length,
      ∃ result, opType.reduceAlongDimension fuel settings x info extraParams dims =
          .ok (some result) ∧
        ReducedShape (dimension.leftOver info.shape) result.shapeInfo.shape ∧
        ∀ t < (dimension.leftOver info.shape).prod, result.element t =
          some (opType.reduceValues extraParams
            (elementAlong x info dimension (decode (dimension.leftOver info.shape) t))
            (dimension.kept info.shape).prod)

theorem elementAlong_eq (x : Int → T) (hpos : info.Positive) {t j : Nat}
    (ht : t < (dimension.leftOver info.shape).prod) (hj : j < (dimension.kept info.shape).prod) :
    elementAlong x info dimension (decode (dimension.leftOver info.shape) t) j =
      x (dot (decode (dimension.leftOver info.shape) t) (dimension.leftOver info.stride) +
        offsetAt (dimension.kept info.axes) j) := by
  rw [elementAlong, dot_coordinate dimension (inBox_decode (hpos.leftOver dimension) ht)
    (inBox_decode (hpos.kept dimension) hj), offsetAt_eq_dot, dims_kept, map_snd_kept]

/-- The offsets of all tensors are those of their left-over coordinates. -/
def StartsRight (info : ShapeInfo) (dimension : Dimensions info.rank) : Prop :=
  ∀ t < (dimension.leftOver info.shape).prod, (TAD.init info dimension).tadOffset t =
    dot (decode (dimension.leftOver info.shape) t) (dimension.leftOver info.stride)

/-- The laws make the starting value that of the first element. -/
theorem reduceValues_congr {elements met : Set T} (h : opType.Lawful extraParams elements met)
    {v : Nat → T} {n : Nat} {w : Nat → T} (hx : x 0 = w 0) (hw : ∀ j < n, v j = w j) :
    opType.postProcess ((List.range n).foldl
        (fun acc j => opType.accumulate extraParams acc (v j)) (opType.startingValue x))
      n extraParams = opType.reduceValues extraParams w n := by
  rw [ReduceOp.reduceValues, h.start x (fun _ => w 0) hx]
  congr 1
  apply List.foldl_ext
  intro acc j hj
  rw [hw j (List.mem_range.mp hj)]

/-- Right offsets give the right elements. -/
theorem reducesElements_of_many (haccepted : checkDimensions info.rank dims = .ok dimension)
    (hpos : info.Positive) (hews : info.HonestEws) (hmax : info.rank ≤ maxDimension)
    (hmany : (dimension.leftOver info.shape).prod ≠ 1) (hright : StartsRight info dimension)
    (settings : Settings) : ReducesElements settings info dims dimension := by
  intro T E opType extraParams x met hlaw fuel hfuel
  refine ⟨_, reduceAlongDimension_of_many haccepted hpos hews hmax hmany opType fuel settings x
    extraParams, reducedShape_evalReduceShapeInfo 'c' dimension hmax, fun t ht => ?_⟩
  rw [element_evalReduceShapeInfo hpos dimension hmax _ ht, hright t ht]
  have hkept : 0 < (dimension.kept info.shape).prod := prod_pos_of_pos (hpos.kept dimension)
  congr 1
  apply reduceValues_congr hlaw
  · rw [elementAlong_eq x hpos ht hkept, offsetAt_zero]
  · intro j hj
    rw [elementAlong_eq x hpos ht hj]

/-- The whole array is the only tensor when one left-over coordinate exists. -/
theorem reducesElements_of_one (haccepted : checkDimensions info.rank dims = .ok dimension)
    (hpos : info.Positive) (hews : info.HonestEws) (hmax : info.rank ≤ maxDimension)
    (hone : (dimension.leftOver info.shape).prod = 1) (settings : Settings) :
    ReducesElements settings info dims dimension := by
  intro T E opType extraParams x met hlaw fuel hfuel
  have hresult := reduceAlongDimension_of_one haccepted hpos hews hmax hone hlaw settings hfuel
  refine ⟨_, hresult, reducedShape_evalReduceShapeInfo 'c' dimension hmax, fun t ht => ?_⟩
  have hzero : t = 0 := by omega
  have hvolume : volume (dimension.leftOver info.axes) = 1 := by rw [volume, dims_leftOver, hone]
  have hsqueeze : squeeze (dimension.kept info.axes) = squeeze info.axes :=
    Selection.squeeze_pick hvolume
  have hlength : info.length = (dimension.kept info.shape).prod := by
    rw [← info.volume_axes, ← volume_squeeze, ← hsqueeze, volume_squeeze, volume, dims_kept]
  have hlist : [opType.reduceValues extraParams (fun k => x (offsetAt info.axes k)) info.length] =
      (List.range (dimension.leftOver info.shape).prod).map fun _ =>
        opType.reduceValues extraParams (fun k => x (offsetAt info.axes k)) info.length := by
    rw [hone]
    rfl
  rw [hlist, element_evalReduceShapeInfo hpos dimension hmax _ ht, hlength]
  have hkept : 0 < (dimension.kept info.shape).prod := prod_pos_of_pos (hpos.kept dimension)
  have hoffset : ∀ j < (dimension.kept info.shape).prod,
      x (offsetAt info.axes j) =
        elementAlong x info dimension (decode (dimension.leftOver info.shape) t) j := by
    intro j hj
    have hdot : dot (decode (dimension.leftOver info.shape) t) (dimension.leftOver info.stride) =
        offsetAt (dimension.leftOver info.axes) t := by
      rw [offsetAt_eq_dot, dims_leftOver, map_snd_leftOver]
    rw [elementAlong_eq x hpos ht hj, hdot, hzero, offsetAt_zero, zero_add,
      offsetAt_congr_squeeze hsqueeze (by rwa [volume, dims_kept])]
  congr 1
  exact reduceValues_congr hlaw (hoffset 0 hkept) hoffset

theorem sumOp_lawful (elements : Set Int) : sumOp.Lawful () elements Set.univ where
  start := fun _ _ _ => rfl
  op_mem := fun _ _ => Set.mem_univ _
  regular := fun _ _ => sumOp_unital.regular

/-- Summing a buffer of its own indices adds the offset for each element. -/
theorem foldl_sum_offset (offset : Int) (g : Nat → Int) (n : Nat) :
    (List.range n).foldl (fun acc j => sumOp.accumulate () acc (offset + g j)) 0 =
      n * offset + (List.range n).foldl (fun acc j => sumOp.accumulate () acc (g j)) 0 := by
  induction n with
  | zero => simp
  | succ n ih =>
      rw [List.range_succ, List.foldl_append, List.foldl_append, ih]
      simp only [List.foldl_cons, List.foldl_nil, ReduceOp.accumulate, sumOp]
      push_cast
      ring

/-- The sums of a buffer of its own indices tell the offsets apart. -/
theorem startsRight_of_reducesElements (haccepted : checkDimensions info.rank dims = .ok dimension)
    (hpos : info.Positive) (hews : info.HonestEws) (hmax : info.rank ≤ maxDimension)
    (hmany : (dimension.leftOver info.shape).prod ≠ 1)
    (h : ReducesElements settings info dims dimension) : StartsRight info dimension := by
  intro t ht
  obtain ⟨result, hresult, -, helement⟩ :=
    h Int Unit sumOp () id Set.univ (sumOp_lawful _) info.length le_rfl
  rw [reduceAlongDimension_of_many haccepted hpos hews hmax hmany] at hresult
  simp only [Except.ok.injEq, Option.some.injEq] at hresult
  have hsum := helement t ht
  have hkept : 0 < (dimension.kept info.shape).prod := prod_pos_of_pos (hpos.kept dimension)
  have hspec : sumOp.reduceValues ()
      (elementAlong id info dimension (decode (dimension.leftOver info.shape) t))
      (dimension.kept info.shape).prod =
      (List.range (dimension.kept info.shape).prod).foldl (fun acc j => sumOp.accumulate () acc
        (dot (decode (dimension.leftOver info.shape) t) (dimension.leftOver info.stride) +
          offsetAt (dimension.kept info.axes) j)) 0 := by
    show (List.range _).foldl _ 0 = _
    apply List.foldl_ext
    intro acc j hj
    rw [elementAlong_eq id hpos ht (List.mem_range.mp hj)]
    rfl
  rw [← hresult, element_evalReduceShapeInfo hpos dimension hmax _ ht, Option.some.injEq, hspec,
    foldl_sum_offset] at hsum
  have hfold := foldl_sum_offset ((TAD.init info dimension).tadOffset t)
    (fun j => offsetAt (dimension.kept info.axes) j) (dimension.kept info.shape).prod
  have heq := add_right_cancel (hfold.symm.trans hsum)
  exact mul_left_cancel₀ (by exact_mod_cast hkept.ne') heq

/-- Arrays of one shape with equal elements have equal results. -/
def LayoutFree (settings : Settings) (info : ShapeInfo) (dims : List Int)
    (dimension : Dimensions info.rank) : Prop :=
  ∀ (other : ShapeInfo) (odimension : Dimensions other.rank), other.shape = info.shape →
    checkDimensions other.rank dims = .ok odimension →
    ReducesElements settings other dims odimension →
    ∀ (T E : Type) (opType : ReduceOp T E) (extraParams : E) (x y : Int → T) (met : Set T),
      opType.Lawful extraParams (elementsOf x info) met →
      (∀ c, InBox info.shape c → x (dot c info.stride) = y (dot c other.stride)) →
      ∀ fuel ≥ info.length, ∃ result oresult,
        opType.reduceAlongDimension fuel settings x info extraParams dims = .ok (some result) ∧
        opType.reduceAlongDimension fuel settings y other extraParams dims = .ok (some oresult) ∧
        result.shapeInfo = oresult.shapeInfo ∧
        ∀ t < (dimension.leftOver info.shape).prod, result.element t = oresult.element t

/-- A run that returns has the shape information of the reduction. -/
theorem shapeInfo_of_reduceAlongDimension
    (haccepted : checkDimensions info.rank dims = .ok dimension) {fuel : Nat} {result : Reduced T}
    (h : opType.reduceAlongDimension fuel settings x info extraParams dims = .ok (some result)) :
    result.shapeInfo = evalReduceShapeInfo 'c' info dimension := by
  unfold ReduceOp.reduceAlongDimension at h
  rw [haccepted] at h
  simp only [Except.map, Except.ok.injEq, Option.map_eq_some_iff] at h
  obtain ⟨values, -, rfl⟩ := h
  rfl

theorem reduceValues_ext (opType : ReduceOp T E) (extraParams : E) {v w : Nat → T} {n : Nat}
    (hn : 0 < n) (h : ∀ j < n, v j = w j) :
    opType.reduceValues extraParams v n = opType.reduceValues extraParams w n := by
  rw [ReduceOp.reduceValues, ReduceOp.reduceValues, h 0 hn]
  congr 1
  apply List.foldl_ext
  intro acc j hj
  rw [h j (List.mem_range.mp hj)]

/-- Results that are the reductions of their elements do not depend on the layout. -/
theorem layoutFree_of_reducesElements (haccepted : checkDimensions info.rank dims = .ok dimension)
    (hpos : info.Positive) (h : ReducesElements settings info dims dimension) :
    LayoutFree settings info dims dimension := by
  rintro ⟨shape, ostride, ooffset, oews, oorder, olength⟩ odimension hshape hother hreduces T E
    opType extraParams x y met hlaw hequal fuel hfuel
  simp only at hshape
  subst hshape
  have hdimension : odimension = dimension := by
    have heq := hother.symm.trans haccepted
    exact Except.ok.inj heq
  subst hdimension
  have helements : elementsOf y ⟨info.shape, ostride, ooffset, oews, oorder, olength⟩ =
      elementsOf x info := by
    ext a
    constructor
    · rintro ⟨c, hc, rfl⟩
      exact ⟨c, hc, hequal c hc⟩
    · rintro ⟨c, hc, rfl⟩
      exact ⟨c, hc, (hequal c hc).symm⟩
  obtain ⟨result, hrun, -, helement⟩ := h T E opType extraParams x met hlaw fuel hfuel
  obtain ⟨oresult, horun, -, hoelement⟩ :=
    hreduces T E opType extraParams y met (helements ▸ hlaw) fuel hfuel
  refine ⟨result, oresult, hrun, horun, ?_, fun t ht => ?_⟩
  · rw [shapeInfo_of_reduceAlongDimension haccepted hrun,
      shapeInfo_of_reduceAlongDimension hother horun]
    rfl
  · refine (helement t ht).trans (Eq.trans ?_ (hoelement t ht).symm)
    congr 1
    apply reduceValues_ext _ _ (prod_pos_of_pos (hpos.kept odimension))
    intro j hj
    apply hequal
    exact (bijOn_coordinate odimension rfl).mapsTo (show (_, _) ∈ _ from
      ⟨inBox_decode (hpos.leftOver odimension) ht, inBox_decode (hpos.kept odimension) hj⟩)

/-- Accepted dimensions name the reduced axes, every result has the left-over axes and
the reductions of the right elements, and it does not depend on the layout. -/
def ReducesAlong (settings : Settings) (info : ShapeInfo) (dims : List Int)
    (dimension : Dimensions info.rank) : Prop :=
  (∀ i : Nat, dimension.mem i ↔ ∃ d ∈ dims, axisOf info.rank d = i) ∧
    ReducesElements settings info dims dimension ∧ LayoutFree settings info dims dimension

/-- The results are the reductions of the right elements exactly if the left-over axes have one
coordinate only, or the shortcut does not meet an F order and no tensor of several dimensions
starts below the error marker. -/
theorem reducesElements_iff (haccepted : checkDimensions info.rank dims = .ok dimension)
    (hpos : info.Positive) (hews : info.HonestEws) (hmax : info.rank ≤ maxDimension)
    (settings : Settings) :
    ReducesElements settings info dims dimension ↔
      (dimension.leftOver info.shape).prod = 1 ∨
        (2 < info.rank → (dimension.kept info.shape).prod = 1 → info.elementWiseStride = 1 →
          info.isFOrder = false ∨ (squeeze (dimension.leftOver info.axes)).length ≤ 1) ∧
        (dimension.toList.length = 1 ∨ ∀ c, InBox (dimension.leftOver info.shape) c →
          -1 ≤ dot c (dimension.leftOver info.stride)) := by
  by_cases hone : (dimension.leftOver info.shape).prod = 1
  · exact ⟨fun _ => Or.inl hone, fun _ =>
      reducesElements_of_one haccepted hpos hews hmax hone settings⟩
  · have hproper : dimension.toList.length < info.rank := by
      have hsum := length_kept_add dimension (rfl : info.shape.length = info.rank)
      by_contra hall
      have hnil : dimension.leftOver info.shape = [] := List.eq_nil_of_length_eq_zero (by omega)
      rw [hnil] at hone
      exact hone rfl
    have hvolume : volume (TAD.init info dimension).leftOver =
        (dimension.leftOver info.shape).prod := by
      rw [volume, TAD.dims_leftOver]
      rfl
    have hkept : volume (TAD.init info dimension).kept = (dimension.kept info.shape).prod := by
      rw [volume, TAD.dims_kept]
      rfl
    have hiff := tadOffset_eq_base_iff hpos hews hproper (hvolume ▸ hone)
    rw [hvolume, hkept] at hiff
    rw [or_iff_right hone]
    refine Iff.trans ⟨fun h => ?_, fun h => ?_⟩ hiff
    · exact startsRight_of_reducesElements haccepted hpos hews hmax hone h
    · exact reducesElements_of_many haccepted hpos hews hmax hone h settings

/-- Reducing along dimensions is right exactly if the left-over axes have one coordinate
only, or the shortcut does not meet an F order and no tensor of several dimensions starts
below the error marker. -/
theorem reduces_iff (haccepted : checkDimensions info.rank dims = .ok dimension)
    (hpos : info.Positive) (hews : info.HonestEws) (hmax : info.rank ≤ maxDimension)
    (settings : Settings) :
    ReducesAlong settings info dims dimension ↔
      (dimension.leftOver info.shape).prod = 1 ∨
        (2 < info.rank → (dimension.kept info.shape).prod = 1 → info.elementWiseStride = 1 →
          info.isFOrder = false ∨ (squeeze (dimension.leftOver info.axes)).length ≤ 1) ∧
        (dimension.toList.length = 1 ∨ ∀ c, InBox (dimension.leftOver info.shape) c →
          -1 ≤ dot c (dimension.leftOver info.stride)) := by
  rw [← reducesElements_iff haccepted hpos hews hmax settings]
  constructor
  · intro h
    exact h.2.1
  · intro h
    exact ⟨checkDimensions_mem haccepted, h, layoutFree_of_reducesElements haccepted hpos h⟩

end Tensors

/-- A matrix in F order with a last axis of extent one. -/
def fortranMatrix : ShapeInfo where
  shape := [2, 3, 1]
  stride := [1, 2, 6]
  offset := 0
  elementWiseStride := 1
  order := 'f'
  stride_length := rfl

/-- The last axis of the matrix. -/
def lastAxis : Dimensions fortranMatrix.rank where
  toList := [2]
  ne_nil := by decide
  sorted := by decide
  lt_rank := by decide

theorem reduces_iff_fortranMatrix :
    ReducesAlong (Settings.initial 4 (by decide)) fortranMatrix [-1] lastAxis ↔
      (lastAxis.leftOver fortranMatrix.shape).prod = 1 ∨
        (2 < fortranMatrix.rank → (lastAxis.kept fortranMatrix.shape).prod = 1 →
          fortranMatrix.elementWiseStride = 1 → fortranMatrix.isFOrder = false ∨
            (squeeze (lastAxis.leftOver fortranMatrix.axes)).length ≤ 1) ∧
        (lastAxis.toList.length = 1 ∨ ∀ c, InBox (lastAxis.leftOver fortranMatrix.shape) c →
          -1 ≤ dot c (lastAxis.leftOver fortranMatrix.stride)) :=
  reduces_iff rfl (by decide) (by decide) (by decide) _

/-- Reducing the last axis of the matrix copies the buffer in F order. -/
theorem not_reducesAlong_always :
    ¬ ∀ (settings : Settings) (info : ShapeInfo) (dims : List Int)
      (dimension : Dimensions info.rank), checkDimensions info.rank dims = .ok dimension →
      info.Positive → info.HonestEws → ReducesAlong settings info dims dimension := by
  intro h
  have hreduces := h (Settings.initial 4 (by decide)) fortranMatrix [-1] lastAxis rfl (by decide)
    (by decide)
  have hright := startsRight_of_reducesElements rfl (by decide) (by decide) (by decide) (by decide)
    hreduces.2.1
  exact absurd (hright 1 (by decide)) (by decide)

end Loops
end LibND4J
