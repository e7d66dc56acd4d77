import LibND4J.Library.Odometer
import LibND4J.Library.Regroup

/-!
# Shape information

An array is described by a shape, one stride for each axis, an offset, an
element-wise stride and an order.  This module holds that record, the conversions
between linear indices and coordinates, and the offset of a coordinate in a buffer.

Main results:

- Theorems `ind2subC_eq_decode` and `ind2sub_eq_decodeF`: the two
  conversions are the row-major and the column-major enumeration of the box.
- Theorem `getOffset_eq`: inside the box the offset is the weighted sum of the
  coordinate by the strides.
- Theorems `getOffset_ind2subC` and `getOffset_ind2sub`: decoding an index and
  computing the offset walks the array in C and in F order.
-/

namespace LibND4J
namespace Shape

open Strided

/-- A shape information buffer, read as a record. -/
structure ShapeInfo where
  shape : List Nat
  stride : List Int
  offset : Int
  elementWiseStride : Int
  order : Char
  stride_length : stride.length = shape.length
deriving DecidableEq

namespace ShapeInfo

/-- `shape::rank`. -/
def rank (info : ShapeInfo) : Nat :=
  info.shape.length

/-- `shape::length`. -/
def length (info : ShapeInfo) : Nat :=
  info.shape.prod

/-- Each extent with its stride. -/
def axes (info : ShapeInfo) : List (Nat × Int) :=
  info.shape.zip info.stride

variable (info : ShapeInfo)

@[simp]
theorem dims_axes : dims info.axes = info.shape := by
  simp [dims, axes, List.map_fst_zip, info.stride_length]

@[simp]
theorem map_snd_axes : info.axes.map Prod.snd = info.stride := by
  simp [axes, List.map_snd_zip, info.stride_length]

theorem offsetAt_axes (k : Nat) : offsetAt info.axes k = dot (decode info.shape k) info.stride := by
  rw [offsetAt_eq_dot, info.dims_axes, info.map_snd_axes]

@[simp]
theorem volume_axes : volume info.axes = info.length := by
  simp [volume, length]

@[simp]
theorem length_axes : info.axes.length = info.rank := by
  simp [axes, rank, info.stride_length]

/-- Shape information from its axes. -/
def ofAxes (axes : List (Nat × Int)) (offset elementWiseStride : Int) (order : Char) :
    ShapeInfo where
  shape := axes.map Prod.fst
  stride := axes.map Prod.snd
  offset := offset
  elementWiseStride := elementWiseStride
  order := order
  stride_length := by simp

@[simp]
theorem axes_ofAxes (axes : List (Nat × Int)) (offset elementWiseStride : Int) (order : Char) :
    (ofAxes axes offset elementWiseStride order).axes = axes :=
  (List.zip_of_prod rfl rfl).symm

/-- All extents are positive. -/
def Positive (info : ShapeInfo) : Prop :=
  ∀ d ∈ info.shape, 0 < d

instance (info : ShapeInfo) : Decidable info.Positive :=
  inferInstanceAs (Decidable (∀ d ∈ info.shape, 0 < d))

theorem Positive.axes {info : ShapeInfo} (h : info.Positive) : ∀ a ∈ info.axes, 0 < a.1 := by
  intro a ha
  apply h
  rw [← dims_axes]
  exact List.mem_map_of_mem ha

theorem Positive.length_pos {info : ShapeInfo} (h : info.Positive) : 0 < info.length :=
  prod_pos_of_pos h

end ShapeInfo

/-! ## Coordinates -/

/-- Loop of `ind2subC`, first axis first. -/
def ind2subCLoop : List Nat → Nat → Nat → List Nat
  | [], _, _ => []
  | d :: ds, index, denom =>
      if denom / d > 0 then
        index / (denom / d) :: ind2subCLoop ds (index % (denom / d)) (denom / d)
      else
        0 :: ind2subCLoop ds index (denom / d)

def ind2subC (shape : List Nat) (index : Nat) : List Nat :=
  ind2subCLoop shape index shape.prod

/-- Loop of `ind2sub`, over the extents from the last one down. -/
def ind2subLoop : List Nat → Nat → Nat → List Nat
  | [], _, _ => []
  | d :: ds, index, denom => index / (denom / d) :: ind2subLoop ds (index % (denom / d)) (denom / d)

def ind2sub (shape : List Nat) (index : Nat) : List Nat :=
  (ind2subLoop shape.reverse index shape.prod).reverse

theorem ind2subCLoop_eq {ds : List Nat} (hpos : ∀ d ∈ ds, 0 < d) (index : Nat) :
    ind2subCLoop ds index ds.prod = decode ds index := by
  induction ds generalizing index with
  | nil => rfl
  | cons d ds ih =>
      have htail : ∀ x ∈ ds, 0 < x := fun x hx => hpos x (List.mem_cons_of_mem _ hx)
      have hdiv : (d :: ds).prod / d = ds.prod := by
        rw [List.prod_cons]
        exact Nat.mul_div_cancel_left _ (hpos d List.mem_cons_self)
      rw [ind2subCLoop, hdiv, if_pos (prod_pos_of_pos htail), ih htail, decode_cons]

variable {shape : List Nat} {k : Nat}

/-- `ind2subC` decodes row-major. -/
theorem ind2subC_eq_decode (hpos : ∀ d ∈ shape, 0 < d) (index : Nat) :
    ind2subC shape index = decode shape index :=
  ind2subCLoop_eq hpos index

theorem ind2subLoop_eq {ds : List Nat} (hpos : ∀ d ∈ ds, 0 < d) (index : Nat) :
    ind2subLoop ds index ds.prod = decode ds index := by
  induction ds generalizing index with
  | nil => rfl
  | cons d ds ih =>
      have htail : ∀ x ∈ ds, 0 < x := fun x hx => hpos x (List.mem_cons_of_mem _ hx)
      have hdiv : (d :: ds).prod / d = ds.prod := by
        rw [List.prod_cons]
        exact Nat.mul_div_cancel_left _ (hpos d List.mem_cons_self)
      rw [ind2subLoop, hdiv, ih htail, decode_cons]

/-- `ind2sub` decodes column-major. -/
theorem ind2sub_eq_decodeF (hpos : ∀ d ∈ shape, 0 < d) (index : Nat) :
    ind2sub shape index = decodeF shape index := by
  have hrev : ∀ d ∈ shape.reverse, 0 < d := fun d hd => hpos d (List.mem_reverse.mp hd)
  have hprod : shape.prod = shape.reverse.prod := (List.prod_reverse shape).symm
  rw [ind2sub, hprod, ind2subLoop_eq hrev, decodeF]

/-- `getOffset`: the axes of extent one are skipped, and an index past its extent gives
the value minus one. -/
def getOffset (baseOffset : Int) : List Nat → List Int → List Nat → Int
  | d :: ds, s :: ss, i :: is =>
      if i ≥ d ∧ d ≠ 1 then
        -1
      else if d ≠ 1 then
        getOffset (baseOffset + i * s) ds ss is
      else
        getOffset baseOffset ds ss is
  | _, _, _ => baseOffset

/-- Inside the box the offset is the weighted sum of the coordinate. -/
theorem getOffset_eq {coords : List Nat} (h : InBox shape coords) {stride : List Int}
    (hlength : stride.length = shape.length) (baseOffset : Int) :
    getOffset baseOffset shape stride coords = baseOffset + dot coords stride := by
  induction h generalizing stride baseOffset with
  | nil => simp [getOffset]
  | @cons d c ds cs hc _ ih =>
      obtain ⟨s, ss, rfl⟩ : ∃ s ss, stride = s :: ss :=
        List.exists_cons_of_ne_nil (by rintro rfl; simp at hlength)
      have htail : ss.length = ds.length := by simpa using hlength
      have hlt : ¬ (c ≥ d ∧ d ≠ 1) := by omega
      rw [getOffset, if_neg hlt]
      by_cases hone : d = 1
      · have hzero : c = 0 := by omega
        rw [if_neg (by simpa using hone), ih htail, hzero, dot_cons, zero_smul, zero_add]
      · rw [if_pos hone, ih htail, dot_cons, nsmul_eq_mul, add_assoc]

/-- A coordinate that is inside the box on the first axes is weighed there. -/
theorem getOffset_append {coords : List Nat} (h : InBox shape coords) {stride : List Int}
    (hlength : stride.length = shape.length) (shape' coords' : List Nat) (stride' : List Int)
    (baseOffset : Int) :
    getOffset baseOffset (shape ++ shape') (stride ++ stride') (coords ++ coords') =
      getOffset (baseOffset + dot coords stride) shape' stride' coords' := by
  induction h generalizing stride baseOffset with
  | nil =>
      rw [List.eq_nil_of_length_eq_zero hlength]
      simp
  | @cons d c ds cs hc _ ih =>
      obtain ⟨s, ss, rfl⟩ : ∃ s ss, stride = s :: ss :=
        List.exists_cons_of_ne_nil (by rintro rfl; simp at hlength)
      have htail : ss.length = ds.length := by simpa using hlength
      have hlt : ¬ (c ≥ d ∧ d ≠ 1) := by omega
      rw [List.cons_append, List.cons_append, List.cons_append, getOffset, if_neg hlt]
      by_cases hone : d = 1
      · have hzero : c = 0 := by omega
        rw [if_neg (by simpa using hone), ih htail, hzero, dot_cons, zero_smul, zero_add]
      · rw [if_pos hone, ih htail, dot_cons, nsmul_eq_mul, add_assoc]

/-- Decoding row-major and computing the offset walks the array in C order. -/
theorem getOffset_ind2subC {info : ShapeInfo} (hpos : info.Positive) (hk : k < info.length)
    (baseOffset : Int) :
    getOffset baseOffset info.shape info.stride (ind2subC info.shape k) =
      baseOffset + offsetAt info.axes k := by
  have hbox : InBox info.shape (decode info.shape k) := inBox_decode hpos hk
  rw [ind2subC_eq_decode hpos, getOffset_eq hbox info.stride_length, offsetAt_eq_dot,
    info.dims_axes, info.map_snd_axes]

/-- Decoding column-major and computing the offset walks the array in F order. -/
theorem getOffset_ind2sub {info : ShapeInfo} (hpos : info.Positive) (hk : k < info.length)
    (baseOffset : Int) :
    getOffset baseOffset info.shape info.stride (ind2sub info.shape k) =
      baseOffset + offsetAtF info.axes k := by
  have hbox : InBox info.shape (decodeF info.shape k) := (bijOn_decodeF hpos).mapsTo hk
  rw [ind2sub_eq_decodeF hpos, getOffset_eq hbox info.stride_length,
    offsetAtF_eq_dot info.axes (by rwa [info.volume_axes]), info.dims_axes, info.map_snd_axes]

/-- The elements of an array in its C or F order, as offsets into the buffer. -/
def elementOffset (isFOrder : Bool) (axes : List (Nat × Int)) (k : Nat) : Int :=
  if isFOrder then
    dot (decodeF (dims axes) k) (axes.map Prod.snd)
  else
    dot (decode (dims axes) k) (axes.map Prod.snd)

theorem elementOffset_eq_ite (isFOrder : Bool) (axes : List (Nat × Int)) (hk : k < volume axes) :
    elementOffset isFOrder axes k = if isFOrder then offsetAtF axes k else offsetAt axes k := by
  rw [elementOffset, offsetAtF_eq_dot axes hk, offsetAt_eq_dot]

/-- The order slot asks for the F order. -/
def ShapeInfo.isFOrder (info : ShapeInfo) : Bool :=
  info.order = 'f'

/-- The element-wise stride slot is honest: if it is positive, the `k`-th element in the
array's order lies at that many cells times `k`. -/
def ShapeInfo.HonestEws (info : ShapeInfo) : Prop :=
  info.elementWiseStride ≥ 1 →
    ∀ k < info.length, elementOffset info.isFOrder info.axes k = k * info.elementWiseStride

instance (info : ShapeInfo) : Decidable info.HonestEws :=
  inferInstanceAs (Decidable (info.elementWiseStride ≥ 1 →
    ∀ k < info.length, elementOffset info.isFOrder info.axes k = k * info.elementWiseStride))

end Shape
end LibND4J
