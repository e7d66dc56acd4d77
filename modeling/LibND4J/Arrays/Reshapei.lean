import LibND4J.Library.Transposition
import LibND4J.Loops.PairwiseTransform
import LibND4J.Shape.ShapeBuffer

/-!
# Reshaping an array in place

`NDArray::reshapei` gives an array a new shape.  Where the strides permit it the array
keeps its buffer and gets new strides; otherwise the elements are copied to a fresh buffer by
the loops of a pairwise transform.

The model gives the decision and, for a copy, the cells that the loops read and write; the
contents are those after the loops have run in any order, over a fresh buffer of arbitrary
contents.

Main results:

- Theorem `reshapei_spec`: a view pairs the elements in the order of the flag, a copy
  pairs them in C order.
- Theorem `reshapesAlike_iff`: the arrays for which both branches leave one result.
-/

namespace LibND4J
namespace Arrays

open Strided Shape

/-! ## The routine -/

/-- An array: its shape information and the contents of its buffer. -/
structure NDArray (T : Type) where
  shapeInfo : ShapeInfo
  buffer : Int → T

/-- The element at a coordinate. -/
def NDArray.element {T : Type} (array : NDArray T) (coords : List Nat) : T :=
  array.buffer (getOffset 0 array.shapeInfo.shape array.shapeInfo.stride coords)

/-- Replace the first negative extent by what the others leave of the length; the loop
looks at no extent behind it. -/
def resolveShape (lengthOf : Nat) (cshape : List Int) : List Int :=
  match cshape.findIdx? (· < 0) with
  | none => cshape
  | some i =>
      let shapeLength := (cshape.filter (· ≥ 1)).prod
      let realShape := ((lengthOf : Int) / shapeLength).natAbs
      cshape.set i realShape

/-- What `reshapei` leaves: new shape information for the buffer, or a fresh buffer and the
work of the loops that fill it. -/
inductive Reshaped
  | view (shapeInfoNew : ShapeInfo)
  | copy (shapeInfoNew : ShapeInfo) (work : List (List Loops.Visit))

/-- Shape information of a fresh array in C or F order. -/
def freshShapeInfo (order : Char) (shape : List Nat) : ShapeInfo :=
  if order = 'c' then shapeBuffer shape else shapeBufferFortran shape

/-- `NDArray::reshapei`.  `none` stands for pairs of negative extents, which cancel in the
product, and for indexes past an array. -/
def reshapei (settings : Loops.Settings) (order : Char) (cshape : List Int) (info : ShapeInfo) :
    Except String (Option Reshaped) :=
  let shape := resolveShape info.length cshape
  if shape.prod ≠ info.length then
    .error "Bad shape!"
  else if ∃ d ∈ shape, d < 0 then
    .ok none
  else
    let shape := shape.map Int.toNat
    match canReshape info shape (order = 'f') with
    | .outOfBounds => .ok none
    | .yes () =>
        match reshapeCF info shape (order = 'f') with
        | .yes shapeInfoNew => .ok (some (.view shapeInfoNew))
        | _ => .ok none
    | .no =>
        let shapeInfoNew := freshShapeInfo order shape
        .ok ((Loops.exec info.length settings shapeInfoNew info shapeInfoNew 0 0 0).map
          (.copy shapeInfoNew))

/-- Run the copies of a schedule from one buffer to the other. -/
def runCopies {T : Type} (buffer : Int → T) (schedule : List Loops.Visit) (newBuffer : Int → T) :
    Int → T :=
  Stores.storeAll (fun v : Loops.Visit => v.2.2) (fun v _ => buffer v.2.1) schedule newBuffer

/-- The arrays that an outcome can leave: the copies run in any order. -/
inductive Reshaped.Leaves {T : Type} (buffer : Int → T) : Reshaped → NDArray T → Prop
  | view (shapeInfoNew : ShapeInfo) : Leaves buffer (.view shapeInfoNew) ⟨shapeInfoNew, buffer⟩
  | copy (shapeInfoNew : ShapeInfo) (work : List (List Loops.Visit))
      (schedule : List Loops.Visit) (hschedule : schedule.Perm work.flatten)
      (newBuffer : Int → T) :
      Leaves buffer (.copy shapeInfoNew work)
        ⟨shapeInfoNew, runCopies buffer schedule newBuffer⟩

/-! ## What the branches pair -/

/-- The shape that is asked for resolves to positive extents of the right length. -/
structure Admissible (lengthOf : Nat) (cshape : List Int) (shape : List Nat) : Prop where
  resolves : resolveShape lengthOf cshape = shape.map Nat.cast
  positive : ∀ d ∈ shape, 0 < d
  prod_eq : shape.prod = lengthOf

/-- The `k`-th coordinate of a shape in C or F order. -/
def coordinateOf (isFOrder : Bool) (shape : List Nat) (k : Nat) : List Nat :=
  if isFOrder then decodeF shape k else decode shape k

theorem bijOn_coordinateOf (isFOrder : Bool) {shape : List Nat} (hpos : ∀ d ∈ shape, 0 < d) :
    Set.BijOn (coordinateOf isFOrder shape) {k | k < shape.prod} {c | InBox shape c} := by
  cases isFOrder with
  | false => exact bijOn_decode hpos
  | true => exact bijOn_decodeF hpos

/-- The elements of the outcome are those of the array, paired in one of the orders. -/
structure Pairs (isFOrder : Bool) (info : ShapeInfo) (shape : List Nat) (r : Reshaped) : Prop where
  exists_leaves : ∀ {T : Type} (buffer : Int → T), ∃ out, r.Leaves buffer out
  shape_eq : ∀ {T : Type} {buffer : Int → T} {out : NDArray T}, r.Leaves buffer out →
    out.shapeInfo.shape = shape
  element_eq : ∀ {T : Type} {buffer : Int → T} {out : NDArray T}, r.Leaves buffer out →
    ∀ k < info.length, out.element (coordinateOf isFOrder shape k) =
      (NDArray.mk info buffer).element (coordinateOf isFOrder info.shape k)

section Pairing

variable {info : ShapeInfo} {shape : List Nat}

theorem element_coordinateOf {T : Type} (array : NDArray T) (hpos : array.shapeInfo.Positive)
    (isFOrder : Bool) {k : Nat} (hk : k < array.shapeInfo.length) :
    array.element (coordinateOf isFOrder array.shapeInfo.shape k) =
      array.buffer (elementOffset isFOrder array.shapeInfo.axes k) := by
  have hbox := (bijOn_coordinateOf isFOrder hpos).mapsTo hk
  rw [NDArray.element, getOffset_eq hbox array.shapeInfo.stride_length, zero_add, elementOffset,
    ShapeInfo.dims_axes, ShapeInfo.map_snd_axes]
  cases isFOrder <;> rfl

variable {target : ShapeInfo}

/-- A view pairs the elements in the order of the flag. -/
theorem pairs_view (hpos : info.Positive) (hshape : ∀ d ∈ shape, 0 < d) {isFOrder : Bool}
    (htarget : target.shape = shape) (hview : SameElements isFOrder target.axes info.axes) :
    Pairs isFOrder info shape (.view target) := by
  refine ⟨fun buffer => ⟨_, .view target⟩, fun h => ?_, ?_⟩
  · cases h
    exact htarget
  · intro T buffer out h k hk
    cases h
    have htargetPos : target.Positive := fun d hd => hshape d (htarget ▸ hd)
    have hlength : target.length = info.length := by
      rw [← target.volume_axes, hview.1, info.volume_axes]
    have hnew := element_coordinateOf ⟨target, buffer⟩ htargetPos isFOrder
      (hlength.symm ▸ hk)
    have hold := element_coordinateOf ⟨info, buffer⟩ hpos isFOrder hk
    have hsame := hview.2 k (by rw [target.volume_axes, hlength]; exact hk)
    rw [← htarget]
    exact hnew.trans ((congrArg buffer hsame).trans hold.symm)

/-- The coordinates of a dense array have cells of their own. -/
theorem injOn_dense (hpos : target.Positive) {isFOrder : Bool}
    (hdense : ∀ k < target.length, elementOffset isFOrder target.axes k = k) {c c' : List Nat}
    (hc : InBox target.shape c) (hc' : InBox target.shape c')
    (heq : dot c target.stride = dot c' target.stride) : c = c' := by
  have hcell : ∀ k < target.length,
      dot (coordinateOf isFOrder target.shape k) target.stride = k := by
    intro k hk
    rw [← hdense k hk, elementOffset, ShapeInfo.dims_axes, ShapeInfo.map_snd_axes]
    cases isFOrder <;> rfl
  have hbij := bijOn_coordinateOf isFOrder hpos
  obtain ⟨k, hk, rfl⟩ := hbij.surjOn hc
  obtain ⟨k', hk', rfl⟩ := hbij.surjOn hc'
  rw [hcell k hk, hcell k' hk', Nat.cast_inj] at heq
  rw [heq]

/-- The copying loops over coordinates pair the elements in C order. -/
theorem pairs_copy (hpos : info.Positive) (hshape : ∀ d ∈ shape, 0 < d)
    (htarget : target.shape = shape) (hprod : shape.prod = info.length)
    (hcells : ∀ c c', InBox target.shape c → InBox target.shape c' →
      dot c target.stride = dot c' target.stride → c = c') :
    Pairs false info shape (.copy target (Loops.execCoordinates target info target 0 0 0)) := by
  have htargetPos : target.Positive := fun d hd => hshape d (htarget ▸ hd)
  have hlength : target.length = info.length := by rw [ShapeInfo.length, htarget, hprod]
  refine ⟨fun buffer => ⟨_, .copy target _ _ (List.Perm.refl _) buffer⟩, fun h => ?_, ?_⟩
  · cases h
    exact htarget
  · intro T buffer out h k hk
    cases h with
    | copy _ _ schedule hschedule newBuffer =>
        have hvisit : ∀ v : Loops.Visit, v ∈ schedule ↔ ∃ i < info.length,
            v = (offsetAt target.axes i, offsetAt info.axes i, offsetAt target.axes i) := by
          intro v
          rw [hschedule.mem_iff, Loops.execCoordinates, hlength, ← List.flatMap_def,
            List.mem_flatMap]
          constructor
          · rintro ⟨i, hi, hv⟩
            have hi := List.mem_range.mp hi
            rw [List.mem_singleton, if_pos rfl,
              getOffset_ind2subC htargetPos (hlength.symm ▸ hi),
              getOffset_ind2subC hpos hi] at hv
            exact ⟨i, hi, by simpa using hv⟩
          · rintro ⟨i, hi, rfl⟩
            refine ⟨i, List.mem_range.mpr hi, ?_⟩
            rw [List.mem_singleton, if_pos rfl,
              getOffset_ind2subC htargetPos (hlength.symm ▸ hi), getOffset_ind2subC hpos hi]
            simp
        have hsame : ∀ i < info.length, ∀ j < info.length,
            offsetAt target.axes i = offsetAt target.axes j → i = j := by
          intro i hi j hj heq
          have hbij := bijOn_decode htargetPos
          rw [offsetAt_eq_dot, offsetAt_eq_dot, ShapeInfo.dims_axes,
            ShapeInfo.map_snd_axes] at heq
          have hi : i < target.length := hlength.symm ▸ hi
          have hj : j < target.length := hlength.symm ▸ hj
          exact hbij.injOn hi hj (hcells _ _ (hbij.mapsTo hi) (hbij.mapsTo hj) heq)
        have hvalue : runCopies buffer schedule newBuffer (offsetAt target.axes k) =
            buffer (offsetAt info.axes k) := by
          refine Stores.storeAll_of_agree ⟨_, (hvisit _).mpr ⟨k, hk, rfl⟩, rfl⟩
            (fun w hw hcell memory => ?_) newBuffer
          obtain ⟨i, hi, rfl⟩ := (hvisit w).mp hw
          rw [hsame i hi k hk hcell]
        have hnew := element_coordinateOf ⟨target, runCopies buffer schedule newBuffer⟩ htargetPos
          false (hlength.symm ▸ hk)
        have hold := element_coordinateOf ⟨info, buffer⟩ hpos false hk
        rw [elementOffset_eq_ite _ _ (by rw [ShapeInfo.volume_axes, hlength]; exact hk)] at hnew
        rw [elementOffset_eq_ite _ _ (by rw [ShapeInfo.volume_axes]; exact hk)] at hold
        rw [← htarget]
        exact hnew.trans (hvalue.trans hold.symm)

end Pairing

/-! ## Fresh arrays -/

section Fresh

variable {order : Char} {shape : List Nat}

@[simp]
theorem shape_freshShapeInfo (order : Char) (shape : List Nat) :
    (freshShapeInfo order shape).shape = shape := by
  rw [freshShapeInfo]
  split <;> simp

theorem order_freshShapeInfo (horder : order = 'c' ∨ order = 'f') (shape : List Nat) :
    (freshShapeInfo order shape).order = order := by
  rcases horder with rfl | rfl <;> rfl

theorem honestEws_freshShapeInfo (order : Char) (hshape : ∀ d ∈ shape, 0 < d) :
    (freshShapeInfo order shape).HonestEws := by
  rw [freshShapeInfo]
  split
  · exact honestEws_shapeBuffer hshape
  · exact honestEws_shapeBufferFortran hshape

/-- The coordinates of a fresh array have cells of their own. -/
theorem injOn_freshShapeInfo (order : Char) (hshape : ∀ d ∈ shape, 0 < d) {c c' : List Nat}
    (hc : InBox shape c) (hc' : InBox shape c')
    (heq : dot c (freshShapeInfo order shape).stride = dot c' (freshShapeInfo order shape).stride) :
    c = c' := by
  have hpos : (freshShapeInfo order shape).Positive := by
    intro d hd
    exact hshape d (shape_freshShapeInfo order shape ▸ hd)
  rw [← shape_freshShapeInfo order shape] at hc hc'
  by_cases horder : order = 'c'
  · refine @injOn_dense _ hpos false (fun k hk => ?_) c c' hc hc' heq
    rw [ShapeInfo.length, shape_freshShapeInfo] at hk
    rw [freshShapeInfo, if_pos horder, axes_shapeBuffer]
    exact elementOffset_calcStrides hk
  · refine @injOn_dense _ hpos true (fun k hk => ?_) c c' hc hc' heq
    rw [ShapeInfo.length, shape_freshShapeInfo] at hk
    rw [freshShapeInfo, if_neg horder, axes_shapeBufferFortran]
    exact elementOffset_calcStridesFortran hk

end Fresh

/-! ## Which pairing -/

/-- The array cannot be viewed, and its slots nevertheless make the loops copy the buffer cell
by cell. -/
def CopiesBySlot (order : Char) (shape : List Nat) (info : ShapeInfo) : Prop :=
  canReshape info shape (order = 'f') = .no ∧ info.order = order ∧
    1 ≤ info.elementWiseStride ∧
    (freshShapeInfo order shape).elementWiseStride = info.elementWiseStride

section Spec

variable {info : ShapeInfo} {shape : List Nat} {order : Char} {cshape : List Int}

/-- The order flag of a reshape, as the loops see it. -/
theorem isFOrder_eq {info : ShapeInfo} (h : info.order = order) :
    info.isFOrder = decide (order = 'f') := by
  rw [ShapeInfo.isFOrder, h]

/-- An honest slot only asks for a copy of the buffer when there is a view. -/
theorem not_copiesBySlot (hews : info.HonestEws) (hpos : info.Positive)
    (horder : order = 'c' ∨ order = 'f') (hshape : ∀ d ∈ shape, 0 < d)
    (hprod : shape.prod = info.length) : ¬ CopiesBySlot order shape info := by
  rintro ⟨hno, hsame, hslot, hequal⟩
  rcases reshape_cases hpos hshape (decide (order = 'f')) with ⟨hyes, -⟩ | ⟨-, -, hnone⟩
  · rw [hno] at hyes
    cases hyes
  · -- the strides of the fresh array view the old one
    have haxes : shape.zip (freshShapeInfo order shape).stride =
        (freshShapeInfo order shape).axes := by
      rw [ShapeInfo.axes, shape_freshShapeInfo]
    have hlength : (freshShapeInfo order shape).length = info.length := by
      rw [ShapeInfo.length, shape_freshShapeInfo, hprod]
    refine hnone (freshShapeInfo order shape).stride ?_ ?_
    · rw [ShapeInfo.stride_length, shape_freshShapeInfo]
    · rw [haxes]
      refine ⟨?_, fun k hk => ?_⟩
      · rw [ShapeInfo.volume_axes, ShapeInfo.volume_axes, hlength]
      · rw [ShapeInfo.volume_axes] at hk
        have hnew := honestEws_freshShapeInfo order hshape (hequal ▸ hslot) k hk
        have hold := hews hslot k (hlength ▸ hk)
        rw [isFOrder_eq (order_freshShapeInfo horder shape)] at hnew
        rw [isFOrder_eq hsame] at hold
        rw [hnew, hold, hequal]

/-- What `reshapei` decides between, for a shape that it accepts. -/
theorem reshapei_eq (settings : Loops.Settings) (hadm : Admissible info.length cshape shape) :
    reshapei settings order cshape info =
      match canReshape info shape (order = 'f') with
      | .outOfBounds => .ok none
      | .yes () =>
          match reshapeCF info shape (order = 'f') with
          | .yes shapeInfoNew => .ok (some (.view shapeInfoNew))
          | _ => .ok none
      | .no =>
          .ok ((Loops.exec info.length settings (freshShapeInfo order shape) info
            (freshShapeInfo order shape) 0 0 0).map (.copy (freshShapeInfo order shape))) := by
  have hprod : (shape.map (Nat.cast : Nat → Int)).prod = info.length := by
    rw [← hadm.prod_eq, Nat.cast_list_prod]
  have hnat : (shape.map (Nat.cast : Nat → Int)).map Int.toNat = shape := by
    rw [List.map_map]
    exact (List.map_congr_left fun d _ => Int.toNat_natCast d).trans (List.map_id _)
  have hnonneg : ¬ ∃ d ∈ shape.map (Nat.cast : Nat → Int), d < 0 := by
    rintro ⟨d, hd, hneg⟩
    obtain ⟨n, -, rfl⟩ := List.mem_map.mp hd
    exact absurd hneg (not_lt.mpr (Int.natCast_nonneg n))
  unfold reshapei
  simp only
  rw [hadm.resolves, if_neg (not_not.mpr hprod), if_neg hnonneg, hnat]

/-- `reshapei` leaves the elements in the order of the flag if it can view them, and in C
order otherwise. -/
theorem reshapei_spec (settings : Loops.Settings) (hpos : info.Positive)
    (horder : order = 'c' ∨ order = 'f') (hadm : Admissible info.length cshape shape)
    (hslot : ¬ CopiesBySlot order shape info) :
    ∃ r, reshapei settings order cshape info = .ok (some r) ∧
      ((canReshape info shape (order = 'f') = .yes () ∧ Pairs (order = 'f') info shape r) ∨
        (canReshape info shape (order = 'f') = .no ∧ Pairs false info shape r)) := by
  rw [reshapei_eq settings hadm]
  rcases reshape_cases hpos hadm.positive (decide (order = 'f')) with
    ⟨hyes, target, htarget, hshape, hview⟩ | ⟨hno, -, hnone⟩
  · rw [hyes, htarget]
    exact ⟨_, rfl, Or.inl ⟨rfl, pairs_view hpos hadm.positive hshape hview⟩⟩
  · rw [hno]
    have hdiffer : (freshShapeInfo order shape).shape ≠ info.shape := by
      intro hsame
      rw [shape_freshShapeInfo] at hsame
      refine hnone info.stride (by rw [info.stride_length, hsame]) ?_
      rw [hsame]
      exact ⟨rfl, fun _ _ => rfl⟩
    have hlinear : ¬ ((freshShapeInfo order shape).order = info.order ∧
        info.elementWiseStride ≥ 1 ∧
        (freshShapeInfo order shape).elementWiseStride = info.elementWiseStride) := by
      rintro ⟨hsame, hge, hequal⟩
      rw [order_freshShapeInfo horder] at hsame
      exact hslot ⟨hno, hsame.symm, hge, hequal⟩
    have hexec : Loops.exec info.length settings (freshShapeInfo order shape) info
        (freshShapeInfo order shape) 0 0 0 =
          some (Loops.execCoordinates (freshShapeInfo order shape) info
            (freshShapeInfo order shape) 0 0 0) := by
      unfold Loops.exec
      simp only
      rw [if_neg fun h => hdiffer h.2.2.2.2.2.1,
        if_neg fun h => hlinear ⟨h.2.1, h.2.2.2.2.1, h.2.2.2.2.2.2⟩, if_neg hdiffer]
    rw [hexec, Option.map_some]
    refine ⟨_, rfl, Or.inr ⟨rfl, pairs_copy hpos hadm.positive (shape_freshShapeInfo _ _)
      hadm.prod_eq fun c c' hc hc' heq => ?_⟩⟩
    rw [shape_freshShapeInfo] at hc hc'
    exact injOn_freshShapeInfo order hadm.positive hc hc' heq

end Spec

/-! ## One function of the logical array -/

/-- The same shape, and the same element at every coordinate. -/
def SameArray {T : Type} (a b : NDArray T) : Prop :=
  a.shapeInfo.shape = b.shapeInfo.shape ∧
    ∀ c, InBox a.shapeInfo.shape c → a.element c = b.element c

/-- Both layouts are reshaped, and for all contents that make them the same array the results
are the same array. -/
def ReshapesAlike (settings : Loops.Settings) (order : Char) (cshape : List Int)
    (a b : ShapeInfo) : Prop :=
  ∃ ra rb, reshapei settings order cshape a = .ok (some ra) ∧
    reshapei settings order cshape b = .ok (some rb) ∧
    ∀ (T : Type) (bufferA bufferB : Int → T), SameArray ⟨a, bufferA⟩ ⟨b, bufferB⟩ →
      (∃ out, ra.Leaves bufferA out) ∧ (∃ out, rb.Leaves bufferB out) ∧
      ∀ outA outB, ra.Leaves bufferA outA → rb.Leaves bufferB outB → SameArray outA outB

/-- The slots ask for no copy of a buffer that cannot be viewed, and the pairings agree: the
order is C, both arrays can be viewed or neither can, or the extents above one stay. -/
structure PairsAlike (order : Char) (shape : List Nat) (a b : ShapeInfo) : Prop where
  slot_left : ¬ CopiesBySlot order shape a
  slot_right : ¬ CopiesBySlot order shape b
  pairing : order = 'c' ∨
    canReshape a shape (order = 'f') = canReshape b shape (order = 'f') ∨
    a.shape.filter (· ≠ 1) = shape.filter (· ≠ 1)

/-- The coordinates of an array have cells of their own. -/
def CellsApart (info : ShapeInfo) : Prop :=
  ∀ c c', InBox info.shape c → InBox info.shape c' → dot c info.stride = dot c' info.stride →
    c = c'

section Alike

variable {a b : ShapeInfo} {shape : List Nat} {order : Char} {cshape : List Int}
  {settings : Loops.Settings}

theorem sameArray_symm {T : Type} {x y : NDArray T} (h : SameArray x y) : SameArray y x := by
  refine ⟨h.1.symm, fun c hc => (h.2 c ?_).symm⟩
  rwa [h.1]

variable {info : ShapeInfo}

/-- With the extents above one kept, pairing in one order is pairing in the other. -/
theorem Pairs.swap {r : Reshaped} (h : Pairs true info shape r) (hpos : info.Positive)
    (hshape : ∀ d ∈ shape, 0 < d) (hprod : shape.prod = info.length)
    (hkeep : info.shape.filter (· ≠ 1) = shape.filter (· ≠ 1)) : Pairs false info shape r := by
  refine ⟨h.exists_leaves, h.shape_eq, fun hout k hk => ?_⟩
  have hk' : k < shape.prod := hprod.symm ▸ hk
  -- the column-major index of the coordinate
  obtain ⟨j, hj, hcoord⟩ := (bijOn_decodeF hshape).surjOn (inBox_decode hshape hk')
  have hj : j < shape.prod := hj
  have hindex : transposeIndex shape j = k := by
    rw [transposeIndex, hcoord, encode_decode hshape hk']
  have hsame : decodeF info.shape j = decode info.shape k := by
    have hj' : j < info.length := hprod ▸ hj
    rw [← decode_transposeIndex hpos hj', transposeIndex_congr hkeep hj', hindex]
  have helement := h.element_eq hout j (hprod ▸ hj)
  show _ = _
  have hnew : coordinateOf true shape j = coordinateOf false shape k := hcoord
  have hold : coordinateOf true info.shape j = coordinateOf false info.shape k := hsame
  rwa [hnew, hold] at helement

/-- Outcomes that pair the elements of one array in one order are the same array. -/
theorem sameArray_of_pairs {isFOrder : Bool} {ra rb : Reshaped} (hshape : ∀ d ∈ shape, 0 < d)
    (hprod : shape.prod = a.length) (hpos : a.Positive) (hab : a.shape = b.shape)
    (ha : Pairs isFOrder a shape ra) (hb : Pairs isFOrder b shape rb) {T : Type}
    {bufferA bufferB : Int → T} (hsame : SameArray ⟨a, bufferA⟩ ⟨b, bufferB⟩) {outA outB : NDArray T}
    (hA : ra.Leaves bufferA outA) (hB : rb.Leaves bufferB outB) : SameArray outA outB := by
  refine ⟨(ha.shape_eq hA).trans (hb.shape_eq hB).symm, fun c hc => ?_⟩
  rw [ha.shape_eq hA] at hc
  obtain ⟨k, hk, rfl⟩ := (bijOn_coordinateOf isFOrder hshape).surjOn hc
  have hk : k < a.length := hprod ▸ hk
  have hk' : k < b.length := by rwa [ShapeInfo.length, ← hab]
  rw [ha.element_eq hA k hk, hb.element_eq hB k hk', ← hab]
  exact hsame.2 _ ((bijOn_coordinateOf isFOrder hpos).mapsTo hk)

theorem reshapesAlike_of_pairs {isFOrder : Bool} {ra rb : Reshaped} (hshape : ∀ d ∈ shape, 0 < d)
    (hprod : shape.prod = a.length) (hpos : a.Positive) (hab : a.shape = b.shape)
    (hra : reshapei settings order cshape a = .ok (some ra))
    (hrb : reshapei settings order cshape b = .ok (some rb))
    (ha : Pairs isFOrder a shape ra) (hb : Pairs isFOrder b shape rb) :
    ReshapesAlike settings order cshape a b := by
  refine ⟨ra, rb, hra, hrb, fun T bufferA bufferB hsame => ?_⟩
  refine ⟨ha.exists_leaves bufferA, hb.exists_leaves bufferB, fun outA outB hA hB => ?_⟩
  exact sameArray_of_pairs hshape hprod hpos hab ha hb hsame hA hB

theorem reshapesAlike_of_pairsAlike (hab : a.shape = b.shape) (hpos : a.Positive)
    (horder : order = 'c' ∨ order = 'f') (hadm : Admissible a.length cshape shape)
    (h : PairsAlike order shape a b) : ReshapesAlike settings order cshape a b := by
  have hlength : a.length = b.length := by rw [ShapeInfo.length, hab, ShapeInfo.length]
  have hposb : b.Positive := by rwa [ShapeInfo.Positive, ← hab]
  have hadmb : Admissible b.length cshape shape := hlength ▸ hadm
  obtain ⟨ra, hra, hpairs⟩ := reshapei_spec settings hpos horder hadm h.slot_left
  obtain ⟨rb, hrb, hpairs'⟩ := reshapei_spec settings hposb horder hadmb h.slot_right
  have hdone := fun isFOrder => @reshapesAlike_of_pairs a b shape order cshape settings isFOrder
    ra rb hadm.positive hadm.prod_eq hpos hab hra hrb
  rcases horder with rfl | rfl
  · -- in C order a view and a copy pair alike
    have ha : Pairs false a shape ra := hpairs.elim (fun h => h.2) fun h => h.2
    have hb : Pairs false b shape rb := hpairs'.elim (fun h => h.2) fun h => h.2
    exact hdone false ha hb
  · rcases hpairs with ⟨hyes, ha⟩ | ⟨hno, ha⟩
    · rcases hpairs' with ⟨hyes', hb⟩ | ⟨hno', hb⟩
      · exact hdone true ha hb
      · have hkeep : a.shape.filter (· ≠ 1) = shape.filter (· ≠ 1) := by
          rcases h.pairing with horder | hbranch | hkeep
          · cases horder
          · rw [hyes, hno'] at hbranch
            cases hbranch
          · exact hkeep
        exact hdone false (Pairs.swap ha hpos hadm.positive hadm.prod_eq hkeep) hb
    · rcases hpairs' with ⟨hyes', hb⟩ | ⟨hno', hb⟩
      · have hkeep : b.shape.filter (· ≠ 1) = shape.filter (· ≠ 1) := by
          rcases h.pairing with horder | hbranch | hkeep
          · cases horder
          · rw [hno, hyes'] at hbranch
            cases hbranch
          · rwa [hab] at hkeep
        exact hdone false ha (Pairs.swap hb hposb hadm.positive hadmb.prod_eq hkeep)
      · exact hdone false ha hb

open Classical in
/-- Contents that name the coordinate of every cell. -/
noncomputable def coordinateBuffer (info : ShapeInfo) (cell : Int) : List Nat :=
  if h : ∃ c, InBox info.shape c ∧ dot c info.stride = cell then h.choose else []

theorem coordinateBuffer_dot (hcells : CellsApart info) {c : List Nat} (hc : InBox info.shape c) :
    coordinateBuffer info (dot c info.stride) = c := by
  have hexists : ∃ c', InBox info.shape c' ∧ dot c' info.stride = dot c info.stride := ⟨c, hc, rfl⟩
  rw [coordinateBuffer, dif_pos hexists]
  exact hcells _ _ hexists.choose_spec.1 hc hexists.choose_spec.2

theorem element_coordinateBuffer (hcells : CellsApart info) {c : List Nat}
    (hc : InBox info.shape c) : (NDArray.mk info (coordinateBuffer info)).element c = c := by
  rw [NDArray.element, getOffset_eq hc info.stride_length, zero_add]
  exact coordinateBuffer_dot hcells hc

/-- A view in F order and a copy in C order only agree if the extents above one stay. -/
theorem filter_eq_of_alike (hab : a.shape = b.shape) (hpos : a.Positive)
    (hshape : ∀ d ∈ shape, 0 < d) (hprod : shape.prod = a.length) (hcellsA : CellsApart a)
    (hcellsB : CellsApart b) {ra rb : Reshaped} (ha : Pairs true a shape ra)
    (hb : Pairs false b shape rb)
    (hsame : ∀ (T : Type) (bufferA bufferB : Int → T), SameArray ⟨a, bufferA⟩ ⟨b, bufferB⟩ →
      ∀ outA outB, ra.Leaves bufferA outA → rb.Leaves bufferB outB → SameArray outA outB) :
    a.shape.filter (· ≠ 1) = shape.filter (· ≠ 1) := by
  have hlogical : SameArray ⟨a, coordinateBuffer a⟩ ⟨b, coordinateBuffer b⟩ := by
    refine ⟨hab, fun c hc => ?_⟩
    have hc' : InBox b.shape c := hab ▸ hc
    exact (element_coordinateBuffer hcellsA hc).trans (element_coordinateBuffer hcellsB hc').symm
  obtain ⟨outA, hA⟩ := ha.exists_leaves (coordinateBuffer a)
  obtain ⟨outB, hB⟩ := hb.exists_leaves (coordinateBuffer b)
  obtain ⟨-, helement⟩ := hsame _ _ _ hlogical outA outB hA hB
  rw [ha.shape_eq hA] at helement
  apply filter_eq_of_transposeIndex hpos hshape hprod.symm
  intro k hk
  have hk' : k < shape.prod := hprod.symm ▸ hk
  have hposb : b.Positive := by rwa [ShapeInfo.Positive, ← hab]
  -- the element at the `k`-th coordinate in F order
  have hbox : InBox shape (decodeF shape k) := (bijOn_decodeF hshape).mapsTo hk'
  have hview := ha.element_eq hA k hk
  have hindex : transposeIndex shape k < b.length := by
    rw [ShapeInfo.length, ← hab]
    exact (transposeIndex_lt hshape hk').trans_eq hprod
  have hcopy := hb.element_eq hB _ hindex
  have hcoord : coordinateOf false shape (transposeIndex shape k) = coordinateOf true shape k :=
    decode_transposeIndex hshape hk'
  have hboxA : InBox a.shape (coordinateOf true a.shape k) :=
    (bijOn_coordinateOf true hpos).mapsTo hk
  have hboxB : InBox b.shape (coordinateOf false b.shape (transposeIndex shape k)) :=
    (bijOn_coordinateOf false hposb).mapsTo hindex
  rw [element_coordinateBuffer hcellsA hboxA] at hview
  rw [element_coordinateBuffer hcellsB hboxB, hcoord] at hcopy
  have hequal := hview.symm.trans ((helement _ hbox).trans hcopy)
  have hdecode : decodeF a.shape k = decode a.shape (transposeIndex shape k) := by
    rw [← hab] at hequal
    exact hequal
  have hbelow : transposeIndex shape k < a.length :=
    (transposeIndex_lt hshape hk').trans_eq hprod
  rw [transposeIndex, hdecode, encode_decode hpos hbelow]

theorem pairsAlike_of_reshapesAlike (hab : a.shape = b.shape) (hpos : a.Positive)
    (hewsA : a.HonestEws) (hewsB : b.HonestEws) (hcellsA : CellsApart a) (hcellsB : CellsApart b)
    (horder : order = 'c' ∨ order = 'f') (hadm : Admissible a.length cshape shape)
    (h : ReshapesAlike settings order cshape a b) : PairsAlike order shape a b := by
  have hlength : a.length = b.length := by rw [ShapeInfo.length, hab, ShapeInfo.length]
  have hposb : b.Positive := by rwa [ShapeInfo.Positive, ← hab]
  have hadmb : Admissible b.length cshape shape := hlength ▸ hadm
  have hslotA := not_copiesBySlot hewsA hpos horder hadm.positive hadm.prod_eq
  have hslotB := not_copiesBySlot hewsB hposb horder hadm.positive hadmb.prod_eq
  refine ⟨hslotA, hslotB, ?_⟩
  rcases horder with rfl | rfl
  · exact Or.inl rfl
  · right
    obtain ⟨ra, hra, hpairs⟩ := reshapei_spec settings hpos (Or.inr rfl) hadm hslotA
    obtain ⟨rb, hrb, hpairs'⟩ := reshapei_spec settings hposb (Or.inr rfl) hadmb hslotB
    obtain ⟨ra', rb', hra', hrb', hsame⟩ := h
    cases hra.symm.trans hra'
    cases hrb.symm.trans hrb'
    rcases hpairs with ⟨hyes, ha⟩ | ⟨hno, ha⟩
    · rcases hpairs' with ⟨hyes', hb⟩ | ⟨hno', hb⟩
      · exact Or.inl (hyes.trans hyes'.symm)
      · right
        exact filter_eq_of_alike hab hpos hadm.positive hadm.prod_eq hcellsA hcellsB ha hb
          fun T bufferA bufferB hlogical => (hsame T bufferA bufferB hlogical).2.2
    · rcases hpairs' with ⟨hyes', hb⟩ | ⟨hno', hb⟩
      · right
        rw [hab]
        refine filter_eq_of_alike hab.symm hposb hadm.positive hadmb.prod_eq hcellsB hcellsA hb ha
          fun T bufferB bufferA hlogical outB outA hB hA => ?_
        have hback := (hsame T bufferA bufferB (sameArray_symm hlogical)).2.2
        exact sameArray_symm (hback outA outB hA hB)
      · exact Or.inl (hno.trans hno'.symm)

/-- Reshaping is one function of the logical array if the branches pair alike; for honest
slots and arrays without shared cells, only then. -/
theorem reshapesAlike_iff (settings : Loops.Settings) (hab : a.shape = b.shape) (hpos : a.Positive)
    (horder : order = 'c' ∨ order = 'f') (hadm : Admissible a.length cshape shape) :
    (PairsAlike order shape a b → ReshapesAlike settings order cshape a b) ∧
      (a.HonestEws → b.HonestEws → CellsApart a → CellsApart b →
        ReshapesAlike settings order cshape a b → PairsAlike order shape a b) := by
  constructor
  · intro h
    exact reshapesAlike_of_pairsAlike hab hpos horder hadm h
  · intro hewsA hewsB hcellsA hcellsB h
    exact pairsAlike_of_reshapesAlike hab hpos hewsA hewsB hcellsA hcellsB horder hadm h

end Alike

/-- Two rows of three in C order. -/
def rowMajorTable : ShapeInfo where
  shape := [2, 3]
  stride := [3, 1]
  offset := 0
  elementWiseStride := 1
  order := 'c'
  stride_length := rfl

/-- Two rows of three in F order. -/
def columnMajorTable : ShapeInfo where
  shape := [2, 3]
  stride := [1, 2]
  offset := 0
  elementWiseStride := 1
  order := 'f'
  stride_length := by decide

theorem admissible_threeByTwo : Admissible rowMajorTable.length [3, 2] [3, 2] where
  resolves := rfl
  positive := by decide
  prod_eq := rfl

theorem reshapesAlike_iff_tables :
    (PairsAlike 'f' [3, 2] rowMajorTable columnMajorTable →
      ReshapesAlike (Loops.Settings.initial 4 (by decide)) 'f' [3, 2] rowMajorTable
        columnMajorTable) ∧
      (rowMajorTable.HonestEws → columnMajorTable.HonestEws → CellsApart rowMajorTable →
        CellsApart columnMajorTable →
        ReshapesAlike (Loops.Settings.initial 4 (by decide)) 'f' [3, 2] rowMajorTable
          columnMajorTable → PairsAlike 'f' [3, 2] rowMajorTable columnMajorTable) :=
  reshapesAlike_iff _ rfl (by decide) (Or.inr rfl) admissible_threeByTwo

/-- In F order a table is viewed in three rows of two if it is stored by columns, and
copied otherwise. -/
theorem canReshape_tables :
    canReshape rowMajorTable [3, 2] true = .no ∧
      canReshape columnMajorTable [3, 2] true = .yes () := by
  constructor
  · rcases reshape_cases (show rowMajorTable.Positive by decide)
      (show ∀ d ∈ [3, 2], 0 < d by decide) true with ⟨-, target, -, hshape, hview⟩ | ⟨hno, -⟩
    · exfalso
      obtain ⟨s, t, hstride⟩ := List.length_eq_two.mp
        (show target.stride.length = 2 by rw [target.stride_length, hshape]; rfl)
      have haxes : target.axes = [(3, s), (2, t)] := by
        rw [ShapeInfo.axes, hshape, hstride]
        rfl
      rw [haxes] at hview
      have hone := hview.2 1 (by simp)
      have htwo := hview.2 2 (by simp)
      have hold : elementOffset true rowMajorTable.axes 1 = 3 ∧
          elementOffset true rowMajorTable.axes 2 = 1 := by decide
      rw [hold.1, elementOffset_eq_ite _ _ (by simp)] at hone
      rw [hold.2, elementOffset_eq_ite _ _ (by simp)] at htwo
      simp [offsetAtF, offsetAt_cons] at hone htwo
      omega
    · exact hno
  · rcases reshape_cases (show columnMajorTable.Positive by decide)
      (show ∀ d ∈ [3, 2], 0 < d by decide) true with ⟨hyes, -⟩ | ⟨-, -, hnone⟩
    · exact hyes
    · exact absurd ⟨rfl, by decide⟩ (hnone [1, 3] rfl)

/-- One table stored by rows and by columns is reshaped to two different tables. -/
theorem not_reshapesAlike_always :
    ¬ ∀ (settings : Loops.Settings) (order : Char) (cshape : List Int) (a b : ShapeInfo),
      order = 'c' ∨ order = 'f' → a.shape = b.shape → a.Positive → a.HonestEws → b.HonestEws →
        CellsApart a → CellsApart b → (∃ shape, Admissible a.length cshape shape) →
        ReshapesAlike settings order cshape a b := by
  intro h
  have hcells : ∀ {info : ShapeInfo} {isFOrder : Bool}, info.Positive →
      (∀ k < info.length, elementOffset isFOrder info.axes k = k) → CellsApart info :=
    fun hpos hdense c c' hc hc' heq => injOn_dense hpos hdense hc hc' heq
  have hrows : CellsApart rowMajorTable := @hcells _ false (by decide) (by decide)
  have hcolumns : CellsApart columnMajorTable := @hcells _ true (by decide) (by decide)
  have halike := h (Loops.Settings.initial 4 (by decide)) 'f' [3, 2] rowMajorTable columnMajorTable
    (Or.inr rfl) rfl (by decide) (by decide) (by decide) hrows hcolumns
    ⟨[3, 2], admissible_threeByTwo⟩
  have hpairs := @pairsAlike_of_reshapesAlike rowMajorTable columnMajorTable [3, 2] 'f' [3, 2] _ rfl
    (by decide) (by decide) (by decide) hrows hcolumns (Or.inr rfl) admissible_threeByTwo halike
  rcases hpairs.pairing with horder | hbranch | hkeep
  · exact absurd horder (by decide)
  · have hbranch : canReshape rowMajorTable [3, 2] true =
        canReshape columnMajorTable [3, 2] true := hbranch
    rw [canReshape_tables.1, canReshape_tables.2] at hbranch
    cases hbranch
  · exact absurd hkeep (by decide)

end Arrays
end LibND4J
