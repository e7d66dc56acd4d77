import LibND4J.Arrays.Cells
import LibND4J.Arrays.Histories
import LibND4J.Arrays.Operations

/-!
# Arrays in a flat result

`executeFlatBuffer` writes the shape information of an array as it is and its buffer as many
elements long as the array.  `Variable(FlatVariable)` takes both over; `ArrayList` takes
the shape and the order and fills a dense array of its own.

Main results:

- Theorem `ofVector_getShapeAsVector`: the shape information round-trips.
- Theorem `variable_comesBack_iff`: the variable has the same elements exactly when all of
  them lie in the first elements of the buffer.
- Theorem `arrayList_comesBack_iff`: the array of the list has the same elements exactly when
  those of each coordinate lie where a dense array has them.
- Theorem `roundTrips_iff_dense`: for all contents, exactly the dense arrays come back.
- Theorem `not_roundTrips_always`: some columns of a matrix.
-/

namespace LibND4J
namespace Arrays

open Strided Shape

/-! ## The export -/

/-- A `FlatVariable`. -/
structure FlatVariable (T : Type) where
  id : Int
  name : String
  shape : List Int
  values : List T

/-- `getShapeAsVector`: the slots of the shape information. -/
def getShapeAsVector (info : ShapeInfo) : List Int :=
  [(info.rank : Int)] ++ info.shape.map Nat.cast ++ info.stride ++
    [info.offset, info.elementWiseStride, (info.order.toNat : Int)]

section Buffers

variable {T : Type}

/-- `getBufferAsVector`, by `getScalar` of every index below the length. -/
def NDArray.getBufferAsVector (array : NDArray T) : List T :=
  (List.range array.shapeInfo.length).map fun e : Nat => array.buffer e

/-- The output that `executeFlatBuffer` builds for a variable. -/
def flatVariable (id : Int) (name : String) (array : NDArray T) : FlatVariable T where
  id := id
  name := name
  shape := getShapeAsVector array.shapeInfo
  values := array.getBufferAsVector

/-! ## The imports -/

/-- An array with a buffer of its own. -/
structure OwnedArray (T : Type) where
  shapeInfo : ShapeInfo
  buffer : List T

/-- The element at a coordinate; `none` is a place outside the buffer. -/
def OwnedArray.element (array : OwnedArray T) (coords : List Nat) : Option T :=
  let offset := getOffset 0 array.shapeInfo.shape array.shapeInfo.stride coords
  if 0 ≤ offset then array.buffer[offset.toNat]? else none

/-- Slots read as shape information. -/
def ofVector (slots : List Int) : Option ShapeInfo :=
  let rank := (slots.getD 0 0).toNat
  let shape := ((slots.drop 1).take rank).map Int.toNat
  let stride := (slots.drop (1 + rank)).take rank
  if h : stride.length = shape.length ∧ slots.length = 2 * rank + 4 then
    some
      { shape := shape
        stride := stride
        offset := slots.getD (2 * rank + 1) 0
        elementWiseStride := slots.getD (2 * rank + 2) 0
        order := Char.ofNat (slots.getD (2 * rank + 3) 0).toNat
        stride_length := h.1 }
  else
    none

/-- The fields of the variable `Variable(FlatVariable)` leaves. -/
structure ImportedVariable (T : Type) where
  id : Int
  name : String
  external : Bool
  readOnly : Bool
  ndarray : OwnedArray T

/-- `Variable(FlatVariable)`; `none`: the slots are no shape information. -/
def importVariable (flat : FlatVariable T) : Option (ImportedVariable T) :=
  (ofVector flat.shape).map fun shape =>
    { id := flat.id
      name := if flat.name.length ≠ 0 then flat.name else ""
      external := true
      readOnly := false
      ndarray := ⟨shape, flat.values⟩ }

/-- `putScalar` of the values in their order, from the index `i` on; an index above the limit
changes nothing. -/
def putScalars : List T → Nat → List T → List T
  | buffer, _, [] => buffer
  | buffer, i, value :: values => putScalars (buffer.set i value) (i + 1) values

/-- One array of `ArrayList(FlatResult)`; `none` is an exception. -/
def importArray [Zero T] (flat : FlatVariable T) : Option (OwnedArray T) :=
  let rank := (flat.shape.getD 0 0).toNat
  let shape := ((flat.shape.drop 1).take rank).map Int.toNat
  if flat.shape = [] ∨ flat.shape.length < rank + 1 ∨ shape.length > maxRank then
    none
  else
    let shapeInfo := allocShapeInfo (Char.ofNat (flat.shape.getLastD 0).toNat) shape
    some ⟨shapeInfo, putScalars (List.replicate shapeInfo.length 0) 0 flat.values⟩

/-- The array that comes back has the same shape and the same element at every coordinate. -/
structure ComesBack (array : NDArray T) (back : OwnedArray T) : Prop where
  shape : back.shapeInfo.shape = array.shapeInfo.shape
  element : ∀ coords, InBox array.shapeInfo.shape coords →
    back.element coords = some (array.element coords)

/-! ## What comes back -/

variable (info : ShapeInfo)

include info

@[simp]
theorem length_getShapeAsVector : (getShapeAsVector info).length = 2 * info.rank + 4 := by
  simp only [getShapeAsVector, List.length_append, List.length_map, List.length_cons,
    List.length_nil, info.stride_length, ShapeInfo.rank]
  omega

/-- The extents among the slots. -/
theorem shape_getShapeAsVector :
    (((getShapeAsVector info).drop 1).take info.rank).map Int.toNat = info.shape := by
  have hslots : (getShapeAsVector info).drop 1 = info.shape.map Nat.cast ++
      (info.stride ++ [info.offset, info.elementWiseStride, (info.order.toNat : Int)]) := by
    simp [getShapeAsVector]
  have hlength : info.rank = (info.shape.map (Nat.cast : Nat → Int)).length := by
    rw [List.length_map, ShapeInfo.rank]
  rw [hslots, hlength, List.take_left', List.map_map]
  · exact List.map_id'' (fun _ => Int.toNat_natCast _) _
  · rfl

/-- The strides among the slots. -/
theorem stride_getShapeAsVector :
    ((getShapeAsVector info).drop (1 + info.rank)).take info.rank = info.stride := by
  have hslots : getShapeAsVector info = ([(info.rank : Int)] ++ info.shape.map Nat.cast) ++
      (info.stride ++ [info.offset, info.elementWiseStride, (info.order.toNat : Int)]) := by
    simp [getShapeAsVector]
  have hfront : ([(info.rank : Int)] ++ info.shape.map Nat.cast).length = 1 + info.rank := by
    rw [List.length_append, List.length_map, List.length_singleton, ShapeInfo.rank]
  have hstride : info.stride.length = info.rank := info.stride_length
  rw [hslots, List.drop_left' hfront, List.take_left' hstride]

/-- The slots behind the strides. -/
theorem getD_getShapeAsVector (i : Nat) :
    (getShapeAsVector info).getD (2 * info.rank + 1 + i) 0 =
      [info.offset, info.elementWiseStride, (info.order.toNat : Int)].getD i 0 := by
  have hfront : ([(info.rank : Int)] ++ info.shape.map Nat.cast ++ info.stride).length =
      2 * info.rank + 1 := by
    simp only [List.length_append, List.length_map, List.length_cons, List.length_nil,
      info.stride_length, ShapeInfo.rank]
    omega
  rw [getShapeAsVector, List.getD_eq_getElem?_getD, List.getElem?_append_right (by omega), hfront,
    Nat.add_sub_cancel_left, ← List.getD_eq_getElem?_getD]

theorem rank_getShapeAsVector : ((getShapeAsVector info).getD 0 0).toNat = info.rank := by
  simp [getShapeAsVector]

/-- The shape information round-trips. -/
theorem ofVector_getShapeAsVector : ofVector (getShapeAsVector info) = some info := by
  have hrank := rank_getShapeAsVector info
  have hshape := shape_getShapeAsVector info
  have hstride := stride_getShapeAsVector info
  have hoffset := getD_getShapeAsVector info 0
  have hews := getD_getShapeAsVector info 1
  have horder := getD_getShapeAsVector info 2
  simp only [List.getD_cons_zero, List.getD_cons_succ, Nat.add_zero, Nat.add_assoc]
    at hoffset hews horder
  have hwell : info.stride.length = info.shape.length ∧
      (getShapeAsVector info).length = 2 * info.rank + 4 :=
    ⟨info.stride_length, length_getShapeAsVector info⟩
  unfold ofVector
  simp only [hrank, hshape, hstride, hoffset, hews, horder, hwell, and_self, dif_pos,
    Int.toNat_natCast, Char.ofNat_toNat]

omit info

/-- The exported values are the first elements of the buffer. -/
theorem getElem?_getBufferAsVector (array : NDArray T) (k : Nat) :
    array.getBufferAsVector[k]? =
      if k < array.shapeInfo.length then some (array.buffer k) else none := by
  unfold NDArray.getBufferAsVector
  rw [List.getElem?_map]
  by_cases hk : k < array.shapeInfo.length
  · rw [List.getElem?_range hk, if_pos hk, Option.map_some]
  · rw [List.getElem?_eq_none (by simpa using hk), if_neg hk, Option.map_none]

/-- All elements lie in the first elements of the buffer. -/
def LiesInLength (info : ShapeInfo) : Prop :=
  ∀ coords, InBox info.shape coords →
    0 ≤ dot coords info.stride ∧ dot coords info.stride < info.length

instance (info : ShapeInfo) : Decidable (LiesInLength info) :=
  decidable_of_iff (∀ k < info.length, 0 ≤ elementOffset false info.axes k ∧
    elementOffset false info.axes k < info.length) <| by
  constructor
  · intro h coords hbox
    have hk := h _ (encode_lt hbox)
    rw [elementOffset_eq_dot] at hk
    have hcoordinate : coordinateOf false info.shape (encode info.shape coords) = coords :=
      decode_encode hbox
    rwa [hcoordinate] at hk
  · intro h k hk
    rw [elementOffset_eq_dot]
    exact h _ ((bijOn_coordinateOf false (positive_of_length (Nat.zero_lt_of_lt hk))).mapsTo hk)

variable {info : ShapeInfo} {coords : List Nat}

/-- The elements of an array without gaps lie there. -/
theorem liesInLength_of_consecutive {isFOrder : Bool} (hpos : info.Positive)
    (hdense : Consecutive isFOrder info) : LiesInLength info := by
  intro coords hbox
  obtain ⟨k, hk, rfl⟩ := (bijOn_coordinateOf isFOrder hpos).surjOn hbox
  rw [hdense.dot_eq hk]
  exact ⟨Int.natCast_nonneg k, Int.ofNat_lt.mpr hk⟩

theorem getOffset_dot (info : ShapeInfo) (hbox : InBox info.shape coords) :
    getOffset 0 info.shape info.stride coords = dot coords info.stride := by
  rw [getOffset_eq hbox info.stride_length, zero_add]

/-- An array that shares the shape information and holds the exported values. -/
theorem element_exported (array : NDArray T) (hbox : InBox array.shapeInfo.shape coords) :
    OwnedArray.element ⟨array.shapeInfo, array.getBufferAsVector⟩ coords =
      if 0 ≤ dot coords array.shapeInfo.stride ∧
          dot coords array.shapeInfo.stride < array.shapeInfo.length
        then some (array.element coords) else none := by
  unfold OwnedArray.element NDArray.element
  simp only [getOffset_dot _ hbox, getElem?_getBufferAsVector]
  by_cases hneg : 0 ≤ dot coords array.shapeInfo.stride
  · have hcast : ((dot coords array.shapeInfo.stride).toNat : Int) =
        dot coords array.shapeInfo.stride := Int.toNat_of_nonneg hneg
    have hlt : (dot coords array.shapeInfo.stride).toNat < array.shapeInfo.length ↔
        dot coords array.shapeInfo.stride < array.shapeInfo.length := by omega
    simp only [hneg, true_and, if_true, hcast, hlt]
  · simp only [hneg, false_and, if_false]

/-- The variable comes back with the same elements exactly when all of them lie in the first
elements of the buffer. -/
theorem variable_comesBack_iff (id : Int) (name : String) (array : NDArray T) :
    (∃ v, importVariable (flatVariable id name array) = some v ∧ ComesBack array v.ndarray) ↔
      LiesInLength array.shapeInfo := by
  have himport : importVariable (flatVariable id name array) =
      some ⟨id, if name.length ≠ 0 then name else "", true, false,
        ⟨array.shapeInfo, array.getBufferAsVector⟩⟩ := by
    rw [importVariable, flatVariable, ofVector_getShapeAsVector]
    rfl
  rw [himport]
  constructor
  · rintro ⟨v, hv, hback⟩ coords hbox
    rw [← Option.some.inj hv] at hback
    have helement := hback.element coords hbox
    rw [element_exported array hbox] at helement
    by_contra hout
    rw [if_neg hout] at helement
    exact absurd helement (by simp)
  · intro hlies
    refine ⟨_, rfl, rfl, fun coords hbox => ?_⟩
    rw [element_exported array hbox, if_pos (hlies coords hbox)]

/-! ## The array of the list -/

/-- Putting all values leaves them and what is behind them. -/
theorem putScalars_eq (front back old values : List T) (hlength : old.length = values.length) :
    putScalars (front ++ old ++ back) front.length values = front ++ values ++ back := by
  induction values generalizing front old with
  | nil =>
      rw [List.length_eq_zero_iff.mp hlength]
      rfl
  | cons value values ih =>
      obtain ⟨x, old, rfl⟩ : ∃ x xs, old = x :: xs :=
        List.exists_cons_of_ne_nil (by rintro rfl; simp at hlength)
      have hset : (front ++ x :: old ++ back).set front.length value =
          (front ++ [value]) ++ old ++ back := by simp
      have hnext : front.length + 1 = (front ++ [value]).length := by simp
      rw [putScalars, hset, hnext, ih (front ++ [value]) old (by simpa using hlength)]
      simp

/-- The offset of a coordinate in a fresh array. -/
def denseOffset (info : ShapeInfo) (coords : List Nat) : Int :=
  dot coords (allocShapeInfo info.order info.shape).stride

/-- The elements of a fresh array fill its buffer. -/
theorem denseOffset_lt (hpos : info.Positive) (hbox : InBox info.shape coords) :
    ∃ k < info.length, denseOffset info coords = (k : Int) := by
  have hshape : dims (allocShapeInfo info.order info.shape).axes = info.shape := by
    rw [ShapeInfo.dims_axes, shape_allocShapeInfo]
  have hmove : ∀ k < info.shape.prod,
      elementOffset (info.order = 'f') (allocShapeInfo info.order info.shape).axes k = k :=
    fun k hk => dense_allocShapeInfo _ _ hk
  unfold elementOffset at hmove
  rw [hshape, ShapeInfo.map_snd_axes] at hmove
  by_cases horder : info.order = 'f'
  · obtain ⟨k, hk, rfl⟩ := (bijOn_decodeF hpos).surjOn hbox
    refine ⟨k, hk, ?_⟩
    have hoffset := hmove k hk
    rwa [if_pos (decide_eq_true horder)] at hoffset
  · obtain ⟨k, hk, rfl⟩ := (bijOn_decode hpos).surjOn hbox
    refine ⟨k, hk, ?_⟩
    have hoffset := hmove k hk
    rwa [if_neg (by simp [horder])] at hoffset

section List

variable [Zero T]

/-- The array of the list is a fresh one with the exported values. -/
theorem importArray_flatVariable (id : Int) (name : String) {array : NDArray T}
    (hrank : array.shapeInfo.rank ≤ maxRank) :
    importArray (flatVariable id name array) =
      some ⟨allocShapeInfo array.shapeInfo.order array.shapeInfo.shape,
        array.getBufferAsVector⟩ := by
  have hlength : (allocShapeInfo array.shapeInfo.order array.shapeInfo.shape).length =
      array.shapeInfo.length := by
    rw [ShapeInfo.length, shape_allocShapeInfo, ShapeInfo.length]
  have hvalues : array.getBufferAsVector.length = array.shapeInfo.length := by
    simp [NDArray.getBufferAsVector]
  have hput := putScalars_eq [] [] (List.replicate array.shapeInfo.length (0 : T))
    array.getBufferAsVector (by rw [List.length_replicate, hvalues])
  rw [List.nil_append, List.append_nil, List.length_nil, List.nil_append, List.append_nil] at hput
  have hlast : (getShapeAsVector array.shapeInfo).getLastD 0 =
      (array.shapeInfo.order.toNat : Int) := by
    have hslots : getShapeAsVector array.shapeInfo =
        ([(array.shapeInfo.rank : Int)] ++ array.shapeInfo.shape.map Nat.cast ++
          array.shapeInfo.stride ++ [array.shapeInfo.offset, array.shapeInfo.elementWiseStride]) ++
            [(array.shapeInfo.order.toNat : Int)] := by
      simp [getShapeAsVector]
    rw [hslots, List.getLastD_concat]
  have hfits : ¬ (getShapeAsVector array.shapeInfo = [] ∨
      (getShapeAsVector array.shapeInfo).length < array.shapeInfo.rank + 1 ∨
      array.shapeInfo.shape.length > maxRank) := by
    rintro (hnil | hshort | hlong)
    · simp [getShapeAsVector] at hnil
    · rw [length_getShapeAsVector] at hshort
      omega
    · exact absurd hrank (Nat.not_le_of_lt hlong)
  unfold importArray
  simp only [flatVariable, rank_getShapeAsVector, shape_getShapeAsVector, hlast, if_neg hfits,
    Int.toNat_natCast, Char.ofNat_toNat, hlength, hput]

/-- The array of the list has the same elements exactly when the buffer holds the element of each
coordinate where a fresh array has it. -/
theorem arrayList_comesBack_iff (id : Int) (name : String) {array : NDArray T}
    (hpos : array.shapeInfo.Positive) (hrank : array.shapeInfo.rank ≤ maxRank) :
    (∃ back, importArray (flatVariable id name array) = some back ∧ ComesBack array back) ↔
      ∀ coords, InBox array.shapeInfo.shape coords →
        array.buffer (denseOffset array.shapeInfo coords) = array.element coords := by
  rw [importArray_flatVariable id name hrank]
  have helement : ∀ coords, InBox array.shapeInfo.shape coords →
      OwnedArray.element ⟨allocShapeInfo array.shapeInfo.order array.shapeInfo.shape,
        array.getBufferAsVector⟩ coords =
        some (array.buffer (denseOffset array.shapeInfo coords)) := by
    intro coords hbox
    obtain ⟨k, hk, hoffset⟩ := denseOffset_lt hpos hbox
    have hget : getOffset 0 (allocShapeInfo array.shapeInfo.order array.shapeInfo.shape).shape
        (allocShapeInfo array.shapeInfo.order array.shapeInfo.shape).stride coords = (k : Int) := by
      rw [getOffset_dot _ (by rwa [shape_allocShapeInfo])]
      exact hoffset
    unfold OwnedArray.element
    simp only [hget, Int.natCast_nonneg, if_true, Int.toNat_natCast, getElem?_getBufferAsVector,
      if_pos hk, hoffset]
  constructor
  · rintro ⟨back, hback, hcomes⟩ coords hbox
    rw [← Option.some.inj hback] at hcomes
    exact Option.some.inj ((helement coords hbox).symm.trans (hcomes.element coords hbox))
  · intro hsame
    refine ⟨_, rfl, shape_allocShapeInfo _ _, fun coords hbox => ?_⟩
    rw [helement coords hbox, hsame coords hbox]

end List

/-! ## The layouts that come back -/

/-- The strides are those of a fresh array, up to axes of extent one. -/
def Dense (info : ShapeInfo) : Prop :=
  squeeze info.axes = squeeze (allocShapeInfo info.order info.shape).axes

instance (info : ShapeInfo) : Decidable (Dense info) :=
  inferInstanceAs (Decidable (_ = _))

/-- A layout is dense exactly when every coordinate has the offset it has in a fresh array. -/
theorem dense_iff (hpos : info.Positive) :
    Dense info ↔ ∀ coords, InBox info.shape coords →
      dot coords info.stride = denseOffset info coords := by
  have hdims : dims info.axes = dims (allocShapeInfo info.order info.shape).axes := by
    rw [ShapeInfo.dims_axes, ShapeInfo.dims_axes, shape_allocShapeInfo]
  have hfresh : (allocShapeInfo info.order info.shape).Positive := by
    unfold ShapeInfo.Positive
    rw [shape_allocShapeInfo]
    exact hpos
  have hvolume : volume (allocShapeInfo info.order info.shape).axes = info.shape.prod := by
    rw [volume, ← hdims, ShapeInfo.dims_axes]
  have hleft : ∀ k, offsetAt info.axes k = dot (decode info.shape k) info.stride := by
    intro k
    rw [offsetAt_eq_dot, ShapeInfo.dims_axes, ShapeInfo.map_snd_axes]
  have hright : ∀ k, offsetAt (allocShapeInfo info.order info.shape).axes k =
      denseOffset info (decode info.shape k) := by
    intro k
    rw [offsetAt_eq_dot, ← hdims, ShapeInfo.dims_axes, ShapeInfo.map_snd_axes]
    rfl
  rw [Dense, squeeze_eq_iff hdims hfresh.axes, hvolume]
  constructor
  · intro hoffsets coords hbox
    obtain ⟨k, hk, rfl⟩ := (bijOn_decode hpos).surjOn hbox
    rw [← hleft, ← hright]
    exact hoffsets k hk
  · intro hcoords k hk
    rw [hleft, hright]
    exact hcoords _ (inBox_decode hpos hk)

/-- The array comes back from both imports. -/
def RoundTrips [Zero T] (id : Int) (name : String) (array : NDArray T) : Prop :=
  (∃ v, importVariable (flatVariable id name array) = some v ∧ ComesBack array v.ndarray) ∧
    ∃ back, importArray (flatVariable id name array) = some back ∧ ComesBack array back

end Buffers

/-- A layout comes back from both imports, whatever the buffer holds, exactly when it is dense. -/
theorem roundTrips_iff_dense {T : Type} [Zero T] [Nontrivial T] (id : Int) (name : String)
    {info : ShapeInfo} (hpos : info.Positive) (hrank : info.rank ≤ maxRank) :
    (∀ buffer : Int → T, RoundTrips id name ⟨info, buffer⟩) ↔ Dense info := by
  have hlist : ∀ buffer : Int → T, (∃ back,
      importArray (flatVariable id name ⟨info, buffer⟩) = some back ∧
        ComesBack ⟨info, buffer⟩ back) ↔ ∀ coords, InBox info.shape coords →
          buffer (denseOffset info coords) = buffer (dot coords info.stride) := by
    intro buffer
    rw [@arrayList_comesBack_iff T _ id name ⟨info, buffer⟩ hpos hrank]
    apply forall₂_congr
    intro coords hbox
    rw [NDArray.element, getOffset_dot info hbox]
  constructor
  · intro hall
    rw [dense_iff hpos]
    intro coords hbox
    -- a buffer that tells the two places apart
    obtain ⟨x, y, hxy⟩ := exists_pair_ne T
    have hsame := (hlist fun o => if o = dot coords info.stride then x else y).mp (hall _).2
      coords hbox
    by_contra hne
    rw [if_pos rfl, if_neg (Ne.symm hne)] at hsame
    exact hxy hsame.symm
  · intro hdense buffer
    rw [dense_iff hpos] at hdense
    refine ⟨(variable_comesBack_iff id name ⟨info, buffer⟩).mpr fun coords hbox => ?_,
      (hlist buffer).mpr fun coords hbox => ?_⟩
    · obtain ⟨k, hk, hoffset⟩ := denseOffset_lt hpos hbox
      have hplace : dot coords info.stride = k := (hdense coords hbox).trans hoffset
      show 0 ≤ dot coords info.stride ∧ dot coords info.stride < info.length
      omega
    · rw [hdense coords hbox]

/-- The first two columns of a matrix of two rows and four columns. -/
def firstColumns : ShapeInfo where
  shape := [2, 2]
  stride := [4, 1]
  offset := 0
  elementWiseStride := 0
  order := 'c'
  stride_length := by decide

theorem roundTrips_iff_dense_firstColumns :
    (∀ buffer : Int → Int, RoundTrips 1 "x" ⟨firstColumns, buffer⟩) ↔ Dense firstColumns :=
  roundTrips_iff_dense 1 "x" (by decide) (by decide)

/-- Some columns of a matrix come back from neither import. -/
theorem not_roundTrips_always :
    ¬ ∀ (id : Int) (name : String) (array : NDArray Int), array.shapeInfo.Positive →
      array.shapeInfo.rank ≤ maxRank → RoundTrips id name array := by
  intro h
  have hback := (h 1 "x" ⟨firstColumns, fun o => o⟩ (by decide) (by decide)).1
  have hlies := (variable_comesBack_iff 1 "x" _).mp hback [1, 0] (by simp [InBox, firstColumns])
  exact absurd hlies (by decide)

end Arrays
end LibND4J
