import LibND4J.Shape.Tad

/-!
# Tensors along one dimension

Along a single axis the tensors are vectors, and the shape information they share depends
on where the axes of extent one stand.  If the last left-over axis moves, the slices end in
a matrix and leave a row with an element-wise stride; otherwise axes of extent one are
still in front when the slices stop, and the element-wise stride is unknown.

Main results:

- Theorem `sliceLoop_along`: what the loop of slices leaves of one axis.
- Theorem `shapeInfoOnlyShapeAndStride_single`: the shared shape information of
  several tensors along one axis that moves.
- Theorem `shapeInfoOnlyShapeAndStride_laidOut`: where the axis then stands is a matter
  of the left-over extents alone.
- Theorem `shapeInfoOnlyShapeAndStride_unit`: the tensors along an axis of extent one
  are scalars.
-/

namespace LibND4J
namespace Shape

open Strided Selection

/-- Left-over axes in front of the kept one, in the order the strides show. -/
structure Sliced (k : Nat × Int) (left : List (Nat × Int)) (info : ShapeInfo) : Prop where
  axes_eq : info.axes = left ++ [k]
  ews_eq : info.elementWiseStride = -1
  order_eq : info.order = getOrder info.axes 1

/-- What the slices leave of the axis `k` behind the axes `left`: a row, or the axis next to
axes of extent one. -/
inductive AlongAxis (k : Nat × Int) (left : List (Nat × Int)) (info : ShapeInfo) : Prop
  | row (hlast : (dims left).getLastD 1 ≠ 1) (axes_eq : info.axes = [(1, 1), k])
      (ews_eq : info.elementWiseStride = k.2) (order_eq : info.order = getOrder info.axes 1)
  | padded (hlast : (dims left).getLastD 1 = 1) (units : List (Nat × Int)) (hne : units ≠ [])
      (hunits : volume units = 1) (axes_eq : info.axes = units ++ [k] ∨ info.axes = k :: units)
      (ews_eq : info.elementWiseStride = -1) (order_eq : info.order = getOrder info.axes 1)

/-- How many extents of one stand behind the last one that is not. -/
def unitsBehind : List Nat → Nat
  | [] => 0
  | d :: ds => if (d :: ds).prod = 1 then ds.length + 1 else unitsBehind ds

/-- How many axes stand in front of the chosen one, and how many behind it, when all slices
but the first are taken off the given extents. -/
def layoutBehind (rest : List Nat) : Nat × Nat :=
  if rest.prod ≠ 1 ∧ rest.tail.prod = 1 ∧ 2 ≤ rest.tail.length then (0, rest.tail.length)
  else (max 1 (unitsBehind rest), 0)

/-- The axis `k` stands among so many axes of extent one. -/
inductive LaidOut (k : Nat × Int) (info : ShapeInfo) : Nat × Nat → Prop
  | intro (units units' : List (Nat × Int)) (hunits : volume units = 1) (hunits' : volume units' = 1)
      (axes_eq : info.axes = units ++ k :: units') : LaidOut k info (units.length, units'.length)

/-- The order slot of a slice that is cut off an array with two moving axes. -/
theorem order_sliceOfShapeBuffer {info next : ShapeInfo} {sliceIdx : Nat}
    (hvector : isVector info = false) (hslice : sliceOfShapeBuffer sliceIdx info = some next) :
    next.order = getOrder next.axes 1 := by
  rw [sliceOfShapeBuffer, if_neg (by simp [hvector])] at hslice
  split at hslice
  · cases hslice
    rw [ShapeInfo.axes_ofAxes]
    rfl
  · cases hslice
    rw [ShapeInfo.axes_ofAxes]
    rfl

/-- With axes of volume one in front, the last of them has extent one. -/
theorem getLastD_of_volume {left : List (Nat × Int)} (h : volume left = 1) :
    (dims left).getLastD 1 = 1 := by
  induction left with
  | nil => rfl
  | cons m left ih =>
      rw [volume_cons] at h
      obtain ⟨hm, hrest⟩ := mul_eq_one.mp h
      cases left with
      | nil => simpa using hm
      | cons m' left => simpa using ih hrest

theorem getLastD_cons_cons (m m' : Nat × Int) (left : List (Nat × Int)) :
    (dims (m :: m' :: left)).getLastD 1 = (dims (m' :: left)).getLastD 1 := by
  simp

section Along

variable {k : Nat × Int} {left : List (Nat × Int)} {info : ShapeInfo}

theorem Sliced.length_eq (h : Sliced k left info) : info.length = volume left * k.1 := by
  rw [← info.volume_axes, h.axes_eq, volume_append, volume_cons, volume_nil, mul_one]

theorem Sliced.rank_eq (h : Sliced k left info) : info.rank = left.length + 1 := by
  rw [← info.length_axes, h.axes_eq, List.length_append, List.length_singleton]

/-- One slice takes the first left-over axis off; the last one leaves a row. -/
theorem Sliced.slice {m : Nat × Int} (h : Sliced k (m :: left) info) (hk : k.1 ≠ 1)
    (hm : left = [] → m.1 ≠ 1) (sliceIdx : Nat) :
    ∃ next, sliceOfShapeBuffer sliceIdx info = some next ∧
      (left ≠ [] ∧ Sliced k left next ∨ left = [] ∧ next.axes = [(1, 1), k] ∧
        next.elementWiseStride = k.2 ∧ next.order = getOrder next.axes 1) := by
  cases left with
  | nil =>
      have hmove : m.1 ≠ 1 := hm rfl
      have hshape : info.shape = [m.1, k.1] := by rw [← info.dims_axes, h.axes_eq]; rfl
      have hvector : isVector info = false := by simp [isVector, hshape, hmove, hk]
      obtain ⟨next, hslice, haxes, hews⟩ := slice_of_matrix h.axes_eq hmove hk sliceIdx
      refine ⟨next, hslice, Or.inr ⟨rfl, haxes, hews, ?_⟩⟩
      exact order_sliceOfShapeBuffer hvector hslice
  | cons m' left =>
      have hrank : 2 < info.rank := by
        rw [h.rank_eq]
        simp
      have hvector : isVector info = false := by simp [isVector, Nat.not_le.mpr hrank]
      obtain ⟨next, hslice, haxes, hews⟩ := slice_of_rank hrank sliceIdx
      refine ⟨next, hslice, Or.inl ⟨by simp, ?_⟩⟩
      constructor
      · rw [haxes, h.axes_eq]
        rfl
      · exact hews.trans h.ews_eq
      · exact order_sliceOfShapeBuffer hvector hslice

/-- Once the axes in front of the kept one have volume one, the axis is settled. -/
theorem Sliced.alongAxis (h : Sliced k left info) (hne : left ≠ []) (hvolume : volume left = 1)
    (m : Nat × Int) : AlongAxis k (m :: left) info := by
  apply AlongAxis.padded _ left hne hvolume (Or.inl h.axes_eq) h.ews_eq h.order_eq
  cases left with
  | nil => exact absurd rfl hne
  | cons m' left =>
      rw [getLastD_cons_cons]
      exact getLastD_of_volume hvolume

/-- The axis does not depend on what stands in front of the last left-over axis. -/
theorem AlongAxis.cons (h : AlongAxis k left info) (hne : left ≠ []) (m : Nat × Int) :
    AlongAxis k (m :: left) info := by
  obtain ⟨m', left, rfl⟩ := List.exists_cons_of_ne_nil hne
  cases h with
  | row hlast axes_eq ews_eq order_eq =>
      apply AlongAxis.row _ axes_eq ews_eq order_eq
      rwa [getLastD_cons_cons]
  | padded hlast units hunits hvolume axes_eq ews_eq order_eq =>
      apply AlongAxis.padded _ units hunits hvolume axes_eq ews_eq order_eq
      rwa [getLastD_cons_cons]

theorem unitsBehind_of_prod {ds : List Nat} (h : ds.prod = 1) : unitsBehind ds = ds.length := by
  cases ds with
  | nil => rfl
  | cons d ds => rw [unitsBehind, if_pos h, List.length_cons]

theorem unitsBehind_cons {d : Nat} {ds : List Nat} (h : (d :: ds).prod ≠ 1) :
    unitsBehind (d :: ds) = unitsBehind ds := by
  rw [unitsBehind, if_neg h]

/-- A row has one axis in front. -/
theorem LaidOut.of_row (h : info.axes = [(1, 1), k]) : LaidOut k info (1, 0) :=
  LaidOut.intro [(1, 1)] [] (by simp) (by simp) h

/-- Behind axes of extent one. -/
theorem LaidOut.of_sliced (h : Sliced k left info) (hne : left ≠ []) (hvolume : volume left = 1) :
    LaidOut k info (max 1 (unitsBehind (dims left)), 0) := by
  have hlength : max 1 (unitsBehind (dims left)) = left.length := by
    rw [unitsBehind_of_prod hvolume, dims, List.length_map]
    exact max_eq_right (List.length_pos_of_ne_nil hne)
  rw [hlength]
  exact LaidOut.intro left [] hvolume volume_nil h.axes_eq

/-- The loop of slices leaves the axis. -/
theorem sliceLoop_along (hk : k.1 ≠ 1) (hpos : 0 < k.1) (h : Sliced k left info)
    (hleft : 0 < volume left) (hmany : volume left ≠ 1) (sliceIndex : Nat) :
    ∃ ret, TAD.sliceLoop k.1 sliceIndex info = some ret ∧ AlongAxis k left ret ∧
      LaidOut k ret (max 1 (unitsBehind (dims left)), 0) := by
  induction left generalizing info sliceIndex with
  | nil => exact absurd rfl hmany
  | cons m left ih =>
      rw [volume_cons] at hleft hmany
      have hrest : 0 < volume left := Nat.pos_of_mul_pos_left hleft
      have hlong : info.length > k.1 := by
        rw [h.length_eq, volume_cons]
        apply lt_mul_of_one_lt_left hpos
        omega
      have hm : left = [] → m.1 ≠ 1 := by
        rintro rfl
        simpa using hmany
      have hrow : ¬ isRowVector info = true := by
        refine not_isRowVector_of_first (m := m) h.axes_eq ?_
        cases left with
        | nil => exact Or.inr (hm rfl)
        | cons m' left =>
            left
            rw [h.rank_eq]
            simp
      have hbehind : unitsBehind (dims (m :: left)) = unitsBehind (dims left) := by
        apply unitsBehind_cons
        rw [List.prod_cons]
        exact hmany
      rw [hbehind, TAD.sliceLoop, dif_pos hlong]
      simp only
      rw [dif_neg hrow]
      generalize TAD.sliceOffsetForTensor sliceIndex info.length (lengthPerSlice info) -
        slices info * (TAD.sliceOffsetForTensor sliceIndex info.length (lengthPerSlice info) /
          slices info) = nextIndex
      obtain ⟨next, hslice, hnext⟩ := h.slice hk hm nextIndex
      split
      · rename_i hnone
        rw [hslice] at hnone
        cases hnone
      · rename_i newRet2 hsome
        rw [hslice, Option.some.injEq] at hsome
        subst hsome
        rcases hnext with ⟨hne, hnext⟩ | ⟨hnil, haxes, hews, horder⟩
        · by_cases hone : volume left = 1
          · refine ⟨next, ?_, hnext.alongAxis hne hone m, LaidOut.of_sliced hnext hne hone⟩
            rw [TAD.sliceLoop, dif_neg (by simp [hnext.length_eq, hone])]
          · obtain ⟨ret, hloop, hret, hlaid⟩ := ih hnext hrest hone nextIndex
            exact ⟨ret, hloop, hret.cons hne m, hlaid⟩
        · refine ⟨next, ?_, AlongAxis.row ?_ haxes hews horder, ?_⟩
          · rw [TAD.sliceLoop, dif_neg]
            rw [← next.volume_axes, haxes]
            simp
          · rw [hnil]
            simpa using hm hnil
          · rw [hnil]
            exact LaidOut.of_row haxes

end Along

section Tensor

variable {tad : TAD} {k : Nat × Int}

/-- A first slice with no other moving axis is kept as it is. -/
theorem tensorShapeInfo_of_settled (hlen : tad.dimension.toList.length = 1)
    (hkept : tad.kept = [k]) {ret2 : ShapeInfo} (hlength : ret2.length = k.1) :
    tad.tensorShapeInfo ret2 = some ret2 := by
  have hcomp : (if isVector ret2 then ret2.length else volume [k]) = ret2.length := by
    rw [volume_cons, volume_nil, mul_one, hlength, ite_self]
  unfold TAD.tensorShapeInfo
  simp only [tad.prod_keep, hkept]
  rw [if_pos hcomp, if_neg (show ¬ tad.dimension.toList.length > 1 by omega), ite_self]

/-- Behind the first slice, one axis is left next to axes of extent one, or as a row. -/
theorem tensorShapeInfo_along (hlen : tad.dimension.toList.length = 1) (hkept : tad.kept = [k])
    (hk : k.1 ≠ 1) (hpos : 0 < k.1) (hfirst : tad.firstSlice = 0) {left : List (Nat × Int)}
    {ret2 : ShapeInfo} (h : Sliced k left ret2) (hleft : 0 < volume left)
    (hmany : volume left ≠ 1) :
    ∃ ret, tad.tensorShapeInfo ret2 = some ret ∧ AlongAxis k left ret ∧
      LaidOut k ret (layoutBehind (dims left)) := by
  obtain ⟨m, rest, rfl⟩ : ∃ m rest, left = m :: rest := by
    apply List.exists_cons_of_ne_nil
    rintro rfl
    exact hmany rfl
  rw [volume_cons] at hleft hmany
  have hrest : 0 < volume rest := Nat.pos_of_mul_pos_left hleft
  have hm : rest = [] → m.1 ≠ 1 := by
    rintro rfl
    simpa using hmany
  have hvector : isVector ret2 = false := by
    cases rest with
    | nil =>
        have hshape : ret2.shape = [m.1, k.1] := by rw [← ret2.dims_axes, h.axes_eq]; rfl
        simp [isVector, hshape, hm rfl, hk]
    | cons m' rest =>
        have hrank : 2 < ret2.rank := by
          rw [h.rank_eq]
          simp
        simp [isVector, Nat.not_le.mpr hrank]
  have hlonger : ¬ volume [k] = ret2.length := by
    rw [h.length_eq, volume_cons, volume_nil, mul_one, volume_cons]
    intro heq
    exact hmany (Nat.eq_of_mul_eq_mul_right hpos (by rw [one_mul]; exact heq.symm))
  have hslices : lengthPerSlice ret2 = volume rest * k.1 := by
    rw [lengthPerSlice_eq h.axes_eq, List.append_eq, volume_append, volume_cons, volume_nil,
      mul_one]
  have hbehind : unitsBehind (dims (m :: rest)) = unitsBehind (dims rest) := by
    apply unitsBehind_cons
    rw [List.prod_cons]
    exact hmany
  have hprod : (dims (m :: rest)).prod ≠ 1 := by
    rw [dims_cons, List.prod_cons]
    exact hmany
  unfold TAD.tensorShapeInfo
  simp only [tad.prod_keep, hkept, hvector]
  rw [if_neg (by simpa using hlonger), hslices]
  by_cases hone : volume rest = 1
  · -- one more slice is enough
    rw [if_pos ⟨hfirst, by rw [hone, one_mul, volume_cons, volume_nil, mul_one]⟩]
    obtain ⟨next, hslice, hnext⟩ :=
      h.slice hk hm (tad.tadIndex * volume [k] / (volume rest * k.1))
    rw [hslice, Option.map_some]
    refine ⟨_, rfl, ?_⟩
    rcases hnext with ⟨hne, hnext⟩ | ⟨hnil, haxes, hews, horder⟩
    · split
      · rename_i hrow
        refine ⟨hnext.alongAxis hne hone m, ?_⟩
        have hshort : ¬ 2 ≤ rest.length := by
          simp only [isRowVector, isVector, Bool.decide_and, Bool.and_eq_true,
            decide_eq_true_eq] at hrow
          rw [hnext.rank_eq] at hrow
          omega
        rw [layoutBehind, if_neg (fun h => hshort (by simpa [dims] using h.2.2)), hbehind]
        exact LaidOut.of_sliced hnext hne hone
      · rename_i hrow
        have hlong : 2 ≤ rest.length := by
          by_contra hshort
          obtain ⟨a, rfl⟩ := List.length_eq_one_iff.mp
            (show rest.length = 1 by have := List.length_pos_of_ne_nil hne; omega)
          have hshape : next.shape = [a.1, k.1] := by rw [← next.dims_axes, hnext.axes_eq]; rfl
          have ha : a.1 = 1 := by simpa using hone
          simp [isRowVector, isVector, ShapeInfo.rank, hshape, ha] at hrow
        have hreverse : (reverseAxes next).axes = k :: rest.reverse := by
          rw [axes_reverseAxes, hnext.axes_eq, List.reverse_append, List.reverse_singleton,
            List.singleton_append]
        refine ⟨?_, ?_⟩
        rotate_left
        · have hlayout : layoutBehind (dims (m :: rest)) = (0, rest.reverse.length) := by
            rw [layoutBehind, if_pos ⟨hprod, hone, by simpa [dims] using hlong⟩]
            simp [dims]
          rw [hlayout]
          exact LaidOut.intro [] rest.reverse volume_nil (by rw [volume_reverse, hone]) hreverse
        have hunits : volume rest.reverse = 1 := by rw [volume_reverse, hone]
        have hlast := (hnext.alongAxis hne hone m)
        apply AlongAxis.padded _ rest.reverse (by simpa using hne) hunits
        · exact Or.inr hreverse
        · rfl
        · rw [reverseAxes, permuteShapeBuffer, ShapeInfo.axes_ofAxes]
          rfl
        · obtain ⟨m', rest, rfl⟩ := List.exists_cons_of_ne_nil hne
          rw [getLastD_cons_cons]
          exact getLastD_of_volume hone
    · have hshape : next.shape = [1, k.1] := by rw [← next.dims_axes, haxes]; rfl
      rw [if_pos (by simp [isRowVector, isVector, ShapeInfo.rank, hshape])]
      refine ⟨AlongAxis.row ?_ haxes hews horder, ?_⟩
      · rw [hnil]
        simpa using hm hnil
      · rw [layoutBehind, if_neg (fun h => by simp [hnil] at h), hbehind, hnil]
        exact LaidOut.of_row haxes
  · have hnot : ¬ volume [k] = volume rest * k.1 := by
      rw [volume_cons, volume_nil, mul_one]
      intro heq
      exact hone (Nat.eq_of_mul_eq_mul_right hpos (by rw [one_mul]; exact heq.symm))
    rw [if_neg (fun hboth => hnot hboth.2), if_neg hnot]
    obtain ⟨ret, hloop, hret, hlaid⟩ := sliceLoop_along hk hpos h (by rwa [volume_cons])
      (by rwa [volume_cons]) tad.firstSlice
    rw [volume_cons, volume_nil, mul_one, hloop, Option.map_some]
    have hlayout : layoutBehind (dims (m :: rest)) =
        (max 1 (unitsBehind (dims (m :: rest))), 0) := by
      rw [layoutBehind, if_neg (fun h => hone h.2.1)]
    refine ⟨ret, ?_, hret, hlayout ▸ hlaid⟩
    rw [if_neg (show ¬ tad.dimension.toList.length > 1 by omega), ite_self]

/-- The axis of a vector that is not chosen has extent one. -/
theorem volume_leftOver_of_isVector (hrank : 2 ≤ tad.shapeInfo.rank)
    (hvector : isVector tad.shapeInfo) {d : Nat} (hdim : tad.dimension.toList = [d])
    (hone : tad.shapeInfo.shape.getD (1 - d) 0 = 1) : volume tad.leftOver = 1 := by
  obtain ⟨a, b, haxes⟩ := axes_of_isVector hrank hvector
  have hlt := tad.dimension.lt_rank d (by rw [hdim]; exact List.mem_singleton_self d)
  rw [← tad.shapeInfo.length_axes, haxes] at hlt
  rw [← tad.shapeInfo.dims_axes, haxes] at hone
  rw [TAD.leftOver, haxes]
  have hcases : d = 0 ∨ d = 1 := by
    simp only [List.length_cons, List.length_nil] at hlt
    omega
  rcases hcases with rfl | rfl
  · have hb : b.1 = 1 := by simpa using hone
    simp [Dimensions.leftOver, pick, Dimensions.mem, hdim, hb]
  · have ha : a.1 = 1 := by simpa using hone
    simp [Dimensions.leftOver, pick, Dimensions.mem, hdim, ha]

/-- The extent of the chosen axis. -/
theorem getD_shape_of_kept {d : Nat} (hdim : tad.dimension.toList = [d]) (hkept : tad.kept = [k]) :
    tad.shapeInfo.shape.getD d 0 = k.1 := by
  have hlength := tad.tadLength_eq
  rw [TAD.tadLength, hdim, tadLength_singleton, hkept] at hlength
  simpa using hlength

/-- In a matrix that is no vector the axis that is not chosen moves. -/
theorem volume_leftOver_of_matrix (htwo : tad.shapeInfo.rank = 2)
    (hlen : tad.dimension.toList.length = 1) (hvector : isVector tad.shapeInfo = false) :
    volume tad.leftOver ≠ 1 := by
  intro hone
  obtain ⟨d, hdim⟩ := List.length_eq_one_iff.mp hlen
  obtain ⟨a, b, haxes⟩ := List.length_eq_two.mp (tad.shapeInfo.length_axes.trans htwo)
  have hshape : tad.shapeInfo.shape = [a.1, b.1] := by rw [← tad.shapeInfo.dims_axes, haxes]; rfl
  have hlt := tad.dimension.lt_rank d (by rw [hdim]; exact List.mem_singleton_self d)
  rw [TAD.leftOver, haxes] at hone
  have hcases : d = 0 ∨ d = 1 := by omega
  rcases hcases with rfl | rfl
  · have hb : b.1 = 1 := by
      simpa [Dimensions.leftOver, pick, Dimensions.mem, hdim] using hone
    simp [isVector, ShapeInfo.rank, hshape, hb] at hvector
  · have ha : a.1 = 1 := by
      simpa [Dimensions.leftOver, pick, Dimensions.mem, hdim] using hone
    simp [isVector, ShapeInfo.rank, hshape, ha] at hvector

/-- The tensors along one axis, of which there are several unless the array is no vector, are
cut out by slices, or are scalars. -/
theorem shapeInfoOnlyShapeAndStride_of_other (hrank : 2 ≤ tad.shapeInfo.rank)
    (hmax : tad.shapeInfo.rank ≤ maxDimension) (hlen : tad.dimension.toList.length = 1)
    (hkept : tad.kept = [k])
    (hother : isVector tad.shapeInfo = false ∨ volume tad.leftOver ≠ 1) :
    tad.shapeInfoOnlyShapeAndStride =
      if k.1 = 1 then some { createScalarShapeInfo with offset := tad.tadIndex }
      else (sliceOfShapeBuffer tad.firstSlice (permuteShapeBuffer tad.shapeInfo
        (removeIndex (List.range tad.shapeInfo.rank) tad.dimension.toList ++
          tad.dimension.toList.reverse))).bind tad.tensorShapeInfo := by
  obtain ⟨d, hdim⟩ := List.length_eq_one_iff.mp hlen
  have hlt := tad.dimension.lt_rank d (by rw [hdim]; exact List.mem_singleton_self d)
  have hextent := getD_shape_of_kept hdim hkept
  have hmarker : ¬ (tad.wholeThing ∧ tad.dimension.toList = [maxDimension]) := by
    rintro ⟨-, heq⟩
    rw [hdim, List.cons.injEq] at heq
    omega
  have hcolumn : ¬ (tad.dimension.toList = [0] ∧ isVector tad.shapeInfo ∧
      tad.shapeInfo.shape.getD 1 0 = 1) := by
    rintro ⟨hzero, hvector, hone⟩
    rcases hother with hnot | hmany
    · rw [hvector] at hnot
      cases hnot
    · exact hmany (volume_leftOver_of_isVector hrank hvector hzero hone)
  have hrow : ¬ (tad.dimension.toList = [1] ∧ isVector tad.shapeInfo ∧
      tad.shapeInfo.shape.getD 0 0 = 1) := by
    rintro ⟨hone, hvector, hunit⟩
    rcases hother with hnot | hmany
    · rw [hvector] at hnot
      cases hnot
    · exact hmany (volume_leftOver_of_isVector hrank hvector hone hunit)
  have hextent' : tad.shapeInfo.shape.getD (tad.dimension.toList.getD 0 0) 0 = k.1 := by
    rw [hdim, List.getD_cons_zero, hextent]
  unfold TAD.shapeInfoOnlyShapeAndStride
  simp only
  rw [if_neg hmarker, if_neg (by rw [hlen]; omega), if_neg hcolumn, if_neg hrow, hextent', hlen]
  simp only [true_and]

/-- Tensors along one axis that moves share a row, or the axis among axes of extent one; where
it stands only depends on the left-over extents. -/
theorem shapeInfoOnlyShapeAndStride_laidOut (hpos : tad.shapeInfo.Positive)
    (hrank : 2 ≤ tad.shapeInfo.rank) (hmax : tad.shapeInfo.rank ≤ maxDimension)
    (hlen : tad.dimension.toList.length = 1) (hkept : tad.kept = [k]) (hk : k.1 ≠ 1)
    (hfirst : tad.firstSlice = 0)
    (hother : isVector tad.shapeInfo = false ∨ volume tad.leftOver ≠ 1) :
    ∃ ret, tad.shapeInfoOnlyShapeAndStride = some ret ∧ AlongAxis k tad.leftOver ret ∧
      LaidOut k ret (layoutBehind (dims tad.leftOver).tail) := by
  have hleft := TAD.volume_leftOver_pos hpos
  have hposk : 0 < k.1 := by
    have hvolume := TAD.volume_kept_pos hpos
    rw [hkept] at hvolume
    simpa using hvolume
  have hsum := tad.length_leftOver_add
  have hmatrix : tad.leftOver.length = 1 → volume tad.leftOver ≠ 1 := by
    intro hone
    exact hother.elim (volume_leftOver_of_matrix (by omega) hlen) id
  rw [shapeInfoOnlyShapeAndStride_of_other hrank hmax hlen hkept hother, if_neg hk]
  have haxes := axes_permute_dimensions tad.shapeInfo tad.dimension
  generalize hpermuted : permuteShapeBuffer tad.shapeInfo
    (removeIndex (List.range tad.shapeInfo.rank) tad.dimension.toList ++
      tad.dimension.toList.reverse) = permuted at haxes ⊢
  have hsliced : Sliced k tad.leftOver permuted := by
    constructor
    · rw [haxes, show tad.dimension.kept tad.shapeInfo.axes = [k] from hkept]
      rfl
    · rw [← hpermuted]
      rfl
    · rw [← hpermuted, permuteShapeBuffer, ShapeInfo.axes_ofAxes]
      rfl
  have hsome : tad.leftOver ≠ [] := by
    intro hnil
    rw [hnil, List.length_nil] at hsum
    omega
  generalize tad.leftOver = left at hsliced hmatrix hleft hsome ⊢
  obtain ⟨m, rest, rfl⟩ := List.exists_cons_of_ne_nil hsome
  rw [volume_cons] at hleft
  have hrest : 0 < volume rest := Nat.pos_of_mul_pos_left hleft
  have hm : rest = [] → m.1 ≠ 1 := by
    rintro rfl
    simpa using hmatrix rfl
  obtain ⟨ret2, hslice, hnext⟩ := hsliced.slice hk hm tad.firstSlice
  rw [hslice, Option.bind_some, dims_cons, List.tail_cons]
  rcases hnext with ⟨hne, hnext⟩ | ⟨hnil, haxes, hews, horder⟩
  · by_cases hone : volume rest = 1
    · have hlength : ret2.length = k.1 := by rw [hnext.length_eq, hone, one_mul]
      refine ⟨ret2, tensorShapeInfo_of_settled hlen hkept hlength,
        hnext.alongAxis hne hone m, ?_⟩
      rw [layoutBehind, if_neg (fun h => h.1 hone)]
      exact LaidOut.of_sliced hnext hne hone
    · obtain ⟨ret, htensor, hret, hlaid⟩ :=
        tensorShapeInfo_along hlen hkept hk hposk hfirst hnext hrest hone
      exact ⟨ret, htensor, hret.cons hne m, hlaid⟩
  · have hlength : ret2.length = k.1 := by
      rw [← ret2.volume_axes, haxes]
      simp
    refine ⟨ret2, tensorShapeInfo_of_settled hlen hkept hlength, ?_, ?_⟩
    · apply AlongAxis.row _ haxes hews horder
      rw [hnil]
      simpa using hm hnil
    · rw [hnil]
      exact LaidOut.of_row haxes

/-- Several tensors along one axis that moves share a row, or the axis next to axes of
extent one. -/
theorem shapeInfoOnlyShapeAndStride_single (hpos : tad.shapeInfo.Positive)
    (hrank : 2 ≤ tad.shapeInfo.rank) (hmax : tad.shapeInfo.rank ≤ maxDimension)
    (hlen : tad.dimension.toList.length = 1) (hkept : tad.kept = [k]) (hk : k.1 ≠ 1)
    (hfirst : tad.firstSlice = 0) (hmany : volume tad.leftOver ≠ 1) :
    ∃ ret, tad.shapeInfoOnlyShapeAndStride = some ret ∧ AlongAxis k tad.leftOver ret := by
  obtain ⟨ret, hret, halong, -⟩ :=
    shapeInfoOnlyShapeAndStride_laidOut hpos hrank hmax hlen hkept hk hfirst (Or.inr hmany)
  exact ⟨ret, hret, halong⟩

/-- Tensors along an axis of extent one are scalars. -/
theorem shapeInfoOnlyShapeAndStride_unit (hrank : 2 ≤ tad.shapeInfo.rank)
    (hmax : tad.shapeInfo.rank ≤ maxDimension) (hlen : tad.dimension.toList.length = 1)
    (hkept : tad.kept = [k]) (hk : k.1 = 1)
    (hother : isVector tad.shapeInfo = false ∨ volume tad.leftOver ≠ 1) :
    tad.shapeInfoOnlyShapeAndStride =
      some { createScalarShapeInfo with offset := tad.tadIndex } := by
  rw [shapeInfoOnlyShapeAndStride_of_other hrank hmax hlen hkept hother, if_pos hk]

end Tensor

/-- The tensors start at the first slice. -/
theorem firstSlice_init {info : ShapeInfo} (dimension : Dimensions info.rank) :
    (TAD.init info dimension).firstSlice = 0 := by
  unfold TAD.firstSlice TAD.sliceOffsetForTensor
  simp only
  split
  · rfl
  · show 0 * _ / _ = 0
    rw [zero_mul, Nat.zero_div]

end Shape
end LibND4J
