import LibND4J.Shape.Tad

/-!
# The tensor along all dimensions

Along all its axes an array has one tensor, the whole array.  The routine for the shared
shape information still takes a first slice of the permuted array, so that the last axis is
lost, unless its extent is one.

Main results:

- Theorem `shapeInfoOnlyShapeAndStride_all`: the shape information of an array along
  all its axes has the elements of the array without its last axis.
- Theorems `collision_ind2subC` and `collision_ind2sub`: decoding too many indices
  gives one offset twice.
-/

namespace LibND4J
namespace Shape

open Strided Selection

section Whole

variable {tad : TAD}

/-- Along all axes nothing is left over. -/
theorem kept_all (hall : tad.dimension.toList.length = tad.shapeInfo.rank) :
    tad.kept = tad.shapeInfo.axes := by
  apply pick_eq_self
  calc (pick tad.dimension.mem 0 tad.shapeInfo.axes).length
      = tad.dimension.toList.length := tad.length_kept
    _ = tad.shapeInfo.rank := hall
    _ = tad.shapeInfo.axes.length := tad.shapeInfo.length_axes.symm

theorem leftOver_all (hall : tad.dimension.toList.length = tad.shapeInfo.rank) :
    tad.leftOver = [] := by
  have hlen := tad.length_leftOver_add
  exact List.eq_nil_of_length_eq_zero (by omega)

/-- A first slice of several dimensions is turned around. -/
theorem tensorShapeInfo_all (hseveral : 1 < tad.dimension.toList.length) {ret2 : ShapeInfo}
    (hpos : ret2.Positive) (hrank : 0 < ret2.rank) (hlength : ret2.length ≤ volume tad.kept) :
    tad.tensorShapeInfo ret2 = some (reverseAxes ret2) := by
  obtain ⟨a, axes, hcons⟩ : ∃ a axes, ret2.axes = a :: axes := by
    apply List.exists_cons_of_length_pos
    rwa [ret2.length_axes]
  have hslices : lengthPerSlice ret2 ≤ ret2.length := by
    rw [lengthPerSlice_eq hcons, ← ret2.volume_axes, hcons, volume_cons]
    exact Nat.le_mul_of_pos_left _ (hpos.axes a (by simp [hcons]))
  have hnot : ¬ tad.dimension.toList.length = 1 := by omega
  unfold TAD.tensorShapeInfo
  simp only [tad.prod_keep, hnot, false_and, if_false]
  rw [if_pos hseveral]
  by_cases hcomp : (if isVector ret2 then ret2.length else volume tad.kept) = ret2.length
  · rw [if_pos hcomp]
  · have hlonger : volume tad.kept ≠ ret2.length := by
      intro heq
      rw [heq, ite_self] at hcomp
      exact hcomp rfl
    have hlast : ¬ volume tad.kept = lengthPerSlice ret2 := by omega
    rw [if_neg hcomp, if_neg (fun hboth => hlast hboth.2), if_neg hlast, TAD.sliceLoop,
      dif_neg (by omega), Option.map_some, if_pos hseveral]

variable {permuted : ShapeInfo} {a : Nat × Int}

/-- Along both axes of a matrix or of a row vector the second axis is lost. -/
theorem shapeInfo_both (hall : tad.dimension.toList.length = 2) {b : Nat × Int}
    (hreverse : permuted.axes = [b, a]) (ha : 0 < a.1) (hpos : 0 < b.1) (hb : b.1 ≠ 1)
    (hkept : volume tad.kept = a.1 * b.1) :
    ∃ ret, (sliceOfShapeBuffer tad.firstSlice permuted).bind tad.tensorShapeInfo = some ret ∧
      ret.elementWiseStride = -1 ∧ ret.length = a.1 := by
  have hshape : permuted.shape = [b.1, a.1] := by
    rw [← permuted.dims_axes, hreverse]
    rfl
  by_cases hone : a.1 = 1
  · -- the first slice of the column is a scalar
    obtain ⟨next, hnext, haxes⟩ : ∃ next, sliceOfShapeBuffer tad.firstSlice permuted = some next ∧
        next.axes = [(1, 1), (1, 1)] := by
      have hvector : isVector permuted = true := by
        simp [isVector, ShapeInfo.rank, hshape, hone]
      refine ⟨{ createScalarShapeInfo with offset := permuted.offset + tad.firstSlice }, ?_, rfl⟩
      rw [sliceOfShapeBuffer, if_pos hvector, if_neg (by simpa [hshape] using hb)]
    have hlength : next.length = 1 := by
      rw [← next.volume_axes, haxes]
      rfl
    refine ⟨reverseAxes next, ?_, rfl, ?_⟩
    · rw [hnext, Option.bind_some]
      apply tensorShapeInfo_all (by omega)
      · intro d hd
        rw [← next.dims_axes, haxes] at hd
        simp only [dims_cons, dims_nil, List.mem_cons, List.not_mem_nil, or_false, or_self] at hd
        omega
      · rw [← next.length_axes, haxes]
        exact Nat.two_pos
      · rw [hlength, hkept]
        exact Nat.mul_pos ha hpos
    · rw [← ShapeInfo.volume_axes, axes_reverseAxes, volume_reverse, next.volume_axes, hlength,
        hone]
  · obtain ⟨next, hnext, haxes, -⟩ := slice_of_matrix hreverse hb hone tad.firstSlice
    have hlength : next.length = a.1 := by
      rw [← next.volume_axes, haxes, volume_cons, volume_cons, volume_nil, one_mul, mul_one]
    refine ⟨reverseAxes next, ?_, rfl, ?_⟩
    · rw [hnext, Option.bind_some]
      apply tensorShapeInfo_all (by omega)
      · intro d hd
        rw [← next.dims_axes, haxes] at hd
        simp only [dims_cons, dims_nil, List.mem_cons, List.not_mem_nil, or_false] at hd
        omega
      · rw [← next.length_axes, haxes]
        exact Nat.two_pos
      · rw [hlength, hkept]
        exact Nat.le_mul_of_pos_right _ hpos
    · rw [← ShapeInfo.volume_axes, axes_reverseAxes, volume_reverse, next.volume_axes, hlength]

/-- Along all axes of an array of rank above two the last axis is lost. -/
theorem shapeInfo_every (hall : tad.dimension.toList.length = tad.shapeInfo.rank)
    (hpos : tad.shapeInfo.Positive) (hrank : 2 < tad.shapeInfo.rank) {axes : List (Nat × Int)}
    (haxes : tad.shapeInfo.axes = axes ++ [a]) (hreverse : permuted.axes = a :: axes.reverse) :
    ∃ ret, (sliceOfShapeBuffer tad.firstSlice permuted).bind tad.tensorShapeInfo = some ret ∧
      ret.elementWiseStride = -1 ∧ ret.axes = axes := by
  have hlength : tad.shapeInfo.rank = axes.length + 1 := by
    rw [← tad.shapeInfo.length_axes, haxes, List.length_append, List.length_singleton]
  have hsame : permuted.rank = tad.shapeInfo.rank := by
    rw [← permuted.length_axes, hreverse, List.length_cons, List.length_reverse, hlength]
  obtain ⟨next, hnext, htail, -⟩ := slice_of_rank (hsame ▸ hrank) tad.firstSlice
  rw [hreverse, List.tail_cons] at htail
  have hkept : volume tad.kept = volume axes * a.1 := by
    rw [kept_all hall, haxes, volume_append, volume_cons, volume_nil, mul_one]
  have ha : 0 < a.1 := hpos.axes a (by simp [haxes])
  refine ⟨reverseAxes next, ?_, rfl, ?_⟩
  · rw [hnext, Option.bind_some]
    apply tensorShapeInfo_all (by omega)
    · intro d hd
      rw [← next.dims_axes, htail, dims_reverse, List.mem_reverse] at hd
      apply hpos d
      rw [← tad.shapeInfo.dims_axes, haxes, dims_append]
      exact List.mem_append_left _ hd
    · rw [← next.length_axes, htail, List.length_reverse]
      omega
    · rw [← next.volume_axes, htail, volume_reverse, hkept]
      exact Nat.le_mul_of_pos_right _ ha
  · rw [axes_reverseAxes, htail, List.reverse_reverse]

/-- The first slice of a row vector is the row itself; along both axes of a column vector
nothing is lost. -/
theorem shapeInfo_row (hall : tad.dimension.toList.length = 2) (hfirst : tad.firstSlice = 0)
    {b : Nat × Int} (hreverse : permuted.axes = [a, b]) (ha : a.1 = 1) (hb : 0 < b.1)
    (hkept : volume tad.kept = b.1) :
    ∃ ret, (sliceOfShapeBuffer tad.firstSlice permuted).bind tad.tensorShapeInfo = some ret ∧
      ret.elementWiseStride = -1 ∧ ret.axes = [b, a] := by
  have hshape : permuted.shape = [a.1, b.1] := by
    rw [← permuted.dims_axes, hreverse]
    rfl
  obtain ⟨next, hnext, haxes⟩ : ∃ next, sliceOfShapeBuffer tad.firstSlice permuted = some next ∧
      next.axes = [a, b] := by
    have hvector : isVector permuted = true := by
      simp [isVector, ShapeInfo.rank, hshape, ha]
    refine ⟨ShapeInfo.ofAxes permuted.axes 0 0 '0', ?_, ?_⟩
    · rw [sliceOfShapeBuffer, if_pos hvector, if_pos (by simpa [hshape] using ha),
        if_pos hfirst]
    · rw [ShapeInfo.axes_ofAxes, hreverse]
  have hlength : next.length = b.1 := by
    rw [← next.volume_axes, haxes, volume_cons, volume_cons, volume_nil, ha, one_mul, mul_one]
  refine ⟨reverseAxes next, ?_, rfl, ?_⟩
  · rw [hnext, Option.bind_some]
    apply tensorShapeInfo_all (by omega)
    · intro d hd
      rw [← next.dims_axes, haxes] at hd
      simp only [dims_cons, dims_nil, List.mem_cons, List.not_mem_nil, or_false] at hd
      omega
    · rw [← next.length_axes, haxes]
      exact Nat.two_pos
    · rw [hlength, hkept]
  · rw [axes_reverseAxes, haxes]
    rfl

/-- Along all axes the shape information lacks the last axis. -/
theorem shapeInfoOnlyShapeAndStride_all (hpos : tad.shapeInfo.Positive)
    (hrank : 2 ≤ tad.shapeInfo.rank) (hall : tad.dimension.toList.length = tad.shapeInfo.rank)
    (hfirst : tad.firstSlice = 0) {axes : List (Nat × Int)} {a : Nat × Int}
    (haxes : tad.shapeInfo.axes = axes ++ [a]) :
    ∃ ret, tad.shapeInfoOnlyShapeAndStride = some ret ∧ ret.elementWiseStride = -1 ∧
      ret.length = volume axes ∧ (a.1 = 1 → squeeze ret.axes = squeeze tad.kept) := by
  have hgeneral : tad.shapeInfoOnlyShapeAndStride =
      (sliceOfShapeBuffer tad.firstSlice (permuteShapeBuffer tad.shapeInfo
        (removeIndex (List.range tad.shapeInfo.rank) tad.dimension.toList ++
          tad.dimension.toList.reverse))).bind tad.tensorShapeInfo := by
    have hnot : ∀ d, tad.dimension.toList ≠ [d] := by
      intro d hd
      rw [hd, List.length_singleton] at hall
      omega
    unfold TAD.shapeInfoOnlyShapeAndStride
    simp only
    rw [if_neg fun h => hnot _ h.2, if_neg (by omega), if_neg fun h => hnot _ h.1,
      if_neg fun h => hnot _ h.1, if_neg (by omega)]
  have hreverse := axes_permute_dimensions tad.shapeInfo tad.dimension
  generalize permuteShapeBuffer tad.shapeInfo
    (removeIndex (List.range tad.shapeInfo.rank) tad.dimension.toList ++
      tad.dimension.toList.reverse) = permuted at hreverse hgeneral
  have hleft : tad.dimension.leftOver tad.shapeInfo.axes = [] := leftOver_all hall
  have hkept : tad.dimension.kept tad.shapeInfo.axes = tad.shapeInfo.axes := kept_all hall
  rw [hleft, hkept, haxes, List.nil_append, List.reverse_append, List.reverse_singleton,
    List.singleton_append] at hreverse
  rw [hgeneral]
  have ha : 0 < a.1 := hpos.axes a (by simp [haxes])
  have hlength : tad.shapeInfo.rank = axes.length + 1 := by
    rw [← tad.shapeInfo.length_axes, haxes, List.length_append, List.length_singleton]
  by_cases htwo : tad.shapeInfo.rank = 2
  · obtain ⟨b, rfl⟩ := List.length_eq_one_iff.mp (show axes.length = 1 by omega)
    have hb : 0 < b.1 := hpos.axes b (by simp [haxes])
    have hvolume : volume tad.kept = b.1 * a.1 := by
      rw [kept_all hall, haxes]
      simp [volume_cons]
    by_cases hone : a.1 = 1
    · obtain ⟨ret, hret, hews, hret_axes⟩ := shapeInfo_row (hall.trans htwo) hfirst hreverse hone
        hb (by rw [hvolume, hone, mul_one])
      refine ⟨ret, hret, hews, ?_, fun _ => ?_⟩
      · rw [← ret.volume_axes, hret_axes]
        simp [volume_cons, hone]
      · rw [hret_axes, kept_all hall, haxes]
        rfl
    · obtain ⟨ret, hret, hews, hret_length⟩ := shapeInfo_both (hall.trans htwo) hreverse hb ha
        hone hvolume
      refine ⟨ret, hret, hews, ?_, fun h => absurd h hone⟩
      rw [hret_length, volume_cons, volume_nil, mul_one]
  · obtain ⟨ret, hret, hews, hret_axes⟩ := shapeInfo_every hall hpos (by omega) haxes hreverse
    refine ⟨ret, hret, hews, ?_, fun hone => ?_⟩
    · rw [← ret.volume_axes, hret_axes]
    · rw [kept_all hall, haxes, hret_axes]
      simp [squeeze, hone]

end Whole

/-! ## Too few elements -/

section Collision

variable {info : ShapeInfo}

/-- Indices past the elements collide in C order. -/
theorem collision_ind2subC (hpos : info.Positive) {n : Nat} (hn : 2 * info.length ≤ n) :
    ∃ f f', f < f' ∧ f' < n ∧ ∀ baseOffset,
      getOffset baseOffset info.shape info.stride (ind2subC info.shape f) =
        getOffset baseOffset info.shape info.stride (ind2subC info.shape f') := by
  have hlength := hpos.length_pos
  have hstride := info.stride_length
  simp only [ind2subC_eq_decode hpos]
  rw [ShapeInfo.length] at hn hlength
  cases hshape : info.shape with
  | nil =>
      rw [hshape, List.prod_nil] at hn
      exact ⟨0, 1, Nat.zero_lt_one, hn, fun _ => rfl⟩
  | cons d ds =>
      rw [hshape, List.length_cons] at hstride
      obtain ⟨s, ss, hss⟩ : ∃ s ss, info.stride = s :: ss :=
        List.exists_cons_of_length_eq_add_one hstride
      rw [hshape, List.prod_cons] at hn hlength
      have hds : 0 < ds.prod := Nat.pos_of_mul_pos_left hlength
      by_cases hone : d = 1
      · -- the leading extent is skipped, so the index wraps around
        subst hone
        rw [one_mul] at hn hlength
        refine ⟨0, ds.prod, hds, by omega, fun baseOffset => ?_⟩
        rw [hss, decode_cons, decode_cons, Nat.zero_mod, Nat.mod_self, getOffset, getOffset]
        simp
      · -- the first index is past its extent for both
        have hpast : ∀ f, d * ds.prod ≤ f → f / ds.prod ≥ d ∧ d ≠ 1 := fun f hf =>
          ⟨(Nat.le_div_iff_mul_le hds).mpr hf, hone⟩
        have htwo : 2 ≤ d * ds.prod := by
          have hd : 0 < d := Nat.pos_of_mul_pos_right hlength
          exact (show 2 ≤ d by omega).trans (Nat.le_mul_of_pos_right d hds)
        refine ⟨d * ds.prod, d * ds.prod + 1, Nat.lt_succ_self _, by omega, fun baseOffset => ?_⟩
        rw [hss, decode_cons, decode_cons, getOffset, getOffset, if_pos (hpast _ (Nat.le_refl _)),
          if_pos (hpast _ (Nat.le_succ _))]

/-- Indices past the elements collide in F order. -/
theorem collision_ind2sub (hpos : info.Positive) {n : Nat} (hn : 2 * info.length ≤ n) :
    ∃ f f', f < f' ∧ f' < n ∧ ∀ baseOffset,
      getOffset baseOffset info.shape info.stride (ind2sub info.shape f) =
        getOffset baseOffset info.shape info.stride (ind2sub info.shape f') := by
  have hlength := hpos.length_pos
  have hstride := info.stride_length
  simp only [ind2sub_eq_decodeF hpos, decodeF]
  rw [ShapeInfo.length] at hn hlength
  rcases List.eq_nil_or_concat info.shape with hshape | ⟨ds, d, hshape⟩
  · rw [hshape, List.prod_nil] at hn
    rw [hshape]
    exact ⟨0, 1, Nat.zero_lt_one, hn, fun _ => rfl⟩
  · rw [List.concat_eq_append] at hshape
    rw [hshape, List.length_append, List.length_singleton] at hstride
    obtain ⟨ss, s, hss⟩ : ∃ ss s, info.stride = ss ++ [s] := by
      rcases List.eq_nil_or_concat info.stride with hnil | ⟨ss, s, hss⟩
      · rw [hnil] at hstride
        exact absurd hstride (Nat.zero_ne_add_one _)
      · exact ⟨ss, s, hss.trans (List.concat_eq_append ..)⟩
    rw [hss, List.length_append, List.length_singleton, Nat.add_right_cancel_iff] at hstride
    rw [hshape, List.prod_append, List.prod_singleton] at hn hlength
    have hds : 0 < ds.prod := Nat.pos_of_mul_pos_right hlength
    have htail : ∀ e ∈ ds, 0 < e := fun e he => hpos e (by simp [hshape, he])
    have hsplit : ∀ f baseOffset,
        getOffset baseOffset info.shape info.stride (decode info.shape.reverse f).reverse =
          getOffset (baseOffset + dot (decode ds.reverse (f % ds.prod)).reverse ss) [d] [s]
            [f / ds.prod] := by
      intro f baseOffset
      rw [hshape, hss, List.reverse_append, List.reverse_singleton, List.singleton_append,
        decode_cons, List.reverse_cons, List.prod_reverse]
      apply getOffset_append _ hstride
      have hbox : InBox ds.reverse (decode ds.reverse (f % ds.prod)) := by
        refine inBox_decode (fun e he => htail e (List.mem_reverse.mp he)) ?_
        rw [List.prod_reverse]
        exact Nat.mod_lt _ hds
      rw [← List.reverse_reverse ds]
      exact inBox_reverse_iff.mpr (by simpa using hbox)
    simp only [hsplit]
    by_cases hone : d = 1
    · subst hone
      rw [mul_one] at hn hlength
      refine ⟨0, ds.prod, hds, by omega, fun baseOffset => ?_⟩
      rw [Nat.zero_mod, Nat.mod_self, getOffset, getOffset]
      simp [getOffset]
    · have hpast : ∀ f, ds.prod * d ≤ f → f / ds.prod ≥ d ∧ d ≠ 1 := fun f hf =>
        ⟨(Nat.le_div_iff_mul_le hds).mpr (by rwa [mul_comm]), hone⟩
      have htwo : 2 ≤ ds.prod * d := by
        have hd : 0 < d := Nat.pos_of_mul_pos_left hlength
        exact (show 2 ≤ d by omega).trans (Nat.le_mul_of_pos_left d hds)
      refine ⟨ds.prod * d, ds.prod * d + 1, Nat.lt_succ_self _, by omega, fun baseOffset => ?_⟩
      rw [getOffset, getOffset, if_pos (hpast _ (Nat.le_refl _)), if_pos (hpast _ (Nat.le_succ _))]

end Collision

end Shape
end LibND4J
