import LibND4J.Arrays.Cells

/-!
# Scalar operations along dimensions

`ScalarTransform::transform` along dimensions combines every tensor of an array with a scalar of
its own.  Both sides are walked by the element-wise stride that the tensors of the input have; the
shape information of the output tensors is not looked at, and without a positive stride nothing is
done.

Main results:

- Theorem `exists_coordinate_of_step`: steps that reach all elements reach nothing else.
- Theorem `stepsAgree_iff`: equal steps on both sides are equal strides where the tensors move.
- Theorem `appliesAlong_iff`: the operation is applied to every element exactly if the stride
  is positive and both sides are reached by it.
-/

namespace LibND4J
namespace Loops

open Arrays Shape Stores Strided

section Operation

variable {T : Type}

/-- The number of tensors, as the `int` that bounds the loop. -/
def numTadsAlong (xShapeInfo : ShapeInfo) (dimension : List Nat) : Nat :=
  (toInt32 (xShapeInfo.length / Shape.tadLength xShapeInfo.shape dimension : Nat)).toNat

/-- The cell of element `f` of a tensor. -/
def tensorStep (offset ews : Int) (bothOne : Bool) (f : Nat) : Int :=
  if bothOne then offset + f else offset + f * ews

/-- `ScalarTransform::transform` along dimensions, from one memory to another.  The tensors of the
output are those of the input if they are not given; `steps` are the tensors and elements in the
order in which the threads come to them. -/
def transformAlong (op : T → T → T) (x : Int → T) (tadShapeInfo : ShapeInfo)
    (tadOffsets : List Int) (tadsZ : Option (ShapeInfo × List Int)) (scalars : Nat → T)
    (steps : List (Nat × Nat)) (z : Int → T) : Int → T :=
  let tadOffsetsZ := (tadsZ.getD (tadShapeInfo, tadOffsets)).2
  let tadEWS := tadShapeInfo.elementWiseStride
  -- the slot of the output tensors is not read
  let zEWS := tadShapeInfo.elementWiseStride
  if tadEWS ≥ 1 ∧ zEWS ≥ 1 then
    let bothOne : Bool := tadEWS = 1 ∧ zEWS = 1
    storeAll (fun (r, f) => tensorStep (tadOffsetsZ.getD r 0) zEWS bothOne f)
      (fun (r, f) _ => op (x (tensorStep (tadOffsets.getD r 0) tadEWS bothOne f)) (scalars r))
      steps z
  else
    -- the loop over coordinates is a message
    z

end Operation

/-- Every element of every tensor is combined with the scalar of its tensor, and nothing else is
changed: for all operations, contents, scalars and orders of the steps. -/
def AppliesAlong (xShapeInfo : ShapeInfo) (dimension : List Nat) (tadShapeInfo : ShapeInfo)
    (tadOffsets : List Int) (tadsZ : Option (ShapeInfo × List Int)) : Prop :=
  ∀ (T : Type) (op : T → T → T) (x z : Int → T) (scalars : Nat → T) (steps : List (Nat × Nat)),
    steps.Perm (List.range (numTadsAlong xShapeInfo dimension) ×ˢ
      List.range (Shape.tadLength xShapeInfo.shape dimension)) →
    let out := transformAlong op x tadShapeInfo tadOffsets tadsZ scalars steps z
    let tadShapeInfoZ := (tadsZ.getD (tadShapeInfo, tadOffsets)).1
    let tadOffsetsZ := (tadsZ.getD (tadShapeInfo, tadOffsets)).2
    let numTads := xShapeInfo.length / Shape.tadLength xShapeInfo.shape dimension
    (∀ r < numTads, ∀ c, InBox tadShapeInfo.shape c →
      out (tensorCell tadShapeInfoZ tadOffsetsZ r c) =
        op (x (tensorCell tadShapeInfo tadOffsets r c)) (scalars r)) ∧
    ∀ i, (∀ r < numTads, ∀ c, InBox tadShapeInfo.shape c →
      i ≠ tensorCell tadShapeInfoZ tadOffsetsZ r c) → out i = z i

/-- The steps of the input reach every element of a tensor, on both sides. -/
def StepsReach (tadShapeInfo tadShapeInfoZ : ShapeInfo) : Prop :=
  ∀ c, InBox tadShapeInfo.shape c → ∃ f < tadShapeInfo.length,
    dot c tadShapeInfo.stride = f * tadShapeInfo.elementWiseStride ∧
      dot c tadShapeInfoZ.stride = f * tadShapeInfo.elementWiseStride

section Steps

variable {x z : ShapeInfo}

theorem tensorStep_eq {ews : Int} {bothOne : Bool} (h : bothOne = true → ews = 1) (offset : Int)
    (f : Nat) : tensorStep offset ews bothOne f = offset + f * ews := by
  rw [tensorStep]
  split
  · next hone => rw [h hone, mul_one]
  · rfl

/-- Steps that reach all elements reach nothing else. -/
theorem exists_coordinate_of_step (hpos : x.Positive) (hshape : z.shape = x.shape)
    (hcells : CellsApart z) (hreach : StepsReach x z) {f : Nat} (hf : f < x.length) :
    ∃ c, InBox x.shape c ∧ dot c x.stride = f * x.elementWiseStride ∧
      dot c z.stride = f * x.elementWiseStride := by
  have hdecode := bijOn_decode hpos
  have hstep : ∀ k, ∃ f, k < x.length → f < x.length ∧
      dot (decode x.shape k) x.stride = f * x.elementWiseStride ∧
        dot (decode x.shape k) z.stride = f * x.elementWiseStride := by
    intro k
    by_cases hk : k < x.length
    · obtain ⟨f, hf, hx, hz⟩ := hreach _ (hdecode.mapsTo hk)
      exact ⟨f, fun _ => ⟨hf, hx, hz⟩⟩
    · exact ⟨0, fun h => absurd h hk⟩
  choose step hstep using hstep
  -- as many steps as elements, and no two elements share one
  have hmaps : Set.MapsTo step (Finset.range x.length) (Finset.range x.length) := by
    intro k hk
    rw [Finset.mem_coe, Finset.mem_range] at hk ⊢
    exact (hstep k hk).1
  have hinj : Set.InjOn step (Finset.range x.length) := by
    intro k hk k' hk' heq
    rw [Finset.mem_coe, Finset.mem_range] at hk hk'
    refine hdecode.injOn hk hk' (hcells _ _ ?_ ?_ ?_)
    · rw [hshape]
      exact hdecode.mapsTo hk
    · rw [hshape]
      exact hdecode.mapsTo hk'
    · rw [(hstep k hk).2.2, (hstep k' hk').2.2, heq]
  obtain ⟨k, hk, rfl⟩ := Finset.surjOn_of_injOn_of_card_le step hmaps hinj le_rfl
    (Finset.mem_coe.mpr (Finset.mem_range.mpr hf))
  rw [Finset.mem_coe, Finset.mem_range] at hk
  exact ⟨_, hdecode.mapsTo hk, (hstep k hk).2⟩

/-- Both sides are reached by the same steps exactly if the input is and the strides agree on the
axes that move. -/
theorem stepsReach_iff (hpos : x.Positive) (hshape : z.shape = x.shape) :
    StepsReach x z ↔ StepsReach x x ∧ squeeze z.axes = squeeze x.axes := by
  have hdims : dims z.axes = dims x.axes := by rw [z.dims_axes, x.dims_axes, hshape]
  have hequal : squeeze z.axes = squeeze x.axes ↔
      ∀ k < x.length, dot (decode x.shape k) z.stride = dot (decode x.shape k) x.stride := by
    rw [squeeze_eq_iff hdims hpos.axes, x.volume_axes]
    refine forall₂_congr fun k _ => ?_
    rw [offsetAt_eq_dot, offsetAt_eq_dot, hdims, x.dims_axes, x.map_snd_axes, z.map_snd_axes]
  rw [hequal]
  constructor
  · intro h
    constructor
    · intro c hc
      obtain ⟨f, hf, hx, -⟩ := h c hc
      exact ⟨f, hf, hx, hx⟩
    · intro k hk
      obtain ⟨f, -, hx, hz⟩ := h _ ((bijOn_decode hpos).mapsTo hk)
      rw [hx, hz]
  · rintro ⟨hreach, hsame⟩ c hc
    obtain ⟨f, hf, hx, -⟩ := hreach c hc
    obtain ⟨k, hk, rfl⟩ := (bijOn_decode hpos).surjOn hc
    exact ⟨f, hf, hx, by rw [hsame k hk, hx]⟩

/-- An honest slot reaches all elements. -/
theorem stepsReach_of_honest (hpos : x.Positive) (hews : x.HonestEws)
    (hslot : x.elementWiseStride ≥ 1) : StepsReach x x := by
  intro c hc
  obtain ⟨f, hf, rfl⟩ := (bijOn_coordinateOf x.isFOrder hpos).surjOn hc
  have hcell := hews hslot f hf
  rw [elementOffset_eq_dot] at hcell
  exact ⟨f, hf, hcell, hcell⟩

end Steps

section Applies

variable {xShapeInfo x z : ShapeInfo} {dimension : List Nat} {tadOffsets zOffsets : List Int}
  {tadsZ : Option (ShapeInfo × List Int)}

/-- The elements of one tensor have cells of their own. -/
theorem cellsApart_of_tensorsApart {n r : Nat} (h : TensorsApart z zOffsets n) (hr : r < n) :
    CellsApart z := by
  intro c c' hc hc' heq
  refine (h r r c c' hr hr hc hc' ?_).2
  rw [tensorCell, tensorCell, heq]

/-- With a positive stride both sides are walked by it. -/
theorem transformAlong_eq {T : Type} (op : T → T → T) (xs zs : Int → T) (scalars : Nat → T)
    (steps : List (Nat × Nat)) (hslot : x.elementWiseStride ≥ 1)
    (htads : tadsZ.getD (x, tadOffsets) = (z, zOffsets)) :
    transformAlong op xs x tadOffsets tadsZ scalars steps zs =
      storeAll (fun q => zOffsets.getD q.1 0 + q.2 * x.elementWiseStride)
        (fun q _ => op (xs (tadOffsets.getD q.1 0 + q.2 * x.elementWiseStride)) (scalars q.1))
        steps zs := by
  have hone : decide (x.elementWiseStride = 1 ∧ x.elementWiseStride = 1) = true →
      x.elementWiseStride = 1 := fun h => (of_decide_eq_true h).1
  rw [transformAlong, htads, if_pos ⟨hslot, hslot⟩]
  refine congrArg₂ (fun cell value => storeAll cell value steps zs) ?_ ?_
  · funext q
    exact tensorStep_eq hone _ _
  · funext q _
    exact congrArg (fun cell => op (xs cell) (scalars q.1)) (tensorStep_eq hone _ _)

/-- Steps that reach all elements of both sides apply the operation. -/
theorem appliesAlong_of_reach (hpos : x.Positive)
    (hlength : Shape.tadLength xShapeInfo.shape dimension = x.length)
    (htads : tadsZ.getD (x, tadOffsets) = (z, zOffsets)) (hshape : z.shape = x.shape)
    (hapart : TensorsApart z zOffsets (xShapeInfo.length / x.length))
    (hcount : xShapeInfo.length / x.length < 2 ^ 31) (hslot : x.elementWiseStride ≥ 1)
    (hreach : StepsReach x z) : AppliesAlong xShapeInfo dimension x tadOffsets tadsZ := by
  intro T op xs zs scalars steps hsteps
  have hnarrow : numTadsAlong xShapeInfo dimension = xShapeInfo.length / x.length := by
    rw [numTadsAlong, hlength, toInt32_of_lt (Int.natCast_nonneg _) (by exact_mod_cast hcount),
      Int.toNat_natCast]
  rw [hnarrow, hlength] at hsteps
  simp only [htads, hlength]
  rw [transformAlong_eq op xs zs scalars steps hslot htads]
  have hmem : ∀ q, q ∈ steps ↔ q.1 < xShapeInfo.length / x.length ∧ q.2 < x.length := by
    intro q
    rw [hsteps.mem_iff, List.mem_product, List.mem_range, List.mem_range]
  have hbox : ∀ {c}, InBox x.shape c → InBox z.shape c := fun hc => hshape.symm ▸ hc
  constructor
  · intro r hr c hc
    obtain ⟨f, hf, hx, hz⟩ := hreach c hc
    refine storeAll_of_agree ⟨(r, f), (hmem _).mpr ⟨hr, hf⟩, ?_⟩ (fun q hq hcell _ => ?_) _
    · rw [tensorCell, hz]
    · -- the step belongs to a coordinate, which is the one of the cell
      obtain ⟨hr', hf'⟩ := (hmem q).mp hq
      obtain ⟨c', hc', hx', hz'⟩ := exists_coordinate_of_step hpos hshape
        (cellsApart_of_tensorsApart hapart hr) hreach hf'
      have hsame : tensorCell z zOffsets q.1 c' = tensorCell z zOffsets r c := by
        rw [tensorCell, hz', hcell]
      obtain ⟨hrow, rfl⟩ := hapart _ _ _ _ hr' hr (hbox hc') (hbox hc) hsame
      rw [tensorCell, hx', hrow]
  · intro i hi
    refine storeAll_of_not_written (fun q hq hcell => ?_) zs
    obtain ⟨hr', hf'⟩ := (hmem q).mp hq
    obtain ⟨c', hc', -, hz'⟩ := exists_coordinate_of_step hpos hshape
      (cellsApart_of_tensorsApart hapart hr') hreach hf'
    refine hi q.1 hr' c' hc' ?_
    rw [tensorCell, hz', ← hcell]

/-- What is applied leaves the stride positive, and has a step for every element. -/
theorem reach_of_appliesAlong (hpos : x.Positive)
    (hlength : Shape.tadLength xShapeInfo.shape dimension = x.length)
    (htads : tadsZ.getD (x, tadOffsets) = (z, zOffsets))
    (htensors : 0 < xShapeInfo.length / x.length)
    (h : AppliesAlong xShapeInfo dimension x tadOffsets tadsZ) :
    xShapeInfo.length / x.length < 2 ^ 31 ∧ x.elementWiseStride ≥ 1 ∧ StepsReach x z := by
  set n := xShapeInfo.length / x.length with hn
  -- the contents tell the cells of the input, and the scalars the tensors
  set steps := List.range (numTadsAlong xShapeInfo dimension) ×ˢ
    List.range (Shape.tadLength xShapeInfo.shape dimension)
  obtain ⟨hright, -⟩ := h (Int × Nat) (fun a s => (a.1, s.2)) (fun i => (i, 0)) (fun _ => (0, n))
    (fun r => (0, r)) steps (.refl _)
  simp only [htads, hlength] at hright
  rw [← hn] at hright
  have hslot : x.elementWiseStride ≥ 1 := by
    by_contra hnot
    have hbox : InBox x.shape (decode x.shape 0) := (bijOn_decode hpos).mapsTo hpos.length_pos
    have hfirst := congrArg Prod.snd (hright 0 htensors _ hbox)
    simp only [transformAlong, htads, hnot, and_self, if_false] at hfirst
    omega
  rw [transformAlong_eq _ _ _ _ _ hslot htads] at hright
  have hstep : ∀ r < n, ∀ c, InBox x.shape c → r < numTadsAlong xShapeInfo dimension ∧
      ∃ f < x.length, dot c x.stride = f * x.elementWiseStride ∧
        dot c z.stride = f * x.elementWiseStride := by
    intro r hr c hc
    have hvalue := hright r hr c hc
    by_cases hwritten : ∃ q ∈ steps,
        zOffsets.getD q.1 0 + q.2 * x.elementWiseStride = tensorCell z zOffsets r c
    · obtain ⟨q, hq, hcell, m, hm⟩ := storeAll_of_written hwritten (fun _ => ((0 : Int), n))
      rw [hm, Prod.mk.injEq] at hvalue
      obtain ⟨hsource, hrow⟩ := hvalue
      simp only at hsource hrow
      subst hrow
      rw [List.mem_product, List.mem_range, List.mem_range, hlength] at hq
      rw [tensorCell] at hcell hsource
      exact ⟨hq.1, q.2, hq.2, by omega, by omega⟩
    · rw [storeAll_of_not_written fun q hq hcell => hwritten ⟨q, hq, hcell⟩] at hvalue
      have hrow := congrArg Prod.snd hvalue
      simp only at hrow
      omega
  refine ⟨?_, hslot, fun c hc => (hstep 0 htensors c hc).2⟩
  have hbox : InBox x.shape (decode x.shape 0) := (bijOn_decode hpos).mapsTo hpos.length_pos
  have hlast := (hstep (n - 1) (by omega) _ hbox).1
  rw [numTadsAlong, hlength, ← hn] at hlast
  simp only [toInt32, Int.bmod] at hlast
  omega

/-- The operation is applied along dimensions exactly if there are no tensors, or their number fits
an `int`, the element-wise stride of the input tensors is positive and reaches all their elements,
and the output tensors have the same strides where the tensors move. -/
theorem appliesAlong_iff (hpos : x.Positive)
    (hlength : Shape.tadLength xShapeInfo.shape dimension = x.length)
    (htads : tadsZ.getD (x, tadOffsets) = (z, zOffsets)) (hshape : z.shape = x.shape)
    (hapart : TensorsApart z zOffsets (xShapeInfo.length / x.length)) :
    AppliesAlong xShapeInfo dimension x tadOffsets tadsZ ↔
      xShapeInfo.length / x.length = 0 ∨
      xShapeInfo.length / x.length < 2 ^ 31 ∧ x.elementWiseStride ≥ 1 ∧ StepsReach x x ∧
        squeeze z.axes = squeeze x.axes := by
  rcases Nat.eq_zero_or_pos (xShapeInfo.length / x.length) with hzero | htensors
  · refine iff_of_true ?_ (Or.inl hzero)
    intro T op xs zs scalars steps hsteps
    have hnil : steps = [] := by
      rw [numTadsAlong, hlength, hzero] at hsteps
      exact List.Perm.eq_nil hsteps
    simp only [htads, hlength, hzero, Nat.not_lt_zero, false_implies, implies_true, true_and]
    intro i _
    rw [hnil, transformAlong]
    simp only [storeAll_nil, ite_self]
  · rw [← stepsReach_iff hpos hshape]
    constructor
    · intro h
      exact Or.inr (reach_of_appliesAlong hpos hlength htads htensors h)
    · rintro (hzero | ⟨hcount, hslot, hreach⟩)
      · omega
      · exact appliesAlong_of_reach hpos hlength htads hshape hapart hcount hslot hreach

end Applies

/-- The rows of a matrix, to a matrix with the same strides. -/
theorem appliesAlong_iff_rows :
    AppliesAlong (ShapeInfo.ofAxes [(2, 3), (3, 1)] 0 1 'c') [1]
      (ShapeInfo.ofAxes [(1, 1), (3, 1)] 0 1 'c') [0, 3] none := by
  refine (appliesAlong_iff (by decide) (by decide) rfl rfl ?_).mpr (Or.inr ⟨by decide, by decide,
    stepsReach_of_honest (by decide) (by decide) (by decide), rfl⟩)
  exact tensorsApart_of_nodup (by decide) (by decide)

/-- The rows of a square, to a square in the other order: the second element of a row belongs two
cells behind the first. -/
theorem not_appliesAlong_always :
    ¬ ∀ (xShapeInfo x z : ShapeInfo) (dimension : List Nat) (tadOffsets zOffsets : List Int),
      x.Positive → Shape.tadLength xShapeInfo.shape dimension = x.length → z.shape = x.shape →
      TensorsApart z zOffsets (xShapeInfo.length / x.length) →
      AppliesAlong xShapeInfo dimension x tadOffsets (some (z, zOffsets)) := by
  intro h
  have happlies := h (ShapeInfo.ofAxes [(2, 2), (2, 1)] 0 1 'c')
    (ShapeInfo.ofAxes [(1, 1), (2, 1)] 0 1 'c') (ShapeInfo.ofAxes [(1, 1), (2, 2)] 0 2 'c') [1]
    [0, 2] [0, 1] (by decide) (by decide) rfl (tensorsApart_of_nodup (by decide) (by decide))
  have hpos : (ShapeInfo.ofAxes [(1, 1), (2, 1)] 0 1 'c').Positive := by decide
  have hreach : StepsReach (ShapeInfo.ofAxes [(1, 1), (2, 1)] 0 1 'c')
      (ShapeInfo.ofAxes [(1, 1), (2, 2)] 0 2 'c') :=
    (reach_of_appliesAlong hpos (by decide) rfl (by decide) happlies).2.2
  have hsame := ((@stepsReach_iff _ (ShapeInfo.ofAxes [(1, 1), (2, 2)] 0 2 'c') hpos rfl).mp
    hreach).2
  exact absurd hsame (by decide)

end Loops
end LibND4J
