import LibND4J.Shape.Reshape
import LibND4J.Shape.Slices

/-!
# Shape information of a fresh array

`shapeBuffer` and `shapeBufferFortran` compute the strides of an array whose
elements lie one after the other, and find its element-wise stride by trying to reshape it
to a row.

Main results:

- Theorem `computeElementWiseStride_linear`: away from vectors a stride found in C order
  steps through the elements.
- Theorems `elementOffset_shapeBuffer` and `elementOffset_shapeBufferFortran`: the
  elements of a fresh array lie one after the other.
- Theorems `honestEws_shapeBuffer` and `honestEws_shapeBufferFortran`: their slots
  are honest.
-/

namespace LibND4J
namespace Shape

open Strided

/-! ## Strides -/

/-- `isVector` of a shape. -/
def isVectorShape (shape : List Nat) : Bool :=
  shape.length ≤ 2 ∧ (shape.getD 0 0 = 1 ∨ shape.getD 1 0 = 1)

/-- `calcStrides`; a vector has two strides of one. -/
def calcStrides (shape : List Nat) : List Int :=
  if isVectorShape shape then shape.map fun _ => 1
  else (runningStrides shape.reverse 1).reverse

def calcStridesFortran (shape : List Nat) : List Int :=
  if isVectorShape shape then shape.map fun _ => 1
  else runningStrides shape 1

@[simp]
theorem length_calcStrides (shape : List Nat) : (calcStrides shape).length = shape.length := by
  rw [calcStrides]
  split <;> simp

@[simp]
theorem length_calcStridesFortran (shape : List Nat) :
    (calcStridesFortran shape).length = shape.length := by
  rw [calcStridesFortran]
  split <;> simp

/-- `computeElementWiseStride`: the stride of a row that views all elements, minus one if
there is none.  `none` stands for an index past an array. -/
def computeElementWiseStride (axes : List (Nat × Int)) (isFOrder : Bool) : Option Int :=
  let lastOfStrides := (axes.map Prod.snd).getLastD 0
  if isVectorShape (dims axes) then
    some lastOfStrides
  else
    let newShape := [1, volume axes]
    match reshapeGroups (ShapeInfo.ofAxes axes 0 0 'c') newShape isFOrder with
    | .outOfBounds => none
    | .no => some (-1)
    | .yes (ni, newStrides) =>
        let lastStride := if ni ≥ 1 then newStrides.getD (ni - 1) 0 else lastOfStrides
        some (if isFOrder ∧ ni ≥ 1 then lastStride * newShape.getD (ni - 1) 0 else lastStride)

def shapeBuffer (shape : List Nat) : ShapeInfo :=
  let axes := shape.zip (calcStrides shape)
  ShapeInfo.ofAxes axes 0 ((computeElementWiseStride axes false).getD 0) 'c'

/-- `shapeBufferFortran`; the element-wise stride is computed for the C order here too. -/
def shapeBufferFortran (shape : List Nat) : ShapeInfo :=
  let axes := shape.zip (calcStridesFortran shape)
  ShapeInfo.ofAxes axes 0 ((computeElementWiseStride axes false).getD 0) 'f'

@[simp]
theorem axes_shapeBuffer (shape : List Nat) :
    (shapeBuffer shape).axes = shape.zip (calcStrides shape) :=
  ShapeInfo.axes_ofAxes _ _ _ _

@[simp]
theorem axes_shapeBufferFortran (shape : List Nat) :
    (shapeBufferFortran shape).axes = shape.zip (calcStridesFortran shape) :=
  ShapeInfo.axes_ofAxes _ _ _ _

@[simp]
theorem shape_shapeBuffer (shape : List Nat) : (shapeBuffer shape).shape = shape :=
  List.map_fst_zip (by simp)

@[simp]
theorem shape_shapeBufferFortran (shape : List Nat) : (shapeBufferFortran shape).shape = shape :=
  List.map_fst_zip (by simp)

theorem runningStrides_snoc (ds : List Nat) (d : Nat) (s : Int) :
    runningStrides (ds ++ [d]) s = runningStrides ds s ++ [s * ds.prod] := by
  induction ds generalizing s with
  | nil => simp [runningStrides]
  | cons e ds ih =>
      rw [List.cons_append, runningStrides, ih, runningStrides, List.prod_cons, Nat.cast_mul,
        mul_assoc]
      rfl

/-- The first stride of a fresh array in C order is the volume of the other axes. -/
theorem axes_shapeBuffer_cons {d : Nat} {ds : List Nat} (hlong : 2 ≤ ds.length) :
    (shapeBuffer (d :: ds)).axes =
      (d, (ds.prod : Int)) :: ds.zip (runningStrides ds.reverse 1).reverse := by
  have hvector : isVectorShape (d :: ds) = false := by
    have hnot : ¬ (d :: ds).length ≤ 2 := by
      rw [List.length_cons]
      omega
    simp only [isVectorShape, hnot, false_and, decide_false]
  rw [axes_shapeBuffer, calcStrides, hvector, if_neg Bool.false_ne_true, List.reverse_cons,
    runningStrides_snoc, List.reverse_append, List.reverse_singleton, List.singleton_append,
    List.zip_cons_cons, List.prod_reverse, one_mul]

/-! ## The element-wise stride -/

/-- Away from vectors, the stride found in C order steps through the elements. -/
theorem computeElementWiseStride_linear {axes : List (Nat × Int)} (hpos : ∀ a ∈ axes, 0 < a.1)
    (hvector : isVectorShape (dims axes) = false) :
    ∃ e, computeElementWiseStride axes false = some e ∧ (e = -1 ∨ Linear axes e) := by
  have hinfo : (ShapeInfo.ofAxes axes 0 0 'c').Positive := by
    intro d hd
    obtain ⟨a, ha, rfl⟩ := List.mem_map.mp hd
    exact hpos a ha
  have hvolume : 0 < volume axes := volume_pos hpos
  have hnew : ∀ d ∈ [1, volume axes], 0 < d := by simpa using hvolume
  have hspec := reshapeGroups_spec hinfo hnew false
  rw [ShapeInfo.axes_ofAxes] at hspec
  unfold computeElementWiseStride
  simp only [hvector, Bool.false_eq_true, if_false, false_and]
  cases hgroups : reshapeGroups (ShapeInfo.ofAxes axes 0 0 'c') [1, volume axes] false with
  | outOfBounds =>
      rw [hgroups] at hspec
      exact hspec.elim
  | no => exact ⟨-1, rfl, Or.inl rfl⟩
  | yes result =>
      obtain ⟨ni, newStrides⟩ := result
      rw [hgroups] at hspec
      obtain ⟨hlength, hni, hones, hview⟩ := hspec
      refine ⟨_, rfl, Or.inr ?_⟩
      intro k hk
      by_cases hone : volume axes = 1
      · have hzero : k = 0 := by omega
        rw [hzero, offsetAt_zero, zero_smul]
      · -- all of the row has got strides
        have htwo : ni = 2 := by
          have hlong : ni ≤ 2 := hni
          have hnotZero : ni ≠ 0 := fun h => hone (hones _ (by simp [h]))
          have hnotOne : ni ≠ 1 := fun h => hone (hones _ (by simp [h]))
          omega
        subst htwo
        obtain ⟨s₀, s₁, rfl⟩ := List.length_eq_two.mp hlength
        have hwalk := sameElements_iff.mp hview
        have hrow : k < volume [(1, s₀), (volume axes, s₁)] := by simpa using hk
        have hoffset := hwalk.offset_eq k hrow
        rw [← offsetAt_squeeze axes hk]
        refine hoffset.symm.trans ?_
        show offsetAt [(1, s₀), (volume axes, s₁)] k = k • s₁
        simp [offsetAt_cons, Nat.div_eq_of_lt hk, Nat.mod_eq_of_lt hk]

/-! ## Dense strides -/

variable {shape : List Nat} {k : Nat}

/-- Running strides step through the elements in the order of their group. -/
theorem elementOffset_groupStrides (isFOrder : Bool) (hk : k < shape.prod) :
    elementOffset isFOrder (shape.zip (groupStrides isFOrder shape 1)) k = k := by
  by_cases hne : shape = []
  · subst hne
    have hzero : k = 0 := by simpa using hk
    subst hzero
    cases isFOrder <;> rfl
  have hrow : SameElements isFOrder (shape.zip (groupStrides isFOrder shape 1))
      [(shape.prod, 1)] := by
    have hsingle : orient isFOrder [(shape.prod, (1 : Int))] = [] ++ [(shape.prod, 1)] := by
      cases isFOrder <;> rfl
    exact @sameElements_group isFOrder _ _ (shape.prod, 1) [] hsingle (List.isChain_singleton _) hne
      (by simp)
  have hvolume : volume (shape.zip (groupStrides isFOrder shape 1)) = shape.prod := by
    rw [volume, dims, List.map_fst_zip (by simp)]
  rw [hrow.2 k (by rwa [hvolume]), elementOffset_eq _ _ (by simpa using hk)]
  cases isFOrder <;> simp [orient, offsetAt_cons]

/-- The elements of a vector with strides of one lie one after the other. -/
theorem elementOffset_vector (isFOrder : Bool) (hvector : isVectorShape shape)
    (hk : k < shape.prod) : elementOffset isFOrder (shape.zip (shape.map fun _ => 1)) k = k := by
  have hkind : shape = [1] ∨ ∃ d, shape = [1, d] ∨ shape = [d, 1] := by
    match shape, hvector with
    | [d], h =>
        left
        simpa [isVectorShape] using h
    | [d, e], h =>
        right
        have hone : d = 1 ∨ e = 1 := by simpa [isVectorShape] using h
        rcases hone with rfl | rfl
        · exact ⟨e, Or.inl rfl⟩
        · exact ⟨d, Or.inr rfl⟩
  rcases hkind with rfl | ⟨d, hshape⟩
  · have hzero : k = 0 := by simpa using hk
    subst hzero
    cases isFOrder <;> rfl
  · rcases hshape with rfl | rfl
    all_goals
      rw [elementOffset_eq _ _ (by simpa [volume, dims] using hk)]
      simp only [List.prod_cons, List.prod_nil, mul_one, one_mul] at hk
      cases isFOrder <;>
        simp [orient, offsetAt_cons, Nat.div_eq_of_lt hk, Nat.mod_eq_of_lt hk, Nat.mod_one]

/-- The elements of a fresh array in C order lie one after the other. -/
theorem elementOffset_calcStrides (hk : k < shape.prod) :
    elementOffset false (shape.zip (calcStrides shape)) k = k := by
  rw [calcStrides]
  split
  · rename_i hvector
    exact elementOffset_vector false hvector hk
  · exact elementOffset_groupStrides false hk

/-- The elements of a fresh array in F order lie one after the other. -/
theorem elementOffset_calcStridesFortran (hk : k < shape.prod) :
    elementOffset true (shape.zip (calcStridesFortran shape)) k = k := by
  rw [calcStridesFortran]
  split
  · rename_i hvector
    exact elementOffset_vector true hvector hk
  · exact elementOffset_groupStrides true hk

/-! ## Honest slots -/

/-- The element-wise stride of a vector with strides of one is one. -/
theorem computeElementWiseStride_vector (hvector : isVectorShape shape) :
    computeElementWiseStride (shape.zip (shape.map fun _ => 1)) false = some 1 := by
  have hdims : dims (shape.zip (shape.map fun _ => (1 : Int))) = shape :=
    List.map_fst_zip (by simp)
  have hsnd : (shape.zip (shape.map fun _ => (1 : Int))).map Prod.snd = shape.map fun _ => 1 :=
    List.map_snd_zip (by simp)
  have hlast : (shape.map fun _ => (1 : Int)).getLastD 0 = 1 := by
    rcases List.eq_nil_or_concat shape with rfl | ⟨front, d, rfl⟩
    · cases hvector
    · simp
  rw [computeElementWiseStride, hdims, hsnd, if_pos hvector, hlast]

theorem honestEws_shapeBuffer (hpos : ∀ d ∈ shape, 0 < d) : (shapeBuffer shape).HonestEws := by
  intro hews k hk
  rw [ShapeInfo.length, shape_shapeBuffer] at hk
  have hdense := elementOffset_calcStrides hk
  have horder : (shapeBuffer shape).isFOrder = false := rfl
  rw [horder, axes_shapeBuffer, hdense]
  have hslot : (shapeBuffer shape).elementWiseStride =
      (computeElementWiseStride (shape.zip (calcStrides shape)) false).getD 0 := rfl
  rw [hslot] at hews ⊢
  have hdims : dims (shape.zip (calcStrides shape)) = shape := List.map_fst_zip (by simp)
  cases hvector : isVectorShape shape with
  | true => rw [calcStrides, if_pos hvector, computeElementWiseStride_vector hvector]; simp
  | false =>
      have haxes : ∀ a ∈ shape.zip (calcStrides shape), 0 < a.1 :=
        fun a ha => hpos a.1 (List.of_mem_zip ha).1
      obtain ⟨e, he, hlinear⟩ := computeElementWiseStride_linear haxes (by rwa [hdims])
      rw [he, Option.getD_some] at hews ⊢
      have hlinear := hlinear.resolve_left (by omega)
      have hstep := hlinear k (by rwa [volume, hdims])
      rw [elementOffset_eq _ _ (by rwa [volume, hdims])] at hdense
      rw [← nsmul_eq_mul, ← hstep, ← hdense]
      rfl

/-- A walk through one cell after the other that is also linear in the other order has
steps of one. -/
theorem linear_one {axes : List (Nat × Int)} (hpos : ∀ a ∈ axes, 0 < a.1) {e : Int} (he : 1 ≤ e)
    (hlinear : Linear axes e) (hdense : ∀ k < volume axes, elementOffset true axes k = k)
    (hlong : 1 < volume axes) : e = 1 := by
  -- the element in the cell one has an index in C order
  have hbox : InBox (dims axes) (decodeF (dims axes) 1) :=
    (bijOn_decodeF (fun d hd => by
      obtain ⟨a, ha, rfl⟩ := List.mem_map.mp hd
      exact hpos a ha)).mapsTo hlong
  have hone := hdense 1 hlong
  rw [elementOffset, if_pos rfl, ← decode_encode hbox, ← offsetAt_eq_dot,
    hlinear _ (encode_lt hbox), nsmul_eq_mul] at hone
  exact Int.eq_one_of_mul_eq_one_left (by omega) hone

theorem honestEws_shapeBufferFortran (hpos : ∀ d ∈ shape, 0 < d) :
    (shapeBufferFortran shape).HonestEws := by
  intro hews k hk
  rw [ShapeInfo.length, shape_shapeBufferFortran] at hk
  have hdense := elementOffset_calcStridesFortran hk
  have horder : (shapeBufferFortran shape).isFOrder = true := rfl
  rw [horder, axes_shapeBufferFortran, hdense]
  have hslot : (shapeBufferFortran shape).elementWiseStride =
      (computeElementWiseStride (shape.zip (calcStridesFortran shape)) false).getD 0 := rfl
  rw [hslot] at hews ⊢
  have hdims : dims (shape.zip (calcStridesFortran shape)) = shape := List.map_fst_zip (by simp)
  cases hvector : isVectorShape shape with
  | true => rw [calcStridesFortran, if_pos hvector, computeElementWiseStride_vector hvector]; simp
  | false =>
      have haxes : ∀ a ∈ shape.zip (calcStridesFortran shape), 0 < a.1 :=
        fun a ha => hpos a.1 (List.of_mem_zip ha).1
      have hvolume : volume (shape.zip (calcStridesFortran shape)) = shape.prod := by
        rw [volume, hdims]
      obtain ⟨e, he, hlinear⟩ := computeElementWiseStride_linear haxes (by rwa [hdims])
      rw [he, Option.getD_some] at hews ⊢
      have hlinear := hlinear.resolve_left (by omega)
      by_cases hlong : 1 < shape.prod
      · have hone := linear_one haxes hews hlinear
          (fun j hj => elementOffset_calcStridesFortran (hvolume ▸ hj)) (hvolume.symm ▸ hlong)
        rw [hone, mul_one]
      · have hzero : k = 0 := by omega
        rw [hzero, Nat.cast_zero, zero_mul]

end Shape
end LibND4J
