import LibND4J.Arrays.Cells
import LibND4J.Library.Translates

/-!
# Copying tensors out of an array

`pullRowsGeneric` copies listed tensors of one array to the tensors of another, and
`tearGeneric` copies each tensor to an array of its own.  If both sides have a positive
element-wise stride they are walked side by side in memory, otherwise through decoded coordinates.

Main results:

- Theorem `pathsAgree_iff`: the walk pairs equal coordinates exactly if it does not meet two
  different orders, or the tensors are lines.
- Theorem `copiesTensors_iff`: exactly then the copies are right, as long as the length and the
  offsets of the pulled rows fit their 32-bit variables.
- Theorem `not_copiesTensors_always`: a C-ordered and an F-ordered matrix.
-/

namespace LibND4J
namespace Arrays

open Loops Shape Stores Strided

/-- The cells of step `i` in `pullRowsGeneric`, of the source and of the target. -/
def pullCells (tadShapeInfo zTadShapeInfo : ShapeInfo) (xTadOffsetForBlock zTadOffsetForBlock : Int)
    (i : Nat) : Int × Int :=
  let xEWS := tadShapeInfo.elementWiseStride
  let zEWS := zTadShapeInfo.elementWiseStride
  if xEWS = 1 ∧ zEWS = 1 then
    (xTadOffsetForBlock + i, zTadOffsetForBlock + i)
  else if xEWS ≥ 1 ∧ zEWS ≥ 1 then
    (xTadOffsetForBlock + i * xEWS, zTadOffsetForBlock + i * zEWS)
  else
    let xCoord := ind2subC tadShapeInfo.shape i
    let zCoord := ind2subC zTadShapeInfo.shape i
    (getOffset xTadOffsetForBlock tadShapeInfo.shape tadShapeInfo.stride xCoord,
      getOffset zTadOffsetForBlock zTadShapeInfo.shape zTadShapeInfo.stride zCoord)

/-- The cells of step `j` in `tearGeneric`, of the source and of the target. -/
def tearCells (tadShapeInfo zShapeInfo : ShapeInfo) (j : Nat) : Int × Int :=
  let tadEWS := tadShapeInfo.elementWiseStride
  let zEWS := zShapeInfo.elementWiseStride
  if zEWS = 1 ∧ tadEWS = 1 then
    (j, j)
  else if zEWS > 0 ∧ tadEWS > 0 then
    (j * tadEWS, j * zEWS)
  else
    let xCoord := ind2sub tadShapeInfo.shape j
    let zCoord := ind2sub zShapeInfo.shape j
    (getOffset 0 tadShapeInfo.shape tadShapeInfo.stride xCoord,
      getOffset 0 zShapeInfo.shape zShapeInfo.stride zCoord)

section Definitions

variable {T : Type}

/-- `pullRowsGeneric`.  The offsets of the tensors are narrowed to `int`, as is the `tadLength` that
bounds the positions; `steps` are the rows and
positions in the order in which the threads come to them. -/
def pullRowsGeneric (x : Int → T) (indexes : Nat → Nat) (tadShapeInfo : ShapeInfo)
    (tadOffsets : List Int) (zTadShapeInfo : ShapeInfo) (zTadOffsets : List Int)
    (steps : List (Nat × Nat)) (z : Int → T) : Int → T :=
  let cells := fun (idx, i) =>
    pullCells tadShapeInfo zTadShapeInfo (toInt32 (tadOffsets.getD (indexes idx) 0))
      (toInt32 (zTadOffsets.getD idx 0)) i
  storeAll (fun step => (cells step).2) (fun step _ => x (cells step).1) steps z

/-- `tearGeneric`.  Each target is a buffer of its own. -/
def tearGeneric (x : Int → T) (xLength : Nat) (tadShapeInfo : ShapeInfo) (tadOffsets : List Int)
    (zShapeInfo : ShapeInfo) (targets : Nat → Int → T) : Nat → Int → T :=
  fun i =>
    if i < xLength / tadShapeInfo.length then
      storeAll (fun j => (tearCells tadShapeInfo zShapeInfo j).2)
        (fun j _ => x (tadOffsets.getD i 0 + (tearCells tadShapeInfo zShapeInfo j).1))
        (List.range tadShapeInfo.length) (targets i)
    else
      targets i

end Definitions

/-! ## The two paths -/

section Paths

variable {x z : ShapeInfo}

/-- Both sides are walked by their element-wise strides. -/
def WalksByStride (x z : ShapeInfo) : Prop :=
  x.elementWiseStride ≥ 1 ∧ z.elementWiseStride ≥ 1

instance (x z : ShapeInfo) : Decidable (WalksByStride x z) :=
  inferInstanceAs (Decidable (_ ∧ _))

/-- The order in which a side is walked; the coordinate paths decode with one order. -/
def pathOrder (x z : ShapeInfo) (decodesF : Bool) (side : ShapeInfo) : Bool :=
  if WalksByStride x z then side.isFOrder else decodesF

/-- A walk by element-wise strides follows the own order of each side. -/
theorem mul_eq_dot {side : ShapeInfo} (hews : side.HonestEws) (hslot : side.elementWiseStride ≥ 1)
    {i : Nat} (hi : i < side.length) :
    i * side.elementWiseStride = dot (coordinateOf side.isFOrder side.shape i) side.stride := by
  rw [← elementOffset_eq_dot, ← hews hslot i hi]

theorem pullCells_eq (hx : x.Positive) (hz : z.Positive) (hxews : x.HonestEws)
    (hzews : z.HonestEws) (hlength : z.length = x.length) {i : Nat} (hi : i < x.length)
    (xOffset zOffset : Int) :
    pullCells x z xOffset zOffset i =
      (xOffset + dot (coordinateOf (pathOrder x z false x) x.shape i) x.stride,
        zOffset + dot (coordinateOf (pathOrder x z false z) z.shape i) z.stride) := by
  have hi' : i < z.length := hlength ▸ hi
  by_cases hwalks : WalksByStride x z
  · rw [pathOrder, pathOrder, if_pos hwalks, if_pos hwalks, ← mul_eq_dot hxews hwalks.1 hi,
      ← mul_eq_dot hzews hwalks.2 hi']
    simp only [pullCells]
    split
    · next hone => rw [hone.1, hone.2, mul_one]
    · exact if_pos hwalks
  · have hnotOne : ¬ (x.elementWiseStride = 1 ∧ z.elementWiseStride = 1) := fun hone =>
      hwalks ⟨hone.1.ge, hone.2.ge⟩
    rw [pathOrder, pathOrder, if_neg hwalks, if_neg hwalks, ← elementOffset_eq_dot,
      ← elementOffset_eq_dot, elementOffset_eq_ite _ _ (by rwa [x.volume_axes]),
      elementOffset_eq_ite _ _ (by rwa [z.volume_axes])]
    simp only [pullCells]
    rw [if_neg hnotOne]
    refine (if_neg hwalks).trans ?_
    rw [getOffset_ind2subC hx hi, getOffset_ind2subC hz hi']
    rfl

theorem tearCells_eq (hx : x.Positive) (hz : z.Positive) (hxews : x.HonestEws)
    (hzews : z.HonestEws) (hlength : z.length = x.length) {j : Nat} (hj : j < x.length) :
    tearCells x z j =
      (dot (coordinateOf (pathOrder x z true x) x.shape j) x.stride,
        dot (coordinateOf (pathOrder x z true z) z.shape j) z.stride) := by
  have hj' : j < z.length := hlength ▸ hj
  by_cases hwalks : WalksByStride x z
  · rw [pathOrder, pathOrder, if_pos hwalks, if_pos hwalks, ← mul_eq_dot hxews hwalks.1 hj,
      ← mul_eq_dot hzews hwalks.2 hj']
    simp only [tearCells]
    split
    · next hone => rw [hone.1, hone.2, mul_one]
    · rw [if_pos ⟨hwalks.2, hwalks.1⟩]
  · have hnotOne : ¬ (z.elementWiseStride = 1 ∧ x.elementWiseStride = 1) := fun hone =>
      hwalks ⟨hone.2.ge, hone.1.ge⟩
    have hnotBoth : ¬ (z.elementWiseStride > 0 ∧ x.elementWiseStride > 0) := fun hboth =>
      hwalks ⟨hboth.2, hboth.1⟩
    rw [pathOrder, pathOrder, if_neg hwalks, if_neg hwalks, ← elementOffset_eq_dot,
      ← elementOffset_eq_dot]
    simp only [tearCells]
    rw [if_neg hnotOne, if_neg hnotBoth, getOffset_ind2sub_eq hx hj, getOffset_ind2sub_eq hz hj',
      zero_add, zero_add]

/-- The two sides are walked in one order, or the order does not matter. -/
def PathsAgree (x z : ShapeInfo) : Prop :=
  ¬ WalksByStride x z ∨ x.isFOrder = z.isFOrder ∨ IsLine x.shape

instance (x z : ShapeInfo) : Decidable (PathsAgree x z) :=
  inferInstanceAs (Decidable (_ ∨ _))

/-- The steps pair equal coordinates exactly if the paths agree. -/
theorem pathsAgree_iff (hx : x.Positive) (hshape : z.shape = x.shape) (hxews : x.HonestEws)
    (decodesF : Bool) :
    (∀ i < x.length, dot (coordinateOf (pathOrder x z decodesF x) x.shape i) x.stride =
        dot (coordinateOf (pathOrder x z decodesF z) z.shape i) x.stride) ↔ PathsAgree x z := by
  rw [hshape]
  by_cases hwalks : WalksByStride x z
  · have hcells := cellsApart_of_honest hxews hwalks.1
    have hmaps : ∀ o, ∀ i < x.length, InBox x.shape (coordinateOf o x.shape i) := fun o i hi =>
      (bijOn_coordinateOf o hx).mapsTo hi
    have hiff : (∀ i < x.length, dot (coordinateOf (pathOrder x z decodesF x) x.shape i) x.stride =
        dot (coordinateOf (pathOrder x z decodesF z) x.shape i) x.stride) ↔
        ∀ i < x.length, coordinateOf x.isFOrder x.shape i = coordinateOf z.isFOrder x.shape i := by
      rw [pathOrder, pathOrder, if_pos hwalks, if_pos hwalks]
      exact forall₂_congr fun i hi =>
        ⟨hcells _ _ (hmaps _ i hi) (hmaps _ i hi), fun heq => by rw [heq]⟩
    rw [hiff, PathsAgree, ← forall_coordinateOf_iff hx]
    simp only [hwalks, not_true_eq_false, false_or]
    cases x.isFOrder <;> cases z.isFOrder <;> simp [ShapeInfo.length, eq_comm]
  · rw [pathOrder, pathOrder, if_neg hwalks, if_neg hwalks]
    exact iff_of_true (fun _ _ => rfl) (Or.inl hwalks)

end Paths

/-! ## The copies -/

section Copies

variable {x z : ShapeInfo} {tadOffsets zTadOffsets : List Int} {n : Nat}

/-- `pullRowsGeneric` makes every row of the target equal to the listed row of the source, for
all contents, lists and schedules. -/
def PullsRows (x z : ShapeInfo) (tadOffsets zTadOffsets : List Int) (n : Nat) : Prop :=
  ∀ (T : Type) (xs zs : Int → T) (indexes : Nat → Nat) (steps : List (Nat × Nat)),
    (∀ idx < n, indexes idx < tadOffsets.length) →
    steps.Perm (List.range n ×ˢ List.range (intLength x)) →
    ∀ idx < n, ∀ c, InBox x.shape c →
      pullRowsGeneric xs indexes x tadOffsets z zTadOffsets steps zs
        (tensorCell z zTadOffsets idx c) = xs (tensorCell x tadOffsets (indexes idx) c)

/-- `tearGeneric` makes every target equal to the tensor of its number. -/
def TearsTensors (xLength : Nat) (x z : ShapeInfo) (tadOffsets : List Int) : Prop :=
  ∀ (T : Type) (xs : Int → T) (targets : Nat → Int → T),
    ∀ i < xLength / x.length, ∀ c, InBox x.shape c →
      tearGeneric xs xLength x tadOffsets z targets i (dot c z.stride) =
        xs (tensorCell x tadOffsets i c)

/-- The first offsets fit their 32-bit variables. -/
def OffsetsFit (offsets : List Int) (n : Nat) : Prop :=
  ∀ r < n, toInt32 (offsets.getD r 0) = offsets.getD r 0

instance (offsets : List Int) (n : Nat) : Decidable (OffsetsFit offsets n) :=
  inferInstanceAs (Decidable (∀ r < n, _))

theorem toInt32_bounds (k : Int) : -2 ^ 31 ≤ toInt32 k ∧ toInt32 k < 2 ^ 31 := by
  simp only [toInt32, Int.bmod]
  omega

/-- Tensors that lie in the tensors with narrowed offsets have offsets that fit: the largest and
the smallest cell do not move inwards. -/
theorem offsetsFit_of_subset {offsets : List Int} (cells : List Int) (hne : cells ≠ [])
    (hsub : ∀ r < n, ∀ v ∈ cells, ∃ r' < n, ∃ w ∈ cells,
      toInt32 (offsets.getD r' 0) + w = offsets.getD r 0 + v) : OffsetsFit offsets n := by
  have hnonempty := (List.toFinset_nonempty_iff cells).mpr hne
  obtain ⟨big, hbig, hle⟩ := cells.toFinset.exists_max_image id hnonempty
  obtain ⟨small, hsmall, hge⟩ := cells.toFinset.exists_min_image id hnonempty
  simp only [List.mem_toFinset, id] at hbig hle hsmall hge
  intro r hr
  have hrange : (Finset.range n).Nonempty := ⟨r, Finset.mem_range.mpr hr⟩
  obtain ⟨high, hhigh, hmax⟩ := (Finset.range n).exists_max_image (fun r => offsets.getD r 0) hrange
  obtain ⟨low, hlow, hmin⟩ := (Finset.range n).exists_min_image (fun r => offsets.getD r 0) hrange
  obtain ⟨r1, -, w1, hw1, heq1⟩ := hsub high (Finset.mem_range.mp hhigh) big hbig
  obtain ⟨r2, -, w2, hw2, heq2⟩ := hsub low (Finset.mem_range.mp hlow) small hsmall
  have h1 := toInt32_bounds (offsets.getD r1 0)
  have h2 := toInt32_bounds (offsets.getD r2 0)
  have h3 := hle w1 hw1
  have h4 := hge w2 hw2
  have h5 := hmax r (Finset.mem_range.mpr hr)
  have h6 := hmin r (Finset.mem_range.mpr hr)
  simp only [toInt32, Int.bmod] at *
  omega

/-- A step that writes the cell of a coordinate is the step of this coordinate. -/
theorem step_of_cell (hx : x.Positive) (hshape : z.shape = x.shape)
    (hapart : TensorsApart z zTadOffsets n) (isFOrder : Bool) {idx idx' i i' : Nat} (hidx : idx < n)
    (hidx' : idx' < n) (hi : i < x.length) (hi' : i' < x.length)
    (heq : tensorCell z zTadOffsets idx' (coordinateOf isFOrder z.shape i') =
      tensorCell z zTadOffsets idx (coordinateOf isFOrder z.shape i)) : idx' = idx ∧ i' = i := by
  have hbij := bijOn_coordinateOf isFOrder hx
  rw [← hshape] at hbij
  have hi : i < z.shape.prod := by rwa [hshape]
  have hi' : i' < z.shape.prod := by rwa [hshape]
  have hc := hbij.mapsTo hi
  have hc' := hbij.mapsTo hi'
  obtain ⟨hrow, hcoordinate⟩ := hapart idx' idx _ _ hidx' hidx hc' hc heq
  exact ⟨hrow, hbij.injOn hi' hi hcoordinate⟩

/-- If every element of every row has a step of its own, the steps of a row are as many. -/
theorem le_of_steps {a b : Nat} {row position : Nat → Nat → Nat} (hn : 0 < n)
    (hsteps : ∀ idx < n, ∀ i < a, row idx i < n ∧ position idx i < b)
    (hinj : ∀ idx < n, ∀ i < a, ∀ idx' < n, ∀ i' < a, row idx i = row idx' i' →
      position idx i = position idx' i' → idx = idx' ∧ i = i') : a ≤ b := by
  refine Nat.le_of_mul_le_mul_left ?_ hn
  have hcard := Finset.card_le_card_of_injOn (s := Finset.range n ×ˢ Finset.range a)
    (t := Finset.range n ×ˢ Finset.range b) (fun q => (row q.1 q.2, position q.1 q.2)) ?_ ?_
  · simpa using hcard
  · rintro ⟨idx, i⟩ hq
    simp only [Finset.coe_product, Set.mem_prod, Finset.mem_coe, Finset.mem_range] at hq ⊢
    exact hsteps idx hq.1 i hq.2
  · rintro ⟨idx, i⟩ hq ⟨idx', i'⟩ hq' heq
    simp only [Finset.coe_product, Set.mem_prod, Finset.mem_coe, Finset.mem_range] at hq hq'
    rw [Prod.mk.injEq] at heq
    obtain ⟨hidx, hi⟩ := hinj idx hq.1 i hq.2 idx' hq'.1 i' hq'.2 heq.1 heq.2
    rw [hidx, hi]

/-- A tensor that is read at a narrowed offset in place of its own is read at its own. -/
theorem offset_eq_of_pairs (hx : x.Positive) {offset offset' : Int} {o o' : Bool}
    (h : ∀ i < x.length, offset' + dot (coordinateOf o x.shape i) x.stride =
      offset + dot (coordinateOf o' x.shape i) x.stride) : offset' = offset := by
  have hne :
      (List.range x.length).map (fun i => dot (coordinateOf o' x.shape i) x.stride) ≠ [] := by
    rw [ne_eq, List.map_eq_nil_iff, List.range_eq_nil]
    exact hx.length_pos.ne'
  refine sub_eq_zero.mp (Translates.eq_zero_of_subset_translate hne fun v hv => ?_)
  obtain ⟨i, hi, rfl⟩ := List.mem_map.mp hv
  have hi := List.mem_range.mp hi
  obtain ⟨k, hk, heq⟩ := (bijOn_coordinateOf o' hx).surjOn ((bijOn_coordinateOf o hx).mapsTo hi)
  refine List.mem_map.mpr ⟨_, List.mem_map.mpr ⟨k, List.mem_range.mpr hk, rfl⟩, ?_⟩
  rw [heq]
  have hpair := h i hi
  linarith

theorem pullsRows_iff (hx : x.Positive) (hshape : z.shape = x.shape) (hxews : x.HonestEws)
    (hzews : z.HonestEws) (hapart : TensorsApart z zTadOffsets n) :
    PullsRows x z tadOffsets zTadOffsets n ↔ n = 0 ∨ tadOffsets = [] ∨
      (x.length < 2 ^ 31 ∧ OffsetsFit zTadOffsets n ∧ OffsetsFit tadOffsets tadOffsets.length ∧
        PathsAgree x z) := by
  have hz : z.Positive := by rwa [ShapeInfo.Positive, hshape]
  have hlength : z.length = x.length := congrArg List.prod hshape
  have hzbij := bijOn_coordinateOf (pathOrder x z false z) hz
  constructor
  · intro h
    by_cases hn : n = 0
    · exact Or.inl hn
    by_cases hnil : tadOffsets = []
    · exact Or.inr (Or.inl hnil)
    have hstep : ∀ r < tadOffsets.length, ∀ idx < n, ∀ i < x.length, ∃ idx' < n,
        ∃ i' < intLength x,
        toInt32 (zTadOffsets.getD idx' 0) +
            dot (coordinateOf (pathOrder x z false z) z.shape i') z.stride =
          tensorCell z zTadOffsets idx (coordinateOf (pathOrder x z false z) z.shape i) ∧
        toInt32 (tadOffsets.getD r 0) +
            dot (coordinateOf (pathOrder x z false x) x.shape i') x.stride =
          tensorCell x tadOffsets r (coordinateOf (pathOrder x z false z) z.shape i) := by
      intro r hr idx hidx i hi
      have hc : InBox x.shape (coordinateOf (pathOrder x z false z) z.shape i) :=
        hshape ▸ hzbij.mapsTo (show i < z.shape.prod by rwa [hshape])
      obtain ⟨⟨idx', i'⟩, hmem, hcell, hsource⟩ := exists_of_copies fun xs zs =>
        h Bool xs zs (fun _ => r) _ (fun _ _ => hr) (List.Perm.refl _) idx hidx _ hc
      obtain ⟨hidx', hi'⟩ := List.pair_mem_product.mp hmem
      have hi' := List.mem_range.mp hi'
      change (pullCells x z _ _ i').2 = _ at hcell
      change (pullCells x z _ _ i').1 = _ at hsource
      rw [pullCells_eq hx hz hxews hzews hlength (hi'.trans_le (intLength_le x))] at hcell hsource
      exact ⟨idx', List.mem_range.mp hidx', i', hi', hcell, hsource⟩
    have hzero : 0 < tadOffsets.length := List.length_pos_iff.mpr hnil
    have hfits : x.length < 2 ^ 31 := by
      choose! row hrow position hposition hcell _ using hstep 0 hzero
      refine (le_intLength_iff x).mp (le_of_steps (Nat.pos_of_ne_zero hn)
        (fun idx hidx i hi => ⟨hrow idx hidx i hi, hposition idx hidx i hi⟩) ?_)
      intro idx hidx i hi idx' hidx' i' hi' heq hpos
      have h1 := hcell idx hidx i hi
      rw [heq, hpos, hcell idx' hidx' i' hi'] at h1
      exact step_of_cell hx hshape hapart _ hidx' hidx hi' hi h1.symm
    have hshort : intLength x = x.length :=
      le_antisymm (intLength_le x) ((le_intLength_iff x).mpr hfits)
    rw [hshort] at hstep
    have hzfit : OffsetsFit zTadOffsets n := by
      refine offsetsFit_of_subset ((List.range x.length).map fun i =>
        dot (coordinateOf (pathOrder x z false z) z.shape i) z.stride) ?_ fun idx hidx v hv => ?_
      · rw [ne_eq, List.map_eq_nil_iff, List.range_eq_nil]
        exact hx.length_pos.ne'
      · obtain ⟨i, hi, rfl⟩ := List.mem_map.mp hv
        obtain ⟨idx', hidx', i', hi', hcell, -⟩ := hstep 0 hzero idx hidx i (List.mem_range.mp hi)
        exact ⟨idx', hidx', _, List.mem_map.mpr ⟨i', List.mem_range.mpr hi', rfl⟩, hcell⟩
    have hpair : ∀ r < tadOffsets.length, ∀ i < x.length,
        toInt32 (tadOffsets.getD r 0) +
            dot (coordinateOf (pathOrder x z false x) x.shape i) x.stride =
          tadOffsets.getD r 0 + dot (coordinateOf (pathOrder x z false z) x.shape i) x.stride := by
      intro r hr i hi
      obtain ⟨idx', hidx', i', hi', hcell, hsource⟩ := hstep r hr 0 (Nat.pos_of_ne_zero hn) i hi
      rw [hzfit idx' hidx'] at hcell
      obtain ⟨-, rfl⟩ := step_of_cell hx hshape hapart _ (Nat.pos_of_ne_zero hn) hidx' hi hi' hcell
      rw [hsource, tensorCell, hshape]
    have hxfit : OffsetsFit tadOffsets tadOffsets.length := fun r hr =>
      offset_eq_of_pairs hx (hpair r hr)
    refine Or.inr (Or.inr ⟨hfits, hzfit, hxfit,
      (pathsAgree_iff hx hshape hxews false).mp fun i hi => ?_⟩)
    have heq := hpair 0 hzero i hi
    rw [hxfit 0 hzero] at heq
    rw [hshape]
    exact add_left_cancel heq
  · rintro h T xs zs indexes steps hindexes hsteps idx hidx c hc
    rcases h with rfl | rfl | ⟨hfits, hzfit, hxfit, hagree⟩
    · omega
    · exact absurd (hindexes idx hidx) (Nat.not_lt_zero _)
    · have hpaths := (pathsAgree_iff hx hshape hxews false).mpr hagree
      rw [le_antisymm (intLength_le x) ((le_intLength_iff x).mpr hfits)] at hsteps
      obtain ⟨i, hi, rfl⟩ := hzbij.surjOn (show InBox z.shape c by rwa [hshape])
      have hi : i < x.length := hlength ▸ hi
      have hmem : ∀ {idx i}, (idx, i) ∈ steps ↔ idx < n ∧ i < x.length := by
        intro idx i
        rw [hsteps.mem_iff, ← List.mem_range, ← List.mem_range]
        exact List.pair_mem_product
      refine storeAll_of_agree ⟨(idx, i), hmem.mpr ⟨hidx, hi⟩, ?_⟩ ?_ zs
      · show (pullCells _ _ _ _ _).2 = _
        rw [pullCells_eq hx hz hxews hzews hlength hi, hzfit idx hidx]
        rfl
      · rintro ⟨idx', i'⟩ hstep hcell memory
        obtain ⟨hidx', hi'⟩ := hmem.mp hstep
        show xs (pullCells _ _ _ _ _).1 = _
        change (pullCells _ _ _ _ _).2 = _ at hcell
        rw [pullCells_eq hx hz hxews hzews hlength hi'] at hcell ⊢
        rw [hzfit idx' hidx'] at hcell
        obtain ⟨rfl, rfl⟩ := step_of_cell hx hshape hapart _ hidx hidx' hi hi' hcell
        rw [hxfit _ (hindexes idx' hidx'), hpaths i' hi']
        rfl

theorem tearsTensors_iff (hx : x.Positive) (hshape : z.shape = x.shape) (hxews : x.HonestEws)
    (hzews : z.HonestEws) (hcells : CellsApart z) (xLength : Nat) :
    TearsTensors xLength x z tadOffsets ↔ xLength / x.length = 0 ∨ PathsAgree x z := by
  have hz : z.Positive := by rwa [ShapeInfo.Positive, hshape]
  have hlength : z.length = x.length := congrArg List.prod hshape
  have hzbij := bijOn_coordinateOf (pathOrder x z true z) hz
  have hstep : ∀ {i i' : Nat}, i < x.length → i' < x.length →
      dot (coordinateOf (pathOrder x z true z) z.shape i') z.stride =
        dot (coordinateOf (pathOrder x z true z) z.shape i) z.stride → i' = i := by
    intro i i' hi hi' heq
    have hi : i < z.shape.prod := by rwa [hshape]
    have hi' : i' < z.shape.prod := by rwa [hshape]
    exact hzbij.injOn hi' hi (hcells _ _ (hzbij.mapsTo hi') (hzbij.mapsTo hi) heq)
  constructor
  · intro h
    by_cases hcount : xLength / x.length = 0
    · exact Or.inl hcount
    refine Or.inr ((pathsAgree_iff hx hshape hxews true).mp fun i hi => ?_)
    have hc : InBox x.shape (coordinateOf (pathOrder x z true z) z.shape i) :=
      hshape ▸ hzbij.mapsTo (show i < z.shape.prod by rwa [hshape])
    obtain ⟨i', hmem, hcell, hsource⟩ := exists_of_copies fun xs zs => by
      have hcopy := h Bool xs (fun _ => zs) 0 (Nat.pos_of_ne_zero hcount) _ hc
      rwa [tearGeneric, if_pos (Nat.pos_of_ne_zero hcount)] at hcopy
    have hi' := List.mem_range.mp hmem
    rw [tearCells_eq hx hz hxews hzews hlength hi'] at hcell hsource
    obtain rfl := hstep hi hi' hcell
    exact add_left_cancel hsource
  · rintro h T xs targets i hi c hc
    rcases h with hcount | hagree
    · omega
    · have hpaths := (pathsAgree_iff hx hshape hxews true).mpr hagree
      obtain ⟨j, hj, rfl⟩ := hzbij.surjOn (show InBox z.shape c by rwa [hshape])
      have hj : j < x.length := hlength ▸ hj
      rw [tearGeneric, if_pos hi]
      refine storeAll_of_agree ⟨j, List.mem_range.mpr hj, ?_⟩ ?_ _
      · rw [tearCells_eq hx hz hxews hzews hlength hj]
      · intro j' hj' hcell memory
        have hj' := List.mem_range.mp hj'
        rw [tearCells_eq hx hz hxews hzews hlength hj'] at hcell ⊢
        obtain rfl := hstep hj hj' hcell
        rw [hpaths j' hj']
        rfl

/-- Both functions copy coordinate by coordinate exactly if their paths agree and, when rows are
pulled, their length and the offsets fit. -/
theorem copiesTensors_iff (hx : x.Positive) (hshape : z.shape = x.shape) (hxews : x.HonestEws)
    (hzews : z.HonestEws) :
    (∀ tadOffsets zTadOffsets n, TensorsApart z zTadOffsets n →
      (PullsRows x z tadOffsets zTadOffsets n ↔ n = 0 ∨ tadOffsets = [] ∨
        (x.length < 2 ^ 31 ∧ OffsetsFit zTadOffsets n ∧ OffsetsFit tadOffsets tadOffsets.length ∧
          PathsAgree x z))) ∧
    ∀ tadOffsets xLength, CellsApart z →
      (TearsTensors xLength x z tadOffsets ↔ xLength / x.length = 0 ∨ PathsAgree x z) :=
  ⟨fun _ _ _ hapart => pullsRows_iff hx hshape hxews hzews hapart,
    fun _ xLength hcells => tearsTensors_iff hx hshape hxews hzews hcells xLength⟩

/-- A dense matrix of two rows in C and in F order. -/
def squareC : ShapeInfo :=
  ShapeInfo.ofAxes [(2, 2), (2, 1)] 0 1 'c'

def squareF : ShapeInfo :=
  ShapeInfo.ofAxes [(2, 1), (2, 2)] 0 1 'f'

theorem copiesTensors_iff_squares :
    (PullsRows squareC squareC [0, 4] [4, 0] 2 ↔ 2 = 0 ∨ [(0 : Int), 4] = [] ∨
      (squareC.length < 2 ^ 31 ∧ OffsetsFit [4, 0] 2 ∧ OffsetsFit [0, 4] 2 ∧
        PathsAgree squareC squareC)) ∧
    (TearsTensors 8 squareC squareF [0, 4] ↔ 8 / 4 = 0 ∨ PathsAgree squareC squareF) := by
  have hsame := (@copiesTensors_iff squareC squareC (by decide) rfl (by decide)
    (by decide)).1 [0, 4] [4, 0] 2 (tensorsApart_of_nodup (by decide) (by decide))
  have hother := (@copiesTensors_iff squareC squareF (by decide) rfl (by decide)
    (by decide)).2 [0, 4] 8 (cellsApart_of_nodup (by decide) (by decide))
  exact ⟨hsame, hother⟩

/-- A C-ordered matrix is copied to an F-ordered one cell by cell: the target is the transpose. -/
theorem not_copiesTensors_always :
    ¬ PullsRows squareC squareF [0] [0] 1 ∧ ¬ TearsTensors 4 squareC squareF [0] := by
  have hpos : squareC.Positive := by decide
  have hc : squareC.HonestEws := by decide
  have hf : squareF.HonestEws := by decide
  rw [@pullsRows_iff squareC squareF [0] [0] 1 hpos rfl hc hf
      (tensorsApart_of_nodup (by decide) (by decide)),
    @tearsTensors_iff squareC squareF [0] hpos rfl hc hf
      (cellsApart_of_nodup (by decide) (by decide))]
  decide

end Copies

end Arrays
end LibND4J
