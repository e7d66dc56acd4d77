import LibND4J.Arrays.Operations
import LibND4J.Library.Tiling

/-!
# Repeating an array in place

`tilei` fills a new buffer block by block: each block of the innermost axis is copied as often
as its count says, and one position walks the old buffer and starts again at its end.

Main results:

- Theorem `mem_tileBlocks_iff`: the copies of the loop.
- Theorem `tilei_spec`: what the new buffer holds where the steps are those of the innermost
  axis.
- Theorem `tilesRight_iff`: when the array is repeated.
- Theorem `not_tilesRight_always`: a column that is repeated along its second axis.
-/

namespace LibND4J
namespace Arrays

open Shape Strided

/-! ## The routine -/

/-- The values of a loop variable from zero on, in steps. -/
def loopBy (stop step : Nat) : List Nat :=
  (List.range ((stop + step - 1) / step)).map (· * step)

/-- The new extents: the last ones are multiplied, behind unities if there are more counts. -/
def tileShape (shape reps : List Nat) : List Nat :=
  if shape.length < reps.length then
    List.zipWith (· * ·) (List.replicate (reps.length - shape.length) 1 ++ shape) reps
  else
    shape.take (shape.length - reps.length) ++
      List.zipWith (· * ·) (shape.drop (shape.length - reps.length)) reps

/-- The steps of the loops. -/
structure TileSteps where
  stepNew : Nat
  stepOld : Nat
  numCopies : Nat
deriving DecidableEq

/-- The steps along the axis that varies fastest. -/
def tileSteps (order : Char) (shape reps : List Nat) : TileSteps :=
  if order = 'c' then
    { stepNew := (tileShape shape reps).getLastD 0
      stepOld := shape.getLastD 0
      numCopies := reps.getLastD 0 * shape.getLastD 0 }
  else
    { stepNew := (tileShape shape reps).headD 0
      stepOld := shape.headD 0
      numCopies :=
        if shape.length ≤ reps.length then reps.headD 0 * shape.headD 0 else shape.headD 0 }

/-- The copies of the blocks that start at the given cells, from cell to cell; `position` walks
the old buffer. -/
def tileBlocks (steps : TileSteps) (arrLengthOld : Nat) : List Nat → Nat → List (Nat × Nat)
  | [], _ => []
  | i :: starts, position =>
      ((loopBy steps.numCopies steps.stepOld).flatMap fun j =>
        (List.range steps.stepOld).map fun e => (i + j + e, position + e)) ++
      tileBlocks steps arrLengthOld starts
        (if position + steps.stepOld = arrLengthOld then 0 else position + steps.stepOld)

/-- `NDArray::tilei`; a copy behind the new buffer is undefined. -/
def tilei {T : Type} (run : Runtime T) (reps : List Nat) (array : NDArray T) :
    Except Failure (NDArray T) :=
  let shape := array.shapeInfo.shape
  if reps.prod = 0 then
    .error (.thrown "NDArray::tile method: one of the elements in reps array is zero !")
  else if reps.prod = 1 then
    if shape.length < reps.length then
      array.reshape run array.shapeInfo.order
        ((reps.take (reps.length - shape.length) ++ shape).map Nat.cast)
    else .ok array
  else
    let order := array.shapeInfo.order
    let newShape := tileShape shape reps
    let steps := tileSteps order shape reps
    let copies := tileBlocks steps shape.prod (loopBy newShape.prod steps.stepNew) 0
    if ∃ copy ∈ copies, newShape.prod ≤ copy.1 then .error .undefined
    else
      .ok ⟨updateStrides newShape order, Stores.storeAll (fun copy : Nat × Nat => (copy.1 : Int))
        (fun copy _ => array.buffer copy.2) copies run.fresh⟩

/-! ## What is asked for -/

/-- A list with unities before it. -/
def rightAligned (n : Nat) (l : List Nat) : List Nat :=
  List.replicate (n - l.length) 1 ++ l

/-- The axes with their counts, aligned on the right. -/
def tileAxes (shape reps : List Nat) : List (Nat × Nat) :=
  (rightAligned (max shape.length reps.length) shape).zip
    (rightAligned (max shape.length reps.length) reps)

/-- The last components of a coordinate modulo the extents. -/
def reduced (shape coords : List Nat) : List Nat :=
  List.zipWith (fun d c => c % d) shape (coords.drop (coords.length - shape.length))

/-- The array is repeated as often as the counts say. -/
structure Tiled {T : Type} (reps : List Nat) (array result : NDArray T) : Prop where
  shape : result.shapeInfo.shape = newDims (tileAxes array.shapeInfo.shape reps)
  element : ∀ c, InBox result.shapeInfo.shape c →
    result.element c = array.element (reduced array.shapeInfo.shape c)

/-- Whatever the buffer holds, the array is repeated. -/
def TilesRight (reps : List Nat) (info : ShapeInfo) : Prop :=
  ∀ {T : Type} (run : Runtime T) (buffer : Int → T),
    ∃ result, tilei run reps ⟨info, buffer⟩ = .ok result ∧ Tiled reps ⟨info, buffer⟩ result

/-- A list with what varies fastest at its end. -/
def walkOrder {α : Type} (isFOrder : Bool) (l : List α) : List α :=
  if isFOrder then l.reverse else l

/-- All counts are one, or the axes that are repeated, besides the one that varies fastest, have
only ones before them; and in F order no axes are added before an extent that is not one. -/
def TilesInOrder (reps : List Nat) (info : ShapeInfo) : Prop :=
  reps.prod = 1 ∨
    FirstRepeated (walkOrder (info.order = 'f') (tileAxes info.shape reps)).dropLast ∧
      (info.order = 'f' → info.shape.length < reps.length → info.shape.headD 0 = 1)

instance (reps : List Nat) (info : ShapeInfo) : Decidable (TilesInOrder reps info) :=
  inferInstanceAs (Decidable (_ ∨ _ ∧ _))

/-! ## The loop -/

section Loop

variable {steps : TileSteps} {nOld : Nat}

theorem loopBy_mul (n : Nat) {step : Nat} (hstep : 0 < step) :
    loopBy (n * step) step = (List.range n).map (· * step) := by
  have hcount : (n * step + step - 1) / step = n := by
    rw [Nat.add_sub_assoc hstep, Nat.add_comm, Nat.add_mul_div_right _ _ hstep,
      Nat.div_eq_of_lt (Nat.sub_lt hstep Nat.one_pos), Nat.zero_add]
  rw [loopBy, hcount]

/-- The position of the next block. -/
theorem position_succ (hOld : 0 < nOld) (hstep : 0 < steps.stepOld) (b : Nat) :
    (if b % nOld * steps.stepOld + steps.stepOld = nOld * steps.stepOld then 0
      else b % nOld * steps.stepOld + steps.stepOld) = (b + 1) % nOld * steps.stepOld := by
  have hlt := Nat.mod_lt b hOld
  have hadd : b % nOld * steps.stepOld + steps.stepOld = (b % nOld + 1) * steps.stepOld := by ring
  have hnext : (b + 1) % nOld = (b % nOld + 1) % nOld := (Nat.mod_add_mod b nOld 1).symm
  by_cases hend : b % nOld + 1 = nOld
  · rw [if_pos (by rw [hadd, hend]), hnext, hend, Nat.mod_self, Nat.zero_mul]
  · rw [if_neg (fun h => hend (Nat.eq_of_mul_eq_mul_right hstep (hadd ▸ h))), hnext, hadd,
      Nat.mod_eq_of_lt (Nat.lt_of_le_of_ne hlt hend)]

/-- The copies of the blocks: `b` counts them, and the old ones come round again. -/
theorem mem_tileBlocks_iff (hOld : 0 < nOld) (hstep : 0 < steps.stepOld) (n b : Nat)
    (copy : Nat × Nat) :
    copy ∈ tileBlocks steps (nOld * steps.stepOld) ((List.range' b n).map (· * steps.stepNew))
        (b % nOld * steps.stepOld) ↔
      ∃ b', (b ≤ b' ∧ b' < b + n) ∧ ∃ j ∈ loopBy steps.numCopies steps.stepOld,
        ∃ e < steps.stepOld,
          (b' * steps.stepNew + j + e, b' % nOld * steps.stepOld + e) = copy := by
  induction n generalizing b with
  | zero =>
      simp only [List.range'_zero, List.map_nil, tileBlocks, List.not_mem_nil, false_iff]
      rintro ⟨b', hb, -⟩
      omega
  | succ n ih =>
      rw [List.range'_succ, List.map_cons, tileBlocks, position_succ hOld hstep, List.mem_append,
        ih]
      simp only [List.mem_flatMap, List.mem_map, List.mem_range]
      constructor
      · rintro (⟨j, hj, e, he, rfl⟩ | ⟨b', hb, hrest⟩)
        · exact ⟨b, by omega, j, hj, e, he, rfl⟩
        · exact ⟨b', by omega, hrest⟩
      · rintro ⟨b', hb, j, hj, e, he, rfl⟩
        rcases Nat.eq_or_lt_of_le hb.1 with rfl | hlt
        · exact Or.inl ⟨j, hj, e, he, rfl⟩
        · exact Or.inr ⟨b', by omega, j, hj, e, he, rfl⟩

/-- The steps along the innermost axis. -/
def innerSteps (inner : Nat × Nat) : TileSteps :=
  ⟨inner.1 * inner.2, inner.1, inner.2 * inner.1⟩

variable {outer : List (Nat × Nat)} {inner : Nat × Nat} {nNew : Nat}

/-- The copies with the steps of the innermost axis: block, round, and element of the block. -/
theorem mem_innerBlocks_iff (houter : 0 < (oldDims outer).prod)
    (hinner : 0 < inner.1 ∧ 0 < inner.2) (copy : Nat × Nat) :
    copy ∈ tileBlocks (innerSteps inner) ((oldDims outer).prod * inner.1)
        (loopBy (nNew * (inner.1 * inner.2)) (inner.1 * inner.2)) 0 ↔
      ∃ b < nNew, ∃ i < inner.2, ∃ e < inner.1,
        (b * (inner.1 * inner.2) + i * inner.1 + e,
          b % (oldDims outer).prod * inner.1 + e) = copy := by
  have hall := @mem_tileBlocks_iff (innerSteps inner) _ houter hinner.1 nNew 0 copy
  rw [Nat.zero_mod, Nat.zero_mul, ← List.range_eq_range'] at hall
  rw [loopBy_mul nNew (Nat.mul_pos hinner.1 hinner.2)]
  refine hall.trans ?_
  simp only [innerSteps, loopBy_mul _ hinner.1, Nat.zero_le, true_and, Nat.zero_add, List.mem_map,
    List.mem_range]
  constructor
  · rintro ⟨b, hb, -, ⟨i, hi, rfl⟩, e, he, rfl⟩
    exact ⟨b, hb, i, hi, e, he, rfl⟩
  · rintro ⟨b, hb, i, hi, e, he, rfl⟩
    exact ⟨b, hb, _, ⟨i, hi, rfl⟩, e, he, rfl⟩

/-- A copy fills one cell of its block. -/
theorem cell_lt {i e : Nat} (hi : i < inner.2) (he : e < inner.1) :
    i * inner.1 + e < inner.1 * inner.2 :=
  calc i * inner.1 + e < i * inner.1 + inner.1 := Nat.add_lt_add_left he _
    _ = (i + 1) * inner.1 := by ring
    _ ≤ inner.2 * inner.1 := Nat.mul_le_mul_right _ hi
    _ = inner.1 * inner.2 := Nat.mul_comm _ _

/-- It reads the element that belongs to the cell. -/
theorem tileSource_cell (b : Nat) {i e : Nat} (hi : i < inner.2) (he : e < inner.1) :
    tileSource outer inner (b * (inner.1 * inner.2) + i * inner.1 + e) =
      b % (oldDims outer).prod * inner.1 + e := by
  have hlt := cell_lt hi he
  have hdiv : (b * (inner.1 * inner.2) + i * inner.1 + e) / (inner.1 * inner.2) = b := by
    rw [Nat.add_assoc, Nat.add_comm, Nat.add_mul_div_right _ _ (Nat.zero_lt_of_lt hlt),
      Nat.div_eq_of_lt hlt, Nat.zero_add]
  have hmod : (b * (inner.1 * inner.2) + i * inner.1 + e) % inner.1 = e := by
    have hfactor : b * (inner.1 * inner.2) + i * inner.1 + e = (b * inner.2 + i) * inner.1 + e := by
      ring
    rw [hfactor, Nat.mul_add_mod_of_lt he]
  rw [tileSource, hdiv, hmod]

/-- What the new buffer holds where the steps are those of the innermost axis. -/
theorem tilei_spec {T : Type} (run : Runtime T) {reps : List Nat} {info : ShapeInfo}
    (buffer : Int → T) (hreps : 1 < reps.prod) (hinner : 0 < inner.1 ∧ 0 < inner.2)
    (houter : 0 < (oldDims outer).prod)
    (hsteps : tileSteps info.order info.shape reps = innerSteps inner)
    (hold : info.shape.prod = (oldDims outer).prod * inner.1)
    (hnew : (tileShape info.shape reps).prod = nNew * (inner.1 * inner.2)) :
    ∃ buffer', tilei run reps ⟨info, buffer⟩ =
        .ok ⟨updateStrides (tileShape info.shape reps) info.order, buffer'⟩ ∧
      ∀ k < (tileShape info.shape reps).prod,
        buffer' k = buffer (tileSource outer inner k : Nat) := by
  have hblock : 0 < inner.1 * inner.2 := Nat.mul_pos hinner.1 hinner.2
  have hmem := @mem_innerBlocks_iff outer inner nNew houter hinner
  have hinside : ¬ ∃ copy ∈ tileBlocks (innerSteps inner) ((oldDims outer).prod * inner.1)
      (loopBy (nNew * (inner.1 * inner.2)) (inner.1 * inner.2)) 0,
        nNew * (inner.1 * inner.2) ≤ copy.1 := by
    rintro ⟨copy, hcopy, hlarge⟩
    obtain ⟨b, hb, i, hi, e, he, rfl⟩ := (hmem copy).mp hcopy
    have hlt := cell_lt hi he
    have hle : (b + 1) * (inner.1 * inner.2) ≤ nNew * (inner.1 * inner.2) :=
      Nat.mul_le_mul_right _ hb
    rw [Nat.add_mul, Nat.one_mul] at hle
    simp only at hlarge
    omega
  refine ⟨Stores.storeAll (fun copy : Nat × Nat => (copy.1 : Int)) (fun copy _ => buffer copy.2)
    (tileBlocks (innerSteps inner) ((oldDims outer).prod * inner.1)
      (loopBy (nNew * (inner.1 * inner.2)) (inner.1 * inner.2)) 0) run.fresh, ?_, fun k hk => ?_⟩
  · unfold tilei
    simp only [hsteps, hold, hnew]
    rw [if_neg (by omega), if_neg (by omega)]
    exact if_neg hinside
  · -- the cell is filled, and by copies of one element only
    have hb : k / (inner.1 * inner.2) < nNew := by
      rw [hnew] at hk
      exact Nat.div_lt_of_lt_mul (Nat.mul_comm _ _ ▸ hk)
    have hrest : k % (inner.1 * inner.2) / inner.1 < inner.2 :=
      Nat.div_lt_of_lt_mul (Nat.mod_lt _ hblock)
    have hcell : k / (inner.1 * inner.2) * (inner.1 * inner.2) +
        k % (inner.1 * inner.2) / inner.1 * inner.1 + k % (inner.1 * inner.2) % inner.1 = k := by
      rw [Nat.add_assoc, Nat.div_add_mod', Nat.div_add_mod']
    refine Stores.storeAll_of_agree ⟨_, (hmem _).mpr ⟨_, hb, _, hrest, _,
      Nat.mod_lt _ hinner.1, rfl⟩, congrArg Nat.cast hcell⟩ (fun copy hcopy hk' _ => ?_) _
    obtain ⟨b, -, i, hi, e, he, rfl⟩ := (hmem copy).mp hcopy
    rw [← Int.ofNat_inj.mp hk', tileSource_cell b hi he]

end Loop

/-! ## Alignment -/

section Alignment

variable {shape reps : List Nat} {n : Nat} {l c : List Nat}

theorem rightAligned_of_le (h : n ≤ l.length) : rightAligned n l = l := by
  rw [rightAligned, Nat.sub_eq_zero_of_le h, List.replicate_zero, List.nil_append]

theorem length_rightAligned (h : l.length ≤ n) : (rightAligned n l).length = n := by
  rw [rightAligned, List.length_append, List.length_replicate, Nat.sub_add_cancel h]

theorem oldDims_tileAxes (shape reps : List Nat) :
    oldDims (tileAxes shape reps) = rightAligned (max shape.length reps.length) shape := by
  refine List.map_fst_zip (le_of_eq ?_)
  rw [length_rightAligned (Nat.le_max_left _ _), length_rightAligned (Nat.le_max_right _ _)]

theorem counts_tileAxes (shape reps : List Nat) :
    (tileAxes shape reps).map Prod.snd = rightAligned (max shape.length reps.length) reps := by
  refine List.map_snd_zip (le_of_eq ?_)
  rw [length_rightAligned (Nat.le_max_left _ _), length_rightAligned (Nat.le_max_right _ _)]

theorem length_tileAxes (shape reps : List Nat) :
    (tileAxes shape reps).length = max shape.length reps.length := by
  rw [tileAxes, List.length_zip, length_rightAligned (Nat.le_max_left _ _),
    length_rightAligned (Nat.le_max_right _ _), Nat.min_self]

theorem newDims_tileAxes (shape reps : List Nat) :
    newDims (tileAxes shape reps) = List.zipWith (· * ·)
      (rightAligned (max shape.length reps.length) shape)
      (rightAligned (max shape.length reps.length) reps) := by
  rw [newDims, tileAxes, List.zip, List.map_zipWith]

theorem zipWith_mul_ones (l : List Nat) :
    List.zipWith (· * ·) l (List.replicate l.length 1) = l := by
  induction l with
  | nil => rfl
  | cons d l ih => rw [List.length_cons, List.replicate_succ, List.zipWith_cons_cons, ih, Nat.mul_one]

/-- The new extents are the products of extents and counts. -/
theorem tileShape_eq (shape reps : List Nat) :
    tileShape shape reps = newDims (tileAxes shape reps) := by
  rw [newDims_tileAxes, tileShape]
  split
  · rename_i hlt
    rw [Nat.max_eq_right (Nat.le_of_lt hlt), rightAligned_of_le (Nat.le_refl _), rightAligned]
  · rename_i hge
    have hle : reps.length ≤ shape.length := Nat.not_lt.mp hge
    have hlength : (shape.take (shape.length - reps.length)).length =
        shape.length - reps.length := by
      rw [List.length_take, Nat.min_eq_left (Nat.sub_le _ _)]
    have hones := zipWith_mul_ones (shape.take (shape.length - reps.length))
    rw [hlength] at hones
    have happend := @List.zipWith_append Nat Nat Nat (· * ·)
      (shape.take (shape.length - reps.length)) (shape.drop (shape.length - reps.length))
      (List.replicate (shape.length - reps.length) 1) reps (by rw [hlength, List.length_replicate])
    rw [List.take_append_drop, hones] at happend
    rw [Nat.max_eq_left hle, rightAligned_of_le (Nat.le_refl _), rightAligned, happend]

theorem pos_rightAligned (hpos : ∀ d ∈ l, 0 < d) : ∀ d ∈ rightAligned n l, 0 < d := by
  intro d hd
  rcases List.mem_append.mp hd with hone | hmem
  · rw [List.eq_of_mem_replicate hone]
    exact Nat.one_pos
  · exact hpos d hmem

theorem pos_tileAxes (hpos : ∀ d ∈ shape, 0 < d) (hreps : ∀ n ∈ reps, 0 < n) :
    ∀ a ∈ tileAxes shape reps, 0 < a.1 ∧ 0 < a.2 := by
  intro a ha
  obtain ⟨hd, hn⟩ := List.of_mem_zip ha
  exact ⟨pos_rightAligned hpos _ hd, pos_rightAligned hreps _ hn⟩

theorem prod_tileShape_pos (hpos : ∀ d ∈ shape, 0 < d) (hreps : ∀ n ∈ reps, 0 < n) :
    0 < (tileShape shape reps).prod := by
  rw [tileShape_eq]
  refine prod_pos_of_pos fun d hd => ?_
  obtain ⟨a, ha, rfl⟩ := List.mem_map.mp hd
  exact Nat.mul_pos (pos_tileAxes hpos hreps a ha).1 (pos_tileAxes hpos hreps a ha).2

theorem prod_rightAligned (n : Nat) (l : List Nat) : (rightAligned n l).prod = l.prod := by
  rw [rightAligned, List.prod_append, List.prod_replicate, Nat.one_pow, Nat.one_mul]

/-- A coordinate modulo the old extents, with zeros on the new axes. -/
theorem wrapped_tileAxes (hc : c.length = max shape.length reps.length) :
    wrapped (tileAxes shape reps) c =
      List.replicate (max shape.length reps.length - shape.length) 0 ++ reduced shape c := by
  set n := max shape.length reps.length - shape.length with hn
  have hfront : (c.take n).length = n := by
    rw [List.length_take, Nat.min_eq_left (by omega)]
  have hones := zipWith_mod_ones (c.take n)
  rw [hfront] at hones
  have happend := @List.zipWith_append Nat Nat Nat (fun d x => x % d) (List.replicate n 1) shape
    (c.take n) (c.drop n) (by rw [hfront, List.length_replicate])
  rw [List.take_append_drop, hones] at happend
  rw [wrapped_eq, oldDims_tileAxes, rightAligned, reduced, hc, ← hn, happend]

theorem inBox_reduced (hpos : ∀ d ∈ shape, 0 < d) (hc : shape.length ≤ c.length) :
    InBox shape (reduced shape c) :=
  inBox_mod hpos (by rw [List.length_drop]; omega)

theorem length_reduced (hc : shape.length ≤ c.length) :
    (reduced shape c).length = shape.length := by
  rw [reduced, List.length_zipWith, List.length_drop, Nat.min_eq_left (by omega)]

end Alignment

/-! ## Indices in the order of the array -/

section Indices

variable {T : Type} {isFOrder : Bool} {info : ShapeInfo} {shape reps : List Nat}

/-- The index of a coordinate in the order of an array. -/
def indexOf (isFOrder : Bool) (shape coords : List Nat) : Nat :=
  encode (walkOrder isFOrder shape) (walkOrder isFOrder coords)

theorem prod_walkOrder (isFOrder : Bool) (l : List Nat) : (walkOrder isFOrder l).prod = l.prod := by
  cases isFOrder with
  | false => rfl
  | true => exact List.prod_reverse l

theorem mem_walkOrder {α : Type} {a : α} {l : List α} : a ∈ walkOrder isFOrder l ↔ a ∈ l := by
  cases isFOrder with
  | false => rfl
  | true => exact List.mem_reverse

theorem length_walkOrder {α : Type} (l : List α) : (walkOrder isFOrder l).length = l.length := by
  cases isFOrder with
  | false => rfl
  | true => exact List.length_reverse

theorem newDims_walkOrder (axes : List (Nat × Nat)) :
    newDims (walkOrder isFOrder axes) = walkOrder isFOrder (newDims axes) := by
  cases isFOrder with
  | false => rfl
  | true => exact List.map_reverse

theorem oldDims_walkOrder (axes : List (Nat × Nat)) :
    oldDims (walkOrder isFOrder axes) = walkOrder isFOrder (oldDims axes) := by
  cases isFOrder with
  | false => rfl
  | true => exact List.map_reverse

theorem inBox_walkOrder_iff {ds cs : List Nat} :
    InBox (walkOrder isFOrder ds) (walkOrder isFOrder cs) ↔ InBox ds cs := by
  cases isFOrder with
  | false => rfl
  | true => exact inBox_reverse_iff

variable {c : List Nat}

theorem indexOf_lt (isFOrder : Bool) (hc : InBox shape c) :
    indexOf isFOrder shape c < shape.prod := by
  rw [← prod_walkOrder isFOrder]
  exact encode_lt (inBox_walkOrder_iff.mpr hc)

theorem coordinateOf_indexOf (hc : InBox shape c) :
    coordinateOf isFOrder shape (indexOf isFOrder shape c) = c := by
  cases isFOrder with
  | false => exact decode_encode hc
  | true =>
      show (decode shape.reverse (encode shape.reverse c.reverse)).reverse = c
      rw [decode_encode (inBox_reverse_iff.mpr hc), List.reverse_reverse]

/-- The elements of a dense array lie at their indices. -/
theorem element_of_consecutive (hdense : Consecutive isFOrder info) (buffer : Int → T)
    (hc : InBox info.shape c) :
    (NDArray.mk info buffer).element c = buffer (indexOf isFOrder info.shape c : Nat) := by
  have hcell := hdense.dot_eq (indexOf_lt isFOrder hc)
  rw [coordinateOf_indexOf hc] at hcell
  rw [element_eq hc]
  exact congrArg buffer hcell

/-- The index of a reduced coordinate. -/
theorem indexOf_reduced (hc : c.length = max shape.length reps.length) :
    indexOf isFOrder shape (reduced shape c) =
      encode (oldDims (walkOrder isFOrder (tileAxes shape reps)))
        (wrapped (walkOrder isFOrder (tileAxes shape reps)) (walkOrder isFOrder c)) := by
  have hlength : (reduced shape c).length = shape.length := length_reduced (by omega)
  cases isFOrder with
  | false =>
      show encode shape (reduced shape c) =
        encode (oldDims (tileAxes shape reps)) (wrapped (tileAxes shape reps) c)
      rw [wrapped_tileAxes hc, oldDims_tileAxes, rightAligned, encode_ones_append]
  | true =>
      have haxes : (tileAxes shape reps).length = c.length := by rw [length_tileAxes, hc]
      have hwrapped : wrapped (tileAxes shape reps).reverse c.reverse =
          (wrapped (tileAxes shape reps) c).reverse := (List.reverse_zipWith haxes).symm
      show encode shape.reverse (reduced shape c).reverse =
        encode (oldDims (tileAxes shape reps).reverse)
          (wrapped (tileAxes shape reps).reverse c.reverse)
      rw [hwrapped, wrapped_tileAxes hc, oldDims, List.map_reverse, ← oldDims, oldDims_tileAxes,
        rightAligned, List.reverse_append, List.reverse_append, List.reverse_replicate,
        List.reverse_replicate, encode_append_ones]
      rw [List.length_reverse, List.length_reverse, hlength]

end Indices

/-! ## The axis that varies fastest -/

section Fastest

variable {shape reps : List Nat} {order : Char} {outer : List (Nat × Nat)} {inner : Nat × Nat}

theorem getLastD_rightAligned (n : Nat) {l : List Nat} (hl : l ≠ []) :
    (rightAligned n l).getLastD 0 = l.getLastD 0 := by
  rw [rightAligned, List.getLastD_eq_getLast?, List.getLastD_eq_getLast?,
    List.getLast?_append_of_ne_nil _ hl]

theorem headD_rightAligned {n : Nat} {l : List Nat} (h : l.length < n) :
    (rightAligned n l).headD 0 = 1 := by
  obtain ⟨m, hm⟩ := Nat.exists_eq_add_of_lt h
  have hcount : n - l.length = m + 1 := by omega
  rw [rightAligned, hcount, List.replicate_succ]
  rfl

/-- In C order the steps are those of the last axis. -/
theorem tileSteps_c (hshape : shape ≠ []) (hreps : reps ≠ [])
    (haxes : tileAxes shape reps = outer ++ [inner]) :
    tileSteps 'c' shape reps = innerSteps inner := by
  have hold := oldDims_tileAxes shape reps
  have hcounts := counts_tileAxes shape reps
  have hnew := tileShape_eq shape reps
  rw [haxes] at hold hcounts hnew
  have hfirst : shape.getLastD 0 = inner.1 := by
    rw [← getLastD_rightAligned _ hshape, ← hold, oldDims, List.map_append, List.map_singleton,
      List.getLastD_concat]
  have hsecond : reps.getLastD 0 = inner.2 := by
    rw [← getLastD_rightAligned _ hreps, ← hcounts, List.map_append, List.map_singleton,
      List.getLastD_concat]
  have hlast : (tileShape shape reps).getLastD 0 = inner.1 * inner.2 := by
    rw [hnew, newDims, List.map_append, List.map_singleton, List.getLastD_concat]
  rw [tileSteps, if_pos rfl, hfirst, hsecond, hlast, innerSteps]

/-- In F order they are those of the first axis, unless it is a new one before an extent that is
not one. -/
theorem tileSteps_f (hside : shape.length < reps.length → shape.headD 0 = 1)
    (haxes : tileAxes shape reps = inner :: outer) :
    tileSteps 'f' shape reps = innerSteps inner := by
  have hold := congrArg (List.headD · 0) (oldDims_tileAxes shape reps)
  have hcounts := congrArg (List.headD · 0) (counts_tileAxes shape reps)
  have hnew := congrArg (List.headD · 0) (tileShape_eq shape reps)
  rw [haxes] at hold hcounts hnew
  have hold : inner.1 = _ := hold
  have hcounts : inner.2 = _ := hcounts
  have hnew : (tileShape shape reps).headD 0 = inner.1 * inner.2 := hnew
  have hfirst : shape.headD 0 = inner.1 := by
    rw [hold]
    rcases Nat.lt_or_ge shape.length reps.length with hlt | hge
    · rw [headD_rightAligned (by omega), hside hlt]
    · rw [rightAligned_of_le (by omega)]
  rw [tileSteps, if_neg (by decide), hnew, hfirst, innerSteps]
  congr 1
  split
  · rename_i hle
    rw [hcounts, rightAligned_of_le (by omega)]
  · rename_i hlt
    rw [hcounts, headD_rightAligned (by omega), Nat.one_mul]

theorem tileSteps_eq (horder : order = 'c' ∨ order = 'f') (hshape : shape ≠ []) (hreps : reps ≠ [])
    (hside : order = 'f' → shape.length < reps.length → shape.headD 0 = 1)
    (haxes : walkOrder (order = 'f') (tileAxes shape reps) = outer ++ [inner]) :
    tileSteps order shape reps = innerSteps inner := by
  rcases horder with rfl | rfl
  · exact tileSteps_c hshape hreps haxes
  · have hreverse : tileAxes shape reps = inner :: outer.reverse := by
      have hwalk : (tileAxes shape reps).reverse = outer ++ [inner] := haxes
      rw [List.reverse_eq_iff.mp hwalk, List.reverse_append, List.reverse_singleton,
        List.singleton_append]
    exact tileSteps_f (hside rfl) hreverse

end Fastest

/-! ## The repeated array -/

section Repeated

variable {T : Type} {info : ShapeInfo} {reps : List Nat}

/-- Counts of one and only they have the product one. -/
theorem eq_one_of_prod_eq_one (hprod : reps.prod = 1) : ∀ n ∈ reps, n = 1 := by
  intro n hn
  exact Nat.dvd_one.mp (hprod ▸ List.dvd_prod hn)

/-- An array whose elements lie at their indices is repeated, if its buffer holds the reduced
elements. -/
theorem tiled_iff {isFOrder : Bool} (hpos : info.Positive) (hdense : Consecutive isFOrder info)
    {buffer buffer' : Int → T} {result : ShapeInfo} (hresult : Consecutive isFOrder result)
    (hshape : result.shape = newDims (tileAxes info.shape reps)) :
    Tiled reps ⟨info, buffer⟩ ⟨result, buffer'⟩ ↔
      ∀ c, InBox (newDims (tileAxes info.shape reps)) c →
        buffer' (indexOf isFOrder (newDims (tileAxes info.shape reps)) c : Nat) =
          buffer (indexOf isFOrder info.shape (reduced info.shape c) : Nat) := by
  have helements : ∀ c, InBox (newDims (tileAxes info.shape reps)) c →
      (NDArray.mk result buffer').element c =
          buffer' (indexOf isFOrder (newDims (tileAxes info.shape reps)) c : Nat) ∧
        (NDArray.mk info buffer).element (reduced info.shape c) =
          buffer (indexOf isFOrder info.shape (reduced info.shape c) : Nat) := by
    intro c hc
    have hlength : info.shape.length ≤ c.length := by
      rw [length_of_inBox_newDims hc, length_tileAxes]
      exact Nat.le_max_left _ _
    rw [← hshape] at hc ⊢
    exact ⟨element_of_consecutive hresult buffer' hc,
      element_of_consecutive hdense buffer (inBox_reduced hpos hlength)⟩
  constructor
  · intro h c hc
    rw [← (helements c hc).1, ← (helements c hc).2]
    exact h.element c (hshape ▸ hc)
  · intro h
    refine ⟨hshape, fun c hc => ?_⟩
    have hc : InBox (newDims (tileAxes info.shape reps)) c := hshape ▸ hc
    rw [(helements c hc).1, (helements c hc).2, h c hc]

/-- The elements of a repeated array, along the axes in their order. -/
theorem forall_indexOf_iff (isFOrder : Bool) (shape : List Nat) {buffer buffer' : Int → T} :
    (∀ c, InBox (newDims (tileAxes shape reps)) c →
      buffer' (indexOf isFOrder (newDims (tileAxes shape reps)) c : Nat) =
        buffer (indexOf isFOrder shape (reduced shape c) : Nat)) ↔
      ∀ c, InBox (newDims (walkOrder isFOrder (tileAxes shape reps))) c →
        buffer' (encode (newDims (walkOrder isFOrder (tileAxes shape reps))) c : Nat) =
          buffer (encode (oldDims (walkOrder isFOrder (tileAxes shape reps)))
            (wrapped (walkOrder isFOrder (tileAxes shape reps)) c) : Nat) := by
  have htwice : ∀ l : List Nat, walkOrder isFOrder (walkOrder isFOrder l) = l := by
    intro l
    cases isFOrder with
    | false => rfl
    | true => exact List.reverse_reverse l
  rw [newDims_walkOrder]
  constructor
  · intro h c hc
    rw [← htwice c, inBox_walkOrder_iff] at hc
    have hlength := (length_of_inBox_newDims hc).trans (length_tileAxes shape reps)
    have hvalue := h _ hc
    rwa [indexOf_reduced hlength, indexOf, htwice] at hvalue
  · intro h c hc
    have hlength := (length_of_inBox_newDims hc).trans (length_tileAxes shape reps)
    rw [indexOf_reduced hlength]
    exact h _ (inBox_walkOrder_iff.mpr hc)

/-- Where the steps are those of the axis that varies fastest, the array is repeated exactly if the
other axes that are repeated have only ones before them. -/
theorem tilesRight_iff_firstRepeated (horder : info.order = 'c' ∨ info.order = 'f')
    (hpos : info.Positive) (hdense : Consecutive (info.order = 'f') info) (hrank : info.shape ≠ [])
    (hreps : ∀ n ∈ reps, 0 < n) (hprod : reps.prod ≠ 1)
    (hside : info.order = 'f' → info.shape.length < reps.length → info.shape.headD 0 = 1) :
    TilesRight reps info ↔
      FirstRepeated (walkOrder (info.order = 'f') (tileAxes info.shape reps)).dropLast := by
  have hlarge : 1 < reps.prod := by
    have := prod_pos_of_pos hreps
    omega
  have hnil : reps ≠ [] := fun h => hprod (by rw [h, List.prod_nil])
  have hpositive : ∀ a ∈ walkOrder (info.order = 'f') (tileAxes info.shape reps),
      0 < a.1 ∧ 0 < a.2 := fun a ha => pos_tileAxes hpos hreps a (mem_walkOrder.mp ha)
  have hold : (oldDims (walkOrder (info.order = 'f') (tileAxes info.shape reps))).prod =
      info.shape.prod := by
    rw [oldDims_walkOrder, prod_walkOrder, oldDims_tileAxes, prod_rightAligned]
  have hnew : (newDims (walkOrder (info.order = 'f') (tileAxes info.shape reps))).prod =
      (tileShape info.shape reps).prod := by
    rw [newDims_walkOrder, prod_walkOrder, tileShape_eq]
  have hsteps : ∀ {outer inner}, walkOrder (info.order = 'f') (tileAxes info.shape reps) =
      outer ++ [inner] → tileSteps info.order info.shape reps = innerSteps inner :=
    tileSteps_eq horder hrank hnil hside
  -- the axis that varies fastest is the last one of the walk
  obtain hempty | ⟨outer, inner, haxes⟩ := List.eq_nil_or_concat'
    (walkOrder (info.order = 'f') (tileAxes info.shape reps))
  · exfalso
    have hlength := congrArg List.length hempty
    rw [length_walkOrder, length_tileAxes, List.length_nil] at hlength
    exact hrank (List.eq_nil_of_length_eq_zero (by omega))
  · rw [haxes] at hpositive hold hnew
    have hinner := hpositive inner (List.mem_append_right _ List.mem_cons_self)
    have houter : ∀ a ∈ outer, 0 < a.1 ∧ 0 < a.2 := fun a ha =>
      hpositive a (List.mem_append_left _ ha)
    have hblocks : 0 < (oldDims outer).prod := prod_pos_of_pos fun d hd => by
      obtain ⟨a, ha, rfl⟩ := List.mem_map.mp hd
      exact (houter a ha).1
    have hlengthOld : info.shape.prod = (oldDims outer).prod * inner.1 := by
      rw [← hold, oldDims, List.map_append, List.prod_append, List.map_singleton,
        List.prod_singleton, oldDims]
    have hlengthNew : (tileShape info.shape reps).prod =
        (newDims outer).prod * (inner.1 * inner.2) := by
      rw [← hnew, newDims, List.map_append, List.prod_append, List.map_singleton,
        List.prod_singleton, newDims]
    have hcells : ∀ {T : Type} (run : Runtime T) (buffer : Int → T),
        (∃ result, tilei run reps ⟨info, buffer⟩ = .ok result ∧
          Tiled reps ⟨info, buffer⟩ result) ↔
        ∀ c, InBox (newDims (outer ++ [inner])) c →
          buffer (tileSource outer inner (encode (newDims (outer ++ [inner])) c) : Nat) =
            buffer (encode (oldDims (outer ++ [inner])) (wrapped (outer ++ [inner]) c) : Nat) := by
      intro T run buffer
      obtain ⟨buffer', htile, hvalues⟩ := tilei_spec run buffer hlarge hinner hblocks
        (hsteps haxes) hlengthOld hlengthNew
      have htiled := (@tiled_iff T info reps _ hpos hdense buffer buffer' _
        (consecutive_updateStrides _ horder) (tileShape_eq _ _)).trans
        (forall_indexOf_iff (info.order = 'f') info.shape)
      rw [haxes] at htiled
      have hread : ∀ c, InBox (newDims (outer ++ [inner])) c →
          buffer' (encode (newDims (outer ++ [inner])) c : Nat) =
            buffer (tileSource outer inner (encode (newDims (outer ++ [inner])) c) : Nat) :=
        fun c hc => hvalues _ (hnew ▸ encode_lt hc)
      constructor
      · rintro ⟨result, hresult, hright⟩ c hc
        rw [htile, Except.ok.injEq] at hresult
        subst hresult
        rw [← hread c hc]
        exact htiled.mp hright c hc
      · intro h
        refine ⟨_, htile, htiled.mpr fun c hc => ?_⟩
        rw [hread c hc]
        exact h c hc
    rw [haxes, List.dropLast_concat, ← tiles_iff houter hinner]
    constructor
    · intro h c hc
      exact Int.ofNat_inj.mp ((hcells (oneThread id) id).mp (h (oneThread id) id) c hc)
    · intro h T run buffer
      refine (hcells run buffer).mpr fun c hc => ?_
      rw [h c hc]

/-- In F order a new axis before an extent that is not one: the last blocks are written behind the
buffer. -/
theorem tilei_undefined (run : Runtime T) (buffer : Int → T) (horder : info.order = 'f')
    (hpos : info.Positive) (hrank : info.shape ≠ []) (hreps : ∀ n ∈ reps, 0 < n)
    (hprod : reps.prod ≠ 1) (hlt : info.shape.length < reps.length)
    (hhead : info.shape.headD 0 ≠ 1) : tilei run reps ⟨info, buffer⟩ = .error .undefined := by
  have hzero := prod_pos_of_pos hreps
  obtain ⟨x, ds, hshape⟩ := List.exists_cons_of_ne_nil hrank
  obtain ⟨y, ns, rfl⟩ := List.exists_cons_of_length_pos (Nat.zero_lt_of_lt hlt)
  obtain ⟨k, hk⟩ := Nat.exists_eq_add_one_of_ne_zero (Nat.sub_ne_zero_of_lt hlt)
  have hx : 2 ≤ x := by
    have := hpos x (hshape ▸ List.mem_cons_self)
    rw [hshape] at hhead
    have hne : x ≠ 1 := hhead
    omega
  have hy := hreps y List.mem_cons_self
  have hold : 0 < ds.prod :=
    prod_pos_of_pos fun d hd => hpos d (hshape ▸ List.mem_cons_of_mem _ hd)
  set rest := List.zipWith (· * ·) (List.replicate k 1 ++ info.shape) ns with hrest
  have hnewShape : tileShape info.shape (y :: ns) = y :: rest := by
    rw [tileShape, if_pos hlt, hk, List.replicate_succ, List.cons_append, List.zipWith_cons_cons,
      Nat.one_mul]
  have hsteps : tileSteps info.order info.shape (y :: ns) = ⟨y, x, y * x⟩ := by
    rw [horder, tileSteps, if_neg (by decide), hnewShape, if_pos (Nat.le_of_lt hlt), hshape]
    rfl
  have hprodNew : (tileShape info.shape (y :: ns)).prod = y * rest.prod := by
    rw [hnewShape, List.prod_cons]
  have hrestPos : 0 < rest.prod :=
    Nat.pos_of_mul_pos_left (hprodNew ▸ prod_tileShape_pos hpos hreps)
  have hlast : ((rest.prod - 1) * y + (y - 1) * x + (x - 1), (rest.prod - 1) % ds.prod * x + (x - 1)) ∈
      tileBlocks ⟨y, x, y * x⟩ (ds.prod * x) (loopBy (rest.prod * y) y) 0 := by
    have hall := @mem_tileBlocks_iff ⟨y, x, y * x⟩ _ hold (by simp only; omega) rest.prod 0
      ((rest.prod - 1) * y + (y - 1) * x + (x - 1), (rest.prod - 1) % ds.prod * x + (x - 1))
    rw [Nat.zero_mod, Nat.zero_mul, ← List.range_eq_range'] at hall
    rw [loopBy_mul _ hy]
    refine hall.mpr ⟨rest.prod - 1, by omega, (y - 1) * x, ?_, x - 1, by simp only; omega, rfl⟩
    simp only [loopBy_mul _ (Nat.zero_lt_of_lt hx)]
    exact List.mem_map.mpr ⟨y - 1, List.mem_range.mpr (by omega), rfl⟩
  have hbehind : y * rest.prod ≤ (rest.prod - 1) * y + (y - 1) * x + (x - 1) := by
    have hblocks : y * rest.prod = (rest.prod - 1) * y + y := by
      rw [Nat.sub_mul, Nat.one_mul, Nat.mul_comm, Nat.sub_add_cancel]
      exact Nat.le_mul_of_pos_left y hrestPos
    have hround : y - 1 ≤ (y - 1) * x := Nat.le_mul_of_pos_right _ (by omega)
    omega
  unfold tilei
  simp only [hsteps, hprodNew]
  rw [if_neg (by omega), if_neg hprod]
  refine if_pos
    ⟨((rest.prod - 1) * y + (y - 1) * x + (x - 1), (rest.prod - 1) % ds.prod * x + (x - 1)), ?_,
      hbehind⟩
  rw [hshape, List.prod_cons, Nat.mul_comm x ds.prod, Nat.mul_comm y rest.prod]
  exact hlast

/-- With counts of one the array at most gets new axes. -/
theorem tilesRight_of_ones (horder : info.order = 'c' ∨ info.order = 'f') (hpos : info.Positive)
    (hdense : Consecutive (info.order = 'f') info) (hprod : reps.prod = 1) :
    TilesRight reps info := by
  have hones := eq_one_of_prod_eq_one hprod
  have haxes : ∀ a ∈ tileAxes info.shape reps, a.2 = 1 := by
    intro a ha
    rcases List.mem_append.mp (List.of_mem_zip ha).2 with hone | hmem
    · exact List.eq_of_mem_replicate hone
    · exact hones _ hmem
  have hdims : newDims (tileAxes info.shape reps) =
      rightAligned (max info.shape.length reps.length) info.shape := by
    rw [newDims_of_ones haxes, oldDims_tileAxes]
  -- the same buffer under shape information with the new axes
  have hsame : ∀ {T : Type} (buffer : Int → T) {result : ShapeInfo},
      Consecutive (info.order = 'f') result →
        result.shape = newDims (tileAxes info.shape reps) →
          Tiled reps ⟨info, buffer⟩ ⟨result, buffer⟩ := by
    intro T buffer result hresult hshape
    refine (tiled_iff hpos hdense hresult hshape).mpr
      ((forall_indexOf_iff _ _).mpr fun c hc => ?_)
    have hwalk := newDims_of_ones fun a (ha : a ∈ walkOrder (info.order = 'f')
      (tileAxes info.shape reps)) => haxes a (mem_walkOrder.mp ha)
    rw [hwalk] at hc ⊢
    rw [wrapped_of_inBox hc]
  intro T run buffer
  unfold tilei
  simp only
  rw [if_neg (by omega), if_pos hprod]
  by_cases hlt : info.shape.length < reps.length
  · rw [if_pos hlt]
    have hfront : reps.take (reps.length - info.shape.length) =
        List.replicate (reps.length - info.shape.length) 1 := by
      rw [List.eq_replicate_iff]
      refine ⟨?_, fun n hn => hones n (List.mem_of_mem_take hn)⟩
      rw [List.length_take, Nat.min_eq_left (Nat.sub_le _ _)]
    have hshape : reps.take (reps.length - info.shape.length) ++ info.shape =
        newDims (tileAxes info.shape reps) := by
      rw [hdims, hfront, rightAligned, Nat.max_eq_right (Nat.le_of_lt hlt)]
    have hadm := @admissible_of_nat (reps.take (reps.length - info.shape.length) ++ info.shape)
      info.length
      (by
        rw [hshape, hdims]
        exact pos_rightAligned hpos)
      (by rw [hshape, hdims, prod_rightAligned, ShapeInfo.length])
    obtain ⟨target, htarget, htargetShape, -, -, htargetDense⟩ :=
      @reshape_dense T ⟨info, buffer⟩ _ info.order _ run hpos horder hadm hdense
    exact ⟨_, htarget, hsame buffer htargetDense (htargetShape.trans hshape)⟩
  · rw [if_neg hlt]
    refine ⟨_, rfl, hsame buffer hdense ?_⟩
    rw [hdims, Nat.max_eq_left (Nat.not_lt.mp hlt), rightAligned_of_le (Nat.le_refl _)]

/-- Repeating a dense array along the axes is right exactly if all counts are one, or the axes that
are repeated, besides the one that varies fastest, have only ones before them, and in F order no
axes are added before an extent that is not one. -/
theorem tilesRight_iff (horder : info.order = 'c' ∨ info.order = 'f') (hpos : info.Positive)
    (hdense : Consecutive (info.order = 'f') info) (hrank : info.shape ≠ [])
    (hreps : ∀ n ∈ reps, 0 < n) : TilesRight reps info ↔ TilesInOrder reps info := by
  rw [TilesInOrder]
  by_cases hprod : reps.prod = 1
  · exact ⟨fun _ => Or.inl hprod, fun _ => tilesRight_of_ones horder hpos hdense hprod⟩
  · by_cases hside : info.order = 'f' → info.shape.length < reps.length → info.shape.headD 0 = 1
    · rw [tilesRight_iff_firstRepeated horder hpos hdense hrank hreps hprod hside]
      exact ⟨fun h => Or.inr ⟨h, hside⟩, fun h => (h.resolve_left hprod).1⟩
    · refine ⟨fun h => ?_, fun h => absurd (h.resolve_left hprod).2 hside⟩
      push Not at hside
      obtain ⟨hf, hlt, hhead⟩ := hside
      obtain ⟨result, hresult, -⟩ := h (oneThread id) id
      rw [tilei_undefined _ _ hf hpos hrank hreps hprod hlt hhead] at hresult
      cases hresult

theorem tilesRight_iff_columns :
    TilesRight [1, 2] (newShapeInfo 'c' [2, 2]) ↔ TilesInOrder [1, 2] (newShapeInfo 'c' [2, 2]) :=
  tilesRight_iff (Or.inl rfl) (by decide) (dense_newShapeInfo (Or.inl rfl) [2, 2]) (by decide)
    (by decide)

/-- Where a column is repeated along its second axis the blocks come round in the wrong order. -/
theorem not_tilesRight_always :
    ¬ ∀ (info : ShapeInfo) (reps : List Nat), info.order = 'c' ∨ info.order = 'f' → info.Positive →
      Consecutive (info.order = 'f') info → info.shape ≠ [] → (∀ n ∈ reps, 0 < n) →
        TilesRight reps info := by
  intro h
  have hright : TilesRight [1, 2, 1] (newShapeInfo 'c' [2, 1, 1]) := h _ _ (Or.inl rfl)
    (by decide) (dense_newShapeInfo (Or.inl rfl) [2, 1, 1]) (by decide) (by decide)
  exact absurd ((tilesRight_iff_firstRepeated (Or.inl rfl) (by decide)
    (dense_newShapeInfo (Or.inl rfl) [2, 1, 1]) (by decide) (by decide) (by decide)
    (fun h => absurd h (by decide))).mp hright) (by decide)

end Repeated

end Arrays
end LibND4J
