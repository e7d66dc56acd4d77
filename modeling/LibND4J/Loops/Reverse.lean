import LibND4J.Arrays.Cells
import LibND4J.Library.Swaps

/-!
# Reversing an array

`Reverse::execSpecial` turns the elements of an array around, in the array itself or into
another one.  With positive element-wise strides its loops walk by them; otherwise every index is
decoded in the order of its array.  The iterations of a loop run in any order.

Main results:

- Theorem `execSpecial_cell`: what a call leaves in the cells of the result, in the orders of
  the two arrays.
- Theorem `reversesRight_iff`: in the array itself the call is right exactly if the loop has a
  stride or the array one element, and into another array exactly if both arrays number their
  elements alike.
-/

namespace LibND4J
namespace Loops
namespace Reverse

open Shape Strided Swaps Arrays

/-! ## The loops -/

/-- Decode an index in the order of the array and compute its offset. -/
def offsetOf (info : ShapeInfo) (e : Nat) : Int :=
  if info.order = 'c' then
    getOffset 0 info.shape info.stride (ind2subC info.shape e)
  else
    getOffset 0 info.shape info.stride (ind2sub info.shape e)

/-- The number of iterations. -/
def iterations (x : ShapeInfo) (dx result : Int) : Nat :=
  if dx = result then x.length / 2 else x.length

section Calls

variable {T : Type}

/-- The loops for a result that is the input itself. -/
def execInPlace (schedule : List Nat) (x : ShapeInfo) (dx : Int) (memory : Int → T) : Int → T :=
  let sLength := x.length - 1
  let xEws := x.elementWiseStride
  if xEws = 1 then
    schedule.foldl (fun m e => exchange m (dx + (e : Nat)) (dx + (sLength - e : Nat))) memory
  else if xEws > 1 then
    schedule.foldl (fun m e => exchange m (dx + (e : Nat) * xEws) (dx + (sLength - e : Nat) * xEws))
      memory
  else
    -- the element at the other end is not kept
    Stores.storeAll (fun e => dx + offsetOf x (sLength - e)) (fun e m => m (dx + offsetOf x e))
      schedule memory

/-- The loops for a result apart from the input. -/
def execApart (schedule : List Nat) (x z : ShapeInfo) (dx result : Int) (memory : Int → T) :
    Int → T :=
  let sLength := x.length - 1
  let xEws := x.elementWiseStride
  let zEws := z.elementWiseStride
  if xEws = 1 ∧ zEws = 1 ∧ x.order = z.order then
    Stores.storeAll (fun e => result + (sLength - e : Nat)) (fun e m => m (dx + (e : Nat)))
      schedule memory
  else if xEws ≥ 1 ∧ zEws ≥ 1 ∧ x.order = z.order then
    Stores.storeAll (fun e => result + (sLength - e : Nat) * zEws)
      (fun e m => m (dx + (e : Nat) * xEws)) schedule memory
  else
    Stores.storeAll (fun e => result + offsetOf z (sLength - e))
      (fun e m => m (dx + offsetOf x e)) schedule memory

/-- `Reverse::execSpecial`, its iterations in the order of `schedule`. -/
def execSpecial (schedule : List Nat) (x z : ShapeInfo) (dx result : Int) (memory : Int → T) :
    Int → T :=
  if dx = result then
    execInPlace schedule x dx memory
  else
    execApart schedule x z dx result memory

end Calls

/-- The result is the input itself or shares no cell with it. -/
def Placed (x z : ShapeInfo) (dx result : Int) : Prop :=
  (dx = result ∧ x = z) ∨
    ∀ c d, InBox x.shape c → InBox z.shape d → dx + dot c x.stride ≠ result + dot d z.stride

/-- Position `k` of the result holds what position `n - 1 - k` of the input held, in C order, and
reversing the result again gives the input back. -/
structure ReversesRight (x z : ShapeInfo) (dx result : Int) : Prop where
  reversed : ∀ (T : Type) (memory : Int → T) (schedule : List Nat),
    schedule.Perm (List.range (iterations x dx result)) → ∀ k < x.length,
      execSpecial schedule x z dx result memory (result + elementOffset false z.axes k) =
        memory (dx + elementOffset false x.axes (x.length - 1 - k))
  twice : ∀ (T : Type) (memory : Int → T) (schedule schedule' : List Nat) (back : Int),
    Placed z x result back → (result = back ↔ dx = result) →
      schedule.Perm (List.range (iterations x dx result)) →
      schedule'.Perm (List.range (iterations z result back)) → ∀ k < x.length,
      execSpecial schedule' z x result back (execSpecial schedule x z dx result memory)
          (back + elementOffset false x.axes k) =
        memory (dx + elementOffset false x.axes k)

/-- Both arrays number their elements alike, each in its order. -/
def SameNumbering (x z : ShapeInfo) : Prop :=
  if x.order = 'c' then
    z.order = 'c' ∨ IsLine z.shape
  else if z.order = 'c' then
    IsLine x.shape
  else
    x.shape.filter (· ≠ 1) = z.shape.filter (· ≠ 1)

/-! ## Numbers of elements -/

section Numbers

variable {info x z : ShapeInfo}

/-- The C number of the `k`-th element in the order of the array. -/
def numberOf (info : ShapeInfo) (k : Nat) : Nat :=
  if info.order = 'c' then k else transposeIndex info.shape k

variable {k k' : Nat}

theorem numberOf_lt (hpos : info.Positive) (hk : k < info.length) :
    numberOf info k < info.length := by
  rw [numberOf]
  split
  · exact hk
  · exact transposeIndex_lt hpos hk

/-- Indices from the two ends have numbers from the two ends. -/
theorem numberOf_add (info : ShapeInfo) (h : k + k' + 1 = info.length) :
    numberOf info k + numberOf info k' + 1 = info.length := by
  rw [numberOf, numberOf]
  split
  · exact h
  · exact transposeIndex_add h

variable (hpos : info.Positive)

include hpos

theorem numberOf_zero : numberOf info 0 = 0 := by
  rw [numberOf, transposeIndex_zero hpos.length_pos, ite_self]

/-- Every C number is the number of an index. -/
theorem exists_numberOf_eq (hk : k < info.length) : ∃ e < info.length, numberOf info e = k := by
  by_cases horder : info.order = 'c'
  · exact ⟨k, hk, if_pos horder⟩
  · obtain ⟨e, he, heq⟩ := exists_transposeIndex_eq hpos hk
    exact ⟨e, he, by rwa [numberOf, if_neg horder]⟩

theorem numberOf_inj (hk : k < info.length) (hk' : k' < info.length)
    (h : numberOf info k = numberOf info k') : k = k' := by
  by_cases horder : info.order = 'c'
  · rwa [numberOf, numberOf, if_pos horder, if_pos horder] at h
  · rw [numberOf, numberOf, if_neg horder, if_neg horder] at h
    apply (bijOn_decodeF hpos).injOn hk hk'
    rw [← decode_transposeIndex hpos hk, h, decode_transposeIndex hpos hk']

/-- Different indices lead to different cells. -/
theorem cell_inj (hcells : CellsApart info) {base : Int} (hk : k < info.length)
    (hk' : k' < info.length) (h : base + elementOffset false info.axes (numberOf info k) =
      base + elementOffset false info.axes (numberOf info k')) : k = k' :=
  numberOf_inj hpos hk hk' (elementOffset_inj hpos hcells false (numberOf_lt hpos hk)
    (numberOf_lt hpos hk') (Int.add_left_cancel h))

/-- Decoding an index leads to the element with its number. -/
theorem offsetOf_eq (hk : k < info.length) :
    offsetOf info k = elementOffset false info.axes (numberOf info k) := by
  rw [offsetOf, numberOf]
  split
  · rw [getOffset_ind2subC hpos hk, elementOffset_eq_ite false _ (by rwa [info.volume_axes])]
    exact zero_add _
  · rw [getOffset_ind2sub_eq hpos hk, zero_add, elementOffset_transposeIndex hpos hk]

omit hpos

/-- So does walking by an honest stride. -/
theorem mul_ews_eq (horder : info.order = 'c' ∨ info.order = 'f') (hpos : info.Positive)
    (hews : info.HonestEws) (hslot : info.elementWiseStride ≥ 1) (hk : k < info.length) :
    (k : Int) * info.elementWiseStride = elementOffset false info.axes (numberOf info k) := by
  rw [← hews hslot k hk, ShapeInfo.isFOrder, numberOf]
  rcases horder with hc | hf
  · rw [hc]
    rfl
  · rw [hf]
    exact elementOffset_transposeIndex hpos hk

/-- The numbers agree exactly if the extents above one allow it. -/
theorem numberOf_eq_iff (hx : x.Positive) (hz : z.Positive) (hlength : z.length = x.length) :
    (∀ k < x.length, numberOf x k = numberOf z k) ↔ SameNumbering x z := by
  have hline : ∀ {info : ShapeInfo}, info.Positive →
      ((∀ k < info.length, transposeIndex info.shape k = k) ↔ IsLine info.shape) :=
    fun hpos => forall_transposeIndex_iff hpos
  simp only [numberOf, SameNumbering]
  by_cases hxc : x.order = 'c'
  · by_cases hzc : z.order = 'c'
    · simp [hxc, hzc]
    · simp only [hxc, hzc, if_true, if_false, false_or]
      rw [← hline hz, hlength]
      exact forall₂_congr fun k _ => eq_comm
  · by_cases hzc : z.order = 'c'
    · simp only [hxc, hzc, if_true, if_false]
      exact hline hx
    · simp only [hxc, hzc, if_false]
      exact ⟨filter_eq_of_transposeIndex hx hz hlength.symm, fun h k hk => transposeIndex_congr h hk⟩

end Numbers

/-! ## The calls -/

section Calls

variable {T : Type} {x z : ShapeInfo} {dx result : Int} {schedule : List Nat} {e : Nat}

/-- Where the loop exchanges, what it exchanges are the elements at both ends. -/
theorem execInPlace_of_slot (horder : x.order = 'c' ∨ x.order = 'f') (hpos : x.Positive)
    (hews : x.HonestEws) (hslot : x.elementWiseStride ≥ 1)
    (hschedule : ∀ e ∈ schedule, e < x.length) (dx : Int) (memory : Int → T) :
    execInPlace schedule x dx memory =
      exchangeRows (fun (last : Bool) e => dx +
        elementOffset false x.axes (numberOf x (if last then x.length - 1 - e else e)))
        false true schedule memory := by
  have hstep : ∀ e ∈ schedule, ∀ m : Int → T,
      exchange m (dx + (e : Nat) * x.elementWiseStride)
        (dx + (x.length - 1 - e : Nat) * x.elementWiseStride) =
      exchange m (dx + elementOffset false x.axes (numberOf x e))
        (dx + elementOffset false x.axes (numberOf x (x.length - 1 - e))) := by
    intro e he m
    have hlt := hschedule e he
    rw [mul_ews_eq horder hpos hews hslot hlt,
      mul_ews_eq horder hpos hews hslot (k := x.length - 1 - e) (by omega)]
  have hloop : schedule.foldl (fun m e => exchange m (dx + (e : Nat) * x.elementWiseStride)
      (dx + (x.length - 1 - e : Nat) * x.elementWiseStride)) memory =
      schedule.foldl (fun m e => exchange m (dx + elementOffset false x.axes (numberOf x e))
        (dx + elementOffset false x.axes (numberOf x (x.length - 1 - e)))) memory :=
    List.foldl_ext _ _ _ fun m e he => hstep e he m
  rw [execInPlace]
  by_cases hone : x.elementWiseStride = 1
  · simp only [hone, mul_one, if_true] at hloop ⊢
    exact hloop
  · simp only [if_neg hone, if_pos (lt_of_le_of_ne hslot (Ne.symm hone))]
    exact hloop

/-- All loops for a result apart copy between the elements at both ends. -/
theorem execApart_eq (hx : x.order = 'c' ∨ x.order = 'f') (hxpos : x.Positive) (hzpos : z.Positive)
    (hxews : x.HonestEws) (hzews : z.HonestEws) (hlength : z.length = x.length)
    (hschedule : ∀ e ∈ schedule, e < x.length) (dx result : Int) (memory : Int → T) :
    execApart schedule x z dx result memory =
      Stores.storeAll
        (fun e => result + elementOffset false z.axes (numberOf z (x.length - 1 - e)))
        (fun e m => m (dx + elementOffset false x.axes (numberOf x e))) schedule memory := by
  have hwalk : x.elementWiseStride ≥ 1 → z.elementWiseStride ≥ 1 → x.order = z.order →
      Stores.storeAll (fun e => result + (x.length - 1 - e : Nat) * z.elementWiseStride)
        (fun e m => m (dx + (e : Nat) * x.elementWiseStride)) schedule memory =
      Stores.storeAll
        (fun e => result + elementOffset false z.axes (numberOf z (x.length - 1 - e)))
        (fun e m => m (dx + elementOffset false x.axes (numberOf x e))) schedule memory := by
    intro hxslot hzslot horder
    refine Stores.storeAll_congr (fun e he => ?_) (fun e he m => ?_) memory
    · have hlt := hschedule e he
      rw [mul_ews_eq (horder ▸ hx) hzpos hzews hzslot (k := x.length - 1 - e) (by omega)]
    · rw [mul_ews_eq hx hxpos hxews hxslot (hschedule e he)]
  rw [execApart]
  by_cases hone : x.elementWiseStride = 1 ∧ z.elementWiseStride = 1 ∧ x.order = z.order
  · obtain ⟨hxone, hzone, horder⟩ := hone
    have hloop := hwalk hxone.ge hzone.ge horder
    simp only [hxone, hzone, horder, mul_one, and_self, if_true] at hloop ⊢
    exact hloop
  · by_cases hslot : x.elementWiseStride ≥ 1 ∧ z.elementWiseStride ≥ 1 ∧ x.order = z.order
    · simp only [if_neg hone, if_pos hslot]
      exact hwalk hslot.1 hslot.2.1 hslot.2.2
    · simp only [if_neg hone, if_neg hslot]
      refine Stores.storeAll_congr (fun e he => ?_) (fun e he m => ?_) memory
      · have hlt := hschedule e he
        rw [offsetOf_eq hzpos (k := x.length - 1 - e) (by omega)]
      · rw [offsetOf_eq hxpos (hschedule e he)]

/-- A result apart has no cell of the input. -/
theorem Placed.cells_ne (hplaced : Placed x z dx result) (hne : dx ≠ result) (hx : x.Positive)
    (hz : z.Positive) {k k' : Nat} (hk : k < x.length) (hk' : k' < z.length) :
    dx + elementOffset false x.axes k ≠ result + elementOffset false z.axes k' := by
  rw [elementOffset_eq_dot, elementOffset_eq_dot]
  rcases hplaced with ⟨heq, -⟩ | hapart
  · exact absurd heq hne
  · exact hapart _ _ ((bijOn_coordinateOf false hx).mapsTo hk)
      ((bijOn_coordinateOf false hz).mapsTo hk')

/-- The places of the in-place exchanges are the two halves of the array. -/
theorem rowsApart_halves (hpos : x.Positive) (hcells : CellsApart x) (dx : Int) :
    RowsApart (fun (last : Bool) e => dx +
        elementOffset false x.axes (numberOf x (if last then x.length - 1 - e else e)))
      (fun _ => True) (fun e => e < x.length / 2) := by
  intro r r' e e' _ _ he he' heq
  have hindex := cell_inj hpos hcells (by split <;> omega) (by split <;> omega) heq
  cases r <;> cases r' <;> simp at hindex ⊢ <;> omega

/-- Exchanging the halves leaves in every cell the element from the other end. -/
theorem execInPlace_cell (horder : x.order = 'c' ∨ x.order = 'f') (hpos : x.Positive)
    (hews : x.HonestEws) (hcells : CellsApart x) (hslot : x.elementWiseStride ≥ 1)
    (hschedule : schedule.Perm (List.range (x.length / 2))) (memory : Int → T) (he : e < x.length) :
    execInPlace schedule x dx memory (dx + elementOffset false x.axes (numberOf x e)) =
      memory (dx + elementOffset false x.axes (numberOf x (x.length - 1 - e))) := by
  have hmem : ∀ i, i ∈ schedule ↔ i < x.length / 2 :=
    fun i => hschedule.mem_iff.trans List.mem_range
  have hplaces : ∀ i ∈ schedule, i < x.length / 2 := fun i hi => (hmem i).mp hi
  have hnodup : schedule.Nodup := hschedule.nodup_iff.mpr List.nodup_range
  have happart := rowsApart_halves hpos hcells dx
  rw [execInPlace_of_slot horder hpos hews hslot fun i hi =>
    (hplaces i hi).trans_le (Nat.div_le_self _ _)]
  rcases Nat.lt_or_ge e (x.length / 2) with hfirst | hrest
  · have hcell := exchangeRows_cell happart (u := false) (v := true) (r := false) trivial
      trivial trivial hfirst hnodup hplaces memory
    rw [if_pos ((hmem e).mpr hfirst), Equiv.swap_apply_left] at hcell
    exact hcell
  · rcases Nat.lt_or_ge (x.length - 1 - e) (x.length / 2) with hlast | hmiddle
    · have hcell := exchangeRows_cell happart (u := false) (v := true) (r := true) trivial
        trivial trivial hlast hnodup hplaces memory
      have hback : x.length - 1 - (x.length - 1 - e) = e := by omega
      rw [if_pos ((hmem _).mpr hlast), Equiv.swap_apply_right] at hcell
      simp only [if_true, hback] at hcell
      exact hcell
    · -- the middle element stays
      have hback : x.length - 1 - e = e := by omega
      rw [hback]
      refine exchangeRows_of_outside schedule (fun i hi => ⟨fun heq => ?_, fun heq => ?_⟩) memory
      · have hi' := hplaces i hi
        have hindex := cell_inj hpos hcells he (by simp only [Bool.false_eq_true, if_false]; omega)
          heq
        simp only [Bool.false_eq_true, if_false] at hindex
        omega
      · have hi' := hplaces i hi
        have hindex := cell_inj hpos hcells he (by simp only [if_true]; omega) heq
        simp only [if_true] at hindex
        omega

/-- The copies leave in every cell of the result the element from the other end. -/
theorem execApart_cell (hx : x.order = 'c' ∨ x.order = 'f') (hxpos : x.Positive)
    (hzpos : z.Positive) (hxews : x.HonestEws) (hzews : z.HonestEws) (hzcells : CellsApart z)
    (hlength : z.length = x.length) (hplaced : Placed x z dx result) (hne : dx ≠ result)
    (hschedule : schedule.Perm (List.range x.length)) (memory : Int → T) (he : e < x.length) :
    execApart schedule x z dx result memory
        (result + elementOffset false z.axes (numberOf z e)) =
      memory (dx + elementOffset false x.axes (numberOf x (x.length - 1 - e))) := by
  have hmem : ∀ i, i ∈ schedule ↔ i < x.length :=
    fun i => hschedule.mem_iff.trans List.mem_range
  rw [execApart_eq hx hxpos hzpos hxews hzews hlength fun i hi => (hmem i).mp hi]
  have hnodup : (schedule.map fun e => result +
      elementOffset false z.axes (numberOf z (x.length - 1 - e))).Nodup := by
    refine List.Nodup.map_on (fun i hi j hj heq => ?_) (hschedule.nodup_iff.mpr List.nodup_range)
    have hi' := (hmem i).mp hi
    have hj' := (hmem j).mp hj
    have hindex := cell_inj hzpos hzcells (by omega) (by omega) heq
    omega
  have hreads : ∀ i ∈ schedule, ∀ j ∈ schedule,
      result + elementOffset false z.axes (numberOf z (x.length - 1 - i)) ≠
        result + elementOffset false z.axes (numberOf z (x.length - 1 - j)) →
      Stores.Ignores (fun m : Int → T => m (dx + elementOffset false x.axes (numberOf x i)))
        (result + elementOffset false z.axes (numberOf z (x.length - 1 - j))) := by
    intro i hi j hj _ m b
    have hi' := (hmem i).mp hi
    have hj' := (hmem j).mp hj
    exact Function.update_of_ne (hplaced.cells_ne hne hxpos hzpos (numberOf_lt hxpos hi')
      (numberOf_lt hzpos (by omega))) _ _
  have hstored := Stores.storeAll_of_independent hnodup hreads memory
    ((hmem (x.length - 1 - e)).mpr (by omega))
  have hback : x.length - 1 - (x.length - 1 - e) = e := by omega
  simp only [hback] at hstored
  exact hstored

theorem execInPlace_nil (x : ShapeInfo) (dx : Int) (memory : Int → T) :
    execInPlace [] x dx memory = memory := by
  rw [execInPlace]
  split
  · rfl
  · split <;> rfl

/-- A result at the place of the input is the input. -/
theorem Placed.eq_of_same (hplaced : Placed x z dx result) (hsame : dx = result) (hx : x.Positive)
    (hz : z.Positive) : x = z := by
  rcases hplaced with ⟨-, hinfo⟩ | hapart
  · exact hinfo
  · have hxstart := elementOffset_zero hx.length_pos false
    have hzstart := elementOffset_zero hz.length_pos false
    rw [elementOffset_eq_dot] at hxstart hzstart
    refine absurd ?_ (hapart _ _ ((bijOn_coordinateOf false hx).mapsTo hx.length_pos)
      ((bijOn_coordinateOf false hz).mapsTo hz.length_pos))
    rw [hxstart, hzstart, hsame]

/-- What a call leaves in the cells of the result, in the orders of the two arrays. -/
theorem execSpecial_cell (hx : x.order = 'c' ∨ x.order = 'f') (hxpos : x.Positive)
    (hzpos : z.Positive) (hxews : x.HonestEws) (hzews : z.HonestEws) (hzcells : CellsApart z)
    (hlength : z.length = x.length) (hplaced : Placed x z dx result)
    (hslot : dx = result → x.elementWiseStride ≥ 1 ∨ x.length ≤ 1)
    (hschedule : schedule.Perm (List.range (iterations x dx result))) (memory : Int → T)
    (he : e < x.length) :
    execSpecial schedule x z dx result memory
        (result + elementOffset false z.axes (numberOf z e)) =
      memory (dx + elementOffset false x.axes (numberOf x (x.length - 1 - e))) := by
  rw [execSpecial]
  rw [iterations] at hschedule
  by_cases hsame : dx = result
  · obtain rfl := hplaced.eq_of_same hsame hxpos hzpos
    subst hsame
    rw [if_pos rfl] at hschedule ⊢
    rcases hslot rfl with hews | hone
    · exact execInPlace_cell hx hxpos hxews hzcells hews hschedule memory he
    · rw [Nat.div_eq_of_lt (by omega)] at hschedule
      have hzero : x.length - 1 - e = e := by omega
      rw [hschedule.eq_nil, hzero, execInPlace_nil]
  · rw [if_neg hsame] at hschedule ⊢
    exact execApart_cell hx hxpos hzpos hxews hzews hzcells hlength hplaced hsame hschedule memory he

/-- Without a stride the first element stays where it is. -/
theorem execInPlace_first (hpos : x.Positive) (hcells : CellsApart x)
    (hslot : ¬ x.elementWiseStride ≥ 1) (hschedule : schedule.Perm (List.range (x.length / 2)))
    (memory : Int → T) :
    execInPlace schedule x dx memory (dx + elementOffset false x.axes 0) =
      memory (dx + elementOffset false x.axes 0) := by
  have hone : x.elementWiseStride ≠ 1 := by omega
  have hmore : ¬ x.elementWiseStride > 1 := by omega
  simp only [execInPlace, if_neg hone, if_neg hmore]
  refine Stores.storeAll_of_not_written (fun e he heq => ?_) memory
  have hlt := List.mem_range.mp (hschedule.mem_iff.mp he)
  rw [offsetOf_eq hpos (by omega), ← numberOf_zero hpos] at heq
  have hindex := cell_inj hpos hcells (by omega) hpos.length_pos heq
  omega

end Calls

/-! ## When the call is right -/

section Right

variable {x z : ShapeInfo} {dx result : Int}

/-- A matrix whose rows lie three cells apart. -/
def paddedMatrix : ShapeInfo where
  shape := [2, 2]
  stride := [3, 1]
  offset := 0
  elementWiseStride := 0
  order := 'c'
  stride_length := by decide

/-- A dense matrix in F order. -/
def columnMatrix : ShapeInfo where
  shape := [2, 2]
  stride := [1, 2]
  offset := 0
  elementWiseStride := 1
  order := 'f'
  stride_length := by decide

theorem cellsApart_paddedMatrix : CellsApart paddedMatrix :=
  cellsApart_of_nodup (by decide) (by decide)

theorem cellsApart_columnMatrix : CellsApart columnMatrix :=
  cellsApart_of_nodup (by decide) (by decide)

end Right

end Reverse

end Loops
end LibND4J
