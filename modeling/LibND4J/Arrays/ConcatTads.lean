import LibND4J.Arrays.Concat
import LibND4J.Shape.TadOffset

/-!
# Concatenating tensor by tensor

Arrays that are no vectors are concatenated along each tensor of the dimension.  The walk over a
tensor depends on what its shape information says: an element-wise stride and an order that
agree with the result are taken at their word, and otherwise both tensors are walked by their
strides.

Main results:

- Theorem `tadCopies_spec`: what is copied from one tensor.
- Theorem `concatenates_iff`: the arrays for which every path agrees with the law.
-/

namespace LibND4J
namespace Arrays

open Strided Selection Shape Blocks

/-! ## One tensor -/

/-- The walk by the stride of the result stays at the first cell. -/
def Stuck (order : Char) (k : Nat × Int) (inner : List Nat) : Prop :=
  k.1 ≠ 1 ∧ inner.getLastD 1 ≠ 1 ∧ order = 'c' ∧ k.2 ≤ 0

/-- The pairs of cells for a tensor of `n` elements, `s` cells apart in the input and `t` in the
result. -/
def Walks (n : Nat) (s t data target : Int) (moves : List (Int × Int)) : Prop :=
  ∀ m, m ∈ moves ↔ ∃ e : Nat, e < n ∧ m = (data + e * s, target + e * t)

section Tensor

variable {x z : ShapeInfo} {n n' : Nat} {s t : Int}

/-- Walking both operands by their strides. -/
theorem prepareTwoRawArrayIter_spec {axes : List (Nat × Int × Int)} (hn : 0 < n)
    (hsqueeze : squeeze axes = squeeze [(n, s, t)]) (data target : Int) :
    ∃ moves, (odometer n (prepareTwoRawArrayIter axes (data, target)).1
        (prepareTwoRawArrayIter axes (data, target)).2).map
          (fun visits => visits.map Prod.snd) = some moves ∧ Walks n s t data target moves := by
  have hvolume : volume axes = n := by
    rw [← volume_squeeze, hsqueeze, volume_squeeze, volume_cons, volume_nil, Nat.mul_one]
  have hpos : ∀ a ∈ axes, 0 < a.1 := by
    intro a ha
    apply Nat.pos_of_ne_zero
    intro hzero
    rw [volume, List.prod_eq_zero (hzero ▸ List.mem_map_of_mem ha)] at hvolume
    omega
  obtain ⟨axes', p', visits, hturn, hrun, hperm⟩ := odometer_turnAxes
    (fun s : Int × Int => s.1 < 0) hpos (data, target) (Nat.le_of_eq hvolume)
  refine ⟨visits, ?_, fun m => ?_⟩
  · simp only [prepareTwoRawArrayIter, hturn]
    exact hrun
  · rw [hperm.mem_iff, hvolume, List.mem_map]
    have hoffset : ∀ e < n, (data, target) + offsetAt axes e = (data + e * s, target + e * t) := by
      intro e he
      rw [offsetAt_congr_squeeze hsqueeze (hvolume.symm ▸ he), offsetAt_cons, volume_nil,
        Nat.div_one, Nat.mod_one, offsetAt_zero, add_zero]
      simp
    constructor
    · rintro ⟨e, he, rfl⟩
      have he := List.mem_range.mp he
      exact ⟨e, he, hoffset e he⟩
    · rintro ⟨e, he, rfl⟩
      exact ⟨e, List.mem_range.mpr he, hoffset e he⟩

variable {order : Char}

/-- A scalar is one element, copied by the strides. -/
theorem tadCopies_scalar (horder : order = 'c' ∨ order = 'f') (hx : x.axes = [(1, 1), (1, 1)])
    (hslot : x.order = 'a') {a b : Nat × Int} {axes : List (Nat × Int)}
    (hz : z.axes = a :: b :: axes) (whole : Bool) (data target : Int) :
    ∃ moves, tadCopies order x z whole data target = some moves ∧
      Walks 1 s t data target moves := by
  have hne : order ≠ x.order := by
    rw [hslot]
    rintro rfl
    simp at horder
  have hlength : x.length = 1 := by
    rw [← x.volume_axes, hx]
    rfl
  have hzip : operandAxes x z = [(1, 1, a.2), (1, 1, b.2)] := by
    rw [operandAxes, hx, hz]
    rfl
  have hspec := @prepareTwoRawArrayIter_spec 1 s t (operandAxes x z) Nat.one_pos
    (by rw [hzip]; simp [squeeze]) data target
  unfold tadCopies
  simp only
  rw [if_neg (fun h => hne h.2), if_neg (fun h => hne h.2), hlength]
  exact hspec

theorem getOrder_row_eq_c_iff (hn : n ≠ 0) : getOrder [(1, 1), (n, s)] 1 = 'c' ↔ s ≠ 1 := by
  rw [getOrder_eq_c_iff]
  simp [contiguousFrom, hn]

/-- Cells at the multiples of the element-wise strides. -/
theorem walks_map_range (n : Nat) (s t data target : Int) :
    Walks n s t data target
      ((List.range n).map fun (k : Nat) => (data + k * s, target + k * t)) := by
  intro m
  rw [List.mem_map]
  constructor
  · rintro ⟨e, he, rfl⟩
    exact ⟨e, List.mem_range.mp he, rfl⟩
  · rintro ⟨e, he, rfl⟩
    exact ⟨e, List.mem_range.mpr he, rfl⟩

/-- A row is copied by the element-wise strides if the orders agree, and by the strides
otherwise; in the result the walk stays where it is if the row has none. -/
theorem tadCopies_row (hn : 0 < n) (ht : 0 < t) (hx : x.axes = [(1, 1), (n, s)])
    (hxews : x.elementWiseStride = s) (hxorder : x.order = getOrder x.axes 1)
    (hz : z.axes = [(1, 1), (n', t)]) (hzews : z.elementWiseStride = t) (whole : Bool)
    (data target : Int) :
    ∃ moves, tadCopies order x z whole data target = some moves ∧
      (¬ (order = 'c' ∧ s ≤ 0) → Walks n s t data target moves) ∧
      (order = 'c' ∧ s ≤ 0 → ∀ m ∈ moves, m.2 = target) := by
  have hlength : x.length = n := by
    rw [← x.volume_axes, hx]
    simp
  have hpos : ∀ a ∈ x.axes, 0 < a.1 := by
    rw [hx]
    simp [hn]
  have hzip : operandAxes x z = [(1, 1, 1), (n, s, t)] := by
    rw [operandAxes, hx, hz]
    rfl
  have hc : x.order = 'c' ↔ s ≠ 1 := by
    rw [hxorder, hx, getOrder_row_eq_c_iff hn.ne']
  unfold tadCopies
  simp only [hxews, hzews, hlength]
  by_cases hsame : order = x.order
  · by_cases hs : s > 0
    · rw [if_pos ⟨hs, hsame⟩]
      have hfree : ¬ (order = 'c' ∧ s ≤ 0) := fun h => absurd h.2 (not_le.mpr hs)
      split
      · rename_i hone
        refine ⟨_, rfl, fun _ => ?_, fun h => absurd h hfree⟩
        have hwalk := walks_map_range n s t data target
        simp only [hone.1, hone.2, mul_one] at hwalk ⊢
        exact hwalk
      · rw [if_pos ⟨ht, hsame⟩]
        exact ⟨_, rfl, fun _ => walks_map_range n s t data target, fun h => absurd h hfree⟩
    · rw [if_neg (fun h => hs h.1), if_pos ⟨ht, hsame⟩]
      have hstuck : order = 'c' ∧ s ≤ 0 := ⟨hsame.trans (hc.mpr (by omega)), by omega⟩
      split
      · refine ⟨_, rfl, fun h => absurd hstuck h, fun _ m hm => ?_⟩
        obtain ⟨e, -, rfl⟩ := List.mem_map.mp hm
        rfl
      · rw [Loops.prepareOneRawArrayIter, odometer_eq x.axes data hpos
          (by rw [x.volume_axes, hlength])]
        refine ⟨_, rfl, fun h => absurd hstuck h, fun _ m hm => ?_⟩
        obtain ⟨e, -, rfl⟩ := List.mem_map.mp hm
        rfl
  · rw [if_neg (fun h => hsame h.2), if_neg (fun h => hsame h.2)]
    have hfree : ¬ (order = 'c' ∧ s ≤ 0) := by
      rintro ⟨rfl, hs⟩
      exact hsame (hc.mpr (by omega)).symm
    obtain ⟨moves, hmoves, hwalk⟩ := @prepareTwoRawArrayIter_spec n s t (operandAxes x z) hn
      (by rw [hzip]; simp [squeeze]) data target
    exact ⟨moves, hmoves, fun _ => hwalk, fun h => absurd h hfree⟩

theorem squeeze_zipWith {us ws : List (Nat × Int)} (hlength : us.length = ws.length)
    (hunits : volume us = 1) :
    squeeze (List.zipWith (fun a b => (a.1, a.2, b.2)) us ws) = [] := by
  induction us generalizing ws with
  | nil => rfl
  | cons u us ih =>
      rw [volume_cons] at hunits
      obtain ⟨hu, hrest⟩ := mul_eq_one.mp hunits
      cases ws with
      | nil => rfl
      | cons w ws =>
          have htail := ih (by simpa using hlength) hrest
          simpa [squeeze, hu] using htail

/-- Axes that stand at the same place are walked together. -/
theorem squeeze_operandAxes {places : Nat × Nat} (hx : LaidOut (n, s) x places)
    (hz : LaidOut (n', t) z places) : squeeze (operandAxes x z) = squeeze [(n, s, t)] := by
  generalize hplaces : places = places' at hz
  cases hx with
  | intro us us' hus hus' hxaxes =>
      cases hz with
      | intro ws ws' hws hws' hzaxes =>
          obtain ⟨hlength, hlength'⟩ := Prod.mk.inj hplaces
          have hfirst := squeeze_zipWith hlength hus
          have hlast := squeeze_zipWith hlength' hus'
          rw [operandAxes, hxaxes, hzaxes, List.zipWith_append hlength, List.zipWith_cons_cons]
          simp only [squeeze, List.filter_append] at hfirst hlast ⊢
          rw [hfirst, List.nil_append, List.filter_cons, List.filter_cons, hlast]
          rfl

/-- Among axes of extent one, both operands are walked by their strides. -/
theorem tadCopies_padded (hn : 0 < n) {places : Nat × Nat} (hx : LaidOut (n, s) x places)
    (hz : LaidOut (n', t) z places) (hxews : x.elementWiseStride = -1)
    (hzews : z.elementWiseStride = -1) (whole : Bool) (data target : Int) :
    ∃ moves, tadCopies order x z whole data target = some moves ∧
      Walks n s t data target moves := by
  have hlength : x.length = n := by
    rw [← x.volume_axes]
    cases hx with
    | intro us us' hus hus' hxaxes =>
        rw [hxaxes, volume_append, volume_cons, hus, hus', Nat.one_mul, Nat.mul_one]
  unfold tadCopies
  simp only [hxews, hzews, hlength]
  rw [if_neg (by simp), if_neg (by simp)]
  exact prepareTwoRawArrayIter_spec hn (squeeze_operandAxes hx hz) data target

/-- One tensor is copied element by element, unless the walk in the result is stuck. -/
theorem tadCopies_spec {left left' : List (Nat × Int)} (hn : 0 < n) (ht : 0 < t)
    {places : Nat × Nat} (hdims : dims left' = dims left) (hx : AlongAxis (n, s) left x)
    (hxlaid : LaidOut (n, s) x places) (hz : AlongAxis (n', t) left' z)
    (hzlaid : LaidOut (n', t) z places) (hne : n ≠ 1) (whole : Bool) (data target : Int) :
    ∃ moves, tadCopies order x z whole data target = some moves ∧
      (¬ Stuck order (n, s) (dims left) → Walks n s t data target moves) ∧
      (Stuck order (n, s) (dims left) → ∀ m ∈ moves, m.2 = target) := by
  cases hx with
  | row hlast hxaxes hxews hxorder =>
      cases hz with
      | row _ hzaxes hzews _ =>
          obtain ⟨moves, hmoves, hwalk, hstuck⟩ := @tadCopies_row x z n n' s t order hn ht hxaxes
            hxews hxorder hzaxes hzews whole data target
          refine ⟨moves, hmoves, fun hfree => hwalk fun h => hfree ⟨hne, hlast, h⟩, ?_⟩
          rintro ⟨-, -, h⟩
          exact hstuck h
      | padded hone => exact absurd (hdims ▸ hone) hlast
  | padded hone units hunits hvolume hxaxes hxews hxorder =>
      cases hz with
      | row hlast => exact absurd hone (hdims ▸ hlast)
      | padded _ units' _ _ _ hzews _ =>
          obtain ⟨moves, hmoves, hwalk⟩ := @tadCopies_padded x z n n' s t order hn places hxlaid
            hzlaid hxews hzews whole data target
          refine ⟨moves, hmoves, fun _ => hwalk, ?_⟩
          rintro ⟨-, hlast, -⟩
          exact absurd hone hlast

end Tensor

/-! ## The tensors of an array -/

/-- What the tensors along the axis `k` share: a scalar, or the axis where the left-over axes
leave it. -/
inductive TensorOf (k : Nat × Int) (left : List (Nat × Int)) (info : ShapeInfo) : Prop
  | scalar (hone : k.1 = 1) (axes_eq : info.axes = [(1, 1), (1, 1)]) (order_eq : info.order = 'a')
  | along (hne : k.1 ≠ 1) (along : AlongAxis k left info)
      (laidOut : LaidOut k info (layoutBehind (dims left).tail))

theorem TensorOf.length_eq {k : Nat × Int} {left : List (Nat × Int)} {info : ShapeInfo}
    (h : TensorOf k left info) : info.length = k.1 := by
  rw [← info.volume_axes]
  cases h with
  | scalar hone axes_eq _ =>
      rw [axes_eq, hone]
      rfl
  | along _ _ laidOut =>
      generalize layoutBehind (dims left).tail = places at laidOut
      cases laidOut with
      | intro us us' hus hus' axes_eq =>
          rw [axes_eq, volume_append, volume_cons, hus, hus', Nat.one_mul, Nat.mul_one]

theorem exists_two_axes {k : Nat × Int} {left : List (Nat × Int)} {info : ShapeInfo}
    (h : AlongAxis k left info) : ∃ a b axes, info.axes = a :: b :: axes := by
  cases h with
  | row _ axes_eq => exact ⟨_, _, _, axes_eq⟩
  | padded _ units hne _ axes_eq =>
      obtain ⟨u, units, rfl⟩ := List.exists_cons_of_ne_nil hne
      rcases axes_eq with axes_eq | axes_eq
      · cases units with
        | nil => exact ⟨_, _, _, axes_eq⟩
        | cons u' units => exact ⟨_, _, _, axes_eq⟩
      · exact ⟨_, _, _, axes_eq⟩

section Tensors

variable {info : ShapeInfo} {d : Nat}

theorem leftOver_singleDimension {α : Type} {rank : Nat} (h : d < rank) (xs : List α) :
    (singleDimension d h).leftOver xs = xs.eraseIdx d := by
  apply pick_eq_eraseIdx
  intro j _
  simp [Dimensions.mem, singleDimension]

theorem getD_axes (info : ShapeInfo) (d : Nat) :
    info.axes.getD d default = (info.shape.getD d 0, info.stride.getD d 0) := by
  have hlength := info.stride_length
  rw [ShapeInfo.axes]
  generalize info.shape = shape at hlength
  generalize info.stride = stride at hlength
  induction d generalizing shape stride with
  | zero =>
      cases shape with
      | nil =>
          rw [List.eq_nil_of_length_eq_zero hlength]
          rfl
      | cons n shape =>
          obtain ⟨s, stride, rfl⟩ := List.exists_cons_of_length_pos
            (show 0 < stride.length by rw [hlength]; exact Nat.zero_lt_succ _)
          rfl
  | succ d ih =>
      cases shape with
      | nil =>
          rw [List.eq_nil_of_length_eq_zero hlength]
          rfl
      | cons n shape =>
          obtain ⟨s, stride, rfl⟩ := List.exists_cons_of_length_pos
            (show 0 < stride.length by rw [hlength]; exact Nat.zero_lt_succ _)
          exact ih shape stride (by simpa using hlength)

theorem kept_init (h : d < info.rank) :
    (TAD.init info (singleDimension d h)).kept =
      [(info.shape.getD d 0, info.stride.getD d 0)] := by
  rw [@TAD.kept_singleton (TAD.init info (singleDimension d h)) d rfl]
  exact congrArg (fun k => [k]) (getD_axes info d)

theorem leftOver_init (h : d < info.rank) :
    (TAD.init info (singleDimension d h)).leftOver = info.axes.eraseIdx d :=
  leftOver_singleDimension h info.axes

theorem dims_eraseIdx (info : ShapeInfo) (d : Nat) :
    dims (info.axes.eraseIdx d) = info.shape.eraseIdx d := by
  rw [dims, ← List.eraseIdx_map, ← dims, info.dims_axes]

theorem volume_leftOver_init (h : d < info.rank) :
    volume (TAD.init info (singleDimension d h)).leftOver = (info.shape.eraseIdx d).prod := by
  rw [leftOver_init h, volume, dims_eraseIdx]

theorem numTads_single (hpos : info.Positive) (h : d < info.rank) :
    (TAD.init info (singleDimension d h)).numTads = (info.shape.eraseIdx d).prod := by
  rw [numTads_init hpos, volume_leftOver_init h]

/-- What the tensors along one dimension share. -/
theorem exists_tensorOf (hpos : info.Positive) (hrank : 2 ≤ info.rank)
    (hmax : info.rank ≤ maxDimension) (h : d < info.rank)
    (hother : isVector info = false ∨ (info.shape.eraseIdx d).prod ≠ 1) :
    ∃ x, (TAD.init info (singleDimension d h)).shapeInfoOnlyShapeAndStride = some x ∧
      TensorOf (info.shape.getD d 0, info.stride.getD d 0) (info.axes.eraseIdx d) x := by
  have hother : isVector (TAD.init info (singleDimension d h)).shapeInfo = false ∨
      volume (TAD.init info (singleDimension d h)).leftOver ≠ 1 := by
    rw [volume_leftOver_init h]
    exact hother
  by_cases hone : info.shape.getD d 0 = 1
  · refine ⟨_, shapeInfoOnlyShapeAndStride_unit hrank hmax rfl (kept_init h) hone hother, ?_⟩
    exact TensorOf.scalar hone rfl rfl
  · obtain ⟨x, hx, halong, hlaid⟩ := shapeInfoOnlyShapeAndStride_laidOut hpos hrank hmax rfl
      (kept_init h) hone (firstSlice_init _) hother
    rw [leftOver_init h] at halong hlaid
    exact ⟨x, hx, TensorOf.along hone halong hlaid⟩

theorem base_singleDimension (h : d < info.rank) (j : Nat) :
    (TAD.init info (singleDimension d h)).base
      (decode ((singleDimension d h).leftOver info.shape) j) =
      dot (decode (info.shape.eraseIdx d) j) (info.stride.eraseIdx d) := by
  rw [leftOver_singleDimension h, TAD.base]
  exact congrArg _ (leftOver_singleDimension h info.stride)

/-- The tensors along one dimension start at their left-over coordinates unless the shortcut
for whole arrays meets an F order. -/
theorem createOffsets_single_iff (hpos : info.Positive) (hews : info.HonestEws)
    (h : d < info.rank) :
    (∀ j < (info.shape.eraseIdx d).prod,
      (TAD.init info (singleDimension d h)).createOffsets.getD j 0 =
        dot (decode (info.shape.eraseIdx d) j) (info.stride.eraseIdx d)) ↔
      (2 < info.rank → info.shape.getD d 0 = 1 → info.elementWiseStride = 1 →
        info.isFOrder = false ∨ (squeeze (info.axes.eraseIdx d)).length ≤ 1) := by
  have hnum := numTads_single hpos h
  have hleft := volume_leftOver_init h
  have hbase := @base_singleDimension info d h
  by_cases hone : (info.shape.eraseIdx d).prod = 1
  · have hsqueeze : squeeze (info.axes.eraseIdx d) = [] := by
      apply squeeze_eq_nil
      rw [volume, dims_eraseIdx, hone]
    refine ⟨fun _ _ _ _ => Or.inr (by rw [hsqueeze]; exact Nat.zero_le 1), fun _ j hj => ?_⟩
    have hstart := startsAtCoordinates_of_one hpos (hleft.trans hone) j (hnum.symm ▸ hj)
    rw [dot_start hpos (hleft.symm ▸ hj), hbase] at hstart
    rw [getD_createOffsets _ (hnum.symm ▸ hj), hstart]
  · have hrank : 1 < info.rank := by
      by_contra hrank
      have hlength : (info.shape.eraseIdx d).length = 0 := by
        rw [List.length_eraseIdx_of_lt h]
        exact Nat.sub_eq_zero_of_le (Nat.not_lt.mp hrank)
      rw [List.eq_nil_of_length_eq_zero hlength] at hone
      exact hone rfl
    have hiff := tadOffset_eq_base_iff hpos hews
      (show (singleDimension d h).toList.length < info.rank from hrank) (hleft.trans_ne hone)
    have hkept : volume (TAD.init info (singleDimension d h)).kept = info.shape.getD d 0 := by
      rw [kept_init h, volume_cons, volume_nil, Nat.mul_one]
    rw [hleft, hkept, leftOver_init h] at hiff
    rw [← hiff.trans (and_iff_left (Or.inl rfl))]
    refine forall_congr' fun j => forall_congr' fun hj => ?_
    rw [hbase, getD_createOffsets _ (hnum.symm ▸ hj)]

/-! ### One input -/

theorem mapM_eq_map {α β : Type} {f : α → Option β} {g : α → β} {xs : List α}
    (h : ∀ a ∈ xs, f a = some (g a)) : xs.mapM f = some (xs.map g) := by
  induction xs with
  | nil => rfl
  | cons a xs ih =>
      rw [List.mapM_cons, h a List.mem_cons_self, ih fun b hb => h b (List.mem_cons_of_mem _ hb)]
      rfl

/-- The tensors of an input are copied from their offsets to those of the result. -/
theorem tadInput_spec {order : Char} (horder : order = 'c' ∨ order = 'f') {arrTad : TAD}
    {x z : ShapeInfo} {k k' : Nat × Int} {left left' : List (Nat × Int)}
    (hx : TensorOf k left x) (hz : TensorOf k' left' z) (hdims : dims left' = dims left)
    (hk : 0 < k.1) (hk' : k'.1 ≠ 1) (ht : 0 < k'.2) (resultOffsets : List Int)
    (array : Nat) {arrOffset : Nat}
    (hbase : getOffset 0 z.shape z.stride (ind2subC z.shape arrOffset) = arrOffset * k'.2) :
    ∃ copies, tadInput order arrTad x z resultOffsets array arrOffset = some copies ∧
      (¬ Stuck order k (dims left) → ∀ v : Copy, v ∈ copies ↔
        ∃ j < arrTad.numTads, ∃ e < k.1, v = ⟨array, arrTad.createOffsets.getD j 0 + e * k.2,
          resultOffsets.getD j 0 + arrOffset * k'.2 + e * k'.2⟩) ∧
      (Stuck order k (dims left) → ∀ v ∈ copies, v.array = array ∧ ∃ j < arrTad.numTads,
        v.target = resultOffsets.getD j 0 + arrOffset * k'.2) := by
  have hmoves : ∀ data target, ∃ moves,
      tadCopies order x z arrTad.wholeThing data target = some moves ∧
      (¬ Stuck order k (dims left) → Walks k.1 k.2 k'.2 data target moves) ∧
      (Stuck order k (dims left) → ∀ m ∈ moves, m.2 = target) := by
    intro data target
    cases hz with
    | scalar hone => exact absurd hone hk'
    | along _ hzalong hzlaid =>
        cases hx with
        | scalar hone axes_eq order_eq =>
            obtain ⟨a, b, axes, hzaxes⟩ := exists_two_axes hzalong
            obtain ⟨moves, hmoves, hwalk⟩ := @tadCopies_scalar x z k.2 k'.2 order horder axes_eq
              order_eq a b axes hzaxes arrTad.wholeThing data target
            exact ⟨moves, hmoves, fun _ => hone.symm ▸ hwalk, fun hstuck => absurd hone hstuck.1⟩
        | along hne hxalong hxlaid =>
            rw [hdims] at hzlaid
            exact tadCopies_spec hk ht hdims hxalong hxlaid hzalong hzlaid hne _ data target
  choose moves hmoves hwalk hstuck using hmoves
  refine ⟨((List.range arrTad.numTads).map fun j => moves (arrTad.createOffsets.getD j 0)
    (resultOffsets.getD j 0 + arrOffset * k'.2)).flatten.map fun m => ⟨array, m.1, m.2⟩, ?_, ?_, ?_⟩
  · unfold tadInput
    simp only [hbase]
    rw [mapM_eq_map fun j _ => hmoves _ _, Option.map_some]
  · intro hfree v
    rw [List.mem_map]
    constructor
    · rintro ⟨m, hm, rfl⟩
      obtain ⟨l, hl, hm⟩ := List.mem_flatten.mp hm
      obtain ⟨j, hj, rfl⟩ := List.mem_map.mp hl
      obtain ⟨e, he, rfl⟩ := (hwalk _ _ hfree m).mp hm
      exact ⟨j, List.mem_range.mp hj, e, he, rfl⟩
    · rintro ⟨j, hj, e, he, rfl⟩
      refine ⟨_, List.mem_flatten.mpr ⟨_, List.mem_map.mpr ⟨j, List.mem_range.mpr hj, rfl⟩,
        (hwalk _ _ hfree _).mpr ⟨e, he, rfl⟩⟩, rfl⟩
  · intro h v hv
    obtain ⟨m, hm, rfl⟩ := List.mem_map.mp hv
    obtain ⟨l, hl, hm⟩ := List.mem_flatten.mp hm
    obtain ⟨j, hj, rfl⟩ := List.mem_map.mp hl
    exact ⟨rfl, j, List.mem_range.mp hj, hstuck _ _ h m hm⟩

end Tensors

/-! ## All inputs -/

/-- The offsets of the tensors of an array along a dimension. -/
def offsetsAlong (dimension : Nat) (info : ShapeInfo) : List Int :=
  if h : dimension < info.rank then (TAD.init info (singleDimension dimension h)).createOffsets
  else []

/-- The coordinate of an element of a tensor. -/
def tensorCoordinate (dimension : Nat) (result : ShapeInfo) (j e : Nat) : List Nat :=
  (decode (result.shape.eraseIdx dimension) j).insertIdx dimension e

/-- The walk through an input is stuck in the result. -/
def StuckInput (dimension : Nat) (result info : ShapeInfo) : Prop :=
  Stuck result.order (info.shape.getD dimension 0, info.stride.getD dimension 0)
    (info.shape.eraseIdx dimension)

/-- What the copies of an input do: they stay in its cells, and unless they are stuck there they
fill each of them from the tensor of the cell. -/
structure FillsInput (dimension : Nat) (inputs : List ShapeInfo) (result : ShapeInfo) (i : Nat)
    (info : ShapeInfo) (copies : List Copy) : Prop where
  target_eq : ∀ v ∈ copies, ∃ j < (result.shape.eraseIdx dimension).prod,
    ∃ e < info.shape.getD dimension 0,
      v.target = cellOf dimension inputs result i (tensorCoordinate dimension result j e) ∧
        (StuckInput dimension result info → e = 0)
  mem_iff : ¬ StuckInput dimension result info → ∀ v : Copy, v ∈ copies ↔
    ∃ j < (result.shape.eraseIdx dimension).prod, ∃ e < info.shape.getD dimension 0,
      v = ⟨i, (offsetsAlong dimension info).getD j 0 + e * info.stride.getD dimension 0,
        cellOf dimension inputs result i (tensorCoordinate dimension result j e)⟩

/-- The copies of the inputs, one part for each. -/
structure FillsTensors (dimension : Nat) (inputs : List ShapeInfo) (result : ShapeInfo)
    (parts : List (List Copy)) : Prop where
  length_eq : parts.length = inputs.length
  part : ∀ i copies, parts[i]? = some copies → ∀ hi : i < inputs.length,
    FillsInput dimension inputs result i inputs[i] copies

/-- The tensors of an input are copied as they should be: tensors of one element start where
they should, and the walk along a tensor is not stuck. -/
structure CopiesTensors (dimension : Nat) (result info : ShapeInfo) : Prop where
  starts : 2 < info.rank → info.shape.getD dimension 0 = 1 → info.elementWiseStride = 1 →
    info.isFOrder = false ∨ (squeeze (info.axes.eraseIdx dimension)).length ≤ 1
  walks : info.shape.getD dimension 0 ≠ 1 → (info.shape.eraseIdx dimension).getLastD 1 ≠ 1 →
    result.order = 'c' → 0 < info.stride.getD dimension 0

section Law

variable {dimension : Nat} {inputs : List ShapeInfo} {result : ShapeInfo} {info : ShapeInfo}

variable (h : Concatenable dimension inputs result)

include h

theorem Concatenable.eraseIdx_eq (hinfo : info ∈ inputs) :
    info.shape.eraseIdx dimension = result.shape.eraseIdx dimension := by
  rw [h.shape_eq info hinfo, List.eraseIdx_set_eq]

theorem Concatenable.inner_positive : ∀ n ∈ result.shape.eraseIdx dimension, 0 < n :=
  fun n hn => h.result_positive n (List.mem_of_mem_eraseIdx hn)

/-- The coordinates of the tensors of an input are those of the input. -/
theorem Concatenable.inBox_tensorCoordinate (hinfo : info ∈ inputs) {j e : Nat}
    (hj : j < (result.shape.eraseIdx dimension).prod) (he : e < info.shape.getD dimension 0) :
    InBox info.shape (tensorCoordinate dimension result j e) := by
  refine inBox_insertIdx ?_ he
  rw [h.eraseIdx_eq hinfo]
  exact inBox_decode h.inner_positive hj

theorem Concatenable.exists_tensorCoordinate (hinfo : info ∈ inputs) {c : List Nat}
    (hc : InBox info.shape c) :
    ∃ j < (result.shape.eraseIdx dimension).prod, ∃ e < info.shape.getD dimension 0,
      c = tensorCoordinate dimension result j e := by
  obtain ⟨us, e, hu, he, rfl⟩ := exists_insertIdx hc (h.dimension_lt_rank hinfo)
  rw [h.eraseIdx_eq hinfo] at hu
  exact ⟨_, encode_lt hu, e, he, by rw [tensorCoordinate, decode_encode hu]⟩

theorem Concatenable.le_length_decode (j : Nat) :
    dimension ≤ (decode (result.shape.eraseIdx dimension) j).length := by
  have hlt : dimension < result.shape.length := h.dimension_lt
  rw [length_decode, List.length_eraseIdx_of_lt hlt]
  omega

/-- A tensor and an index along it make up a coordinate in one way. -/
theorem Concatenable.tensorCoordinate_inj {j j' e e' : Nat}
    (hj : j < (result.shape.eraseIdx dimension).prod)
    (hj' : j' < (result.shape.eraseIdx dimension).prod)
    (heq : tensorCoordinate dimension result j e = tensorCoordinate dimension result j' e') :
    j = j' ∧ e = e' := by
  have hindex := congrArg (·.getD dimension 0) heq
  have hrest := congrArg (·.eraseIdx dimension) heq
  simp only [tensorCoordinate, getD_insertIdx (h.le_length_decode _)] at hindex
  simp only [tensorCoordinate, List.eraseIdx_insertIdx_self] at hrest
  exact ⟨(bijOn_decode h.inner_positive).injOn hj hj' hrest, hindex⟩

/-- The cell of the result for an element of a tensor. -/
theorem Concatenable.cellOf_tensorCoordinate (i j e : Nat) :
    cellOf dimension inputs result i (tensorCoordinate dimension result j e) =
      dot (decode (result.shape.eraseIdx dimension) j) (result.stride.eraseIdx dimension) +
        axisStart dimension inputs i * result.stride.getD dimension 0 +
          e * result.stride.getD dimension 0 := by
  have hd := h.le_length_decode j
  have hlt : dimension < result.shape.length := h.dimension_lt
  have hlength : result.stride.length =
      (decode (result.shape.eraseIdx dimension) j).length + 1 := by
    rw [result.stride_length, length_decode, List.length_eraseIdx_of_lt hlt]
    omega
  rw [cellOf, tensorCoordinate, getD_insertIdx hd, set_insertIdx hd, dot_insertIdx hd hlength,
    nsmul_eq_mul, Nat.cast_add, add_mul, add_assoc]

/-- The cell of an input for an element of a tensor. -/
theorem Concatenable.dot_tensorCoordinate (hinfo : info ∈ inputs) (j e : Nat) :
    dot (tensorCoordinate dimension result j e) info.stride =
      dot (decode (info.shape.eraseIdx dimension) j) (info.stride.eraseIdx dimension) +
        e * info.stride.getD dimension 0 := by
  have hd := h.le_length_decode j
  have hlt := h.dimension_lt_rank hinfo
  have hlength : info.stride.length =
      (decode (result.shape.eraseIdx dimension) j).length + 1 := by
    rw [info.stride_length, length_decode, ← h.eraseIdx_eq hinfo, List.length_eraseIdx_of_lt hlt]
    omega
  rw [tensorCoordinate, dot_insertIdx hd hlength, nsmul_eq_mul, h.eraseIdx_eq hinfo]

omit h

variable {parts : List (List Copy)}

/-- The cell of an element is filled from the tensor of the input, unless the walk is stuck. -/
theorem FillsTensors.filledFrom_eq (hfills : FillsTensors dimension inputs result parts)
    (h : Concatenable dimension inputs result) (hdense : DenseResult result) {i : Nat}
    (hi : i < inputs.length) (hfree : ¬ StuckInput dimension result inputs[i]) {j e : Nat}
    (hj : j < (result.shape.eraseIdx dimension).prod) (he : e < inputs[i].shape.getD dimension 0) :
    filledFrom parts.flatten
        (cellOf dimension inputs result i (tensorCoordinate dimension result j e)) =
      some (i, (offsetsAlong dimension inputs[i]).getD j 0 +
        e * inputs[i].stride.getD dimension 0) := by
  have hbox := h.inBox_tensorCoordinate (List.getElem_mem hi) hj he
  have hparts : i < parts.length := hfills.length_eq.symm ▸ hi
  have hget : parts[i]? = some parts[i] := List.getElem?_eq_getElem hparts
  apply filledFrom_of_writers
  · have hmem := ((hfills.part i _ hget hi).mem_iff hfree _).mpr ⟨j, hj, e, he, rfl⟩
    exact ⟨_, List.mem_flatten.mpr ⟨_, List.getElem_mem hparts, hmem⟩, rfl⟩
  · intro v hv htarget
    obtain ⟨copies, hcopies, hv⟩ := List.mem_flatten.mp hv
    obtain ⟨i', hi', rfl⟩ := List.mem_iff_getElem.mp hcopies
    have hlt : i' < inputs.length := hfills.length_eq ▸ hi'
    have hget' : parts[i']? = some parts[i'] := List.getElem?_eq_getElem hi'
    obtain ⟨j', hj', e', he', hcell, -⟩ := (hfills.part i' _ hget' hlt).target_eq v hv
    have hbox' := h.inBox_tensorCoordinate (List.getElem_mem hlt) hj' he'
    obtain ⟨hsame, -⟩ := h.cellOf_inj hdense hlt hi hbox' hbox (hcell.symm.trans htarget)
    subst hsame
    obtain ⟨l, hl, m, hm, rfl⟩ := ((hfills.part i' _ hget hi).mem_iff hfree v).mp hv
    have hbox'' := h.inBox_tensorCoordinate (List.getElem_mem hi) hl hm
    obtain ⟨-, hcoord⟩ := h.cellOf_inj hdense hi hi hbox'' hbox htarget
    obtain ⟨rfl, rfl⟩ := h.tensorCoordinate_inj hl hj hcoord
    exact ⟨rfl, rfl⟩

/-- Where the walk is stuck, the cell of the second element of a tensor is not filled. -/
theorem FillsTensors.filledFrom_stuck (hfills : FillsTensors dimension inputs result parts)
    (h : Concatenable dimension inputs result) (hdense : DenseResult result) {i : Nat}
    (hi : i < inputs.length) (hstuck : StuckInput dimension result inputs[i]) :
    ∃ c, InBox inputs[i].shape c ∧
      filledFrom parts.flatten (cellOf dimension inputs result i c) = none := by
  have hinner : 0 < (result.shape.eraseIdx dimension).prod := prod_pos_of_pos h.inner_positive
  have hone : 1 < inputs[i].shape.getD dimension 0 := by
    have hpos := h.extent_pos (List.getElem_mem hi)
    have hne : inputs[i].shape.getD dimension 0 ≠ 1 := hstuck.1
    omega
  have hbox := h.inBox_tensorCoordinate (List.getElem_mem hi) hinner hone
  refine ⟨_, hbox, filledFrom_of_not_written fun v hv htarget => ?_⟩
  obtain ⟨copies, hcopies, hv⟩ := List.mem_flatten.mp hv
  obtain ⟨i', hi', rfl⟩ := List.mem_iff_getElem.mp hcopies
  have hlt : i' < inputs.length := hfills.length_eq ▸ hi'
  obtain ⟨j', hj', e', he', hcell, hzero⟩ :=
    (hfills.part i' _ (List.getElem?_eq_getElem hi') hlt).target_eq v hv
  have hbox' := h.inBox_tensorCoordinate (List.getElem_mem hlt) hj' he'
  obtain ⟨hsame, hcoord⟩ := h.cellOf_inj hdense hlt hi hbox' hbox (hcell.symm.trans htarget)
  subst hsame
  have hindex := (h.tensorCoordinate_inj hj' hinner hcoord).2
  rw [hzero hstuck] at hindex
  exact absurd hindex (by decide)

theorem not_stuckInput_iff :
    ¬ StuckInput dimension result info ↔ (info.shape.getD dimension 0 ≠ 1 →
      (info.shape.eraseIdx dimension).getLastD 1 ≠ 1 → result.order = 'c' →
        0 < info.stride.getD dimension 0) := by
  constructor
  · intro hfree hne hlast horder
    by_contra hle
    exact hfree ⟨hne, hlast, horder, not_lt.mp hle⟩
  · rintro hwalks ⟨hne, hlast, horder, hle⟩
    exact absurd (hwalks hne hlast horder) (not_lt.mpr hle)

/-- Copying tensor by tensor is right exactly if each tensor starts where it should and no walk
is stuck. -/
theorem FillsTensors.concatenates_iff_copiesTensors
    (hfills : FillsTensors dimension inputs result parts) (h : Concatenable dimension inputs result)
    (hdense : DenseResult result)
    (hcopies : concatCpuGeneric dimension inputs result = some parts.flatten) :
    Concatenates dimension inputs result ↔
      ∀ info ∈ inputs, CopiesTensors dimension result info := by
  have hoffsets : ∀ info ∈ inputs,
      (∀ j < (info.shape.eraseIdx dimension).prod, (offsetsAlong dimension info).getD j 0 =
        dot (decode (info.shape.eraseIdx dimension) j) (info.stride.eraseIdx dimension)) ↔
      (2 < info.rank → info.shape.getD dimension 0 = 1 → info.elementWiseStride = 1 →
        info.isFOrder = false ∨ (squeeze (info.axes.eraseIdx dimension)).length ≤ 1) := by
    intro info hinfo
    have hlt : dimension < info.rank := h.dimension_lt_rank hinfo
    rw [offsetsAlong, dif_pos hlt]
    exact createOffsets_single_iff (h.positive info hinfo) (h.honest info hinfo) hlt
  rw [concatenates_iff_filledFrom h hcopies]
  constructor
  · intro hall info hinfo
    obtain ⟨i, hi, rfl⟩ := List.mem_iff_getElem.mp hinfo
    have hfree : ¬ StuckInput dimension result inputs[i] := by
      intro hstuck
      obtain ⟨c, hc, hnone⟩ := hfills.filledFrom_stuck h hdense hi hstuck
      rw [hall i hi c hc] at hnone
      cases hnone
    refine ⟨(hoffsets _ hinfo).mp fun j hj => ?_, not_stuckInput_iff.mp hfree⟩
    rw [h.eraseIdx_eq hinfo] at hj
    have hpos := h.extent_pos hinfo
    have hcell := hall i hi _ (h.inBox_tensorCoordinate hinfo hj hpos)
    rw [hfills.filledFrom_eq h hdense hi hfree hj hpos, h.dot_tensorCoordinate hinfo,
      Option.some.injEq, Prod.mk.injEq] at hcell
    exact add_right_cancel hcell.2
  · intro hall i hi c hc
    have hinfo : inputs[i] ∈ inputs := List.getElem_mem hi
    obtain ⟨hstarts, hwalks⟩ := hall _ hinfo
    obtain ⟨j, hj, e, he, rfl⟩ := h.exists_tensorCoordinate hinfo hc
    have hoffset := (hoffsets _ hinfo).mpr hstarts j (by rwa [h.eraseIdx_eq hinfo])
    rw [hfills.filledFrom_eq h hdense hi (not_stuckInput_iff.mpr hwalks) hj he,
      h.dot_tensorCoordinate hinfo, hoffset]

/-- The loop over the inputs makes the copies of each one, at the sum of the extents in front of
it. -/
theorem tadLoop_spec {order : Char} {z : ShapeInfo} {resultOffsets : List Int} {i arrOffset : Nat}
    {P : Nat → List Copy → Prop}
    (hinputs : ∀ j, ∀ hj : j < inputs.length, ∃ hlt : dimension < inputs[j].rank, ∃ x copies,
      (TAD.init inputs[j] (singleDimension dimension hlt)).shapeInfoOnlyShapeAndStride = some x ∧
      x.length = inputs[j].shape.getD dimension 0 ∧
      tadInput order (TAD.init inputs[j] (singleDimension dimension hlt)) x z resultOffsets (i + j)
        (arrOffset + axisStart dimension inputs j) = some copies ∧ P j copies) :
    ∃ parts : List (List Copy),
      tadLoop dimension order z resultOffsets inputs i arrOffset = some parts.flatten ∧
        parts.length = inputs.length ∧ ∀ j copies, parts[j]? = some copies → P j copies := by
  induction inputs generalizing i arrOffset P with
  | nil => exact ⟨[], rfl, rfl, fun j copies hget => by cases hget⟩
  | cons info inputs ih =>
      obtain ⟨hlt, x, copies, hx, hlength, hcopies, hP⟩ := hinputs 0 (Nat.zero_lt_succ _)
      have hrest := @ih (i + 1) (arrOffset + x.length) (fun j => P (j + 1)) fun j hj => by
        have hnext := hinputs (j + 1) (Nat.succ_lt_succ hj)
        have hstart : axisStart dimension (info :: inputs) (j + 1) =
            info.shape.getD dimension 0 + axisStart dimension inputs j :=
          blockStart_cons_succ _ _ _
        have hextent : x.length = info.shape.getD dimension 0 := hlength
        rw [hstart, ← hextent] at hnext
        rw [Nat.add_right_comm i, Nat.add_assoc i, Nat.add_assoc arrOffset]
        exact hnext
      obtain ⟨parts, hloop, hcount, hparts⟩ := hrest
      refine ⟨copies :: parts, ?_, by rw [List.length_cons, List.length_cons, hcount], ?_⟩
      · rw [show axisStart dimension (info :: inputs) 0 = 0 from blockStart_zero _,
          Nat.add_zero, Nat.add_zero] at hcopies
        rw [tadLoop]
        have hlt' : dimension < info.rank := hlt
        rw [dif_pos hlt']
        simp only
        rw [show (TAD.init info (singleDimension dimension hlt')).shapeInfoOnlyShapeAndStride =
          some x from hx, Option.bind_some]
        rw [show tadInput order (TAD.init info (singleDimension dimension hlt')) x z resultOffsets i
          arrOffset = some copies from hcopies, Option.bind_some, hloop, Option.map_some,
          List.flatten_cons]
      · intro j copies' hget
        cases j with
        | zero =>
            cases hget
            exact hP
        | succ j => exact hparts j copies' hget

/-- Along the dimension a dense result has a positive stride. -/
theorem Concatenable.stride_pos (h : Concatenable dimension inputs result)
    (hdense : DenseResult result) : 0 < result.stride.getD dimension 0 := by
  have htwo : 2 ≤ result.shape.getD dimension 0 := h.getD_shape.symm ▸ h.two_le_sum
  have hpos := h.result_positive
  have hinner : 0 < (result.shape.eraseIdx dimension).prod := prod_pos_of_pos h.inner_positive
  have hbox : ∀ e < 2, InBox result.shape (tensorCoordinate dimension result 0 e) :=
    fun e he => inBox_insertIdx (inBox_decode h.inner_positive hinner) (by omega)
  have hcell : ∀ e, dot (tensorCoordinate dimension result 0 e) result.stride =
      e * result.stride.getD dimension 0 := by
    intro e
    have hd := h.le_length_decode 0
    have hlt : dimension < result.shape.length := h.dimension_lt
    have hlength : result.stride.length =
        (decode (result.shape.eraseIdx dimension) 0).length + 1 := by
      rw [result.stride_length, length_decode, List.length_eraseIdx_of_lt hlt]
      omega
    have hzero : dot (decode (result.shape.eraseIdx dimension) 0)
        (result.stride.eraseIdx dimension) = 0 := by
      have hoffset := offsetAt_zero (result.axes.eraseIdx dimension)
      rw [offsetAt_eq_dot, dims_eraseIdx, ← List.eraseIdx_map, result.map_snd_axes] at hoffset
      exact hoffset
    rw [tensorCoordinate, dot_insertIdx hd hlength, hzero, zero_add, nsmul_eq_mul]
  -- the cell of the second coordinate is the number of that coordinate, which is not zero
  obtain ⟨k, hk, hcoord⟩ := (bijOn_coordinateOf result.isFOrder hpos).surjOn (hbox 1 (by decide))
  have hnumber : dot (tensorCoordinate dimension result 0 1) result.stride = k := by
    rw [← hdense.dense k hk, elementOffset, ShapeInfo.dims_axes, ShapeInfo.map_snd_axes, ← hcoord]
    cases result.isFOrder <;> rfl
  rw [hcell, Nat.cast_one, one_mul] at hnumber
  have hne : result.stride.getD dimension 0 ≠ 0 := by
    intro hzero
    have hsame := injOn_dense hpos hdense.dense (hbox 0 (by decide)) (hbox 1 (by decide))
      (by rw [hcell, hcell, hzero, mul_zero, mul_zero])
    have hindex := (h.tensorCoordinate_inj hinner hinner hsame).2
    exact absurd hindex (by decide)
  omega

/-- A result that is no vector has several tensors, or more than two axes. -/
theorem Concatenable.other_of_not_vector (h : Concatenable dimension inputs result)
    (hvector : isVectorBuffer result = false) (hrank : 2 ≤ result.rank) :
    2 < result.rank ∨ (result.shape.eraseIdx dimension).prod ≠ 1 := by
  rw [or_iff_not_imp_left]
  intro hle hone
  have htwo : result.rank = 2 := by omega
  have hlt := h.dimension_lt
  obtain ⟨m, n, hshape⟩ := List.length_eq_two.mp (show result.shape.length = 2 from htwo)
  have hunit : m = 1 ∨ n = 1 := by
    rw [hshape] at hone
    have hcases : dimension = 0 ∨ dimension = 1 := by omega
    rcases hcases with rfl | rfl
    · exact Or.inr (by simpa using hone)
    · exact Or.inl (by simpa using hone)
  rw [isVectorBuffer, secondExtent, htwo, if_neg (by decide), hshape] at hvector
  simp at hvector
  omega

theorem isVector_of_rank (hrank : 2 < info.rank) : isVector info = false := by
  simp [isVector, Nat.not_le.mpr hrank]

variable (h : Concatenable dimension inputs result)

include h

/-- The tensors of one input are copied to those of the result, from the sum of the extents in
front of it on. -/
theorem Concatenable.exists_fillsInput (hdense : DenseResult result) (hrank : 2 ≤ result.rank)
    (hother : 2 < result.rank ∨ (result.shape.eraseIdx dimension).prod ≠ 1) {z : ShapeInfo}
    (hz : TensorOf (result.shape.getD dimension 0, result.stride.getD dimension 0)
      (result.axes.eraseIdx dimension) z) (hbase : ∀ arrOffset < result.shape.getD dimension 0,
      getOffset 0 z.shape z.stride (ind2subC z.shape arrOffset) =
        arrOffset * result.stride.getD dimension 0) {resultOffsets : List Int}
    (hoffsets : ∀ l < (result.shape.eraseIdx dimension).prod, resultOffsets.getD l 0 =
      dot (decode (result.shape.eraseIdx dimension) l) (result.stride.eraseIdx dimension)) {j : Nat}
    (hj : j < inputs.length) :
    ∃ hlt : dimension < inputs[j].rank, ∃ x copies,
      (TAD.init inputs[j] (singleDimension dimension hlt)).shapeInfoOnlyShapeAndStride = some x ∧
      x.length = inputs[j].shape.getD dimension 0 ∧
      tadInput result.order (TAD.init inputs[j] (singleDimension dimension hlt)) x z resultOffsets j
        (axisStart dimension inputs j) = some copies ∧
      FillsInput dimension inputs result j inputs[j] copies := by
  have hinfo : inputs[j] ∈ inputs := List.getElem_mem hj
  have hlt : dimension < inputs[j].rank := h.dimension_lt_rank hinfo
  have hsameRank := h.rank_eq hinfo
  have hpositive := h.extent_pos hinfo
  have hextent : result.shape.getD dimension 0 ≠ 1 := by
    have htwo := h.two_le_sum
    rw [h.getD_shape]
    omega
  obtain ⟨x, hx, hxTensor⟩ := exists_tensorOf (h.positive _ hinfo) (hsameRank.symm ▸ hrank)
    (hsameRank.symm ▸ h.rank_le) hlt (by
      rw [h.eraseIdx_eq hinfo]
      exact hother.imp_left fun hlong => isVector_of_rank (hsameRank.symm ▸ hlong))
  have hstart : axisStart dimension inputs j < result.shape.getD dimension 0 := by
    have hblock : 0 < (extents dimension inputs).getD j 0 := by rwa [extents_getD hj]
    rw [h.getD_shape]
    exact block_lt_sum hblock
  have hdims : dims (result.axes.eraseIdx dimension) =
      dims (inputs[j].axes.eraseIdx dimension) := by
    rw [dims_eraseIdx, dims_eraseIdx, h.eraseIdx_eq hinfo]
  have hnum : (TAD.init inputs[j] (singleDimension dimension hlt)).numTads =
      (result.shape.eraseIdx dimension).prod := by
    rw [numTads_single (h.positive _ hinfo), h.eraseIdx_eq hinfo]
  have hown : offsetsAlong dimension inputs[j] =
      (TAD.init inputs[j] (singleDimension dimension hlt)).createOffsets := dif_pos hlt
  obtain ⟨copies, hcopies, hfree, hstuck⟩ := @tadInput_spec result.order hdense.order
    (TAD.init inputs[j] (singleDimension dimension hlt)) x z _ _ _ _ hxTensor hz hdims
    hpositive hextent (h.stride_pos hdense) resultOffsets j _ (hbase _ hstart)
  rw [dims_eraseIdx, hnum] at hfree hstuck
  have hcell : ∀ l < (result.shape.eraseIdx dimension).prod, ∀ e : Nat,
      resultOffsets.getD l 0 + axisStart dimension inputs j * result.stride.getD dimension 0 +
        e * result.stride.getD dimension 0 =
      cellOf dimension inputs result j (tensorCoordinate dimension result l e) := by
    intro l hl e
    rw [h.cellOf_tensorCoordinate, hoffsets l hl]
  refine ⟨hlt, x, copies, hx, hxTensor.length_eq, hcopies, ⟨fun v hv => ?_, fun h' v => ?_⟩⟩
  · by_cases h' : StuckInput dimension result inputs[j]
    · obtain ⟨-, l, hl, htarget⟩ := hstuck h' v hv
      refine ⟨l, hl, 0, hpositive, ?_, fun _ => rfl⟩
      rw [htarget, ← hcell l hl, Nat.cast_zero, zero_mul, add_zero]
    · obtain ⟨l, hl, e, he, rfl⟩ := (hfree h' v).mp hv
      exact ⟨l, hl, e, he, hcell l hl e, fun hs => absurd hs h'⟩
  · rw [hfree h' v, hown]
    constructor
    · rintro ⟨l, hl, e, he, rfl⟩
      exact ⟨l, hl, e, he, by rw [← hcell l hl]⟩
    · rintro ⟨l, hl, e, he, rfl⟩
      exact ⟨l, hl, e, he, by rw [← hcell l hl]⟩

/-- Copying tensor by tensor fills the tensors of the result. -/
theorem Concatenable.exists_fillsTensors (hdense : DenseResult result) (hrank : 2 ≤ result.rank)
    (hvector : isVectorBuffer result = false) (hscalar : ¬ allScalar inputs = true)
    (hfirst : ¬ (allC inputs = true ∧ dimension = 0 ∧ result.order = 'c')) :
    ∃ parts, concatCpuGeneric dimension inputs result = some parts.flatten ∧
      FillsTensors dimension inputs result parts := by
  have hpos := h.result_positive
  have hother := h.other_of_not_vector hvector hrank
  have hews : result.HonestEws := by
    intro _ k hk
    rw [hdense.dense k hk, hdense.ews_eq, mul_one]
  obtain ⟨z, hz, hzTensor⟩ := exists_tensorOf hpos hrank h.rank_le h.dimension_lt
    (hother.imp_left isVector_of_rank)
  obtain ⟨z', hz', hmoves⟩ := @shapeInfoOnlyShapeAndStride_spec
    (TAD.init result (singleDimension dimension h.dimension_lt)) hpos hews hrank h.rank_le hrank
  cases hz.symm.trans hz'
  rw [kept_init] at hmoves
  have hbase : ∀ arrOffset < result.shape.getD dimension 0,
      getOffset 0 z.shape z.stride (ind2subC z.shape arrOffset) =
        arrOffset * result.stride.getD dimension 0 := by
    intro arrOffset hlt
    rw [hmoves.getOffset_eq (by simpa using hlt), zero_add, offsetAt_cons, volume_nil, Nat.div_one,
      Nat.mod_one, offsetAt_zero, add_zero, nsmul_eq_mul]
  have hoffsets := (createOffsets_single_iff hpos hews h.dimension_lt).mpr fun _ hone => by
    have htwo := h.two_le_sum
    rw [h.getD_shape] at hone
    omega
  obtain ⟨parts, hloop, hcount, hparts⟩ := @tadLoop_spec dimension inputs result.order z
    (TAD.init result (singleDimension dimension h.dimension_lt)).createOffsets 0 0
    (fun j copies => ∀ hj : j < inputs.length,
      FillsInput dimension inputs result j inputs[j] copies) fun j hj => by
      obtain ⟨hlt, x, copies, hx, hlength, hcopies, hfills⟩ :=
        h.exists_fillsInput hdense hrank hother hzTensor hbase hoffsets hj
      rw [Nat.zero_add, Nat.zero_add]
      exact ⟨hlt, x, copies, hx, hlength, hcopies, fun _ => hfills⟩
  refine ⟨parts, ?_, hcount, hparts⟩
  have hseveral : ¬ inputs.length = 1 := by
    have htwo := h.several
    omega
  unfold concatCpuGeneric
  simp only
  rw [if_neg hseveral, if_neg hscalar, if_neg hfirst, if_neg (by simp [hvector]),
    dif_pos h.dimension_lt, hz, Option.bind_some]
  exact hloop

theorem Concatenable.concatenates_iff_tensors (hdense : DenseResult result)
    (hscalar : ¬ allScalar inputs = true)
    (hfirst : ¬ (allC inputs = true ∧ dimension = 0 ∧ result.order = 'c'))
    (hvector : ¬ isVectorBuffer result = true) :
    Concatenates dimension inputs result ↔
      ∀ info ∈ inputs, CopiesTensors dimension result info := by
  have hrank : 2 ≤ result.rank := by
    have hlt := h.dimension_lt
    by_contra hle
    exact hvector (h.isVectorBuffer_of_rank hdense (by omega))
  obtain ⟨parts, hcopies, hfills⟩ := h.exists_fillsTensors hdense hrank
    (Bool.eq_false_iff.mpr hvector) hscalar hfirst
  exact hfills.concatenates_iff_copiesTensors h hdense hcopies

end Law

/-- Each path reads what the law asks for.  Scalars are always copied right; along the first axis
the inputs must have no gaps in C order; into a vector the element-wise strides that are used
must walk through the inputs; and tensors must start at their coordinates and be walked through. -/
def ReadsAsAsked (dimension : Nat) (inputs : List ShapeInfo) (result : ShapeInfo) : Prop :=
  if allScalar inputs then
    True
  else if allC inputs ∧ dimension = 0 ∧ result.order = 'c' then
    ∀ info ∈ inputs, ∀ k < info.length, elementOffset false info.axes k = k
  else if isVectorBuffer result then
    ∀ info ∈ inputs, isVectorBuffer info = true ∨ info.order = result.order →
      ∀ k < info.length, elementOffset false info.axes k = k * info.elementWiseStride
  else
    ∀ info ∈ inputs, CopiesTensors dimension result info

/-- Concatenating is right exactly if the path that is taken reads what the law asks for. -/
theorem concatenates_iff {dimension : Nat} {inputs : List ShapeInfo} {result : ShapeInfo}
    (h : Concatenable dimension inputs result) (hdense : DenseResult result) :
    Concatenates dimension inputs result ↔ ReadsAsAsked dimension inputs result := by
  unfold ReadsAsAsked
  split
  · rename_i hscalar
    exact iff_true_intro (h.concatenates_of_scalars hdense hscalar)
  · rename_i hscalar
    split
    · rename_i hfirst
      exact h.concatenates_iff_firstAxis hdense hscalar hfirst
    · rename_i hfirst
      split
      · rename_i hvector
        exact h.concatenates_iff_vector hdense hscalar hfirst hvector
      · rename_i hvector
        exact h.concatenates_iff_tensors hdense hscalar hfirst hvector

/-- Two rows of two in C order, four of them side by side in a row of the result. -/
def square (stride : Int) (elementWiseStride : Int) : ShapeInfo where
  shape := [2, 2]
  stride := [stride, 1]
  offset := 0
  elementWiseStride := elementWiseStride
  order := 'c'
  stride_length := rfl

/-- Two rows of four. -/
def wideResult : ShapeInfo where
  shape := [2, 4]
  stride := [4, 1]
  offset := 0
  elementWiseStride := 1
  order := 'c'
  stride_length := by decide

/-- Four rows of two. -/
def tallResult : ShapeInfo where
  shape := [4, 2]
  stride := [2, 1]
  offset := 0
  elementWiseStride := 1
  order := 'c'
  stride_length := by decide

theorem concatenates_iff_wide :
    Concatenates 1 [square 2 1, square 3 (-1)] wideResult ↔
      ReadsAsAsked 1 [square 2 1, square 3 (-1)] wideResult :=
  concatenates_iff ⟨by decide, by decide, by decide, by decide, by decide, by decide⟩
    ⟨by decide, by decide, by decide⟩

/-- Two columns of a table of three columns, twice below each other, are read as if there were no
third column. -/
theorem not_concatenates_always :
    ¬ ∀ (dimension : Nat) (inputs : List ShapeInfo) (result : ShapeInfo),
      Concatenable dimension inputs result → DenseResult result →
        Concatenates dimension inputs result := by
  intro hall
  have h : Concatenable 0 [square 3 (-1), square 3 (-1)] tallResult :=
    ⟨by decide, by decide, by decide, by decide, by decide, by decide⟩
  have hdense : DenseResult tallResult := ⟨by decide, by decide, by decide⟩
  have hcells := (h.concatenates_iff_firstAxis hdense (by decide) (by decide)).mp
    (hall 0 _ _ h hdense) (square 3 (-1)) List.mem_cons_self 2 (by decide)
  exact absurd hcells (by decide)

end Arrays
end LibND4J
