import LibND4J.Library.Stores
import LibND4J.Loops.BlockInformation
import LibND4J.Shape.ShapeInfo

/-!
# Pairwise transforms

`PairWiseTransform::exec` applies an operation to the elements of two arrays and
stores the results in a third one.  Depending on the orders, the element-wise strides
and the shapes it walks linearly in per-thread spans, or rotates over the first axis
and runs the raw iterator over the others.

The model lists, for each thread or loop iteration, the addresses that each
application of the operation reads and writes.  A schedule is any arrangement of all
of these visits.

Main results:

- Theorem `prepare_sweep`: reversing the negative strides of the first operand
  keeps the set of visited addresses.
- Theorem `exec_visits`: both paths visit every coordinate exactly once.
- Theorem `exec_pointwise`: every schedule writes the operation pointwise and
  touches nothing else, when the result has a cell of its own for each coordinate.
-/

namespace LibND4J
namespace Loops

open Strided Shape

/-! ## The loops -/

/-- Addresses read in `x` and `y` and written in the result by one application. -/
abbrev Visit := Int × Int × Int

/-- An extent with its three strides. -/
abbrev Axis3 := Nat × Int × Int × Int

/-- The loop of one thread over the linear indices from `start` up to `stop`. -/
def spanLoop (dx xStride dy yStride result resultStride start stop : Int) : List Visit :=
  (List.range (stop - start).toNat).map fun (j : Nat) =>
    let i := start + j
    if xStride = 1 ∧ yStride = 1 ∧ resultStride = 1 then
      (dx + i, dy + i, result + i)
    else
      (dx + i * xStride, dy + i * yStride, result + i * resultStride)

/-- The strided overload: each thread walks a span of the linear range. -/
def execStrided (settings : Settings) (dx xStride dy yStride result resultStride : Int) (n : Nat) :
    List (List Visit) :=
  let threads := numThreads n settings.elementThreshold settings.maxThreads
  let span := toInt32 (n / threads + 8 : Nat)
  (List.range threads).map fun (tid : Nat) =>
    let stop := if span * (tid + 1) > n then (n : Int) else span * (tid + 1)
    spanLoop dx xStride dy yStride result resultStride (span * tid) stop

/-- Walk an axis backwards when its stride in the first operand is negative. -/
def reverseNegative (a : Axis3) (data : Visit) : Axis3 × Visit :=
  if a.2.1 < 0 then ((a.1, -a.2), data + ((a.1 : Int) - 1) • a.2) else (a, data)

/-- Loop over the axes; `none` when it meets an extent of zero. -/
def reverseLoop : List Axis3 → Visit → Option (List Axis3) × Visit
  | [], data => (some [], data)
  | a :: axes, data =>
      let (a', data') := reverseNegative a data
      if a.1 = 0 then
        (none, data')
      else
        let (axes', data'') := reverseLoop axes data'
        (axes'.map (a' :: ·), data'')

/-- `PrepareThreeRawArrayIter`. -/
def prepareThreeRawArrayIter (axes : List Axis3) (data : Visit) : List Axis3 × Visit :=
  match axes with
  | [] => ([(1, 0)], data)
  | [a] =>
      let (a', data') := reverseNegative a data
      ([a'], data')
  | axes =>
      match reverseLoop axes data with
      | (some axes', data') => (axes', data')
      | (none, data') => ([(0, 0)], data')

/-- The rotation over the first axis.  A shape without axes is read out of bounds, and
`fuel` bounds the ticks of each raw iteration. -/
def execRaw (fuel : Nat) (x y z : ShapeInfo) (data : Visit) : Option (List (List Visit)) :=
  match x.shape.zip (x.stride.zip (y.stride.zip z.stride)) with
  | [] => none
  | a :: axes =>
      (List.range a.1).mapM fun i =>
        let (axes', data') := prepareThreeRawArrayIter axes (data + i • a.2)
        (odometer fuel axes' data').map fun visits => visits.map Prod.snd

/-- The loop over linear indices for shapes that differ. -/
def execCoordinates (x y z : ShapeInfo) (dx dy result : Int) : List (List Visit) :=
  (List.range x.length).map fun i =>
    let xOffset := getOffset 0 x.shape x.stride (ind2subC x.shape i)
    let yOffset := getOffset 0 y.shape y.stride (ind2subC y.shape i)
    let resultOffset :=
      if dx = result then xOffset else getOffset 0 z.shape z.stride (ind2subC z.shape i)
    [(dx + xOffset, dy + yOffset, result + resultOffset)]

/-- `PairWiseTransform::exec`. -/
def exec (fuel : Nat) (settings : Settings) (x y z : ShapeInfo) (dx dy result : Int) :
    Option (List (List Visit)) :=
  let xEws := x.elementWiseStride
  let yEws := y.elementWiseStride
  let zEws := z.elementWiseStride
  if xEws ≥ 1 ∧ yEws ≥ 1 ∧ zEws ≥ 1 ∧ x.order = y.order ∧ z.order = x.order ∧
      x.shape = y.shape ∧ xEws = yEws then
    some (execStrided settings dx xEws dy yEws result zEws x.length)
  else if x.shape ≠ y.shape ∧ x.order = y.order ∧ z.order = x.order ∧ xEws ≥ 1 ∧ yEws ≥ 1 ∧
      zEws ≥ 1 ∧ xEws = yEws then
    some (execStrided settings dx xEws dy yEws result zEws y.length)
  else if x.shape = y.shape then
    execRaw fuel x y z (dx, dy, result)
  else
    some (execCoordinates x y z dx dy result)

/-! ## The raw iterator -/

/-- Reversing an axis turns it when the stride of `x` is negative. -/
theorem reverseNegative_eq (a : Axis3) (data : Visit) :
    reverseNegative a data = turnAxis (fun s => s.1 < 0) a data := by
  simp only [reverseNegative, turnAxis, decide_eq_true_eq]

theorem reverseLoop_eq (axes : List Axis3) (data : Visit) :
    reverseLoop axes data = turnAxes (fun s => s.1 < 0) axes data := by
  induction axes generalizing data with
  | nil => rfl
  | cons a axes ih => simp only [reverseLoop, turnAxes, reverseNegative_eq, ih]

variable {axes : List Axis3} {fuel : Nat} {x y z : ShapeInfo}

/-- The prepared iteration sweeps the addresses of the original axes. -/
theorem prepare_sweep (hpos : ∀ a ∈ axes, 0 < a.1) (data : Visit) :
    ∃ axes' data', prepareThreeRawArrayIter axes data = (axes', data') ∧
      (∀ a ∈ axes', 0 < a.1) ∧ volume axes' = volume axes ∧
      (sweep axes' data').Perm (sweep axes data) := by
  have hloop : ∃ axes' data', reverseLoop axes data = (some axes', data') ∧
      (∀ a ∈ axes', 0 < a.1) ∧ volume axes' = volume axes ∧
      (sweep axes' data').Perm (sweep axes data) := by
    obtain ⟨axes', shift, hrun, hdims, hsweep⟩ := turnAxes_sweep (fun s => s.1 < 0) hpos
    exact ⟨axes', data + shift, (reverseLoop_eq axes data).trans (hrun data),
      pos_of_dims_eq hdims hpos, by rw [volume, hdims, volume], hsweep data⟩
  obtain ⟨axes', data', hrun, hrest⟩ := hloop
  rcases axes with _ | ⟨a, _ | ⟨b, axes⟩⟩
  · refine ⟨[(1, 0)], data, rfl, by simp, by simp, ?_⟩
    simp [sweep]
  · refine ⟨axes', data', ?_, hrest⟩
    have hone : a.1 ≠ 0 := by
      intro hzero
      simp [reverseLoop, hzero] at hrun
    simp only [reverseLoop, hone, if_false, Option.map_some, Prod.mk.injEq,
      Option.some.injEq] at hrun
    rw [prepareThreeRawArrayIter, ← hrun.1, ← hrun.2]
  · refine ⟨axes', data', ?_, hrest⟩
    simp only [prepareThreeRawArrayIter, hrun]

/-- One raw iteration visits the addresses of its axes. -/
theorem rawIteration_perm (hpos : ∀ a ∈ axes, 0 < a.1) (data : Visit) (hfuel : volume axes ≤ fuel) :
    ∃ axes' data' visits, prepareThreeRawArrayIter axes data = (axes', data') ∧
      (odometer fuel axes' data').map (fun visits => visits.map Prod.snd) = some visits ∧
      visits.Perm (sweep axes data) := by
  obtain ⟨axes', data', hprep, hpos', hvol, hsweep⟩ := prepare_sweep hpos data
  refine ⟨axes', data', (List.range (volume axes')).map fun k => data' + offsetAtF axes' k, hprep,
    ?_, ?_⟩
  · rw [odometer_eq axes' data' hpos' (hvol ▸ hfuel), Option.map_some, List.map_map]
    rfl
  · refine List.Perm.trans ?_ hsweep
    rw [sweep_eq]
    exact map_offsetAtF_perm hpos' data'

/-- Iterations that all return make up one list of results. -/
theorem mapM_of_forall_some {α β : Type} {f : α → Option β} {xs : List α}
    (h : ∀ a ∈ xs, ∃ b, f a = some b) :
    ∃ ys, xs.mapM f = some ys ∧ List.Forall₂ (fun a b => f a = some b) xs ys := by
  induction xs with
  | nil => exact ⟨[], rfl, List.Forall₂.nil⟩
  | cons a xs ih =>
      obtain ⟨b, hb⟩ := h a List.mem_cons_self
      obtain ⟨ys, hys, hall⟩ := ih fun x hx => h x (List.mem_cons_of_mem _ hx)
      refine ⟨b :: ys, ?_, List.Forall₂.cons hb hall⟩
      rw [List.mapM_cons, hb, hys]
      rfl

/-- Results that are permutations of given lists flatten to a permutation. -/
theorem flatten_perm_flatMap {α β : Type} {g : α → List β} {xs : List α} {ys : List (List β)}
    (h : List.Forall₂ (fun a ys => ys.Perm (g a)) xs ys) : ys.flatten.Perm (xs.flatMap g) := by
  induction h with
  | nil => exact List.Perm.refl _
  | cons hab _ ih =>
      rw [List.flatten_cons, List.flatMap_cons]
      exact hab.append ih

/-- The rotation visits the addresses of all axes. -/
theorem execRaw_perm {data : Visit} {a : Axis3}
    (hzip : x.shape.zip (x.stride.zip (y.stride.zip z.stride)) = a :: axes)
    (hpos : ∀ b ∈ a :: axes, 0 < b.1) (hfuel : volume (a :: axes) ≤ fuel) :
    ∃ work, execRaw fuel x y z data = some work ∧
      work.flatten.Perm (sweep (a :: axes) data) := by
  have htail : ∀ b ∈ axes, 0 < b.1 := fun b hb => hpos b (List.mem_cons_of_mem _ hb)
  have hrest : volume axes ≤ fuel := by
    rw [volume_cons] at hfuel
    exact (Nat.le_mul_of_pos_left _ (hpos a List.mem_cons_self)).trans hfuel
  unfold execRaw
  rw [hzip]
  simp only
  set f : Nat → Option (List Visit) := fun i =>
    (odometer fuel (prepareThreeRawArrayIter axes (data + i • a.2)).1
      (prepareThreeRawArrayIter axes (data + i • a.2)).2).map fun visits => visits.map Prod.snd
    with hf
  have hunit : ∀ i, ∃ visits, f i = some visits ∧
      visits.Perm (sweep axes (data + i • a.2)) := by
    intro i
    obtain ⟨axes', data', visits, hprep, hrun, hperm⟩ :=
      rawIteration_perm htail (data + i • a.2) hrest
    refine ⟨visits, ?_, hperm⟩
    simp only [hf]
    rw [hprep]
    exact hrun
  obtain ⟨work, hwork, hall⟩ := @mapM_of_forall_some _ _ f (List.range a.1)
    fun i _ => (hunit i).imp fun _ h => h.1
  refine ⟨work, hwork, ?_⟩
  rw [sweep]
  apply flatten_perm_flatMap
  refine hall.imp fun i visits hvisits => ?_
  obtain ⟨visits', hvisits', hperm⟩ := hunit i
  rw [hvisits] at hvisits'
  exact Option.some.inj hvisits' ▸ hperm

/-! ## The linear path -/

/-- The threads of the linear path walk the range once, in order. -/
theorem execStrided_flatten (settings : Settings) (dx xStride dy yStride result resultStride : Int)
    {n : Nat}
    (hspan : n / numThreads n settings.elementThreshold settings.maxThreads + 8 < 2 ^ 31) :
    (execStrided settings dx xStride dy yStride result resultStride n).flatten =
      (List.range n).map fun (i : Nat) =>
        ((dx + i * xStride, dy + i * yStride, result + i * resultStride) : Visit) := by
  have hthreads := numThreads_pos n settings.elementThreshold settings.maxThreads_pos
  unfold execStrided
  generalize numThreads n settings.elementThreshold settings.maxThreads = threads at hspan hthreads ⊢
  set span := n / threads + 8 with hspanDef
  have hint : toInt32 (span : Nat) = span :=
    toInt32_of_lt (Int.natCast_nonneg span) (by exact_mod_cast hspan)
  have hcover : n ≤ span * threads := le_span_mul hthreads (by decide)
  have hunit : ∀ tid : Nat, spanLoop dx xStride dy yStride result resultStride (span * tid)
      (if (span : Int) * (tid + 1) > n then (n : Int) else span * (tid + 1)) =
      (List.range' (span * tid) (min (span * (tid + 1)) n - span * tid)).map fun (i : Nat) =>
        ((dx + i * xStride, dy + i * yStride, result + i * resultStride) : Visit) := by
    intro tid
    have hstop : (if (span : Int) * (tid + 1) > n then (n : Int) else span * (tid + 1)) =
        ((min (span * (tid + 1)) n : Nat) : Int) := by
      push_cast
      split <;> omega
    rw [spanLoop, hstop, ← Nat.cast_mul, Int.toNat_sub, List.range'_eq_map_range, List.map_map]
    refine List.map_congr_left fun j _ => ?_
    simp only [Function.comp_apply, Nat.cast_add]
    split
    · rename_i hone
      obtain ⟨rfl, rfl, rfl⟩ := hone
      simp
    · rfl
  simp only [← hspanDef, hint, hunit]
  rw [← List.flatMap_def, ← List.map_flatMap, spans_flatMap, Nat.min_eq_right hcover]

/-! ## Coordinates -/

theorem dot_zip {G H : Type*} [AddCommGroup G] [AddCommGroup H] (cs : List Nat) {ss : List G}
    {ts : List H} (hlength : ss.length = ts.length) :
    dot cs (ss.zip ts) = (dot cs ss, dot cs ts) := by
  induction cs generalizing ss ts with
  | nil =>
      rw [dot_nil_left, dot_nil_left, dot_nil_left]
      rfl
  | cons c cs ih =>
      cases ss with
      | nil =>
          have hnil : ts = [] := List.eq_nil_of_length_eq_zero hlength.symm
          rw [hnil, List.zip_nil_left, dot_nil_right, dot_nil_right, dot_nil_right]
          rfl
      | cons s ss =>
          cases ts with
          | nil => simp at hlength
          | cons t ts =>
              have htail : ss.length = ts.length := by simpa using hlength
              rw [List.zip_cons_cons, dot_cons, dot_cons, dot_cons, ih htail]
              rfl

/-- The addresses that belong to a coordinate. -/
def visitAt (x y z : ShapeInfo) (dx dy result : Int) (coords : List Nat) : Visit :=
  (dx + dot coords x.stride, dy + dot coords y.stride, result + dot coords z.stride)

/-- Every coordinate of the common shape, once. -/
def coordinateVisits (x y z : ShapeInfo) (dx dy result : Int) : List Visit :=
  (List.range x.length).map fun k => visitAt x y z dx dy result (decode x.shape k)

theorem mem_coordinateVisits {dx dy result : Int} (hpos : x.Positive) {v : Visit} :
    v ∈ coordinateVisits x y z dx dy result ↔
      ∃ c, InBox x.shape c ∧ visitAt x y z dx dy result c = v := by
  have hbij := bijOn_decode hpos
  constructor
  · intro hv
    obtain ⟨k, hk, rfl⟩ := List.mem_map.mp hv
    exact ⟨_, hbij.mapsTo (List.mem_range.mp hk), rfl⟩
  · rintro ⟨c, hc, rfl⟩
    obtain ⟨k, hk, rfl⟩ := hbij.surjOn hc
    exact List.mem_map_of_mem (List.mem_range.mpr hk)

/-- The sweep of the zipped axes visits the coordinates in order. -/
theorem sweep_zip (hy : x.shape = y.shape) (hz : x.shape = z.shape) (dx dy result : Int) :
    sweep (x.shape.zip (x.stride.zip (y.stride.zip z.stride))) ((dx, dy, result) : Visit) =
      coordinateVisits x y z dx dy result := by
  have hxlen := x.stride_length
  have hylen : y.stride.length = x.shape.length := by rw [y.stride_length, hy]
  have hzlen : z.stride.length = x.shape.length := by rw [z.stride_length, hz]
  have hyz : (y.stride.zip z.stride).length = x.shape.length := by
    rw [List.length_zip, hylen, hzlen, Nat.min_self]
  have hxyz : (x.stride.zip (y.stride.zip z.stride)).length = x.shape.length := by
    rw [List.length_zip, hyz, hxlen, Nat.min_self]
  have hdims : dims (x.shape.zip (x.stride.zip (y.stride.zip z.stride))) = x.shape := by
    rw [dims]
    exact List.map_fst_zip hxyz.ge
  have hsnd : (x.shape.zip (x.stride.zip (y.stride.zip z.stride))).map Prod.snd =
      x.stride.zip (y.stride.zip z.stride) := List.map_snd_zip hxyz.le
  rw [sweep_eq, volume, hdims]
  refine List.map_congr_left fun k _ => ?_
  rw [offsetAt_eq_dot, hdims, hsnd, dot_zip _ (hxlen.trans hyz.symm),
    dot_zip _ (hylen.trans hzlen.symm)]
  rfl

/-- With honest element-wise strides and one order, the linear walk visits the
coordinates. -/
theorem linear_perm (hy : x.shape = y.shape) (hz : x.shape = z.shape) (hpos : x.Positive)
    (hxe : x.HonestEws) (hye : y.HonestEws) (hze : z.HonestEws) (hxEws : x.elementWiseStride ≥ 1)
    (hyEws : y.elementWiseStride ≥ 1) (hzEws : z.elementWiseStride ≥ 1) (hyo : x.order = y.order)
    (hzo : z.order = x.order) (dx dy result : Int) :
    ((List.range x.length).map fun (i : Nat) =>
      ((dx + i * x.elementWiseStride, dy + i * y.elementWiseStride,
        result + i * z.elementWiseStride) : Visit)).Perm
      (coordinateVisits x y z dx dy result) := by
  have hylen : y.length = x.length := by rw [ShapeInfo.length, ShapeInfo.length, hy]
  have hzlen : z.length = x.length := by rw [ShapeInfo.length, ShapeInfo.length, hz]
  have hyord : y.isFOrder = x.isFOrder := by rw [ShapeInfo.isFOrder, ShapeInfo.isFOrder, hyo]
  have hzord : z.isFOrder = x.isFOrder := by rw [ShapeInfo.isFOrder, ShapeInfo.isFOrder, hzo]
  have hx := hxe hxEws
  have hy' := hye hyEws
  have hz' := hze hzEws
  rw [hylen, hyord] at hy'
  rw [hzlen, hzord] at hz'
  simp only [elementOffset, ShapeInfo.dims_axes, ShapeInfo.map_snd_axes, ← hy, ← hz]
    at hx hy' hz'
  cases hf : x.isFOrder with
  | false =>
      simp only [hf, Bool.false_eq_true, if_false] at hx hy' hz'
      refine List.Perm.of_eq (List.map_congr_left fun k hk => ?_)
      have hlt := List.mem_range.mp hk
      rw [visitAt, hx k hlt, hy' k hlt, hz' k hlt]
  | true =>
      simp only [hf, if_true] at hx hy' hz'
      have hperm := (map_decodeF_perm hpos).map (visitAt x y z dx dy result)
      rw [List.map_map, List.map_map] at hperm
      refine List.Perm.trans (List.Perm.of_eq (List.map_congr_left fun k hk => ?_)) hperm
      have hlt := List.mem_range.mp hk
      rw [Function.comp_apply, visitAt, hx k hlt, hy' k hlt, hz' k hlt]

/-- The case in which the loops walk by the element-wise strides. -/
def WalksLinearly (x y z : ShapeInfo) : Prop :=
  x.elementWiseStride ≥ 1 ∧ y.elementWiseStride ≥ 1 ∧ z.elementWiseStride ≥ 1 ∧
    x.order = y.order ∧ z.order = x.order ∧ x.shape = y.shape ∧
    x.elementWiseStride = y.elementWiseStride

/-- On a common shape the rotation visits every coordinate exactly once. -/
theorem exec_visits_raw (settings : Settings) (hy : x.shape = y.shape) (hz : x.shape = z.shape)
    (hrank : x.shape ≠ []) (hpos : x.Positive) (hlinear : ¬ WalksLinearly x y z)
    (hfuel : x.length ≤ fuel) (dx dy result : Int) :
    ∃ work, exec fuel settings x y z dx dy result = some work ∧
      work.flatten.Perm (coordinateVisits x y z dx dy result) := by
  have hdiffer : ¬ (x.shape ≠ y.shape ∧ x.order = y.order ∧ z.order = x.order ∧
      x.elementWiseStride ≥ 1 ∧ y.elementWiseStride ≥ 1 ∧ z.elementWiseStride ≥ 1 ∧
      x.elementWiseStride = y.elementWiseStride) := fun h => h.1 hy
  unfold WalksLinearly at hlinear
  unfold exec
  simp only [if_neg hlinear, if_neg hdiffer, if_pos hy]
  have hsweep := sweep_zip hy hz dx dy result
  cases hzip : x.shape.zip (x.stride.zip (y.stride.zip z.stride)) with
  | nil =>
      exfalso
      have hlen := congrArg List.length hzip
      simp only [List.length_zip, x.stride_length, y.stride_length, z.stride_length, ← hy, ← hz,
        Nat.min_self, List.length_nil] at hlen
      exact hrank (List.eq_nil_of_length_eq_zero hlen)
  | cons a axes =>
      have hdim : ∀ b ∈ a :: axes, 0 < b.1 := by
        intro b hb
        rw [← hzip] at hb
        exact hpos b.1 (List.of_mem_zip hb).1
      have hvol : volume (a :: axes) ≤ fuel := by
        rw [hzip, sweep_eq] at hsweep
        have hlen := congrArg List.length hsweep
        rw [coordinateVisits, List.length_map, List.length_map, List.length_range,
          List.length_range] at hlen
        rw [hlen]
        exact hfuel
      rw [← hsweep, hzip]
      exact execRaw_perm hzip hdim hvol

/-- On a common shape both paths visit every coordinate exactly once. -/
theorem exec_visits (settings : Settings) (hy : x.shape = y.shape) (hz : x.shape = z.shape)
    (hrank : x.shape ≠ []) (hpos : x.Positive) (hxe : x.HonestEws) (hye : y.HonestEws)
    (hze : z.HonestEws)
    (hspan : x.length / numThreads x.length settings.elementThreshold settings.maxThreads + 8 <
      2 ^ 31) (hfuel : x.length ≤ fuel) (dx dy result : Int) :
    ∃ work, exec fuel settings x y z dx dy result = some work ∧
      work.flatten.Perm (coordinateVisits x y z dx dy result) := by
  by_cases hlinear : WalksLinearly x y z
  · obtain ⟨hxEws, hyEws, hzEws, hyo, hzo, -, -⟩ := id hlinear
    unfold WalksLinearly at hlinear
    unfold exec
    simp only [if_pos hlinear]
    refine ⟨_, rfl, ?_⟩
    rw [execStrided_flatten settings _ _ _ _ _ _ hspan]
    exact linear_perm hy hz hpos hxe hye hze hxEws hyEws hzEws hyo hzo dx dy result
  · exact exec_visits_raw settings hy hz hrank hpos hlinear hfuel dx dy result

/-! ## The results of a transform -/

section Operation

variable {T E : Type}

/-- Perform the applications of a schedule, one after the other. -/
def runVisits (op : T → T → E → T) (extraParams : E) (schedule : List Visit) (memory : Int → T) :
    Int → T :=
  Stores.storeAll (fun v : Visit => v.2.2) (fun v m => op (m v.1) (m v.2.1) extraParams) schedule
    memory

/-- An operand that is the result itself or shares no cell with it. -/
def SharesOrDisjoint (x : ShapeInfo) (dx : Int) (z : ShapeInfo) (result : Int) : Prop :=
  (dx = result ∧ x.stride = z.stride) ∨
    ∀ c d, InBox x.shape c → InBox z.shape d → dx + dot c x.stride ≠ result + dot d z.stride

/-- Every schedule of the work visits each coordinate once, writes the operation
pointwise and keeps every other cell. -/
def WritesPointwise (op : T → T → E → T) (extraParams : E) (x y z : ShapeInfo)
    (dx dy result : Int) (work : List (List Visit)) : Prop :=
  ∀ schedule : List Visit, schedule.Perm work.flatten →
    schedule.Perm (coordinateVisits x y z dx dy result) ∧
    ∀ memory : Int → T,
      (∀ c, InBox x.shape c →
        runVisits op extraParams schedule memory (result + dot c z.stride) =
          op (memory (dx + dot c x.stride)) (memory (dy + dot c y.stride)) extraParams) ∧
      ∀ cell, (∀ c, InBox x.shape c → cell ≠ result + dot c z.stride) →
        runVisits op extraParams schedule memory cell = memory cell

/-- The applications at two coordinates do not disturb each other. -/
theorem visit_ignores (op : T → T → E → T) (extraParams : E) {x y z : ShapeInfo}
    (hy : x.shape = y.shape) (hz : x.shape = z.shape) {dx dy result : Int}
    (hxz : SharesOrDisjoint x dx z result) (hyz : SharesOrDisjoint y dy z result)
    {c d : List Nat} (hc : InBox x.shape c) (hd : InBox x.shape d)
    (hne : result + dot c z.stride ≠ result + dot d z.stride) :
    Stores.Ignores (fun m : Int → T => op (m (dx + dot c x.stride)) (m (dy + dot c y.stride))
      extraParams) (result + dot d z.stride) := by
  have hread : ∀ (w : ShapeInfo) (dw : Int), x.shape = w.shape → SharesOrDisjoint w dw z result →
      dw + dot c w.stride ≠ result + dot d z.stride := by
    intro w dw hw hshare
    rcases hshare with ⟨rfl, hstride⟩ | hdisjoint
    · rw [hstride]
      exact hne
    · exact hdisjoint c d (hw ▸ hc) (hz ▸ hd)
  intro memory b
  simp only
  rw [Function.update_of_ne (hread x dx rfl hxz), Function.update_of_ne (hread y dy hy hyz)]

/-- A transform over a common shape applies the operation coordinate by coordinate. -/
theorem exec_pointwise (op : T → T → E → T) (extraParams : E) (settings : Settings)
    {x y z : ShapeInfo} (hy : x.shape = y.shape) (hz : x.shape = z.shape) (hrank : x.shape ≠ [])
    (hpos : x.Positive) (hxe : x.HonestEws) (hye : y.HonestEws) (hze : z.HonestEws)
    (hspan : x.length / numThreads x.length settings.elementThreshold settings.maxThreads + 8 <
      2 ^ 31)
    {dx dy result : Int} (hxz : SharesOrDisjoint x dx z result)
    (hyz : SharesOrDisjoint y dy z result)
    (hcells : ∀ c d, InBox x.shape c → InBox x.shape d → dot c z.stride = dot d z.stride → c = d)
    {fuel : Nat} (hfuel : x.length ≤ fuel) :
    ∃ work, exec fuel settings x y z dx dy result = some work ∧
      WritesPointwise op extraParams x y z dx dy result work := by
  obtain ⟨work, hexec, hwork⟩ :=
    exec_visits settings hy hz hrank hpos hxe hye hze hspan hfuel dx dy result
  refine ⟨work, hexec, fun schedule hschedule => ?_⟩
  have hperm := hschedule.trans hwork
  have hmem : ∀ v, v ∈ schedule ↔ ∃ c, InBox x.shape c ∧ visitAt x y z dx dy result c = v :=
    fun v => hperm.mem_iff.trans (mem_coordinateVisits hpos)
  refine ⟨hperm, fun memory => ⟨fun c hc => ?_, fun cell hcell => ?_⟩⟩
  · have hnodup : (schedule.map fun v : Visit => v.2.2).Nodup := by
      refine (hperm.map _).nodup_iff.mpr ?_
      rw [coordinateVisits, List.map_map]
      apply List.Nodup.map_on _ List.nodup_range
      intro j hj k hk heq
      have hbij := bijOn_decode hpos
      have hj' := List.mem_range.mp hj
      have hk' := List.mem_range.mp hk
      exact hbij.injOn hj' hk' (hcells _ _ (hbij.mapsTo hj') (hbij.mapsTo hk')
        (Int.add_left_cancel heq))
    have hreads : ∀ v ∈ schedule, ∀ w ∈ schedule, v.2.2 ≠ w.2.2 →
        Stores.Ignores (fun m : Int → T => op (m v.1) (m v.2.1) extraParams) w.2.2 := by
      intro v hv w hw hne
      obtain ⟨c, hc, rfl⟩ := (hmem v).mp hv
      obtain ⟨d, hd, rfl⟩ := (hmem w).mp hw
      exact visit_ignores op extraParams hy hz hxz hyz hc hd hne
    exact Stores.storeAll_of_independent hnodup hreads memory ((hmem _).mpr ⟨c, hc, rfl⟩)
  · apply Stores.storeAll_of_not_written
    intro v hv heq
    obtain ⟨c, hc, rfl⟩ := (hmem v).mp hv
    exact hcell c hc heq.symm

/-- A square added to itself in place, its second axis walked backwards. -/
def reversedSquare : ShapeInfo where
  shape := [2, 2]
  stride := [2, -1]
  offset := 0
  elementWiseStride := 0
  order := 'c'
  stride_length := rfl

theorem exec_pointwise_reversedSquare :
    ∃ work, exec 4 (Settings.initial 4 (by decide)) reversedSquare reversedSquare reversedSquare
        1 1 1 = some work ∧
      WritesPointwise (fun (a b : Int) (_ : Unit) => a + b) () reversedSquare reversedSquare
        reversedSquare 1 1 1 work := by
  have hcells : ∀ c d, InBox reversedSquare.shape c → InBox reversedSquare.shape d →
      dot c reversedSquare.stride = dot d reversedSquare.stride → c = d := by
    intro c d hc hd heq
    rcases hc with _ | ⟨hi, _ | ⟨hj, _ | _⟩⟩
    rcases hd with _ | ⟨hi', _ | ⟨hj', _ | _⟩⟩
    simp only [reversedSquare, dot_cons, dot_nil_left, nsmul_eq_mul] at heq
    simp only [List.cons.injEq, and_true]
    omega
  exact exec_pointwise _ () _ rfl rfl (by decide) (by decide) (by decide) (by decide) (by decide)
    (by decide) (Or.inl ⟨rfl, rfl⟩) (Or.inl ⟨rfl, rfl⟩) hcells (by decide)

/-- Two cells in a row. -/
def pairOfCells : ShapeInfo where
  shape := [2]
  stride := [1]
  offset := 0
  elementWiseStride := 1
  order := 'c'
  stride_length := rfl

/-- A result whose coordinates all lie in one cell. -/
def broadcastCell : ShapeInfo where
  shape := [2]
  stride := [0]
  offset := 0
  elementWiseStride := 0
  order := 'c'
  stride_length := rfl

/-- A result that maps two coordinates to one cell cannot hold both values. -/
theorem not_exec_pointwise_always :
    ¬ ∀ (op : Int → Int → Unit → Int) (settings : Settings) (x y z : ShapeInfo)
      (dx dy result : Int), x.shape = y.shape → x.shape = z.shape → x.Positive → x.HonestEws →
        y.HonestEws → z.HonestEws → SharesOrDisjoint x dx z result →
        SharesOrDisjoint y dy z result →
        ∃ fuel work, exec fuel settings x y z dx dy result = some work ∧
          WritesPointwise op () x y z dx dy result work := by
  intro h
  have hdisjoint : SharesOrDisjoint pairOfCells 0 broadcastCell 10 := by
    refine Or.inr fun c d hc hd => ?_
    rcases hc with _ | ⟨hi, _ | _⟩
    rcases hd with _ | ⟨hj, _ | _⟩
    simp only [pairOfCells, broadcastCell, dot_cons, dot_nil_left, nsmul_eq_mul]
    omega
  obtain ⟨_, work, -, hpoint⟩ := h (fun a _ _ => a) (Settings.initial 4 (by decide))
    pairOfCells pairOfCells broadcastCell 0 0 10 rfl rfl (by decide) (by decide) (by decide)
    (by decide) hdisjoint hdisjoint
  obtain ⟨-, hmemory⟩ := hpoint _ (List.Perm.refl _)
  have hbox : ∀ i : Nat, i < 2 → InBox pairOfCells.shape [i] := fun i hi => .cons hi .nil
  have hzero := (hmemory id).1 [0] (hbox 0 (by decide))
  have hone := (hmemory id).1 [1] (hbox 1 (by decide))
  simp only [pairOfCells, broadcastCell, dot_cons, dot_nil_left, nsmul_eq_mul] at hzero hone
  exact absurd (hzero.symm.trans hone) (by decide)

end Operation

end Loops
end LibND4J
