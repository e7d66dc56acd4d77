import LibND4J.Arrays.Cells
import LibND4J.Arrays.Tilei
import LibND4J.Convolutions.Pooling2D
import LibND4J.Library.Levels

/-!
# Maxima of windows

`maxpool2d` starts every maximum at `-MAX_FLOAT`, takes the places of a window that lie
outside the image for zeros, and stores the maxima by their index into an array of the input's
order.

Main results:

- Theorem `isGreatest_poolingCell`: what an iteration takes the maximum of.
- Theorem `poolsMaxima_iff`: for which values, geometries and orders the output holds the
  maxima of the windows.
-/

namespace LibND4J
namespace Convolutions

open Accumulation Arrays Shape Strided

section MaxPool

variable {T : Type} [Field T] [LinearOrder T] {pow : T → T → T} {lowest : T}

/-- The coordinates of the input that the window of an output reads. -/
def windowCells (w : PoolWindow) (x : ShapeInfo) (q : List Nat) : Set (List Nat) :=
  {p | ∃ place ∈ w.places (x.shape.getD 2 0) (x.shape.getD 3 0) (q.getD 2 0) (q.getD 3 0),
    p = [q.getD 0 0, q.getD 1 0, place.1.toNat, place.2.toNat]}

/-- A tap of the window of an output lies outside the image. -/
def Clipped (w : PoolWindow) (x : ShapeInfo) (hCol wCol : Nat) : Prop :=
  ∃ tap ∈ w.taps,
    insideImage (x.shape.getD 2 0) (x.shape.getD 3 0) (w.place hCol wCol tap) = false

/-- For images with values of a kind, every element of the output is the maximum of its window. -/
def PoolsMaxima (pow : T → T → T) (lowest : T) (argI : List Int) (x z : ShapeInfo) (values : Set T) :
    Prop :=
  ∀ (schedule : List Nat) (dx memory : Int → T), schedule.Perm (List.range z.length) →
    (∀ p, InBox x.shape p → (NDArray.mk x dx).element p ∈ values) →
    ∃ out, maxpool2d pow lowest argI x z schedule dx memory = .ok out ∧
      ∀ q, InBox z.shape q → IsGreatest
        ((NDArray.mk x dx).element '' windowCells (maxpool2dParams (T := T) argI x z).window x q)
        ((NDArray.mk z out).element q)

/-- No value is below the start, none is below the zeros of a clipped window, and the output has
the windows in the order of the loop, unless they read the same. -/
structure MaximaFit (lowest : T) (w : PoolWindow) (x z : ShapeInfo) (values : Set T) : Prop where
  lowest_le : ∀ v ∈ values, lowest ≤ v
  zero_le : ∀ hCol < z.shape.getD 2 0, ∀ wCol < z.shape.getD 3 0, Clipped w x hCol wCol →
    ∀ v ∈ values, 0 ≤ v
  ordered : values.Subsingleton ∨ ∀ k < z.length,
    windowCells w x (decode z.shape k) = windowCells w x (coordinateOf z.isFOrder z.shape k)

/-! ## One iteration -/

variable {x z : ShapeInfo} {samples depth height width outH outW : Nat} {w : PoolWindow}

/-- What a tap of an output looks at. -/
def pooledValue (w : PoolWindow) (x : ShapeInfo) (dx : Int → T) (q : List Nat) (tap : Nat × Nat) : T :=
  if insideImage (x.shape.getD 2 0) (x.shape.getD 3 0) (w.place (q.getD 2 0) (q.getD 3 0) tap) then
    (NDArray.mk x dx).element [q.getD 0 0, q.getD 1 0,
      (w.place (q.getD 2 0) (q.getD 3 0) tap).1.toNat,
      (w.place (q.getD 2 0) (q.getD 3 0) tap).2.toNat]
  else 0

/-- Places inside the image are coordinates of the input. -/
theorem inBox_place (hx : x.shape = [samples, depth, height, width]) {b c : Nat} (hb : b < samples)
    (hc : c < depth) {place : Int × Int} (hplace : insideImage height width place = true) :
    InBox x.shape [b, c, place.1.toNat, place.2.toNat] := by
  simp only [insideImage, decide_eq_true_eq] at hplace
  rw [hx]
  exact .cons hb (.cons hc (.cons (by omega) (.cons (by omega) .nil)))

theorem inBox_windowCells (hx : x.shape = [samples, depth, height, width]) {b c y u : Nat}
    (hb : b < samples) (hc : c < depth) {p : List Nat} (hp : p ∈ windowCells w x [b, c, y, u]) :
    InBox x.shape p := by
  obtain ⟨place, hplace, rfl⟩ := hp
  refine inBox_place hx hb hc ?_
  have hinside := mem_places hplace
  rwa [hx] at hinside

/-- The digits of the index of an output. -/
theorem outputDigits (hz : z.shape = [samples, depth, outH, outW]) {b c y u : Nat} (hc : c < depth)
    (hy : y < outH) (hu : u < outW) :
    encode z.shape [b, c, y, u] % outW = u ∧ encode z.shape [b, c, y, u] / outW % outH = y ∧
      encode z.shape [b, c, y, u] / outW / outH / depth = b ∧
      encode z.shape [b, c, y, u] / outW / outH % depth = c := by
  have hencode : encode z.shape [b, c, y, u] = ((b * depth + c) * outH + y) * outW + u := by
    rw [hz]
    simp only [encode, List.prod_cons, List.prod_nil, mul_one]
    ring
  rw [hencode, mul_add_mod_of_lt hu, mul_add_div_of_lt hu, mul_add_mod_of_lt hy,
    mul_add_div_of_lt hy, mul_add_mod_of_lt hc, mul_add_div_of_lt hc]
  exact ⟨rfl, rfl, rfl, rfl⟩

variable (hx : x.shape = [samples, depth, height, width])

include hx

/-- An iteration takes the maximum of the start and of what the taps look at. -/
theorem isGreatest_poolingCell (hz : z.shape = [samples, depth, outH, outW]) (e : T) (dx : Int → T)
    {q : List Nat} (hq : InBox z.shape q) :
    IsGreatest (insert lowest (pooledValue w x dx q '' {tap | tap ∈ w.taps}))
      (poolingCell pow lowest ⟨w, 0, e⟩ x z dx (encode z.shape q)) := by
  have hbox := hq
  rw [hz] at hbox
  rcases hbox with _ | ⟨hb, _ | ⟨hc, _ | ⟨hy, _ | ⟨hu, _ | _⟩⟩⟩⟩
  rename_i b c y u
  obtain ⟨hmod, hrow, hsample, hchannel⟩ := outputDigits (b := b) hz hc hy hu
  have hstride : x.stride.length = 4 := by rw [x.stride_length, hx]; rfl
  obtain ⟨s₀, s₁, s₂, s₃, hs⟩ : ∃ s₀ s₁ s₂ s₃, x.stride = [s₀, s₁, s₂, s₃] := by
    match hlist : x.stride, hstride with
    | [s₀, s₁, s₂, s₃], _ => exact ⟨s₀, s₁, s₂, s₃, rfl⟩
  have htap : ∀ tap, (if insideImage height width (w.place y u tap) then
      dx (b * s₀ + c * s₁ + w.hOffset y * s₂ + w.wOffset u * s₃ +
        (tap.1 * w.dH * s₂ + tap.2 * w.dW * s₃)) else 0) =
      pooledValue w x dx [b, c, y, u] tap := by
    intro tap
    simp only [pooledValue, hx, List.getD_cons_zero, List.getD_cons_succ]
    split
    · rename_i hinside
      rw [element_eq (inBox_place hx hb hc hinside), hs]
      simp only [insideImage, decide_eq_true_eq] at hinside
      simp only [dot_cons, dot_nil_left, nsmul_eq_mul, add_zero]
      rw [Int.toNat_of_nonneg hinside.1, Int.toNat_of_nonneg hinside.2.1]
      simp only [PoolWindow.place]
      congr 1
      ring
    · rfl
  have hmax : ∀ res val : T, poolingStep pow ⟨w, 0, e⟩ res val = max res val := by
    intro res val
    simp only [poolingStep, if_true]
    split
    · rename_i hlt
      exact (max_eq_right hlt.le).symm
    · rename_i hle
      exact (max_eq_left (not_lt.mp hle)).symm
  have hcell : poolingCell pow lowest ⟨w, 0, e⟩ x z dx (encode z.shape [b, c, y, u]) =
      w.taps.foldl (fun res tap => max res (pooledValue w x dx [b, c, y, u] tap)) lowest := by
    have hdims : x.shape.getD 1 0 = depth ∧ x.shape.getD 2 0 = height ∧ x.shape.getD 3 0 = width ∧
        z.shape.getD 2 0 = outH ∧ z.shape.getD 3 0 = outW := by
      rw [hx, hz]
      exact ⟨rfl, rfl, rfl, rfl, rfl⟩
    simp only [poolingCell, hmax, hdims, hmod, hrow, hsample, hchannel, hs,
      List.getD_cons_zero, List.getD_cons_succ, htap]
    rfl
  rw [hcell]
  exact Levels.isGreatest_foldl_max _ _ _

/-- The maximum of a window is what the taps leave, if neither the start nor the zeros of a clipped
window are above it. -/
theorem isGreatest_windowCells {dx : Int → T} {b c y u : Nat} {m : T}
    (hm : IsGreatest (insert lowest (pooledValue w x dx [b, c, y, u] '' {tap | tap ∈ w.taps})) m)
    (hmeets : w.places height width y u ≠ [])
    (hlowest : ∀ p ∈ windowCells w x [b, c, y, u], lowest ≤ (NDArray.mk x dx).element p)
    (hzero : Clipped w x y u → ∀ p ∈ windowCells w x [b, c, y, u],
      0 ≤ (NDArray.mk x dx).element p) :
    IsGreatest ((NDArray.mk x dx).element '' windowCells w x [b, c, y, u]) m := by
  have hdims : x.shape.getD 2 0 = height ∧ x.shape.getD 3 0 = width := by
    rw [hx]
    exact ⟨rfl, rfl⟩
  have hupper : ∀ p ∈ windowCells w x [b, c, y, u], (NDArray.mk x dx).element p ≤ m := by
    rintro p ⟨place, hplace, rfl⟩
    obtain ⟨hmem, hinside⟩ := List.mem_filter.mp hplace
    obtain ⟨tap, htap, rfl⟩ := List.mem_map.mp hmem
    refine hm.2 (Set.mem_insert_of_mem _ ⟨tap, htap, ?_⟩)
    exact if_pos hinside
  obtain ⟨place, hplace⟩ := List.exists_mem_of_ne_nil _ hmeets
  have hsome : [b, c, place.1.toNat, place.2.toNat] ∈ windowCells w x [b, c, y, u] := by
    refine ⟨place, ?_, rfl⟩
    rwa [hdims.1, hdims.2]
  refine ⟨?_, by rintro _ ⟨p, hp, rfl⟩; exact hupper p hp⟩
  rcases hm.1 with hstart | ⟨tap, htap, hvalue⟩
  · exact ⟨_, hsome, le_antisymm (hupper _ hsome) (hstart ▸ hlowest _ hsome)⟩
  · rw [pooledValue] at hvalue
    split at hvalue
    · rename_i hinside
      exact ⟨_, ⟨_, List.mem_filter.mpr ⟨List.mem_map_of_mem htap, hinside⟩, rfl⟩, hvalue⟩
    · rename_i houtside
      have hclipped : Clipped w x y u := ⟨tap, htap, Bool.eq_false_iff.mpr houtside⟩
      exact ⟨_, hsome, le_antisymm (hupper _ hsome) (hvalue ▸ hzero hclipped _ hsome)⟩

/-! ## All iterations -/

/-- The output holds at its cell `k` what iteration `k` stores. -/
theorem poolsMaxima_iff_cells (hzpos : z.Positive) (hdense : Consecutive z.isFOrder z)
    (argI : List Int) (values : Set T) :
    PoolsMaxima pow lowest argI x z values ↔
      ∀ dx : Int → T, (∀ p, InBox x.shape p → (NDArray.mk x dx).element p ∈ values) →
        ∀ k < z.length, IsGreatest
          ((NDArray.mk x dx).element '' windowCells (maxpool2dParams (T := T) argI x z).window x
            (coordinateOf z.isFOrder z.shape k))
          (poolingCell pow lowest (maxpool2dParams argI x z) x z dx k) := by
  have hrank : x.rank = 4 := by rw [ShapeInfo.rank, hx]; rfl
  have hrun : ∀ (schedule : List Nat) (dx memory : Int → T),
      maxpool2d pow lowest argI x z schedule dx memory = .ok (pooling2DExecSpecial pow lowest
        (maxpool2dParams argI x z) x z schedule dx memory) := by
    intro schedule dx memory
    rw [maxpool2d, requireAll_rankCondition hrank]
    rfl
  have hcell : ∀ (schedule : List Nat) (dx memory : Int → T),
      schedule.Perm (List.range z.length) → ∀ k < z.length,
      (NDArray.mk z (pooling2DExecSpecial pow lowest (maxpool2dParams argI x z) x z schedule dx
        memory)).element (coordinateOf z.isFOrder z.shape k) =
      poolingCell pow lowest (maxpool2dParams argI x z) x z dx k := by
    intro schedule dx memory hschedule k hk
    rw [element_coordinateOf _ hzpos _ hk]
    show pooling2DExecSpecial pow lowest _ x z schedule dx memory
      (elementOffset z.isFOrder z.axes k) = _
    rw [hdense k hk, pooling2DExecSpecial_apply _ hschedule dx memory hk]
  have hbij := bijOn_coordinateOf z.isFOrder hzpos
  constructor
  · intro h dx hvalues k hk
    obtain ⟨out, hout, hgreatest⟩ := h (List.range z.length) dx dx (List.Perm.refl _) hvalues
    rw [hrun] at hout
    have hk' := hgreatest _ (hbij.mapsTo hk)
    rwa [← Except.ok.inj hout, hcell _ dx dx (List.Perm.refl _) k hk] at hk'
  · intro h schedule dx memory hschedule hvalues
    refine ⟨_, hrun schedule dx memory, fun q hq => ?_⟩
    obtain ⟨k, hk, rfl⟩ := hbij.surjOn hq
    rw [hcell schedule dx memory hschedule k hk]
    exact h dx hvalues k hk

omit hx

omit [Field T] [LinearOrder T] in
/-- An image with a given value at every coordinate. -/
theorem element_image (hcells : CellsApart x) (f : List Nat → T) {p : List Nat}
    (hp : InBox x.shape p) :
    (NDArray.mk x fun cell => f (coordinateBuffer x cell)).element p = f p :=
  congrArg f (element_coordinateBuffer hcells hp)

theorem exists_digits (hz : z.shape = [samples, depth, outH, outW]) {q : List Nat}
    (hq : InBox z.shape q) :
    ∃ b < samples, ∃ c < depth, ∃ y < outH, ∃ u < outW, q = [b, c, y, u] := by
  rw [hz] at hq
  rcases hq with _ | ⟨hb, _ | ⟨hc, _ | ⟨hy, _ | ⟨hu, _ | _⟩⟩⟩⟩
  exact ⟨_, hb, _, hc, _, hy, _, hu, rfl⟩

/-- Every window meets the image. -/
def WindowsMeet (w : PoolWindow) (x z : ShapeInfo) : Prop :=
  ∀ hCol < z.shape.getD 2 0, ∀ wCol < z.shape.getD 3 0,
    w.places (x.shape.getD 2 0) (x.shape.getD 3 0) hCol wCol ≠ []

theorem WindowsMeet.nonempty (hmeet : WindowsMeet w x z)
    (hz : z.shape = [samples, depth, outH, outW]) {q : List Nat} (hq : InBox z.shape q) :
    (windowCells w x q).Nonempty := by
  obtain ⟨b, -, c, -, y, hy, u, hu, rfl⟩ := exists_digits hz hq
  obtain ⟨place, hplace⟩ := List.exists_mem_of_ne_nil _ (hmeet y (by rwa [hz]) u (by rwa [hz]))
  exact ⟨_, place, hplace, rfl⟩

/-- Where the values fit, every iteration stores the maximum of its window. -/
theorem isGreatest_of_fits (hx : x.shape = [samples, depth, height, width])
    (hz : z.shape = [samples, depth, outH, outW]) (hmeet : WindowsMeet w x z) {values : Set T}
    (hlowest : ∀ v ∈ values, lowest ≤ v)
    (hzero : ∀ hCol < z.shape.getD 2 0, ∀ wCol < z.shape.getD 3 0, Clipped w x hCol wCol →
      ∀ v ∈ values, 0 ≤ v) {dx : Int → T}
    (hvalues : ∀ p, InBox x.shape p → (NDArray.mk x dx).element p ∈ values) (e : T) {q : List Nat}
    (hq : InBox z.shape q) :
    IsGreatest ((NDArray.mk x dx).element '' windowCells w x q)
      (poolingCell pow lowest ⟨w, 0, e⟩ x z dx (encode z.shape q)) := by
  have hcell := @isGreatest_poolingCell T _ _ pow lowest x z _ _ _ _ _ _ w hx hz e dx q hq
  obtain ⟨b, hb, c, hc, y, hy, u, hu, rfl⟩ := exists_digits hz hq
  have hmeets := hmeet y (by rwa [hz]) u (by rwa [hz])
  rw [hx] at hmeets
  exact isGreatest_windowCells hx hcell hmeets
    (fun p hp => hlowest _ (hvalues p (inBox_windowCells hx hb hc hp)))
    fun hclipped p hp => hzero y (by rwa [hz]) u (by rwa [hz]) hclipped _
      (hvalues p (inBox_windowCells hx hb hc hp))

/-! ## When the output holds the maxima -/

omit [Field T] in
/-- The greatest of values that are all the same. -/
theorem eq_of_isGreatest {α : Type} {f : α → T} {s : Set α} {m v : T} (h : IsGreatest (f '' s) m)
    (hall : ∀ a ∈ s, f a = v) : m = v := by
  obtain ⟨a, ha, rfl⟩ := h.1
  exact hall a ha

omit [Field T] in
/-- Sets of coordinates whose maxima agree on all images of two values have the same members. -/
theorem subset_of_isGreatest (hcells : CellsApart x) {values : Set T} {low high : T}
    (hlow : low ∈ values) (hhigh : high ∈ values) (hlt : low < high) {A B : Set (List Nat)}
    (hA : ∀ p ∈ A, InBox x.shape p) (hB : ∀ p ∈ B, InBox x.shape p)
    (h : ∀ dx : Int → T, (∀ p, InBox x.shape p → (NDArray.mk x dx).element p ∈ values) →
      ∃ m, IsGreatest ((NDArray.mk x dx).element '' A) m ∧
        IsGreatest ((NDArray.mk x dx).element '' B) m) : A ⊆ B := by
  classical
  intro p hp
  by_contra hnot
  -- low on the one set, high elsewhere
  obtain ⟨m, hmA, hmB⟩ := h
    (fun cell => if coordinateBuffer x cell ∈ B then low else high) fun c hc => by
      rw [element_image hcells (fun c => if c ∈ B then low else high) hc]
      split
      · exact hlow
      · exact hhigh
  have hm : m = low := eq_of_isGreatest hmB fun c hc => by
    rw [element_image hcells (fun c => if c ∈ B then low else high) (hB c hc), if_pos hc]
  have hle := hmA.2 ⟨p, hp, rfl⟩
  rw [element_image hcells (fun c => if c ∈ B then low else high) (hA p hp), if_neg hnot, hm] at hle
  exact absurd hlt (not_lt.mpr hle)

/-- An image with one value everywhere shows what a window adds to it. -/
theorem le_of_constant (hx : x.shape = [samples, depth, height, width])
    (hz : z.shape = [samples, depth, outH, outW]) {values : Set T} {e : T}
    (h : ∀ dx : Int → T, (∀ p, InBox x.shape p → (NDArray.mk x dx).element p ∈ values) →
      ∀ k < z.length, IsGreatest
        ((NDArray.mk x dx).element '' windowCells w x (coordinateOf z.isFOrder z.shape k))
        (poolingCell pow lowest ⟨w, 0, e⟩ x z dx k))
    {v : T} (hv : v ∈ values) {q : List Nat} (hq : InBox z.shape q) {a : T}
    (ha : a ∈ insert lowest (pooledValue w x (fun _ => v) q '' {tap | tap ∈ w.taps})) : a ≤ v := by
  have hcell := h (fun _ => v) (fun _ _ => hv) (encode z.shape q) (encode_lt hq)
  rw [← eq_of_isGreatest hcell fun _ _ => rfl]
  exact (isGreatest_poolingCell hx hz e _ hq).2 ha

/-- The output holds the maxima of the windows for all images with values of a kind exactly if
the values fit. -/
theorem poolsMaxima_iff (argI : List Int) (hx : x.shape = [samples, depth, height, width])
    (hcells : CellsApart x) (hz : z.shape = [samples, depth, outH, outW]) (hzpos : z.Positive)
    (hdense : Consecutive z.isFOrder z)
    (hmeet : WindowsMeet (maxpool2dParams (T := T) argI x z).window x z) (values : Set T) :
    PoolsMaxima pow lowest argI x z values ↔
      MaximaFit lowest (maxpool2dParams (T := T) argI x z).window x z values := by
  have hparams : maxpool2dParams (T := T) argI x z =
      ⟨(maxpool2dParams (T := T) argI x z).window, 0, 1⟩ := rfl
  rw [poolsMaxima_iff_cells hx hzpos hdense, hparams]
  generalize (maxpool2dParams (T := T) argI x z).window = w at hmeet ⊢
  have hdecode := bijOn_decode hzpos
  have hcoord := bijOn_coordinateOf z.isFOrder hzpos
  have hinBox : ∀ q, InBox z.shape q → ∀ p ∈ windowCells w x q, InBox x.shape p := by
    intro q hq p hp
    obtain ⟨b, hb, c, hc, y, -, u, -, rfl⟩ := exists_digits hz hq
    exact inBox_windowCells hx hb hc hp
  have hstored : (∀ v ∈ values, lowest ≤ v) →
      (∀ hCol < z.shape.getD 2 0, ∀ wCol < z.shape.getD 3 0, Clipped w x hCol wCol →
        ∀ v ∈ values, 0 ≤ v) →
      ∀ dx : Int → T, (∀ p, InBox x.shape p → (NDArray.mk x dx).element p ∈ values) →
      ∀ k < z.length, IsGreatest ((NDArray.mk x dx).element '' windowCells w x (decode z.shape k))
        (poolingCell pow lowest ⟨w, 0, 1⟩ x z dx k) := by
    intro hlowest hzero dx hvalues k hk
    have hcell := @isGreatest_of_fits T _ _ pow lowest x z _ _ _ _ _ _ w hx hz hmeet values hlowest
      hzero dx hvalues 1 _ (hdecode.mapsTo hk)
    rwa [encode_decode hzpos hk] at hcell
  constructor
  · intro h
    have hlowest : ∀ v ∈ values, lowest ≤ v := fun v hv =>
      le_of_constant hx hz h hv (hdecode.mapsTo hzpos.length_pos) (Set.mem_insert _ _)
    have hzero : ∀ hCol < z.shape.getD 2 0, ∀ wCol < z.shape.getD 3 0, Clipped w x hCol wCol →
        ∀ v ∈ values, 0 ≤ v := by
      rintro hCol hh wCol hw ⟨tap, htap, houtside⟩ v hv
      have hq : InBox z.shape [0, 0, hCol, wCol] := by
        have hpos : ∀ d ∈ [samples, depth, outH, outW], 0 < d := hz ▸ hzpos
        rw [hz] at hh hw ⊢
        exact .cons (hpos _ (by simp)) (.cons (hpos _ (by simp)) (.cons hh (.cons hw .nil)))
      refine le_of_constant hx hz h hv hq (Set.mem_insert_of_mem _ ⟨tap, htap, ?_⟩)
      exact if_neg (Bool.eq_false_iff.mp houtside)
    refine ⟨hlowest, hzero, or_iff_not_imp_left.mpr fun hmany k hk => ?_⟩
    obtain ⟨low, hlow, high, hhigh, hlt⟩ := Set.not_subsingleton_iff.mp hmany |>.exists_lt
    have hagree : ∀ dx : Int → T, (∀ p, InBox x.shape p → (NDArray.mk x dx).element p ∈ values) →
        ∃ m, IsGreatest ((NDArray.mk x dx).element '' windowCells w x (decode z.shape k)) m ∧
          IsGreatest ((NDArray.mk x dx).element '' windowCells w x
            (coordinateOf z.isFOrder z.shape k)) m :=
      fun dx hvalues => ⟨_, hstored hlowest hzero dx hvalues k hk, h dx hvalues k hk⟩
    have hfirst := hinBox _ (hdecode.mapsTo hk)
    have hsecond := hinBox _ (hcoord.mapsTo hk)
    exact Set.Subset.antisymm (subset_of_isGreatest hcells hlow hhigh hlt hfirst hsecond hagree)
      (subset_of_isGreatest hcells hlow hhigh hlt hsecond hfirst fun dx hvalues =>
        (hagree dx hvalues).imp fun _ => And.symm)
  · intro h dx hvalues k hk
    have hcell := hstored h.lowest_le h.zero_le dx hvalues k hk
    rcases h.ordered with hone | hsame
    · -- all elements of the image are the same
      have hall : ∀ p, InBox x.shape p → (NDArray.mk x dx).element p =
          poolingCell pow lowest ⟨w, 0, 1⟩ x z dx k := by
        intro p hp
        obtain ⟨p', hp', heq⟩ := hcell.1
        rw [← heq]
        exact hone (hvalues p hp) (hvalues p' (hinBox _ (hdecode.mapsTo hk) p' hp'))
      obtain ⟨p, hp⟩ := hmeet.nonempty hz (hcoord.mapsTo hk)
      refine ⟨⟨p, hp, hall p (hinBox _ (hcoord.mapsTo hk) p hp)⟩, ?_⟩
      rintro _ ⟨p', hp', rfl⟩
      exact (hall p' (hinBox _ (hcoord.mapsTo hk) p' hp')).le
    · rw [← hsame k hk]
      exact hcell

end MaxPool

theorem windowsMeet_onePixel :
    WindowsMeet (maxpool2dParams (T := ℚ) identityArguments (shapeBuffer [1, 1, 1, 1])
      (updateStrides [1, 1, 1, 1] 'c')).window (shapeBuffer [1, 1, 1, 1])
      (updateStrides [1, 1, 1, 1] 'c') := by
  unfold WindowsMeet
  decide

theorem poolsMaxima_iff_onePixel :
    PoolsMaxima firstPower (-10 ^ 37) identityArguments (shapeBuffer [1, 1, 1, 1])
        (updateStrides [1, 1, 1, 1] 'c') (Set.Ici (-10 ^ 37)) ↔
      MaximaFit (-10 ^ 37 : ℚ) (maxpool2dParams (T := ℚ) identityArguments (shapeBuffer [1, 1, 1, 1])
        (updateStrides [1, 1, 1, 1] 'c')).window (shapeBuffer [1, 1, 1, 1])
        (updateStrides [1, 1, 1, 1] 'c') (Set.Ici (-10 ^ 37)) :=
  poolsMaxima_iff identityArguments rfl (cellsApart_of_nodup (by decide) (by decide)) rfl
    (by decide) (by unfold Consecutive; decide) windowsMeet_onePixel _

/-- A kernel of two by two with a padding of one. -/
def paddedArguments : List Int :=
  [2, 2, 1, 1, 1, 1, 1, 1, 0]

/-- The maximum of a window with a negative pixel and three places outside is zero. -/
theorem not_poolsMaxima_always :
    ¬ ∀ (argI : List Int) (samples depth height width outH outW : Nat),
      pooling2dShape argI (shapeBuffer [samples, depth, height, width]) =
        [(samples : Int), (depth : Int), (outH : Int), (outW : Int)] →
      0 < samples → 0 < depth → 0 < height → 0 < width → 0 < outH → 0 < outW →
      WindowsMeet (maxpool2dParams (T := ℚ) argI (shapeBuffer [samples, depth, height, width])
        (updateStrides [samples, depth, outH, outW] 'c')).window
        (shapeBuffer [samples, depth, height, width])
        (updateStrides [samples, depth, outH, outW] 'c') →
      PoolsMaxima firstPower (-10 ^ 37) argI (shapeBuffer [samples, depth, height, width])
        (updateStrides [samples, depth, outH, outW] 'c') (Set.Ici (-10 ^ 37)) := by
  intro h
  have hmaxima := h paddedArguments 1 1 1 1 2 2 (by decide) (by decide) (by decide) (by decide)
    (by decide) (by decide) (by decide) (by unfold WindowsMeet; decide)
  rw [poolsMaxima_iff_cells (x := shapeBuffer [1, 1, 1, 1]) rfl (by decide)
    (by unfold Consecutive; decide)] at hmaxima
  have hle := @le_of_constant ℚ _ _ firstPower (-10 ^ 37) (shapeBuffer [1, 1, 1, 1])
    (updateStrides [1, 1, 2, 2] 'c') 1 1 1 1 2 2 _ rfl rfl _ 1 hmaxima (-1)
    (Set.mem_Ici.mpr (by norm_num)) [0, 0, 0, 0] (.cons (by decide) (.cons (by decide)
      (.cons (by decide) (.cons (by decide) .nil)))) 0
    (Set.mem_insert_of_mem _ ⟨(0, 0), by decide, if_neg (by decide)⟩)
  norm_num at hle

end Convolutions
end LibND4J
