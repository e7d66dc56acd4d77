import LibND4J.Library.Accumulation
import Mathlib.Tactic.Ring

/-!
# Convolution kernels on pointers

`validXCorr3Dptr` and its siblings walk through the input and the kernel with two pointers
that advance by a row, and after the rows of a slice by the rest of the slice.  The walk is the
same for all of them, except that two walk through the kernel backwards.

Main results:

- Theorem `kernelVisits_eq`: the walk pairs the places of the kernel with those of a window.
- Theorem `mem_cells_of_visit`: the walk stays inside the input and the kernel.
- Theorem `validConv3Dptr_eq`: convolution is correlation with the reversed kernel.
- Theorem `kernels_correct`: the equality, the adjunction and the bounds.
-/

namespace LibND4J
namespace Convolutions

open Accumulation

/-! ## The walk -/

/-- One axis: `it`, `kt` and `st`, and so on. -/
structure KernelAxis where
  input : Int
  kernel : Nat
  stride : Nat
deriving DecidableEq, Repr

/-- `tot`, `tor` and `toc` of the valid operations. -/
def KernelAxis.validSize (a : KernelAxis) : Int :=
  (a.input - a.kernel).tdiv a.stride + 1

/-- `tor` and `toc` of the full operations. -/
def KernelAxis.fullSize (a : KernelAxis) : Int :=
  (a.input - 1) * a.stride + a.kernel

/-- The two pointers and the pairs of cells read so far. -/
abbrev Walk := Int × Int × List (Int × Int)

section Walks

variable (kt kr kc : Nat) (rows columns direction : Int)

/-- The loop over `kx`. -/
def rowVisits (p w : Int) : List (Int × Int) :=
  (List.range kc).map fun kx : Nat => (p + kx, w + direction * kx)

/-- One iteration of the loop over `ky`: the next line of the input and of the kernel. -/
def rowStep (s : Walk) : Walk :=
  let (p, w, visits) := s
  (p + columns, w + direction * kc, visits ++ rowVisits kc direction p w)

/-- One iteration of the loop over `kz`: the lines of a slice, and the rest of the slice. -/
def sliceStep (s : Walk) : Walk :=
  let (p, w, visits) := (List.range kr).foldl (fun s _ => rowStep kc columns direction s) s
  (p + (rows - kr) * columns, w, visits)

/-- The cells that the pointers `pi_` (or `po_`) and `pw_` visit, for slices of so many rows and
columns. -/
def kernelVisits (p w : Int) : List (Int × Int) :=
  ((List.range kt).foldl (fun s _ => sliceStep kr kc rows columns direction s) (p, w, [])).2.2

end Walks

/-! ## The operations -/

/-- The counters `zz`, `yy` and `xx`. -/
abbrev Place := Nat × Nat × Nat

section Operations

variable {T : Type} [CommRing T] (aT aR aC : KernelAxis)

/-- The loops over the places, with the number of the iteration. -/
def places (t r c : Int) : List (Place × Nat) :=
  (List.range t.toNat ×ˢ List.range r.toNat ×ˢ List.range c.toNat).zipIdx

/-- The start of the window at a place, in slices of so many rows and columns. -/
def windowStart (rows columns : Int) (v : Place) : Int :=
  v.1 * aT.stride * rows * columns + v.2.1 * aR.stride * columns + v.2.2 * aC.stride

/-- A valid operation: a kernel pointer that starts at `start` and walks in `direction`. -/
def valid3Dptr (direction start : Int) (alpha : T) (t k r : Int → T) : Int → T :=
  addAll (fun v => (v.2 : Int))
    (fun v =>
      ((kernelVisits aT.kernel aR.kernel aC.kernel aR.input aC.input direction
        (windowStart aT aR aC aR.input aC.input v.1) start).map fun u => t u.1 * k u.2).sum * alpha)
    (places aT.validSize aR.validSize aC.validSize) r

def validXCorr3Dptr (alpha : T) (t k r : Int → T) : Int → T :=
  valid3Dptr aT aR aC 1 0 alpha t k r

def validConv3Dptr (alpha : T) (t k r : Int → T) : Int → T :=
  valid3Dptr aT aR aC (-1) ((aT.kernel : Int) * aR.kernel * aC.kernel - 1) alpha t k r

/-- The additions of a full operation: an input with the cells of the result and of the
kernel. -/
def fullVisits (direction start : Int) : List ((Place × Nat) × Int × Int) :=
  (places aT.input aR.input aC.input).flatMap fun v =>
    (kernelVisits aT.kernel aR.kernel aC.kernel aR.fullSize aC.fullSize direction
      (windowStart aT aR aC aR.fullSize aC.fullSize v.1) start).map fun u => (v, u)

/-- A full operation. -/
def full3Dptr (direction start : Int) (alpha : T) (t k r : Int → T) : Int → T :=
  addAll (fun v => v.2.1) (fun v => t v.1.2 * alpha * k v.2.2)
    (fullVisits aT aR aC direction start) r

def fullConv3Dptr (alpha : T) (t k r : Int → T) : Int → T :=
  full3Dptr aT aR aC 1 0 alpha t k r

def fullXCorr3Dptr (alpha : T) (t k r : Int → T) : Int → T :=
  full3Dptr aT aR aC (-1) ((aT.kernel : Int) * aR.kernel * aC.kernel - 1) alpha t k r

end Operations

/-! ## The pairs that the walk visits -/

/-- A loop that moves two pointers by constants and appends what it reads at them. -/
theorem walk_eq {step : Walk → Walk} {a b : Int} {out : Int → Int → List (Int × Int)}
    (hstep : ∀ p w visits, step (p, w, visits) = (p + a, w + b, visits ++ out p w))
    (n : Nat) (p w : Int) (visits : List (Int × Int)) :
    (List.range n).foldl (fun s _ => step s) (p, w, visits) =
      (p + n * a, w + n * b,
        visits ++ (List.range n).flatMap fun i : Nat => out (p + i * a) (w + i * b)) := by
  induction n with
  | zero => simp
  | succ n ih =>
      rw [List.range_succ, List.foldl_append, ih, List.foldl_cons, List.foldl_nil, hstep,
        List.flatMap_append, List.append_assoc]
      congr 1
      · push_cast
        ring
      · congr 1
        · push_cast
          ring
        · simp

theorem rowStep_eq (kc : Nat) (columns direction p w : Int) (visits : List (Int × Int)) :
    rowStep kc columns direction (p, w, visits) =
      (p + columns, w + direction * kc, visits ++ rowVisits kc direction p w) :=
  rfl

theorem sliceStep_eq (kr kc : Nat) (rows columns direction p w : Int)
    (visits : List (Int × Int)) :
    sliceStep kr kc rows columns direction (p, w, visits) =
      (p + rows * columns, w + kr * (direction * kc),
        visits ++ (List.range kr).flatMap fun ky : Nat =>
          rowVisits kc direction (p + ky * columns) (w + ky * (direction * kc))) := by
  rw [sliceStep, walk_eq (rowStep_eq kc columns direction)]
  simp only [Prod.mk.injEq, and_true]
  ring

/-- The walk pairs the places of the kernel with those of a window. -/
theorem kernelVisits_eq (kt kr kc : Nat) (rows columns direction p w : Int) :
    kernelVisits kt kr kc rows columns direction p w =
      (List.range kt ×ˢ List.range kr ×ˢ List.range kc).map fun place =>
        (p + ((place.1 * rows + place.2.1) * columns + place.2.2),
          w + direction * ((place.1 * kr + place.2.1) * kc + place.2.2)) := by
  rw [kernelVisits, walk_eq (sliceStep_eq kr kc rows columns direction)]
  simp only [List.nil_append, SProd.sprod, List.product, List.map_flatMap, List.map_map, rowVisits]
  refine List.flatMap_congr fun kz _ => List.flatMap_congr fun ky _ =>
    List.map_congr_left fun kx _ => ?_
  simp only [Function.comp_apply, Prod.mk.injEq]
  constructor <;> ring

/-- The number of an iteration is the index of its place. -/
theorem places_eq (t r c : Int) :
    places t r c = (List.range t.toNat ×ˢ List.range r.toNat ×ˢ List.range c.toNat).map fun v =>
      (v, v.1 * (r.toNat * c.toNat) + (v.2.1 * c.toNat + v.2.2)) := by
  have hindex := map_product_range (map_product_range (map_range_id c.toNat) r.toNat) t.toNat
  have hlength : (List.range t.toNat ×ˢ List.range r.toNat ×ˢ List.range c.toNat).length =
      t.toNat * (r.toNat * c.toNat) := by
    simp only [List.length_product, List.length_range]
  have hzip := @List.zip_map' _ _ _ id
    (fun v : Place => v.1 * (r.toNat * c.toNat) + (v.2.1 * c.toNat + v.2.2))
    (List.range t.toNat ×ˢ List.range r.toNat ×ˢ List.range c.toNat)
  rw [List.map_id] at hzip
  rw [places, List.zipIdx_eq_zip_range', hlength, ← List.range_eq_range', ← hindex]
  exact hzip

/-! ## Reversed kernels -/

/-- The second kernel is the first with all three axes reversed. -/
def IsReversed {T : Type} (kt kr kc : Nat) (k k' : Int → T) : Prop :=
  ∀ kz < kt, ∀ ky < kr, ∀ kx < kc,
    k' ((kz * kr + ky) * kc + kx) =
      k (((kt - 1 - kz) * kr + (kr - 1 - ky)) * kc + (kc - 1 - kx))

section Reversed

variable {T : Type} {aT aR aC : KernelAxis} {k k' : Int → T}

/-- Walking backwards through a kernel reads the reversed kernel forwards. -/
theorem map_kernelVisits_reversed (hk : IsReversed aT.kernel aR.kernel aC.kernel k k')
    {β : Type} (f : Int → T → β) (rows columns p : Int) :
    (kernelVisits aT.kernel aR.kernel aC.kernel rows columns (-1) p
        ((aT.kernel : Int) * aR.kernel * aC.kernel - 1)).map (fun u => f u.1 (k u.2)) =
      (kernelVisits aT.kernel aR.kernel aC.kernel rows columns 1 p 0).map
        fun u => f u.1 (k' u.2) := by
  rw [kernelVisits_eq, kernelVisits_eq, List.map_map, List.map_map]
  refine List.map_congr_left fun place hplace => ?_
  obtain ⟨kz, ky, kx⟩ := place
  simp only [List.mem_product, List.mem_range] at hplace
  obtain ⟨hz, hy, hx⟩ := hplace
  simp only [Function.comp_apply, zero_add, one_mul]
  rw [hk kz hz ky hy kx hx]
  congr 2
  ring

variable [CommRing T]

/-- Convolution is correlation with the reversed kernel. -/
theorem validConv3Dptr_eq (hk : IsReversed aT.kernel aR.kernel aC.kernel k k') (alpha : T)
    (t r : Int → T) :
    validConv3Dptr aT aR aC alpha t k r = validXCorr3Dptr aT aR aC alpha t k' r := by
  unfold validConv3Dptr validXCorr3Dptr valid3Dptr
  simp only [map_kernelVisits_reversed hk fun i x => t i * x]

end Reversed

/-! ## Strides that divide -/

/-- An axis with a stride that divides what the kernel leaves of the input. -/
structure DivisibleAxis where
  input : Nat
  kernel : Nat
  stride : Nat
  stride_pos : 0 < stride
  dvd : (stride : Int) ∣ input - kernel

namespace DivisibleAxis

/-- The axis of the valid operations. -/
def valid (a : DivisibleAxis) : KernelAxis :=
  ⟨a.input, a.kernel, a.stride⟩

/-- The axis of the full operations, whose input is the result of a valid one. -/
def full (a : DivisibleAxis) : KernelAxis :=
  ⟨a.valid.validSize, a.kernel, a.stride⟩

/-- The full operations compute the extent of the input of the valid ones. -/
theorem fullSize_full (a : DivisibleAxis) : a.full.fullSize = a.input := by
  have hcancel := Int.tdiv_mul_cancel a.dvd
  simp only [KernelAxis.fullSize, full, KernelAxis.validSize, valid]
  rw [add_sub_cancel_right, hcancel]
  ring

/-- A window stays inside the input. -/
theorem window_lt (a : DivisibleAxis) {z k : Nat} (hz : z < a.valid.validSize.toNat)
    (hk : k < a.kernel) : z * a.stride + k < a.input := by
  have hsize : (z : Int) + 1 ≤ a.valid.validSize := by omega
  have hmul : (z : Int) * a.stride ≤ (a.valid.validSize - 1) * a.stride :=
    Int.mul_le_mul_of_nonneg_right (by omega) (Int.natCast_nonneg _)
  have hfull := a.fullSize_full
  simp only [KernelAxis.fullSize, full] at hfull
  have hlt : ((z * a.stride + k : Nat) : Int) < a.input := by
    push_cast
    omega
  exact_mod_cast hlt

end DivisibleAxis

section Correct

variable (aT aR aC : DivisibleAxis)

/-- The length of the input of the valid operations, and of the result of the full ones. -/
def wideLength : Nat :=
  aT.input * aR.input * aC.input

/-- The length of the result of the valid operations, and of the input of the full ones. -/
def narrowLength : Nat :=
  aT.valid.validSize.toNat * (aR.valid.validSize.toNat * aC.valid.validSize.toNat)

def kernelLength : Nat :=
  aT.kernel * aR.kernel * aC.kernel

/-- The pointers into the kernel: forwards from its first cell, or backwards from its last. -/
def KernelPointer (direction start : Int) : Prop :=
  (direction = 1 ∧ start = 0) ∨
    (direction = -1 ∧ start = (aT.kernel : Int) * aR.kernel * aC.kernel - 1)

/-- The kernels are related to each other, and stay inside their buffers. -/
structure KernelsCorrect (T : Type) [CommRing T] : Prop where
  conv_eq : ∀ (alpha : T) (t k k' r : Int → T), IsReversed aT.kernel aR.kernel aC.kernel k k' →
    validConv3Dptr aT.valid aR.valid aC.valid alpha t k r =
      validXCorr3Dptr aT.valid aR.valid aC.valid alpha t k' r
  adjoint : ∀ (alpha : T) (t k g r r' : Int → T),
    (∀ i ∈ cells (narrowLength aT aR aC), r i = 0) →
    (∀ i ∈ cells (wideLength aT aR aC), r' i = 0) →
    innerProduct (cells (narrowLength aT aR aC))
        (validXCorr3Dptr aT.valid aR.valid aC.valid alpha t k r) g =
      innerProduct (cells (wideLength aT aR aC)) t
        (fullConv3Dptr aT.full aR.full aC.full alpha g k r')
  valid_inside : ∀ direction start, KernelPointer aT aR aC direction start →
    ∀ v ∈ places aT.valid.validSize aR.valid.validSize aC.valid.validSize,
      (v.2 : Int) ∈ cells (narrowLength aT aR aC) ∧
        ∀ u ∈ kernelVisits aT.kernel aR.kernel aC.kernel aR.valid.input aC.valid.input direction
            (windowStart aT.valid aR.valid aC.valid aR.valid.input aC.valid.input v.1) start,
          u.1 ∈ cells (wideLength aT aR aC) ∧ u.2 ∈ cells (kernelLength aT aR aC)
  full_inside : ∀ direction start, KernelPointer aT aR aC direction start →
    ∀ v ∈ fullVisits aT.full aR.full aC.full direction start,
      (v.1.2 : Int) ∈ cells (narrowLength aT aR aC) ∧ v.2.1 ∈ cells (wideLength aT aR aC) ∧
        v.2.2 ∈ cells (kernelLength aT aR aC)

variable {aT aR aC}

theorem place_mem {v : Place × Nat}
    (hv : v ∈ places aT.valid.validSize aR.valid.validSize aC.valid.validSize) :
    (v.2 : Int) ∈ cells (narrowLength aT aR aC) := by
  have hlt : v.2 < narrowLength aT aR aC := by
    simpa [List.length_product, narrowLength] using (List.mem_zipIdx hv).2.1
  rw [mem_cells]
  omega

/-- The walk stays inside the input and the kernel. -/
theorem mem_cells_of_visit {direction start : Int} (hpointer : KernelPointer aT aR aC direction start)
    {v : Place × Nat}
    (hv : v ∈ places aT.valid.validSize aR.valid.validSize aC.valid.validSize) {u : Int × Int}
    (hu : u ∈ kernelVisits aT.kernel aR.kernel aC.kernel aR.input aC.input direction
      (windowStart aT.valid aR.valid aC.valid aR.input aC.input v.1) start) :
    u.1 ∈ cells (wideLength aT aR aC) ∧ u.2 ∈ cells (kernelLength aT aR aC) := by
  obtain ⟨⟨zz, yy, xx⟩, iteration⟩ := v
  have hplace : (zz, yy, xx) ∈ List.range aT.valid.validSize.toNat ×ˢ
      List.range aR.valid.validSize.toNat ×ˢ List.range aC.valid.validSize.toNat :=
    (List.mem_zipIdx hv).2.2 ▸ List.getElem_mem _
  rw [kernelVisits_eq] at hu
  obtain ⟨⟨kz, ky, kx⟩, hk, rfl⟩ := List.mem_map.mp hu
  simp only [List.mem_product, List.mem_range] at hplace hk
  obtain ⟨hzz, hyy, hxx⟩ := hplace
  obtain ⟨hz, hy, hx⟩ := hk
  have hwide := mul_add_lt (mul_add_lt (aT.window_lt hzz hz) (aR.window_lt hyy hy))
    (aC.window_lt hxx hx)
  have hkernel := mul_add_lt (mul_add_lt hz hy) hx
  rw [← wideLength] at hwide
  rw [← kernelLength] at hkernel
  constructor
  · rw [mem_cells]
    have hcell : windowStart aT.valid aR.valid aC.valid aR.input aC.input (zz, yy, xx) +
        ((kz * aR.input + ky) * aC.input + kx) =
          ((((zz * aT.stride + kz) * aR.input + (yy * aR.stride + ky)) * aC.input +
            (xx * aC.stride + kx) : Nat) : Int) := by
      simp only [windowStart, DivisibleAxis.valid]
      push_cast
      ring
    rw [hcell]
    omega
  · rw [mem_cells]
    have hcell : (kz * aR.kernel + ky : Int) * aC.kernel + kx =
        (((kz * aR.kernel + ky) * aC.kernel + kx : Nat) : Int) := by
      push_cast
      ring
    have hlength : (aT.kernel : Int) * aR.kernel * aC.kernel = (kernelLength aT aR aC : Nat) := by
      rw [kernelLength]
      push_cast
      ring
    rw [hcell]
    rcases hpointer with ⟨rfl, rfl⟩ | ⟨rfl, rfl⟩
    · omega
    · rw [hlength]
      omega

/-- The full operations visit the windows of the valid ones. -/
theorem fullVisits_eq (direction start : Int) :
    fullVisits aT.full aR.full aC.full direction start =
      (places aT.valid.validSize aR.valid.validSize aC.valid.validSize).flatMap fun v =>
        (kernelVisits aT.kernel aR.kernel aC.kernel aR.input aC.input direction
          (windowStart aT.valid aR.valid aC.valid aR.input aC.input v.1) start).map
            fun u => (v, u) := by
  unfold fullVisits
  rw [aR.fullSize_full, aC.fullSize_full]
  rfl

theorem fullVisit_inside {direction start : Int} (hpointer : KernelPointer aT aR aC direction start)
    {v : (Place × Nat) × Int × Int} (hv : v ∈ fullVisits aT.full aR.full aC.full direction start) :
    (v.1.2 : Int) ∈ cells (narrowLength aT aR aC) ∧ v.2.1 ∈ cells (wideLength aT aR aC) ∧
      v.2.2 ∈ cells (kernelLength aT aR aC) := by
  rw [fullVisits_eq] at hv
  obtain ⟨place, hplace, hv⟩ := List.mem_flatMap.mp hv
  obtain ⟨u, hu, rfl⟩ := List.mem_map.mp hv
  exact ⟨place_mem hplace, mem_cells_of_visit hpointer hplace hu⟩

/-- The inner products over the same visits. -/
theorem adjoint_full {T : Type} [CommRing T] (alpha : T) (t k g r r' : Int → T)
    (hr : ∀ i ∈ cells (narrowLength aT aR aC), r i = 0)
    (hr' : ∀ i ∈ cells (wideLength aT aR aC), r' i = 0) :
    innerProduct (cells (narrowLength aT aR aC))
        (validXCorr3Dptr aT.valid aR.valid aC.valid alpha t k r) g =
      innerProduct (cells (wideLength aT aR aC)) t
        (fullConv3Dptr aT.full aR.full aC.full alpha g k r') := by
  have hinside : ∀ v ∈ fullVisits aT.full aR.full aC.full 1 0,
      v.2.1 ∈ cells (wideLength aT aR aC) :=
    fun v hv => (fullVisit_inside (Or.inl ⟨rfl, rfl⟩) hv).2.1
  rw [innerProduct_comm _ t, validXCorr3Dptr, valid3Dptr,
    innerProduct_addAll_zero (nodup_cells _) (fun v hv => place_mem hv) _ hr, fullConv3Dptr,
    full3Dptr, innerProduct_addAll_zero (nodup_cells _) hinside _ hr', fullVisits_eq, sum_flatMap]
  refine congrArg List.sum (List.map_congr_left fun v _ => ?_)
  rw [List.map_map, mul_assoc, ← List.sum_map_mul_right]
  refine congrArg List.sum (List.map_congr_left fun u _ => ?_)
  simp only [Function.comp_apply]
  ring

/-- Convolution is correlation with the reversed kernel, full convolution is the adjoint of
valid correlation, and all of them stay inside their buffers. -/
theorem kernels_correct (T : Type) [CommRing T] (aT aR aC : DivisibleAxis) :
    KernelsCorrect aT aR aC T where
  conv_eq := fun alpha t _ _ r hk => validConv3Dptr_eq hk alpha t r
  adjoint := adjoint_full
  valid_inside := fun _ _ hpointer _ hv =>
    ⟨place_mem hv, fun _ hu => mem_cells_of_visit hpointer hv hu⟩
  full_inside := fun _ _ hpointer _ hv => fullVisit_inside hpointer hv

end Correct

end Convolutions
end LibND4J
