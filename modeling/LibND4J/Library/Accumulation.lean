import LibND4J.Library.Stores
import Mathlib.Algebra.BigOperators.Ring.Finset

/-!
# Loops that add to cells

A step of such a loop adds a value to one cell of a memory.  The inner product of the memory
with another one then grows by the product of the value with the other memory's cell, so that a
loop that gathers along some pairs of cells and a loop that scatters along the same pairs are
adjoint.

Main results:

- Theorem `map_product_range`: nested loops over a dense box run through its cells.
- Theorem `innerProduct_storeAll` and `innerProduct_addAll`: the inner products of what
  the two kinds of loops leave.
- Theorem `SlicePasses.innerProduct_foldl`: loops that fill a buffer slice by slice.
- Theorem `sum_eq_sum_of_mem_iff`: two loops over the same pairs have the same sums.
- Theorem `sum_gather_eq_sum_scatter`: gathering and scattering along a relation.
-/

namespace Accumulation

open Stores

/-! ## Nested loops -/

section Nests

variable {α : Type*} {q r n : Nat}

/-- A cell of a dense box is below its volume. -/
theorem mul_add_lt {m : Nat} (hq : q < m) (hr : r < n) : q * n + r < m * n := by
  calc q * n + r < q * n + n := Nat.add_lt_add_left hr _
    _ = (q + 1) * n := (Nat.succ_mul q n).symm
    _ ≤ m * n := Nat.mul_le_mul_right n hq

/-- The quotient of a cell of a dense box. -/
theorem mul_add_div_of_lt (hr : r < n) : (q * n + r) / n = q := by
  rw [Nat.add_comm, Nat.add_mul_div_right _ _ (Nat.zero_lt_of_lt hr), Nat.div_eq_of_lt hr,
    Nat.zero_add]

/-- The remainder of a cell of a dense box. -/
theorem mul_add_mod_of_lt (hr : r < n) : (q * n + r) % n = r := by
  rw [Nat.add_comm, Nat.add_mul_mod_self_right, Nat.mod_eq_of_lt hr]

/-- A loop around a loop through `n` cells runs through the cells of the box. -/
theorem map_product_range {inner : List α} {cell : α → Nat} (h : inner.map cell = List.range n)
    (m : Nat) : (List.range m ×ˢ inner).map (fun p => p.1 * n + cell p.2) = List.range (m * n) := by
  induction m with
  | zero => simp [SProd.sprod, List.product]
  | succ m ih =>
      have hlast : (([m] : List Nat) ×ˢ inner).map (fun p => p.1 * n + cell p.2) =
          (List.range n).map fun i => m * n + i := by
        rw [← h, List.map_map]
        simp [SProd.sprod, List.product, Function.comp_def]
      have hsplit : (List.range (m + 1) ×ˢ inner) =
          (List.range m ×ˢ inner) ++ ([m] ×ˢ inner) := by
        rw [List.range_succ]
        exact List.flatMap_append
      rw [hsplit, List.map_append, ih, hlast, Nat.succ_mul, List.range_add]

/-- A single loop runs through its own cells. -/
theorem map_range_id (n : Nat) : (List.range n).map (fun i => i) = List.range n :=
  List.map_id _

/-- A sum over the cells of a box is a sum of the sums over its rows. -/
theorem sum_range_mul {R : Type*} [AddCommMonoid R] (m n : Nat) (f : Nat → R) :
    ∑ k ∈ Finset.range (m * n), f k =
      ∑ q ∈ Finset.range m, ∑ r ∈ Finset.range n, f (q * n + r) := by
  induction m with
  | zero => simp
  | succ m ih => rw [Nat.succ_mul, Finset.sum_range_add, ih, Finset.sum_range_succ]

end Nests

/-! ## Buffers -/

/-- The cells of a buffer. -/
def cells (length : Nat) : List Int :=
  (List.range length).map fun i : Nat => (i : Int)

/-- The cells of a part of a buffer. -/
def cellsFrom (start : Int) (length : Nat) : List Int :=
  (List.range length).map fun i : Nat => start + i

theorem mem_cells {length : Nat} {i : Int} : i ∈ cells length ↔ 0 ≤ i ∧ i < length := by
  rw [cells, List.mem_map]
  constructor
  · rintro ⟨k, hk, rfl⟩
    exact ⟨Int.natCast_nonneg k, by exact_mod_cast List.mem_range.mp hk⟩
  · rintro ⟨hnonneg, hlt⟩
    obtain ⟨k, rfl⟩ := Int.eq_ofNat_of_zero_le hnonneg
    exact ⟨k, List.mem_range.mpr (by exact_mod_cast hlt), rfl⟩

theorem mem_cellsFrom {start : Int} {length : Nat} {i : Int} :
    i ∈ cellsFrom start length ↔ start ≤ i ∧ i < start + length := by
  rw [cellsFrom, List.mem_map]
  constructor
  · rintro ⟨k, hk, rfl⟩
    have hk := List.mem_range.mp hk
    omega
  · rintro ⟨hle, hlt⟩
    exact ⟨(i - start).toNat, List.mem_range.mpr (by omega), by omega⟩

theorem nodup_cells (length : Nat) : (cells length).Nodup :=
  List.nodup_range.map fun _ _ h => Int.ofNat.inj h

theorem nodup_cellsFrom (start : Int) (length : Nat) : (cellsFrom start length).Nodup :=
  List.nodup_range.map fun _ _ h => Int.ofNat.inj (add_left_cancel h)

/-- Slices of one length, one after the other, make up a buffer. -/
theorem cells_eq_flatMap (n length : Nat) :
    cells (n * length) = (List.range n).flatMap fun k => cellsFrom (k * length : Nat) length := by
  rw [cells, ← map_product_range (map_range_id length) n]
  simp only [SProd.sprod, List.product, List.map_flatMap, List.map_map, cellsFrom]
  refine List.flatMap_congr fun k _ => List.map_congr_left fun i _ => ?_
  simp

section Slices

variable {β : Type*} {k length : Nat} {i : Int}

/-- Slices of one length do not meet. -/
theorem not_mem_cellsFrom_of_ne {l : Nat} (hi : i ∈ cellsFrom (k * length : Nat) length)
    (hne : k ≠ l) : i ∉ cellsFrom (l * length : Nat) length := by
  rw [mem_cellsFrom] at *
  rintro ⟨hle, hlt⟩
  rcases Nat.lt_or_gt_of_ne hne with hlt' | hlt'
  · have := Nat.mul_le_mul_right length hlt'
    rw [Nat.succ_mul] at this
    omega
  · have := Nat.mul_le_mul_right length hlt'
    rw [Nat.succ_mul] at this
    omega

/-- Passes over slices, each of which fills its own slice without reading it and leaves the
others alone. -/
structure SlicePasses (pass : Nat → (Int → β) → Int → β) (length : Nat) : Prop where
  fill : ∀ k m m', ∀ i ∈ cellsFrom (k * length : Nat) length, pass k m i = pass k m' i
  frame : ∀ k m i, i ∉ cellsFrom (k * length : Nat) length → pass k m i = m i

/-- Each slice holds what its own pass leaves. -/
theorem SlicePasses.foldl_apply {pass : Nat → (Int → β) → Int → β} (h : SlicePasses pass length)
    {n : Nat} (hk : k < n) (memory other : Int → β) (hi : i ∈ cellsFrom (k * length : Nat) length) :
    (List.range n).foldl (fun m l => pass l m) memory i = pass k other i := by
  induction n with
  | zero => omega
  | succ n ih =>
      rw [List.range_succ, List.foldl_append, List.foldl_cons, List.foldl_nil]
      by_cases hlast : k = n
      · rw [← hlast]
        exact h.fill k _ _ i hi
      · rw [h.frame n _ i (not_mem_cellsFrom_of_ne hi hlast)]
        exact ih (by omega)

/-- The same for passes that also work on a buffer of their own. -/
theorem foldl_slices_apply {σ : Type*} {step : Nat → σ × (Int → β) → σ × (Int → β)} {n : Nat}
    {result : Nat → Int → β}
    (hfill : ∀ k < n, ∀ s, ∀ i ∈ cellsFrom (k * length : Nat) length, (step k s).2 i = result k i)
    (hframe : ∀ k < n, ∀ s i, i ∉ cellsFrom (k * length : Nat) length → (step k s).2 i = s.2 i)
    (hk : k < n) (s : σ × (Int → β)) (hi : i ∈ cellsFrom (k * length : Nat) length) :
    ((List.range n).foldl (fun s l => step l s) s).2 i = result k i := by
  induction n with
  | zero => omega
  | succ n ih =>
      rw [List.range_succ, List.foldl_append, List.foldl_cons, List.foldl_nil]
      by_cases hlast : k = n
      · rw [← hlast]
        exact hfill k (by omega) _ i hi
      · rw [hframe n (Nat.lt_succ_self n) _ i (not_mem_cellsFrom_of_ne hi hlast)]
        exact ih (fun l hl => hfill l (by omega)) (fun l hl => hframe l (by omega)) (by omega)

end Slices

/-! ## Inner products -/

section Products

variable {ι κ R : Type*} [CommSemiring R]

/-- The sum of the products of two memories over some cells. -/
def innerProduct (cells : List κ) (a b : κ → R) : R :=
  (cells.map fun k => a k * b k).sum

theorem innerProduct_comm (cells : List κ) (a b : κ → R) :
    innerProduct cells a b = innerProduct cells b a := by
  unfold innerProduct
  simp only [mul_comm]

variable (cell : ι → κ)

theorem innerProduct_map (steps : List ι) (a b : κ → R) :
    innerProduct (steps.map cell) a b = (steps.map fun v => a (cell v) * b (cell v)).sum := by
  rw [innerProduct, List.map_map]
  rfl

theorem innerProduct_zero (cells : List κ) (b : κ → R) : innerProduct cells (fun _ => 0) b = 0 := by
  simp [innerProduct]

theorem innerProduct_congr {cells : List κ} {a a' b : κ → R} (h : ∀ k ∈ cells, a k = a' k) :
    innerProduct cells a b = innerProduct cells a' b := by
  unfold innerProduct
  refine congrArg List.sum (List.map_congr_left fun k hk => ?_)
  rw [h k hk]

variable {α : Type*}

/-- The sum of the terms of nested loops. -/
theorem sum_flatMap (inner : ι → List α) (f : α → R) (steps : List ι) :
    ((steps.flatMap inner).map f).sum = (steps.map fun v => ((inner v).map f).sum).sum := by
  rw [List.map_flatMap, List.flatMap_def, List.sum_flatten, List.map_map]
  rfl

/-- Terms that vanish but for one of them. -/
theorem sum_map_single [DecidableEq ι] {steps : List ι} (hsteps : steps.Nodup) {v : ι}
    (hv : v ∈ steps) {f : ι → R} (hf : ∀ u ∈ steps, u ≠ v → f u = 0) :
    (steps.map f).sum = f v := by
  rw [List.sum_map_eq_nsmul_single v _ fun u hne hu => hf u hu hne,
    List.count_eq_one_of_mem hsteps hv, one_nsmul]

theorem sum_product {β : Type*} (xs : List α) (ys : List β) (f : α × β → R) :
    ((xs ×ˢ ys).map f).sum = (xs.map fun a => (ys.map fun b => f (a, b)).sum).sum := by
  simp only [SProd.sprod, List.product, sum_flatMap, List.map_map, Function.comp_def]

/-- The inner product of buffers is that of their slices. -/
theorem innerProduct_cells (n length : Nat) (a b : Int → R) :
    innerProduct (cells (n * length)) a b =
      ((List.range n).map fun k => innerProduct (cellsFrom (k * length : Nat) length) a b).sum := by
  rw [innerProduct, cells_eq_flatMap, sum_flatMap]
  rfl

/-- The inner product of what passes over slices leave. -/
theorem SlicePasses.innerProduct_foldl {pass : Nat → (Int → R) → Int → R} {length : Nat}
    (h : SlicePasses pass length) (n : Nat) (memory other b : Int → R) :
    innerProduct (cells (n * length)) ((List.range n).foldl (fun m k => pass k m) memory) b =
      ((List.range n).map fun k =>
        innerProduct (cellsFrom (k * length : Nat) length) (pass k other) b).sum := by
  rw [innerProduct_cells]
  refine congrArg List.sum (List.map_congr_left fun k hk => ?_)
  exact innerProduct_congr fun i hi => h.foldl_apply (List.mem_range.mp hk) memory other hi

/-- A loop that adds terms to a number. -/
theorem foldl_add_eq (f : ι → R) (steps : List ι) (start : R) :
    steps.foldl (fun acc v => acc + f v) start = start + (steps.map f).sum := by
  induction steps generalizing start with
  | nil => exact (add_zero _).symm
  | cons v steps ih => rw [List.foldl_cons, ih, List.map_cons, List.sum_cons, add_assoc]

/-- Guarded terms count where the guard holds. -/
theorem sum_map_filter (p : ι → Bool) (f : ι → R) (steps : List ι) :
    ((steps.filter p).map f).sum = (steps.map fun v => if p v then f v else 0).sum := by
  induction steps with
  | nil => rfl
  | cons v steps ih =>
      rw [List.map_cons, List.sum_cons, ← ih]
      by_cases hv : p v = true
      · rw [List.filter_cons_of_pos hv, List.map_cons, List.sum_cons, if_pos hv]
      · rw [List.filter_cons_of_neg hv, if_neg hv, zero_add]

/-- Two loops over the same pairs, in any order, have the same sums. -/
theorem sum_eq_sum_of_mem_iff {xs ys : List α} (hxs : xs.Nodup) (hys : ys.Nodup)
    (h : ∀ p, p ∈ xs ↔ p ∈ ys) (f : α → R) : (xs.map f).sum = (ys.map f).sum :=
  (((List.perm_ext_iff_of_nodup hxs hys).mpr h).map f).sum_eq

/-- Guarded terms of a loop are the terms of a loop over those that the guard lets through. -/
theorem sum_map_ite_eq {xs ys : List α} (hxs : xs.Nodup) (hys : ys.Nodup) {p : α → Bool}
    (h : ∀ v, v ∈ ys ↔ v ∈ xs ∧ p v = true) (f : α → R) :
    (xs.map fun v => if p v then f v else 0).sum = (ys.map f).sum := by
  rw [← sum_map_filter]
  exact sum_eq_sum_of_mem_iff (hxs.filter _) hys (fun v => by rw [List.mem_filter, h]) f

theorem sum_map_comm {β : Type*} (f : α → β → R) (xs : List α) (ys : List β) :
    (xs.map fun a => (ys.map fun b => f a b).sum).sum =
      (ys.map fun b => (xs.map fun a => f a b).sum).sum := by
  induction xs with
  | nil => simp
  | cons a xs ih => simp only [List.map_cons, List.sum_cons, ih, List.sum_map_add]

/-- Gathering along a relation and scattering along it are adjoint. -/
theorem sum_gather_eq_sum_scatter (related : ι → κ → Bool) (cs : List ι) (ps : List κ)
    (x : κ → R) (y : ι → R) :
    (cs.map fun c => (ps.map fun p => if related c p then x p else 0).sum * y c).sum =
      (ps.map fun p => x p * (cs.map fun c => if related c p then y c else 0).sum).sum := by
  simp only [← List.sum_map_mul_right, ← List.sum_map_mul_left]
  rw [sum_map_comm]
  simp only [ite_mul, zero_mul, mul_ite, mul_zero]

variable [DecidableEq κ]

/-- A loop that gathers fills every cell once. -/
theorem innerProduct_storeAll {cell : ι → κ} {steps : List ι} (hcells : (steps.map cell).Nodup)
    (value : ι → R) (memory b : κ → R) :
    innerProduct (steps.map cell) (storeAll cell (fun v _ => value v) steps memory) b =
      (steps.map fun v => value v * b (cell v)).sum := by
  rw [innerProduct_map]
  refine congrArg List.sum (List.map_congr_left fun v hv => ?_)
  rw [storeAll_of_independent hcells (fun _ _ _ _ _ _ _ => rfl) memory hv]

/-! ## Zeros -/

/-- Fill a part of a buffer with zeros. -/
def zeroFrom (start : Int) (length : Nat) (memory : Int → R) : Int → R :=
  storeAll (fun i : Nat => start + i) (fun _ _ => 0) (List.range length) memory

theorem zeroFrom_of_mem {start : Int} {length : Nat} {i : Int}
    (hi : i ∈ cellsFrom start length) (memory : Int → R) : zeroFrom start length memory i = 0 := by
  obtain ⟨k, hk, rfl⟩ := List.mem_map.mp hi
  exact storeAll_of_agree ⟨k, hk, rfl⟩ (fun _ _ _ _ => rfl) memory

theorem zeroFrom_of_not_mem {start : Int} {length : Nat} {i : Int}
    (hi : i ∉ cellsFrom start length) (memory : Int → R) :
    zeroFrom start length memory i = memory i := by
  refine storeAll_of_not_written (fun k hk heq => hi ?_) memory
  exact List.mem_map.mpr ⟨k, hk, heq⟩

/-! ## Additions -/

/-- Step `v` adds `value v` to the cell `cell v`. -/
def addAll (cell : ι → κ) (value : ι → R) (steps : List ι) (memory : κ → R) : κ → R :=
  storeAll cell (fun v m => m (cell v) + value v) steps memory

theorem addAll_cons (value : ι → R) (v : ι) (steps : List ι) (memory : κ → R) :
    addAll cell value (v :: steps) memory =
      addAll cell value steps (Function.update memory (cell v) (memory (cell v) + value v)) :=
  rfl

/-- A loop that adds, as its list of cells and values. -/
theorem addAll_pairs (value : ι → R) (steps : List ι) (memory : κ → R) :
    addAll Prod.fst Prod.snd (steps.map fun v => (cell v, value v)) memory =
      addAll cell value steps memory :=
  List.foldl_map

theorem addAll_congr {cell cell' : ι → κ} {value value' : ι → R} {steps : List ι}
    (h : ∀ v ∈ steps, cell v = cell' v ∧ value v = value' v) (memory : κ → R) :
    addAll cell value steps memory = addAll cell' value' steps memory := by
  rw [← addAll_pairs cell, ← addAll_pairs cell']
  congr 1
  refine List.map_congr_left fun v hv => ?_
  rw [(h v hv).1, (h v hv).2]

theorem addAll_of_not_written {cell : ι → κ} {steps : List ι} {k : κ}
    (hk : ∀ v ∈ steps, cell v ≠ k) (value : ι → R) (memory : κ → R) :
    addAll cell value steps memory k = memory k :=
  storeAll_of_not_written hk memory

/-- With distinct cells, a cell receives the value of its own step. -/
theorem addAll_of_nodup {cell : ι → κ} {steps : List ι} (hcells : (steps.map cell).Nodup)
    (value : ι → R) (memory : κ → R) {v : ι} (hv : v ∈ steps) :
    addAll cell value steps memory (cell v) = memory (cell v) + value v := by
  refine storeAll_of_independent hcells (fun u _ w _ hne m b => ?_) memory hv
  rw [Function.update_of_ne hne]

/-- What the steps add to a cell. -/
theorem addAll_apply (value : ι → R) (steps : List ι) (memory : κ → R) (k : κ) :
    addAll cell value steps memory k =
      memory k + (steps.map fun v => if cell v = k then value v else 0).sum := by
  induction steps generalizing memory with
  | nil => exact (add_zero _).symm
  | cons v steps ih =>
      rw [addAll_cons, ih, List.map_cons, List.sum_cons, ← add_assoc]
      congr 1
      by_cases hv : cell v = k
      · rw [if_pos hv, ← hv, Function.update_self]
      · rw [if_neg hv, add_zero, Function.update_of_ne (Ne.symm hv)]

/-- Adding to an array through a pointer. -/
theorem atPointer_addAll_apply (pointer : Int) (cell : ι → Int) (value : ι → R) (steps : List ι)
    (memory : Int → R) (i : Int) :
    atPointer pointer (addAll cell value steps) memory i =
      memory i + (steps.map fun v => if pointer + cell v = i then value v else 0).sum := by
  have hi : i = pointer + (i - pointer) := by omega
  rw [hi, atPointer_apply, addAll_apply]
  simp only [add_right_inj]

/-- Passes that each add what depends on the cell only. -/
theorem foldl_add_apply {pass : α → (Int → R) → Int → R} {added : α → Int → R}
    (hpass : ∀ a m i, pass a m i = m i + added a i) (outer : List α) (memory : Int → R) (i : Int) :
    outer.foldl (fun m a => pass a m) memory i = memory i + (outer.map fun a => added a i).sum := by
  induction outer generalizing memory with
  | nil => simp
  | cons a outer ih => rw [List.foldl_cons, ih, hpass, List.map_cons, List.sum_cons, add_assoc]

/-- The number of the step that adds to a cell of an array. -/
theorem sum_range_ite (n : Nat) (start i : Int) (h : Nat → R) :
    ((List.range n).map fun k : Nat => if start + k = i then h k else 0).sum =
      if 0 ≤ i - start ∧ i - start < n then h (i - start).toNat else 0 := by
  split
  next hin =>
      have hk : (i - start).toNat ∈ List.range n := List.mem_range.mpr (by omega)
      rw [sum_map_single List.nodup_range hk fun k _ hne => if_neg (by omega), if_pos (by omega)]
  next hout =>
      refine List.sum_eq_zero fun v hv => ?_
      obtain ⟨k, hk, rfl⟩ := List.mem_map.mp hv
      have hk := List.mem_range.mp hk
      exact if_neg (by omega)

/-- Adding to one cell. -/
theorem innerProduct_update_add {cells : List κ} (hcells : cells.Nodup) {k : κ} (hk : k ∈ cells)
    (memory b : κ → R) (x : R) :
    innerProduct cells (Function.update memory k (memory k + x)) b =
      innerProduct cells memory b + x * b k := by
  have hterm : ∀ j, Function.update memory k (memory k + x) j * b j =
      memory j * b j + if j = k then x * b k else 0 := by
    intro j
    by_cases hj : j = k
    · rw [hj, Function.update_self, if_pos rfl, add_mul]
    · rw [Function.update_of_ne hj, if_neg hj, add_zero]
  unfold innerProduct
  simp only [hterm, List.sum_map_add]
  congr 1
  rw [List.sum_map_eq_nsmul_single k _ fun j hj _ => if_neg hj, if_pos rfl,
    List.count_eq_one_of_mem hcells hk, one_nsmul]

/-- A loop that scatters adds the products of its values with the cells they are added to. -/
theorem innerProduct_addAll {cells : List κ} (hcells : cells.Nodup) {cell : ι → κ}
    {steps : List ι} (hsteps : ∀ v ∈ steps, cell v ∈ cells) (value : ι → R) (memory b : κ → R) :
    innerProduct cells (addAll cell value steps memory) b =
      innerProduct cells memory b + (steps.map fun v => value v * b (cell v)).sum := by
  induction steps generalizing memory with
  | nil => exact (add_zero _).symm
  | cons v steps ih =>
      rw [List.forall_mem_cons] at hsteps
      rw [addAll_cons, ih hsteps.2, innerProduct_update_add hcells hsteps.1, List.map_cons,
        List.sum_cons, add_assoc]

/-- What is added to cells that hold zeros. -/
theorem innerProduct_addAll_zero {cells : List κ} (hcells : cells.Nodup) {cell : ι → κ}
    {steps : List ι} (hsteps : ∀ v ∈ steps, cell v ∈ cells) (value : ι → R) {memory : κ → R}
    (hzero : ∀ k ∈ cells, memory k = 0) (b : κ → R) :
    innerProduct cells (addAll cell value steps memory) b =
      (steps.map fun v => value v * b (cell v)).sum := by
  rw [innerProduct_addAll hcells hsteps, innerProduct_congr hzero, innerProduct_zero, zero_add]

/-! ## Slices that are zeroed and added to -/

/-- The pass over a slice: fill it with zeros and add to its cells. -/
def zeroedPass (length : Nat) (cell : Nat → ι → Int) (value : Nat → ι → R) (steps : List ι)
    (k : Nat) (memory : Int → R) : Int → R :=
  addAll (cell k) (value k) steps (zeroFrom (k * length : Nat) length memory)

theorem slicePasses_zeroedPass {length : Nat} {cell : Nat → ι → Int} {steps : List ι}
    (hcell : ∀ k, ∀ v ∈ steps, cell k v ∈ cellsFrom (k * length : Nat) length)
    (value : Nat → ι → R) : SlicePasses (zeroedPass length cell value steps) length where
  fill := by
    intro k m m' i hi
    unfold zeroedPass
    rw [addAll_apply, addAll_apply, zeroFrom_of_mem hi, zeroFrom_of_mem hi]
  frame := by
    intro k m i hi
    have hnot : ∀ v ∈ steps, cell k v ≠ i := by
      rintro v hv rfl
      exact hi (hcell k v hv)
    unfold zeroedPass
    rw [addAll_of_not_written hnot, zeroFrom_of_not_mem hi]

/-- The inner product of what the passes leave. -/
theorem innerProduct_zeroedPass {length : Nat} {cell : Nat → ι → Int} {steps : List ι}
    (hcell : ∀ k, ∀ v ∈ steps, cell k v ∈ cellsFrom (k * length : Nat) length)
    (value : Nat → ι → R) (n : Nat) (memory b : Int → R) :
    innerProduct (cells (n * length))
        ((List.range n).foldl (fun m k => zeroedPass length cell value steps k m) memory) b =
      ((List.range n).map fun k =>
        (steps.map fun v => value k v * b (cell k v)).sum).sum := by
  rw [(slicePasses_zeroedPass hcell value).innerProduct_foldl n memory (fun _ => 0)]
  refine congrArg List.sum (List.map_congr_left fun k _ => ?_)
  exact innerProduct_addAll_zero (nodup_cellsFrom _ _) (hcell k) _
    (fun _ hi => zeroFrom_of_mem hi _) b

end Products

end Accumulation

namespace Pairings

/-- The sum of the products of the cells of `n` pairs of cells of two memories. -/
def pairSum {R κ κ' : Type*} [CommRing R] (a : κ → R) (b : κ' → R) (pairs : Nat → κ × κ')
    (n : Nat) : R :=
  ∑ k ∈ Finset.range n, a (pairs k).1 * b (pairs k).2

end Pairings
