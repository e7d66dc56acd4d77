import Mathlib.Data.List.Basic
import Mathlib.Data.List.GetD

/-!
# Memory in blocks

Memory is a list of blocks of cells.  A place is a cell of a block; what lies outside its block, or
in a block that was freed, reads as a cell without contents.  Allocation appends a block, and a
range of cells is copied by reading it and writing it somewhere else.

Main results:

- Theorems `read_allocate_of_lt` and `read_allocate_self`: an allocation leaves the other
  blocks, and reads back what it was given.
- Theorem `memcpy_eq_some_iff`: when a range can be copied.
- Theorems `read_memcpy` and `read_memcpy_of_outside`: a copied range holds the cells of
  its source, and the cells outside it are left.
-/

namespace HeapBlocks

/-- Blocks of cells; a cell may have no contents. -/
abbrev Heap (α : Type*) := List (List (Option α))

/-- A cell of a block. -/
structure Place where
  block : Nat
  cell : Int
deriving DecidableEq

/-- The place so many cells further on. -/
def Place.add (p : Place) (i : Int) : Place :=
  ⟨p.block, p.cell + i⟩

section Memory

variable {α : Type*} {heap : Heap α} {p : Place} {cells : List (Option α)}

/-- The cells of a block, none for a block that is not there. -/
def blockAt (heap : Heap α) (block : Nat) : List (Option α) :=
  heap.getD block []

/-- The cell of a list at an integer position. -/
def cellAt (cells : List (Option α)) (i : Int) : Option α :=
  if 0 ≤ i then cells.getD i.toNat none else none

/-- What a place holds. -/
def read (heap : Heap α) (p : Place) : Option α :=
  cellAt (blockAt heap p.block) p.cell

/-- Some cells from a place on. -/
def readCells (heap : Heap α) (p : Place) (n : Nat) : List (Option α) :=
  (List.range n).map fun i : Nat => read heap (p.add i)

/-- Add a block. -/
def allocate (heap : Heap α) (cells : List (Option α)) : Heap α × Place :=
  (heap ++ [cells], ⟨heap.length, 0⟩)

/-- Give a block back. -/
def free (heap : Heap α) (block : Nat) : Heap α :=
  heap.set block []

/-- Write a range of cells from a place on, as far as the block reaches. -/
def writeCells (heap : Heap α) (p : Place) (cells : List (Option α)) : Heap α :=
  heap.set p.block ((List.range (blockAt heap p.block).length).map fun i : Nat =>
    if p.cell ≤ i ∧ i < p.cell + cells.length then cellAt cells (i - p.cell)
    else cellAt (blockAt heap p.block) i)

/-- The cells of a range lie in their block. -/
def RangeIn (heap : Heap α) (p : Place) (n : Nat) : Prop :=
  0 ≤ p.cell ∧ p.cell + n ≤ (blockAt heap p.block).length

instance (heap : Heap α) (p : Place) (n : Nat) : Decidable (RangeIn heap p n) :=
  inferInstanceAs (Decidable (_ ∧ _))

/-- Two ranges share no cell. -/
def RangesApart (p q : Place) (n : Nat) : Prop :=
  p.block ≠ q.block ∨ p.cell + n ≤ q.cell ∨ q.cell + n ≤ p.cell

instance (p q : Place) (n : Nat) : Decidable (RangesApart p q n) :=
  inferInstanceAs (Decidable (_ ∨ _))

/-- Copy a range of cells; outside the blocks, and between ranges that overlap, that is
undefined. -/
def memcpy (heap : Heap α) (p q : Place) (n : Nat) : Option (Heap α) :=
  if RangeIn heap p n ∧ RangeIn heap q n ∧ RangesApart p q n then
    some (writeCells heap p (readCells heap q n))
  else none

@[simp]
theorem length_readCells (heap : Heap α) (p : Place) (n : Nat) :
    (readCells heap p n).length = n := by
  simp [readCells]

variable {i : Int} {n block : Nat}

theorem cellAt_of_nonneg (hi : 0 ≤ i) : cellAt cells i = cells.getD i.toNat none :=
  if_pos hi

theorem cellAt_of_le (hi : (cells.length : Int) ≤ i) : cellAt cells i = none := by
  rw [cellAt_of_nonneg (by omega), List.getD_eq_getElem?_getD, List.getElem?_eq_none (by omega)]
  rfl

theorem cellAt_of_neg (hi : i < 0) : cellAt cells i = none :=
  if_neg (by omega)

/-- A cell with contents lies in its list. -/
theorem bounds_of_cellAt (h : (cellAt cells i).isSome) : 0 ≤ i ∧ i < cells.length := by
  constructor
  · by_contra hneg
    rw [cellAt_of_neg (by omega)] at h
    cases h
  · by_contra hlarge
    rw [cellAt_of_le (by omega)] at h
    cases h

theorem cellAt_readCells (hi : 0 ≤ i) (hn : i < n) :
    cellAt (readCells heap p n) i = read heap (p.add i) := by
  have hlt : i.toNat < n := by omega
  have hback : (i.toNat : Int) = i := Int.toNat_of_nonneg hi
  rw [cellAt_of_nonneg hi, List.getD_eq_getElem?_getD, readCells, List.getElem?_map,
    List.getElem?_range hlt, Option.map_some, Option.getD_some, hback]

/-- A place with contents lies in its block. -/
theorem bounds_of_read (h : (read heap p).isSome) :
    0 ≤ p.cell ∧ p.cell < (blockAt heap p.block).length :=
  bounds_of_cellAt h

/-! ## Allocation -/

theorem blockAt_allocate_of_lt (hblock : block < heap.length) :
    blockAt (allocate heap cells).1 block = blockAt heap block := by
  rw [blockAt, blockAt, allocate, List.getD_append _ _ _ _ hblock]

@[simp]
theorem blockAt_allocate_self (heap : Heap α) (cells : List (Option α)) :
    blockAt (allocate heap cells).1 heap.length = cells := by
  rw [blockAt, allocate, List.getD_append_right _ _ _ _ (Nat.le_refl _), Nat.sub_self]
  rfl

@[simp]
theorem length_allocate (heap : Heap α) (cells : List (Option α)) :
    (allocate heap cells).1.length = heap.length + 1 := by
  rw [allocate, List.length_append, List.length_singleton]

/-- An allocation leaves the other blocks. -/
theorem read_allocate_of_lt (hblock : p.block < heap.length) :
    read (allocate heap cells).1 p = read heap p := by
  rw [read, blockAt_allocate_of_lt hblock, read]

theorem rangeIn_allocate_iff (hblock : p.block < heap.length) :
    RangeIn (allocate heap cells).1 p n ↔ RangeIn heap p n := by
  rw [RangeIn, RangeIn, blockAt_allocate_of_lt hblock]

/-- A new block reads back what it was given. -/
theorem read_allocate_self (heap : Heap α) (cells : List (Option α)) (i : Int) :
    read (allocate heap cells).1 ((allocate heap cells).2.add i) = cellAt cells i := by
  show cellAt (blockAt (allocate heap cells).1 heap.length) (0 + i) = cellAt cells i
  rw [blockAt_allocate_self, Int.zero_add]

/-- A new block is none of the old ones. -/
theorem allocate_ne (hblock : p.block < heap.length) (i : Int) :
    (allocate heap cells).2.add i ≠ p := by
  intro h
  have hsame := congrArg Place.block h
  simp only [allocate, Place.add] at hsame
  omega

/-! ## Freed blocks -/

@[simp]
theorem length_free (heap : Heap α) (block : Nat) : (free heap block).length = heap.length :=
  List.length_set

theorem blockAt_free_of_ne {block' : Nat} (hne : block' ≠ block) :
    blockAt (free heap block) block' = blockAt heap block' := by
  rw [blockAt, blockAt, free, List.getD_eq_getElem?_getD, List.getD_eq_getElem?_getD,
    List.getElem?_set_ne hne.symm]

/-- A freed block has no cells. -/
@[simp]
theorem blockAt_free_self (heap : Heap α) (block : Nat) : blockAt (free heap block) block = [] := by
  rw [blockAt, free, List.getD_eq_getElem?_getD]
  rcases Nat.lt_or_ge block heap.length with hlt | hge
  · rw [List.getElem?_set_self hlt, Option.getD_some]
  · rw [List.getElem?_eq_none (by rwa [List.length_set]), Option.getD_none]

/-! ## Copied ranges -/

theorem blockAt_writeCells_of_ne (hne : block ≠ p.block) :
    blockAt (writeCells heap p cells) block = blockAt heap block := by
  rw [blockAt, blockAt, writeCells, List.getD_eq_getElem?_getD, List.getD_eq_getElem?_getD,
    List.getElem?_set_ne hne.symm]

theorem blockAt_writeCells (hblock : p.block < heap.length) :
    blockAt (writeCells heap p cells) p.block =
      (List.range (blockAt heap p.block).length).map fun i : Nat =>
        if p.cell ≤ i ∧ i < p.cell + cells.length then cellAt cells (i - p.cell)
        else cellAt (blockAt heap p.block) i := by
  conv_lhs => rw [blockAt, writeCells, List.getD_eq_getElem?_getD, List.getElem?_set_self hblock,
    Option.getD_some]

theorem memcpy_eq_some_iff {q : Place} {heap' : Heap α} :
    memcpy heap p q n = some heap' ↔ (RangeIn heap p n ∧ RangeIn heap q n ∧ RangesApart p q n) ∧
      writeCells heap p (readCells heap q n) = heap' := by
  rw [memcpy, Option.ite_none_right_eq_some, Option.some.injEq]

section Copied

variable {q : Place} {n : Nat} {heap' : Heap α}

/-- A block with cells is there. -/
theorem RangeIn.block_lt (h : RangeIn heap p n) (hn : 0 < n) : p.block < heap.length := by
  by_contra hge
  have hcells : blockAt heap p.block = [] := by
    rw [blockAt, List.getD_eq_getElem?_getD, List.getElem?_eq_none (by omega), Option.getD_none]
  obtain ⟨hcell, hlength⟩ := h
  rw [hcells, List.length_nil] at hlength
  omega

/-- Copying leaves the sizes of the blocks. -/
theorem length_blockAt_memcpy (h : memcpy heap p q n = some heap') (block : Nat) :
    (blockAt heap' block).length = (blockAt heap block).length := by
  obtain ⟨-, rfl⟩ := memcpy_eq_some_iff.mp h
  by_cases hblock : block = p.block
  · subst hblock
    rcases Nat.lt_or_ge p.block heap.length with hlt | hge
    · rw [blockAt_writeCells hlt, List.length_map, List.length_range]
    · rw [writeCells, List.set_eq_of_length_le hge]
  · rw [blockAt_writeCells_of_ne hblock]

theorem length_memcpy (h : memcpy heap p q n = some heap') : heap'.length = heap.length := by
  obtain ⟨-, rfl⟩ := memcpy_eq_some_iff.mp h
  exact List.length_set

/-- What a cell of the written block holds. -/
theorem read_writeCells (hblock : p.block < heap.length) {i : Int} (hi : 0 ≤ i)
    (hlt : i < (blockAt heap p.block).length) :
    read (writeCells heap p cells) ⟨p.block, i⟩ =
      if p.cell ≤ i ∧ i < p.cell + cells.length then cellAt cells (i - p.cell)
      else read heap ⟨p.block, i⟩ := by
  have hnat : i.toNat < (blockAt heap p.block).length := by omega
  have hback : (i.toNat : Int) = i := Int.toNat_of_nonneg hi
  rw [read, blockAt_writeCells hblock, cellAt_of_nonneg hi, List.getD_eq_getElem?_getD,
    List.getElem?_map, List.getElem?_range hnat, Option.map_some, Option.getD_some, hback]
  rfl

/-- A copied range holds the cells of its source. -/
theorem read_memcpy (h : memcpy heap p q n = some heap') {i : Int} (hi : 0 ≤ i) (hn : i < n) :
    read heap' (p.add i) = read heap (q.add i) := by
  obtain ⟨⟨hp, -, -⟩, rfl⟩ := memcpy_eq_some_iff.mp h
  have hblock := hp.block_lt (by omega)
  have hdistance : p.cell + i - p.cell = i := by omega
  obtain ⟨hcell, hlength⟩ := hp
  rw [Place.add, read_writeCells hblock (by omega) (by omega), length_readCells,
    if_pos ⟨by omega, by omega⟩, hdistance, cellAt_readCells hi hn]

/-- The cells outside a copied range are left. -/
theorem read_memcpy_of_outside (h : memcpy heap p q n = some heap') {r : Place}
    (hr : r.block ≠ p.block ∨ r.cell < p.cell ∨ p.cell + n ≤ r.cell) :
    read heap' r = read heap r := by
  have hlengths := length_blockAt_memcpy h r.block
  obtain ⟨-, rfl⟩ := memcpy_eq_some_iff.mp h
  by_cases hinside : r.block = p.block ∧ 0 ≤ r.cell ∧ r.cell < (blockAt heap p.block).length
  · obtain ⟨hblock, hcell, hlt⟩ := hinside
    obtain ⟨block, cell⟩ := r
    subst hblock
    have hthere : p.block < heap.length := by
      by_contra hge
      rw [blockAt, List.getD_eq_getElem?_getD, List.getElem?_eq_none (by omega),
        Option.getD_none] at hlt
      exact Int.not_lt.mpr hcell hlt
    rw [read_writeCells hthere hcell hlt, length_readCells, if_neg]
    rintro ⟨hge, hlt'⟩
    rcases hr with hne | hbefore | hbehind
    · exact hne rfl
    · exact Int.not_lt.mpr hge hbefore
    · exact Int.not_le.mpr hlt' hbehind
  · by_cases hblock : r.block = p.block
    · -- neither has contents outside the block
      have hnew : ¬ (read (writeCells heap p (readCells heap q n)) r).isSome := by
        intro hsome
        have hbounds := bounds_of_read hsome
        rw [hlengths, hblock] at hbounds
        exact hinside ⟨hblock, hbounds⟩
      have hold : ¬ (read heap r).isSome := by
        intro hsome
        have hbounds := bounds_of_read hsome
        rw [hblock] at hbounds
        exact hinside ⟨hblock, hbounds⟩
      rw [Option.not_isSome_iff_eq_none.mp hnew, Option.not_isSome_iff_eq_none.mp hold]
    · rw [read, read, blockAt_writeCells_of_ne hblock]

end Copied

/-! ## Told apart -/

/-- Contents that tell every cell from all others. -/
def numbered (sizes : List Nat) : Heap (Nat × Nat) :=
  (List.range sizes.length).map fun block =>
    (List.range (sizes.getD block 0)).map fun i => some (block, i)

theorem blockAt_numbered (sizes : List Nat) (block : Nat) :
    blockAt (numbered sizes) block =
      (List.range (sizes.getD block 0)).map fun i => some (block, i) := by
  rw [blockAt, numbered, List.getD_eq_getElem?_getD, List.getElem?_map]
  rcases Nat.lt_or_ge block sizes.length with hlt | hge
  · rw [List.getElem?_range hlt, Option.map_some, Option.getD_some]
  · rw [List.getElem?_eq_none (by rwa [List.length_range]), Option.map_none, Option.getD_none,
      List.getD_eq_getElem?_getD, List.getElem?_eq_none hge, Option.getD_none, List.range_zero,
      List.map_nil]

/-- A cell of the numbered contents holds its own number. -/
theorem read_numbered {sizes : List Nat} (hcell : 0 ≤ p.cell)
    (hsize : p.cell < sizes.getD p.block 0) :
    read (numbered sizes) p = some (p.block, p.cell.toNat) := by
  have hlt : p.cell.toNat < sizes.getD p.block 0 := by omega
  rw [read, cellAt_of_nonneg hcell, blockAt_numbered, List.getD_eq_getElem?_getD,
    List.getElem?_map, List.getElem?_range hlt, Option.map_some, Option.getD_some]

/-- Only the same cell holds the same number. -/
theorem eq_of_read_numbered {sizes : List Nat} {q : Place}
    (h : read (numbered sizes) p = read (numbered sizes) q)
    (hsome : (read (numbered sizes) q).isSome) : p = q := by
  have hlength : ∀ block, (blockAt (numbered sizes) block).length = sizes.getD block 0 := by
    intro block
    rw [blockAt_numbered, List.length_map, List.length_range]
  have hp := bounds_of_read (h ▸ hsome)
  have hq := bounds_of_read hsome
  rw [hlength] at hp hq
  rw [read_numbered hp.1 hp.2, read_numbered hq.1 hq.2, Option.some.injEq, Prod.mk.injEq] at h
  obtain ⟨block, cell⟩ := p
  obtain ⟨block', cell'⟩ := q
  simp only at h hp hq
  rw [Place.mk.injEq]
  omega

end Memory
end HeapBlocks
