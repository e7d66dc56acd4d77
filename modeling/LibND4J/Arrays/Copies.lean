import LibND4J.Arrays.FlatResult
import LibND4J.Library.Heap

/-!
# Copies of arrays in memory

The copy constructors and `operator=` copy as many cells as the array has elements, from its
buffer on, and keep its strides.  `dup` lays the elements out anew.

Main results:

- Theorem `copied_copyCells_iff`: a raw copy has the elements of its source exactly if all of
  them lie in the cells that are copied.
- Theorem `copied_assignOperator_iff`: what an assignment needs besides.
- Theorem `copied_dup_iff`: a duplicate has them exactly if a slot of one tells how they lie.
- Theorem `copiesRight_iff`: all of it together.
- Theorem `not_copiesRight_always`: a column of a matrix.
-/

namespace LibND4J
namespace Arrays

open HeapBlocks Shape Strided

/-- An array in memory: its buffer is a place in a block, and the flags say what it owns. -/
structure HeapArray where
  shapeInfo : ShapeInfo
  buffer : Place
  isBuffAlloc : Bool
  isShapeAlloc : Bool
  hasWorkspace : Bool

/-- The place of an element. -/
def HeapArray.place (array : HeapArray) (coords : List Nat) : Place :=
  array.buffer.add (getOffset 0 array.shapeInfo.shape array.shapeInfo.stride coords)

/-- The target of an assignment: the array itself, an array without buffers, or another one. -/
inductive Target
  | itself
  | unset (hasWorkspace : Bool)
  | array (this : HeapArray)

section Operations

variable {T : Type}

/-- The element at a coordinate; `none` is a place outside the block. -/
def HeapArray.element (heap : Heap T) (array : HeapArray) (coords : List Nat) : Option T :=
  read heap (array.place coords)

/-- A new buffer with the first cells of an array, under its shape information. -/
def copyCells (hasWorkspace : Bool) (heap : Heap T) (other : HeapArray) :
    Option (Heap T × HeapArray) :=
  let arrLength := other.shapeInfo.length
  let new := allocate heap (List.replicate arrLength none)
  (memcpy new.1 new.2 other.buffer arrLength).map fun heap =>
    (heap, ⟨other.shapeInfo, new.2, true, true, hasWorkspace⟩)

/-- The copy constructors, from a reference and from a pointer. -/
def copyConstructor (workspace : Bool) (heap : Heap T) (other : HeapArray) :
    Option (Heap T × HeapArray) :=
  copyCells workspace heap other

/-- `operator=`. -/
def assignOperator (heap : Heap T) (target : Target) (other : HeapArray) :
    Option (Heap T × HeapArray) :=
  match target with
  | .itself => some (heap, other)
  | .unset workspace => copyCells workspace heap other
  | .array this =>
      if this.shapeInfo = other.shapeInfo then
        (memcpy heap this.buffer other.buffer this.shapeInfo.length).map fun heap => (heap, this)
      else
        -- the buffer is deleted before the other one is read
        let heap :=
          if this.isBuffAlloc ∧ ¬ this.hasWorkspace then free heap this.buffer.block else heap
        copyCells this.hasWorkspace heap other

/-- The array as the loops read it. -/
def HeapArray.inHeap (heap : Heap T) (array : HeapArray) : NDArray (Option T) :=
  ⟨array.shapeInfo, fun i => read heap (array.buffer.add i)⟩

/-- `dup`: the loops read the elements of the array, wherever they lie. -/
def dup (run : Runtime (Option T)) (newOrder : Char) (heap : Heap T) (array : HeapArray) :
    Except Failure (Heap T × HeapArray) :=
  (NDArray.dup run newOrder (array.inHeap heap)).map fun result =>
    let new := allocate heap ((List.range array.shapeInfo.length).map fun i : Nat => result.buffer i)
    (new.1, ⟨result.shapeInfo, new.2, true, true, array.hasWorkspace⟩)

/-- A copy has the shape and the elements of its source, inside its block and in cells of its
own. -/
structure Copied (heap heap' : Heap T) (source copy : HeapArray) : Prop where
  shape : copy.shapeInfo.shape = source.shapeInfo.shape
  element : ∀ c, InBox source.shapeInfo.shape c → copy.element heap' c = source.element heap c
  inside : ∀ c, InBox source.shapeInfo.shape c → 0 ≤ (copy.place c).cell ∧
    (copy.place c).cell < (blockAt heap' (copy.place c).block).length
  apart : ∀ c c', InBox source.shapeInfo.shape c → InBox source.shapeInfo.shape c' →
    copy.place c ≠ source.place c'

/-- Memory with blocks of the given sizes, all cells of which have contents. -/
structure Filled (heap : Heap T) (sizes : List Nat) : Prop where
  length_eq : heap.length = sizes.length
  length_blockAt : ∀ block, (blockAt heap block).length = sizes.getD block 0
  contents : ∀ p : Place, 0 ≤ p.cell → p.cell < sizes.getD p.block 0 → (read heap p).isSome

end Operations

/-- All elements of an array lie in its block. -/
def InMemory (sizes : List Nat) (array : HeapArray) : Prop :=
  array.buffer.block < sizes.length ∧ ∀ c, InBox array.shapeInfo.shape c →
    0 ≤ (array.place c).cell ∧ (array.place c).cell < sizes.getD array.buffer.block 0

/-- All copies of an array are right, whatever memory holds. -/
structure CopiesRight (sizes : List Nat) (source : HeapArray) (target : Target) : Prop where
  constructed : ∀ {T : Type} (heap : Heap T), Filled heap sizes → ∀ workspace,
    ∃ out, copyConstructor workspace heap source = some out ∧ Copied heap out.1 source out.2
  assigned : ∀ {T : Type} (heap : Heap T), Filled heap sizes →
    ∃ out, assignOperator heap target source = some out ∧ Copied heap out.1 source out.2
  duplicated : ∀ {T : Type} (heap : Heap T), Filled heap sizes →
    ∀ (run : Runtime (Option T)) (order : Char), order = 'c' ∨ order = 'f' →
      ∃ out, dup run order heap source = .ok out ∧ Copied heap out.1 source out.2

/-- The cells that are copied lie in the block of the array. -/
def CellsIn (sizes : List Nat) (array : HeapArray) : Prop :=
  0 ≤ array.buffer.cell ∧
    array.buffer.cell + array.shapeInfo.length ≤ sizes.getD array.buffer.block 0

/-- The target of an assignment does not hold the source: it is another array, it shares no cell if
it is written in place, and otherwise it does not give the block of the source back. -/
def TargetApart (sizes : List Nat) (target : Target) (source : HeapArray) : Prop :=
  match target with
  | .itself => False
  | .unset _ => True
  | .array this =>
      if this.shapeInfo = source.shapeInfo then
        CellsIn sizes this ∧ RangesApart this.buffer source.buffer source.shapeInfo.length
      else ¬ ((this.isBuffAlloc ∧ ¬ this.hasWorkspace) ∧ this.buffer.block = source.buffer.block)

/-- In an order that a duplicate can have, a slot of one tells how the elements lie. -/
def SlotTells (info : ShapeInfo) : Prop :=
  info.order = 'c' ∨ info.order = 'f' → info.elementWiseStride = 1 → Consecutive info.isFOrder info

/-! ## Contents -/

section Contents

variable {T : Type} {heap : Heap T} {sizes : List Nat} {source : HeapArray} {c : List Nat}

theorem place_eq (hc : InBox source.shapeInfo.shape c) :
    source.place c = source.buffer.add (dot c source.shapeInfo.stride) := by
  rw [HeapArray.place, getOffset_dot _ hc]

theorem place_of_info {copy : HeapArray} (hinfo : copy.shapeInfo = source.shapeInfo)
    (hc : InBox source.shapeInfo.shape c) :
    copy.place c = copy.buffer.add (dot c source.shapeInfo.stride) := by
  rw [← hinfo] at hc ⊢
  exact place_eq hc

theorem rangeIn_iff (hfilled : Filled heap sizes) :
    RangeIn heap source.buffer source.shapeInfo.length ↔ CellsIn sizes source := by
  rw [RangeIn, hfilled.length_blockAt, CellsIn]

/-- Contents that tell the cells apart fill memory. -/
theorem filled_numbered (sizes : List Nat) : Filled (numbered sizes) sizes where
  length_eq := by simp [numbered]
  length_blockAt := by
    intro block
    rw [blockAt_numbered, List.length_map, List.length_range]
  contents := by
    intro p hcell hsize
    rw [read_numbered hcell hsize]
    rfl

theorem element_isSome (hfilled : Filled heap sizes) (hsource : InMemory sizes source)
    (hc : InBox source.shapeInfo.shape c) : (source.element heap c).isSome :=
  hfilled.contents _ (hsource.2 c hc).1 (hsource.2 c hc).2

end Contents

/-! ## Raw copies -/

section Raw

variable {T : Type} {heap heap₁ heap' : Heap T} {sizes : List Nat} {source copy : HeapArray}
  {hasWorkspace : Bool}

/-- An array that got the first cells of its source, under the same shape information, has its
elements if all of them lie in these cells. -/
theorem copied_of_memcpy (hinfo : copy.shapeInfo = source.shapeInfo)
    (hmem : memcpy heap₁ copy.buffer source.buffer source.shapeInfo.length = some heap')
    (hread : ∀ i, read heap₁ (source.buffer.add i) = read heap (source.buffer.add i))
    (hlies : LiesInLength source.shapeInfo) : Copied heap heap' source copy := by
  obtain ⟨⟨hin, -, hapart⟩, -⟩ := memcpy_eq_some_iff.mp hmem
  refine ⟨by rw [hinfo], fun c hc => ?_, fun c hc => ?_, fun c c' hc hc' heq => ?_⟩
  · rw [HeapArray.element, HeapArray.element, place_of_info hinfo hc, place_eq hc, ← hread]
    exact read_memcpy hmem (hlies c hc).1 (hlies c hc).2
  · have hbounds := hlies c hc
    rw [place_of_info hinfo hc, length_blockAt_memcpy hmem]
    obtain ⟨hcell, hlength⟩ := hin
    simp only [Place.add]
    omega
  · have hbounds := hlies c hc
    have hbounds' := hlies c' hc'
    rw [place_of_info hinfo hc, place_eq hc'] at heq
    have hblock := congrArg Place.block heq
    have hcell := congrArg Place.cell heq
    simp only [Place.add] at hblock hcell
    rcases hapart with hne | hle | hle
    · exact hne hblock
    · omega
    · omega

/-- The cells that are copied are there. -/
theorem rangeIn_of_copyCells (hblock : source.buffer.block < heap₁.length)
    {out : Heap T × HeapArray} (h : copyCells hasWorkspace heap₁ source = some out) :
    RangeIn heap₁ source.buffer source.shapeInfo.length := by
  obtain ⟨heap', hmem, -⟩ := Option.map_eq_some_iff.mp h
  obtain ⟨⟨-, hin, -⟩, -⟩ := memcpy_eq_some_iff.mp hmem
  exact (rangeIn_allocate_iff hblock).mp hin

/-- What a raw copy leaves: a new block with one cell for each element, and everything else. -/
structure RawCopy (heap heap' : Heap T) (source copy : HeapArray) : Prop where
  shapeInfo : copy.shapeInfo = source.shapeInfo
  buffer : copy.buffer = ⟨heap.length, 0⟩
  length : heap'.length = heap.length + 1
  size : (blockAt heap' heap.length).length = source.shapeInfo.length
  frame : ∀ p : Place, p.block < heap.length → read heap' p = read heap p

theorem rawCopy_of_copyCells {out : Heap T × HeapArray}
    (h : copyCells hasWorkspace heap₁ source = some out) : RawCopy heap₁ out.1 source out.2 := by
  obtain ⟨heap', hmem, rfl⟩ := Option.map_eq_some_iff.mp h
  refine ⟨rfl, rfl, ?_, ?_, fun p hp => ?_⟩
  · rw [length_memcpy hmem, length_allocate]
  · rw [length_blockAt_memcpy hmem, blockAt_allocate_self, List.length_replicate]
  · rw [read_memcpy_of_outside hmem (Or.inl (Nat.ne_of_lt hp)), read_allocate_of_lt hp]

/-- A raw copy, from memory that still holds the source, is right exactly if the cells that are
copied are there and hold all elements. -/
theorem copied_copyCells_iff (hblock : source.buffer.block < heap₁.length)
    (hread : ∀ i, read heap₁ (source.buffer.add i) = read heap (source.buffer.add i)) :
    (∃ out, copyCells hasWorkspace heap₁ source = some out ∧ Copied heap out.1 source out.2) ↔
      RangeIn heap₁ source.buffer source.shapeInfo.length ∧ LiesInLength source.shapeInfo := by
  constructor
  · rintro ⟨out, hout, hcopied⟩
    have hraw := rawCopy_of_copyCells hout
    refine ⟨rangeIn_of_copyCells hblock hout, fun c hc => ?_⟩
    -- the new block has no cells besides those that are copied
    have hinside := hcopied.inside c hc
    rw [place_of_info hraw.shapeInfo hc, hraw.buffer, Place.add] at hinside
    rwa [hraw.size, Int.zero_add] at hinside
  · rintro ⟨hin, hlies⟩
    have hnew : RangeIn (allocate heap₁ (List.replicate source.shapeInfo.length none)).1
        ⟨heap₁.length, 0⟩ source.shapeInfo.length := by
      refine ⟨le_refl 0, ?_⟩
      rw [blockAt_allocate_self, List.length_replicate, Int.zero_add]
    have hapart : RangesApart ⟨heap₁.length, 0⟩ source.buffer source.shapeInfo.length :=
      Or.inl (Nat.ne_of_gt hblock)
    have hmem := memcpy_eq_some_iff.mpr
      ⟨⟨hnew, (rangeIn_allocate_iff hblock).mpr hin, hapart⟩, rfl⟩
    refine ⟨_, Option.map_eq_some_iff.mpr ⟨_, hmem, rfl⟩, copied_of_memcpy rfl hmem ?_ hlies⟩
    intro i
    exact (@read_allocate_of_lt T heap₁ (source.buffer.add i) _ hblock).trans (hread i)

/-- A copy that a constructor makes. -/
theorem copied_copyConstructor_iff (hfilled : Filled heap sizes)
    (hblock : source.buffer.block < sizes.length) (workspace : Bool) :
    (∃ out, copyConstructor workspace heap source = some out ∧ Copied heap out.1 source out.2) ↔
      CellsIn sizes source ∧ LiesInLength source.shapeInfo := by
  rw [← rangeIn_iff hfilled]
  exact copied_copyCells_iff (hfilled.length_eq ▸ hblock) fun _ => rfl

end Raw

/-! ## Assignments -/

section Assignments

variable {sizes : List Nat} {source this : HeapArray}

/-- A target with the same shape information holds the elements outside the cells that are copied
from before. -/
theorem liesInLength_of_copied {heap' : Heap (Nat × Nat)} (hinfo : this.shapeInfo = source.shapeInfo)
    (hsource : InMemory sizes source)
    (hmem : memcpy (numbered sizes) this.buffer source.buffer source.shapeInfo.length = some heap')
    (hcopied : Copied (numbered sizes) heap' source this) : LiesInLength source.shapeInfo := by
  intro c hc
  by_contra hout
  have hplace := place_of_info hinfo hc
  -- the cell keeps its number, so it is the element of the source itself
  have hold : read heap' (this.place c) = read (numbered sizes) (this.place c) := by
    apply read_memcpy_of_outside hmem
    rw [hplace]
    simp only [Place.add]
    omega
  have hsame : this.place c = source.place c := by
    apply eq_of_read_numbered
    · rw [← hold]
      exact hcopied.element c hc
    · exact element_isSome (filled_numbered sizes) hsource hc
  exact hcopied.apart c c hc hc hsame

/-- In place: the ranges have to be there and must not overlap. -/
theorem copied_inPlace_iff (hinfo : this.shapeInfo = source.shapeInfo)
    (hsource : InMemory sizes source) :
    (∀ {T : Type} (heap : Heap T), Filled heap sizes →
      ∃ out, assignOperator heap (.array this) source = some out ∧ Copied heap out.1 source out.2) ↔
      (CellsIn sizes source ∧ LiesInLength source.shapeInfo) ∧ CellsIn sizes this ∧
        RangesApart this.buffer source.buffer source.shapeInfo.length := by
  have hassign : ∀ {T : Type} (heap : Heap T), assignOperator heap (.array this) source =
      (memcpy heap this.buffer source.buffer source.shapeInfo.length).map
        fun heap => (heap, this) := by
    intro T heap
    rw [assignOperator, if_pos hinfo, hinfo]
  have hranges : ∀ {T : Type} (heap : Heap T), Filled heap sizes →
      (RangeIn heap this.buffer source.shapeInfo.length ↔ CellsIn sizes this) := by
    intro T heap hfilled
    rw [← hinfo]
    exact rangeIn_iff hfilled
  constructor
  · intro h
    obtain ⟨out, hout, hcopied⟩ := h (numbered sizes) (filled_numbered sizes)
    rw [hassign] at hout
    obtain ⟨heap', hmem, rfl⟩ := Option.map_eq_some_iff.mp hout
    obtain ⟨⟨hin, hsourceIn, hapart⟩, -⟩ := memcpy_eq_some_iff.mp hmem
    exact ⟨⟨(rangeIn_iff (filled_numbered sizes)).mp hsourceIn,
      liesInLength_of_copied hinfo hsource hmem hcopied⟩,
      (hranges _ (filled_numbered sizes)).mp hin, hapart⟩
  · rintro ⟨⟨hsourceIn, hlies⟩, hin, hapart⟩ T heap hfilled
    have hmem := memcpy_eq_some_iff.mpr
      ⟨⟨(hranges heap hfilled).mpr hin, (rangeIn_iff hfilled).mpr hsourceIn, hapart⟩, rfl⟩
    rw [hassign]
    exact ⟨_, Option.map_eq_some_iff.mpr ⟨_, hmem, rfl⟩,
      copied_of_memcpy hinfo hmem (fun _ => rfl) hlies⟩

/-- With new buffers: the block of the source must not be given back. -/
theorem copied_anew_iff (hpos : source.shapeInfo.Positive)
    (hinfo : this.shapeInfo ≠ source.shapeInfo) (hblock : source.buffer.block < sizes.length) :
    (∀ {T : Type} (heap : Heap T), Filled heap sizes →
      ∃ out, assignOperator heap (.array this) source = some out ∧ Copied heap out.1 source out.2) ↔
      (CellsIn sizes source ∧ LiesInLength source.shapeInfo) ∧
        ¬ ((this.isBuffAlloc ∧ ¬ this.hasWorkspace) ∧
          this.buffer.block = source.buffer.block) := by
  have hlength : 0 < source.shapeInfo.length := prod_pos_of_pos hpos
  have hassign : ∀ {T : Type} (heap : Heap T), assignOperator heap (.array this) source =
      copyCells this.hasWorkspace (if this.isBuffAlloc ∧ ¬ this.hasWorkspace then
        free heap this.buffer.block else heap) source := by
    intro T heap
    rw [assignOperator, if_neg hinfo]
  simp only [hassign]
  by_cases howned : this.isBuffAlloc ∧ ¬ this.hasWorkspace
  · simp only [if_pos howned]
    by_cases hsame : this.buffer.block = source.buffer.block
    · -- nothing is left to read
      refine ⟨fun h => ?_, fun h => absurd ⟨howned, hsame⟩ h.2⟩
      obtain ⟨out, hout, -⟩ := h (numbered sizes) (filled_numbered sizes)
      have hin := rangeIn_of_copyCells
        (by rwa [length_free, (filled_numbered sizes).length_eq]) hout
      rw [RangeIn, hsame, blockAt_free_self, List.length_nil] at hin
      omega
    · have hfree : ∀ {T : Type} (heap : Heap T), Filled heap sizes →
          ((∃ out, copyCells this.hasWorkspace (free heap this.buffer.block) source = some out ∧
            Copied heap out.1 source out.2) ↔
          CellsIn sizes source ∧ LiesInLength source.shapeInfo) := by
        intro T heap hfilled
        rw [← rangeIn_iff hfilled, RangeIn, ← blockAt_free_of_ne (Ne.symm hsame), ← RangeIn]
        refine copied_copyCells_iff (by rwa [length_free, hfilled.length_eq]) fun i => ?_
        exact congrArg (cellAt · _) (blockAt_free_of_ne (Ne.symm hsame))
      refine ⟨fun h => ⟨(hfree _ (filled_numbered sizes)).mp
        (h _ (filled_numbered sizes)), fun hboth => hsame hboth.2⟩, fun h T heap hfilled => ?_⟩
      exact (hfree heap hfilled).mpr h.1
  · simp only [if_neg howned]
    refine ⟨fun h => ⟨(copied_copyConstructor_iff (filled_numbered sizes) hblock _).mp
      (h _ (filled_numbered sizes)), fun hboth => howned hboth.1⟩, fun h T heap hfilled => ?_⟩
    exact (copied_copyConstructor_iff hfilled hblock _).mpr h.1

/-- What an assignment needs besides a raw copy: a target that does not hold the source. -/
theorem copied_assignOperator_iff (hpos : source.shapeInfo.Positive)
    (hsource : InMemory sizes source) (target : Target) :
    (∀ {T : Type} (heap : Heap T), Filled heap sizes →
      ∃ out, assignOperator heap target source = some out ∧ Copied heap out.1 source out.2) ↔
      (CellsIn sizes source ∧ LiesInLength source.shapeInfo) ∧
        TargetApart sizes target source := by
  cases target with
  | itself =>
      refine ⟨fun h => ?_, fun h => absurd h.2 id⟩
      obtain ⟨out, hout, hcopied⟩ := h (numbered sizes) (filled_numbered sizes)
      have hbox := (bijOn_decode hpos).mapsTo (prod_pos_of_pos hpos)
      rw [assignOperator, Option.some.injEq] at hout
      subst hout
      exact absurd rfl (hcopied.apart _ _ hbox hbox)
  | unset workspace =>
      refine ⟨fun h => ⟨(copied_copyConstructor_iff (filled_numbered sizes) hsource.1 _).mp
        (h _ (filled_numbered sizes)), trivial⟩, fun h T heap hfilled => ?_⟩
      exact (copied_copyConstructor_iff hfilled hsource.1 _).mpr h.1
  | array this =>
      rw [TargetApart]
      split
      · rename_i hinfo
        exact copied_inPlace_iff hinfo hsource
      · rename_i hinfo
        exact copied_anew_iff hpos hinfo hsource.1

end Assignments

/-! ## Duplicates -/

section Duplicates

variable {T : Type} {heap : Heap T} {sizes : List Nat} {source : HeapArray} {order : Char}

/-- A new dense buffer is a copy exactly if it holds the elements one after the other. -/
theorem copied_dense_iff (horder : order = 'c' ∨ order = 'f') (hpos : source.shapeInfo.Positive)
    (hblock : source.buffer.block < heap.length) (buffer : Int → Option T) (hasWorkspace : Bool) :
    Copied heap (allocate heap ((List.range source.shapeInfo.length).map fun i : Nat => buffer i)).1
        source ⟨withEws (newShapeInfo order source.shapeInfo.shape) 1, ⟨heap.length, 0⟩, true, true,
          hasWorkspace⟩ ↔
      ∀ k < source.shapeInfo.length, buffer k =
        source.element heap (coordinateOf (order = 'f') source.shapeInfo.shape k) := by
  set cells := (List.range source.shapeInfo.length).map fun i : Nat => buffer i with hcells
  set copy : HeapArray := ⟨withEws (newShapeInfo order source.shapeInfo.shape) 1,
    ⟨heap.length, 0⟩, true, true, hasWorkspace⟩ with hcopy
  have hshape : copy.shapeInfo.shape = source.shapeInfo.shape := shape_newShapeInfo _ _
  have hbij := bijOn_coordinateOf (order = 'f') hpos
  have hplace : ∀ k < source.shapeInfo.length,
      copy.place (coordinateOf (order = 'f') source.shapeInfo.shape k) = ⟨heap.length, k⟩ := by
    intro k hk
    have hcell := (dense_newShapeInfo horder source.shapeInfo.shape).dot_eq (k := k)
      (by rwa [ShapeInfo.length, shape_newShapeInfo])
    rw [shape_newShapeInfo] at hcell
    rw [place_eq (hshape ▸ hbij.mapsTo hk), Place.add, hcopy]
    simp only [stride_withEws, hcell, Int.zero_add]
  have helement : ∀ k < source.shapeInfo.length,
      copy.element (allocate heap cells).1 (coordinateOf (order = 'f') source.shapeInfo.shape k) =
        buffer k := by
    intro k hk
    have hvalue := read_allocate_self heap cells k
    rw [HeapArray.element, hplace k hk]
    rw [allocate, Place.add, Int.zero_add] at hvalue
    rw [allocate, hvalue, cellAt_of_nonneg (Int.natCast_nonneg k), Int.toNat_natCast, hcells,
      List.getD_eq_getElem?_getD, List.getElem?_map, List.getElem?_range hk, Option.map_some,
      Option.getD_some]
  constructor
  · intro h k hk
    rw [← helement k hk]
    exact h.element _ (hbij.mapsTo hk)
  · intro h
    refine ⟨hshape, fun c hc => ?_, fun c hc => ?_, fun c c' hc hc' => ?_⟩
    all_goals obtain ⟨k, hk, rfl⟩ := hbij.surjOn hc
    · rw [helement k hk, h k hk]
    · rw [hplace k hk, blockAt_allocate_self, hcells, List.length_map, List.length_range]
      exact ⟨Int.natCast_nonneg k, Int.ofNat_lt.mpr hk⟩
    · have hne := @allocate_ne T heap (source.place c') cells hblock k
      rw [hplace k hk]
      rwa [allocate, Place.add, Int.zero_add] at hne

/-- With slots of one a duplicate in the same order copies the first cells. -/
theorem dup_of_memcpy {array : NDArray T} (run : Runtime T) (horder : array.shapeInfo.order = 'c' ∨
      array.shapeInfo.order = 'f') (hews : array.shapeInfo.elementWiseStride = 1) :
    ∃ buffer, array.dup run array.shapeInfo.order = .ok
        ⟨withEws (newShapeInfo array.shapeInfo.order array.shapeInfo.shape) 1, buffer⟩ ∧
      ∀ k < array.shapeInfo.length, buffer k = array.buffer k := by
  have hlength : (newShapeInfo array.shapeInfo.order array.shapeInfo.shape).length =
      array.shapeInfo.length := by rw [ShapeInfo.length, shape_newShapeInfo, ShapeInfo.length]
  have hmemcpy : (newShapeInfo array.shapeInfo.order array.shapeInfo.shape).order =
      array.shapeInfo.order ∧ (1 : Int) = 1 ∧ array.shapeInfo.elementWiseStride = 1 :=
    ⟨order_newShapeInfo horder _, rfl, hews⟩
  refine ⟨Stores.storeAll (fun i : Nat => (i : Int)) (fun i _ => array.buffer i)
    (List.range (newShapeInfo array.shapeInfo.order array.shapeInfo.shape).length) run.fresh,
    (if_neg (not_not.mpr hlength.symm)).trans (if_pos hmemcpy), fun k hk => ?_⟩
  refine Stores.storeAll_of_agree ⟨k, ?_, rfl⟩ (fun i _ hi _ => ?_) _
  · rw [List.mem_range]
    exact hlength.symm ▸ hk
  · rw [hi]

/-- No loop walks an array without axes. -/
theorem dup_of_no_axes {array : NDArray T} (run : Runtime T) (hshape : array.shapeInfo.shape = [])
    (horder : (newShapeInfo order []).order ≠ array.shapeInfo.order) :
    array.dup run order = .error .undefined := by
  set new := withEws (newShapeInfo order []) 1 with hnew
  have hnewShape : new.shape = [] := shape_newShapeInfo _ _
  have hlength : array.shapeInfo.length = new.length := by
    rw [ShapeInfo.length, ShapeInfo.length, hshape, hnewShape]
  have hdiffer : new.order ≠ array.shapeInfo.order := horder
  have hwork : Loops.exec new.length run.settings new array.shapeInfo new 0 0 0 = none := by
    unfold Loops.exec
    rw [if_neg fun h => hdiffer h.2.2.2.1, if_neg fun h => hdiffer h.2.1,
      if_pos (hnewShape.trans hshape.symm), Loops.execRaw, hnewShape, List.zip_nil_left]
  rw [NDArray.dup, hshape, NDArray.assign, if_neg (not_not.mpr hlength),
    if_neg fun h => hdiffer h.1, hwork]

/-- No slot equals both orders. -/
theorem exists_order_ne (slot : Char) :
    ∃ order : Char, (order = 'c' ∨ order = 'f') ∧ order ≠ slot := by
  by_cases h : 'c' = slot
  · exact ⟨'f', Or.inr rfl, h ▸ by decide⟩
  · exact ⟨'c', Or.inl rfl, h⟩

/-- The duplicates in both orders are right exactly if there are axes to walk and a slot of one
tells how the elements lie. -/
theorem copied_dup_iff (hpos : source.shapeInfo.Positive) (hsource : InMemory sizes source) :
    (∀ {T : Type} (heap : Heap T), Filled heap sizes → ∀ (run : Runtime (Option T)) (order : Char),
      order = 'c' ∨ order = 'f' →
        ∃ out, dup run order heap source = .ok out ∧ Copied heap out.1 source out.2) ↔
      source.shapeInfo.shape ≠ [] ∧ SlotTells source.shapeInfo := by
  have hblock : ∀ {T : Type} {heap : Heap T}, Filled heap sizes →
      source.buffer.block < heap.length := fun hfilled => hfilled.length_eq ▸ hsource.1
  constructor
  · intro h
    have hright := h (numbered sizes) (filled_numbered sizes) (oneThread fun _ => none)
    refine ⟨fun hshape => ?_, fun horder hews k hk => ?_⟩
    · obtain ⟨order, horder, hdiffer⟩ := exists_order_ne source.shapeInfo.order
      obtain ⟨out, hout, -⟩ := hright order horder
      rw [dup, @dup_of_no_axes _ order (source.inHeap (numbered sizes)) (oneThread fun _ => none) hshape
        (by rwa [order_newShapeInfo horder])] at hout
      cases hout
    · obtain ⟨buffer, hdup, hbuffer⟩ := @dup_of_memcpy _ (source.inHeap (numbered sizes))
        (oneThread fun _ => none) horder hews
      obtain ⟨out, hout, hcopied⟩ := hright source.shapeInfo.order horder
      have hsame := Except.ok.inj (hout.symm.trans (congrArg (Except.map _) hdup))
      subst hsame
      have hvalue := (copied_dense_iff horder hpos (hblock (filled_numbered sizes)) buffer
        source.hasWorkspace).mp hcopied k hk
      rw [hbuffer k hk] at hvalue
      have hbox := (bijOn_coordinateOf (source.shapeInfo.order = 'f') hpos).mapsTo hk
      have hplace : source.buffer.add k = source.place _ := eq_of_read_numbered hvalue
        (element_isSome (filled_numbered sizes) hsource hbox)
      have hcell := congrArg Place.cell hplace
      rw [place_eq hbox] at hcell
      rw [elementOffset_eq_dot]
      exact (Int.add_left_cancel hcell).symm
  · rintro ⟨hrank, hslot⟩ T heap hfilled run order horder
    obtain ⟨buffer, hdup, hbuffer⟩ := @dup_of_slot _ (source.inHeap heap) order run horder hrank hpos
      fun hsame => hslot (hsame ▸ horder)
    refine ⟨_, by rw [dup, hdup]; rfl, ?_⟩
    exact (copied_dense_iff horder hpos (hblock hfilled) buffer _).mpr hbuffer

end Duplicates

/-! ## All copies -/

section All

variable {sizes : List Nat} {source : HeapArray} {target : Target}

/-- What all copies of an array need. -/
structure Copyable (sizes : List Nat) (source : HeapArray) (target : Target) : Prop where
  axes : source.shapeInfo.shape ≠ []
  cellsIn : CellsIn sizes source
  liesInLength : LiesInLength source.shapeInfo
  slotTells : SlotTells source.shapeInfo
  targetApart : TargetApart sizes target source

/-- The copies of an array are right exactly if the cells that are copied are there and hold all
elements, a slot of one tells how they lie, and the target of the assignment is apart. -/
theorem copiesRight_iff (hpos : source.shapeInfo.Positive) (hsource : InMemory sizes source)
    (target : Target) : CopiesRight sizes source target ↔ Copyable sizes source target := by
  constructor
  · intro h
    obtain ⟨⟨hin, hlies⟩, hapart⟩ := (copied_assignOperator_iff hpos hsource target).mp h.assigned
    obtain ⟨haxes, hslot⟩ := (copied_dup_iff hpos hsource).mp h.duplicated
    exact ⟨haxes, hin, hlies, hslot, hapart⟩
  · intro h
    have hraw := And.intro h.cellsIn h.liesInLength
    exact ⟨fun heap hfilled => (copied_copyConstructor_iff hfilled hsource.1 · |>.mpr hraw),
      (copied_assignOperator_iff hpos hsource target).mpr ⟨hraw, h.targetApart⟩,
      (copied_dup_iff hpos hsource).mpr ⟨h.axes, h.slotTells⟩⟩

theorem inMemory_of_cellsIn (hblock : source.buffer.block < sizes.length)
    (hin : CellsIn sizes source) (hlies : LiesInLength source.shapeInfo) :
    InMemory sizes source := by
  refine ⟨hblock, fun c hc => ?_⟩
  obtain ⟨hcell, hlength⟩ := hin
  have hbounds := hlies c hc
  rw [place_eq hc]
  simp only [Place.add]
  omega

/-- A new matrix at the start of its block. -/
def wholeMatrix : HeapArray :=
  ⟨newShapeInfo 'c' [2, 2], ⟨0, 0⟩, true, true, false⟩

theorem positive_wholeMatrix : wholeMatrix.shapeInfo.Positive := by
  decide

theorem inMemory_wholeMatrix : InMemory [4] wholeMatrix :=
  inMemory_of_cellsIn (by decide) (by unfold CellsIn; decide)
    (liesInLength_of_consecutive positive_wholeMatrix (dense_newShapeInfo (Or.inl rfl) [2, 2]))

theorem copiesRight_iff_wholeMatrix :
    CopiesRight [4] wholeMatrix (.unset false) ↔ Copyable [4] wholeMatrix (.unset false) :=
  copiesRight_iff positive_wholeMatrix inMemory_wholeMatrix _

/-- The first column of the matrix, as a view of its buffer. -/
def firstColumn : HeapArray :=
  ⟨⟨[2, 1], [2, 1], 0, 2, 'c', by decide⟩, ⟨0, 0⟩, false, true, false⟩

theorem inMemory_firstColumn : InMemory [4] firstColumn := by
  have hbox : ∀ c, InBox firstColumn.shapeInfo.shape c → c = [0, 0] ∨ c = [1, 0] := by
    rintro c (_ | ⟨ha, _ | ⟨hb, _ | _⟩⟩)
    simp only [List.cons.injEq, and_true]
    omega
  refine ⟨by decide, fun c hc => ?_⟩
  rcases hbox c hc with rfl | rfl <;> decide

/-- The second element of the column lies behind the cells that are copied. -/
theorem not_liesInLength_firstColumn : ¬ LiesInLength firstColumn.shapeInfo := fun h =>
  absurd (h [1, 0] (.cons (by decide) (.cons (by decide) .nil))) (by decide)

theorem not_copiesRight_always :
    ¬ ∀ (sizes : List Nat) (source : HeapArray) (target : Target), source.shapeInfo.Positive →
      InMemory sizes source → CopiesRight sizes source target := by
  intro h
  have hright := (h [4] firstColumn (.unset false) (by decide) inMemory_firstColumn).constructed
    (numbered [4]) (filled_numbered [4]) false
  exact not_liesInLength_firstColumn
    ((copied_copyConstructor_iff (filled_numbered [4]) inMemory_firstColumn.1 false).mp hright).2

end All

end Arrays
end LibND4J
