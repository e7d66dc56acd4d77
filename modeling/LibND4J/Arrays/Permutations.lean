import LibND4J.Arrays.Operations

/-!
# Permuted shape information

`doPermuteShapeBuffer` rearranges the extents and the strides of an array and leaves its
buffer.  A permutation can be undone by the one that looks up where each axis went.

Main results:

- Theorem `perm_inversePermutation`: the inverse is a permutation of the axes as well.
- Theorem `permuted_twice`: a permutation followed by its inverse restores shape and strides.
- Theorem `permuteShapeBuffer_keeps`: every element keeps its place in the buffer.
-/

namespace LibND4J
namespace Arrays

open Shape Strided

/-- The permutation that undoes another one: it looks up the place of every axis. -/
def inversePermutation (p : List Nat) : List Nat :=
  (List.range p.length).map (p.idxOf ·)

section Inverse

variable {p : List Nat} {n : Nat}

@[simp]
theorem length_inversePermutation (p : List Nat) : (inversePermutation p).length = p.length := by
  simp [inversePermutation]

variable (hp : p.Perm (List.range n))

include hp

theorem idxOf_lt {i : Nat} (hi : i < n) : p.idxOf i < p.length :=
  List.idxOf_lt_length_iff.mpr (hp.mem_iff.mpr (List.mem_range.mpr hi))

/-- Every axis stands where the inverse says. -/
theorem getD_idxOf {i : Nat} (hi : i < n) : p.getD (p.idxOf i) 0 = i := by
  rw [List.getD_eq_getElem?_getD, List.getElem?_eq_getElem (idxOf_lt hp hi), Option.getD_some,
    List.getElem_idxOf]

/-- The inverse is a permutation of the axes as well. -/
theorem perm_inversePermutation : (inversePermutation p).Perm (List.range n) := by
  have hlength : p.length = n := hp.length_eq.trans List.length_range
  have hnodup : (inversePermutation p).Nodup := by
    refine List.nodup_range.map_on fun i hi j hj heq => ?_
    rw [List.mem_range, hlength] at hi hj
    rw [← getD_idxOf hp hi, heq, getD_idxOf hp hj]
  have hsubset : inversePermutation p ⊆ List.range n := by
    intro j hj
    obtain ⟨i, hi, rfl⟩ := List.mem_map.mp hj
    rw [List.mem_range, hlength] at hi
    exact List.mem_range.mpr (hlength ▸ idxOf_lt hp hi)
  refine (List.subperm_of_subset hnodup hsubset).perm_of_length_le ?_
  simp [hlength]

omit hp

/-- Looking up through a permutation and its inverse changes nothing. -/
theorem map_getD_inversePermutation {α : Type} {data : List α} {d : α}
    (hp : p.Perm (List.range data.length)) :
    (inversePermutation p).map ((p.map (data.getD · d)).getD · d) = data := by
  have hlength : p.length = data.length := hp.length_eq.trans List.length_range
  apply List.ext_getElem
  · rw [List.length_map, length_inversePermutation, hlength]
  · intro i _ hi
    have hplace := idxOf_lt hp hi
    have hplace' : p.idxOf i < (p.map (data.getD · d)).length := by rwa [List.length_map]
    simp only [inversePermutation, List.getElem_map, List.getElem_range]
    rw [List.getD_eq_getElem?_getD, List.getElem?_eq_getElem hplace', Option.getD_some,
      List.getElem_map, List.getElem_idxOf, List.getD_eq_getElem?_getD,
      List.getElem?_eq_getElem hi, Option.getD_some]

end Inverse

section Permuted

variable {info : ShapeInfo} {p : List Nat}

variable (hp : p.Perm (List.range info.rank))

include hp

theorem rank_permuteShapeBuffer : (permuteShapeBuffer info p).rank = info.rank := by
  rw [ShapeInfo.rank, shape_permuteShapeBuffer hp, List.length_map, hp.length_eq, List.length_range]

/-- The length does not change. -/
theorem length_permuteShapeBuffer : (permuteShapeBuffer info p).length = info.length := by
  rw [ShapeInfo.length, shape_permuteShapeBuffer hp, (hp.map _).prod_eq, ShapeInfo.rank,
    map_getD_range, ShapeInfo.length]

/-- The permuted coordinate is a coordinate of the permuted array. -/
theorem inBox_permuteShapeBuffer {c : List Nat} (hc : InBox info.shape c) :
    InBox (permuteShapeBuffer info p).shape (p.map (c.getD · 0)) := by
  rw [shape_permuteShapeBuffer hp]
  exact inBox_map_getD hc fun i hi => List.mem_range.mp (hp.mem_iff.mp hi)

/-- Every element keeps its place in the buffer. -/
theorem getOffset_permuteShapeBuffer {c : List Nat} (hc : InBox info.shape c) (baseOffset : Int) :
    getOffset baseOffset (permuteShapeBuffer info p).shape (permuteShapeBuffer info p).stride
        (p.map (c.getD · 0)) =
      getOffset baseOffset info.shape info.stride c := by
  have hlength : c.length = info.rank := hc.length_eq.symm
  rw [getOffset_eq (inBox_permuteShapeBuffer hp hc) (permuteShapeBuffer info p).stride_length,
    getOffset_eq hc info.stride_length, stride_permuteShapeBuffer hp,
    dot_map_getD (by rwa [hlength]) (by rw [info.stride_length, hc.length_eq])]

/-- A permutation followed by its inverse restores shape and strides. -/
theorem permuted_twice :
    (permuteShapeBuffer (permuteShapeBuffer info p) (inversePermutation p)).shape = info.shape ∧
      (permuteShapeBuffer (permuteShapeBuffer info p) (inversePermutation p)).stride =
        info.stride := by
  have hinverse : (inversePermutation p).Perm (List.range (permuteShapeBuffer info p).rank) := by
    rw [rank_permuteShapeBuffer hp]
    exact perm_inversePermutation hp
  have hstrides : p.Perm (List.range info.stride.length) := by rwa [info.stride_length]
  constructor
  · rw [shape_permuteShapeBuffer hinverse, shape_permuteShapeBuffer hp]
    exact map_getD_inversePermutation hp
  · rw [stride_permuteShapeBuffer hinverse, stride_permuteShapeBuffer hp]
    exact map_getD_inversePermutation hstrides

omit hp

/-- A permutation keeps the place of every element and the length, and its inverse restores shape
and strides. -/
theorem permuteShapeBuffer_keeps (hp : p.Perm (List.range info.rank)) :
    (∀ c, InBox info.shape c → ∀ baseOffset,
      getOffset baseOffset (permuteShapeBuffer info p).shape (permuteShapeBuffer info p).stride
          (p.map (c.getD · 0)) =
        getOffset baseOffset info.shape info.stride c) ∧
    ((permuteShapeBuffer (permuteShapeBuffer info p) (inversePermutation p)).shape = info.shape ∧
      (permuteShapeBuffer (permuteShapeBuffer info p) (inversePermutation p)).stride =
        info.stride) ∧
    (permuteShapeBuffer info p).length = info.length :=
  ⟨fun _ hc baseOffset => getOffset_permuteShapeBuffer hp hc baseOffset, permuted_twice hp,
    length_permuteShapeBuffer hp⟩

/-- Three axes in a circle. -/
theorem permuteShapeBuffer_keeps_circle :
    let info := ShapeInfo.ofAxes [(2, 12), (3, -4), (4, 1)] 0 1 'c'
    getOffset 0 (permuteShapeBuffer info [1, 2, 0]).shape (permuteShapeBuffer info [1, 2, 0]).stride
      [2, 3, 1] = 7 := by
  intro info
  have hp : [1, 2, 0].Perm (List.range info.rank) := by decide
  exact (permuteShapeBuffer_keeps hp).1 [1, 2, 3]
    (.cons (by decide) (.cons (by decide) (.cons (by decide) .nil))) 0

end Permuted

end Arrays
end LibND4J
