import LibND4J.Arrays.Reshapei
import LibND4J.Library.Runs
import LibND4J.Shape.HonestSlots

/-!
# Histories of arrays

Arrays come from a constructor or from another array: by a copy, by a view, or changed in
place.  The model follows the shape information of all arrays through any sequence of these
operations, and whether an array owns its buffers.

Main results:

- Theorem `honest_outcome_iff`: an operation leaves honest slots, unless it transposes an
  array whose elements do not lie one after the other, or a view in place.
- Theorem `honest_histories_iff`: in a history all slots are honest exactly if every step
  keeps clear of these.
-/

namespace LibND4J
namespace Arrays

open Strided Shape

/-! ## Constructors -/

/-- The shape information of an array, `none` where it is written through a pointer that is
not set, and the flags that say what the array owns. -/
structure ArrayState where
  shapeInfo : Option ShapeInfo
  isBuffAlloc : Bool
  isShapeAlloc : Bool

/-- Shape information of an allocated array; all orders but `f` are taken for C. -/
def allocShapeInfo (order : Char) (shape : List Nat) : ShapeInfo :=
  if order = 'f' then shapeBufferFortran shape else shapeBuffer shape

/-- Fill in the element-wise stride and the order of a fresh array. -/
def allocDense (order : Char) (shape : List Nat) : ShapeInfo :=
  { allocShapeInfo order shape with
    elementWiseStride := 1
    order := if order = 'f' then 'f' else 'c' }

/-- The largest rank. -/
def maxRank : Nat :=
  32

/-- The constructors that do not start from an array. -/
inductive Constructor
  /-- `NDArray(buffer, shapeInfo)`, of the caller's memory -/
  | external (shapeInfo : ShapeInfo)
  /-- `NDArray(shapeInfo)` -/
  | ofShapeInfo (shapeInfo : ShapeInfo)
  /-- `NDArray(length, order)` -/
  | ofLength (length : Int) (order : Char)
  /-- `NDArray(rows, columns, order)` -/
  | ofSides (rows columns : Nat) (order : Char)
  /-- `NDArray(order, shape)` -/
  | ofShape (order : Char) (shape : List Nat)

/-- What a constructor builds.  `none` stands for an empty shape, of which the strides are
computed from what lies behind it. -/
def construct : Constructor → Except String (Option ArrayState)
  | .external shapeInfo => .ok (some ⟨some shapeInfo, false, false⟩)
  | .ofShapeInfo shapeInfo => .ok (some ⟨some shapeInfo, true, true⟩)
  | .ofLength length order =>
      if length < 1 then
        .error "Can't allocate non-positive number of elements"
      else
        .ok (some ⟨some (allocDense order [1, length.toNat]), true, true⟩)
  | .ofSides rows columns order => .ok (some ⟨some (allocDense order [rows, columns]), true, true⟩)
  | .ofShape order shape =>
      if shape.length > maxRank then
        .error "Rank of NDArray can't exceed 32"
      else if shape = [] then
        .ok none
      else
        .ok (some ⟨some (allocShapeInfo order shape), true, true⟩)

/-! ## Operations -/

/-- An index into one axis. -/
structure NDIndex where
  indices : List Int

namespace NDIndex

def isAll (index : NDIndex) : Bool :=
  index.indices = [-1]

def all : NDIndex :=
  ⟨[-1]⟩

def point (pt : Int) : NDIndex :=
  ⟨[pt]⟩

def interval (start stop : Int) : NDIndex :=
  ⟨(List.range (stop - start).toNat).map fun e => start + e⟩

/-- The axis that an index leaves. -/
def axis (index : NDIndex) (old : Nat × Int) : Nat × Int :=
  if index.isAll then old else (index.indices.length, old.2)

end NDIndex

/-- The operations that make an array from an array. -/
inductive Operation
  /-- the copy constructors -/
  | copy
  | dup (newOrder : Char)
  | reshapei (order : Char) (cshape : List Int)
  | permute (dimensions : List Nat)
  | permutei (dimensions : List Nat)
  | transpose
  | transposei
  | subarray (idx : List NDIndex)
  | tensorAlongDimension (index : Int) (dimensions : List Int)
  | updateStrides (order : Char)

/-- An operation returns a new array, or changes its own. -/
inductive Outcome
  | fresh (array : ArrayState)
  | self (array : ArrayState)

/-- The array an outcome is about. -/
def Outcome.array : Outcome → ArrayState
  | .fresh array => array
  | .self array => array

/-- Shape information of a transposed array. -/
def transposeShapeInfo (info : ShapeInfo) : ShapeInfo :=
  { reverseAxes info with elementWiseStride := 1 }

/-- Shape information of a sub-array. -/
def subarrayShapeInfo (info : ShapeInfo) (idx : List NDIndex) : ShapeInfo :=
  ShapeInfo.ofAxes (List.zipWith NDIndex.axis idx info.axes) info.offset (-1) info.order

/-- `createTadOnlyShapeInfo`.  In a buffer of rank one the stride stands where the second
extent is looked for, and the offset where its stride is.  `none` also stands for a negative
extent there. -/
def tadOnlyShapeInfo (info : ShapeInfo) (dimension : Dimensions info.rank) : Option ShapeInfo :=
  match info.axes with
  | [(extent, stride)] =>
      if stride = 1 then
        some (permuteShapeBuffer info [1, 0])
      else if extent = 1 then
        some createScalarShapeInfo
      else if stride < 0 then
        none
      else
        let axes := [(1, 1), (stride.toNat, info.offset)]
        some (ShapeInfo.ofAxes axes (sliceOffset 0 1 axes) info.offset (getOrder axes 1))
  | _ => (TAD.init info dimension).shapeInfoOnlyShapeAndStride

/-- `NDArray::tensorAlongDimension`; `none` also stands for a division by zero. -/
def tensorAlongDimension (info : ShapeInfo) (index : Int) (dimensions : List Int) :
    Except String (Option ShapeInfo) :=
  match checkDimensions info.rank dimensions with
  | .error message => .error message
  | .ok dimension =>
      let tadLength := Shape.tadLength info.shape dimension.toList
      if tadLength = 0 then
        .ok none
      else if index ≥ (info.length / tadLength : Nat) then
        .error "Can't get index higher than total number of TADs"
      else
        .ok (tadOnlyShapeInfo info dimension)

section Steps

variable (settings : Loops.Settings)

/-- An operation on an array with shape information.  `none` stands for reads behind an
array. -/
def Operation.run (a : ArrayState) (info : ShapeInfo) :
    Operation → Except String (Option Outcome)
  | .copy => .ok (some (.fresh ⟨some info, true, true⟩))
  | .dup newOrder =>
      -- the order slot is the one that the shape buffer comes with
      .ok (some (.fresh
        ⟨some { allocShapeInfo newOrder info.shape with elementWiseStride := 1 }, true, true⟩))
  | .reshapei order cshape =>
      match Arrays.reshapei settings order cshape info with
      | .error message => .error message
      | .ok none => .ok none
      | .ok (some (.view shapeInfoNew)) =>
          .ok (some (.self ⟨some shapeInfoNew, a.isBuffAlloc, true⟩))
      | .ok (some (.copy shapeInfoNew _)) =>
          .ok (some (.self ⟨some shapeInfoNew, a.isBuffAlloc, a.isShapeAlloc⟩))
  | .permute dimensions =>
      if dimensions.length ≠ info.rank then
        .error ("Wrong arguments in permute method: either array is nullptr or rank is not " ++
          "suitable!")
      else if ∃ d ∈ dimensions, info.rank ≤ d then
        .ok none
      else
        .ok (some (.fresh ⟨some (permuteShapeBuffer info dimensions), false, true⟩))
  | .permutei dimensions =>
      if dimensions.length ≠ info.rank then
        .ok (some (.self a))
      else if ∃ d ∈ dimensions, info.rank ≤ d then
        .ok none
      else
        .ok (some (.self ⟨some (permuteShapeBuffer info dimensions), a.isBuffAlloc, true⟩))
  | .transpose => .ok (some (.fresh ⟨some (transposeShapeInfo info), true, true⟩))
  | .transposei =>
      if ¬ a.isBuffAlloc then
        -- the buffer is detached, but no shape buffer is allocated
        .ok (some (.self ⟨none, true, a.isShapeAlloc⟩))
      else
        .ok (some (.self ⟨some (transposeShapeInfo info), true, true⟩))
  | .subarray idx =>
      if idx.length ≠ info.rank then
        .error "Number of indices should match"
      else if ∃ index ∈ idx, index.indices = [] then
        .error "std::out_of_range"
      else
        .ok (some (.fresh ⟨some (subarrayShapeInfo info idx), false, false⟩))
  | .tensorAlongDimension index dimensions =>
      match Arrays.tensorAlongDimension info index dimensions with
      | .error message => .error message
      | .ok none => .ok none
      | .ok (some shapeInfo) => .ok (some (.fresh ⟨some shapeInfo, false, true⟩))
  | .updateStrides order =>
      .ok (some (.self
        ⟨some (Shape.updateStrides info.shape order), a.isBuffAlloc, a.isShapeAlloc⟩))

/-- What is done next: construct an array, or call an operation of one that is there. -/
inductive Event
  | build (constructor : Constructor)
  | call (i : Nat) (operation : Operation)

/-- The arrays after an event; a call that throws, or is not followed, leaves them. -/
def step (arrays : List ArrayState) : Event → List ArrayState
  | .build constructor =>
      match construct constructor with
      | .ok (some a) => arrays ++ [a]
      | _ => arrays
  | .call i operation =>
      match arrays[i]? with
      | some ⟨some info, isBuffAlloc, isShapeAlloc⟩ =>
          match operation.run settings ⟨some info, isBuffAlloc, isShapeAlloc⟩ info with
          | .ok (some (.fresh a)) => arrays ++ [a]
          | .ok (some (.self a)) => arrays.set i a
          | _ => arrays
      | _ => arrays

end Steps

/-! ## Honest slots -/

/-- The array has shape information, with honest slots. -/
def ArrayState.Honest (a : ArrayState) : Prop :=
  ∃ info, a.shapeInfo = some info ∧ info.HonestSlots

/-- The elements of the transposed array lie one after the other: the array is contiguous in C
order, or its elements in F order lie one after the other. -/
def TransposesDense (info : ShapeInfo) : Prop :=
  contiguousFrom info.axes.reverse 1 = true ∨
    ∀ k < info.length, elementOffset true info.axes k = k

/-- The operation leaves honest slots. -/
def Operation.Restores (a : ArrayState) (info : ShapeInfo) : Operation → Prop
  | .transpose => TransposesDense info
  | .transposei => a.isBuffAlloc = true ∧ TransposesDense info
  | _ => True

/-- The event leaves honest slots: shape information from outside has them, and the operation
leaves them. -/
def Keeps (arrays : List ArrayState) : Event → Prop
  | .build (.external shapeInfo) => shapeInfo.HonestSlots
  | .build (.ofShapeInfo shapeInfo) => shapeInfo.HonestSlots
  | .build _ => True
  | .call i operation => ∀ a info, arrays[i]? = some a → a.shapeInfo = some info →
      operation.Restores a info

theorem honest_some {info : ShapeInfo} {isBuffAlloc isShapeAlloc : Bool} :
    (ArrayState.mk (some info) isBuffAlloc isShapeAlloc).Honest ↔ info.HonestSlots := by
  constructor
  · rintro ⟨info', hinfo, hhonest⟩
    cases hinfo
    exact hhonest
  · intro h
    exact ⟨info, rfl, h⟩

section Fresh

variable (order : Char) (shape : List Nat)

theorem honestSlots_allocShapeInfo : (allocShapeInfo order shape).HonestSlots := by
  rw [allocShapeInfo]
  split
  · exact honestSlots_shapeBufferFortran shape
  · exact honestSlots_shapeBuffer shape

/-- The strides of an allocated array are dense, so that its slot may be set to one. -/
theorem dense_allocShapeInfo {k : Nat} (hk : k < shape.prod) :
    elementOffset (order = 'f') (allocShapeInfo order shape).axes k = k := by
  rw [allocShapeInfo]
  by_cases horder : order = 'f'
  · rw [if_pos horder, axes_shapeBufferFortran, decide_eq_true horder]
    exact elementOffset_calcStridesFortran hk
  · rw [if_neg horder, axes_shapeBuffer, decide_eq_false horder]
    exact elementOffset_calcStrides hk

@[simp]
theorem shape_allocShapeInfo : (allocShapeInfo order shape).shape = shape := by
  rw [allocShapeInfo]
  split <;> simp

theorem isFOrder_allocShapeInfo : (allocShapeInfo order shape).isFOrder = decide (order = 'f') := by
  by_cases horder : order = 'f'
  · rw [allocShapeInfo, if_pos horder, decide_eq_true horder]
    rfl
  · rw [allocShapeInfo, if_neg horder, decide_eq_false horder]
    rfl

theorem honestSlots_allocDense : (allocDense order shape).HonestSlots := by
  refine honestSlots_of_dense rfl fun k hk => ?_
  have hk : k < shape.prod := by rwa [← shape_allocShapeInfo order shape]
  have horder : (allocDense order shape).isFOrder = decide (order = 'f') := by
    by_cases horder : order = 'f'
    · simp [allocDense, ShapeInfo.isFOrder, horder]
    · simp [allocDense, ShapeInfo.isFOrder, horder]
  rw [horder]
  exact dense_allocShapeInfo order shape hk

theorem honestSlots_dup :
    ShapeInfo.HonestSlots { allocShapeInfo order shape with elementWiseStride := 1 } := by
  refine honestSlots_of_dense rfl fun k hk => ?_
  have hk : k < shape.prod := by rwa [← shape_allocShapeInfo order shape]
  have hdense := dense_allocShapeInfo order shape hk
  rw [← isFOrder_allocShapeInfo order shape] at hdense
  exact hdense

theorem honestSlots_freshShapeInfo : (freshShapeInfo order shape).HonestSlots := by
  rw [freshShapeInfo]
  split
  · exact honestSlots_shapeBuffer shape
  · exact honestSlots_shapeBufferFortran shape

end Fresh

section Outcomes

variable {info : ShapeInfo}

/-- A transposed array has honest slots exactly if its elements lie one after the other, or it
is contiguous in both orders. -/
theorem honestSlots_transposeShapeInfo :
    (transposeShapeInfo info).HonestSlots ↔ TransposesDense info := by
  have haxes : (transposeShapeInfo info).axes = info.axes.reverse := axes_reverseAxes info
  have hlength : (transposeShapeInfo info).length = info.length := by
    rw [← ShapeInfo.volume_axes, haxes, volume_reverse, info.volume_axes]
  have horder : (transposeShapeInfo info).order = getOrder info.axes.reverse 1 := by
    rw [← axes_reverseAxes, reverseAxes, permuteShapeBuffer, ShapeInfo.axes_ofAxes]
    rfl
  by_cases hfortran : contiguousFrom info.axes.reverse 1 = true
  · refine ⟨fun _ => Or.inl hfortran, fun _ hslot => ?_⟩
    have hf : (transposeShapeInfo info).order = 'f' := by
      rcases hslot with hc | hf
      · rw [horder, getOrder_eq_c_iff] at hc
        exact absurd hfortran hc
      · exact hf
    apply (honestSlots_of_dense rfl fun k hk => ?_) hslot
    have hk' : k < volume info.axes.reverse := by rwa [volume_reverse, info.volume_axes, ← hlength]
    rw [ShapeInfo.isFOrder, hf, haxes]
    exact (elementOffset_of_contiguousFrom hfortran hk').trans (mul_one _)
  · -- the slot says C
    have hc : (transposeShapeInfo info).order = 'c' := by
      rw [horder, getOrder_eq_c_iff]
      exact hfortran
    have hwalk : ∀ k < info.length, elementOffset (transposeShapeInfo info).isFOrder
        (transposeShapeInfo info).axes k = elementOffset true info.axes k := by
      intro k hk
      rw [ShapeInfo.isFOrder, hc, haxes]
      exact elementOffset_reverse info.axes (by rwa [info.volume_axes])
    constructor
    · intro h
      right
      intro k hk
      rw [← hwalk k hk]
      exact (h (Or.inl hc) (le_refl 1) k (hlength ▸ hk)).trans (mul_one _)
    · intro h
      refine honestSlots_of_dense rfl fun k hk => ?_
      have hk : k < info.length := hlength ▸ hk
      rw [hwalk k hk]
      exact h.resolve_left hfortran k hk

variable {settings : Loops.Settings}

theorem honestSlots_reshapei {order : Char} {cshape : List Int} {r : Reshaped}
    (h : reshapei settings order cshape info = .ok (some r)) :
    match r with
    | .view shapeInfoNew => shapeInfoNew.HonestSlots
    | .copy shapeInfoNew _ => shapeInfoNew.HonestSlots := by
  unfold reshapei at h
  simp only at h
  split at h
  · cases h
  split at h
  · cases h
  split at h
  · cases h
  · split at h
    · rename_i shapeInfoNew hview
      cases h
      apply honestSlots_of_nonpositive
      unfold reshapeCF at hview
      split at hview
      · cases hview
      · cases hview
      · cases hview
        show (-1 : Int) < 1
        decide
    · cases h
  · have hok := Except.ok.inj h
    obtain ⟨work, -, rfl⟩ := Option.map_eq_some_iff.mp hok
    exact honestSlots_freshShapeInfo order _

theorem honestSlots_tadOnlyShapeInfo (hinfo : info.HonestSlots) {dimension : Dimensions info.rank}
    {ret : ShapeInfo} (h : tadOnlyShapeInfo info dimension = some ret) : ret.HonestSlots := by
  unfold tadOnlyShapeInfo at h
  split at h
  · split at h
    · cases h
      exact honestSlots_of_nonpositive (by simp)
    split at h
    · cases h
      exact honestSlots_of_row rfl rfl
    split at h
    · cases h
    · cases h
      exact honestSlots_of_row (ShapeInfo.axes_ofAxes _ _ _ _) rfl
  · rename_i hmany
    have hrank : 2 ≤ info.rank := by
      obtain ⟨d, hd⟩ := List.exists_mem_of_ne_nil _ dimension.ne_nil
      have hpos := dimension.lt_rank d hd
      have hne : info.rank ≠ 1 := by
        intro hone
        rw [← info.length_axes] at hone
        obtain ⟨axis, haxis⟩ := List.length_eq_one_iff.mp hone
        exact hmany axis.1 axis.2 haxis
      omega
    exact @honestSlots_shapeInfoOnlyShapeAndStride (TAD.init info dimension) hinfo hrank ret h

theorem honestSlots_tensorAlongDimension (hinfo : info.HonestSlots) {index : Int}
    {dimensions : List Int} {ret : ShapeInfo}
    (h : tensorAlongDimension info index dimensions = .ok (some ret)) : ret.HonestSlots := by
  unfold tensorAlongDimension at h
  simp only at h
  split at h
  · cases h
  · split at h
    · cases h
    · split at h
      · cases h
      · exact honestSlots_tadOnlyShapeInfo hinfo (Except.ok.inj h)

/-- An operation on an array with honest slots leaves honest slots if it restores them, and
only then. -/
theorem honest_outcome_iff {a : ArrayState} {operation : Operation} {r : Outcome}
    (ha : a.shapeInfo = some info) (hinfo : info.HonestSlots)
    (hrun : operation.run settings a info = .ok (some r)) :
    r.array.Honest ↔ operation.Restores a info := by
  have hkept : ∀ {new : ShapeInfo}, new.HonestSlots → ∀ isBuffAlloc isShapeAlloc,
      (ArrayState.mk (some new) isBuffAlloc isShapeAlloc).Honest ↔ True :=
    fun hnew _ _ => iff_true_intro (honest_some.mpr hnew)
  have hself : a.Honest := ⟨info, ha, hinfo⟩
  cases operation with
  | copy =>
      cases hrun
      exact hkept hinfo true true
  | dup newOrder =>
      cases hrun
      exact hkept (honestSlots_dup newOrder info.shape) true true
  | reshapei order cshape =>
      simp only [Operation.run] at hrun
      cases hreshape : reshapei settings order cshape info with
      | error message =>
          rw [hreshape] at hrun
          cases hrun
      | ok reshaped =>
          rw [hreshape] at hrun
          cases reshaped with
          | none => cases hrun
          | some reshaped =>
              have hnew := honestSlots_reshapei hreshape
              cases reshaped with
              | view shapeInfoNew =>
                  cases hrun
                  exact hkept hnew _ _
              | copy shapeInfoNew work =>
                  cases hrun
                  exact hkept hnew _ _
  | permute dimensions =>
      simp only [Operation.run] at hrun
      split at hrun
      · cases hrun
      split at hrun
      · cases hrun
      · cases hrun
        exact hkept (honestSlots_of_nonpositive (by simp)) _ _
  | permutei dimensions =>
      simp only [Operation.run] at hrun
      split at hrun
      · cases hrun
        exact iff_true_intro hself
      split at hrun
      · cases hrun
      · cases hrun
        exact hkept (honestSlots_of_nonpositive (by simp)) _ _
  | transpose =>
      cases hrun
      exact honest_some.trans honestSlots_transposeShapeInfo
  | transposei =>
      simp only [Operation.run] at hrun
      split at hrun
      · rename_i hview
        cases hrun
        constructor
        · rintro ⟨info', hnone, -⟩
          cases hnone
        · intro h
          exact absurd h.1 hview
      · rename_i howned
        cases hrun
        have howned : a.isBuffAlloc = true := not_not.mp howned
        constructor
        · intro h
          exact ⟨howned, honestSlots_transposeShapeInfo.mp (honest_some.mp h)⟩
        · intro h
          exact honest_some.mpr (honestSlots_transposeShapeInfo.mpr h.2)
  | subarray idx =>
      simp only [Operation.run] at hrun
      split at hrun
      · cases hrun
      split at hrun
      · cases hrun
      · cases hrun
        exact hkept (honestSlots_of_nonpositive (show (-1 : Int) < 1 by decide)) _ _
  | tensorAlongDimension index dimensions =>
      simp only [Operation.run] at hrun
      cases htensor : tensorAlongDimension info index dimensions with
      | error message =>
          rw [htensor] at hrun
          cases hrun
      | ok ret =>
          rw [htensor] at hrun
          cases ret with
          | none => cases hrun
          | some ret =>
              cases hrun
              exact hkept (honestSlots_tensorAlongDimension hinfo htensor) _ _
  | updateStrides order =>
      cases hrun
      exact hkept (honestSlots_updateStrides info.shape order) _ _

/-- A call that does not return an outcome is not one that breaks slots. -/
theorem restores_of_not_run {a : ArrayState} {operation : Operation}
    (hrun : ∀ r, operation.run settings a info ≠ .ok (some r)) : operation.Restores a info := by
  cases operation with
  | transpose => exact absurd rfl (hrun _)
  | transposei =>
      exfalso
      simp only [Operation.run] at hrun
      split at hrun
      · exact hrun _ rfl
      · exact hrun _ rfl
  | copy => trivial
  | dup newOrder => trivial
  | reshapei order cshape => trivial
  | permute dimensions => trivial
  | permutei dimensions => trivial
  | subarray idx => trivial
  | tensorAlongDimension index dimensions => trivial
  | updateStrides order => trivial

end Outcomes

/-! ## Histories -/

section Histories

variable {settings : Loops.Settings} {arrays : List ArrayState}

theorem honest_append_iff (h : ∀ b ∈ arrays, b.Honest) (a : ArrayState) :
    (∀ b ∈ arrays ++ [a], b.Honest) ↔ a.Honest := by
  constructor
  · intro hall
    exact hall a (by simp)
  · intro ha b hb
    rcases List.mem_append.mp hb with hb | hb
    · exact h b hb
    · exact List.mem_singleton.mp hb ▸ ha

theorem honest_set_iff (h : ∀ b ∈ arrays, b.Honest) {i : Nat} (hi : i < arrays.length)
    (a : ArrayState) : (∀ b ∈ arrays.set i a, b.Honest) ↔ a.Honest := by
  constructor
  · intro hall
    exact hall a (List.mem_set hi a)
  · intro ha b hb
    rcases List.mem_or_eq_of_mem_set hb with hb | rfl
    · exact h b hb
    · exact ha

theorem honest_construct_iff {constructor : Constructor} {a : ArrayState}
    (h : construct constructor = .ok (some a)) : a.Honest ↔ Keeps arrays (.build constructor) := by
  cases constructor with
  | external shapeInfo =>
      cases h
      exact honest_some
  | ofShapeInfo shapeInfo =>
      cases h
      exact honest_some
  | ofLength length order =>
      rw [construct] at h
      split at h
      · cases h
      · cases h
        exact iff_of_true (honest_some.mpr (honestSlots_allocDense order _)) trivial
  | ofSides rows columns order =>
      cases h
      exact iff_of_true (honest_some.mpr (honestSlots_allocDense order _)) trivial
  | ofShape order shape =>
      rw [construct] at h
      split at h
      · cases h
      split at h
      · cases h
      · cases h
        exact iff_of_true (honest_some.mpr (honestSlots_allocShapeInfo order shape)) trivial

theorem keeps_of_not_construct {constructor : Constructor}
    (h : ∀ a, construct constructor ≠ .ok (some a)) : Keeps arrays (.build constructor) := by
  cases constructor with
  | external shapeInfo => exact absurd rfl (h _)
  | ofShapeInfo shapeInfo => exact absurd rfl (h _)
  | ofLength length order => trivial
  | ofSides rows columns order => trivial
  | ofShape order shape => trivial

theorem honest_build_iff (h : ∀ b ∈ arrays, b.Honest) (constructor : Constructor) :
    (∀ b ∈ step settings arrays (.build constructor), b.Honest) ↔
      Keeps arrays (.build constructor) := by
  rw [step]
  cases hbuild : construct constructor with
  | error message =>
      exact iff_of_true h (keeps_of_not_construct fun a ha => by rw [hbuild] at ha; cases ha)
  | ok result =>
      cases result with
      | none =>
          exact iff_of_true h (keeps_of_not_construct fun a ha => by rw [hbuild] at ha; cases ha)
      | some a => exact (honest_append_iff h a).trans (honest_construct_iff hbuild)

theorem honest_call_iff (h : ∀ b ∈ arrays, b.Honest) (i : Nat) (operation : Operation) :
    (∀ b ∈ step settings arrays (.call i operation), b.Honest) ↔
      Keeps arrays (.call i operation) := by
  cases harray : arrays[i]? with
  | none =>
      refine iff_of_true ?_ fun a info ha => ?_
      · simp only [step, harray]
        exact h
      · rw [harray] at ha
        cases ha
  | some a =>
      obtain ⟨hi, hget⟩ := List.getElem?_eq_some_iff.mp harray
      obtain ⟨info, hinfo, hhonest⟩ := h a (hget ▸ List.getElem_mem hi)
      obtain ⟨shapeInfo, isBuffAlloc, isShapeAlloc⟩ := a
      cases hinfo
      have hkeeps : Keeps arrays (.call i operation) ↔
          operation.Restores ⟨some info, isBuffAlloc, isShapeAlloc⟩ info := by
        constructor
        · intro hall
          exact hall _ info harray rfl
        · intro hrestores a' info' ha' hinfo'
          cases harray.symm.trans ha'
          cases hinfo'
          exact hrestores
      rw [hkeeps]
      simp only [step, harray]
      cases hrun : operation.run settings ⟨some info, isBuffAlloc, isShapeAlloc⟩ info with
      | error message =>
          exact iff_of_true h (restores_of_not_run fun r hr => by rw [hrun] at hr; cases hr)
      | ok result =>
          cases result with
          | none =>
              exact iff_of_true h (restores_of_not_run fun r hr => by rw [hrun] at hr; cases hr)
          | some r =>
              have houtcome := honest_outcome_iff rfl hhonest hrun
              cases r with
              | fresh b => exact (honest_append_iff h b).trans houtcome
              | self b => exact (honest_set_iff h hi b).trans houtcome

/-- An event keeps all slots honest exactly under its condition. -/
theorem stepRule_honest (settings : Loops.Settings) :
    Runs.StepRule (step settings) (fun arrays => ∀ a ∈ arrays, a.Honest)
      (fun arrays => ∀ a ∈ arrays, a.Honest) Keeps where
  good_of_inv := fun _ h => h
  preserved := by
    intro arrays event h hkeeps
    cases event with
    | build constructor => exact (honest_build_iff h constructor).mpr hkeeps
    | call i operation => exact (honest_call_iff h i operation).mpr hkeeps
  necessary := by
    intro arrays event h hgood
    cases event with
    | build constructor => exact (honest_build_iff h constructor).mp hgood
    | call i operation => exact (honest_call_iff h i operation).mp hgood

/-- In a history all slots are honest exactly if every shape information from outside has
honest slots, and every transposition meets a dense array that owns its buffer where it is
transposed in place. -/
theorem honest_histories_iff (settings : Loops.Settings) (events : List Event) :
    (∀ arrays ∈ Runs.trace (step settings) [] events, ∀ a ∈ arrays, a.Honest) ↔
      Runs.Meets (step settings) Keeps [] events := by
  apply (stepRule_honest settings).forall_trace_iff
  intro a ha
  cases ha

end Histories

/-- Two rows of three, of which the first two columns are taken and transposed. -/
def columnsTransposed : List Event :=
  [.build (.ofSides 2 3 'c'), .call 0 (.subarray [.all, .interval 0 2]), .call 1 .transpose]

/-- The transposed view gets a stride of one, though its first two elements are three cells
apart. -/
theorem not_honest_histories_always :
    ¬ ∀ (settings : Loops.Settings) (events : List Event),
      (∀ event ∈ events, ∀ constructor, event = .build constructor →
        (∀ shapeInfo, constructor ≠ .external shapeInfo) ∧
          ∀ shapeInfo, constructor ≠ .ofShapeInfo shapeInfo) →
      ∀ arrays ∈ Runs.trace (step settings) [] events, ∀ a ∈ arrays, a.Honest := by
  intro h
  have hall := h (Loops.Settings.initial 4 (by decide)) columnsTransposed (by
    intro event hevent constructor heq
    subst heq
    have hfirst : constructor = .ofSides 2 3 'c' := by simpa [columnsTransposed] using hevent
    subst hfirst
    exact ⟨fun _ => by simp, fun _ => by simp⟩)
  have hlast : ∃ arrays ∈ Runs.trace (step (Loops.Settings.initial 4 (by decide))) []
      columnsTransposed, ∃ a ∈ arrays, ∃ info, a.shapeInfo = some info ∧
        info.axes = [(2, 1), (2, 3)] ∧ info.order = 'c' ∧ info.elementWiseStride = 1 := by
    refine ⟨_, List.mem_cons_of_mem _ (List.mem_cons_of_mem _ (List.mem_cons_of_mem _
      List.mem_cons_self)), _, List.mem_cons_of_mem _ (List.mem_cons_of_mem _
        List.mem_cons_self), _, rfl, ?_, ?_, ?_⟩
    · rfl
    · rfl
    · rfl
  obtain ⟨arrays, hmem, a, ha, info, hinfo, haxes, horder, hslot⟩ := hlast
  obtain ⟨info', hinfo', hhonest⟩ := hall arrays hmem a ha
  cases hinfo.symm.trans hinfo'
  have hlength : info.length = 4 := by
    rw [← info.volume_axes, haxes]
    rfl
  have hfour := hhonest (Or.inl horder) (by omega) 1 (by omega)
  rw [hslot, ShapeInfo.isFOrder, horder, haxes] at hfour
  exact absurd hfour (by decide)

end Arrays
end LibND4J
