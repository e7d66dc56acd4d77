import LibND4J.Arrays.Targets

/-!
# Channels

The second axis of an array counts its channels.  A row with one entry for each channel is combined
with all elements of an array by `applyBroadcast` along that axis, and if the array is a matrix
also by the routines for row vectors.  Both write the cells of the array itself, in whatever buffer
they are given.

Main results:

- Theorem `applyBroadcast_channels`: what the work along the second axis leaves.
- Theorems `broadcastChannelsTo_spec`, `broadcastChannels_spec` and
  `rowVectorTo_spec`: the routines on whole arrays.
-/

namespace LibND4J
namespace Arrays

open Strided Shape Loops

/-! ## The routines -/

section Routines

variable {T : Type}

/-- The second axis. -/
def channelAxis {rank : Nat} (hrank : 1 < rank) : AxisList rank where
  toList := [1]
  nodup := nodup_one
  lt_rank := by
    intro d hd
    rw [List.mem_singleton.mp hd]
    exact hrank

namespace NDArray

/-- `applyBroadcast` along the second axis, into another array; of an array without that axis a
slot past its extents is read. -/
def broadcastChannelsTo (op : T → T → T) (run : Runtime T) (array row target : NDArray T) :
    Except Failure (NDArray T) :=
  if hrank : 1 < array.shapeInfo.rank then
    match applyBroadcast array.shapeInfo (channelAxis hrank) row.shapeInfo with
    | .error message => .error (.thrown message)
    | .ok none => .error .undefined
    | .ok (some work) => .ok ⟨target.shapeInfo,
        runBroadcast op false array.buffer row.buffer (run.schedule work) target.buffer⟩
  else .error .undefined

/-- `applyBroadcast` along the second axis, into the array itself. -/
def broadcastChannels (op : T → T → T) (run : Runtime T) (array row : NDArray T) :
    Except Failure (NDArray T) :=
  if hrank : 1 < array.shapeInfo.rank then
    array.broadcastAlong op run row (channelAxis hrank)
  else .error .undefined

/-- A routine for row vectors, into another array. -/
def rowVectorTo [Field T]
    (routine : ShapeInfo → ShapeInfo → ShapeInfo → Except String (Nat × Option (List (List Visit))))
    (run : Runtime T) (array row target : NDArray T) : Except Failure (NDArray T) :=
  match routine array.shapeInfo row.shapeInfo target.shapeInfo with
  | .error message => .error (.thrown message)
  | .ok (_, none) => .error .undefined
  | .ok (opNum, some work) =>
      match broadcastOp opNum with
      | none => .error .undefined
      | some op => .ok ⟨target.shapeInfo,
          runBroadcast op false array.buffer row.buffer (run.schedule work) target.buffer⟩

end NDArray

end Routines

/-! ## Rows -/

/-- The places of a matrix. -/
theorem exists_pair {M N : Nat} {c : List Nat} (hc : InBox [M, N] c) :
    ∃ r < M, ∃ k < N, c = [r, k] := by
  rcases hc with - | ⟨hr, - | ⟨hk, - | -⟩⟩
  exact ⟨_, hr, _, hk, rfl⟩

/-- The channel of an element. -/
def channelOf (c : List Nat) : Nat :=
  c.getD 1 0

/-- Shape information of a row with one entry for each of `K` channels. -/
structure ChannelRow (info : ShapeInfo) (K : Nat) : Prop where
  shape_eq : info.shape = [1, K]
  honest : info.HonestEws

section Rows

variable {x row : ShapeInfo} {K : Nat}

namespace ChannelRow

variable (h : ChannelRow row K)

include h

theorem length_eq : row.length = K := by
  simp [ShapeInfo.length, h.shape_eq]

theorem positive (hK : 0 < K) : row.Positive := by
  rw [ShapeInfo.Positive, h.shape_eq]
  simp [hK]

theorem isLine : IsLine row.shape := by
  rw [h.shape_eq]
  exact isLine_row K

theorem inBox {k : Nat} (hk : k < K) : InBox row.shape [0, k] := by
  rw [h.shape_eq]
  exact inBox_pair.mpr ⟨Nat.one_pos, hk⟩

end ChannelRow

/-- Only the second entry is at the second axis. -/
theorem kept_channelAxis {α : Type} {rank : Nat} (hrank : 1 < rank) (data : List α) (d : α)
    (hlength : data.length = rank) : (channelAxis hrank).kept data = [data.getD 1 d] := by
  have hlater : ∀ (xs : List α) (i : Nat), 2 ≤ i →
      Selection.pick (fun i => decide (i ∈ (channelAxis hrank).toList)) i xs = [] := by
    intro xs
    induction xs with
    | nil => exact fun _ _ => rfl
    | cons a xs ih =>
        intro i hi
        have hmem : decide (i ∈ (channelAxis hrank).toList) = false := by
          rw [decide_eq_false_iff_not]
          intro hone
          have hsecond : i = 1 := List.mem_singleton.mp hone
          omega
        rw [Selection.pick, hmem]
        exact ih (i + 1) (by omega)
  rcases data with _ | ⟨a, _ | ⟨b, rest⟩⟩
  · exact absurd hrank (by rw [← hlength]; exact Nat.not_lt_zero 1)
  · exact absurd hrank (by rw [← hlength]; exact lt_irrefl 1)
  · rw [AxisList.kept, Selection.pick, Selection.pick, hlater rest 2 (le_refl 2)]
    rfl

theorem kept_channelAxis_shape (hrank : 1 < x.rank) :
    (channelAxis hrank).kept x.shape = [x.shape.getD 1 0] :=
  kept_channelAxis hrank x.shape 0 rfl

variable {c : List Nat}

/-- The channels of the elements. -/
theorem channelOf_lt {shape : List Nat} (hc : InBox shape c) (hrank : 1 < shape.length) :
    channelOf c < shape.getD 1 0 := by
  rcases hc with - | ⟨-, - | ⟨hk, -⟩⟩
  · exact absurd hrank (Nat.not_lt_zero 1)
  · exact absurd hrank (lt_irrefl 1)
  · exact hk

/-- The entry of the row that belongs to an element. -/
theorem broadcastOffset_channels (hrank : 1 < x.rank) (hrow : ChannelRow row (x.shape.getD 1 0))
    (hc : InBox x.shape c) :
    broadcastOffset x row (channelAxis hrank) c = dot [0, channelOf c] row.stride := by
  have hk : channelOf c < x.shape.getD 1 0 := channelOf_lt hc hrank
  have hkept : (channelAxis hrank).kept c = [channelOf c] :=
    kept_channelAxis hrank c 0 hc.length_eq.symm
  have hindex : encode [x.shape.getD 1 0] [channelOf c] = channelOf c := by simp [encode]
  have hplace : decode [1, x.shape.getD 1 0] (channelOf c) = [0, channelOf c] := by
    simp only [decode, List.prod_cons, List.prod_nil, mul_one, Nat.div_eq_of_lt hk,
      Nat.mod_eq_of_lt hk, Nat.div_one]
  rw [broadcastOffset, kept_channelAxis_shape, hkept, hindex, offsetAt_eq_dot, ShapeInfo.dims_axes,
    ShapeInfo.map_snd_axes, hrow.shape_eq, hplace]

theorem channels_pos (hrank : 1 < x.rank) (hpos : x.Positive) : 0 < x.shape.getD 1 0 := by
  rw [List.getD_eq_getElem?_getD, List.getElem?_eq_getElem hrank, Option.getD_some]
  exact hpos _ (List.getElem_mem hrank)

/-- A buffer holds the elements of an array, each combined with the entry for its channel, in the
cells of the array, and is unchanged elsewhere. -/
structure CombinesChannels {T : Type} (op : T → T → T) (array row : NDArray T)
    (before after : Int → T) : Prop where
  value : ∀ c, InBox array.shapeInfo.shape c →
    after (dot c array.shapeInfo.stride) = op (array.element c) (row.element [0, channelOf c])
  frame : ∀ cell, (∀ c, InBox array.shapeInfo.shape c → cell ≠ dot c array.shapeInfo.stride) →
    after cell = before cell

/-- The elements of another array with the same cells. -/
theorem CombinesChannels.element_of_cells {T : Type} {op : T → T → T} {array row : NDArray T}
    {before after : Int → T} (h : CombinesChannels op array row before after) {z : ShapeInfo}
    (hshape : z.shape = array.shapeInfo.shape) (hcells : ∀ c, InBox array.shapeInfo.shape c →
      dot c z.stride = dot c array.shapeInfo.stride) (hc : InBox array.shapeInfo.shape c) :
    (NDArray.mk z after).element c = op (array.element c) (row.element [0, channelOf c]) := by
  have hcell : (NDArray.mk z after).element c = after (dot c z.stride) :=
    element_eq (hshape.symm ▸ hc)
  rw [hcell, hcells c hc, h.value c hc]

end Rows

/-! ## What the routines leave -/

section Results

variable {T : Type} {run : Runtime T} {array row target : NDArray T}

/-- The work along the second axis combines the row with the channels, in the cells of the array. -/
theorem applyBroadcast_channels (hrank : 1 < array.shapeInfo.rank)
    (hmax : array.shapeInfo.rank ≤ maxDimension) (hpos : array.shapeInfo.Positive)
    (hews : array.shapeInfo.HonestEws) (hcells : CellsApart array.shapeInfo)
    (hrow : ChannelRow row.shapeInfo (array.shapeInfo.shape.getD 1 0)) :
    ∃ work, applyBroadcast array.shapeInfo (channelAxis hrank) row.shapeInfo = .ok (some work) ∧
      ∀ (op : T → T → T) (inPlace : Bool) (before : Int → T),
        (inPlace = true → before = array.buffer) →
        CombinesChannels op array row before
          (runBroadcast op inPlace array.buffer row.buffer (run.schedule work) before) := by
  obtain ⟨work, hwork, hwrites⟩ := @applyBroadcast_line array.shapeInfo row.shapeInfo
    (channelAxis hrank) rfl hrank hmax hpos hews hcells
    (hrow.positive (channels_pos hrank hpos)) hrow.isLine hrow.honest
    (by rw [kept_channelAxis_shape, hrow.length_eq])
  refine ⟨work, hwork, fun op inPlace before hplace => ?_⟩
  obtain ⟨hvalue, hframe⟩ :=
    hwrites T op inPlace _ (run.schedule_perm work) array.buffer row.buffer before hplace
  refine ⟨fun c hc => ?_, hframe⟩
  have hentry : row.element [0, channelOf c] =
      row.buffer (dot [0, channelOf c] row.shapeInfo.stride) :=
    element_eq (hrow.inBox (channelOf_lt hc hrank))
  rw [hvalue c hc, broadcastOffset_channels hrank hrow hc, element_eq hc, hentry]

/-- A broadcast along the second axis into another array. -/
theorem broadcastChannelsTo_spec (op : T → T → T) (run : Runtime T) (target : NDArray T)
    (hrank : 1 < array.shapeInfo.rank) (hmax : array.shapeInfo.rank ≤ maxDimension)
    (hpos : array.shapeInfo.Positive) (hews : array.shapeInfo.HonestEws)
    (hcells : CellsApart array.shapeInfo)
    (hrow : ChannelRow row.shapeInfo (array.shapeInfo.shape.getD 1 0)) :
    ∃ buffer, array.broadcastChannelsTo op run row target = .ok ⟨target.shapeInfo, buffer⟩ ∧
      CombinesChannels op array row target.buffer buffer := by
  obtain ⟨work, hwork, hcombines⟩ := applyBroadcast_channels hrank hmax hpos hews hcells hrow
  refine ⟨_, ?_, hcombines op false target.buffer fun hplace => absurd hplace Bool.false_ne_true⟩
  rw [NDArray.broadcastChannelsTo, dif_pos hrank, hwork]

/-- A broadcast along the second axis into the array itself. -/
theorem broadcastChannels_spec (op : T → T → T) (run : Runtime T)
    (hrank : 1 < array.shapeInfo.rank) (hmax : array.shapeInfo.rank ≤ maxDimension)
    (hpos : array.shapeInfo.Positive) (hews : array.shapeInfo.HonestEws)
    (hcells : CellsApart array.shapeInfo)
    (hrow : ChannelRow row.shapeInfo (array.shapeInfo.shape.getD 1 0)) :
    ∃ buffer, array.broadcastChannels op run row = .ok ⟨array.shapeInfo, buffer⟩ ∧
      CombinesChannels op array row array.buffer buffer := by
  obtain ⟨work, hwork, hcombines⟩ := applyBroadcast_channels hrank hmax hpos hews hcells hrow
  refine ⟨_, ?_, hcombines op true array.buffer fun _ => rfl⟩
  rw [NDArray.broadcastChannels, dif_pos hrank, NDArray.broadcastAlong, hwork]

/-- The routine for row vectors with an operation of a given number. -/
theorem rowVectorTo_spec [Field T] {opNum : Nat} {message : String} {op : T → T → T}
    (hop : broadcastOp opNum = some op) {M N : Nat} (hshape : array.shapeInfo.shape = [M, N])
    (hM : 0 < M) (hN : 2 ≤ N) (hews : array.shapeInfo.HonestEws)
    (hcells : CellsApart array.shapeInfo) (htarget : target.shapeInfo.shape = [M, N])
    (hrow : ChannelRow row.shapeInfo N) :
    ∃ buffer, array.rowVectorTo (rowVector opNum message) run row target =
        .ok ⟨target.shapeInfo, buffer⟩ ∧ CombinesChannels op array row target.buffer buffer := by
  obtain ⟨work, hwork, hcombines⟩ := rowVector_spec opNum message hshape hM hN hews hcells htarget
    hrow.shape_eq hrow.honest
  refine ⟨_, by rw [NDArray.rowVectorTo, hwork]; simp only [hop]; rfl, ?_⟩
  obtain ⟨hvalue, hframe⟩ := hcombines false T op (run.schedule work) (run.schedule_perm work)
    array.buffer row.buffer target.buffer fun hplace => absurd hplace Bool.false_ne_true
  constructor
  · intro c hc
    obtain ⟨r, hr, k, hk, rfl⟩ := exists_pair (hshape ▸ hc)
    have hentry : row.element [0, k] = row.buffer (dot [0, k] row.shapeInfo.stride) :=
      element_eq (hrow.inBox hk)
    rw [hvalue r hr k hk, element_eq hc]
    exact congrArg (op _) hentry.symm
  · intro cell hcell
    refine hframe cell fun r hr c hc => hcell [r, c] ?_
    rw [hshape]
    exact inBox_pair.mpr ⟨hr, hc⟩

/-- A row of one entry is not taken for a row vector. -/
theorem rowVectorTo_of_one [Field T] (opNum : Nat) (message : String)
    (hrow : ChannelRow row.shapeInfo 1) :
    array.rowVectorTo (rowVector opNum message) run row target = .error (.thrown message) := by
  have hnot : ¬ isRowVectorArray row.shapeInfo = true := fun hvector =>
    (isRowVectorArray_row hrow.shape_eq).mp hvector rfl
  have hrefused : rowVector opNum message array.shapeInfo row.shapeInfo target.shapeInfo =
      .error message := by
    rw [rowVector, dif_pos]
    exact Or.inr (Or.inr (Or.inr (Or.inr (Or.inl hnot))))
  rw [NDArray.rowVectorTo, hrefused]

end Results

end Arrays
end LibND4J
