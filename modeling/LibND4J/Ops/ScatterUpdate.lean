import LibND4J.Arrays.MultipleTensors

/-!
# Scatter updates

`scatter_update` combines sub-arrays of its operand with those of another array, one index
after the other.  An index that is repeated takes several updates in turn.  The operand is changed
itself, whatever the output is.

Main results:

- Theorem `scatterUpdate_eq`: the loop over the views.
- Theorem `appliesUpdates_of_right`: views at the sub-arrays take the updates in order.
- Theorem `appliesUpdates_iff`: for which layouts the output holds the updates.
- Theorem `not_appliesUpdates_always`: an output that is not the operand.
-/

namespace LibND4J
namespace Ops

open Strided Shape Arrays Loops Stores

/-! ## The operation -/

section Operation

variable {T : Type} [Add T] [Sub T] [Mul T] [Div T]

/-- The update operations. -/
def updateOp : Int → Option (T → T → T)
  | 0 => some fun d1 d2 => d1 + d2
  | 1 => some fun d1 d2 => d1 - d2
  | 2 => some fun d1 d2 => d1 * d2
  | 3 => some fun d1 d2 => d1 / d2
  | 4 => some fun d1 d2 => d2 - d1
  | 5 => some fun d1 d2 => d2 / d1
  | 6 => some fun _ d2 => d2
  | _ => none

/-- The code of the operation, the dimensions and the indices.  The count of the indices is skipped;
`at` throws past the end of the arguments. -/
def scatterArguments (iArguments : List Int) : Except Failure (Int × List Int × List Int) :=
  match iArguments with
  | opCode :: dimSize :: _ =>
      let limg := ((2 + dimSize) % 2 ^ 64).toNat
      if limg > iArguments.length then
        .error (.thrown "vector::at")
      else
        let tadDimension := (iArguments.take limg).drop 2
        let e := max 2 limg + 1
        .ok (opCode, tadDimension, iArguments.drop e)
  | _ => .error (.thrown "vector::at")

/-- One turn of the loop; a view is its shape information and where it starts. -/
def updateTensor (run : Runtime T) (opCode : Int) (source buffer : Int → T)
    (tads : (ShapeInfo × Int) × (ShapeInfo × Int)) : Except Failure (Int → T) :=
  let (tad, tadUpdates) := tads
  if tad.1.length ≠ tadUpdates.1.length then
    .ok buffer
  else
    match updateOp opCode with
    | some op => pairwiseInto op run tad.1 tad.2 tadUpdates.1 tadUpdates.2 source buffer
    | none => .ok buffer

/-- The arrays that the operation leaves. -/
structure ScatterResult (T : Type) where
  operand : NDArray T
  updates : NDArray T
  z : NDArray T

/-- `scatter_update`.  There is an `output` unless `getZ` returns the operand, in place or from the
node. -/
def scatterUpdate (run : Runtime T) (iArguments : List Int) (operand updates : NDArray T)
    (output : Option (NDArray T)) : Except Failure (ScatterResult T) := do
  let (opCode, tadDimension, indices) ← scatterArguments iArguments
  let indicesU := (List.range indices.length).map fun (cnt : Nat) => (cnt : Int)
  let tadsOperand ← multipleTensorsAlongDimension operand.shapeInfo indices tadDimension
  let tadsUpdate ← multipleTensorsAlongDimension updates.shapeInfo indicesU tadDimension
  let buffer ← (tadsOperand.zip tadsUpdate).foldlM (updateTensor run opCode updates.buffer)
    operand.buffer
  let operand := NDArray.mk operand.shapeInfo buffer
  return ⟨operand, updates, output.getD operand⟩

end Operation

/-! ## What it is for -/

/-- The arguments for an operation, its dimensions and its indices. -/
def packed (opCode : Int) (axes : List Int) (indices : List Nat) : List Int :=
  opCode :: (axes.length : Int) :: (axes ++ (indices.length : Int) :: indices.map Nat.cast)

section Updates

variable {T : Type}

/-- The elements of the sub-arrays. -/
def elementsOf (a : SubArrays) (array : NDArray T) (t k : Nat) : T :=
  array.element (a.coordinate t k)

/-- One index after the other, the sub-array with the index is combined with the next one of the
updates. -/
def updated (op : T → T → T) (updates : Nat → Nat → T) (indices : List Nat)
    (operand : Nat → Nat → T) : Nat → Nat → T :=
  storeAll Prod.fst (fun p parts k => op (parts p.1 k) (updates p.2 k)) indices.zipIdx operand

theorem elementsOf_eq (a : SubArrays) (buffer : Int → T) {t k : Nat} (ht : t < a.count)
    (hk : k < a.length) : elementsOf a ⟨a.shapeInfo, buffer⟩ t k = buffer (a.cell t k) :=
  element_eq (a.inBox_coordinate ht hk)

end Updates

/-- For all indices and all contents of the arrays, the output holds the operand after the
updates. -/
def AppliesUpdates {T : Type} [Add T] [Sub T] [Mul T] [Div T] (run : Runtime T) (opCode : Int)
    (op : T → T → T) (axes : List Int) (operand updates : SubArrays)
    (output : Option ShapeInfo) : Prop :=
  ∀ indices : List Nat, (∀ i ∈ indices, i < operand.count) → indices.length ≤ updates.count →
    ∀ x y z : Int → T, ∃ out,
      scatterUpdate run (packed opCode axes indices) ⟨operand.shapeInfo, x⟩ ⟨updates.shapeInfo, y⟩
        (output.map fun info => ⟨info, z⟩) = .ok out ∧
      ∀ t < operand.count, ∀ k < operand.length, elementsOf operand out.z t k =
        updated op (elementsOf updates ⟨updates.shapeInfo, y⟩) indices
          (elementsOf operand ⟨operand.shapeInfo, x⟩) t k

/-- Sub-arrays of one length along the same axes. -/
structure ScatterLayouts (axes : List Int) (operand updates : SubArrays) : Prop where
  operand_axes : sortedDimensions operand.shapeInfo.rank axes = some operand.dimension
  updates_axes : sortedDimensions updates.shapeInfo.rank axes = some updates.dimension
  length_eq : updates.length = operand.length

/-! ## The loop -/

section Loop

variable {T : Type} [Add T] [Sub T] [Mul T] [Div T] {run : Runtime T} {opCode : Int}
  {op : T → T → T} {axes : List Int} {operand updates : SubArrays} {ret retU : ShapeInfo}

theorem length_sortedDimensions {rank : Nat} {axes : List Int} {dimension : Dimensions rank}
    (h : sortedDimensions rank axes = some dimension) : axes.length ≤ rank := by
  unfold sortedDimensions at h
  split at h
  · rename_i hvalid
    have hrange : axes.map Int.toNat ⊆ List.range rank := by
      intro d hd
      obtain ⟨e, he, rfl⟩ := List.mem_map.mp hd
      have hbounds := hvalid.2.2 e he
      rw [List.mem_range]
      omega
    have hlength := (hvalid.2.1.subperm hrange).length_le
    rwa [List.length_map, List.length_range] at hlength
  · cases h

/-- The cursor finds the dimensions and the indices. -/
theorem scatterArguments_packed (hlength : axes.length ≤ maxDimension) (indices : List Nat) :
    scatterArguments (packed opCode axes indices) =
      .ok (opCode, axes, indices.map Nat.cast) := by
  have hlimg : ((2 + (axes.length : Int)) % 2 ^ 64).toNat = axes.length + 2 := by
    rw [maxDimension] at hlength
    omega
  have hshort : ¬ axes.length + 2 > (packed opCode axes indices).length := by
    simp [packed]
  rw [scatterArguments.eq_def]
  unfold packed at hshort ⊢
  simp only [hlimg]
  rw [if_neg hshort]
  simp

/-- The loop runs over the views at the indices and the first views of the updates. -/
theorem scatterUpdate_eq (h : ScatterLayouts axes operand updates)
    (hret : operand.tad.shapeInfoOnlyShapeAndStride = some ret)
    (hretU : updates.tad.shapeInfoOnlyShapeAndStride = some retU) {indices : List Nat}
    (hindices : ∀ i ∈ indices, i < operand.count) (hcount : indices.length ≤ updates.count)
    (x y : Int → T) (output : Option (NDArray T)) :
    scatterUpdate run (packed opCode axes indices) ⟨operand.shapeInfo, x⟩ ⟨updates.shapeInfo, y⟩
        output =
      (indices.zipIdx.foldlM (fun buffer p => updateTensor run opCode y buffer
        ((ret, operand.tad.tadOffset p.1), (retU, updates.tad.tadOffset p.2))) x).map
        fun buffer => ⟨⟨operand.shapeInfo, buffer⟩, ⟨updates.shapeInfo, y⟩,
          output.getD ⟨operand.shapeInfo, buffer⟩⟩ := by
  have hlength := (length_sortedDimensions h.operand_axes).trans operand.rank_le
  have hviews := multipleTensorsAlongDimension_eq h.operand_axes hret hindices
  have hrange : ∀ i ∈ List.range indices.length, i < updates.count := fun i hi =>
    (List.mem_range.mp hi).trans_le hcount
  have hviewsU := multipleTensorsAlongDimension_eq h.updates_axes hretU hrange
  have hzip : (indices.map fun i => (ret, operand.tad.tadOffset i)).zip
      ((List.range indices.length).map fun i => (retU, updates.tad.tadOffset i)) =
      indices.zipIdx.map fun p => ((ret, operand.tad.tadOffset p.1),
        (retU, updates.tad.tadOffset p.2)) := by
    rw [List.zip_map, List.zipIdx_eq_zip_range', List.range_eq_range']
    rfl
  unfold scatterUpdate
  rw [scatterArguments_packed hlength]
  simp only [bind, Except.bind, List.length_map, hviews, hviewsU, hzip]
  rw [List.foldlM_map]
  cases indices.zipIdx.foldlM (fun buffer p => updateTensor run opCode y buffer
    ((ret, operand.tad.tadOffset p.1), (retU, updates.tad.tadOffset p.2))) x with
  | error e => rfl
  | ok buffer => rfl

/-- One turn combines two views, wherever they start. -/
theorem updateTensor_spec (hop : updateOp opCode = some op)
    (hlength : updates.length = operand.length) (hrank : 2 ≤ ret.rank)
    (hmoves : MovesAlong ret operand.tad.kept) (hews : ret.HonestEws)
    (hmovesU : MovesAlong retU updates.tad.kept) (hewsU : retU.HonestEws)
    (hspan : SpanFits run.settings operand.length) (dx dy : Int) (y buffer : Int → T) :
    ∃ buffer', updateTensor run opCode y buffer ((ret, dx), (retU, dy)) = .ok buffer' ∧
      (∀ k < operand.length, buffer' (dx + offsetAt operand.tad.kept k) =
        op (buffer (dx + offsetAt operand.tad.kept k)) (y (dy + offsetAt updates.tad.kept k))) ∧
      ∀ i, (∀ k < operand.length, i ≠ dx + offsetAt operand.tad.kept k) →
        buffer' i = buffer i := by
  have hvolume : volume updates.tad.kept = volume operand.tad.kept := by
    rw [updates.volume_kept, operand.volume_kept, hlength]
  have hsame : ret.length = retU.length := by
    rw [← ret.volume_axes, hmoves.volume_eq, ← retU.volume_axes, hmovesU.volume_eq, hvolume]
  have hcombine := pairwiseInto_tensors op run dx dy hmoves hmovesU hews hewsU hrank hvolume
    (operand.volume_kept.symm ▸ operand.length_pos)
    (fun k hk k' hk' => operand.offsetAt_inj (operand.volume_kept ▸ hk) (operand.volume_kept ▸ hk'))
    (operand.volume_kept.symm ▸ hspan) y buffer
  rw [operand.volume_kept] at hcombine
  obtain ⟨buffer', hrun, hrest⟩ := hcombine
  refine ⟨buffer', ?_, hrest⟩
  unfold updateTensor
  simp only [if_neg (not_not.mpr hsame), hop]
  exact hrun

end Loop

/-! ## Views at the sub-arrays -/

section Right

variable {T : Type} [Add T] [Sub T] [Mul T] [Div T] {run : Runtime T} {opCode : Int}
  {op : T → T → T} {axes : List Int} {operand updates : SubArrays}

/-- Views at the sub-arrays take the updates in order. -/
theorem appliesUpdates_of_right (h : ScatterLayouts axes operand updates)
    (hop : updateOp opCode = some op) (hspan : SpanFits run.settings operand.length)
    (hoperand : TensorsRight operand) (hupdates : TensorsRight updates) :
    AppliesUpdates run opCode op axes operand updates none := by
  intro indices hindices hcount x y z
  obtain ⟨hlast, hstarts⟩ := (tensorsRight_iff operand).mp hoperand
  obtain ⟨hlastU, hstartsU⟩ := (tensorsRight_iff updates).mp hupdates
  obtain ⟨ret, hret, hrank, hews, -, hmoves, -⟩ := exists_tensor operand
  obtain ⟨retU, hretU, -, hewsU, -, hmovesU, -⟩ := exists_tensor updates
  -- the buffer holds the sub-arrays as they should be by now
  set R : (Int → T) → (Nat → Nat → T) → Prop := fun buffer parts =>
    ∀ t < operand.count, ∀ k < operand.length, buffer (operand.cell t k) = parts t k with hR
  have hstep : ∀ p ∈ indices.zipIdx, ∀ buffer parts, R buffer parts → ∃ buffer',
      updateTensor run opCode y buffer ((ret, operand.tad.tadOffset p.1),
        (retU, updates.tad.tadOffset p.2)) = .ok buffer' ∧
      R buffer' (Function.update parts p.1 fun k =>
        op (parts p.1 k) (elementsOf updates ⟨updates.shapeInfo, y⟩ p.2 k)) := by
    rintro ⟨i, j⟩ hp buffer parts hholds
    have hi : i < operand.count := hindices i (List.fst_mem_of_mem_zipIdx hp)
    have hj : j < updates.count := by
      have hlt := List.snd_lt_of_mem_zipIdx hp
      omega
    obtain ⟨buffer', hrun, hvalue, hframe⟩ := updateTensor_spec hop h.length_eq hrank
      (hmoves hlast) hews (hmovesU hlastU) hewsU hspan (operand.tad.tadOffset i)
      (updates.tad.tadOffset j) y buffer
    rw [hstarts i hi] at hvalue hframe
    rw [hstartsU j hj] at hvalue
    refine ⟨buffer', hrun, fun t ht k hk => ?_⟩
    by_cases hsame : t = i
    · subst hsame
      have hk' := hvalue k hk
      rw [← operand.cell_eq ht hk, ← updates.cell_eq hj (h.length_eq ▸ hk)] at hk'
      rw [Function.update_self, elementsOf_eq updates y hj (h.length_eq ▸ hk), ← hholds t ht k hk]
      exact hk'
    · rw [Function.update_of_ne hsame, ← hholds t ht k hk]
      refine hframe _ fun k' hk' heq => hsame ?_
      rw [← operand.cell_eq hi hk'] at heq
      exact (operand.cell_inj ht hk hi hk' heq).1
  obtain ⟨buffer', hrun, hholds⟩ := Runs.foldlM_simulates hstep
    (t := elementsOf operand ⟨operand.shapeInfo, x⟩)
    (fun t ht k hk => (elementsOf_eq operand x ht hk).symm)
  refine ⟨_, by rw [scatterUpdate_eq h hret hretU hindices hcount, hrun]; rfl, fun t ht k hk => ?_⟩
  exact (elementsOf_eq operand buffer' ht hk).trans (hholds t ht k hk)

end Right

/-! ## Other views -/

/-- Some value keeps another one, and some value does not. -/
structure Observes {T : Type} (op : T → T → T) (e u₀ u₁ : T) : Prop where
  keeps : op e u₀ = e
  changes : op e u₁ ≠ e

theorem exists_observes {T : Type} [Field T] [CharZero T] {opCode : Int} {op : T → T → T}
    (hop : updateOp opCode = some op) : ∃ e u₀ u₁, Observes op e u₀ u₁ := by
  unfold updateOp at hop
  split at hop
  · cases hop
    exact ⟨0, 0, 1, add_zero 0, by simp⟩
  · cases hop
    exact ⟨0, 0, 1, sub_zero 0, by simp⟩
  · cases hop
    exact ⟨1, 1, 2, mul_one 1, by simp⟩
  · cases hop
    exact ⟨1, 1, 2, div_one 1, by simp⟩
  · cases hop
    exact ⟨0, 0, 1, sub_zero 0, by simp⟩
  · cases hop
    exact ⟨1, 1, 2, div_one 1, by simp⟩
  · cases hop
    exact ⟨0, 0, 1, rfl, one_ne_zero⟩
  · cases hop

/-- Where all updates but the last keep the value, the last one decides. -/
theorem updated_of_keeps {T : Type} {op : T → T → T} {e u₀ u₁ : T}
    (hobserves : Observes op e u₀ u₁) {parts : Nat → Nat → T} {indices : List Nat} {i k : Nat}
    (hkeeps : ∀ x < indices.length, parts x k = u₀) :
    updated op parts (indices ++ [i]) (fun _ _ => e) i k = op e (parts indices.length k) := by
  have hbefore : storeAll Prod.fst (fun (p : Nat × Nat) (m : Nat → Nat → T) k =>
      op (m p.1 k) (parts p.2 k)) indices.zipIdx (fun _ _ => e) i k = e := by
    refine storeAll_keeps (P := fun m : Nat → Nat → T => ∀ t, m t k = e)
      (fun p hp m hm t => ?_) (fun _ => rfl) i
    by_cases hsame : t = p.1
    · subst hsame
      rw [Function.update_self, hm, hkeeps p.2 (by simpa using List.snd_lt_of_mem_zipIdx hp)]
      exact hobserves.keeps
    · rw [Function.update_of_ne hsame, hm]
  rw [updated, List.zipIdx_append, storeAll_append]
  simp only [List.zipIdx_cons, List.zipIdx_nil, storeAll_cons, storeAll_nil, Function.update_self,
    zero_add]
  rw [hbefore]

section Wrong

variable {T : Type} [Add T] [Sub T] [Mul T] [Div T] {run : Runtime T} {opCode : Int}
  {op : T → T → T} {axes : List Int} {operand updates : SubArrays} {output : Option ShapeInfo}
  {e u₀ u₁ : T}

/-- An output that is not the operand is not written. -/
theorem not_appliesUpdates_of_output (h : ScatterLayouts axes operand updates)
    (hobserves : Observes op e u₀ u₁) {info : ShapeInfo} :
    ¬ AppliesUpdates run opCode op axes operand updates (some info) := by
  intro happlies
  obtain ⟨ret, hret, -⟩ := exists_tensor operand
  obtain ⟨retU, hretU, -⟩ := exists_tensor updates
  obtain ⟨out, hrun, hvalue⟩ := happlies [] (fun i hi => absurd hi List.not_mem_nil) (Nat.zero_le _)
    (fun _ => op e u₁) (fun _ => e) (fun _ => e)
  rw [scatterUpdate_eq h hret hretU (fun i hi => absurd hi List.not_mem_nil)
    (Nat.zero_le _)] at hrun
  cases hrun
  have hzero := hvalue 0 operand.count_pos 0 operand.length_pos
  exact hobserves.changes hzero.symm

variable {ret retU : ShapeInfo}

/-- What the loop leaves holds the updates. -/
theorem exists_buffer (h : ScatterLayouts axes operand updates)
    (hret : operand.tad.shapeInfoOnlyShapeAndStride = some ret)
    (hretU : updates.tad.shapeInfoOnlyShapeAndStride = some retU)
    (happlies : AppliesUpdates run opCode op axes operand updates none) {indices : List Nat}
    (hindices : ∀ i ∈ indices, i < operand.count) (hcount : indices.length ≤ updates.count)
    (x y : Int → T) :
    ∃ buffer, indices.zipIdx.foldlM (fun buffer p => updateTensor run opCode y buffer
        ((ret, operand.tad.tadOffset p.1), (retU, updates.tad.tadOffset p.2))) x = .ok buffer ∧
      ∀ t < operand.count, ∀ k < operand.length, buffer (operand.cell t k) =
        updated op (elementsOf updates ⟨updates.shapeInfo, y⟩) indices
          (elementsOf operand ⟨operand.shapeInfo, x⟩) t k := by
  obtain ⟨out, hrun, hvalue⟩ := happlies indices hindices hcount x y x
  rw [scatterUpdate_eq h hret hretU hindices hcount] at hrun
  cases hloop : indices.zipIdx.foldlM (fun buffer p => updateTensor run opCode y buffer
      ((ret, operand.tad.tadOffset p.1), (retU, updates.tad.tadOffset p.2))) x with
  | error f =>
      rw [hloop] at hrun
      cases hrun
  | ok buffer =>
      rw [hloop] at hrun
      cases hrun
      exact ⟨buffer, rfl, fun t ht k hk =>
        (elementsOf_eq operand buffer ht hk).symm.trans (hvalue t ht k hk)⟩

/-- With one index, every element of its sub-array takes the update. -/
theorem exists_first (h : ScatterLayouts axes operand updates)
    (hret : operand.tad.shapeInfoOnlyShapeAndStride = some ret)
    (hretU : updates.tad.shapeInfoOnlyShapeAndStride = some retU)
    (happlies : AppliesUpdates run opCode op axes operand updates none) {i : Nat}
    (hi : i < operand.count) (y : Int → T) :
    ∃ buffer, updateTensor run opCode y (fun _ => e) ((ret, operand.tad.tadOffset i),
        (retU, updates.tad.tadOffset 0)) = .ok buffer ∧
      ∀ k < operand.length, buffer (operand.cell i k) = op e (y (updates.cell 0 k)) := by
  obtain ⟨buffer, hrun, hvalue⟩ := exists_buffer h hret hretU happlies
    (show ∀ j ∈ [i], j < operand.count from fun j hj => List.mem_singleton.mp hj ▸ hi)
    updates.count_pos (fun _ => e) y
  rw [List.zipIdx_singleton, List.foldlM_cons] at hrun
  obtain ⟨buffer', hstep, hrest⟩ : ∃ buffer', updateTensor run opCode y (fun _ => e)
      ((ret, operand.tad.tadOffset i), (retU, updates.tad.tadOffset 0)) = .ok buffer' ∧
        buffer' = buffer := by
    cases hstep : updateTensor run opCode y (fun _ => e)
        ((ret, operand.tad.tadOffset i), (retU, updates.tad.tadOffset 0)) with
    | error f =>
        simp only [hstep] at hrun
        cases hrun
    | ok buffer' =>
        simp only [hstep] at hrun
        cases hrun
        exact ⟨_, rfl, rfl⟩
  subst hrest
  refine ⟨buffer', hstep, fun k hk => (hvalue i hi k hk).trans ?_⟩
  rw [updated, List.zipIdx_singleton, storeAll_cons, storeAll_nil, Function.update_self,
    elementsOf_eq updates y updates.count_pos (h.length_eq ▸ hk)]
  rfl

/-- A view without the last axis leaves elements out. -/
theorem keepsLast_of_applies (h : ScatterLayouts axes operand updates)
    (hop : updateOp opCode = some op) (hspan : ∀ n ≤ operand.length, SpanFits run.settings n)
    (hobserves : Observes op e u₀ u₁)
    (happlies : AppliesUpdates run opCode op axes operand updates none) : KeepsLast operand := by
  by_contra hnot
  obtain ⟨ret, hret, hrank, hews, hpos, -, hshort⟩ := exists_tensor operand
  obtain ⟨retU, hretU, -, hewsU, hposU, -⟩ := exists_tensor updates
  have hless := hshort hnot
  obtain ⟨buffer, hrun, hvalue⟩ := exists_first (e := e) h hret hretU happlies operand.count_pos
    (fun _ => u₁)
  unfold updateTensor at hrun
  simp only [hop] at hrun
  split at hrun
  · cases hrun
    exact hobserves.changes (hvalue 0 operand.length_pos).symm
  · obtain ⟨cells, hframe⟩ := pairwiseInto_frame hpos hews hposU hewsU hrank (hspan _ hless.le) hrun
    -- every element of the first sub-array is among the cells that are written
    have hwritten : ∀ k < operand.length, ∃ j < ret.length, operand.cell 0 k = cells j := by
      intro k hk
      by_contra hnone
      have hkept := hframe (operand.cell 0 k) fun j hj heq => hnone ⟨j, hj, heq⟩
      exact hobserves.changes ((hvalue k hk).symm.trans hkept)
    have hsubset : (Finset.range operand.length).image (operand.cell 0) ⊆
        (Finset.range ret.length).image cells := by
      intro cell hcell
      obtain ⟨k, hk, rfl⟩ := Finset.mem_image.mp hcell
      obtain ⟨j, hj, heq⟩ := hwritten k (Finset.mem_range.mp hk)
      exact Finset.mem_image.mpr ⟨j, Finset.mem_range.mpr hj, heq.symm⟩
    have hcard := Finset.card_le_card hsubset
    rw [Finset.card_image_of_injOn fun k hk k' hk' heq => (operand.cell_inj operand.count_pos
      (Finset.mem_range.mp hk) operand.count_pos (Finset.mem_range.mp hk') heq).2,
      Finset.card_range] at hcard
    have hle := hcard.trans Finset.card_image_le
    rw [Finset.card_range] at hle
    omega

/-- Views of the updates without the last axis are left out. -/
theorem keepsLast_updates_of_applies (h : ScatterLayouts axes operand updates)
    (hobserves : Observes op e u₀ u₁) (hlast : KeepsLast operand)
    (happlies : AppliesUpdates run opCode op axes operand updates none) : KeepsLast updates := by
  by_contra hnot
  obtain ⟨ret, hret, -, -, -, hmoves, -⟩ := exists_tensor operand
  obtain ⟨retU, hretU, -, -, -, -, hshort⟩ := exists_tensor updates
  have hlength : ret.length = operand.length := by
    rw [← ret.volume_axes, (hmoves hlast).volume_eq, operand.volume_kept]
  have hless := hshort hnot
  rw [h.length_eq, ← hlength] at hless
  obtain ⟨buffer, hrun, hvalue⟩ := exists_first (e := e) h hret hretU happlies operand.count_pos
    (fun _ => u₁)
  unfold updateTensor at hrun
  simp only [if_pos hless.ne'] at hrun
  cases hrun
  exact hobserves.changes (hvalue 0 operand.length_pos).symm

/-- Contents of the updates that are observed at one element. -/
def single (updates : SubArrays) (j : Nat) (u₀ u₁ : T) (c : Int) : T :=
  if c = updates.cell j 0 then u₁ else u₀

/-- A turn that does not read the element keeps the value everywhere. -/
theorem updateTensor_keeps (hop : updateOp opCode = some op) (hobserves : Observes op e u₀ u₁)
    (hlength : updates.length = operand.length) (hrank : 2 ≤ ret.rank)
    (hmoves : MovesAlong ret operand.tad.kept) (hews : ret.HonestEws)
    (hmovesU : MovesAlong retU updates.tad.kept) (hewsU : retU.HonestEws)
    (hspan : SpanFits run.settings operand.length) (dx dy : Int) {y : Int → T}
    (hy : ∀ k < operand.length, y (dy + offsetAt updates.tad.kept k) = u₀) :
    updateTensor run opCode y (fun _ => e) ((ret, dx), (retU, dy)) = .ok fun _ => e := by
  obtain ⟨buffer', hrun, hvalue, hframe⟩ := updateTensor_spec hop hlength hrank hmoves hews hmovesU
    hewsU hspan dx dy y fun _ => e
  have hkept : buffer' = fun _ => e := by
    funext c
    by_cases hwritten : ∃ k < operand.length, c = dx + offsetAt operand.tad.kept k
    · obtain ⟨k, hk, rfl⟩ := hwritten
      rw [hvalue k hk, hy k hk]
      exact hobserves.keeps
    · exact hframe c fun k hk heq => hwritten ⟨k, hk, heq⟩
  rw [hrun, hkept]

/-- Each view of the operand starts at its sub-array. -/
theorem tadOffset_of_applies (h : ScatterLayouts axes operand updates)
    (hop : updateOp opCode = some op) (hspan : SpanFits run.settings operand.length)
    (hobserves : Observes op e u₀ u₁) (hlast : KeepsLast operand) (hlastU : KeepsLast updates)
    (happlies : AppliesUpdates run opCode op axes operand updates none) {i : Nat}
    (hi : i < operand.count) : operand.tad.tadOffset i = operand.base i := by
  by_contra hne
  obtain ⟨ret, hret, hrank, hews, -, hmoves, -⟩ := exists_tensor operand
  obtain ⟨retU, hretU, -, hewsU, -, hmovesU, -⟩ := exists_tensor updates
  set y := single updates 0 u₀ u₁ with hy
  have hread : ∀ k < operand.length, k ≠ 0 → y (updates.cell 0 k) = u₀ := by
    intro k hk hk0
    refine if_neg fun heq => hk0 ?_
    exact (updates.cell_inj updates.count_pos (h.length_eq ▸ hk) updates.count_pos
      updates.length_pos heq).2
  obtain ⟨buffer, hrun, hvalue⟩ := exists_first (e := e) h hret hretU happlies hi y
  obtain ⟨buffer', hrun', hvalue', hframe'⟩ := updateTensor_spec hop h.length_eq hrank
    (hmoves hlast) hews (hmovesU hlastU) hewsU hspan (operand.tad.tadOffset i)
    (updates.tad.tadOffset 0) y fun _ => e
  rw [hrun, Except.ok.injEq] at hrun'
  subst hrun'
  have hchanged : buffer (operand.cell i 0) = op e u₁ := by
    rw [hvalue 0 operand.length_pos]
    exact congrArg (op e) (if_pos rfl)
  by_cases hwritten : ∃ k < operand.length,
      operand.cell i 0 = operand.tad.tadOffset i + offsetAt operand.tad.kept k
  · obtain ⟨k, hk, heq⟩ := hwritten
    have hk0 : k ≠ 0 := by
      rintro rfl
      rw [offsetAt_zero, add_zero, operand.cell_zero hi] at heq
      exact hne heq.symm
    have hk' := hvalue' k hk
    rw [← heq, updates.tadOffset_first,
      ← updates.cell_eq updates.count_pos (h.length_eq ▸ hk), hread k hk hk0, hchanged] at hk'
    exact hobserves.changes (hk'.trans hobserves.keeps)
  · have hkept := hframe' (operand.cell i 0) fun k hk heq => hwritten ⟨k, hk, heq⟩
    exact hobserves.changes (hchanged.symm.trans hkept)

/-- Each view of the updates starts at its sub-array: all updates go to the first sub-array, and the
last one is observed. -/
theorem tadOffset_updates_of_applies (h : ScatterLayouts axes operand updates)
    (hop : updateOp opCode = some op) (hspan : SpanFits run.settings operand.length)
    (hobserves : Observes op e u₀ u₁) (hlast : KeepsLast operand) (hlastU : KeepsLast updates)
    (happlies : AppliesUpdates run opCode op axes operand updates none) {j : Nat}
    (hj : j < updates.count) : updates.tad.tadOffset j = updates.base j := by
  induction j using Nat.strong_induction_on with
  | _ j ih =>
  by_contra hne
  obtain ⟨ret, hret, hrank, hews, -, hmoves, -⟩ := exists_tensor operand
  obtain ⟨retU, hretU, -, hewsU, -, hmovesU, -⟩ := exists_tensor updates
  set y := single updates j u₀ u₁ with hy
  have hread : ∀ x < j, ∀ k < operand.length, y (updates.cell x k) = u₀ := by
    intro x hx k hk
    refine if_neg fun heq => hx.ne ?_
    exact (updates.cell_inj (hx.trans hj) (h.length_eq ▸ hk) hj updates.length_pos heq).1
  have hindices : ∀ i ∈ List.replicate j 0 ++ [0], i < operand.count := by
    intro i hi
    have hzero : i = 0 := by
      rcases List.mem_append.mp hi with hi | hi
      · exact List.eq_of_mem_replicate hi
      · exact List.mem_singleton.mp hi
    exact hzero ▸ operand.count_pos
  obtain ⟨buffer, hrun, hvalue⟩ := exists_buffer h hret hretU happlies hindices
    (by simpa using hj) (fun _ => e) y
  -- the first turns keep the value everywhere
  have hbefore : (List.replicate j 0).zipIdx.foldlM (fun buffer p =>
      updateTensor run opCode y buffer ((ret, operand.tad.tadOffset p.1),
        (retU, updates.tad.tadOffset p.2))) (fun _ => e) = .ok fun _ => e := by
    refine Runs.foldlM_of_fixed fun p hp => ?_
    have hx : p.2 < j := by simpa using List.snd_lt_of_mem_zipIdx hp
    refine updateTensor_keeps hop hobserves h.length_eq hrank (hmoves hlast) hews (hmovesU hlastU)
      hewsU hspan (operand.tad.tadOffset p.1) (updates.tad.tadOffset p.2) fun k hk => ?_
    rw [ih p.2 hx (hx.trans hj), ← updates.cell_eq (hx.trans hj) (h.length_eq ▸ hk)]
    exact hread p.2 hx k hk
  obtain ⟨buffer', hrun', hvalue', -⟩ := updateTensor_spec hop h.length_eq hrank (hmoves hlast) hews
    (hmovesU hlastU) hewsU hspan (operand.tad.tadOffset 0) (updates.tad.tadOffset j) y fun _ => e
  rw [List.zipIdx_append, List.foldlM_append, hbefore] at hrun
  simp only [List.length_replicate, zero_add, List.zipIdx_singleton, List.foldlM_cons,
    List.foldlM_nil, bind, Except.bind, hrun', pure, Except.pure, Except.ok.injEq] at hrun
  subst hrun
  have hkept : buffer' (operand.cell 0 0) = e := by
    have hzero := hvalue' 0 operand.length_pos
    rw [offsetAt_zero, offsetAt_zero, add_zero, add_zero, operand.tadOffset_first] at hzero
    rw [operand.cell_zero operand.count_pos]
    refine hzero.trans ((congrArg (op e) (if_neg fun heq => hne ?_)).trans hobserves.keeps)
    rw [heq, updates.cell_zero hj]
  have hkeeps : ∀ x < (List.replicate j 0).length,
      elementsOf updates ⟨updates.shapeInfo, y⟩ x 0 = u₀ := by
    intro x hx
    rw [List.length_replicate] at hx
    rw [elementsOf_eq updates y (hx.trans hj) updates.length_pos]
    exact hread x hx 0 operand.length_pos
  have hchanged := (hvalue 0 operand.count_pos 0 operand.length_pos).trans
    (updated_of_keeps hobserves hkeeps)
  rw [hkept, List.length_replicate, elementsOf_eq updates y hj updates.length_pos] at hchanged
  exact hobserves.changes ((congrArg (op e) (if_pos rfl)).symm.trans hchanged.symm)

end Wrong

/-! ## When the operation is right -/

section Iff

variable {T : Type} [Field T] [CharZero T] {run : Runtime T} {opCode : Int} {op : T → T → T}
  {axes : List Int} {operand updates : SubArrays}

/-- For which layouts the output holds the updates: it is the operand, and the views of both arrays
are their sub-arrays. -/
theorem appliesUpdates_iff (h : ScatterLayouts axes operand updates)
    (hop : updateOp opCode = some op) (hspan : ∀ n ≤ operand.length, SpanFits run.settings n)
    (output : Option ShapeInfo) :
    AppliesUpdates run opCode op axes operand updates output ↔
      output = none ∧ TensorsRight operand ∧ TensorsRight updates := by
  obtain ⟨e, u₀, u₁, hobserves⟩ := exists_observes hop
  have hlength := hspan operand.length le_rfl
  constructor
  · intro happlies
    cases output with
    | some info => exact absurd happlies (not_appliesUpdates_of_output h hobserves)
    | none =>
        have hlast := keepsLast_of_applies h hop hspan hobserves happlies
        have hlastU := keepsLast_updates_of_applies h hobserves hlast happlies
        refine ⟨rfl, (tensorsRight_iff operand).mpr ⟨hlast, fun t ht => ?_⟩,
          (tensorsRight_iff updates).mpr ⟨hlastU, fun t ht => ?_⟩⟩
        · exact tadOffset_of_applies h hop hlength hobserves hlast hlastU happlies ht
        · exact tadOffset_updates_of_applies h hop hlength hobserves hlast hlastU happlies ht
  · rintro ⟨rfl, hoperand, hupdates⟩
    exact appliesUpdates_of_right h hop hlength hoperand hupdates

end Iff

/-! ## Small arrays -/

/-- A matrix of three rows and two columns, in rows. -/
def threeByTwo : SubArrays where
  shapeInfo := newShapeInfo 'c' [3, 2]
  dimension := ⟨[1], one_ne_nil, pairwise_one, by decide⟩
  positive := by decide
  two_le_rank := by decide
  rank_le := by decide
  honest := honestEws_newShapeInfo (Or.inl rfl) (by decide)
  cellsApart := cellsApart_newShapeInfo (Or.inl rfl) (by decide)

/-- A matrix of two rows and two columns, in rows. -/
def twoByTwo : SubArrays where
  shapeInfo := newShapeInfo 'c' [2, 2]
  dimension := ⟨[1], one_ne_nil, pairwise_one, by decide⟩
  positive := by decide
  two_le_rank := by decide
  rank_le := by decide
  honest := honestEws_newShapeInfo (Or.inl rfl) (by decide)
  cellsApart := cellsApart_newShapeInfo (Or.inl rfl) (by decide)

theorem scatterLayouts_rows : ScatterLayouts [1] threeByTwo twoByTwo :=
  ⟨rfl, rfl, rfl⟩

/-- Rows are added to rows of the operand, in place. -/
theorem appliesUpdates_iff_rows :
    AppliesUpdates (oneThread fun _ => (0 : Rat)) 0 (fun d1 d2 => d1 + d2) [1] threeByTwo twoByTwo
      none :=
  (appliesUpdates_iff scatterLayouts_rows rfl (by decide) none).mpr
    ⟨rfl, ⟨fun h => absurd h (by decide), Or.inr ⟨by decide, Or.inl rfl⟩⟩,
      ⟨fun h => absurd h (by decide), Or.inr ⟨by decide, Or.inl rfl⟩⟩⟩

/-- Rows that are added to the operand do not reach an output of its own. -/
theorem not_appliesUpdates_always :
    ¬ ∀ (run : Runtime Rat) (opCode : Int) (op : Rat → Rat → Rat) (axes : List Int)
      (operand updates : SubArrays) (output : Option ShapeInfo),
      ScatterLayouts axes operand updates → updateOp opCode = some op →
      (∀ n ≤ operand.length, SpanFits run.settings n) →
      (∀ info, output = some info → info.shape = operand.shapeInfo.shape) →
      AppliesUpdates run opCode op axes operand updates output := by
  intro h
  have hobserves : Observes (fun d1 d2 : Rat => d1 + d2) 0 0 1 := ⟨add_zero 0, by norm_num⟩
  refine not_appliesUpdates_of_output scatterLayouts_rows hobserves
    (h (oneThread fun _ => 0) 0 _ [1] threeByTwo twoByTwo (some threeByTwo.shapeInfo)
      scatterLayouts_rows rfl (by decide) fun info hinfo => ?_)
  rw [← Option.some.inj hinfo]

end Ops
end LibND4J
