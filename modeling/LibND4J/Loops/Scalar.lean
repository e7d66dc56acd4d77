import LibND4J.Arrays.Concat

/-!
# Scalar operations in place

`ScalarTransform::transform` applies an operation to every element of an array.  With a
positive element-wise stride it walks by it; otherwise it runs through the array with the counter
of a raw iteration.

Main results:

- Theorem `scalarCells_perm`: both loops visit the cells of the array, each once.
- Theorem `assign_fills`: assigning a value fills the array and nothing else.
-/

namespace LibND4J
namespace Loops

open Shape Stores Strided

/-- The cells that the loop visits, from the start of the array. -/
def scalarCells (info : ShapeInfo) : Option (List Int) :=
  if info.elementWiseStride < 1 then
    let (axes, data) := Arrays.prepareTwoRawArrayIter (Arrays.operandAxes info info) (0, 0)
    (odometer info.length axes data).map fun visits => visits.map fun visit => visit.2.2
  else
    some ((List.range info.length).map fun i : Nat => i * info.elementWiseStride)

section Scalar

variable {T : Type} {info : ShapeInfo}

/-- A scalar operation whose result is the array itself. -/
def execScalar (op : T → T) (info : ShapeInfo) (memory : Int → T) : Option (Int → T) :=
  (scalarCells info).map fun cells => storeAll id (fun c m => op (m c)) cells memory

/-- `NDArray::assign` of a value. -/
def assign (value : T) (info : ShapeInfo) (memory : Int → T) : Option (Int → T) :=
  execScalar (fun _ => value) info memory

/-- Both loops visit the cells of the array. -/
theorem scalarCells_perm (hpos : info.Positive) (hews : info.HonestEws) :
    ∃ cells, scalarCells info = some cells ∧
      cells.Perm ((List.range info.length).map (offsetAt info.axes)) := by
  by_cases hslot : info.elementWiseStride < 1
  · have hdims : dims (Arrays.operandAxes info info) = info.shape :=
      (Arrays.dims_zipWith rfl).trans info.dims_axes
    have haxes : ∀ a ∈ Arrays.operandAxes info info, 0 < a.1 :=
      fun a ha => hpos a.1 (hdims ▸ List.mem_map_of_mem ha)
    have hvolume : volume (Arrays.operandAxes info info) = info.length :=
      congrArg List.prod hdims
    have hoffset : ∀ k, offsetAt (Arrays.operandAxes info info) k =
        (offsetAt info.axes k, offsetAt info.axes k) := by
      intro k
      rw [offsetAt_eq_dot, offsetAt_eq_dot, hdims, info.dims_axes]
      exact Arrays.dot_zipWith rfl _
    obtain ⟨axes', p', visits, hturn, hrun, hperm⟩ := odometer_turnAxes
      (fun s : Int × Int => s.1 < 0) haxes (0, 0) hvolume.le
    obtain ⟨moves, hmoves, hvisits⟩ := Option.map_eq_some_iff.mp hrun
    refine ⟨visits.map Prod.snd, ?_, ?_⟩
    · rw [scalarCells, if_pos hslot]
      simp only [Arrays.prepareTwoRawArrayIter, hturn]
      rw [hmoves, Option.map_some, ← hvisits, List.map_map]
      rfl
    · refine (hperm.map Prod.snd).trans (List.Perm.of_eq ?_)
      rw [hvolume, List.map_map]
      refine List.map_congr_left fun k _ => ?_
      rw [Function.comp_apply, hoffset]
      exact zero_add _
  · have hslot : 1 ≤ info.elementWiseStride := not_lt.mp hslot
    refine ⟨_, if_neg (not_lt.mpr hslot), ?_⟩
    have hcells : ((List.range info.length).map fun i : Nat => i * info.elementWiseStride) =
        (List.range info.length).map (elementOffset info.isFOrder info.axes) := by
      refine List.map_congr_left fun k hk => ?_
      exact (hews hslot k (List.mem_range.mp hk)).symm
    have hvolume : volume info.axes = info.length := info.volume_axes
    rw [hcells]
    cases info.isFOrder with
    | false =>
        refine List.Perm.of_eq (List.map_congr_left fun k hk => ?_)
        rw [elementOffset_eq_ite _ _ (hvolume ▸ List.mem_range.mp hk)]
        rfl
    | true =>
        have hperm := map_offsetAtF_perm hpos.axes (0 : Int)
        rw [hvolume] at hperm
        simp only [zero_add] at hperm
        refine (List.Perm.of_eq (List.map_congr_left fun k hk => ?_)).trans hperm
        rw [elementOffset_eq_ite _ _ (hvolume ▸ List.mem_range.mp hk)]
        rfl

/-- Values are written to cells: a cell that only one value is written to holds it, and a cell that
none is written to is unchanged. -/
structure Fills (writes : Int → T → Prop) (memory filled : Int → T) : Prop where
  frame : ∀ i, (∀ v, ¬ writes i v) → filled i = memory i
  value : ∀ i v, writes i v → (∀ u, writes i u → u = v) → filled i = v

/-- Filling and filling again. -/
theorem Fills.trans {first later : Int → T → Prop} {memory filled after : Int → T}
    (hfirst : Fills first memory filled) (hlater : Fills later filled after) :
    Fills (fun i v => first i v ∨ later i v) memory after where
  frame i h := by
    rw [hlater.frame i fun v hv => h v (Or.inr hv), hfirst.frame i fun v hv => h v (Or.inl hv)]
  value i v hv hall := by
    by_cases hlast : later i v
    · exact hlater.value i v hlast fun u hu => hall u (Or.inr hu)
    · have hnone : ∀ u, ¬ later i u := fun u hu => hlast (hall u (Or.inr hu) ▸ hu)
      rw [hlater.frame i hnone]
      exact hfirst.value i v (hv.resolve_right hlast) fun u hu => hall u (Or.inl hu)

theorem Fills.congr {writes writes' : Int → T → Prop} {memory filled : Int → T}
    (h : Fills writes memory filled) (hsame : ∀ i v, writes i v ↔ writes' i v) :
    Fills writes' memory filled where
  frame i hi := h.frame i fun v hv => hi v ((hsame i v).mp hv)
  value i v hv hall := h.value i v ((hsame i v).mpr hv) fun u hu => hall u ((hsame i u).mp hu)

/-- Steps that each fill, one after the other. -/
theorem foldlM_fills {α ε : Type} {step : (Int → T) → α → Except ε (Int → T)}
    {writes : α → Int → T → Prop} {steps : List α}
    (h : ∀ a ∈ steps, ∀ m, ∃ after, step m a = .ok after ∧ Fills (writes a) m after)
    (memory : Int → T) :
    ∃ after, steps.foldlM step memory = .ok after ∧
      Fills (fun i v => ∃ a ∈ steps, writes a i v) memory after := by
  induction steps generalizing memory with
  | nil =>
      refine ⟨memory, rfl, fun i _ => rfl, ?_⟩
      rintro i v ⟨a, ha, -⟩
      cases ha
  | cons a steps ih =>
      obtain ⟨filled, hstep, hfilled⟩ := h a List.mem_cons_self memory
      obtain ⟨after, hrun, hafter⟩ := ih (fun b hb => h b (List.mem_cons_of_mem a hb)) filled
      refine ⟨after, ?_, (hfilled.trans hafter).congr fun i v => ?_⟩
      · rw [List.foldlM_cons, hstep]
        exact hrun
      · simp only [List.mem_cons, exists_eq_or_imp]

/-- Assigning a value fills the array. -/
theorem assign_fills (hpos : info.Positive) (hews : info.HonestEws) (value : T)
    (memory : Int → T) :
    ∃ after, assign value info memory = some after ∧
      Fills (fun i v => v = value ∧ ∃ k < info.length, offsetAt info.axes k = i) memory after := by
  obtain ⟨cells, hcells, hperm⟩ := scalarCells_perm hpos hews
  have hmem : ∀ i, i ∈ cells ↔ ∃ k < info.length, offsetAt info.axes k = i := by
    intro i
    rw [hperm.mem_iff, List.mem_map]
    simp only [List.mem_range]
  refine ⟨storeAll id (fun _ _ => value) cells memory, ?_, fun i hi => ?_, fun i v hv _ => ?_⟩
  · rw [assign, execScalar, hcells]
    rfl
  · refine storeAll_of_not_written (fun c hc heq => hi value ⟨rfl, ?_⟩) memory
    exact (hmem i).mp (heq ▸ hc)
  · obtain ⟨rfl, hcell⟩ := hv
    exact storeAll_of_agree ⟨i, (hmem i).mpr hcell, rfl⟩ (fun _ _ _ _ => rfl) memory

end Scalar

end Loops
end LibND4J
