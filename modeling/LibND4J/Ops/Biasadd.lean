import LibND4J.Arrays.InPlace
import LibND4J.Arrays.ReshapedRows

/-!
# Bias

`biasadd` adds a row vector along the last axis.  A matrix takes the sums into itself.  Any
other array is reshaped to rows, and so is the output; the sums are stored in the rows of the output
in the cells that the rows of the input have in theirs.  Rows that had to be copied are dropped.

Main results:

- Theorem `biasadd_rows`: what an array that is not a matrix leaves.
- Theorem `addsBias_iff`: for which layouts the operation is right.
- Theorem `not_addsBias_always`: a matrix that is not processed in place.
-/

namespace LibND4J
namespace Ops

open Strided Shape Arrays Loops

/-! ## The operation -/

/-- The arrays that the operation leaves. -/
structure BiasaddResult (T : Type) where
  input : NDArray T
  bias : NDArray T
  z : NDArray T

section Operation

variable {T : Type}

/-- `biasadd`; `output` is the array of the node, which is not used in place. -/
def biasadd [Add T] (run : Runtime T) (inplace : Bool) (input bias output : NDArray T) :
    Except Failure (BiasaddResult T) :=
  if ¬ isRowVectorArray bias.shapeInfo then
    .error (.validation "Bias array should be a vector")
  else
    let z := if inplace then input else output
    if isMatrix input.shapeInfo then do
      let sum ← input.addiRowVector run bias
      return ⟨sum, bias, if inplace then sum else z⟩
    else do
      let shape := [-1, (bias.shapeInfo.length : Int)]
      let (_, tArr) ← input.reshapeOn run input.shapeInfo.order shape
      let (onBuffer, zArr) ← z.reshapeOn run z.shapeInfo.order shape
      match addRowVector tArr.shapeInfo bias.shapeInfo zArr.shapeInfo with
      | .error message => .error (.thrown message)
      | .ok (_, none) => .error .undefined
      | .ok (_, some work) =>
          -- in place both arrays are rows of one buffer, if they are views
          let sums := runBroadcast (fun d1 d2 => d1 + d2) (inplace && onBuffer) tArr.buffer
            bias.buffer (run.schedule work) zArr.buffer
          let sum := if onBuffer then ⟨z.shapeInfo, sums⟩ else z
          return ⟨if inplace then sum else input, bias, sum⟩

/-- The output holds the sums, and the inputs are unchanged unless the block is in place. -/
structure StoresBias [Add T] (inplace : Bool) (input bias : NDArray T) (lead : List Nat) (N : Nat)
    (out : BiasaddResult T) : Prop where
  sum : ∀ l, InBox lead l → ∀ c < N,
    out.z.element (l ++ [c]) = input.element (l ++ [c]) + bias.element [0, c]
  input_unchanged : inplace = false → ∀ l, InBox lead l → ∀ c < N,
    out.input.element (l ++ [c]) = input.element (l ++ [c])
  bias_unchanged : ∀ c < N, out.bias.element [0, c] = bias.element [0, c]

end Operation

/-- For all contents of its arrays the operation stores the sums. -/
def AddsBias {T : Type} [Add T] (run : Runtime T) (inplace : Bool) (input bias output : ShapeInfo)
    (lead : List Nat) (N : Nat) : Prop :=
  ∀ x y z : Int → T, ∃ out, biasadd run inplace ⟨input, x⟩ ⟨bias, y⟩ ⟨output, z⟩ = .ok out ∧
    StoresBias inplace ⟨input, x⟩ ⟨bias, y⟩ lead N out

/-- Layouts of an input, its bias and an output. -/
structure BiasLayouts (input bias output : ShapeInfo) (lead : List Nat) (N : Nat) : Prop where
  lead_ne : lead ≠ []
  lead_pos : ∀ d ∈ lead, 0 < d
  length_pos : 0 < N
  input : RowsLayout input lead N
  output : RowsLayout output lead N
  bias_shape : bias.shape = [1, N]
  bias_honest : bias.HonestEws

/-- The bias has more than one element.  In place the input is a matrix, or can be viewed as rows.
Otherwise it is no matrix, the output can be viewed as rows, and the rows of the input have their
elements in the cells where the output has its own. -/
def BiasSupported (inplace : Bool) (input output : ShapeInfo) (lead : List Nat) (N : Nat) : Prop :=
  N ≠ 1 ∧
    if inplace then isMatrix input ∨ CanBeRows input lead N
    else ¬ isMatrix input ∧ CanBeRows output lead N ∧
      ∀ l, InBox lead l → ∀ c < N, rowPlace input lead N l c = Strided.dot (l ++ [c]) output.stride

/-! ## What the operation leaves -/

section Results

variable {T : Type} [Add T] {run : Runtime T} {input bias output : ShapeInfo} {lead : List Nat}
  {N : Nat}

/-- A bias of one element is no vector. -/
theorem biasadd_of_one (h : BiasLayouts input bias output lead N) (hN : N = 1) (inplace : Bool)
    (x y z : Int → T) : biasadd run inplace ⟨input, x⟩ ⟨bias, y⟩ ⟨output, z⟩ =
      .error (.validation "Bias array should be a vector") := by
  have hvector : ¬ isRowVectorArray bias := fun hrow =>
    (isRowVectorArray_row h.bias_shape).mp hrow hN
  rw [biasadd, if_pos hvector]

theorem isMatrix_iff (h : RowsLayout input lead N) (hlead : lead ≠ []) :
    isMatrix input ↔ ∃ M, lead = [M] ∧ M ≠ 1 ∧ N ≠ 1 := by
  rcases lead with - | ⟨M, - | ⟨M', rest⟩⟩
  · exact absurd rfl hlead
  · simp [isMatrix, ShapeInfo.rank, h.shape_eq]
  · simp [isMatrix, ShapeInfo.rank, h.shape_eq]

/-- A matrix takes the sums into itself. -/
theorem biasadd_matrix (h : BiasLayouts input bias output lead N) (hmatrix : isMatrix input)
    (inplace : Bool) (x y z : Int → T) :
    ∃ sums, biasadd run inplace ⟨input, x⟩ ⟨bias, y⟩ ⟨output, z⟩ =
        .ok ⟨⟨input, sums⟩, ⟨bias, y⟩, if inplace then ⟨input, sums⟩ else ⟨output, z⟩⟩ ∧
      ∀ l, InBox lead l → ∀ c < N, (NDArray.mk input sums).element (l ++ [c]) =
        (NDArray.mk input x).element (l ++ [c]) + (NDArray.mk bias y).element [0, c] := by
  obtain ⟨M, rfl, hM, hN⟩ := (isMatrix_iff h.input h.lead_ne).mp hmatrix
  have hpositive : 0 < M := h.lead_pos M List.mem_cons_self
  have hlength := h.length_pos
  obtain ⟨sums, hrun, hvalue⟩ := @addiRowVector_spec T ⟨input, x⟩ ⟨bias, y⟩ M N _ run
    h.input.shape_eq hpositive (by omega) h.input.honest h.input.cellsApart h.bias_shape
    h.bias_honest
  have hvector : isRowVectorArray bias := (isRowVectorArray_row h.bias_shape).mpr hN
  refine ⟨sums, ?_, fun l hl c hc => ?_⟩
  · rw [biasadd, if_neg (not_not.mpr hvector)]
    simp only [if_pos hmatrix, bind, Except.bind, hrun]
    cases inplace <;> rfl
  · rcases hl with - | ⟨hr, - | -⟩
    have hbox := inBox_concat (.cons hr .nil) hc
    rw [← h.input.shape_eq] at hbox
    have hcell := hvalue _ hr c hc
    exact (element_eq hbox).trans (hcell.trans (congrArg (· + _) (element_eq hbox).symm))

/-- What an array that is not a matrix leaves: the sums lie where its rows have their elements, in
the buffer of the output if that can be viewed as rows. -/
theorem biasadd_rows (h : BiasLayouts input bias output lead N) (hN : N ≠ 1)
    (hmatrix : ¬ isMatrix input) (inplace : Bool) (x y z : Int → T) {w : NDArray T}
    (hw : (if inplace then NDArray.mk input x else ⟨output, z⟩) = w) :
    ∃ sums, biasadd run inplace ⟨input, x⟩ ⟨bias, y⟩ ⟨output, z⟩ =
        .ok ⟨if inplace then ⟨w.shapeInfo, sums⟩ else ⟨input, x⟩, ⟨bias, y⟩, ⟨w.shapeInfo, sums⟩⟩ ∧
      (¬ CanBeRows w.shapeInfo lead N → sums = w.buffer) ∧
      (CanBeRows w.shapeInfo lead N →
        (∀ l, InBox lead l → ∀ c < N, sums (rowPlace input lead N l c) =
          (NDArray.mk input x).element (l ++ [c]) + (NDArray.mk bias y).element [0, c]) ∧
        ∀ i, (∀ l, InBox lead l → ∀ c < N, i ≠ rowPlace input lead N l c) →
          sums i = w.buffer i) := by
  have hNpos := h.length_pos
  have hlayout : RowsLayout w.shapeInfo lead N := by
    cases inplace with
    | false => exact hw ▸ h.output
    | true => exact hw ▸ h.input
  obtain ⟨rows, isFOrder, hrows, hbuffer, hrowsOf⟩ :=
    reshapeOn_rows run h.input h.lead_pos hNpos x
  obtain ⟨wrows, wOrder, hwrows, hwbuffer, hwrowsOf⟩ :=
    reshapeOn_rows run hlayout h.lead_pos hNpos w.buffer
  obtain ⟨work, hwork, hcombines⟩ := rowVector_spec 0 "NDArray::addRowVector: wrong arguments !"
    hrowsOf.shape_eq (List.prod_pos h.lead_pos) (by omega) hrowsOf.honest hrowsOf.cellsApart
    hwrowsOf.shape_eq h.bias_shape h.bias_honest
  have hvector : isRowVectorArray bias := (isRowVectorArray_row h.bias_shape).mpr hN
  have hlength : bias.length = N := by simp [ShapeInfo.length, h.bias_shape]
  set sums := runBroadcast (fun d1 d2 => d1 + d2) (inplace && decide (CanBeRows w.shapeInfo lead N))
    rows.buffer y (run.schedule work) wrows.buffer with hsums
  have hrun : biasadd run inplace ⟨input, x⟩ ⟨bias, y⟩ ⟨output, z⟩ =
      .ok ⟨if inplace then if CanBeRows w.shapeInfo lead N then ⟨w.shapeInfo, sums⟩ else w
        else ⟨input, x⟩, ⟨bias, y⟩,
        if CanBeRows w.shapeInfo lead N then ⟨w.shapeInfo, sums⟩ else w⟩ := by
    rw [biasadd, if_neg (not_not.mpr hvector)]
    simp only [if_neg hmatrix, hw, hlength, bind, Except.bind, hrows, hwrows, addRowVector, hwork,
      pure, Except.pure, decide_eq_true_eq]
    rfl
  by_cases hcan : CanBeRows w.shapeInfo lead N
  · refine ⟨sums, by rw [hrun, if_pos hcan], fun hnot => absurd hcan hnot, fun _ => ?_⟩
    have hplace : (inplace && decide (CanBeRows w.shapeInfo lead N)) = true →
        wrows.buffer = rows.buffer := by
      intro hin
      rw [Bool.and_eq_true, decide_eq_true_eq] at hin
      rw [if_pos hin.1] at hw
      subst hw
      rw [hwbuffer hcan, hbuffer hcan]
    obtain ⟨hvalue, hframe⟩ := hcombines _ T (fun d1 d2 => d1 + d2) (run.schedule work)
      (run.schedule_perm work) rows.buffer y wrows.buffer hplace
    refine ⟨fun l hl c hc => ?_, fun i hi => ?_⟩
    · have hcell := hvalue _ (indexOf_lt isFOrder hl) c hc
      rw [hrowsOf.place_eq l hl c hc, hrowsOf.element_eq l hl c hc] at hcell
      have hbias : (NDArray.mk bias y).element [0, c] = y (Strided.dot [0, c] bias.stride) :=
        element_eq (h.bias_shape.symm ▸ inBox_pair.mpr ⟨Nat.one_pos, hc⟩)
      rw [hbias]
      exact hcell
    · rw [← hwbuffer hcan]
      refine hframe i fun r hr c hc heq => ?_
      obtain ⟨l, hl, hindex⟩ := exists_indexOf isFOrder h.lead_pos hr
      rw [← hindex, hrowsOf.place_eq l hl c hc] at heq
      exact hi l hl c hc heq
  · exact ⟨w.buffer, by rw [hrun, if_neg hcan], fun _ => rfl, fun hyes => absurd hyes hcan⟩

end Results

/-! ## When the operation is right -/

section Right

variable {T : Type} [Ring T] {run : Runtime T} {input bias output : ShapeInfo} {lead : List Nat}
  {N : Nat}

variable (h : BiasLayouts input bias output lead N)

include h

theorem BiasLayouts.exists_row : ∃ l, InBox lead l :=
  ⟨_, (bijOn_coordinateOf false h.lead_pos).mapsTo (List.prod_pos h.lead_pos)⟩

/-- The layouts that are supported. -/
theorem addsBias_of_supported {inplace : Bool}
    (hsupported : BiasSupported inplace input output lead N) :
    AddsBias run inplace input bias output lead N := by
  intro x y z
  obtain ⟨hN, hmode⟩ := hsupported
  by_cases hmatrix : isMatrix input
  · obtain ⟨sums, hrun, hvalue⟩ := biasadd_matrix h hmatrix inplace x y z
    cases inplace with
    | false => exact absurd hmatrix (if_neg Bool.false_ne_true ▸ hmode).1
    | true =>
        exact ⟨_, hrun, hvalue, (fun hin => nomatch hin), fun c hc => rfl⟩
  · obtain ⟨sums, hrun, -, hsums⟩ := biasadd_rows h hN hmatrix inplace x y z rfl
    cases inplace with
    | false =>
        simp only [Bool.false_eq_true, if_false] at hmode hrun hsums
        obtain ⟨-, hcan, hplace⟩ := hmode
        refine ⟨_, hrun, fun l hl c hc => ?_, fun _ l hl c hc => rfl, fun c hc => rfl⟩
        have hcell := (hsums hcan).1 l hl c hc
        rw [hplace l hl c hc] at hcell
        exact (element_eq (h.output.shape_eq.symm ▸ inBox_concat hl hc)).trans hcell
    | true =>
        simp only [if_true] at hmode hrun hsums
        have hcan := hmode.resolve_left hmatrix
        refine ⟨_, hrun, fun l hl c hc => ?_, (fun hin => nomatch hin), fun c hc => rfl⟩
        have hcell := (hsums hcan).1 l hl c hc
        rw [rowPlace, if_pos hcan] at hcell
        exact (element_eq (h.input.shape_eq.symm ▸ inBox_concat hl hc)).trans hcell

/-- Where nothing is stored, a bias of ones is not added to zeros. -/
theorem not_addsBias_of_kept [Nontrivial T] {inplace : Bool}
    (hkept : ∀ x y z : Int → T, (∀ i, x i = 0) → (∀ i, z i = 0) →
      ∀ out, biasadd run inplace ⟨input, x⟩ ⟨bias, y⟩ ⟨output, z⟩ = .ok out →
        ∀ i, out.z.buffer i = 0) : ¬ AddsBias run inplace input bias output lead N := by
  intro hadds
  obtain ⟨out, hrun, hstores⟩ := hadds (fun _ => 0) (fun _ => 1) (fun _ => 0)
  obtain ⟨l, hl⟩ := h.exists_row
  have hsum := hstores.sum l hl 0 h.length_pos
  have hzero : out.z.element (l ++ [0]) = 0 :=
    hkept _ _ _ (fun _ => rfl) (fun _ => rfl) out hrun _
  rw [hzero] at hsum
  have hone : (0 : T) = 0 + 1 := hsum
  rw [zero_add] at hone
  exact zero_ne_one hone

/-- A sum that is stored in a cell of another element is not found. -/
theorem place_eq_of_addsBias [Nontrivial T] (hN : N ≠ 1) (hmatrix : ¬ isMatrix input)
    (hcan : CanBeRows output lead N) (hadds : AddsBias run false input bias output lead N)
    {l : List Nat} (hl : InBox lead l) {c : Nat} (hc : c < N) :
    rowPlace input lead N l c = Strided.dot (l ++ [c]) output.stride := by
  classical
  by_contra hne
  -- one at the element, and zeros elsewhere
  set x : Int → T := fun i => if i = Strided.dot (l ++ [c]) input.stride then 1 else 0 with hx
  have helement : ∀ l', InBox lead l' → ∀ c' < N,
      (NDArray.mk input x).element (l' ++ [c']) = if l' ++ [c'] = l ++ [c] then 1 else 0 := by
    intro l' hl' c' hc'
    have hbox := h.input.shape_eq.symm ▸ inBox_concat hl hc
    have hbox' := h.input.shape_eq.symm ▸ inBox_concat hl' hc'
    rw [element_eq hbox']
    by_cases hsame : l' ++ [c'] = l ++ [c]
    · rw [if_pos hsame, hsame]
      exact if_pos rfl
    · rw [if_neg hsame]
      exact if_neg fun heq => hsame (h.input.cellsApart _ _ hbox' hbox heq)
  obtain ⟨out, hrun, hstores⟩ := hadds x (fun _ => 0) (fun _ => 0)
  obtain ⟨sums, hrun', -, hsums⟩ := biasadd_rows h hN hmatrix false x (fun _ => 0)
    (fun _ => 0) rfl
  obtain ⟨hvalue, hframe⟩ := hsums hcan
  rw [hrun', Except.ok.injEq] at hrun
  subst hrun
  have hsum := hstores.sum l hl c hc
  rw [helement l hl c hc, if_pos rfl] at hsum
  have hcell : sums (Strided.dot (l ++ [c]) output.stride) = 1 + 0 :=
    (element_eq (h.output.shape_eq.symm ▸ inBox_concat hl hc)).symm.trans hsum
  by_cases hwritten : ∃ l', InBox lead l' ∧ ∃ c' < N,
      Strided.dot (l ++ [c]) output.stride = rowPlace input lead N l' c'
  · obtain ⟨l', hl', c', hc', hplace⟩ := hwritten
    have hother : l' ++ [c'] ≠ l ++ [c] := by
      intro heq
      obtain ⟨rfl, hlast⟩ := List.append_inj' heq rfl
      rw [(List.cons.inj hlast).1] at hplace
      exact hne hplace.symm
    rw [hplace, hvalue l' hl' c' hc', helement l' hl' c' hc', if_neg hother] at hcell
    have hzero : (0 : T) + 0 = 1 + 0 := hcell
    rw [add_zero, add_zero] at hzero
    exact zero_ne_one hzero
  · rw [hframe _ fun l' hl' c' hc' heq => hwritten ⟨l', hl', c', hc', heq⟩] at hcell
    have hzero : (0 : T) = 1 + 0 := hcell
    rw [add_zero] at hzero
    exact zero_ne_one hzero

omit h

/-- For which layouts the operation is right. -/
theorem addsBias_iff [Nontrivial T] (h : BiasLayouts input bias output lead N) (inplace : Bool) :
    AddsBias run inplace input bias output lead N ↔
      BiasSupported inplace input output lead N := by
  refine ⟨fun hadds => ?_, addsBias_of_supported h⟩
  have hN : N ≠ 1 := by
    intro hone
    obtain ⟨out, hrun, -⟩ := hadds (fun _ => 0) (fun _ => 0) (fun _ => 0)
    rw [biasadd_of_one h hone] at hrun
    cases hrun
  refine ⟨hN, ?_⟩
  cases inplace with
  | true =>
      rw [if_pos rfl]
      by_contra hnot
      rw [not_or] at hnot
      refine not_addsBias_of_kept h (fun x y z hx hz out hout i => ?_) hadds
      obtain ⟨sums, hrun, hsums, -⟩ := biasadd_rows h hN hnot.1 true x y z rfl
      rw [hrun, Except.ok.injEq] at hout
      subst hout
      rw [hsums hnot.2]
      exact hx i
  | false =>
      rw [if_neg Bool.false_ne_true]
      have hmatrix : ¬ isMatrix input := by
        intro hmatrix
        refine not_addsBias_of_kept h (fun x y z hx hz out hout i => ?_) hadds
        obtain ⟨sums, hrun, -⟩ := biasadd_matrix h hmatrix false x y z
        rw [hrun, Except.ok.injEq] at hout
        subst hout
        exact hz i
      have hcan : CanBeRows output lead N := by
        by_contra hnot
        refine not_addsBias_of_kept h (fun x y z hx hz out hout i => ?_) hadds
        obtain ⟨sums, hrun, hsums, -⟩ := biasadd_rows h hN hmatrix false x y z rfl
        rw [hrun, Except.ok.injEq] at hout
        subst hout
        have hkept : sums = z := hsums hnot
        rw [hkept]
        exact hz i
      exact ⟨hmatrix, hcan, fun l hl c hc => place_eq_of_addsBias h hN hmatrix hcan hadds hl hc⟩

end Right

/-! ## Small arrays -/

theorem rowsLayout_newShapeInfo {lead : List Nat} {N : Nat} (hpos : ∀ d ∈ lead ++ [N], 0 < d) :
    RowsLayout (newShapeInfo 'c' (lead ++ [N])) lead N where
  shape_eq := shape_newShapeInfo 'c' (lead ++ [N])
  honest := honestEws_newShapeInfo (Or.inl rfl) hpos
  cellsApart := cellsApart_newShapeInfo (Or.inl rfl) hpos
  order_eq := Or.inl (order_newShapeInfo (Or.inl rfl) _)

def rowOfTwo : ShapeInfo :=
  newShapeInfo 'c' [1, 2]

theorem biasLayouts_newShapeInfo {lead : List Nat} (hne : lead ≠ []) (hlead : ∀ d ∈ lead, 0 < d) :
    BiasLayouts (newShapeInfo 'c' (lead ++ [2])) rowOfTwo (newShapeInfo 'c' (lead ++ [2])) lead
      2 := by
  have hpos : ∀ d ∈ lead ++ [2], 0 < d := by
    intro d hd
    rcases List.mem_append.mp hd with hd | hd
    · exact hlead d hd
    · exact List.mem_singleton.mp hd ▸ Nat.two_pos
  exact ⟨hne, hlead, Nat.two_pos, rowsLayout_newShapeInfo hpos, rowsLayout_newShapeInfo hpos,
    shape_newShapeInfo 'c' [1, 2], honestEws_newShapeInfo (Or.inl rfl) (by decide)⟩

theorem canBeRows_cube : CanBeRows (newShapeInfo 'c' ([2, 2] ++ [2])) [2, 2] 2 := by
  have hpos : (newShapeInfo 'c' ([2, 2] ++ [2])).Positive := by decide
  have hshape : ∀ d ∈ [[2, 2].prod, 2], 0 < d := by decide
  have hstrides : ([2, 1] : List Int).length = [[2, 2].prod, 2].length := rfl
  exact canReshape_of_sameElements hpos hshape hstrides ⟨rfl, by decide⟩

theorem addsBias_iff_cube :
    AddsBias (oneThread fun _ => (0 : Rat)) false (newShapeInfo 'c' ([2, 2] ++ [2])) rowOfTwo
      (newShapeInfo 'c' ([2, 2] ++ [2])) [2, 2] 2 := by
  refine (addsBias_iff (biasLayouts_newShapeInfo (List.cons_ne_nil 2 [2]) (by decide)) false).mpr
    ⟨by decide, by decide, canBeRows_cube, fun l _ c _ => ?_⟩
  rw [rowPlace, if_pos canBeRows_cube]

/-- A matrix that is not processed in place: its output is not written. -/
theorem not_addsBias_always :
    ¬ ∀ (run : Runtime Rat) (inplace : Bool) (input bias output : ShapeInfo) (lead : List Nat)
      (N : Nat), BiasLayouts input bias output lead N → N ≠ 1 →
      AddsBias run inplace input bias output lead N := by
  intro h
  have hlayouts := biasLayouts_newShapeInfo (List.cons_ne_nil 2 []) (by decide)
  have hmatrix : isMatrix (newShapeInfo 'c' ([2] ++ [2])) := by decide
  refine not_addsBias_of_kept hlayouts (fun x y z _ hz out hout i => ?_)
    (h (oneThread fun _ => 0) false _ _ _ [2] 2 hlayouts (by decide))
  obtain ⟨sums, hrun, -⟩ := biasadd_matrix hlayouts hmatrix false x y z
  rw [hrun, Except.ok.injEq] at hout
  subst hout
  exact hz i

end Ops
end LibND4J
